import Mathlib.Data.List.Basic
import Mathlib.Logic.Relation
import Bugnes.Simple6502

namespace Bugnes.Keyboard

open Words Simple6502

structure Keysym where
  sym : BitVec 32
  mod : BitVec 16
deriving DecidableEq, Repr

/-- The values of SDL's headers. -/
class SdlHeaders where
  sdlkEscape : BitVec 32
  kmodNone : BitVec 16
  kmodLshift : BitVec 16

open SdlHeaders

variable [SdlHeaders]

inductive Event
  | quit
  | keydown (keysym : Keysym)
  | keyup (keysym : Keysym)
  | other
deriving DecidableEq, Repr

inductive Response
  | exit
  | ignore
  | store (keycode : Byte)
deriving DecidableEq, Repr

/-- The tests of the event loop, and what of the symbol fits in `keycode`. -/
def respond : Event → Response
  | .quit => .exit
  | .keydown key =>
      if key.sym = sdlkEscape ∧ key.mod &&& kmodLshift ≠ 0 then .exit
      else if key.mod ≠ kmodNone then .ignore
      else .store (key.sym.setWidth 8)
  | .keyup _ => .store 0
  | .other => .ignore

/-- Where the event loop is, with the events that are still to come. -/
inductive MainPhase
  | waiting (events : List Event)
  | locking (v : Byte) (events : List Event)
  | storing (v : Byte) (events : List Event)
  | unlocking (events : List Event)
  | ended

/-- Where the thread of the CPU is: in its own code, or in `keycode_memhook`. -/
inductive CpuPhase
  | running
  | locking
  | looking
  | unlocking (ret : Byte)

/-- `keycode`, its mutex, both threads, and what the hook has returned so far. -/
structure State where
  keycode : Byte
  locked : Bool
  main : MainPhase
  cpu : CpuPhase
  reads : List Byte

inductive Step : State → State → Prop
  | ignore {k l e es c rs} : respond e = .ignore →
      Step ⟨k, l, .waiting (e :: es), c, rs⟩ ⟨k, l, .waiting es, c, rs⟩
  | exit {k l e es c rs} : respond e = .exit →
      Step ⟨k, l, .waiting (e :: es), c, rs⟩ ⟨k, l, .ended, c, rs⟩
  | store {k l e es v c rs} : respond e = .store v →
      Step ⟨k, l, .waiting (e :: es), c, rs⟩ ⟨k, l, .locking v es, c, rs⟩
  | mainLock {k v es c rs} : Step ⟨k, false, .locking v es, c, rs⟩ ⟨k, true, .storing v es, c, rs⟩
  | mainStore {k l v es c rs} : Step ⟨k, l, .storing v es, c, rs⟩ ⟨v, l, .unlocking es, c, rs⟩
  | mainUnlock {k l es c rs} : Step ⟨k, l, .unlocking es, c, rs⟩ ⟨k, false, .waiting es, c, rs⟩
  -- the process is gone when `main` is
  | call {k l p rs} : p ≠ .ended → Step ⟨k, l, p, .running, rs⟩ ⟨k, l, p, .locking, rs⟩
  | cpuLock {k p rs} : p ≠ .ended → Step ⟨k, false, p, .locking, rs⟩ ⟨k, true, p, .looking, rs⟩
  | look {k l p rs} : p ≠ .ended → Step ⟨k, l, p, .looking, rs⟩ ⟨k, l, p, .unlocking k, rs⟩
  | cpuUnlock {k l p v rs} : p ≠ .ended →
      Step ⟨k, l, p, .unlocking v, rs⟩ ⟨k, false, p, .running, rs ++ [v]⟩

abbrev Run : State → State → Prop := Relation.ReflTransGen Step

def start (events : List Event) : State := ⟨0, false, .waiting events, .running, []⟩

def keyAfter (events : List Event) : Byte :=
  events.foldl (fun k e => match respond e with | .store v => v | _ => k) 0

def Reached (events : List Event) (p : Nat) : Prop :=
  p ≤ events.length ∧ ∀ e ∈ events.take p, respond e ≠ .exit

def MainHolds : MainPhase → Prop
  | .storing .. | .unlocking _ => True
  | .waiting _ | .locking .. | .ended => False

def CpuHolds : CpuPhase → Prop
  | .looking | .unlocking _ => True
  | .running | .locking => False

structure Exclusive (s : State) : Prop where
  locked : s.locked = true ↔ MainHolds s.main ∨ CpuHolds s.cpu
  alone : ¬(MainHolds s.main ∧ CpuHolds s.cpu)

theorem step_exclusive {s t : State} (h : Exclusive s) (hstep : Step s t) : Exclusive t := by
  obtain ⟨hlocked, halone⟩ := h
  cases hstep with
  | ignore | exit | store | mainStore | call | look => exact ⟨hlocked, halone⟩
  | mainLock =>
      have hcpu : ¬CpuHolds _ := fun hc => Bool.false_ne_true (hlocked.mpr (.inr hc))
      exact ⟨iff_of_true rfl (.inl trivial), fun h => hcpu h.2⟩
  | mainUnlock =>
      have hcpu : ¬CpuHolds _ := fun hc => halone ⟨trivial, hc⟩
      exact ⟨iff_of_false Bool.false_ne_true fun h => h.elim id hcpu, And.left⟩
  | cpuLock =>
      have hmain : ¬MainHolds _ := fun hm => Bool.false_ne_true (hlocked.mpr (.inl hm))
      exact ⟨iff_of_true rfl (.inr trivial), fun h => hmain h.1⟩
  | cpuUnlock =>
      have hmain : ¬MainHolds _ := fun hm => halone ⟨hm, trivial⟩
      exact ⟨iff_of_false Bool.false_ne_true fun h => h.elim hmain id, And.right⟩

/-- Where the event loop is when the first `p` events have had their effect. -/
def At (events : List Event) (p : Nat) : MainPhase → Prop
  | .waiting es | .unlocking es => events.drop p = es
  | .locking v es | .storing v es => ∃ e, events.drop p = e :: es ∧ respond e = .store v
  | .ended => True

/-- The hook has returned the key codes of some points of the sequence, in their
order and none of them still to come. -/
def Sampled (events : List Event) (p : Nat) (rs : List Byte) (ps : List Nat) : Prop :=
  ps.Pairwise (· ≤ ·) ∧ (∀ q ∈ ps, q ≤ p) ∧ rs = ps.map fun q => keyAfter (events.take q)

/-- What a call of the hook that is not over yet is about to return. -/
def Sampling (events : List Event) (p : Nat) (ps : List Nat) : CpuPhase → Prop
  | .unlocking v => ∃ q ≤ p, (∀ r ∈ ps, r ≤ q) ∧ v = keyAfter (events.take q)
  | .running | .locking | .looking => True

def Seen (events : List Event) (s : State) : Prop :=
  ∃ p ps, Reached events p ∧ s.keycode = keyAfter (events.take p) ∧ At events p s.main ∧
    Sampled events p s.reads ps ∧ Sampling events p ps s.cpu

theorem Sampled.mono {events : List Event} {p p' : Nat} {rs : List Byte} {ps : List Nat} (h : Sampled events p rs ps)
    (hp : p ≤ p') : Sampled events p' rs ps := ⟨h.1, fun q hq => (h.2.1 q hq).trans hp, h.2.2⟩

theorem Sampling.mono {events : List Event} {p p' : Nat} {ps : List Nat} {c : CpuPhase} (h : Sampling events p ps c)
    (hp : p ≤ p') : Sampling events p' ps c := by
  cases c with
  | unlocking v =>
      obtain ⟨q, hq, hrest⟩ := h
      exact ⟨q, hq.trans hp, hrest⟩
  | _ => trivial

section Events

variable {events es : List Event} {e : Event} {p : Nat}

omit [SdlHeaders] in
theorem take_next (h : events.drop p = e :: es) : events.take (p + 1) = events.take p ++ [e] := by
  rw [List.take_add, h]
  rfl

omit [SdlHeaders] in
theorem drop_next (h : events.drop p = e :: es) : events.drop (p + 1) = es := by
  rw [← List.drop_drop, h]
  rfl

theorem Reached.next (h : Reached events p) (hdrop : events.drop p = e :: es) (he : respond e ≠ .exit) :
    Reached events (p + 1) := by
  have hlen := congrArg List.length hdrop
  rw [List.length_drop, List.length_cons] at hlen
  refine ⟨by omega, fun f hf => ?_⟩
  rw [take_next hdrop] at hf
  rcases List.mem_append.mp hf with hf | hf
  · exact h.2 f hf
  · rwa [List.mem_singleton.mp hf]

theorem keyAfter_next (h : events.drop p = e :: es) :
    keyAfter (events.take (p + 1)) = match respond e with | .store v => v | _ => keyAfter (events.take p) := by
  rw [take_next h, keyAfter, List.foldl_append]
  rfl

end Events

theorem step_seen {events : List Event} {s t : State} (h : Seen events s) (hstep : Step s t) : Seen events t := by
  obtain ⟨p, ps, hp, hkey, hat, hsampled, hsampling⟩ := h
  cases hstep with
  | @ignore k l e es c rs he =>
      have hnext := keyAfter_next hat
      rw [he] at hnext
      exact ⟨p + 1, ps, hp.next hat (by rw [he]; nofun), hkey.trans hnext.symm, drop_next hat,
        hsampled.mono (Nat.le_succ p), hsampling.mono (Nat.le_succ p)⟩
  | exit he => exact ⟨p, ps, hp, hkey, trivial, hsampled, hsampling⟩
  | store he => exact ⟨p, ps, hp, hkey, ⟨_, hat, he⟩, hsampled, hsampling⟩
  | mainLock => exact ⟨p, ps, hp, hkey, hat, hsampled, hsampling⟩
  | mainStore =>
      obtain ⟨e, hdrop, he⟩ := hat
      have hnext := keyAfter_next hdrop
      rw [he] at hnext
      exact ⟨p + 1, ps, hp.next hdrop (by rw [he]; nofun), hnext.symm, drop_next hdrop,
        hsampled.mono (Nat.le_succ p), hsampling.mono (Nat.le_succ p)⟩
  | mainUnlock => exact ⟨p, ps, hp, hkey, hat, hsampled, hsampling⟩
  | call _ => exact ⟨p, ps, hp, hkey, hat, hsampled, trivial⟩
  | cpuLock _ => exact ⟨p, ps, hp, hkey, hat, hsampled, trivial⟩
  | look _ => exact ⟨p, ps, hp, hkey, hat, hsampled, p, le_rfl, hsampled.2.1, hkey⟩
  | cpuUnlock _ =>
      obtain ⟨q, hq, hlast, hv⟩ := hsampling
      obtain ⟨hsorted, hbound, hreads⟩ := hsampled
      refine ⟨p, ps ++ [q], hp, hkey, hat, ⟨?_, ?_, ?_⟩, trivial⟩
      · exact List.pairwise_append.mpr ⟨hsorted, List.pairwise_singleton _ _,
          fun r hr q' hq' => (List.mem_singleton.mp hq').symm ▸ hlast r hr⟩
      · intro r hr
        rcases List.mem_append.mp hr with hr | hr
        · exact hbound r hr
        · rwa [List.mem_singleton.mp hr]
      · rw [List.map_append, ← hreads, hv]
        rfl

theorem run_exclusive {s t : State} (h : Exclusive s) (hrun : Run s t) : Exclusive t := by
  induction hrun with
  | refl => exact h
  | tail _ hstep ih => exact step_exclusive ih hstep

theorem run_seen {events : List Event} {s t : State} (h : Seen events s) (hrun : Run s t) : Seen events t := by
  induction hrun with
  | refl => exact h
  | tail _ hstep ih => exact step_seen ih hstep

omit [SdlHeaders] in
theorem exclusive_start (events : List Event) : Exclusive (start events) :=
  ⟨iff_of_false Bool.false_ne_true fun h => h.elim id id, fun h => h.1⟩

theorem seen_start (events : List Event) : Seen events (start events) :=
  ⟨0, [], ⟨Nat.zero_le _, fun _ h => (List.not_mem_nil h).elim⟩, rfl, rfl,
    ⟨List.Pairwise.nil, fun _ h => (List.not_mem_nil h).elim, rfl⟩, trivial⟩

theorem run_event (k : Byte) (e : Event) (es : List Event) (c : CpuPhase) (rs : List Byte) :
    (respond e = .exit ∧ Run ⟨k, false, .waiting (e :: es), c, rs⟩ ⟨k, false, .ended, c, rs⟩) ∨
    (respond e ≠ .exit ∧ Run ⟨k, false, .waiting (e :: es), c, rs⟩
      ⟨match respond e with | .store v => v | _ => k, false, .waiting es, c, rs⟩) := by
  cases he : respond e with
  | exit => exact .inl ⟨rfl, .single (.exit he)⟩
  | ignore => exact .inr ⟨nofun, .single (.ignore he)⟩
  | store v =>
      have hlock : Run ⟨k, false, .waiting (e :: es), c, rs⟩ ⟨k, true, .storing v es, c, rs⟩ :=
        (Relation.ReflTransGen.single (.store he)).tail .mainLock
      exact .inr ⟨nofun, (hlock.tail .mainStore).tail .mainUnlock⟩

def Settled (p : MainPhase) : Prop := p = .ended ∨ p = .waiting []

theorem run_events (es : List Event) (k : Byte) (c : CpuPhase) (rs : List Byte) :
    ∃ t, Run ⟨k, false, .waiting es, c, rs⟩ t ∧ Settled t.main := by
  induction es generalizing k with
  | nil => exact ⟨_, .refl, .inr rfl⟩
  | cons e es ih =>
      rcases run_event k e es c rs with ⟨-, hrun⟩ | ⟨-, hrun⟩
      · exact ⟨_, hrun, .inl rfl⟩
      · obtain ⟨t, hrest, ht⟩ := ih (match respond e with | .store v => v | _ => k)
        exact ⟨t, hrun.trans hrest, ht⟩

theorem run_release {s : State} (h : Exclusive s) (hmain : ¬MainHolds s.main) (hover : s.main ≠ .ended) :
    ∃ c rs, Run s ⟨s.keycode, false, s.main, c, rs⟩ := by
  obtain ⟨k, l, p, c, rs⟩ := s
  have hfree : ¬CpuHolds c → l = false := fun hcpu =>
    Bool.eq_false_iff.mpr fun hl => (h.locked.mp hl).elim hmain hcpu
  cases c with
  | running =>
      obtain rfl := hfree id
      exact ⟨_, _, .refl⟩
  | locking =>
      obtain rfl := hfree id
      exact ⟨_, _, .refl⟩
  | unlocking v => exact ⟨_, _, .single (.cpuUnlock hover)⟩
  | looking => exact ⟨_, _, (Relation.ReflTransGen.single (.look hover)).tail (.cpuUnlock hover)⟩

theorem Exclusive.settles {s : State} (h : Exclusive s) : ∃ t, Run s t ∧ Settled t.main := by
  obtain ⟨k, l, p, c, rs⟩ := s
  cases p with
  | ended => exact ⟨_, .refl, .inl rfl⟩
  | waiting es =>
      obtain ⟨c', rs', hrun⟩ := run_release h id nofun
      obtain ⟨t, hrest, ht⟩ := run_events es k c' rs'
      exact ⟨t, hrun.trans hrest, ht⟩
  | locking v es =>
      obtain ⟨c', rs', hrun⟩ := run_release h id nofun
      obtain ⟨t, hrest, ht⟩ := run_events es v c' rs'
      exact ⟨t, (((hrun.tail .mainLock).tail .mainStore).tail .mainUnlock).trans hrest, ht⟩
  | storing v es =>
      obtain ⟨t, hrest, ht⟩ := run_events es v c rs
      exact ⟨t, ((Relation.ReflTransGen.single .mainStore).tail .mainUnlock).trans hrest, ht⟩
  | unlocking es =>
      obtain ⟨t, hrest, ht⟩ := run_events es k c rs
      exact ⟨t, (Relation.ReflTransGen.single .mainUnlock).trans hrest, ht⟩

theorem Reached.mono {events : List Event} {p q : Nat} (h : Reached events p) (hq : q ≤ p) : Reached events q :=
  ⟨hq.trans h.1, fun e he => h.2 e (List.take_subset_take_left events hq he)⟩

def idle (events : List Event) (p : Nat) (rs : List Byte) : State :=
  ⟨keyAfter (events.take p), false, .waiting (events.drop p), .running, rs⟩

theorem run_to {events : List Event} {p q : Nat} (h : Reached events q) (hp : p ≤ q) (rs : List Byte) :
    Run (idle events p rs) (idle events q rs) := by
  induction q, hp using Nat.le_induction with
  | base => exact .refl
  | succ q _ ih =>
      have hlt : q < events.length := h.1
      have hdrop : events.drop q = events[q] :: events.drop (q + 1) := List.drop_eq_getElem_cons hlt
      have hbefore := ih (h.mono (Nat.le_succ q))
      have hmem : events[q] ∈ events.take (q + 1) := by
        rw [take_next hdrop]
        exact List.mem_append_right _ (List.mem_singleton.mpr rfl)
      rcases run_event (keyAfter (events.take q)) events[q] (events.drop (q + 1)) .running rs with ⟨hexit, -⟩ | ⟨-, hrun⟩
      · exact absurd hexit (h.2 _ hmem)
      · rw [← keyAfter_next hdrop, ← hdrop] at hrun
        exact hbefore.trans hrun

theorem run_call (events : List Event) (p : Nat) (rs : List Byte) :
    Run (idle events p rs) (idle events p (rs ++ [keyAfter (events.take p)])) := by
  have hlock : Run (idle events p rs) ⟨_, true, .waiting (events.drop p), .looking, rs⟩ :=
    (Relation.ReflTransGen.single (.call nofun)).tail (.cpuLock nofun)
  exact (hlock.tail (.look nofun)).tail (.cpuUnlock nofun)

theorem run_points {events : List Event} {ps : List Nat} (hsorted : ps.Pairwise (· ≤ ·))
    (hreached : ∀ p ∈ ps, Reached events p) {p : Nat} (hfirst : ∀ q ∈ ps, p ≤ q) (rs : List Byte) :
    ∃ q, Run (idle events p rs) (idle events q (rs ++ ps.map fun q => keyAfter (events.take q))) := by
  induction ps generalizing p rs with
  | nil =>
      rw [List.map_nil, List.append_nil]
      exact ⟨p, .refl⟩
  | cons q ps ih =>
      obtain ⟨hq, hsorted'⟩ := List.pairwise_cons.mp hsorted
      have hto := run_to (hreached q List.mem_cons_self) (hfirst q List.mem_cons_self) rs
      obtain ⟨r, hrest⟩ := ih hsorted' (fun x hx => hreached x (List.mem_cons_of_mem q hx)) hq
        (rs ++ [keyAfter (events.take q)])
      rw [List.append_assoc, List.singleton_append] at hrest
      exact ⟨r, (hto.trans (run_call events q rs)).trans hrest⟩

def looks (n : Nat) : ScreenM (List Byte) := (List.replicate n keyHookOffset).mapM keycodeMemhook

omit [SdlHeaders] in
theorem looks_run (w : Screen) (n : Nat) :
    (looks n).run w = .ok ((List.range n).map w.keycode, { w with keycode := fun i => w.keycode (i + n) }) := by
  induction n generalizing w with
  | zero => rfl
  | succ n ih =>
      have hrest := ih { w with keycode := fun i => w.keycode (i + 1) }
      rw [looks, List.replicate_succ, List.mapM_cons, StateT.run_bind]
      show (((looks n >>= fun rs => pure (w.keycode 0 :: rs)).run { w with keycode := fun i => w.keycode (i + 1) } :
        Except Fault (List Byte × Screen))) = _
      rw [StateT.run_bind, hrest, List.range_succ_eq_map, List.map_cons, List.map_map]
      simp only [Nat.add_assoc, Nat.add_comm n 1]
      rfl

/-- The two threads are never in the section together, and the loop always gets
through what events there are. What the hook of the machine may come to see is
the key codes of an ascending row of points of the events, and any such row. -/
theorem keycode_sampled (events : List Event) :
    (∀ s, Run (start events) s →
      ¬(MainHolds s.main ∧ CpuHolds s.cpu) ∧ ∃ t, Run s t ∧ Settled t.main) ∧
    ∀ (w : Screen) (n : Nat), (∃ s, Run (start events) s ∧ (looks n).run' w = .ok s.reads) ↔
      ∃ ps : List Nat, ps.Pairwise (· ≤ ·) ∧ (∀ p ∈ ps, Reached events p) ∧
        (List.range n).map w.keycode = ps.map fun p => keyAfter (events.take p) := by
  constructor
  · intro s hrun
    have h := run_exclusive (exclusive_start events) hrun
    exact ⟨h.alone, h.settles⟩
  · intro w n
    have hlooks : (looks n).run' w = .ok ((List.range n).map w.keycode) :=
      congrArg (fun r => Prod.fst <$> r) (looks_run w n)
    rw [hlooks]
    constructor
    · rintro ⟨s, hrun, hreads⟩
      obtain ⟨p, ps, hp, -, -, ⟨hsorted, hbound, hsampled⟩, -⟩ := run_seen (seen_start events) hrun
      exact ⟨ps, hsorted, fun q hq => hp.mono (hbound q hq), (Except.ok.inj hreads).trans hsampled⟩
    · rintro ⟨ps, hsorted, hreached, hreads⟩
      obtain ⟨q, hrun⟩ := run_points hsorted hreached (fun _ _ => Nat.zero_le _) []
      exact ⟨_, hrun, congrArg Except.ok hreads⟩

end Bugnes.Keyboard
