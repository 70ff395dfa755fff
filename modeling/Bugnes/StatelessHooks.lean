import Bugnes.CpuTwoRuns

namespace Bugnes.StatelessHooks

open Words Memhooks CpuCore Addr OpcodeTable Opcodes Plain PlainRuns TwoRuns CpuTwoRuns

variable {F σ : Type}

/-- Hooks that are no more than functions of their arguments. -/
structure PureHooks (F : Type) where
  read : F → Word → Byte
  write : F → Word → Byte → Byte
  transl : F → Word → Word

def Acts (hf : HookFuns F σ) (p : PureHooks F) (f : F) : MhType → Prop
  | .read => ∀ a, hf.read f a = pure (p.read f a)
  | .write => ∀ a v, hf.write f a v = pure (p.write f a v)
  | .transl => ∀ a, hf.transl f a = pure (p.transl f a)

def Stateless (hf : HookFuns F σ) (p : PureHooks F) (t : AllMh F) : Prop :=
  ∀ ty, ∀ mh ∈ t ty, ∀ f ∈ mh.memhookF, Acts hf p f ty

def PureHooks.funs (p : PureHooks F) : HookFuns F Unit where
  read f a := pure (p.read f a)
  write f a v := pure (p.write f a v)
  transl f a := pure (p.transl f a)
  exc _ _ _ := pure ()

theorem PureHooks.stateless (p : PureHooks F) (t : AllMh F) : Stateless p.funs p t := by
  intro ty mh _ f _
  cases ty with
  | read => exact fun _ => rfl
  | write => exact fun _ _ => rfl
  | transl => exact fun _ => rfl

theorem excepthookCheck_silent {hf : HookFuns F σ} {m : Machine F σ} {ty : EhType} {a : Word} {s : String}
    (h : ∀ f ∈ m.ehFunV ty, ∀ a s, hf.exc f a s = pure ()) : (excepthookCheck hf ty a s).run m = .ok ((), m) := by
  cases hm : m.ehFunV ty with
  | none => simp [excepthookCheck, hm]
  | some f =>
      have hsilent : hf.exc f a s = pure () := h f hm a s
      simp [excepthookCheck, hm, hsilent]

theorem checkList_some {a : Word} {xs : List (Memhook F)} {f : F} (h : checkList a xs = some f) :
    ∃ mh ∈ xs, f ∈ mh.memhookF := by
  induction xs with
  | nil => cases h
  | cons mh rest ih =>
      rw [checkList] at h
      split at h
      · exact ⟨mh, .head _, h⟩
      · obtain ⟨mh', hmem, hf⟩ := ih h
        exact ⟨mh', .tail _ hmem, hf⟩

theorem Stateless.acts {hf : HookFuns F σ} {p : PureHooks F} {t : AllMh F} (h : Stateless hf p t) {ty : MhType}
    {a : Word} {f : F} (hf' : check t ty a = some f) : Acts hf p f ty := by
  obtain ⟨mh, hmem, hmh⟩ := checkList_some hf'
  exact h ty mh hmem f hmh

section View

variable (p : PureHooks F) (t : AllMh F) (mem : Word → Byte) (a : Word)

def translated : Word :=
  match check t .transl a with
  | some f => p.transl f a
  | none => a

def seen : Byte :=
  match check t .read (translated p t a) with
  | some f => p.read f (translated p t a)
  | none => mem (translated p t a)

/-- What a write puts into the array. -/
def stored (v : Byte) : Byte :=
  match check t .write a with
  | some f => p.write f a v
  | none => v

end View

/-- The machine with the memory that its reads find. -/
def viewed (p : PureHooks F) (m : Machine F σ) : Machine F σ := { m with mem := seen p m.allMh m.mem }

variable {hf : HookFuns F σ} {p : PureHooks F} {m : Machine F σ} (h : Stateless hf p m.allMh)

include h

theorem translAddr_stateless (a : Word) : (translAddr hf a).run m = .ok (translated p m.allMh a, m) := by
  cases hc : check m.allMh .transl a with
  | none => simp [translAddr, translated, hc]
  | some f =>
      have hact : hf.transl f a = pure (p.transl f a) := h.acts hc a
      simp [translAddr, translated, hc, hact]

theorem memRead_stateless (a : Word) : (memRead hf a).run m = .ok (seen p m.allMh m.mem a, m) := by
  have ha := translAddr_stateless h a
  cases hc : check m.allMh .read (translated p m.allMh a) with
  | none => simp [memRead, seen, ha, hc]
  | some f =>
      have hact : hf.read f (translated p m.allMh a) = pure (p.read f (translated p m.allMh a)) := h.acts hc _
      simp [memRead, seen, ha, hc, hact]

theorem memRead16_stateless (a : Word) :
    (memRead16 hf a).run m = .ok (wordAt (seen p m.allMh m.mem) a, m) := by
  rw [memRead16, StateT.run_bind, memRead_stateless h, ok_bind, StateT.run_bind, memRead_stateless h, ok_bind]
  rfl

theorem reading_stateless : Reading hf (Along (· = m)) fun _ => False := by
  refine ⟨fun _ _ hR => by rw [hR.1], fun _ _ hR => by rw [hR.1], fun a => ?_⟩
  rintro _ _ ⟨rfl, rfl⟩
  rw [memRead_stateless h]
  exact ⟨rfl, rfl, rfl⟩

theorem addr_stateless (mode : AddrMode) : ∃ e, (addr hf mode).run m = .ok (e, m) := by
  obtain ⟨e, m', hrun, hm'⟩ := ((reading_stateless h).addr mode).total rfl
  exact ⟨e, hm' ▸ hrun⟩

theorem addrModeGetValue_stateless (mode : AddrMode) : ∃ v, (addrModeGetValue hf mode).run m = .ok (v, m) := by
  obtain ⟨v, m', hrun, hm'⟩ := ((reading_stateless h).addrModeGetValue mode).total rfl
  exact ⟨v, hm' ▸ hrun⟩

theorem addr_viewed (mode : AddrMode) : (addr hf mode).run m = .ok (addrOf mode (viewed p m), m) := by
  have hread := fun a => memRead_stateless h a
  have hread16 := fun a => memRead16_stateless h a
  cases mode <;> simp [addr, hread, hread16, addrOf, viewed, ShortRegs.get]

theorem memWrite_stateless (a : Word) (v : Byte) :
    (memWrite hf a v).run m = .ok ((), { m with
      mem := Function.update m.mem (translated p m.allMh a) (stored p m.allMh (translated p m.allMh a) v) }) := by
  have ha := translAddr_stateless h a
  cases hc : check m.allMh .write (translated p m.allMh a) with
  | none => simp [memWrite, stored, ha, hc]
  | some f =>
      have hact : hf.write f (translated p m.allMh a) v = pure (p.write f (translated p m.allMh a) v) := h.acts hc _ _
      simp [memWrite, stored, ha, hc, hact]

theorem memInc_stateless (a : Word) (v : Int) :
    (memInc hf a v).run m = .ok ((), { m with
      mem := Function.update m.mem (translated p m.allMh a)
        (stored p m.allMh (translated p m.allMh a) (m.mem (translated p m.allMh a) + BitVec.ofInt 8 v)) }) := by
  have ha := translAddr_stateless h a
  cases hc : check m.allMh .write (translated p m.allMh a) with
  | none => simp [memInc, stored, ha, hc]
  | some f =>
      have hact : hf.write f (translated p m.allMh a) (m.mem (translated p m.allMh a) + BitVec.ofInt 8 v) =
          pure (p.write f (translated p m.allMh a) (m.mem (translated p m.allMh a) + BitVec.ofInt 8 v)) := h.acts hc _ _
      simp [memInc, stored, ha, hc, hact]

end Bugnes.StatelessHooks
