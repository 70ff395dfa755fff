import Bugnes.Power

namespace Bugnes.PowerLoops

open Interleaving Power

structure Idle (t : Thread) : Prop where
  loop : .loop ∉ t
  starting : ∀ runmode, .starting runmode ∉ t

def Waiting : Thread → Prop
  | [] => True
  | .loop :: _ => False
  | .starting .threaded :: t => Idle t
  | _ :: t => Waiting t

/-- A loop at most, with no start above it. -/
def Nested : Thread → Prop
  | [] => True
  | .loop :: t | .starting .main :: t => Waiting t
  | .starting .threaded :: t => Idle t
  | _ :: t => Nested t

/-- A `sfot_poweron` that passes its guard does so while no loop is live and no
other call is about to start one. A call for the main mode may stand in a hook
that another one's look at the reset vector has called, which waits for it. -/
def Careful (others : List Thread) (t t' : Thread) : Prop := ∀ runmode, t' = .starting runmode :: t →
  (∀ u ∈ t :: others, .loop ∉ u) ∧ (∀ u ∈ others, ∀ mode, .starting mode ∉ u) ∧
    (runmode = .threaded → ∀ mode, .starting mode ∉ t)

def CarefulMove (others : List Thread) : Moves Interface Thread := fun x t x' t' new =>
  Move x t x' t' new ∧ Careful others t t'

structure Sound (s : Process) : Prop where
  nested : ∀ t ∈ s.threads, Nested t
  exclusive : Exclusive Idle s.threads

section Threads

variable {t : Thread} {f : Frame}

theorem Idle.tail (h : Idle (f :: t)) : Idle t :=
  ⟨fun hmem => h.loop (.tail _ hmem), fun mode hmem => h.starting mode (.tail _ hmem)⟩

theorem Idle.cons (h : Idle t) (hloop : f ≠ .loop) (hstarting : ∀ mode, f ≠ .starting mode) : Idle (f :: t) := by
  constructor
  · intro hmem
    rcases List.mem_cons.mp hmem with hf | ht
    · exact hloop hf.symm
    · exact h.loop ht
  · intro mode hmem
    rcases List.mem_cons.mp hmem with hf | ht
    · exact hstarting mode hf.symm
    · exact h.starting mode ht

theorem Idle.waiting (h : Idle t) : Waiting t := by
  induction t with
  | nil => trivial
  | cons f t ih =>
      cases f with
      | loop => exact h.loop (.head _)
      | starting mode => exact absurd (.head _) (h.starting mode)
      | _ => exact ih h.tail

theorem Waiting.nested (h : Waiting t) : Nested t := by
  induction t with
  | nil => trivial
  | cons f t ih =>
      cases f with
      | loop => exact h.elim
      | starting mode => cases mode <;> exact h
      | _ => exact ih h

theorem Nested.waiting (h : Nested t) (hloop : .loop ∉ t) : Waiting t := by
  induction t with
  | nil => trivial
  | cons f t ih =>
      cases f with
      | loop => exact hloop (.head _)
      | starting mode => cases mode <;> exact h
      | _ => exact ih h fun hmem => hloop (.tail _ hmem)

theorem Waiting.count (h : Waiting t) : t.count .loop = 0 := by
  induction t with
  | nil => rfl
  | cons f t ih =>
      rw [List.count_cons]
      cases f with
      | loop => exact h.elim
      | starting mode =>
          cases mode with
          | main => simpa using ih h
          | threaded => simpa using ih h.waiting
      | _ => simpa using ih h

theorem Nested.count (h : Nested t) : t.count .loop ≤ 1 := by
  induction t with
  | nil => exact Nat.zero_le 1
  | cons f t ih =>
      rw [List.count_cons]
      cases f with
      | loop => simp [Waiting.count h]
      | starting mode =>
          cases mode with
          | main => simp [Waiting.count h]
          | threaded => simp [Waiting.count (Idle.waiting h)]
      | _ => simpa using ih h

end Threads

section Steps

variable {x x' : Interface} {t t' : Thread} {others new : List Thread}

theorem move_nested (h : Move x t x' t' new) (hcareful : Careful others t t') (ht : Nested t) :
    Nested t' ∧ ∀ u ∈ new, Nested u := by
  cases h with
  | poweronAgain hf | poweroff hf | installStepCb _ hf => exact ⟨ht, by simp⟩
  | poweron runmode hf hoff =>
      obtain ⟨hloop, _, hmode⟩ := hcareful runmode rfl
      refine ⟨?_, by simp⟩
      cases runmode with
      | main => exact ht.waiting (hloop _ (.head _))
      | threaded => exact ⟨hloop _ (.head _), hmode rfl⟩
  | runThreaded => exact ⟨(Idle.waiting ht).nested, by simp [Nested, Waiting]⟩
  | returnNonzero => exact ⟨Waiting.nested ht, by simp⟩
  | _ => exact ⟨ht, by simp⟩

/-- A move wakes an idle thread only by passing the guard of `sfot_poweron`,
and leaves a thread behind only where it was about to start one. -/
theorem move_idle (h : Move x t x' t' new) (ht : Nested t) :
    (new = [] ∧ ((Idle t → Idle t') ∨ ∃ runmode, t' = .starting runmode :: t)) ∨
      ¬Idle t ∧ Idle t' ∧ new = [[.loop]] := by
  cases h with
  | poweronAgain | poweroff | installStepCb | instruction => exact .inl ⟨rfl, .inl id⟩
  | poweron runmode => exact .inl ⟨rfl, .inr ⟨runmode, rfl⟩⟩
  | runThreaded =>
      exact .inr ⟨fun h => h.starting _ (.head _), Idle.cons ht (by decide) (fun _ => by simp), rfl⟩
  | runMain | readReset => exact .inl ⟨rfl, .inl fun h => absurd (.head _) (h.starting _)⟩
  | callHook | callStepCb => exact .inl ⟨rfl, .inl fun h => absurd (.head _) h.loop⟩
  | setPoweredOn | returnHook | returnZero => exact .inl ⟨rfl, .inl Idle.tail⟩
  | returnNonzero => exact .inl ⟨rfl, .inl fun h => h.tail.tail⟩

theorem step_sound {s u : Process} (hs : Sound s) (h : Step CarefulMove s u) : Sound u := by
  cases h with
  | @move x x' t t' new before after hmove =>
      obtain ⟨hmove, hcareful⟩ := hmove
      have ht : Nested t := hs.nested t (by simp)
      obtain ⟨ht', hnew⟩ := move_nested hmove hcareful ht
      constructor
      · intro v hv
        simp only [List.mem_append, List.mem_cons] at hv
        rcases hv with (hv | rfl | hv) | hv
        · exact hs.nested v (by simp [hv])
        · exact ht'
        · exact hs.nested v (by simp [hv])
        · exact hnew v hv
      · obtain ⟨rfl, hwake⟩ | ⟨hbusy, hidle, rfl⟩ := move_idle hmove ht
        · rw [List.append_nil]
          rcases hwake with hkeep | ⟨runmode, hstart⟩
          · exact hs.exclusive.replace hkeep
          · obtain ⟨hloop, hstarting, _⟩ := hcareful runmode hstart
            exact exclusive_of_others fun v hv => ⟨hloop v (.tail _ hv), hstarting v hv⟩
        · have hothers := hs.exclusive.others hbusy
          have hall : ∀ v ∈ (before ++ t' :: after) ++ [], Idle v := by
            intro v hv
            simp only [List.append_nil, List.mem_append, List.mem_cons] at hv
            rcases hv with hv | rfl | hv
            · exact hothers v (by simp [hv])
            · exact hidle
            · exact hothers v (by simp [hv])
          exact exclusive_of_others hall

end Steps

theorem atFirst_sound (n : Nat) : Sound (atFirst n) := by
  have hidle : Idle [Frame.application] := ⟨by decide, by simp⟩
  constructor
  · intro t ht
    rw [List.eq_of_mem_replicate ht]
    exact hidle.waiting.nested
  · exact List.pairwise_of_forall_mem_list fun t ht _ _ => .inl (List.eq_of_mem_replicate ht ▸ hidle)

theorem Sound.live_le_one {s : Process} (h : Sound s) : live s ≤ 1 :=
  h.exclusive.sum_le (fun _ ht => ht.waiting.count) fun t ht => (h.nested t ht).count

section Careless

def Rooted : Thread → Prop
  | [] => True
  | f :: t => (f = .application → t = []) ∧ Rooted t

theorem move_rooted {x x' : Interface} {t t' : Thread} {new : List Thread} (h : Move x t x' t' new) (ht : Rooted t) :
    Rooted t' ∧ ∀ u ∈ new, Rooted u := by
  cases h with
  | poweronAgain | poweroff | installStepCb | instruction => exact ⟨ht, by simp⟩
  | poweron | readReset | callHook | callStepCb => exact ⟨⟨by simp, ht⟩, by simp⟩
  | runMain => exact ⟨⟨by simp, by simp, ht.2⟩, by simp⟩
  | runThreaded => exact ⟨⟨by simp, ht.2⟩, by simp [Rooted]⟩
  | setPoweredOn | returnHook | returnZero => exact ⟨ht.2, by simp⟩
  | returnNonzero => exact ⟨ht.2.2, by simp⟩

theorem rooted_of_run {n : Nat} {s : Process} (h : Run CarefulMove (atFirst n) s) : ∀ t ∈ s.threads, Rooted t := by
  refine Run.invariant (I := fun s => ∀ t ∈ s.threads, Rooted t) ?_ ?_ h
  · rintro s u hs ⟨before, after, hmove, _⟩ v hv
    obtain ⟨ht', hnew⟩ := move_rooted hmove (hs _ (by simp))
    simp only [List.mem_append, List.mem_cons] at hv
    rcases hv with (hv | rfl | hv) | hv
    · exact hs v (by simp [hv])
    · exact ht'
    · exact hs v (by simp [hv])
    · exact hnew v hv
  · intro t ht
    rw [List.eq_of_mem_replicate ht]
    exact ⟨by simp, trivial⟩

variable {x : Interface} {before after : List Thread} {t : Thread} {runmode : SfotRunningMode}

theorem live_middle (x : Interface) (before after : List Thread) (t : Thread) :
    live ⟨x, before ++ t :: after⟩ = live ⟨x, before ++ after⟩ + t.count .loop := by
  simp only [live, List.map_append, List.map_cons, List.sum_append, List.sum_cons]
  omega

theorem careful_of_length {others : List Thread} {t t' : Thread} (h : t'.length ≤ t.length) : Careful others t t' := by
  rintro mode rfl
  exact absurd h (by simp)

theorem start_runs (x : Interface) (before after : List Thread) (t : Thread) (runmode : SfotRunningMode) :
    ∃ t' new, Run CarefulMove ⟨x, before ++ (.starting runmode :: t) :: after⟩ ⟨x, before ++ t' :: after ++ new⟩ ∧
      live ⟨x, before ++ t' :: after ++ new⟩ = live ⟨x, before ++ (.starting runmode :: t) :: after⟩ + 1 ∧
      (runmode = .threaded → t' = .finishing :: t) := by
  cases runmode with
  | main =>
      refine ⟨_, [], .single (.move before after ⟨.runMain, fun _ h => by cases h⟩), ?_, by simp⟩
      rw [List.append_nil, live_middle, live_middle]
      simp
      omega
  | threaded =>
      refine ⟨_, _, .single (.move before after ⟨.runThreaded, fun _ h => by cases h⟩), ?_, fun _ => rfl⟩
      simp [live]
      omega

theorem unwind_runs (before after : List Thread) {t : Thread} (x : Interface) (ht : Rooted t) (hloop : .loop ∉ t)
    (hstarting : .starting runmode ∈ t) :
    ∃ x' mode t', Run CarefulMove ⟨x, before ++ t :: after⟩ ⟨x', before ++ (.starting mode :: t') :: after⟩ ∧
      .loop ∉ t' := by
  induction t generalizing x with
  | nil => cases hstarting
  | cons f t ih =>
      have hpop : ∀ x', Move x (f :: t) x' t [] → .starting runmode ∈ t →
          ∃ x' mode t', Run CarefulMove ⟨x, before ++ (f :: t) :: after⟩ ⟨x', before ++ (.starting mode :: t') :: after⟩ ∧
            .loop ∉ t' := by
        intro x' hmove hmem
        obtain ⟨x'', mode, t', hrun, ht'⟩ := ih x' ht.2 (fun h => hloop (.tail _ h)) hmem
        exact ⟨x'', mode, t', hrun.head (.quiet ⟨hmove, careful_of_length (Nat.le_succ _)⟩), ht'⟩
      have htail : (∀ mode, f ≠ .starting mode) → .starting runmode ∈ t := fun hf =>
        (List.mem_cons.mp hstarting).resolve_left fun h => hf runmode h.symm
      cases f with
      | application =>
          have hmem := htail (by simp)
          rw [ht.1 rfl] at hmem
          cases hmem
      | loop => exact absurd (.head _) hloop
      | starting mode => exact ⟨x, mode, t, .refl, fun h => hloop (.tail _ h)⟩
      | hook => exact hpop x .returnHook (htail (by simp))
      | stepCb => exact hpop x .returnZero (htail (by simp))
      | finishing => exact hpop _ .setPoweredOn (htail (by simp))

theorem wake_runs (x : Interface) (before after : List Thread) {t : Thread} (ht : Rooted t) (hloop : .loop ∉ t)
    (hstarting : .starting runmode ∈ t) :
    ∃ x' t' new, Run CarefulMove ⟨x, before ++ t :: after⟩ ⟨x', before ++ t' :: after ++ new⟩ ∧
      live ⟨x', before ++ t' :: after ++ new⟩ = live ⟨x, before ++ t :: after⟩ + 1 := by
  obtain ⟨x', mode, u, hrun, hu⟩ := unwind_runs before after x ht hloop hstarting
  obtain ⟨t', new, hstart, hlive, _⟩ := start_runs x' before after u mode
  refine ⟨x', t', new, hrun.trans hstart, ?_⟩
  have hcount : (Frame.starting mode :: u).count .loop = t.count .loop := by
    rw [List.count_cons_of_ne (by simp), List.count_eq_zero.mpr hloop, List.count_eq_zero.mpr hu]
  rw [hlive, live_middle, live_middle, hcount]
  rfl

/-- After a call that is not careful two loops may come to be live. -/
theorem careless_meets (hrooted : ∀ u ∈ before ++ (.starting runmode :: t) :: after, Rooted u)
    (h : ¬Careful (before ++ after) t (.starting runmode :: t)) :
    ∃ s, Run CarefulMove ⟨x, before ++ (.starting runmode :: t) :: after⟩ s ∧ 2 ≤ live s := by
  by_cases hlive : live ⟨x, before ++ (.starting runmode :: t) :: after⟩ = 0
  · have hloop : ∀ u ∈ before ++ (.starting runmode :: t) :: after, .loop ∉ u := by
      intro u hu
      have hzero := List.sum_eq_zero_iff_forall_eq_nat.mp hlive (u.count .loop) (List.mem_map_of_mem hu)
      exact List.count_eq_zero.mp hzero
    by_cases hother : ∃ u ∈ before ++ after, ∃ mode, .starting mode ∈ u
    · obtain ⟨u, hu, mode, hmode⟩ := hother
      have hmem : u ∈ before ++ (.starting runmode :: t) :: after := by
        rcases List.mem_append.mp hu with hu | hu <;> simp [hu]
      rcases List.mem_append.mp hu with hu | hu
      · obtain ⟨b₁, b₂, rfl⟩ := List.append_of_mem hu
        obtain ⟨x', u', new, hwake, hone⟩ :=
          wake_runs x b₁ (b₂ ++ (.starting runmode :: t) :: after) (hrooted u hmem) (hloop u hmem) hmode
        obtain ⟨t', new', hstart, htwo, _⟩ := start_runs x' (b₁ ++ u' :: b₂) (after ++ new) t runmode
        simp only [List.append_assoc, List.cons_append] at hwake hone hstart htwo hlive ⊢
        exact ⟨_, hwake.trans hstart, by omega⟩
      · obtain ⟨a₁, a₂, rfl⟩ := List.append_of_mem hu
        obtain ⟨x', u', new, hwake, hone⟩ :=
          wake_runs x (before ++ (.starting runmode :: t) :: a₁) a₂ (hrooted u hmem) (hloop u hmem) hmode
        obtain ⟨t', new', hstart, htwo, _⟩ := start_runs x' before (a₁ ++ u' :: a₂ ++ new) t runmode
        simp only [List.append_assoc, List.cons_append] at hwake hone hstart htwo hlive ⊢
        exact ⟨_, hwake.trans hstart, by omega⟩
    · have hself : runmode = .threaded ∧ ∃ mode, .starting mode ∈ t := by
        by_contra hnone
        refine h fun mode hmode => ⟨?_, fun u hu mode hmode => hother ⟨u, hu, mode, hmode⟩, ?_⟩
        · intro u hu
          rcases List.mem_cons.mp hu with rfl | hu
          · exact fun hmem => hloop (.starting runmode :: u) (by simp) (.tail _ hmem)
          · exact hloop u (by rcases List.mem_append.mp hu with hu | hu <;> simp [hu])
        · rintro rfl mode hmem
          cases hmode
          exact hnone ⟨rfl, mode, hmem⟩
      obtain ⟨rfl, mode, hmode⟩ := hself
      obtain ⟨t', new, hstart, hone, hfin⟩ := start_runs x before after t .threaded
      rw [hfin rfl] at hstart hone
      have hmem : (.starting .threaded :: t) ∈ before ++ (.starting .threaded :: t) :: after := by simp
      obtain ⟨x', u', new', hwake, htwo⟩ := wake_runs (t := .finishing :: t) x before (after ++ new)
        ⟨by simp, (hrooted _ hmem).2⟩ (by simpa using hloop _ hmem) (.tail _ hmode)
      simp only [List.append_assoc, List.cons_append] at hwake hone hstart htwo hlive ⊢
      exact ⟨_, hstart.trans hwake, by omega⟩
  · obtain ⟨t', new, hstart, hmore, _⟩ := start_runs x before after t runmode
    exact ⟨_, hstart, by omega⟩

end Careless

/-- While every `sfot_poweron` is careful at most one loop is live; after one
that is not, two may come to be. -/
theorem live_le_one_iff {n : Nat} {s : Process} (h : Run CarefulMove (atFirst n) s) :
    live s ≤ 1 ∧ ∀ before t after runmode, s.threads = before ++ t :: after →
      Move s.shared t s.shared (.starting runmode :: t) [] →
        (Careful (before ++ after) t (.starting runmode :: t) ↔
          ∀ u, Run CarefulMove ⟨s.shared, before ++ (.starting runmode :: t) :: after⟩ u → live u ≤ 1) := by
  have hsound : Sound s := Run.invariant (fun _ _ => step_sound) (atFirst_sound n) h
  refine ⟨hsound.live_le_one, fun before t after runmode hthreads hmove => ?_⟩
  obtain ⟨x, threads⟩ := s
  subst hthreads
  constructor
  · intro hcareful u hu
    have hstep : Step CarefulMove ⟨x, before ++ t :: after⟩ ⟨x, before ++ (.starting runmode :: t) :: after⟩ :=
      .quiet ⟨hmove, hcareful⟩
    exact (Run.invariant (fun _ _ => step_sound) (step_sound hsound hstep) hu).live_le_one
  · intro hsafe
    by_contra hcareless
    have hrooted : ∀ u ∈ before ++ (.starting runmode :: t) :: after, Rooted u := by
      intro u hu
      have hbefore := rooted_of_run h
      simp only [List.mem_append, List.mem_cons] at hu
      rcases hu with hu | rfl | hu
      · exact hbefore u (by simp [hu])
      · exact (move_rooted hmove (hbefore t (by simp))).1
      · exact hbefore u (by simp [hu])
    obtain ⟨u, hrun, htwo⟩ := careless_meets (x := x) hrooted hcareless
    have := hsafe u hrun
    omega

theorem sessions_run : Run CarefulMove (atFirst 1) ⟨⟨false, false⟩, [[.application], [.loop]]⟩ := by
  have hcall : Run CarefulMove (atFirst 1) ⟨⟨false, true⟩, [[.stepCb, .loop, .finishing, .application]]⟩ :=
    (((Relation.ReflTransGen.single (.alone ⟨.installStepCb true trivial, fun _ h => by cases h⟩)).tail
      (.alone ⟨.poweron .main trivial rfl, fun _ _ => ⟨by simp, by simp, by simp⟩⟩)).tail
      (.alone ⟨.runMain, fun _ h => by cases h⟩)).tail (.alone ⟨.callStepCb rfl, fun _ h => by cases h⟩)
  have hoff : Run CarefulMove (atFirst 1) ⟨⟨false, false⟩, [[.application]]⟩ :=
    ((hcall.tail (.alone ⟨.returnNonzero, fun _ h => by cases h⟩)).tail
      (.alone ⟨.setPoweredOn, fun _ h => by cases h⟩)).tail (.alone ⟨.poweroff trivial, fun _ h => by cases h⟩)
  have hdetached : Run CarefulMove (atFirst 1) ⟨⟨false, false⟩, [[.finishing, .application], [.loop]]⟩ :=
    (hoff.tail (.alone ⟨.poweron .threaded trivial rfl, fun _ _ => ⟨by simp, by simp, by simp⟩⟩)).tail
      (.move [] [] ⟨.runThreaded, fun _ h => by cases h⟩)
  have hset : Step CarefulMove ⟨⟨false, false⟩, [] ++ [.finishing, .application] :: [[.loop]]⟩
      ⟨⟨true, false⟩, [] ++ [.application] :: [[.loop]]⟩ := .quiet ⟨.setPoweredOn, fun _ h => by cases h⟩
  have hagain : Step CarefulMove ⟨⟨true, false⟩, [] ++ [.application] :: [[.loop]]⟩
      ⟨⟨false, false⟩, [] ++ [.application] :: [[.loop]]⟩ := .quiet ⟨.poweroff trivial, fun _ h => by cases h⟩
  exact (hdetached.tail hset).tail hagain

theorem live_le_one_sessions : live ⟨⟨false, false⟩, [[.application], [.loop]]⟩ ≤ 1 ∧
    ∃ u, Run CarefulMove ⟨⟨false, false⟩, [[.starting .main, .application], [.loop]]⟩ u ∧ 1 < live u := by
  obtain ⟨hone, hnext⟩ := live_le_one_iff sessions_run
  have hcall := hnext [] [.application] [[.loop]] .main rfl (.poweron .main trivial rfl)
  have hcareless : ¬Careful [[.loop]] [.application] [.starting .main, .application] := fun h =>
    (h .main rfl).1 [.loop] (by simp) (by simp)
  obtain ⟨u, hu⟩ := not_forall.mp (mt hcall.mpr hcareless)
  obtain ⟨hrun, htwo⟩ := Classical.not_imp.mp hu
  exact ⟨hone, u, hrun, not_le.mp htwo⟩

def reentered : Process := ⟨⟨false, true⟩, [[.loop, .finishing, .stepCb, .loop, .finishing, .application]]⟩

theorem poweron_reenters : Run (fun _ => Move) (atFirst 1) reentered ∧ live reentered = 2 := by
  refine ⟨?_, by decide⟩
  have hstart : Run (fun _ => Move) (atFirst 1) ⟨⟨false, true⟩, [[.loop, .finishing, .application]]⟩ :=
    ((Relation.ReflTransGen.single (.alone (.installStepCb true trivial))).tail
      (.alone (.poweron .main trivial rfl))).tail (.alone .runMain)
  exact ((hstart.tail (.alone (.callStepCb rfl))).tail (.alone (.poweron .main trivial rfl))).tail (.alone .runMain)

end Bugnes.PowerLoops
