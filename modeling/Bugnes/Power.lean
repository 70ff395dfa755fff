import Bugnes.Interleaving
import Bugnes.Sfot

namespace Bugnes.Power

open Words CpuCore Sfot Interleaving

inductive SfotRunningMode
  | main
  | threaded
deriving DecidableEq, Repr

/-- What a thread is in the middle of. -/
inductive Frame
  | application
  | hook
  | stepCb
  -- in `cpu_thread`, between two instructions or in the code it calls
  | loop
  -- in `sfot_poweron`, past its guard
  | starting (runmode : SfotRunningMode)
  -- there too, with the flag yet to be set
  | finishing
deriving DecidableEq, Repr

abbrev Thread := List Frame

/-- The variables that the calls test, of the callback whether there is one. -/
structure Interface where
  isPoweredOn : Bool
  stepCb : Bool
deriving DecidableEq, Repr

abbrev Process := System Interface Thread

/-- The frames whose code is not the CPU's own and may call the interface. -/
def Frame.Foreign : Frame → Prop
  | .application | .hook | .stepCb => True
  | .loop | .starting _ | .finishing => False

inductive Move : Moves Interface Thread
  | poweronAgain {x : Interface} {f : Frame} {t : Thread} : f.Foreign → x.isPoweredOn = true →
      Move x (f :: t) x (f :: t) []
  | poweron {x : Interface} {f : Frame} {t : Thread} (runmode : SfotRunningMode) : f.Foreign → x.isPoweredOn = false →
      Move x (f :: t) x (.starting runmode :: f :: t) []
  | poweroff {x : Interface} {f : Frame} {t : Thread} : f.Foreign →
      Move x (f :: t) (if x.isPoweredOn then ⟨false, false⟩ else x) (f :: t) []
  | installStepCb {x : Interface} {f : Frame} {t : Thread} (installed : Bool) : f.Foreign →
      Move x (f :: t) { x with stepCb := installed } (f :: t) []
  -- a hook on the reset vector
  | readReset {x : Interface} {runmode : SfotRunningMode} {t : Thread} :
      Move x (.starting runmode :: t) x (.hook :: .starting runmode :: t) []
  | runMain {x : Interface} {t : Thread} :
      Move x (.starting .main :: t) x (.loop :: .finishing :: t) []
  | runThreaded {x : Interface} {t : Thread} :
      Move x (.starting .threaded :: t) x (.finishing :: t) [[.loop]]
  | setPoweredOn {x : Interface} {t : Thread} :
      Move x (.finishing :: t) { x with isPoweredOn := true } t []
  | instruction {x : Interface} {t : Thread} :
      Move x (.loop :: t) x (.loop :: t) []
  | callHook {x : Interface} {t : Thread} :
      Move x (.loop :: t) x (.hook :: .loop :: t) []
  | returnHook {x : Interface} {t : Thread} :
      Move x (.hook :: t) x t []
  | callStepCb {x : Interface} {t : Thread} : x.stepCb = true →
      Move x (.loop :: t) x (.stepCb :: .loop :: t) []
  | returnZero {x : Interface} {t : Thread} :
      Move x (.stepCb :: t) x t []
  | returnNonzero {x : Interface} {t : Thread} :
      Move x (.stepCb :: .loop :: t) x t []

def atFirst (n : Nat) : Process := ⟨⟨false, false⟩, List.replicate n [.application]⟩

/-- The loops between their start and the nonzero return of their callback. -/
def live (s : Process) : Nat := (s.threads.map (List.count .loop)).sum

section Sequential

variable {F σ τ : Type} {hf : HookFuns F σ}

def interfaceOf (s : Emulator F σ τ) : Interface := ⟨s.isPoweredOn, s.stepCb.isSome⟩

theorem round_runs {cb : Option (StepCb τ)} {t u : τ} {done : Bool} {m m' : Machine F σ} {x : Interface}
    (hx : x.stepCb = cb.isSome) (below : Thread) (h : (cpuStep hf cb t).run m = .ok ((done, u), m')) :
    Run (fun _ => Move) ⟨x, [.loop :: below]⟩ ⟨x, [if done then below else .loop :: below]⟩ := by
  have hinstr : Run (fun _ => Move) ⟨x, [.loop :: below]⟩ ⟨x, [.loop :: below]⟩ := .single (.alone .instruction)
  cases cb with
  | none =>
      have hdone : done = false := by
        rw [cpuStep, StateT.run_bind] at h
        cases hi : (instruction hf).run m with
        | error e =>
            rw [hi] at h
            cases h
        | ok r =>
            rw [hi] at h
            cases h
            rfl
      subst hdone
      exact hinstr
  | some cb =>
      have hcall := hinstr.tail (.alone (.callStepCb hx))
      cases done with
      | false => exact hcall.tail (.alone .returnZero)
      | true => exact hcall.tail (.alone .returnNonzero)

theorem loop_runs {cb : Option (StepCb τ)} {rounds : Nat} {t u : τ} {m m' : Machine F σ} {x : Interface}
    (hx : x.stepCb = cb.isSome) (below : Thread) (h : (cpuThread hf cb rounds t).run m = .ok ((true, u), m')) :
    Run (fun _ => Move) ⟨x, [.loop :: below]⟩ ⟨x, [below]⟩ := by
  induction rounds generalizing t m with
  | zero => cases h
  | succ n ih =>
      rw [cpuThread, StateT.run_bind] at h
      cases hstep : (cpuStep hf cb t).run m with
      | error e =>
          rw [hstep] at h
          cases h
      | ok r =>
          obtain ⟨⟨done, t₁⟩, m₁⟩ := r
          rw [hstep, ok_bind] at h
          have hround := round_runs hx below hstep
          cases done with
          | false => exact hround.trans (ih h)
          | true => exact hround

/-- `sfotPoweron` in main mode is a run in which nothing else moves. -/
theorem sfotPoweron_runs {rounds : Nat} {t u : τ} {s s' : Emulator F σ τ}
    (h : (sfotPoweron hf rounds t).run s = .ok (some u, s')) :
    Run (fun _ => Move) ⟨interfaceOf s, [[.application]]⟩ ⟨interfaceOf s', [[.application]]⟩ := by
  rw [sfotPoweron, StateT.run_bind, StateT.run_get, pure_eq_ok, ok_bind] at h
  cases hon : s.isPoweredOn with
  | true =>
      simp only [hon, if_true] at h
      cases h
      exact .single (.alone (.poweronAgain trivial hon))
  | false =>
      simp only [hon, Bool.false_eq_true, if_false] at h
      rw [StateT.run_bind, onCpu_run] at h
      cases hreset : (fetchReset hf).run s.cpu with
      | error e =>
          rw [hreset] at h
          cases h
      | ok r =>
          rw [hreset, Except.map, ok_bind, StateT.run_bind, StateT.run_get, pure_eq_ok, ok_bind, StateT.run_bind,
            onCpu_run] at h
          cases hloop : (cpuThread hf s.stepCb rounds t).run r.2 with
          | error e =>
              rw [hloop] at h
              cases h
          | ok q =>
              obtain ⟨⟨done, v⟩, m⟩ := q
              rw [hloop] at h
              cases done with
              | false => cases h
              | true =>
                  cases h
                  have hstart : Run (fun _ => Move) ⟨interfaceOf s, [[.application]]⟩
                      ⟨interfaceOf s, [[.loop, .finishing, .application]]⟩ :=
                    (Relation.ReflTransGen.single (.alone (.poweron .main trivial hon))).tail (.alone .runMain)
                  exact (hstart.trans (loop_runs rfl _ hloop)).tail (.alone .setPoweredOn)

theorem sfotPoweroff_runs {s s' : Emulator F σ τ} (h : (sfotPoweroff).run s = .ok ((), s')) :
    Run (fun _ => Move) ⟨interfaceOf s, [[.application]]⟩ ⟨interfaceOf s', [[.application]]⟩ := by
  have hoff : interfaceOf s' = if (interfaceOf s).isPoweredOn then ⟨false, false⟩ else interfaceOf s := by
    cases hon : s.isPoweredOn with
    | false =>
        simp [sfotPoweroff, hon] at h
        subst h
        simp [interfaceOf, hon]
    | true =>
        simp [sfotPoweroff, hon, onCpu_run, coreClearAll, sfotExcepthookClear, sfotMemhookClear, Except.map] at h
        subst h
        simp [interfaceOf, hon]
  rw [hoff]
  exact .single (.alone (.poweroff trivial))

end Sequential

end Bugnes.Power
