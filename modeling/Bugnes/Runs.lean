import Mathlib.Data.List.Infix

namespace Bugnes.Runs

variable {Op Out σ τ ε : Type}

abbrev Machine (Op Out σ ε : Type) := Op → σ → Except ε (Out × σ)

/-- Perform the operations from left to right, collecting the outputs. -/
def run (step : Machine Op Out σ ε) : List Op → σ → Except ε (List Out × σ)
  | [], s => .ok ([], s)
  | op :: ops, s =>
      match step op s with
      | .error e => .error e
      | .ok (o, s') =>
          match run step ops s' with
          | .error e => .error e
          | .ok (os, s'') => .ok (o :: os, s'')

theorem run_cons_ok {step : Machine Op Out σ ε} {op : Op} {ops : List Op} {s s' s'' : σ}
    {o : Out} {os : List Out} (h : step op s = .ok (o, s')) (hs : run step ops s' = .ok (os, s'')) :
    run step (op :: ops) s = .ok (o :: os, s'') := by
  simp [run, h, hs]

theorem run_cons_inv {step : Machine Op Out σ ε} {op : Op} {ops : List Op} {s s'' : σ}
    {outs : List Out} (h : run step (op :: ops) s = .ok (outs, s'')) :
    ∃ o os s', outs = o :: os ∧ step op s = .ok (o, s') ∧ run step ops s' = .ok (os, s'') := by
  unfold run at h
  split at h
  · cases h
  · next o s' hstep =>
      split at h
      · cases h
      · next os t hrun =>
          cases h
          exact ⟨o, os, s', rfl, hstep, hrun⟩

theorem run_cons_congr {step : Machine Op Out σ ε} {op : Op} {ops : List Op} {s t : σ} (h : step op s = step op t) :
    run step (op :: ops) s = run step (op :: ops) t := by
  rw [run, run, h]

theorem run_append_ok {step : Machine Op Out σ ε} {xs ys : List Op} {s s' s'' : σ}
    {os ps : List Out} (hx : run step xs s = .ok (os, s')) (hy : run step ys s' = .ok (ps, s'')) :
    run step (xs ++ ys) s = .ok (os ++ ps, s'') := by
  induction xs generalizing s os with
  | nil => cases hx; exact hy
  | cons op xs ih =>
      obtain ⟨o, os, t, rfl, hop, hxs⟩ := run_cons_inv hx
      exact run_cons_ok hop (ih hxs)

theorem run_ok_mem {step : Machine Op Out σ ε} {ops : List Op} {s s' : σ} {outs : List Out}
    (h : run step ops s = .ok (outs, s')) {op : Op} (hop : op ∈ ops) : ∃ t o t', step op t = .ok (o, t') := by
  induction ops generalizing s outs with
  | nil => cases hop
  | cons x ops ih =>
      obtain ⟨o, os, t, -, hx, hrest⟩ := run_cons_inv h
      rcases List.mem_cons.mp hop with rfl | hop
      · exact ⟨s, o, t, hx⟩
      · exact ih hrest hop

/-- Forward simulation: what the abstract machine can do from a related
state, the concrete one does with the same outputs. -/
theorem run_simulates {ε' : Type} {step : Machine Op Out σ ε} {astep : Machine Op Out τ ε'} {R : σ → τ → Prop}
    (hstep : ∀ op s t o t', R s t → astep op t = .ok (o, t') → ∃ s', step op s = .ok (o, s') ∧ R s' t')
    {ops : List Op} {s : σ} {t t' : τ} {os : List Out} (hR : R s t) (h : run astep ops t = .ok (os, t')) :
    ∃ s', run step ops s = .ok (os, s') ∧ R s' t' := by
  induction ops generalizing s t os with
  | nil => cases h; exact ⟨s, rfl, hR⟩
  | cons op ops ih =>
      obtain ⟨o, os, u, rfl, hop, hops⟩ := run_cons_inv h
      obtain ⟨s₁, hs₁, hR₁⟩ := hstep op s t o u hR hop
      obtain ⟨s₂, hs₂, hR₂⟩ := ih hR₁ hops
      exact ⟨s₂, run_cons_ok hs₁ hs₂, hR₂⟩

end Bugnes.Runs
