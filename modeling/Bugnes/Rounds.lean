import Bugnes.TwoRuns

namespace Bugnes.Rounds

open TwoRuns

variable {ε σ : Type} {x p : StateT σ (Except ε) Unit}

def rounds (x : StateT σ (Except ε) Unit) : Nat → StateT σ (Except ε) Unit
  | 0 => pure ()
  | n + 1 => x >>= fun _ => rounds x n

theorem rounds_succ (x : StateT σ (Except ε) Unit) (n : Nat) : rounds x (n + 1) = rounds x n >>= fun _ => x := by
  induction n with
  | zero =>
      rw [rounds, rounds, pure_bind]
      exact bind_pure x
  | succ n ih =>
      calc rounds x (n + 2) = x >>= fun _ => rounds x n >>= fun _ => x := congrArg (x >>= fun _ => ·) ih
        _ = (x >>= fun _ => rounds x n) >>= fun _ => x := (bind_assoc ..).symm

theorem run_rounds_succ {n : Nat} {s t : σ} (h : (rounds x n).run s = .ok ((), t)) :
    (rounds x (n + 1)).run s = x.run t := by
  rw [rounds_succ, StateT.run_bind, h]
  rfl

theorem run_rounds_succ_error {n : Nat} {s : σ} {e : ε} (h : (rounds x n).run s = .error e) :
    (rounds x (n + 1)).run s = .error e := by
  rw [rounds_succ, StateT.run_bind, h]
  rfl

theorem run_rounds_inv {n : Nat} {s t : σ} (h : (rounds x (n + 1)).run s = .ok ((), t)) :
    ∃ u, (rounds x n).run s = .ok ((), u) ∧ x.run u = .ok ((), t) := by
  cases hn : (rounds x n).run s with
  | error e => rw [run_rounds_succ_error hn] at h; cases h
  | ok r => exact ⟨r.2, rfl, by rw [← h, run_rounds_succ hn]⟩

theorem run_rounds_add {m n : Nat} {s t u : σ} (hm : (rounds x m).run s = .ok ((), t))
    (hn : (rounds x n).run t = .ok ((), u)) : (rounds x (m + n)).run s = .ok ((), u) := by
  induction n generalizing u with
  | zero => cases hn; exact hm
  | succ n ih =>
      obtain ⟨v, hv, hu⟩ := run_rounds_inv hn
      rw [Nat.add_succ, run_rounds_succ (ih hv), hu]

theorem run_rounds_split {m n : Nat} {s u : σ} (h : (rounds x (m + n)).run s = .ok ((), u)) :
    ∃ t, (rounds x m).run s = .ok ((), t) ∧ (rounds x n).run t = .ok ((), u) := by
  induction n generalizing u with
  | zero => exact ⟨u, h, rfl⟩
  | succ n ih =>
      obtain ⟨v, hv, hu⟩ := run_rounds_inv h
      obtain ⟨t, hm, hn⟩ := ih hv
      exact ⟨t, hm, (run_rounds_succ hn).trans hu⟩

theorem Keeps.rounds {I : σ → Prop} (h : Keeps I x) {n : Nat} {s t : σ} (hs : I s)
    (hrun : (rounds x n).run s = .ok ((), t)) : I t := by
  induction n generalizing t with
  | zero => cases hrun; exact hs
  | succ n ih =>
      obtain ⟨u, hu, ht⟩ := run_rounds_inv hrun
      exact h u (ih hu) () t ht

/-- A probe after every round goes unseen if and only if it leaves alone each
state that the rounds without it come to. -/
theorem rounds_probe {s : σ} :
    (∀ n, (rounds (x >>= fun _ => p) n).run s = (rounds x n).run s) ↔
      ∀ n t, (rounds x (n + 1)).run s = .ok ((), t) → p.run t = .ok ((), t) := by
  have hprobe : ∀ t u, x.run t = .ok ((), u) → (x >>= fun _ => p).run t = p.run u := by
    intro t u h
    rw [StateT.run_bind, h]
    rfl
  constructor
  · intro h n t hn
    obtain ⟨u, hu, ht⟩ := run_rounds_inv hn
    have hprobed := run_rounds_succ ((h n).trans hu)
    rw [h (n + 1), hn, hprobe u t ht] at hprobed
    exact hprobed.symm
  · intro h n
    induction n with
    | zero => rfl
    | succ n ih =>
        cases hn : (rounds x n).run s with
        | error e => rw [run_rounds_succ_error (ih.trans hn), run_rounds_succ_error hn]
        | ok r =>
            rw [run_rounds_succ (ih.trans hn), run_rounds_succ hn]
            cases hx : x.run r.2 with
            | error e => rw [StateT.run_bind, hx]; rfl
            | ok q => exact (hprobe _ _ hx).trans (h n q.2 ((run_rounds_succ hn).trans hx))

/-- The rule of the counting loop, its invariant indexed by the counter. -/
theorem forM_range {body : Nat → StateT σ (Except ε) PUnit} {P : Nat → σ → Prop} {n : Nat} {s : σ} (hstart : P 0 s)
    (hbody : ∀ i < n, ∀ t, P i t → ∃ t', (body i).run t = .ok (⟨⟩, t') ∧ P (i + 1) t') :
    ∃ s', ((List.range n).forM body).run s = .ok (⟨⟩, s') ∧ P n s' := by
  induction n with
  | zero => exact ⟨s, rfl, hstart⟩
  | succ n ih =>
      obtain ⟨t, ht, hPt⟩ := ih fun i hi => hbody i (Nat.lt_succ_of_lt hi)
      obtain ⟨t', ht', hPt'⟩ := hbody n (Nat.lt_succ_self n) t hPt
      refine ⟨t', ?_, hPt'⟩
      rw [List.range_succ, List.forM_eq_forM, List.forM_append, StateT.run_bind, ← List.forM_eq_forM, ht]
      have hlast : [n].forM body = body n := by
        rw [List.forM_eq_forM, List.forM_cons, List.forM_nil]
        exact bind_pure _
      exact (congrArg (fun x => StateT.run x t) hlast).trans ht'

theorem forM_congr {α : Type} {xs : List α} {f g : α → StateT σ (Except ε) PUnit} (h : ∀ a ∈ xs, f a = g a) :
    xs.forM f = xs.forM g := by
  induction xs with
  | nil => rfl
  | cons x xs ih =>
      change (f x >>= fun _ => xs.forM f) = (g x >>= fun _ => xs.forM g)
      rw [h x (.head _), ih fun a ha => h a (.tail _ ha)]

end Bugnes.Rounds
