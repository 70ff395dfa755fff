import Mathlib.Data.List.Basic
import Mathlib.Data.Nat.Find

namespace Bugnes.Feeding

variable {ι σ ρ : Type} (step : σ → ι → σ) (stop : σ → Option ρ)

/-- Take inputs until one of them brings the state to a stop. -/
def feed : List ι → σ → Option ρ
  | [], _ => none
  | x :: xs, s =>
      match stop (step s x) with
      | some r => some r
      | none => feed xs (step s x)

def first (xs : Nat → ι) (n : Nat) : List ι := (List.range n).map xs

def after (xs : Nat → ι) (s : σ) : Nat → σ
  | 0 => s
  | n + 1 => step (after xs s n) (xs n)

variable {step stop} {xs : Nat → ι} {s : σ}

theorem feed_append_singleton (ys : List ι) (y : ι) (s : σ) :
    feed step stop (ys ++ [y]) s = (feed step stop ys s).or (stop (step (ys.foldl step s) y)) := by
  induction ys generalizing s with
  | nil =>
      rw [List.nil_append, feed, feed, List.foldl_nil, Option.none_or]
      cases stop (step s y) <;> rfl
  | cons x ys ih =>
      rw [List.cons_append, feed, feed, List.foldl_cons]
      cases stop (step s x) with
      | none => exact ih (step s x)
      | some r => rfl

theorem first_succ (xs : Nat → ι) (n : Nat) : first xs (n + 1) = first xs n ++ [xs n] := by
  rw [first, List.range_succ, List.map_append]
  rfl

theorem foldl_first (n : Nat) : (first xs n).foldl step s = after step xs s n := by
  induction n with
  | zero => rfl
  | succ n ih =>
      rw [first_succ, List.foldl_append, ih]
      rfl

theorem feed_first_succ (n : Nat) :
    feed step stop (first xs (n + 1)) s = (feed step stop (first xs n) s).or (stop (after step xs s (n + 1))) := by
  rw [first_succ, feed_append_singleton, foldl_first]
  rfl

theorem feed_first_none {n : Nat} :
    feed step stop (first xs n) s = none ↔ ∀ k < n, stop (after step xs s (k + 1)) = none := by
  induction n with
  | zero => exact iff_of_true rfl fun k hk => absurd hk (Nat.not_lt_zero k)
  | succ n ih =>
      rw [feed_first_succ, Option.or_eq_none_iff, ih]
      constructor
      · rintro ⟨hbefore, hlast⟩ k hk
        rcases Nat.lt_succ_iff_lt_or_eq.mp hk with hk | rfl
        · exact hbefore k hk
        · exact hlast
      · intro h
        exact ⟨fun k hk => h k (Nat.lt_succ_of_lt hk), h n (Nat.lt_succ_self n)⟩

theorem feed_first_some {n : Nat} {r : ρ} :
    feed step stop (first xs n) s = some r ↔
      ∃ k < n, stop (after step xs s (k + 1)) = some r ∧ ∀ j < k, stop (after step xs s (j + 1)) = none := by
  induction n with
  | zero => exact iff_of_false nofun fun ⟨k, hk, _⟩ => absurd hk (Nat.not_lt_zero k)
  | succ n ih =>
      rw [feed_first_succ, Option.or_eq_some_iff, ih, feed_first_none]
      constructor
      · rintro (⟨k, hk, h⟩ | ⟨hbefore, hlast⟩)
        · exact ⟨k, Nat.lt_succ_of_lt hk, h⟩
        · exact ⟨n, Nat.lt_succ_self n, hlast, hbefore⟩
      · rintro ⟨k, hk, h⟩
        rcases Nat.lt_succ_iff_lt_or_eq.mp hk with hk | rfl
        · exact .inl ⟨k, hk, h⟩
        · exact .inr ⟨h.2, h.1⟩

theorem feed_first_mono {n n' : Nat} {r : ρ} (h : feed step stop (first xs n) s = some r) (hn : n ≤ n') :
    feed step stop (first xs n') s = some r := by
  obtain ⟨k, hk, hstop⟩ := feed_first_some.mp h
  exact feed_first_some.mpr ⟨k, lt_of_lt_of_le hk hn, hstop⟩

/-- A loop that keeps an invariant without stopping never ends. -/
theorem feed_never {P : Nat → σ → Prop} (hstart : P 0 s)
    (hstep : ∀ n t, P n t → stop (step t (xs n)) = none ∧ P (n + 1) (step t (xs n))) (n : Nat) :
    feed step stop (first xs n) s = none := by
  have hinv : ∀ n, P n (after step xs s n) := by
    intro n
    induction n with
    | zero => exact hstart
    | succ n ih => exact (hstep n _ ih).2
  exact feed_first_none.mpr fun k _ => (hstep k _ (hinv k)).1

/-- A loop that with every input stops well, or keeps its invariant and comes
down in a measure, ends well. -/
theorem feed_ends {P : Nat → σ → Prop} {Q : ρ → Prop} (μ : σ → Nat) (hstart : P 0 s)
    (hstep : ∀ n t, P n t → (∃ r, stop (step t (xs n)) = some r ∧ Q r) ∨
      stop (step t (xs n)) = none ∧ P (n + 1) (step t (xs n)) ∧ μ (step t (xs n)) < μ t) :
    ∃ n r, feed step stop (first xs n) s = some r ∧ Q r := by
  have hend : ∀ bound k, μ (after step xs s k) = bound → P k (after step xs s k) →
      (∀ j < k, stop (after step xs s (j + 1)) = none) → ∃ n r, feed step stop (first xs n) s = some r ∧ Q r := by
    intro bound
    induction bound using Nat.strong_induction_on with
    | _ bound ih =>
        intro k hμ hP hbefore
        rcases hstep k _ hP with ⟨r, hr, hQ⟩ | ⟨hnone, hnext, hless⟩
        · exact ⟨k + 1, r, feed_first_some.mpr ⟨k, Nat.lt_succ_self k, hr, hbefore⟩, hQ⟩
        · refine ih _ (hμ ▸ hless) (k + 1) rfl hnext fun j hj => ?_
          rcases Nat.lt_succ_iff_lt_or_eq.mp hj with hj | rfl
          · exact hbefore j hj
          · exact hnone
  exact hend _ 0 rfl hstart fun j hj => absurd hj (Nat.not_lt_zero j)

end Bugnes.Feeding
