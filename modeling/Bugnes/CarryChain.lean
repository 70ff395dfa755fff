import Mathlib.Data.Nat.Digits.Lemmas
import Mathlib.Tactic.Ring

namespace Bugnes.CarryChain

variable {β : Nat}

/-- A digit of a sum `z = x + y`. -/
structure Column where
  x : Nat
  y : Nat
  z : Nat

/-- The carry that goes into the lowest column of a sum and the one that comes
out of the highest, when every column passes its own on. -/
inductive Ripple (β : Nat) : Nat → List Column → Nat → Prop
  | nil (c : Nat) : Ripple β c [] c
  | cons {c c' c'' : Nat} {d : Column} {ds : List Column} :
      d.z + β * c' = d.x + d.y + c → Ripple β c' ds c'' → Ripple β c (d :: ds) c''

def number (β : Nat) (f : Column → Nat) (ds : List Column) : Nat := Nat.ofDigits β (ds.map f)

theorem number_cons (f : Column → Nat) (d : Column) (ds : List Column) :
    number β f (d :: ds) = f d + β * number β f ds := Nat.ofDigits_cons

theorem Ripple.sum {c c' : Nat} {ds : List Column} (h : Ripple β c ds c') :
    number β Column.z ds + β ^ ds.length * c' = number β Column.x ds + number β Column.y ds + c := by
  induction h with
  | nil c => simp [number]
  | @cons c c' c'' d ds hd _ ih =>
      rw [number_cons, number_cons, number_cons, List.length_cons, pow_succ]
      calc d.z + β * number β Column.z ds + β ^ ds.length * β * c''
          = d.z + β * (number β Column.z ds + β ^ ds.length * c'') := by ring
        _ = d.z + β * c' + β * (number β Column.x ds + number β Column.y ds) := by rw [ih]; ring
        _ = d.x + β * number β Column.x ds + (d.y + β * number β Column.y ds) + c := by rw [hd]; ring

theorem sub_of_add {A B R N b b' : Nat} (hR : R < N) (hb : b' ≤ 1) (h : A + N * b' = R + B + b) :
    (R : Int) = (A - B - b) % N ∧ (b' = 0 ↔ B + b ≤ A) := by
  have hz : (A : Int) - B - b = R + N * (-b') := by
    have h' : (A : Int) + N * b' = R + B + b := by exact_mod_cast h
    linarith
  refine ⟨?_, ?_⟩
  · rw [hz, Int.add_mul_emod_self_left, Int.emod_eq_of_lt (by omega) (by omega)]
  · obtain rfl | rfl : b' = 0 ∨ b' = 1 := by omega
    · omega
    · omega

end Bugnes.CarryChain
