import Mathlib.Logic.Function.Iterate

namespace Bugnes.Blocks

variable {α β : Type} (next : α → α)

def Distinct (n : Nat) (a : α) : Prop := ∀ i j, i < j → j < n → next^[i] a ≠ next^[j] a

theorem Distinct.tail {next : α → α} {n : Nat} {a : α} (h : Distinct next (n + 1) a) :
    Distinct next n (next a) := by
  intro i j hij hj
  rw [← Function.iterate_succ_apply, ← Function.iterate_succ_apply]
  exact h (i + 1) (j + 1) (Nat.succ_lt_succ hij) (Nat.succ_lt_succ hj)

/-- The values found from an address on, each where the last one's successor is. -/
def readBlock (mem : α → β) : Nat → α → List β
  | 0, _ => []
  | n + 1, a => mem a :: readBlock mem n (next a)

variable [DecidableEq α]

def writeBlock : List β → α → (α → β) → α → β
  | [], _, mem => mem
  | v :: vs, a, mem => writeBlock vs (next a) (Function.update mem a v)

variable {next} {mem : α → β} {vs : List β} {a : α}

theorem writeBlock_of_ne {i : α} (h : ∀ k < vs.length, i ≠ next^[k] a) : writeBlock next vs a mem i = mem i := by
  induction vs generalizing a mem with
  | nil => rfl
  | cons v vs ih =>
      have htail : ∀ k < vs.length, i ≠ next^[k] (next a) := by
        intro k hk
        rw [← Function.iterate_succ_apply]
        exact h (k + 1) (Nat.succ_lt_succ hk)
      rw [writeBlock, ih htail]
      exact Function.update_of_ne (h 0 (Nat.succ_pos _)) v mem

theorem readBlock_writeBlock (h : Distinct next vs.length a) :
    readBlock next (writeBlock next vs a mem) vs.length a = vs := by
  induction vs generalizing a mem with
  | nil => rfl
  | cons v vs ih =>
      have hfirst : ∀ k < vs.length, a ≠ next^[k] (next a) := by
        intro k hk
        rw [← Function.iterate_succ_apply]
        exact h 0 (k + 1) (Nat.succ_pos k) (Nat.succ_lt_succ hk)
      have hhead : writeBlock next (v :: vs) a mem a = v := by
        rw [writeBlock, writeBlock_of_ne hfirst]
        exact Function.update_self a v mem
      have htail : readBlock next (writeBlock next (v :: vs) a mem) vs.length (next a) = vs := ih h.tail
      rw [List.length_cons, readBlock, hhead, htail]

end Bugnes.Blocks
