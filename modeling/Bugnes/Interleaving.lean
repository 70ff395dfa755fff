import Mathlib.Algebra.GroupWithZero.Nat
import Mathlib.Data.List.Basic
import Mathlib.Logic.Relation

namespace Bugnes.Interleaving

variable {χ α : Type}

/-- Threads over a shared state. A move of one may leave new threads behind. -/
structure System (χ α : Type) where
  shared : χ
  threads : List α

abbrev Moves (χ α : Type) := χ → α → χ → α → List α → Prop

/-- One thread moves; the others, `before` and `after` it, stand still. -/
inductive Step (Move : List α → Moves χ α) : System χ α → System χ α → Prop
  | move {x x' : χ} {a a' : α} {new : List α} (before after : List α) :
      Move (before ++ after) x a x' a' new →
      Step Move ⟨x, before ++ a :: after⟩ ⟨x', before ++ a' :: after ++ new⟩

abbrev Run (Move : List α → Moves χ α) : System χ α → System χ α → Prop := Relation.ReflTransGen (Step Move)

theorem Run.invariant {Move : List α → Moves χ α} {I : System χ α → Prop} (hstep : ∀ s t, I s → Step Move s t → I t)
    {s t : System χ α} (hs : I s) (h : Run Move s t) : I t := by
  induction h with
  | refl => exact hs
  | tail _ hlast ih => exact hstep _ _ ih hlast

theorem Step.quiet {Move : List α → Moves χ α} {x x' : χ} {a a' : α} {before after : List α}
    (h : Move (before ++ after) x a x' a' []) : Step Move ⟨x, before ++ a :: after⟩ ⟨x', before ++ a' :: after⟩ := by
  have hstep := Step.move before after h
  rwa [List.append_nil] at hstep

theorem Step.alone {Move : List α → Moves χ α} {x x' : χ} {a a' : α} (h : Move [] x a x' a' []) :
    Step Move ⟨x, [a]⟩ ⟨x', [a']⟩ := Step.move [] [] h

section Exclusive

variable {Idle : α → Prop} {a a' : α} {before after : List α}

def Exclusive (Idle : α → Prop) (as : List α) : Prop := as.Pairwise fun a b => Idle a ∨ Idle b

theorem exclusive_middle :
    Exclusive Idle (before ++ a :: after) ↔
      (∀ b ∈ before ++ after, Idle a ∨ Idle b) ∧ Exclusive Idle (before ++ after) := by
  rw [Exclusive, List.pairwise_middle Or.symm, List.pairwise_cons]
  rfl

theorem Exclusive.replace (h : Exclusive Idle (before ++ a :: after)) (ha : Idle a → Idle a') :
    Exclusive Idle (before ++ a' :: after) := by
  obtain ⟨hothers, hrest⟩ := exclusive_middle.mp h
  exact exclusive_middle.mpr ⟨fun b hb => (hothers b hb).imp_left ha, hrest⟩

theorem Exclusive.others (h : Exclusive Idle (before ++ a :: after)) (ha : ¬Idle a) :
    ∀ b ∈ before ++ after, Idle b := by
  intro b hb
  exact ((exclusive_middle.mp h).1 b hb).resolve_left ha

theorem exclusive_of_others (h : ∀ b ∈ before ++ after, Idle b) : Exclusive Idle (before ++ a :: after) :=
  exclusive_middle.mpr ⟨fun b hb => .inr (h b hb), List.pairwise_of_forall_mem_list fun b hb _ _ => .inl (h b hb)⟩

theorem Exclusive.sum_le {f : α → Nat} {n : Nat} (hidle : ∀ a, Idle a → f a = 0) {as : List α}
    (h : Exclusive Idle as) (hn : ∀ a ∈ as, f a ≤ n) : (as.map f).sum ≤ n := by
  induction as with
  | nil => exact Nat.zero_le n
  | cons a as ih =>
      obtain ⟨hothers, hrest⟩ := List.pairwise_cons.mp h
      rw [List.map_cons, List.sum_cons]
      by_cases ha : Idle a
      · rw [hidle a ha, Nat.zero_add]
        exact ih hrest fun b hb => hn b (.tail _ hb)
      · have hzero : (as.map f).sum = 0 := by
          rw [List.sum_eq_zero_iff_forall_eq_nat]
          intro k hk
          obtain ⟨b, hb, rfl⟩ := List.mem_map.mp hk
          exact hidle b ((hothers b hb).resolve_left ha)
        rw [hzero]
        exact hn a (.head _)

end Exclusive

end Bugnes.Interleaving
