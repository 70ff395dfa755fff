import Bugnes.HookTables

namespace Bugnes.Acceptance

open Words Memhooks IntervalList HookTables

variable {F : Type}

/-- A list as the comment on `all_mh` describes it, of ranges that `insert` lets through. -/
structure Tidy (xs : List (Memhook F)) : Prop where
  ranges : ∀ x ∈ xs, x.addrStart < x.addrEnd
  sorted : xs.Pairwise fun x y => x.addrStart ≤ y.addrStart
  apart : xs.Pairwise fun x y => ∀ a : Word,
    ¬((x.addrStart ≤ a ∧ a < x.addrEnd) ∧ (y.addrStart ≤ a ∧ a < y.addrEnd))

def Free (s e : Word) (xs : List (Memhook F)) : Prop :=
  ∀ x ∈ xs, ∀ a : Word, ¬((s ≤ a ∧ a < e) ∧ (x.addrStart ≤ a ∧ a < x.addrEnd))

def Covered (s : Word) (xs : List (Memhook F)) : Prop := ∃ x ∈ xs, x.addrStart ≤ s ∧ s < x.addrEnd

def firstAbove (s : Word) (xs : List (Memhook F)) : Option (Memhook F) := xs.find? fun x => decide (s < x.addrStart)

theorem free_iff {xs : List (Memhook F)} (h : Tidy xs) {s e : Word} (hse : s < e) :
    Free s e xs ↔ ¬Covered s xs ∧ ∀ x ∈ firstAbove s xs, e ≤ x.addrStart := by
  have hwords : Free s e xs ↔
      ∀ x ∈ xs, ∀ n, ¬((s.toNat ≤ n ∧ n < e.toNat) ∧ Covers startOf endOf x n) := by
    refine forall₂_congr fun x _ => ⟨?_, fun hn a => hn a.toNat⟩
    rintro ha n ⟨hn, hx⟩
    have hw : (BitVec.ofNat 16 n).toNat = n := Nat.mod_eq_of_lt (hn.2.trans e.isLt)
    refine ha (BitVec.ofNat 16 n) ?_
    simp only [BitVec.le_def, BitVec.lt_def, hw]
    exact ⟨hn, hx⟩
  have hcovered : ¬Covered s xs ↔ ∀ x ∈ xs, ¬Covers startOf endOf x s.toNat :=
    ⟨fun h x hx hc => h ⟨x, hx, hc⟩, fun h ⟨x, hx, hc⟩ => h x hx hc⟩
  have hranges : ∀ x ∈ xs, startOf x < endOf x := h.ranges
  have hsorted : Sorted startOf xs := h.sorted
  rw [hwords, hcovered]
  exact meets_none_iff hranges hsorted hse

/-- The walk rejects a range whose first address is taken; a range that begins
in a gap it lets through when that gap ends inside the range or right behind it. -/
theorem walk_isSome_iff {s e : Word} (done : List (Memhook F)) {todo : List (Memhook F)}
    (h : todo.Pairwise fun x y => x.addrStart ≤ y.addrStart) :
    (walk s e done todo).isSome ↔ ¬Covered s todo ∧ ∀ x ∈ firstAbove s todo, x.addrStart ≤ e := by
  induction todo generalizing done with
  | nil => simp [walk, Covered, firstAbove]
  | cons mh rest ih =>
      obtain ⟨hmh, hrest⟩ := List.pairwise_cons.mp h
      by_cases h₁ : s < mh.addrStart
      · have hout : ¬Covered s (mh :: rest) := by
          rintro ⟨x, hx, hxs, -⟩
          rcases List.mem_cons.mp hx with rfl | hx
          · exact BitVec.not_lt.mpr hxs h₁
          · exact BitVec.not_lt.mpr (BitVec.le_trans (hmh x hx) hxs) h₁
        have hfirst : firstAbove s (mh :: rest) = some mh := List.find?_cons_of_pos (by simpa using h₁)
        by_cases h₂ : e ≥ mh.addrStart
        · rw [walk, if_pos h₁, if_pos h₂, hfirst]
          exact iff_of_true rfl ⟨hout, by simpa using h₂⟩
        · rw [walk, if_pos h₁, if_neg h₂, hfirst]
          exact iff_of_false (by simp) fun hall => h₂ (hall.2 mh rfl)
      · by_cases h₂ : s < mh.addrEnd
        · rw [walk, if_neg h₁, if_pos h₂]
          exact iff_of_false (by simp) fun hall => hall.1 ⟨mh, by simp, BitVec.not_lt.mp h₁, h₂⟩
        · have hcovered : Covered s (mh :: rest) ↔ Covered s rest := by simp [Covered, h₂]
          have hfirst : firstAbove s (mh :: rest) = firstAbove s rest := List.find?_cons_of_neg (by simpa using h₁)
          rw [walk, if_neg h₁, if_neg h₂, hcovered, hfirst]
          exact ih _ hrest

theorem insert_zero_iff {ty : MhType} {f : Option F} {name : Option String} {s e : Word} {t t' : AllMh F} {r : Int}
    (h : Memhooks.insert ty f name s e t = .ok (r, t')) : r = 0 ↔ (walk s e [] (t ty)).isSome := by
  obtain ⟨-, ⟨rfl, -, hw⟩ | ⟨rfl, -, hw⟩ | ⟨before, after, rfl, -, hw, -⟩⟩ := insert_cases h <;> simp [hw]

/-- What is decided as it should be: a range whose first address is taken is
turned down, and the test of its end is right where the next mapping begins
exactly there, or none follows. -/
theorem insert_accepts_iff {ty : MhType} {t : AllMh F} (ht : Tidy (t ty)) (f : Option F) (name : Option String)
    {s e : Word} (hse : s < e) :
    ∃ r t', Memhooks.insert ty f name s e t = .ok (r, t') ∧ (r = 0 ∨ r = 1) ∧ (r = 1 → t' = t) ∧
      ((r = 0 ↔ Free s e (t ty)) ↔ Covered s (t ty) ∨ ∀ x ∈ firstAbove s (t ty), x.addrStart = e) := by
  obtain ⟨r, t', hrun⟩ := insert_total ty f name hse t
  refine ⟨r, t', hrun, ?_, ?_, ?_⟩
  · obtain ⟨-, ⟨rfl, -⟩ | ⟨rfl, -⟩ | ⟨-, -, rfl, -⟩⟩ := insert_cases hrun <;> decide
  · rintro rfl
    obtain ⟨-, ⟨-, rfl, -⟩ | ⟨h, -⟩ | ⟨-, -, h, -⟩⟩ := insert_cases hrun
    · rfl
    · cases h
    · cases h
  · rw [insert_zero_iff hrun, walk_isSome_iff [] ht.sorted, free_iff ht hse]
    by_cases hc : Covered s (t ty)
    · simp [hc]
    · simp only [hc, not_false_eq_true, true_and, false_or]
      cases hfirst : firstAbove s (t ty) with
      | none => simp
      | some x =>
          simp only [Option.mem_some_iff, forall_eq', BitVec.le_def, BitVec.toNat_eq]
          omega

theorem insert_accepts_adjacent :
    let t : AllMh Nat := Function.update empty .read [⟨0x20, 0x30, some 1, none⟩]
    ∃ r t', Memhooks.insert .read (some 2) none 0x10 0x20 t = .ok (r, t') ∧ (r = 0 ∨ r = 1) ∧ (r = 1 → t' = t) ∧
      ((r = 0 ↔ Free 0x10 0x20 (t .read)) ↔
        Covered 0x10 (t .read) ∨ ∀ x ∈ firstAbove 0x10 (t .read), x.addrStart = 0x20) :=
  insert_accepts_iff ⟨by decide, by simp, by simp⟩ (some 2) none (by decide)

theorem insert_misjudges :
    ¬∀ (ty : MhType) (t : AllMh Nat), Tidy (t ty) → ∀ (f : Option Nat) (name : Option String) (s e : Word), s < e →
      ∃ r t', Memhooks.insert ty f name s e t = .ok (r, t') ∧ (r = 1 → t' = t) ∧ (r = 0 ↔ Free s e (t ty)) := by
  intro hall
  obtain ⟨r, t', hrun, -, hiff⟩ := hall .read (Function.update empty .read [⟨0x20, 0x30, some 1, none⟩])
    ⟨by decide, by simp, by simp⟩ (some 2) none 0 0x10 (by decide)
  have hfree : Free (0 : Word) 0x10 [(⟨0x20, 0x30, some 1, none⟩ : Memhook Nat)] := by
    intro x hx a
    rw [List.mem_singleton.mp hx]
    rintro ⟨⟨-, hlt⟩, hle, -⟩
    have hbeyond : (0x10 : Word) ≤ a := BitVec.le_trans (by decide) hle
    exact BitVec.not_lt.mpr hbeyond hlt
  cases hrun
  exact absurd (hiff.mpr hfree) (by decide)

end Bugnes.Acceptance
