import Mathlib.Order.Basic
import Mathlib.Order.Lattice
import Mathlib.Data.List.Chain

namespace Bugnes.IntervalList

variable {ν α β : Type} [LinearOrder α] (lo hi : ν → α)

def Covers (x : ν) (a : α) : Prop := lo x ≤ a ∧ a < hi x

instance (x : ν) (a : α) : Decidable (Covers lo hi x a) := inferInstanceAs (Decidable (_ ∧ _))

def find (xs : List ν) (a : α) : Option ν := xs.find? (fun x => decide (Covers lo hi x a))

/-- What a new range is meant to do to a partial map: answer on the range,
leave every other address alone. -/
def override (s e : α) (v : Option β) (g : α → Option β) : α → Option β :=
  fun a => if s ≤ a ∧ a < e then v else g a

def Sorted (xs : List ν) : Prop := xs.Pairwise (fun x y => lo x ≤ lo y)

def Apart (x y : ν) : Prop := ∀ a, ¬(Covers lo hi x a ∧ Covers lo hi y a)

def Chain (xs : List ν) : Prop := xs.Pairwise (fun x y => hi x ≤ lo y)

variable {lo hi}

theorem apart_of_le {x y : ν} (h : hi x ≤ lo y) : Apart lo hi x y := by
  rintro a ⟨⟨_, hx⟩, ⟨hy, _⟩⟩
  exact absurd (lt_of_lt_of_le hx (h.trans hy)) (lt_irrefl a)

theorem le_of_apart {x y : ν} (hy : lo y < hi y) (hxy : lo x ≤ lo y)
    (h : Apart lo hi x y) : hi x ≤ lo y := by
  by_contra hlt
  exact h (lo y) ⟨⟨hxy, lt_of_not_ge hlt⟩, ⟨le_rfl, hy⟩⟩

theorem chain_iff {xs : List ν} (hne : ∀ x ∈ xs, lo x < hi x) :
    Chain lo hi xs ↔ Sorted lo xs ∧ xs.Pairwise (Apart lo hi) := by
  constructor
  · intro h
    refine ⟨h.imp_of_mem ?_, h.imp apart_of_le⟩
    intro x y hx _ hxy
    exact (hne x hx).le.trans hxy
  · rintro ⟨hs, ha⟩
    refine (hs.and ha).imp_of_mem ?_
    intro x y _ hy hxy
    exact le_of_apart (hne y hy) hxy.1 hxy.2

theorem find_eq_none_of_le {xs : List ν} {a : α} (h : ∀ x ∈ xs, hi x ≤ a) : find lo hi xs a = none := by
  rw [find, List.find?_eq_none]
  intro x hx
  simp only [decide_eq_true_eq]
  intro hc
  exact absurd hc.2 (not_lt_of_ge (h x hx))

theorem find_append (xs ys : List ν) (a : α) :
    find lo hi (xs ++ ys) a = (find lo hi xs a).or (find lo hi ys a) := List.find?_append

theorem find_cons (x : ν) (xs : List ν) (a : α) :
    find lo hi (x :: xs) a = if Covers lo hi x a then some x else find lo hi xs a := by
  by_cases h : Covers lo hi x a <;> simp [find, h]

/-- A range put behind others that all end before it begins overrides the
partial map the list stood for, whatever follows it. -/
theorem find_insert {before after : List ν} {x : ν} (h : ∀ y ∈ before, hi y ≤ lo x) (a : α) :
    find lo hi (before ++ x :: after) a =
      override (lo x) (hi x) (some x) (find lo hi (before ++ after)) a := by
  by_cases hc : Covers lo hi x a
  · have hnone : find lo hi before a = none :=
      find_eq_none_of_le fun y hy => (h y hy).trans hc.1
    rw [find_append, find_cons, if_pos hc, hnone]
    exact (if_pos hc).symm
  · rw [find_append, find_cons, if_neg hc, ← find_append]
    exact (if_neg hc).symm

theorem chain_insert {before after : List ν} {x : ν}
    (hb : ∀ y ∈ before, hi y ≤ lo x) (h : Chain lo hi (before ++ after)) :
    Chain lo hi (before ++ x :: after) ↔ ∀ y ∈ after, hi x ≤ lo y := by
  simp only [Chain, List.pairwise_append, List.pairwise_cons] at h ⊢
  constructor
  · rintro ⟨_, ⟨ha, _⟩, _⟩
    exact ha
  · intro ha
    refine ⟨h.1, ⟨ha, h.2.1⟩, ?_⟩
    intro y hy z hz
    rcases List.mem_cons.mp hz with rfl | hz
    · exact hb y hy
    · exact h.2.2 y hy z hz

theorem chain_of_isChain {xs : List ν} (hne : ∀ x ∈ xs, lo x < hi x)
    (h : xs.IsChain fun x y => hi x ≤ lo y) : Chain lo hi xs := by
  let R : ν → ν → Prop := fun x y => hi x ≤ lo y ∧ lo y ≤ hi y
  have htrans : Trans R R R := ⟨fun hxy hyz => ⟨hxy.1.trans (hxy.2.trans hyz.1), hyz.2⟩⟩
  have hR : xs.IsChain R := h.imp_of_mem_imp fun x y _ hy hxy => ⟨hxy, (hne y hy).le⟩
  exact hR.pairwise.imp And.left

theorem find_of_mem {xs : List ν} {x : ν} {a : α} (h : Chain lo hi xs) (hx : x ∈ xs) (hc : Covers lo hi x a) :
    find lo hi xs a = some x := by
  induction xs with
  | nil => cases hx
  | cons y ys ih =>
      obtain ⟨hy, hys⟩ := List.pairwise_cons.mp h
      rw [find_cons]
      rcases List.mem_cons.mp hx with rfl | hx
      · exact if_pos hc
      · have hout : ¬Covers lo hi y a := fun hcy => apart_of_le (hy x hx) a ⟨hcy, hc⟩
        rw [if_neg hout]
        exact ih hys hx

theorem find_eq_none {xs : List ν} {a : α} : find lo hi xs a = none ↔ ∀ x ∈ xs, ¬Covers lo hi x a := by
  simp [find]

theorem find?_le {xs : List ν} (h : Sorted lo xs) {s : α} {y : ν} (hy : y ∈ xs) (hsy : s < lo y) :
    ∃ x ∈ xs.find? (fun x => decide (s < lo x)), lo x ≤ lo y := by
  induction xs with
  | nil => cases hy
  | cons z zs ih =>
      obtain ⟨hz, hzs⟩ := List.pairwise_cons.mp h
      by_cases hsz : s < lo z
      · refine ⟨z, by simp [hsz], ?_⟩
        rcases List.mem_cons.mp hy with rfl | hy
        · exact le_rfl
        · exact hz y hy
      · have hne : y ≠ z := by
          rintro rfl
          exact hsz hsy
        obtain ⟨x, hx, hxy⟩ := ih hzs (List.mem_of_ne_of_mem hne hy)
        exact ⟨x, by simpa [hsz] using hx, hxy⟩

/-- A new range meets none of a sorted list if and only if its first element
lies in none and the first of them to begin above that begins past its end. -/
theorem meets_none_iff {xs : List ν} (hne : ∀ x ∈ xs, lo x < hi x) (h : Sorted lo xs) {s e : α} (hse : s < e) :
    (∀ x ∈ xs, ∀ a, ¬((s ≤ a ∧ a < e) ∧ Covers lo hi x a)) ↔
      (∀ x ∈ xs, ¬Covers lo hi x s) ∧ ∀ x ∈ xs.find? (fun x => decide (s < lo x)), e ≤ lo x := by
  constructor
  · intro hfree
    refine ⟨fun x hx hc => hfree x hx s ⟨⟨le_rfl, hse⟩, hc⟩, fun x hx => ?_⟩
    have hmem : x ∈ xs := List.mem_of_find?_eq_some hx
    have hsx : s < lo x := of_decide_eq_true (List.find?_some (p := fun x => decide (s < lo x)) hx)
    by_contra hlt
    exact hfree x hmem (lo x) ⟨⟨hsx.le, lt_of_not_ge hlt⟩, le_rfl, hne x hmem⟩
  · rintro ⟨hout, hfirst⟩ y hy a ⟨⟨hsa, hae⟩, hya, hay⟩
    have hsy : s < lo y := lt_of_not_ge fun hle => hout y hy ⟨hle, hsa.trans_lt hay⟩
    obtain ⟨x, hx, hxy⟩ := find?_le h hy hsy
    exact absurd ((hfirst x hx).trans (hxy.trans hya)) (not_le_of_gt hae)

end Bugnes.IntervalList
