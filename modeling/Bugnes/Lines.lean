import Mathlib.Data.List.TakeWhile

namespace Bugnes.Lines

variable {α γ : Type} {f : α → List γ} {stop : γ} {xs ys : List α}

/-- A text of lines, each with its end. -/
def text (f : α → List γ) (stop : γ) (xs : List α) : List γ := xs.flatMap fun x => f x ++ [stop]

theorem text_cons (x : α) (xs : List α) : text f stop (x :: xs) = f x ++ stop :: text f stop xs := by
  rw [text, List.flatMap_cons, List.append_assoc]
  rfl

theorem line_inj {s s' rest rest' : List γ} (hs : stop ∉ s) (hs' : stop ∉ s')
    (h : s ++ stop :: rest = s' ++ stop :: rest') : s = s' ∧ rest = rest' := by
  induction s generalizing s' with
  | nil =>
      cases s' with
      | nil => exact ⟨rfl, (List.cons.inj h).2⟩
      | cons c s' => exact absurd (List.mem_cons.mpr (.inl (List.cons.inj h).1)) hs'
  | cons c s ih =>
      cases s' with
      | nil => exact absurd (List.mem_cons.mpr (.inl (List.cons.inj h).1.symm)) hs
      | cons c' s' =>
          obtain ⟨rfl, htail⟩ := List.cons.inj h
          obtain ⟨rfl, hrest⟩ := ih (fun hc => hs (.tail _ hc)) (fun hc => hs' (.tail _ hc)) htail
          exact ⟨rfl, hrest⟩

/-- Lines that are free of their end are read off the text. -/
theorem text_inj (hxs : ∀ x ∈ xs, stop ∉ f x) (hys : ∀ y ∈ ys, stop ∉ f y) (h : text f stop xs = text f stop ys) :
    xs.map f = ys.map f := by
  induction xs generalizing ys with
  | nil =>
      cases ys with
      | nil => rfl
      | cons y ys =>
          rw [text_cons] at h
          exact absurd h.symm (by simp [text])
  | cons x xs ih =>
      cases ys with
      | nil =>
          rw [text_cons] at h
          exact absurd h (by simp [text])
      | cons y ys =>
          rw [text_cons, text_cons] at h
          obtain ⟨hline, hrest⟩ := line_inj (hxs x (.head _)) (hys y (.head _)) h
          rw [List.map_cons, List.map_cons, hline,
            ih (fun z hz => hxs z (.tail _ hz)) (fun z hz => hys z (.tail _ hz)) hrest]

theorem text_inj_of_length {w : Nat} (hxs : ∀ x ∈ xs, (f x).length = w) (hys : ∀ y ∈ ys, (f y).length = w)
    (h : text f stop xs = text f stop ys) : xs.map f = ys.map f := by
  induction xs generalizing ys with
  | nil =>
      cases ys with
      | nil => rfl
      | cons y ys =>
          rw [text_cons] at h
          exact absurd h.symm (by simp [text])
  | cons x xs ih =>
      cases ys with
      | nil =>
          rw [text_cons] at h
          exact absurd h (by simp [text])
      | cons y ys =>
          rw [text_cons, text_cons] at h
          obtain ⟨hline, hrest⟩ := List.append_inj h ((hxs x (.head _)).trans (hys y (.head _)).symm)
          rw [List.map_cons, List.map_cons, hline,
            ih (fun z hz => hxs z (.tail _ hz)) (fun z hz => hys z (.tail _ hz)) (List.cons.inj hrest).2]

end Bugnes.Lines
