import Mathlib.Data.Option.Basic

namespace Bugnes.Stepping

variable {S : Type} {step : S → Option S} {P Q R : S → Prop}

def iter (step : S → Option S) : Nat → S → Option S
  | 0, s => some s
  | n + 1, s => (step s).bind (iter step n)

theorem iter_add (m n : Nat) (s : S) : iter step (m + n) s = (iter step m s).bind (iter step n) := by
  induction m generalizing s with
  | zero => rw [Nat.zero_add, iter, Option.bind_some]
  | succ m ih =>
      rw [Nat.succ_add, iter, iter, Option.bind_assoc]
      exact congrArg (Option.bind (step s)) (funext ih)

theorem iter_succ_inv {n : Nat} {s t : S} (h : iter step (n + 1) s = some t) :
    ∃ u, iter step n s = some u ∧ step u = some t := by
  rw [iter_add] at h
  obtain ⟨u, hu, ht⟩ := Option.bind_eq_some_iff.mp h
  obtain ⟨v, hv, htv⟩ := Option.bind_eq_some_iff.mp ht
  cases htv
  exact ⟨u, hu, hv⟩

theorem iter_abstract {T : Type} {step' : T → Option T} (abstract : S → T) {n : Nat} {s : S}
    (h : ∀ k < n, ∀ t, iter step k s = some t → ∃ u, step t = some u ∧ step' (abstract t) = some (abstract u)) :
    ∃ t, iter step n s = some t ∧ iter step' n (abstract s) = some (abstract t) := by
  induction n with
  | zero => exact ⟨s, rfl, rfl⟩
  | succ n ih =>
      obtain ⟨t, ht, ht'⟩ := ih fun k hk => h k (Nat.lt_succ_of_lt hk)
      obtain ⟨u, hu, hu'⟩ := h n (Nat.lt_succ_self n) t ht
      refine ⟨u, ?_, ?_⟩
      · rw [iter_add, ht, Option.bind_some, iter, hu]
        rfl
      · rw [iter_add, ht', Option.bind_some, iter, hu']
        rfl

/-- Forward simulation: what a related machine does in so many steps is done here too. -/
theorem iter_simulates {T : Type} {step' : T → Option T} {rel : T → S → Prop}
    (h : ∀ t s t', rel t s → step' t = some t' → ∃ s', step s = some s' ∧ rel t' s') {n : Nat} {t t' : T} {s : S}
    (hrel : rel t s) (hn : iter step' n t = some t') : ∃ s', iter step n s = some s' ∧ rel t' s' := by
  induction n generalizing t s with
  | zero =>
      cases hn
      exact ⟨s, rfl, hrel⟩
  | succ n ih =>
      obtain ⟨u, hu, hrest⟩ := Option.bind_eq_some_iff.mp hn
      obtain ⟨v, hv, hrel'⟩ := h t s u hrel hu
      obtain ⟨s', hs', ht'⟩ := ih hrel' hrest
      exact ⟨s', by rw [iter, hv, Option.bind_some, hs'], ht'⟩

/-- Total correctness: from where `P` holds the run comes to where `Q` does. -/
def LeadsTo (step : S → Option S) (P Q : S → Prop) : Prop := ∀ s, P s → ∃ n t, iter step n s = some t ∧ Q t

namespace LeadsTo

theorem of_imp (h : ∀ s, P s → Q s) : LeadsTo step P Q := fun s hs => ⟨0, s, rfl, h s hs⟩

theorem of_step (h : ∀ s, P s → ∃ t, step s = some t ∧ Q t) : LeadsTo step P Q := by
  intro s hs
  obtain ⟨t, ht, hQ⟩ := h s hs
  exact ⟨1, t, by rw [iter, ht]; rfl, hQ⟩

theorem trans (h : LeadsTo step P Q) (h' : LeadsTo step Q R) : LeadsTo step P R := by
  intro s hs
  obtain ⟨m, t, ht, hQ⟩ := h s hs
  obtain ⟨n, u, hu, hR⟩ := h' t hQ
  exact ⟨m + n, u, by rw [iter_add, ht, Option.bind_some, hu], hR⟩

end LeadsTo

end Bugnes.Stepping
