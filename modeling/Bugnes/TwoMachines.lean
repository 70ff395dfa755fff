import Mathlib.Logic.Basic

namespace Bugnes.TwoMachines

variable {ε σ τ α β : Type} {R : σ → τ → Prop} {E : ε → Prop}

/-- Equal results in related states, or the same failure, which is one of `E`. -/
def Agree (R : σ → τ → Prop) (E : ε → Prop) : Except ε (α × σ) → Except ε (α × τ) → Prop
  | .ok (a, s), .ok (b, t) => a = b ∧ R s t
  | .error e, .error e' => e = e' ∧ E e
  | _, _ => False

/-- Run from related states, two computations over states of their own agree. -/
def Matches (R : σ → τ → Prop) (E : ε → Prop) (x : StateT σ (Except ε) α) (y : StateT τ (Except ε) α) : Prop :=
  ∀ s t, R s t → Agree R E (x.run s) (y.run t)

theorem Agree.cases {r : Except ε (α × σ)} {r' : Except ε (α × τ)} (h : Agree R E r r') :
    (∃ a s t, r = .ok (a, s) ∧ r' = .ok (a, t) ∧ R s t) ∨ ∃ e, r = .error e ∧ r' = .error e ∧ E e := by
  match r, r', h with
  | .ok (a, s), .ok (b, t), h => exact .inl ⟨a, s, t, rfl, by rw [h.1], h.2⟩
  | .error e, .error e', h => exact .inr ⟨e, rfl, by rw [h.1], h.2⟩

theorem Agree.mono {R' : σ → τ → Prop} {E' : ε → Prop} {r : Except ε (α × σ)} {r' : Except ε (α × τ)}
    (h : Agree R E r r') (hR : ∀ s t, R s t → R' s t) (hE : ∀ e, E e → E' e) : Agree R' E' r r' := by
  obtain ⟨a, s, t, rfl, rfl, hst⟩ | ⟨e, rfl, rfl, he⟩ := h.cases
  · exact ⟨rfl, hR s t hst⟩
  · exact ⟨rfl, hE e he⟩

theorem discard_eq_bind (x : StateT σ (Except ε) α) : discard x = x >>= fun _ => pure () := by
  rw [discard, LawfulFunctor.map_const, bind_pure_comp]
  rfl

namespace Matches

theorem pure (a : α) : Matches R E (Pure.pure a : StateT σ (Except ε) α) (Pure.pure a) := fun _ _ h => ⟨rfl, h⟩

theorem bind {x : StateT σ (Except ε) α} {y : StateT τ (Except ε) α} {f : α → StateT σ (Except ε) β}
    {g : α → StateT τ (Except ε) β} (hx : Matches R E x y) (hf : ∀ a, Matches R E (f a) (g a)) :
    Matches R E (x >>= f) (y >>= g) := by
  intro s t h
  rw [StateT.run_bind, StateT.run_bind]
  obtain ⟨a, s', t', hs, ht, hR⟩ | ⟨e, hs, ht, he⟩ := (hx s t h).cases
  · rw [hs, ht]
    exact hf a s' t' hR
  · rw [hs, ht]
    exact ⟨rfl, he⟩

theorem throw {e : ε} (he : E e) :
    Matches R E (MonadExcept.throw e : StateT σ (Except ε) α) (MonadExcept.throw e) := fun _ _ _ => ⟨rfl, he⟩

theorem get_bind {f : σ → StateT σ (Except ε) α} {g : τ → StateT τ (Except ε) α}
    (h : ∀ s t, R s t → Agree R E ((f s).run s) ((g t).run t)) : Matches R E (get >>= f) (get >>= g) := by
  intro s t hR
  exact h s t hR

theorem of_modify {f : σ → σ} {g : τ → τ} (h : ∀ s t, R s t → R (f s) (g t)) :
    Matches R E (modify f : StateT σ (Except ε) PUnit) (modify g) := fun s t hR => ⟨rfl, h s t hR⟩

theorem of_discard {x : StateT σ (Except ε) α} {y : StateT τ (Except ε) α} (h : Matches R E x y) :
    Matches R E (discard x) (discard y) := by
  rw [discard_eq_bind, discard_eq_bind]
  exact h.bind fun _ => .pure _

theorem of_ite {p : Prop} [Decidable p] {x x' : StateT σ (Except ε) α} {y y' : StateT τ (Except ε) α}
    (hx : Matches R E x y) (hy : Matches R E x' y') : Matches R E (if p then x else x') (if p then y else y') := by
  by_cases h : p
  · rwa [if_pos h, if_pos h]
  · rwa [if_neg h, if_neg h]

theorem of_join {p : Prop} [Decidable p] {x x' : StateT σ (Except ε) α} {y y' : StateT τ (Except ε) α}
    {f : α → StateT σ (Except ε) β} {g : α → StateT τ (Except ε) β} (hx : Matches R E x y) (hy : Matches R E x' y')
    (hf : ∀ a, Matches R E (f a) (g a)) :
    Matches R E (if p then x >>= f else x' >>= f) (if p then y >>= g else y' >>= g) :=
  .of_ite (hx.bind hf) (hy.bind hf)

theorem forM {xs : List α} {f : α → StateT σ (Except ε) PUnit} {g : α → StateT τ (Except ε) PUnit}
    (h : ∀ a ∈ xs, Matches R E (f a) (g a)) : Matches R E (xs.forM f) (xs.forM g) := by
  induction xs with
  | nil => exact .pure _
  | cons x xs ih => exact (h x (.head _)).bind fun _ => ih fun a ha => h a (.tail _ ha)

theorem mapM {xs : List α} {f : α → StateT σ (Except ε) β} {g : α → StateT τ (Except ε) β}
    (h : ∀ a ∈ xs, Matches R E (f a) (g a)) : Matches R E (xs.mapM f) (xs.mapM g) := by
  induction xs with
  | nil => exact .pure _
  | cons x xs ih =>
      rw [List.mapM_cons, List.mapM_cons]
      exact (h x (.head _)).bind fun _ => (ih fun a ha => h a (.tail _ ha)).bind fun _ => .pure _

end Matches

end Bugnes.TwoMachines
