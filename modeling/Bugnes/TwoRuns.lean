import Bugnes.TwoMachines

namespace Bugnes.TwoRuns

open TwoMachines

variable {ε σ α β : Type} {R : σ → σ → Prop} {E : ε → Prop}

/-- Equal results in related states, or the same failure, which is one of `E`. -/
def Alike (R : σ → σ → Prop) (E : ε → Prop) : Except ε (α × σ) → Except ε (α × σ) → Prop
  | .ok (a, s), .ok (b, t) => a = b ∧ R s t
  | .error e, .error e' => e = e' ∧ E e
  | _, _ => False

/-- Run from related states, the computation ends alike. -/
def Respects (R : σ → σ → Prop) (E : ε → Prop) (x : StateT σ (Except ε) α) : Prop :=
  ∀ s t, R s t → Alike R E (x.run s) (x.run t)

def Keeps (I : σ → Prop) (x : StateT σ (Except ε) α) : Prop := ∀ s, I s → ∀ a s', x.run s = .ok (a, s') → I s'

/-- The relation whose two runs are one, along which `I` holds. -/
def Along (I : σ → Prop) (s t : σ) : Prop := s = t ∧ I s

theorem alike_iff {r r' : Except ε (α × σ)} : Alike R E r r' ↔ Agree R E r r' := by
  cases r <;> cases r' <;> exact Iff.rfl

/-- The case of `Matches` in which both computations are one. -/
theorem respects_iff {x : StateT σ (Except ε) α} : Respects R E x ↔ Matches R E x x :=
  forall₃_congr fun _ _ _ => alike_iff

theorem Alike.cases {r r' : Except ε (α × σ)} (h : Alike R E r r') :
    (∃ a s t, r = .ok (a, s) ∧ r' = .ok (a, t) ∧ R s t) ∨ ∃ e, r = .error e ∧ r' = .error e ∧ E e :=
  (alike_iff.mp h).cases

theorem bind_run_iff {x : StateT σ (Except ε) α} {f : α → StateT σ (Except ε) β} {s s' : σ} {b : β} :
    (x >>= f).run s = .ok (b, s') ↔ ∃ a t, x.run s = .ok (a, t) ∧ (f a).run t = .ok (b, s') := by
  rw [StateT.run_bind]
  constructor
  · intro h
    cases hx : x.run s with
    | error e => rw [hx] at h; cases h
    | ok r => rw [hx] at h; exact ⟨r.1, r.2, rfl, h⟩
  · rintro ⟨a, t, hx, h⟩
    rw [hx]
    exact h

theorem discard_run_iff {x : StateT σ (Except ε) α} {s s' : σ} :
    (discard x).run s = .ok ((), s') ↔ ∃ a, x.run s = .ok (a, s') := by
  rw [discard_eq_bind, bind_run_iff]
  constructor
  · rintro ⟨a, t, hx, h⟩
    cases h
    exact ⟨a, hx⟩
  · rintro ⟨a, hx⟩
    exact ⟨a, s', hx, rfl⟩

theorem discard_run_ok {x : StateT σ (Except ε) α} {s s' : σ} {a : α} (h : x.run s = .ok (a, s')) :
    (discard x).run s = .ok ((), s') :=
  discard_run_iff.mpr ⟨a, h⟩

theorem run_of_view {x : StateT σ (Except ε) α} {s : σ} {a : α} (view : σ → β) {v : β}
    (h : (x.run s).map (fun r => (r.1, view r.2)) = .ok (a, v)) : ∃ s', x.run s = .ok (a, s') ∧ view s' = v := by
  cases hx : x.run s with
  | error e =>
      rw [hx] at h
      cases h
  | ok r =>
      rw [hx] at h
      obtain ⟨hvalue, hview⟩ := Prod.mk.inj (Except.ok.inj h)
      exact ⟨r.2, congrArg (fun value => Except.ok (value, r.2)) hvalue, hview⟩

theorem respects_along {I : σ → Prop} {x : StateT σ (Except ε) α} :
    Respects (Along I) (fun _ => True) x ↔ Keeps I x := by
  constructor
  · intro h s hs a s' hrun
    have ha := h s s ⟨rfl, hs⟩
    rw [hrun] at ha
    exact ha.2.2
  · rintro h s _ ⟨rfl, hs⟩
    cases hrun : x.run s with
    | error e => exact ⟨rfl, trivial⟩
    | ok r => exact ⟨rfl, rfl, h s hs r.1 r.2 hrun⟩

theorem Respects.total {I : σ → Prop} {x : StateT σ (Except ε) α} (h : Respects (Along I) (fun _ => False) x)
    {s : σ} (hs : I s) : ∃ a s', x.run s = .ok (a, s') ∧ I s' := by
  obtain ⟨a, s', _, hrun, _, hI⟩ | ⟨_, _, _, hE⟩ := (h s s ⟨rfl, hs⟩).cases
  · exact ⟨a, s', hrun, hI.2⟩
  · exact hE.elim

namespace Respects

theorem pure (a : α) : Respects R E (Pure.pure a : StateT σ (Except ε) α) := respects_iff.mpr (.pure a)

theorem bind {x : StateT σ (Except ε) α} {f : α → StateT σ (Except ε) β} (hx : Respects R E x)
    (hf : ∀ a, Respects R E (f a)) : Respects R E (x >>= f) :=
  respects_iff.mpr ((respects_iff.mp hx).bind fun a => respects_iff.mp (hf a))

theorem throw {e : ε} (he : E e) : Respects R E (MonadExcept.throw e : StateT σ (Except ε) α) :=
  respects_iff.mpr (.throw he)

theorem get_bind {f : σ → StateT σ (Except ε) α} (hsame : ∀ s t, R s t → f s = f t) (h : ∀ s, Respects R E (f s)) :
    Respects R E (get >>= f) := by
  refine respects_iff.mpr (.get_bind fun s t hR => ?_)
  rw [← hsame s t hR]
  exact alike_iff.mp (h s s t hR)

theorem of_modify {f : σ → σ} (h : ∀ s t, R s t → R (f s) (f t)) :
    Respects R E (modify f : StateT σ (Except ε) PUnit) :=
  respects_iff.mpr (.of_modify h)

theorem of_discard {x : StateT σ (Except ε) α} (h : Respects R E x) : Respects R E (discard x) :=
  respects_iff.mpr (.of_discard (respects_iff.mp h))

theorem of_ite {p : Prop} [Decidable p] {x y : StateT σ (Except ε) α} (hx : Respects R E x) (hy : Respects R E y) :
    Respects R E (if p then x else y) :=
  respects_iff.mpr (.of_ite (respects_iff.mp hx) (respects_iff.mp hy))

theorem of_join {p : Prop} [Decidable p] {x y : StateT σ (Except ε) α} {f : α → StateT σ (Except ε) β}
    (hx : Respects R E x) (hy : Respects R E y) (hf : ∀ a, Respects R E (f a)) :
    Respects R E (if p then x >>= f else y >>= f) := .of_ite (hx.bind hf) (hy.bind hf)

theorem forM {xs : List α} {f : α → StateT σ (Except ε) PUnit} (h : ∀ a ∈ xs, Respects R E (f a)) :
    Respects R E (xs.forM f) :=
  respects_iff.mpr (.forM fun a ha => respects_iff.mp (h a ha))

theorem mapM {xs : List α} {f : α → StateT σ (Except ε) β} (h : ∀ a ∈ xs, Respects R E (f a)) :
    Respects R E (xs.mapM f) :=
  respects_iff.mpr (.mapM fun a ha => respects_iff.mp (h a ha))

end Respects

end Bugnes.TwoRuns
