import Bugnes.Memhooks

namespace Bugnes.HookTables

open Words Memhooks IntervalList

variable {F : Type}

/-- Everything one call of `insert` can do: reject and leave the tables alone,
become the only mapping of its list, or be linked behind another mapping. -/
theorem insert_cases {ty : MhType} {f : Option F} {name : Option String} {s e : Word}
    {t t' : AllMh F} {r : Int} (h : Memhooks.insert ty f name s e t = .ok (r, t')) :
    s < e ∧
    ((r = 1 ∧ t' = t ∧ walk s e [] (t ty) = none) ∨
     (r = 0 ∧ t' = Function.update t ty [⟨s, e, f, name⟩] ∧ walk s e [] (t ty) = some ([], t ty)) ∨
     (∃ before after, r = 0 ∧ before ≠ [] ∧ walk s e [] (t ty) = some (before, after) ∧
        t ty = before ++ after ∧ t' = Function.update t ty (before ++ ⟨s, e, f, name⟩ :: after))) := by
  by_cases hse : s < e
  · refine ⟨hse, ?_⟩
    simp only [Memhooks.insert, assertThat_of hse, ok_bind] at h
    cases hw : walk s e [] (t ty) with
    | none =>
        rw [hw] at h
        cases h
        exact .inl ⟨rfl, rfl, rfl⟩
    | some split =>
        obtain ⟨before, after⟩ := split
        have hsplit := (walk_some (by simp) hw).1
        rw [List.nil_append] at hsplit
        rw [hw] at h
        cases before with
        | nil =>
            cases h
            exact .inr (.inl ⟨rfl, rfl, by rw [← hsplit, List.nil_append]⟩)
        | cons mh before =>
            cases h
            exact .inr (.inr ⟨mh :: before, after, rfl, by simp, rfl, hsplit.symm, rfl⟩)
  · simp [Memhooks.insert, assertThat_of_not hse] at h

theorem insert_total (ty : MhType) (f : Option F) (name : Option String) {s e : Word} (hse : s < e)
    (t : AllMh F) : ∃ r t', Memhooks.insert ty f name s e t = .ok (r, t') := by
  simp only [Memhooks.insert, assertThat_of hse, ok_bind]
  split <;> exact ⟨_, _, rfl⟩

theorem call_total {c : Call F} (hc : c.Ranged) (t : AllMh F) : ∃ r t', call c t = .ok (r, t') := by
  cases c with
  | insert ty f name s e => exact insert_total ty f name hc t
  | clear => exact ⟨_, _, rfl⟩

theorem insert_overrides {ty : MhType} {f : Option F} {name : Option String} {s e : Word}
    {t t' : AllMh F} (h : Memhooks.insert ty f name s e t = .ok (0, t'))
    (hhead : ∀ mh ∈ (t ty).head?, mh.addrStart ≤ s) (a : Word) :
    check t' ty a = override s.toNat e.toNat f (fun _ => check t ty a) a.toNat := by
  obtain ⟨hse, ⟨hr, _⟩ | ⟨_, rfl, hw⟩ | ⟨before, after, _, _, hw, hsplit, rfl⟩⟩ := insert_cases h
  · cases hr
  · have hnil : t ty = [] := by
      have hstop := (walk_some (by simp) hw).2.2
      cases hl : t ty with
      | nil => rfl
      | cons mh rest =>
          have hlt := (hstop mh (by simp [hl])).1
          have hle := hhead mh (by simp [hl])
          exact absurd hle (BitVec.not_le.mpr hlt)
    simp [check, hnil, checkList, override, BitVec.le_def, BitVec.lt_def]
  · have hb : ∀ y ∈ before, endOf y ≤ startOf (⟨s, e, f, name⟩ : Memhook F) :=
      (walk_some (by simp) hw).2.1
    simp only [check, Function.update_self, checkList_eq_find, hsplit, find_insert hb]
    by_cases hc : s.toNat ≤ a.toNat ∧ a.toNat < e.toNat <;>
      simp [override, startOf, endOf, hc]

theorem insert_replaces {ty : MhType} {f : Option F} {name : Option String} {s e : Word}
    {t t' : AllMh F} (h : Memhooks.insert ty f name s e t = .ok (0, t'))
    (hhead : ¬∀ mh ∈ (t ty).head?, mh.addrStart ≤ s) (a : Word) :
    check t' ty a = override s.toNat e.toNat f (fun _ => none) a.toNat := by
  obtain ⟨hse, ⟨hr, _⟩ | ⟨_, rfl, _⟩ | ⟨before, after, _, hne, hw, hsplit, rfl⟩⟩ := insert_cases h
  · cases hr
  · simp [check, checkList, override, BitVec.le_def, BitVec.lt_def]
  · obtain ⟨mh, rest, rfl⟩ := List.exists_cons_of_ne_nil hne
    have hb : mh.addrEnd ≤ s := (walk_some (by simp) hw).2.1 mh (by simp)
    refine absurd ?_ hhead
    intro x hx
    have hxm : x = mh := by simpa [hsplit] using hx.symm
    subst hxm
    -- the walk has passed the first mapping, so the new range does not begin below it
    have hpass : ¬s < x.addrStart := by
      intro hlt
      have hw' := hw
      rw [hsplit, List.cons_append, walk, if_pos hlt] at hw'
      split at hw'
      · simp at hw'
      · cases hw'
    exact BitVec.not_lt.mp hpass

/-- After an accepted insertion into a table that any run of calls can reach,
the lookup is the old one overridden on the new range if and only if the list
does not begin above the new range, or held nothing outside it. -/
theorem insert_overrides_iff : ∀ t : AllMh F, Reachable t →
    ∀ (ty : MhType) (f : Option F) (name : Option String) (s e : Word), s < e →
    ∀ t', Memhooks.insert ty f name s e t = .ok (0, t') →
    ((∀ a, check t' ty a = if s ≤ a ∧ a < e then f else check t ty a) ↔
      (∀ mh ∈ (t ty).head?, mh.addrStart ≤ s) ∨ ∀ a, check t ty a ≠ none → s ≤ a ∧ a < e) := by
  intro t _ ty f name s e _ t' h
  by_cases hhead : ∀ mh ∈ (t ty).head?, mh.addrStart ≤ s
  · have hover := insert_overrides h hhead
    exact iff_of_true (fun a => (hover a).trans rfl) (.inl hhead)
  · have hrep := insert_replaces h hhead
    constructor
    · intro hall
      refine .inr fun a hne => ?_
      by_contra hout
      have hnone : check t' ty a = none := (hrep a).trans (if_neg hout)
      have hold : check t' ty a = check t ty a := by rw [hall a, if_neg hout]
      exact hne (hold ▸ hnone)
    · rintro (hno | hout) a
      · exact absurd hno hhead
      · refine (hrep a).trans ?_
        by_cases hin : s ≤ a ∧ a < e
        · rw [if_pos hin]
          exact if_pos hin
        · rw [if_neg hin]
          refine (if_neg hin).trans ?_
          by_contra hne
          exact hin (hout a (Ne.symm hne))

theorem insert_overrides_iff_append :
    let t : AllMh Nat := Function.update empty .read [⟨0x10, 0x20, some 1, none⟩]
    let t' : AllMh Nat := Function.update t .read [⟨0x10, 0x20, some 1, none⟩, ⟨0x20, 0x30, some 2, none⟩]
    (∀ a, check t' .read a = if 0x20 ≤ a ∧ a < 0x30 then some 2 else check t .read a) ↔
      (∀ mh ∈ (t .read).head?, mh.addrStart ≤ 0x20) ∨
        ∀ a, check t .read a ≠ none → 0x20 ≤ a ∧ a < 0x30 :=
  insert_overrides_iff _ ⟨[.insert .read (some 1) none 0x10 0x20], [0], rfl⟩ .read (some 2) none
    0x20 0x30 (by decide) _ rfl

theorem insert_loses_hook :
    ¬∀ (t : AllMh Nat), Reachable t →
      ∀ (ty : MhType) (f : Option Nat) (name : Option String) (s e : Word), s < e →
      ∀ t', Memhooks.insert ty f name s e t = .ok (0, t') →
      ∀ a, check t' ty a = if s ≤ a ∧ a < e then f else check t ty a := by
  intro hall
  have h := hall _ ⟨[.insert .read (some 1) none 0x10 0x20], [0], rfl⟩ .read (some 2) none 0 0x10
    (by decide) _ rfl 0x15
  exact absurd h (by decide)

/-- The comment on `all_mh`: every list is sorted by the address of the mapping,
and no two mappings of one list overlap. -/
def Promised (t : AllMh F) : Prop :=
  ∀ ty, (t ty).Pairwise (fun x y => x.addrStart ≤ y.addrStart) ∧
    (t ty).Pairwise (fun x y => ∀ a : Word,
      ¬((x.addrStart ≤ a ∧ a < x.addrEnd) ∧ (y.addrStart ≤ a ∧ a < y.addrEnd)))

/-- The new range begins past the end of some mapping and inside none, but
reaches over the beginning of a later one. -/
def Clash : Call F → AllMh F → Prop
  | .insert ty _ _ s e, t =>
      (∃ x ∈ t ty, x.addrEnd ≤ s) ∧ (∀ x ∈ t ty, ¬(x.addrStart ≤ s ∧ s < x.addrEnd)) ∧
        ∃ x ∈ t ty, s < x.addrStart ∧ x.addrStart < e
  | .clear, _ => False

def Ranges (t : AllMh F) : Prop := ∀ ty, ∀ x ∈ t ty, x.addrStart < x.addrEnd

theorem apart_iff (x y : Memhook F) :
    Apart startOf endOf x y ↔ ∀ a : Word,
      ¬((x.addrStart ≤ a ∧ a < x.addrEnd) ∧ (y.addrStart ≤ a ∧ a < y.addrEnd)) := by
  constructor
  · exact fun h a => h a.toNat
  · rintro h a ⟨hx, hy⟩
    have ha : (BitVec.ofNat 16 a).toNat = a :=
      Nat.mod_eq_of_lt (hx.2.trans x.addrEnd.isLt)
    refine h (BitVec.ofNat 16 a) ?_
    simp only [BitVec.le_def, BitVec.lt_def, ha]
    exact ⟨hx, hy⟩

theorem promised_iff_chain {t : AllMh F} (hr : Ranges t) :
    Promised t ↔ ∀ ty, Chain startOf endOf (t ty) := by
  refine forall_congr' fun ty => ?_
  rw [chain_iff (hr ty)]
  refine and_congr Iff.rfl ?_
  exact List.Pairwise.iff fun x y => (apart_iff x y).symm

theorem insert_forall {P : MhType → Memhook F → Prop} {ty : MhType} {f : Option F} {name : Option String}
    {s e : Word} {t t' : AllMh F} {r : Int} (ht : ∀ ty, ∀ x ∈ t ty, P ty x) (hnew : s < e → P ty ⟨s, e, f, name⟩)
    (h : Memhooks.insert ty f name s e t = .ok (r, t')) : ∀ ty, ∀ x ∈ t' ty, P ty x := by
  have hlist : ∀ xs, (∀ x ∈ xs, P ty x) → ∀ ty', ∀ x ∈ Function.update t ty xs ty', P ty' x := by
    intro xs hxs ty'
    by_cases hty : ty' = ty
    · subst hty
      rwa [Function.update_self]
    · rw [Function.update_of_ne hty]
      exact ht ty'
  obtain ⟨hse, ⟨_, rfl, _⟩ | ⟨_, rfl, _⟩ | ⟨before, after, _, _, _, hsplit, rfl⟩⟩ := insert_cases h
  · exact ht
  · exact hlist _ (by simpa using hnew hse)
  · have hold := ht ty
    rw [hsplit] at hold
    refine hlist _ fun x hx => ?_
    rcases List.mem_append.mp hx with hx | hx
    · exact hold x (List.mem_append_left _ hx)
    · rcases List.mem_cons.mp hx with rfl | hx
      · exact hnew hse
      · exact hold x (List.mem_append_right _ hx)

theorem insert_ranges {ty : MhType} {f : Option F} {name : Option String} {s e : Word}
    {t t' : AllMh F} {r : Int} (ht : Ranges t) (h : Memhooks.insert ty f name s e t = .ok (r, t')) :
    Ranges t' := insert_forall ht id h

theorem chain_update {t : AllMh F} {ty : MhType} {xs : List (Memhook F)}
    (ht : ∀ ty, Chain startOf endOf (t ty)) :
    (∀ ty', Chain startOf endOf (Function.update t ty xs ty')) ↔ Chain startOf endOf xs := by
  constructor
  · intro h
    simpa using h ty
  · intro h ty'
    by_cases hty : ty' = ty
    · subst hty
      rwa [Function.update_self]
    · rw [Function.update_of_ne hty]
      exact ht ty'

theorem after_starts {s e : Word} {before after : List (Memhook F)} {xs : List (Memhook F)}
    (hr : ∀ x ∈ xs, x.addrStart < x.addrEnd) (hc : Chain startOf endOf xs)
    (hw : walk s e [] xs = some (before, after)) : ∀ y ∈ after, s < y.addrStart := by
  obtain ⟨hsplit, _, hstop⟩ := walk_some (by simp) hw
  rw [List.nil_append] at hsplit
  cases after with
  | nil => simp
  | cons z after =>
      have hz : s < z.addrStart := (hstop z (by simp)).1
      intro y hy
      rcases List.mem_cons.mp hy with rfl | hy
      · exact hz
      · rw [← hsplit] at hc hr
        have hzy : z.addrEnd.toNat ≤ y.addrStart.toNat :=
          (List.pairwise_cons.mp (List.pairwise_append.mp hc).2.1).1 y hy
        have hzz : z.addrStart.toNat < z.addrEnd.toNat := hr z (by simp)
        rw [BitVec.lt_def] at hz ⊢
        omega

theorem clash_accepted {ty : MhType} {f : Option F} {name : Option String} {s e : Word} {t : AllMh F}
    (hr : Ranges t) (hc : ∀ ty, Chain startOf endOf (t ty)) (h : Clash (.insert ty f name s e) t) :
    walk s e [] (t ty) ≠ none := by
  obtain ⟨-, hout, x, hx, hsx, hxe⟩ := h
  intro hw
  obtain ⟨before, mh, after, hsplit, hb, hmh⟩ := walk_none (by simp) hw
  rw [List.nil_append] at hsplit
  rcases hmh with hmh | hmh
  · have hcs := hc ty
    rw [hsplit] at hcs
    have hxs : x ∈ before ++ mh :: after := hsplit ▸ hx
    have hxx := hr ty x hx
    have hmm := hr ty mh (by simp [hsplit])
    rw [BitVec.lt_def] at *
    rcases List.mem_append.mp hxs with hxb | hxa
    · have hxs := BitVec.le_def.mp (hb x hxb)
      omega
    · rcases List.mem_cons.mp hxa with rfl | hxa
      · omega
      · have hle : mh.addrEnd.toNat ≤ x.addrStart.toNat :=
          (List.pairwise_cons.mp (List.pairwise_append.mp hcs).2.1).1 x hxa
        omega
  · exact hout mh (by simp [hsplit]) hmh

theorem call_promised {c : Call F} {t t' : AllMh F} {r : Int} (hr : Ranges t) (hp : Promised t)
    (h : call c t = .ok (r, t')) : Ranges t' ∧ (Promised t' ↔ ¬Clash c t) := by
  cases c with
  | clear =>
      cases h
      exact ⟨fun _ _ hx => (List.not_mem_nil hx).elim,
        iff_of_true (fun _ => ⟨.nil, .nil⟩) id⟩
  | insert ty f name s e =>
      have hr' := insert_ranges hr h
      refine ⟨hr', ?_⟩
      have hc := (promised_iff_chain hr).mp hp
      rw [promised_iff_chain hr']
      obtain ⟨hse, ⟨_, rfl, hw⟩ | ⟨_, rfl, hw⟩ | ⟨before, after, _, hne, hw, hsplit, rfl⟩⟩ := insert_cases h
      · exact iff_of_true hc fun hcl => clash_accepted hr hc hcl hw
      · refine iff_of_true ((chain_update hc).mpr (List.pairwise_singleton _ _)) ?_
        rintro ⟨⟨x, hx, hxs⟩, -⟩
        have hlt := after_starts (hr ty) (hc ty) hw x hx
        have hxx := hr ty x hx
        rw [BitVec.lt_def, BitVec.le_def] at *
        omega
      · have hb := (walk_some (by simp) hw).2.1
        have ha := after_starts (hr ty) (hc ty) hw
        have hins : Chain startOf endOf (before ++ ⟨s, e, f, name⟩ :: after) ↔
            ∀ y ∈ after, e.toNat ≤ startOf y := chain_insert hb (hsplit ▸ hc ty)
        rw [chain_update hc, hins]
        constructor
        · rintro hafter ⟨-, -, x, hx, hsx, hxe⟩
          rw [hsplit] at hx
          have hxx := hr ty x (hsplit ▸ hx)
          rw [BitVec.lt_def] at *
          rcases List.mem_append.mp hx with hx | hx
          · have hle := BitVec.le_def.mp (hb x hx)
            omega
          · have hle : e.toNat ≤ x.addrStart.toNat := hafter x hx
            omega
        · intro hno y hy
          by_contra hlt
          refine hno ⟨?_, ?_, y, by simp [hsplit, hy], ha y hy, BitVec.lt_def.mpr (not_le.mp hlt)⟩
          · obtain ⟨x, xs, rfl⟩ := List.exists_cons_of_ne_nil hne
            exact ⟨x, by simp [hsplit], hb x (by simp)⟩
          · intro x hx hcov
            rw [hsplit] at hx
            rcases List.mem_append.mp hx with hx | hx
            · exact absurd (hb x hx) (BitVec.not_le.mpr hcov.2)
            · exact absurd hcov.1 (BitVec.not_le.mpr (ha x hx))

theorem run_total {calls : List (Call F)} (hc : ∀ c ∈ calls, c.Ranged) {t : AllMh F} (ht : Ranges t) :
    ∃ codes t', Runs.run call calls t = .ok (codes, t') ∧ Ranges t' := by
  induction calls generalizing t with
  | nil => exact ⟨[], t, rfl, ht⟩
  | cons c calls ih =>
      obtain ⟨r, t₁, h₁⟩ := call_total (hc c (by simp)) t
      have hr₁ : Ranges t₁ := by
        cases c with
        | insert ty f name s e => exact insert_ranges ht h₁
        | clear => cases h₁; exact fun _ _ hx => (List.not_mem_nil hx).elim
      obtain ⟨codes, t₂, h₂, hr₂⟩ := ih (fun x hx => hc x (by simp [hx])) hr₁
      exact ⟨r :: codes, t₂, Runs.run_cons_ok h₁ h₂, hr₂⟩

theorem ranges_empty : Ranges (empty : AllMh F) := fun _ _ hx => (List.not_mem_nil hx).elim

theorem promised_empty : Promised (empty : AllMh F) := fun _ => ⟨.nil, .nil⟩

/-- The tables keep the promise after every call of a run if and only if no
call of the run clashes with the tables it finds. -/
theorem run_promised_iff (calls : List (Call F)) (hc : ∀ c ∈ calls, c.Ranged) :
    (∀ before, before <+: calls →
      ∃ codes t, Runs.run call before empty = .ok (codes, t) ∧ Promised t) ↔
    (∀ before c, before ++ [c] <+: calls →
      ∃ codes t, Runs.run call before empty = .ok (codes, t) ∧ ¬Clash c t) := by
  have hstep : ∀ before c, before ++ [c] <+: calls → ∃ codes t r t',
      Runs.run call before empty = .ok (codes, t) ∧ Ranges t ∧ call c t = .ok (r, t') ∧
      Runs.run call (before ++ [c]) empty = .ok (codes ++ [r], t') := by
    intro before c hpre
    have hmem : ∀ x ∈ before ++ [c], x.Ranged := fun x hx => hc x (hpre.subset hx)
    obtain ⟨codes, t, hrun, hr⟩ := run_total (fun x hx => hmem x (List.mem_append_left [c] hx)) ranges_empty
    obtain ⟨r, t', hcall⟩ := call_total (hmem c (by simp)) t
    exact ⟨codes, t, r, t', hrun, hr, hcall, Runs.run_append_ok hrun (Runs.run_cons_ok hcall rfl)⟩
  constructor
  · intro hall before c hpre
    obtain ⟨codes, t, r, t', hrun, hr, hcall, hrun'⟩ := hstep before c hpre
    obtain ⟨_, _, h₁, hp⟩ := hall before ((List.prefix_append _ _).trans hpre)
    obtain ⟨_, _, h₂, hp'⟩ := hall (before ++ [c]) hpre
    rw [hrun] at h₁
    rw [hrun'] at h₂
    cases h₁
    cases h₂
    exact ⟨codes, t, hrun, (call_promised hr hp hcall).2.mp hp'⟩
  · intro hno before
    induction before using List.reverseRecOn with
    | nil => exact fun _ => ⟨[], empty, rfl, promised_empty⟩
    | append_singleton before c ih =>
        intro hpre
        obtain ⟨codes, t, r, t', hrun, hr, hcall, hrun'⟩ := hstep before c hpre
        obtain ⟨_, _, h₁, hp⟩ := ih ((List.prefix_append _ _).trans hpre)
        obtain ⟨_, _, h₂, hcl⟩ := hno before c hpre
        rw [hrun] at h₁ h₂
        cases h₁
        cases h₂
        exact ⟨_, t', hrun', (call_promised hr hp hcall).2.mpr hcl⟩

theorem run_promised_iff_adjacent :
    let calls : List (Call Nat) := [.insert .read (some 1) none 0 0x10, .insert .read (some 2) none 0x10 0x20]
    (∀ before, before <+: calls →
      ∃ codes t, Runs.run call before empty = .ok (codes, t) ∧ Promised t) ↔
    (∀ before c, before ++ [c] <+: calls →
      ∃ codes t, Runs.run call before empty = .ok (codes, t) ∧ ¬Clash c t) :=
  run_promised_iff _ (by
    intro c hc
    simp only [List.mem_cons, List.not_mem_nil, or_false] at hc
    rcases hc with rfl | rfl
    · exact (by decide : (0 : Word) < 0x10)
    · exact (by decide : (0x10 : Word) < 0x20))

theorem run_overlaps :
    ¬∀ calls : List (Call Nat), (∀ c ∈ calls, c.Ranged) → ∀ before, before <+: calls →
      ∃ codes t, Runs.run call before empty = .ok (codes, t) ∧ Promised t := by
  intro hall
  obtain ⟨codes, t, hrun, hp⟩ := hall
    [.insert .read (some 1) none 0 5, .insert .read (some 2) none 10 20,
      .insert .read (some 3) none 6 50]
    (by
      intro c hc
      simp only [List.mem_cons, List.not_mem_nil, or_false] at hc
      rcases hc with rfl | rfl | rfl
      · exact (by decide : (0 : Word) < 5)
      · exact (by decide : (10 : Word) < 20)
      · exact (by decide : (6 : Word) < 50))
    _ (List.prefix_refl _)
  cases hrun
  have hapart := (hp .read).2
  have h : ∀ a : Word, ¬(((6 : Word) ≤ a ∧ a < 50) ∧ ((10 : Word) ≤ a ∧ a < 20)) :=
    (List.pairwise_cons.mp (List.pairwise_cons.mp hapart).2).1 _ List.mem_cons_self
  exact h 10 (by decide)

end Bugnes.HookTables
