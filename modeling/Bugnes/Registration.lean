import Bugnes.Sfot
import Bugnes.TwoRuns

namespace Bugnes.Registration

open Words Memhooks IntervalList CpuCore Sfot

variable {F σ : Type}

def register (ty : MhType) (mh : Memhook F) : Call F :=
  .insert ty mh.memhookF mh.memhookFunName mh.addrStart mh.addrEnd

/-- Ranges in the order of their addresses, each ending before or where the next begins. -/
structure Ascending (rs : List (Memhook F)) : Prop where
  ranges : ∀ r ∈ rs, r.addrStart < r.addrEnd
  order : rs.IsChain fun x y => x.addrEnd ≤ y.addrStart

theorem Ascending.chain {rs : List (Memhook F)} (h : Ascending rs) : Chain startOf endOf rs :=
  chain_of_isChain h.ranges h.order

theorem walk_past {s : Word} (e : Word) (done : List (Memhook F)) {todo : List (Memhook F)}
    (hr : ∀ mh ∈ todo, mh.addrStart < mh.addrEnd)
    (h : ∀ mh ∈ todo, mh.addrEnd ≤ s) : walk s e done todo = some (done ++ todo, []) := by
  induction todo generalizing done with
  | nil => simp [walk]
  | cons mh rest ih =>
      have hend : ¬s < mh.addrEnd := BitVec.not_lt.mpr (h mh (by simp))
      have hstart : ¬s < mh.addrStart := fun hlt => hend (BitVec.lt_trans hlt (hr mh (by simp)))
      rw [walk, if_neg hstart, if_neg hend, ih _ (fun x hx => hr x (.tail _ hx)) fun x hx => h x (.tail _ hx),
        List.append_assoc]
      rfl

theorem insert_last {ty : MhType} {r : Memhook F} {t : AllMh F} (hr : r.addrStart < r.addrEnd)
    (hranges : ∀ mh ∈ t ty, mh.addrStart < mh.addrEnd) (h : ∀ mh ∈ t ty, mh.addrEnd ≤ r.addrStart) :
    call (register ty r) t = .ok (0, Function.update t ty (t ty ++ [r])) := by
  have hw := walk_past r.addrEnd [] hranges h
  rw [List.nil_append] at hw
  simp only [call, register, Memhooks.insert, assertThat_of hr, ok_bind, hw]
  cases hl : t ty <;> rfl

theorem run_register {ty : MhType} {rs : List (Memhook F)} {t : AllMh F} (h : Ascending (t ty ++ rs)) :
    Runs.run call (rs.map (register ty)) t = .ok (rs.map fun _ => 0, Function.update t ty (t ty ++ rs)) := by
  induction rs generalizing t with
  | nil => simp [Runs.run]
  | cons r rs ih =>
      have hends : ∀ mh ∈ t ty, mh.addrEnd ≤ r.addrStart := fun mh hmh =>
        (List.pairwise_append.mp h.chain).2.2 mh hmh r (by simp)
      have hcall := insert_last (h.ranges r (by simp)) (fun mh hmh => h.ranges mh (by simp [hmh])) hends
      have hnext : Ascending (Function.update t ty (t ty ++ [r]) ty ++ rs) := by
        rw [Function.update_self, List.append_assoc]
        exact h
      have hrun := Runs.run_cons_ok hcall (ih hnext)
      rwa [Function.update_self, Function.update_idem, List.append_assoc] at hrun

theorem checkList_of_mem {rs : List (Memhook F)} (h : Ascending rs) {r : Memhook F} (hr : r ∈ rs) {a : Word}
    (ha : r.addrStart ≤ a ∧ a < r.addrEnd) : checkList a rs = r.memhookF := by
  rw [checkList_eq_find, find_of_mem h.chain hr ha]
  rfl

theorem checkList_outside {rs : List (Memhook F)} {a : Word} (h : ∀ r ∈ rs, ¬(r.addrStart ≤ a ∧ a < r.addrEnd)) :
    checkList a rs = none := by
  rw [checkList_eq_find, find_eq_none.mpr h]
  rfl

/-- Hooks registered in the order of their addresses are the finite map one
expects: every range answers with its hook, and nothing else does. -/
theorem register_ascending {ty : MhType} {rs : List (Memhook F)} {t : AllMh F} (ht : t ty = []) (h : Ascending rs) :
    ∃ t', Runs.run call (rs.map (register ty)) t = .ok (rs.map fun _ => 0, t') ∧ t' ty = rs ∧
      (∀ r ∈ rs, ∀ a, r.addrStart ≤ a ∧ a < r.addrEnd → check t' ty a = r.memhookF) ∧
      (∀ a, (∀ r ∈ rs, ¬(r.addrStart ≤ a ∧ a < r.addrEnd)) → check t' ty a = none) ∧
      ∀ ty', ty' ≠ ty → t' ty' = t ty' := by
  have hrun : Runs.run call (rs.map (register ty)) t = .ok (rs.map fun _ => 0, Function.update t ty (t ty ++ rs)) :=
    run_register (by rwa [ht])
  rw [ht, List.nil_append] at hrun
  have hlist : Function.update t ty rs ty = rs := Function.update_self _ _ _
  refine ⟨_, hrun, hlist, fun r hr a ha => ?_, fun a ha => ?_, fun ty' hty => Function.update_of_ne hty _ _⟩
  · rw [check, hlist]
    exact checkList_of_mem h hr ha
  · rw [check, hlist]
    exact checkList_outside ha

/-- A row of insertions as the `main` functions make them, no code looked at. -/
def registerAll (ty : MhType) : List (Memhook F) → CpuM F σ Unit
  | [] => return ()
  | r :: rs => do
      discard (memhookInsert ty r.memhookF r.memhookFunName r.addrStart r.addrEnd)
      registerAll ty rs

theorem registerAll_run {ty : MhType} {rs : List (Memhook F)} {m : Machine F σ} (h : Ascending (m.allMh ty ++ rs)) :
    (registerAll ty rs).run m = .ok ((), { m with allMh := Function.update m.allMh ty (m.allMh ty ++ rs) }) := by
  induction rs generalizing m with
  | nil => simp [registerAll]
  | cons r rs ih =>
      have hends : ∀ mh ∈ m.allMh ty, mh.addrEnd ≤ r.addrStart := fun mh hmh =>
        (List.pairwise_append.mp h.chain).2.2 mh hmh r (by simp)
      have hcall := insert_last (h.ranges r (by simp)) (fun mh hmh => h.ranges mh (by simp [hmh])) hends
      have hinsert : (discard (memhookInsert ty r.memhookF r.memhookFunName r.addrStart r.addrEnd)).run m =
          .ok ((), { m with allMh := Function.update m.allMh ty (m.allMh ty ++ [r]) }) := by
        refine TwoRuns.discard_run_ok (a := 0) ?_
        rw [memhookInsert_run]
        exact congrArg (Except.map _) hcall
      have hnext : Ascending (Function.update m.allMh ty (m.allMh ty ++ [r]) ty ++ rs) := by
        rw [Function.update_self, List.append_assoc]
        exact h
      rw [registerAll, StateT.run_bind, hinsert, ok_bind]
      refine (ih (m := { m with allMh := _ }) hnext).trans ?_
      simp only [Function.update_self, Function.update_idem, List.append_assoc, List.cons_append, List.nil_append]

theorem registerAll_fresh {ty : MhType} {rs : List (Memhook F)} {m : Machine F σ} (hm : m.allMh ty = [])
    (h : Ascending rs) :
    (registerAll ty rs).run m = .ok ((), { m with allMh := Function.update m.allMh ty rs }) := by
  have hrun := registerAll_run (m := m) (show Ascending (m.allMh ty ++ rs) by rwa [hm])
  rwa [hm] at hrun

theorem register_ascending_adjacent :
    let rs : List (Memhook Nat) := [⟨0x2000, 0x2001, some 1, none⟩, ⟨0x2001, 0x2002, some 2, none⟩,
      ⟨0x4014, 0x4015, some 3, none⟩]
    ∃ t', Runs.run call (rs.map (register .write)) empty = .ok (rs.map fun _ => 0, t') ∧ t' .write = rs ∧
      (∀ r ∈ rs, ∀ a, r.addrStart ≤ a ∧ a < r.addrEnd → check t' .write a = r.memhookF) ∧
      (∀ a, (∀ r ∈ rs, ¬(r.addrStart ≤ a ∧ a < r.addrEnd)) → check t' .write a = none) ∧
      ∀ ty', ty' ≠ .write → t' ty' = empty ty' :=
  register_ascending rfl ⟨by decide, by simp⟩

end Bugnes.Registration
