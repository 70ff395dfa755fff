import Mathlib.Logic.Function.Basic
import Bugnes.IntervalList
import Bugnes.Runs
import Bugnes.Words

namespace Bugnes.Memhooks

open Words

inductive MhType
  | read
  | write
  | transl
deriving DecidableEq, Repr

/-- A mapping. The function pointer may be NULL, which `check` cannot tell
from an address that has no mapping. -/
structure Memhook (F : Type) where
  addrStart : Word
  addrEnd : Word
  memhookF : Option F
  memhookFunName : Option String
deriving DecidableEq, Repr

abbrev AllMh (F : Type) := MhType → List (Memhook F)

variable {F : Type}

def empty : AllMh F := fun _ => []

/-- The walk of `insert`: the mappings behind the iterator and the ones from
the iterator on, or nothing where the C code returns 1. -/
def walk (addrStart addrEnd : Word) (behind : List (Memhook F)) :
    List (Memhook F) → Option (List (Memhook F) × List (Memhook F))
  | [] => some (behind, [])
  | mh :: rest =>
      if addrStart < mh.addrStart then
        if addrEnd ≥ mh.addrStart then some (behind, mh :: rest) else none
      else if addrStart < mh.addrEnd then none
      else walk addrStart addrEnd (behind ++ [mh]) rest

protected def insert (mhType : MhType) (mhFun : Option F) (mhFunName : Option String)
    (addrStart addrEnd : Word) (allMh : AllMh F) : Except Fault (Int × AllMh F) := do
  assertThat (addrStart < addrEnd)
  let mh : Memhook F := ⟨addrStart, addrEnd, mhFun, mhFunName⟩
  match walk addrStart addrEnd [] (allMh mhType) with
  | none => .ok (1, allMh)
  -- no mapping behind: the list head is replaced, and `mh->next` is still NULL
  | some ([], _) => .ok (0, Function.update allMh mhType [mh])
  | some (behind, rest) => .ok (0, Function.update allMh mhType (behind ++ mh :: rest))

def checkList (addr : Word) : List (Memhook F) → Option F
  | [] => none
  | mh :: rest => if mh.addrStart ≤ addr ∧ addr < mh.addrEnd then mh.memhookF else checkList addr rest

def check (allMh : AllMh F) (mhType : MhType) (addr : Word) : Option F := checkList addr (allMh mhType)

def memhookClear (_ : AllMh F) : AllMh F := fun _ => []

inductive Call (F : Type)
  | insert (mhType : MhType) (mhFun : Option F) (mhFunName : Option String) (addrStart addrEnd : Word)
  | clear
deriving Repr

def call : Runs.Machine (Call F) Int (AllMh F) Fault
  | .insert ty f name s e, t => Memhooks.insert ty f name s e t
  | .clear, t => .ok (0, memhookClear t)

def Reachable (t : AllMh F) : Prop := ∃ calls codes, Runs.run call calls empty = .ok (codes, t)

def Call.Ranged : Call F → Prop
  | .insert _ _ _ s e => s < e
  | .clear => True

def startOf (mh : Memhook F) : Nat := mh.addrStart.toNat

def endOf (mh : Memhook F) : Nat := mh.addrEnd.toNat

theorem checkList_eq_find (addr : Word) (xs : List (Memhook F)) :
    checkList addr xs = (IntervalList.find startOf endOf xs addr.toNat).bind Memhook.memhookF := by
  induction xs with
  | nil => rfl
  | cons mh rest ih =>
      have hc : (mh.addrStart ≤ addr ∧ addr < mh.addrEnd) ↔
          IntervalList.Covers startOf endOf mh addr.toNat := Iff.rfl
      rw [checkList, IntervalList.find_cons, ih]
      by_cases h : mh.addrStart ≤ addr ∧ addr < mh.addrEnd
      · rw [if_pos h, if_pos (hc.mp h)]
        rfl
      · rw [if_neg h, if_neg (fun hn => h (hc.mpr hn))]

/-- All the walk can come to: it splits the list, every mapping behind it ends
before the new range begins, and it links the range in before a mapping that
begins inside it or right at its end, or gives up at one that lies past the range
or covers its first address. -/
theorem walk_ends {s e : Word} {done : List (Memhook F)} (hdone : ∀ mh ∈ done, mh.addrEnd ≤ s)
    (todo : List (Memhook F)) :
    ∃ before after, before ++ after = done ++ todo ∧ (∀ mh ∈ before, mh.addrEnd ≤ s) ∧
      (walk s e done todo = some (before, after) ∧ (∀ mh ∈ after.head?, s < mh.addrStart ∧ mh.addrStart ≤ e) ∨
       walk s e done todo = none ∧ ∃ mh ∈ after.head?, e < mh.addrStart ∨ mh.addrStart ≤ s ∧ s < mh.addrEnd) := by
  induction todo generalizing done with
  | nil => exact ⟨done, [], rfl, hdone, .inl ⟨rfl, by simp⟩⟩
  | cons mh rest ih =>
      by_cases h₁ : s < mh.addrStart
      · refine ⟨done, mh :: rest, rfl, hdone, ?_⟩
        by_cases h₂ : e ≥ mh.addrStart
        · rw [walk, if_pos h₁, if_pos h₂]
          exact .inl ⟨rfl, by simpa using ⟨h₁, h₂⟩⟩
        · rw [walk, if_pos h₁, if_neg h₂]
          exact .inr ⟨rfl, mh, rfl, .inl (BitVec.not_le.mp h₂)⟩
      · by_cases h₂ : s < mh.addrEnd
        · refine ⟨done, mh :: rest, rfl, hdone, ?_⟩
          rw [walk, if_neg h₁, if_pos h₂]
          exact .inr ⟨rfl, mh, rfl, .inr ⟨BitVec.not_lt.mp h₁, h₂⟩⟩
        · have hdone' : ∀ x ∈ done ++ [mh], x.addrEnd ≤ s := by
            intro x hx
            rcases List.mem_append.mp hx with hx | hx
            · exact hdone x hx
            · rw [List.mem_singleton.mp hx]
              exact BitVec.not_lt.mp h₂
          obtain ⟨before, after, hsplit, hrest⟩ := ih hdone'
          rw [walk, if_neg h₁, if_neg h₂]
          exact ⟨before, after, by simpa using hsplit, hrest⟩

theorem walk_some {s e : Word} {done todo before after : List (Memhook F)}
    (hdone : ∀ mh ∈ done, mh.addrEnd ≤ s) (h : walk s e done todo = some (before, after)) :
    before ++ after = done ++ todo ∧ (∀ mh ∈ before, mh.addrEnd ≤ s) ∧
      ∀ mh ∈ after.head?, s < mh.addrStart ∧ mh.addrStart ≤ e := by
  obtain ⟨before', after', hsplit, hbefore, ⟨hw, hstop⟩ | ⟨hw, -⟩⟩ := walk_ends (e := e) hdone todo
  · cases hw.symm.trans h
    exact ⟨hsplit, hbefore, hstop⟩
  · cases hw.symm.trans h

theorem walk_none {s e : Word} {done todo : List (Memhook F)}
    (hdone : ∀ mh ∈ done, mh.addrEnd ≤ s) (h : walk s e done todo = none) :
    ∃ before mh after, done ++ todo = before ++ mh :: after ∧ (∀ x ∈ before, x.addrEnd ≤ s) ∧
      (e < mh.addrStart ∨ mh.addrStart ≤ s ∧ s < mh.addrEnd) := by
  obtain ⟨before, after, hsplit, hbefore, ⟨hw, -⟩ | ⟨-, mh, hhead, hmh⟩⟩ := walk_ends (e := e) hdone todo
  · cases hw.symm.trans h
  · obtain ⟨rest, rfl⟩ := List.head?_eq_some_iff.mp hhead
    exact ⟨before, mh, rest, hsplit.symm, hbefore, hmh⟩

end Bugnes.Memhooks
