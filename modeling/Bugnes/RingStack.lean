import Mathlib.Data.BitVec
import Mathlib.Logic.Function.Basic

namespace Bugnes.RingStack

variable {w : Nat} {β : Type}

/-- A stack in a ring of cells. It grows downwards, and the pointer is at the
free cell below the top. -/
structure Buffer (w : Nat) (β : Type) where
  ptr : BitVec w
  cells : BitVec w → β

def push (v : β) (r : Buffer w β) : Buffer w β := ⟨r.ptr - 1#w, Function.update r.cells r.ptr v⟩

def pop (r : Buffer w β) : β × Buffer w β := (r.cells (r.ptr + 1#w), ⟨r.ptr + 1#w, r.cells⟩)

def Above (cells : BitVec w → β) : BitVec w → List β → Prop
  | _, [] => True
  | p, x :: xs => cells (p + 1#w) = x ∧ Above cells (p + 1#w) xs

/-- The values on the stack, top first, when it was empty with its pointer at `base`. -/
structure Holds (base : BitVec w) (r : Buffer w β) (xs : List β) : Prop where
  ptr : r.ptr + BitVec.ofNat w xs.length = base
  above : Above r.cells r.ptr xs

theorem holds_nil (r : Buffer w β) : Holds r.ptr r [] := ⟨by simp, trivial⟩

theorem add_one_add (p : BitVec w) (k : Nat) : p + 1#w + BitVec.ofNat w k = p + BitVec.ofNat w (k + 1) := by
  rw [BitVec.add_assoc, Nat.add_comm k 1, BitVec.ofNat_add]

theorem above_congr {cells cells' : BitVec w → β} {p : BitVec w} {xs : List β} (h : Above cells p xs)
    (hsame : ∀ k < xs.length, cells' (p + BitVec.ofNat w (k + 1)) = cells (p + BitVec.ofNat w (k + 1))) :
    Above cells' p xs := by
  induction xs generalizing p with
  | nil => trivial
  | cons x xs ih =>
      obtain ⟨hx, hxs⟩ := h
      refine ⟨(hsame 0 (by simp)).trans hx, ih hxs fun k hk => ?_⟩
      rw [add_one_add]
      exact hsame (k + 1) (by simpa using hk)

theorem add_ofNat_ne (p : BitVec w) {k : Nat} (h₀ : 0 < k) (hk : k < 2 ^ w) : p + BitVec.ofNat w k ≠ p := by
  intro h
  have hz := congrArg BitVec.toNat (add_eq_left.mp h)
  rw [BitVec.toNat_ofNat, Nat.mod_eq_of_lt hk] at hz
  simp at hz
  omega

theorem push_holds {base : BitVec w} {r : Buffer w β} {xs : List β} (h : Holds base r xs)
    (hroom : xs.length < 2 ^ w) (v : β) : Holds base (push v r) (v :: xs) := by
  have hback : r.ptr - 1#w + 1#w = r.ptr := BitVec.sub_add_cancel _ _
  refine ⟨?_, ?_, ?_⟩
  · rw [← h.ptr, List.length_cons, ← add_one_add, push, hback]
  · rw [push, hback]
    exact Function.update_self _ _ _
  · rw [push, hback]
    refine above_congr h.above fun k hk => ?_
    exact Function.update_of_ne (add_ofNat_ne _ (by omega) (by omega)) _ _

theorem pop_holds {base : BitVec w} {r : Buffer w β} {x : β} {xs : List β} (h : Holds base r (x :: xs)) :
    (pop r).1 = x ∧ Holds base (pop r).2 xs := by
  obtain ⟨hptr, hx, hxs⟩ := h
  refine ⟨hx, ?_, hxs⟩
  rw [← hptr, List.length_cons, ← add_one_add]
  rfl

end Bugnes.RingStack
