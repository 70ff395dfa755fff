import Mathlib.Algebra.GroupWithZero.Nat
import Mathlib.Data.Set.Pairwise.Basic
import Mathlib.Order.CompletePartialOrder
import Mathlib.Order.Interval.Set.Disjoint

namespace Bugnes.BitFields

variable {w : Nat}

/-- A range of bits of a word. -/
structure BitField (w : Nat) where
  shift : Nat
  size : Nat
  fits : shift + size ≤ w
deriving DecidableEq, Repr

def BitField.bits (f : BitField w) : Set Nat := Set.Ico f.shift (f.shift + f.size)

instance (f : BitField w) (i : Nat) : Decidable (i ∈ f.bits) :=
  decidable_of_iff (f.shift ≤ i ∧ i < f.shift + f.size) Iff.rfl

def BitField.mask (f : BitField w) : BitVec w := BitVec.ofNat w ((2 ^ f.size - 1) <<< f.shift)

def BitField.read (f : BitField w) (x : BitVec w) : BitVec w := (x &&& f.mask) >>> f.shift

def BitField.write (f : BitField w) (x v : BitVec w) : BitVec w := (x &&& ~~~f.mask) ||| (v <<< f.shift)

def BitField.InRange (f : BitField w) (v : BitVec w) : Prop := v.toNat < 2 ^ f.size

instance (f : BitField w) (v : BitVec w) : Decidable (f.InRange v) :=
  inferInstanceAs (Decidable (v.toNat < 2 ^ f.size))

section Bits

variable (f : BitField w) {g : BitField w} (x : BitVec w) {v : BitVec w} (i : Nat)

theorem lt_of_mem_bits {i : Nat} (h : i ∈ f.bits) : i < w := lt_of_lt_of_le h.2 f.fits

theorem toNat_mask : f.mask.toNat = (2 ^ f.size - 1) * 2 ^ f.shift := by
  have hpow : 2 ^ f.size * 2 ^ f.shift ≤ 2 ^ w := by
    rw [← Nat.pow_add, Nat.add_comm]
    exact Nat.pow_le_pow_right (by decide) f.fits
  have hlt : (2 ^ f.size - 1) * 2 ^ f.shift < 2 ^ f.size * 2 ^ f.shift :=
    Nat.mul_lt_mul_of_pos_right (Nat.sub_lt (Nat.two_pow_pos _) (by decide)) (Nat.two_pow_pos _)
  rw [BitField.mask, BitVec.toNat_ofNat, Nat.shiftLeft_eq, Nat.mod_eq_of_lt (hlt.trans_le hpow)]

/-- A value is in range if and only if, shifted, it is no more than the mask. -/
theorem shifted_le_mask_iff : v.toNat <<< f.shift ≤ f.mask.toNat ↔ f.InRange v := by
  have hpos : 0 < 2 ^ f.size := Nat.two_pow_pos _
  rw [toNat_mask, Nat.shiftLeft_eq, Nat.mul_le_mul_right_iff (Nat.two_pow_pos _), BitField.InRange]
  omega

theorem getLsbD_mask : f.mask.getLsbD i = decide (i ∈ f.bits) := by
  rw [BitField.mask, BitVec.getLsbD_ofNat, Nat.testBit_shiftLeft, Nat.testBit_two_pow_sub_one]
  by_cases hi : i ∈ f.bits
  · have hw : i < w := lt_of_mem_bits f hi
    have hsize : i - f.shift < f.size := Nat.sub_lt_left_of_lt_add hi.1 hi.2
    rw [decide_eq_true hi, decide_eq_true hw, decide_eq_true hsize, decide_eq_true hi.1]
    rfl
  · have hout : ¬(f.shift ≤ i ∧ i - f.shift < f.size) := fun hin => hi ⟨hin.1, by omega⟩
    have hbit : (decide (f.shift ≤ i) && decide (i - f.shift < f.size)) = false := by
      rw [← Bool.decide_and, decide_eq_false hout]
    rw [hbit, decide_eq_false hi, Bool.and_false]

theorem getLsbD_read : (f.read x).getLsbD i = (decide (i < f.size) && x.getLsbD (f.shift + i)) := by
  have hmem : f.shift + i ∈ f.bits ↔ i < f.size := by simp [BitField.bits]
  rw [BitField.read, BitVec.getLsbD_ushiftRight, BitVec.getLsbD_and, getLsbD_mask, decide_eq_decide.mpr hmem,
    Bool.and_comm]

theorem getLsbD_of_inRange {f : BitField w} (hv : f.InRange v) {i : Nat} (hi : f.size ≤ i) : v.getLsbD i = false :=
  Nat.testBit_lt_two_pow (hv.trans_le (Nat.pow_le_pow_right (by decide) hi))

theorem getLsbD_shifted_of_notMem (hv : f.InRange v) {i : Nat} (hi : i ∉ f.bits) :
    (v <<< f.shift).getLsbD i = false := by
  rw [BitVec.getLsbD_shiftLeft]
  by_cases hlow : i < f.shift
  · rw [decide_eq_true hlow, Bool.not_true, Bool.and_false, Bool.false_and]
  · have hhigh : f.size ≤ i - f.shift := by
      by_contra hsize
      exact hi ⟨not_lt.mp hlow, by omega⟩
    rw [getLsbD_of_inRange hv hhigh, Bool.and_false]

theorem getLsbD_write (hv : f.InRange v) :
    (f.write x v).getLsbD i = if i ∈ f.bits then v.getLsbD (i - f.shift) else x.getLsbD i := by
  rw [BitField.write, BitVec.getLsbD_or, BitVec.getLsbD_and, BitVec.getLsbD_not, getLsbD_mask]
  by_cases hi : i ∈ f.bits
  · have hw : i < w := lt_of_mem_bits f hi
    have hlow : ¬i < f.shift := not_lt.mpr hi.1
    rw [BitVec.getLsbD_shiftLeft, if_pos hi, decide_eq_true hi, decide_eq_true hw, decide_eq_false hlow]
    simp only [Bool.not_true, Bool.not_false, Bool.and_false, Bool.true_and, Bool.false_or]
  · have hkept : (x.getLsbD i && decide (i < w)) = x.getLsbD i := by
      by_cases hw : i < w
      · rw [decide_eq_true hw, Bool.and_true]
      · rw [BitVec.getLsbD_of_ge x i (not_lt.mp hw), Bool.false_and]
    rw [getLsbD_shifted_of_notMem f hv hi, if_neg hi, decide_eq_false hi, Bool.not_false, Bool.and_true, hkept,
      Bool.or_false]

theorem getLsbD_write_of_notMem (hv : f.InRange v) {i : Nat} (hi : i ∉ f.bits) :
    (f.write x v).getLsbD i = x.getLsbD i := by
  rw [getLsbD_write f x i hv, if_neg hi]

theorem read_write_self (hv : f.InRange v) : f.read (f.write x v) = v := by
  apply BitVec.eq_of_getLsbD_eq
  intro i _
  rw [getLsbD_read]
  by_cases hi : i < f.size
  · have hmem : f.shift + i ∈ f.bits := ⟨Nat.le_add_right _ _, Nat.add_lt_add_left hi _⟩
    rw [getLsbD_write f x _ hv, if_pos hmem, Nat.add_sub_cancel_left, decide_eq_true hi, Bool.true_and]
  · rw [getLsbD_of_inRange hv (not_lt.mp hi), decide_eq_false hi, Bool.false_and]

theorem read_write_of_disjoint (hv : f.InRange v) (h : Disjoint f.bits g.bits) : g.read (f.write x v) = g.read x := by
  apply BitVec.eq_of_getLsbD_eq
  intro i _
  rw [getLsbD_read, getLsbD_read]
  by_cases hi : i < g.size
  · have hmem : g.shift + i ∈ g.bits := ⟨Nat.le_add_right _ _, Nat.add_lt_add_left hi _⟩
    rw [getLsbD_write_of_notMem f x hv (Set.disjoint_right.mp h hmem)]
  · rw [decide_eq_false hi, Bool.false_and, Bool.false_and]

theorem eq_of_reads {S : Set (BitField w)} (hcover : ∀ i < w, ∃ f ∈ S, i ∈ f.bits) {x y : BitVec w}
    (h : ∀ f ∈ S, f.read x = f.read y) : x = y := by
  apply BitVec.eq_of_getLsbD_eq
  intro i hi
  obtain ⟨f, hf, hlow, hhigh⟩ := hcover i hi
  have hsize : i - f.shift < f.size := Nat.sub_lt_left_of_lt_add hlow hhigh
  have hbit := congrArg (BitVec.getLsbD · (i - f.shift)) (h f hf)
  simp only [getLsbD_read, decide_eq_true hsize, Bool.true_and, Nat.add_sub_cancel' hlow] at hbit
  exact hbit

end Bits

section Writes

variable {S : Set (BitField w)} {ws : List (BitField w × BitVec w)}

def writeAll (ws : List (BitField w × BitVec w)) (x : BitVec w) : BitVec w := ws.foldl (fun x p => p.1.write x p.2) x

/-- Fields that have no bit in common are variables of their own. -/
theorem read_writeAll (hS : S.PairwiseDisjoint BitField.bits) (hws : ∀ p ∈ ws, p.1 ∈ S ∧ p.1.InRange p.2)
    {f : BitField w} (hf : f ∈ S) {vals : BitField w → BitVec w} {x : BitVec w} (hx : f.read x = vals f) :
    f.read (writeAll ws x) = ws.foldl (fun vals p => Function.update vals p.1 p.2) vals f := by
  induction ws generalizing x vals with
  | nil => exact hx
  | cons p ws ih =>
      obtain ⟨⟨hp, hv⟩, hrest⟩ := List.forall_mem_cons.mp hws
      have hstep : f.read (p.1.write x p.2) = Function.update vals p.1 p.2 f := by
        by_cases hfp : f = p.1
        · rw [hfp, read_write_self p.1 x hv, Function.update_self]
        · rw [read_write_of_disjoint p.1 x hv (hS hp hf (Ne.symm hfp)), Function.update_of_ne hfp, hx]
      exact ih hrest hstep

theorem getLsbD_writeAll_of_notMem (hws : ∀ p ∈ ws, p.1.InRange p.2) {i : Nat} (hi : ∀ p ∈ ws, i ∉ p.1.bits)
    (x : BitVec w) : (writeAll ws x).getLsbD i = x.getLsbD i := by
  induction ws generalizing x with
  | nil => rfl
  | cons p ws ih =>
      obtain ⟨hv, hrest⟩ := List.forall_mem_cons.mp hws
      obtain ⟨hp, hi'⟩ := List.forall_mem_cons.mp hi
      exact (ih hrest hi' _).trans (getLsbD_write_of_notMem p.1 x hv hp)

end Writes

end Bugnes.BitFields
