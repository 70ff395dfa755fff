import Mathlib.Data.BitVec

namespace Bugnes.Words

abbrev Byte := BitVec 8

abbrev Word := BitVec 16

/-- How the C code can stop short: a failed `assert`, or an access outside
the bounds of an array. -/
inductive Fault
  | assertion
  | outOfBounds
  | exited
deriving DecidableEq, Repr

def assertThat (p : Prop) [Decidable p] : Except Fault Unit :=
  if p then .ok () else .error .assertion

def hiByte (v : Word) : Byte := ((v &&& 0xFF00#16) >>> 8).setWidth 8

def loByte (v : Word) : Byte := (v &&& 0xFF#16).setWidth 8

/-- `(msb << 8) + lsb`, the way every 16-bit value is put together. -/
def wordOf (lsb msb : Byte) : Word := (msb.setWidth 16 <<< 8) + lsb.setWidth 16

theorem hiByte_eq (v : Word) : hiByte v = (v >>> 8).setWidth 8 := by
  have hmask : ∀ i < 8, BitVec.getLsbD 0xFF00#16 (8 + i) = true := by decide
  ext i hi
  simp [hiByte, hmask i hi]

theorem loByte_eq (v : Word) : loByte v = v.setWidth 8 := by
  have hmask : ∀ i < 8, BitVec.getLsbD 0xFF#16 i = true := by decide
  ext i hi
  simp only [loByte, BitVec.getElem_setWidth, BitVec.getLsbD_and, hmask i hi, Bool.and_true]

theorem toNat_hiByte (v : Word) : (hiByte v).toNat = v.toNat / 256 := by
  have hv : v.toNat < 65536 := v.isLt
  rw [hiByte_eq, BitVec.toNat_setWidth, BitVec.toNat_ushiftRight, Nat.shiftRight_eq_div_pow]
  omega

theorem toNat_loByte (v : Word) : (loByte v).toNat = v.toNat % 256 := by
  rw [loByte_eq, BitVec.toNat_setWidth]

theorem toNat_wordOf (lsb msb : Byte) : (wordOf lsb msb).toNat = lsb.toNat + 256 * msb.toNat := by
  have hl : lsb.toNat < 256 := lsb.isLt
  have hm : msb.toNat < 256 := msb.isLt
  simp only [wordOf, BitVec.toNat_add, BitVec.toNat_shiftLeft, BitVec.toNat_setWidth, Nat.shiftLeft_eq]
  omega

@[simp] theorem wordOf_bytes (v : Word) : wordOf (loByte v) (hiByte v) = v := by
  apply BitVec.eq_of_toNat_eq
  rw [toNat_wordOf, toNat_loByte, toNat_hiByte]
  omega

@[simp] theorem loByte_wordOf (lsb msb : Byte) : loByte (wordOf lsb msb) = lsb := by
  apply BitVec.eq_of_toNat_eq
  rw [toNat_loByte, toNat_wordOf]
  omega

@[simp] theorem hiByte_wordOf (lsb msb : Byte) : hiByte (wordOf lsb msb) = msb := by
  apply BitVec.eq_of_toNat_eq
  rw [toNat_hiByte, toNat_wordOf]
  omega

theorem wordOf_inj {lsb msb lsb' msb' : Byte} : wordOf lsb msb = wordOf lsb' msb' ↔ lsb = lsb' ∧ msb = msb' := by
  constructor
  · intro h
    have hl := congrArg loByte h
    have hm := congrArg hiByte h
    rw [loByte_wordOf, loByte_wordOf] at hl
    rw [hiByte_wordOf, hiByte_wordOf] at hm
    exact ⟨hl, hm⟩
  · rintro ⟨rfl, rfl⟩
    rfl

theorem add_ofNat_inj {w i j : Nat} (hi : i < 2 ^ w) (hj : j < 2 ^ w) (a : BitVec w) :
    a + BitVec.ofNat w i = a + BitVec.ofNat w j ↔ i = j := by
  rw [BitVec.add_right_inj, BitVec.toNat_eq, BitVec.toNat_ofNat, BitVec.toNat_ofNat, Nat.mod_eq_of_lt hi,
    Nat.mod_eq_of_lt hj]

theorem add_one_one (a : Word) : a + 1#16 + 1#16 = a + 2#16 := BitVec.add_assoc a 1#16 1#16

theorem add_two_one (a : Word) : a + 2#16 + 1#16 = a + 3#16 := BitVec.add_assoc a 2#16 1#16

@[simp] theorem ok_bind {ε α β : Type} (a : α) (f : α → Except ε β) : (Except.ok a >>= f) = f a := rfl

@[simp] theorem error_bind {ε α β : Type} (e : ε) (f : α → Except ε β) :
    ((Except.error e : Except ε α) >>= f) = .error e := rfl

@[simp] theorem pure_eq_ok {ε α : Type} (a : α) : (pure a : Except ε α) = .ok a := rfl

theorem assertThat_of {p : Prop} [Decidable p] (h : p) : assertThat p = .ok () := if_pos h

theorem assertThat_of_not {p : Prop} [Decidable p] (h : ¬p) : assertThat p = .error .assertion := if_neg h

end Bugnes.Words
