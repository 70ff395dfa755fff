import Bugnes.CpuCore

namespace Bugnes.Registers

open Words CpuCore

def flag (f : Byte) (r : ShortRegs) : Bool := r.cpu &&& f != 0

def putFlag (f : Byte) (b : Bool) (r : ShortRegs) : ShortRegs :=
  { r with cpu := if b then r.cpu ||| f else r.cpu &&& ~~~f }

def nz (v : Byte) (r : ShortRegs) : ShortRegs := putFlag flagN v.msb (putFlag flagZ (decide (v = 0#8)) r)

def load (dest : ShortReg) (v : Byte) (r : ShortRegs) : ShortRegs := nz v (r.set v dest)

/-- The overflow flag is always cleared: see `flagsUpdateArithOverflow_run`. -/
def adc (v : Byte) (r : ShortRegs) : ShortRegs :=
  let s := r.acc.toNat + v.toNat + (flag flagC r).toNat
  { putFlag flagV false (putFlag flagC (decide (s > 255)) (nz (BitVec.ofNat 8 s) r)) with acc := BitVec.ofNat 8 s }

def sbc (v : Byte) (r : ShortRegs) : ShortRegs :=
  let result := r.acc - v - BitVec.ofNat 8 (!flag flagC r).toNat
  { putFlag flagV false (putFlag flagC (decide (v.toNat + (!flag flagC r).toNat ≤ r.acc.toNat)) (nz result r)) with
    acc := result }

def cmpFlags (a v : Byte) (r : ShortRegs) : ShortRegs := putFlag flagC (decide (v ≤ a)) (nz (a - v) r)

def lowBit (v : Byte) : Bool := v.getLsbD 0

def shiftLeft (v : Byte) (fill : Bool) : Byte := (v <<< 1) ||| BitVec.ofNat 8 fill.toNat

def shiftRight (v : Byte) (fill : Bool) : Byte := (v >>> 1) ||| (BitVec.ofNat 8 fill.toNat <<< 7)

section Projections

variable (f v : Byte) (b : Bool) (r : ShortRegs)

@[simp] theorem putFlag_sp : (putFlag f b r).sp = r.sp := rfl
@[simp] theorem putFlag_acc : (putFlag f b r).acc = r.acc := rfl
@[simp] theorem putFlag_x : (putFlag f b r).x = r.x := rfl
@[simp] theorem putFlag_y : (putFlag f b r).y = r.y := rfl
@[simp] theorem nz_sp : (nz v r).sp = r.sp := rfl
@[simp] theorem nz_acc : (nz v r).acc = r.acc := rfl
@[simp] theorem nz_x : (nz v r).x = r.x := rfl
@[simp] theorem nz_y : (nz v r).y = r.y := rfl

end Projections

theorem and_bit_eq_zero (v : Byte) {i : Nat} (hi : i < 8) : v &&& 1#8 <<< i = 0#8 ↔ v.getLsbD i = false := by
  have hne : ∀ i < 8, BitVec.twoPow 8 i ≠ 0#8 := by decide
  rw [← BitVec.twoPow_eq, BitVec.and_twoPow]
  cases v.getLsbD i <;> simp [hne i hi]

theorem flag_eq_getLsbD (r : ShortRegs) {i : Nat} (hi : i < 8) : flag (1#8 <<< i) r = r.cpu.getLsbD i := by
  have h := and_bit_eq_zero r.cpu hi
  cases hb : r.cpu.getLsbD i <;> simp_all [flag]

theorem flag_putFlag_self {f : Byte} (hf : f ≠ 0#8) (b : Bool) (r : ShortRegs) : flag f (putFlag f b r) = b := by
  cases b
  · have h : r.cpu &&& ~~~f &&& f = 0#8 := by rw [BitVec.and_assoc]; simp
    simp [flag, putFlag, h]
  · have h : (r.cpu ||| f) &&& f = f := by
      ext i
      simp +contextual
    simpa [flag, putFlag, h] using hf

theorem flag_putFlag_of_disjoint {f g : Byte} (h : f &&& g = 0#8) (b : Bool) (r : ShortRegs) :
    flag f (putFlag g b r) = flag f r := by
  have hbit : ∀ i (hi : i < 8), f[i] = true → g[i] = false := by
    intro i hi hf
    have := congrArg (fun x : Byte => x[i]) h
    simpa [hf] using this
  have hsame : (putFlag g b r).cpu &&& f = r.cpu &&& f := by
    ext i hi
    have hi' := hbit i hi
    cases b <;> cases hf : f[i] <;> simp_all [putFlag]
  rw [flag, flag, hsame]

@[simp] theorem putFlag_putFlag (f : Byte) (b b' : Bool) (r : ShortRegs) :
    putFlag f b (putFlag f b' r) = putFlag f b r := by
  have h : (putFlag f b (putFlag f b' r)).cpu = (putFlag f b r).cpu := by
    ext i hi
    cases b <;> cases b' <;> cases hf : f[i] <;> simp [putFlag, hf]
  exact congrArg (fun c => { r with cpu := c }) h

theorem flag_nz_of_disjoint {f : Byte} (hn : f &&& flagN = 0#8) (hz : f &&& flagZ = 0#8) (v : Byte) (r : ShortRegs) :
    flag f (nz v r) = flag f r := by
  rw [nz, flag_putFlag_of_disjoint hn, flag_putFlag_of_disjoint hz]

@[simp] theorem flagC_nz (v : Byte) (r : ShortRegs) : flag flagC (nz v r) = flag flagC r :=
  flag_nz_of_disjoint (by decide) (by decide) v r

@[simp] theorem flagZ_nz (v : Byte) (r : ShortRegs) : flag flagZ (nz v r) = decide (v = 0#8) := by
  rw [nz, flag_putFlag_of_disjoint (by decide), flag_putFlag_self (by decide)]

@[simp] theorem flagN_nz (v : Byte) (r : ShortRegs) : flag flagN (nz v r) = v.msb :=
  flag_putFlag_self (by decide) _ _

theorem flag_of_cpu_eq {f : Byte} {r r' : ShortRegs} (h : r.cpu = r'.cpu) : flag f r = flag f r' := by
  rw [flag, flag, h]

theorem flag_clearV {g : Byte} (h : g &&& flagV = 0#8) (a : Byte) (r : ShortRegs) :
    flag g { putFlag flagV false r with acc := a } = flag g r := by
  have hacc : flag g { putFlag flagV false r with acc := a } = flag g (putFlag flagV false r) := flag_of_cpu_eq rfl
  rw [hacc, flag_putFlag_of_disjoint h]

theorem flagC_adc (v : Byte) (r : ShortRegs) :
    flag flagC (adc v r) = decide (r.acc.toNat + v.toNat + (flag flagC r).toNat > 255) :=
  (flag_clearV (by decide) _ _).trans (flag_putFlag_self (by decide) _ _)

theorem flagC_sbc (v : Byte) (r : ShortRegs) :
    flag flagC (sbc v r) = decide (v.toNat + (!flag flagC r).toNat ≤ r.acc.toNat) :=
  (flag_clearV (by decide) _ _).trans (flag_putFlag_self (by decide) _ _)

theorem flagV_cleared (a : Byte) (r : ShortRegs) : flag flagV { putFlag flagV false r with acc := a } = false :=
  (flag_of_cpu_eq rfl).trans (flag_putFlag_self (by decide) _ r)

theorem flagV_adc (v : Byte) (r : ShortRegs) : flag flagV (adc v r) = false := flagV_cleared _ _

theorem flagV_sbc (v : Byte) (r : ShortRegs) : flag flagV (sbc v r) = false := flagV_cleared _ _

end Bugnes.Registers
