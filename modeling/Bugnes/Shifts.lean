import Bugnes.PlainRefinement

namespace Bugnes.Shifts

open Words CpuCore Registers Addr OpcodeTable Opcodes Plain PlainRuns PlainRefinement

variable {F σ : Type}

def leftOf : AsmFun → Option Bool
  | .asl | .rol => some true
  | .lsr | .ror => some false
  | _ => none

def fillOf (f : AsmFun) (r : ShortRegs) : Bool :=
  match f with
  | .rol | .ror => flag flagC r
  | _ => false

def bitOut (left : Bool) (v : Byte) : Bool := if left then v.msb else lowBit v

def shift (left fill : Bool) (v : Byte) : Byte := if left then shiftLeft v fill else shiftRight v fill

/-- What a shift of the byte at `e` is to leave. -/
structure ShiftsByte (m m' : Machine F σ) (e : Word) (left fill : Bool) : Prop where
  byte : m'.mem e = shift left fill (m.mem e)
  others : ∀ a, a ≠ e → m'.mem a = m.mem a
  acc : m'.shortRegs.acc = m.shortRegs.acc
  carry : flag flagC m'.shortRegs = bitOut left (m.mem e)
  zero : flag flagZ m'.shortRegs = true ↔ shift left fill (m.mem e) = 0#8
  negative : flag flagN m'.shortRegs = (shift left fill (m.mem e)).getLsbD 7

/-- The one byte that shifting leaves as it is. -/
def steady (fill : Bool) : Byte := if fill then 0xFF#8 else 0x00#8

theorem shift_eq_self (left fill : Bool) (v : Byte) : shift left fill v = v ↔ v = steady fill := by
  have hall : ∀ left fill, ∀ v : Byte, shift left fill v = v ↔ v = steady fill := by decide +kernel
  exact hall left fill v

theorem shift_of_direction (left fill : Bool) (v : Byte) :
    (if (if left then (1 : Int) else -1) > 0 then (v <<< 1) ||| BitVec.ofInt 8 fill.toInt
      else (v >>> 1) ||| BitVec.ofInt 8 (fill.toInt <<< (7 : Nat))) = shift left fill v := by
  have htop : BitVec.ofInt 8 ((1 : Int) <<< (7 : Nat)) = 128#8 := by decide
  cases left <;> cases fill <;> simp [shift, shiftLeft, shiftRight, htop]

theorem effect_shift {f : AsmFun} {left : Bool} (hf : leftOf f = some left) (mode : AddrMode) (m : Machine F σ) :
    effect f mode m = shifted mode m (bitOut left) (shift left (fillOf f m.shortRegs)) := by
  cases f with
  | asl | lsr | rol | ror =>
      cases hf
      rfl
  | _ => cases hf

theorem exec_shift {m : Machine F σ} {left : Bool} (hleft : leftOf (currentOp m).exec = some left) :
    exec m = (shifted (currentOp m).addrMode m (bitOut left)
      (shift left (fillOf (currentOp m).exec m.shortRegs))).apply m := by
  rw [exec, effect_shift hleft]

section Destination

variable {m : Machine F σ} {mode : AddrMode} {left fill : Bool}

theorem shifted_at (he : addrOf mode m ≠ invalidAddress) :
    ShiftsByte m ((shifted mode m (bitOut left) (shift left fill)).apply m) (addrOf mode m) left fill := by
  have hdest : (shifted mode m (bitOut left) (shift left fill)).apply m = { m with
      shortRegs := nz (shift left fill (m.mem (addrOf mode m)))
        (putFlag flagC (bitOut left (m.mem (addrOf mode m))) m.shortRegs)
      mem := Function.update m.mem (addrOf mode m) (shift left fill (m.mem (addrOf mode m))) } := by
    simp [shifted, he, Effect.apply]
  rw [hdest]
  refine ⟨Function.update_self _ _ _, fun a ha => Function.update_of_ne ha _ _, rfl, ?_, ?_, ?_⟩
  · exact (flagC_nz _ _).trans (flag_putFlag_self (by decide) _ _)
  · rw [flagZ_nz, decide_eq_true_iff]
  · rw [flagN_nz, BitVec.msb_eq_getLsbD_last]

theorem shifted_none (he : addrOf mode m = invalidAddress) :
    ShiftsByte m ((shifted mode m (bitOut left) (shift left fill)).apply m) (addrOf mode m) left fill ↔
      m.shortRegs.acc = steady fill ∧ m.mem invalidAddress = steady fill := by
  have hdest : (shifted mode m (bitOut left) (shift left fill)).apply m = { m with
      shortRegs := load .acc (shift left fill m.shortRegs.acc)
        (putFlag flagC (bitOut left m.shortRegs.acc) m.shortRegs) } := by
    simp [shifted, he, Effect.apply, onRegs]
  rw [hdest, he]
  constructor
  · intro h
    exact ⟨(shift_eq_self left fill _).mp h.acc, (shift_eq_self left fill _).mp h.byte.symm⟩
  · rintro ⟨hacc, hmem⟩
    have hsame : m.shortRegs.acc = m.mem invalidAddress := hacc.trans hmem.symm
    refine ⟨?_, fun _ _ => rfl, (shift_eq_self left fill _).mpr hacc, ?_, ?_, ?_⟩
    · exact ((shift_eq_self left fill _).mpr hmem).symm
    · rw [load, flagC_nz, ← hsame]
      exact flag_putFlag_self (by decide) _ _
    · rw [load, flagZ_nz, decide_eq_true_iff, hsame]
    · rw [load, flagN_nz, BitVec.msb_eq_getLsbD_last, hsame]

end Destination

/-- A shift in memory is one of its byte wherever the byte is, but for the last
address of memory: there it is only where both bytes are such that shifting
changes neither. -/
theorem shift_memory_iff (hf : HookFuns F σ) {m : Machine F σ} (h : HookFree m) {left : Bool}
    (hleft : leftOf (currentOp m).exec = some left) :
    ∃ m', (opcodeExec hf).run m = .ok ((), m') ∧
      (ShiftsByte m m' (addrOf (currentOp m).addrMode m) left (fillOf (currentOp m).exec m.shortRegs) ↔
        addrOf (currentOp m).addrMode m ≠ invalidAddress ∨
          (m.shortRegs.acc = steady (fillOf (currentOp m).exec m.shortRegs) ∧
            m.mem invalidAddress = steady (fillOf (currentOp m).exec m.shortRegs))) := by
  refine ⟨exec m, opcodeExec_hookFree hf h, ?_⟩
  rw [exec_shift hleft]
  by_cases he : addrOf (currentOp m).addrMode m = invalidAddress
  · rw [shifted_none he]
    simp [he]
  · exact iff_of_true (shifted_at he) (.inl he)

def shifting (acc v : Byte) : Machine Empty Unit :=
  bare 0x200 ⟨0xFF, acc, 0, 0, 0⟩ fun a => if a = 0xFFFF then v else bytesAt 0x200 [0x0E, 0xFF, 0xFF] a

theorem shift_memory_last :
    ∃ m', (opcodeExec noHooks).run (shifting 1 2) = .ok ((), m') ∧
      (ShiftsByte (shifting 1 2) m' (addrOf (currentOp (shifting 1 2)).addrMode (shifting 1 2)) true
          (fillOf (currentOp (shifting 1 2)).exec (shifting 1 2).shortRegs) ↔
        addrOf (currentOp (shifting 1 2)).addrMode (shifting 1 2) ≠ invalidAddress ∨
          ((shifting 1 2).shortRegs.acc = steady (fillOf (currentOp (shifting 1 2)).exec (shifting 1 2).shortRegs) ∧
            (shifting 1 2).mem invalidAddress =
              steady (fillOf (currentOp (shifting 1 2)).exec (shifting 1 2).shortRegs))) :=
  shift_memory_iff noHooks (bare_hookFree _ _ _) rfl

theorem shift_accumulator :
    ¬∀ (m m' : Machine Empty Unit) (left : Bool), HookFree m → leftOf (currentOp m).exec = some left →
      (currentOp m).addrMode ≠ .acc → (opcodeExec noHooks).run m = .ok ((), m') →
      ShiftsByte m m' (addrOf (currentOp m).addrMode m) left (fillOf (currentOp m).exec m.shortRegs) := by
  intro hall
  have h := hall (shifting 1 2) _ true (bare_hookFree _ _ _) rfl (by decide)
    (opcodeExec_hookFree noHooks (bare_hookFree _ _ _))
  exact absurd h.acc (by decide)

end Bugnes.Shifts
