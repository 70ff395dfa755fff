import Bugnes.PlainRefinement

namespace Bugnes.OverflowFlag

open Words CpuCore Registers Addr OpcodeTable Opcodes Plain PlainRuns PlainRefinement

variable {F σ : Type}

def signedResult (f : AsmFun) (r : ShortRegs) (v : Byte) : Option Int :=
  match f with
  | .adc => some (r.acc.toInt + v.toInt + (flag flagC r).toInt)
  | .sbc => some (r.acc.toInt - v.toInt - (1 - (flag flagC r).toInt))
  | _ => none

def Overflows (i : Int) : Prop := i < -128 ∨ 127 < i

/-- V comes out cleared: the source adds in a type that holds every sum, then
looks for a difference to that sum. -/
theorem asm_clears_overflow {hf : HookFuns F σ} {f : AsmFun} {mode : AddrMode} {m m' : Machine F σ} {v : Byte}
    (hf' : f = .adc ∨ f = .sbc) (hv : (addrModeGetValue hf mode).run m = .ok (v, m')) :
    ∃ r, (asm hf f mode).run m = .ok ((), { m' with shortRegs := r }) ∧ flag flagV r = false := by
  rcases hf' with rfl | rfl
  · refine ⟨adc v m'.shortRegs, ?_, flagV_adc v _⟩
    rw [asm, asmADC, StateT.run_bind, hv, ok_bind, asmArithAdd_run]
  · refine ⟨sbc v m'.shortRegs, ?_, flagV_sbc v _⟩
    rw [asm, asmSBC, StateT.run_bind, hv, ok_bind, asmArithSub_run]

theorem arith_of_signedResult {f : AsmFun} {r : ShortRegs} {v : Byte} {i : Int} (h : signedResult f r v = some i) :
    f = .adc ∨ f = .sbc := by
  cases f with
  | adc => exact .inl rfl
  | sbc => exact .inr rfl
  | _ => cases h

/-- Whatever the hooks behind the opcode and the operand do, V tells of an
overflow if and only if there is none to tell of. -/
theorem overflow_told_iff {hf : HookFuns F σ} {m m₁ m₂ : Machine F σ} {b v : Byte} {i : Int}
    (hop : (memRead hf m.regPc).run m = .ok (b, m₁))
    (hv : (addrModeGetValue hf (opcodeAt b).addrMode).run m₁ = .ok (v, m₂))
    (hi : signedResult (opcodeAt b).exec m.shortRegs v = some i) :
    ∃ m', (opcodeExec hf).run m = .ok ((), m') ∧ ((flag flagV m'.shortRegs = true ↔ Overflows i) ↔ ¬Overflows i) := by
  obtain ⟨r, hasm, hflag⟩ := asm_clears_overflow (arith_of_signedResult hi) hv
  refine ⟨{ m₂ with shortRegs := r }, ?_, ?_⟩
  · rw [opcodeExec, StateT.run_bind, getPc_run, ok_bind, StateT.run_bind, hop, ok_bind, hasm]
  · simp [hflag]

def addingOne (a : Byte) : Machine Empty Unit := bare 0x200 ⟨0xFF, a, 0, 0, 0⟩ (bytesAt 0x200 [0x69, 0x01])

theorem addingOne_reads (a : Byte) :
    (memRead noHooks (addingOne a).regPc).run (addingOne a) = .ok (0x69, addingOne a) ∧
      (addrModeGetValue noHooks .imm).run (addingOne a) = .ok (0x01, addingOne a) := by
  have h : HookFree (addingOne a) := bare_hookFree _ _ _
  have hopcode : (addingOne a).mem (addingOne a).regPc = 0x69 := by simp [addingOne, bare, bytesAt]
  have hoperand : operandOf .imm (addingOne a) = 0x01 := by
    simp [operandOf, addrOf, addingOne, bare, bytesAt, invalidAddress]
  rw [memRead_run noHooks (h.at _), operand_run noHooks (fun a _ => h.at a) fun _ => h.at _, hopcode, hoperand]
  exact ⟨rfl, rfl⟩

theorem overflow_told_small :
    ∃ m', (opcodeExec noHooks).run (addingOne 5) = .ok ((), m') ∧
      ((flag flagV m'.shortRegs = true ↔ Overflows 6) ↔ ¬Overflows 6) :=
  overflow_told_iff (addingOne_reads 5).1 (addingOne_reads 5).2 rfl

theorem overflow_untold :
    ¬∀ (m m' : Machine Empty Unit) (v : Byte) (i : Int),
      (addrModeGetValue noHooks (currentOp m).addrMode).run m = .ok (v, m) →
      signedResult (currentOp m).exec m.shortRegs v = some i →
      (opcodeExec noHooks).run m = .ok ((), m') → (flag flagV m'.shortRegs = true ↔ Overflows i) := by
  intro hall
  have h := hall (addingOne 0x7F) _ 1 128 (addingOne_reads 0x7F).2 rfl (opcodeExec_hookFree noHooks (bare_hookFree _ _ _))
  exact absurd (h.mpr (.inr (by decide))) (by decide)

section Bit

/-- What a BIT with the operand `v` is to leave. -/
structure Tested (m m' : Machine F σ) (v : Byte) : Prop where
  zero : flag flagZ m'.shortRegs = true ↔ m.shortRegs.acc &&& v = 0#8
  negative : flag flagN m'.shortRegs = v.getLsbD 7
  overflow : flag flagV m'.shortRegs = v.getLsbD 6
  acc : m'.shortRegs.acc = m.shortRegs.acc
  x : m'.shortRegs.x = m.shortRegs.x
  y : m'.shortRegs.y = m.shortRegs.y
  sp : m'.shortRegs.sp = m.shortRegs.sp
  mem : m'.mem = m.mem
  others : ∀ i < 8, i ∉ [1, 6, 7] → m'.shortRegs.cpu.getLsbD i = m.shortRegs.cpu.getLsbD i

theorem cpu_nz_of_ne {i : Nat} (hi : i < 8) (hz : i ≠ 1) (hn : i ≠ 7) (v : Byte) (r : ShortRegs) :
    (nz v r).cpu.getLsbD i = r.cpu.getLsbD i := by
  have hdisjoint : ∀ i < 8, i ≠ 1 → i ≠ 7 → 1#8 <<< i &&& flagN = 0#8 ∧ 1#8 <<< i &&& flagZ = 0#8 := by decide
  obtain ⟨hN, hZ⟩ := hdisjoint i hi hz hn
  rw [← flag_eq_getLsbD _ hi, ← flag_eq_getLsbD _ hi, flag_nz_of_disjoint hN hZ]

/-- The mask is taken with the pseudo register, which reads as zero: Z is set
and N cleared for any operand, and V stays what it was. -/
theorem bit_tests_iff (hf : HookFuns F σ) {m : Machine F σ} (h : HookFree m)
    (hop : m.mem m.regPc = 0x24#8 ∨ m.mem m.regPc = 0x2C#8) :
    ∃ m', (opcodeExec hf).run m = .ok ((), m') ∧
      (Tested m m' (m.mem (addrOf (currentOp m).addrMode m)) ↔
        m.shortRegs.acc &&& m.mem (addrOf (currentOp m).addrMode m) = 0#8 ∧
        (m.mem (addrOf (currentOp m).addrMode m)).getLsbD 7 = false ∧
        flag flagV m.shortRegs = (m.mem (addrOf (currentOp m).addrMode m)).getLsbD 6) := by
  have hbit : (currentOp m).exec = .bit := by
    rcases hop with hop | hop <;> rw [currentOp, hop] <;> rfl
  have hexec : exec m = (onRegs (nz 0#8 m.shortRegs)).apply m := by rw [exec, hbit, effect]
  have hz : flag flagZ (exec m).shortRegs = true := hexec ▸ flagZ_nz 0#8 m.shortRegs
  have hn : flag flagN (exec m).shortRegs = false := hexec ▸ flagN_nz 0#8 m.shortRegs
  have hv : flag flagV (exec m).shortRegs = flag flagV m.shortRegs :=
    hexec ▸ flag_nz_of_disjoint (by decide) (by decide) 0#8 m.shortRegs
  refine ⟨exec m, opcodeExec_hookFree hf h, ?_⟩
  constructor
  · intro ht
    exact ⟨ht.zero.mp hz, ht.negative.symm.trans hn, hv.symm.trans ht.overflow⟩
  · rintro ⟨hzero, hnegative, hoverflow⟩
    refine {
      zero := iff_of_true hz hzero
      negative := hn.trans hnegative.symm
      overflow := hv.trans hoverflow
      acc := congrArg (·.shortRegs.acc) hexec
      x := congrArg (·.shortRegs.x) hexec
      y := congrArg (·.shortRegs.y) hexec
      sp := congrArg (·.shortRegs.sp) hexec
      mem := congrArg (·.mem) hexec
      others := fun i hi hno => ?_ }
    rw [hexec]
    exact cpu_nz_of_ne hi (fun h => hno (by simp [h])) (fun h => hno (by simp [h])) 0#8 m.shortRegs

def testing (a v : Byte) : Machine Empty Unit :=
  bare 0x200 ⟨0xFF, a, 0, 0, 0⟩ fun i => if i = 0x10 then v else bytesAt 0x200 [0x24, 0x10] i

theorem bit_tests_apart :
    ∃ m', (opcodeExec noHooks).run (testing 0x0F 0x30) = .ok ((), m') ∧
      (Tested (testing 0x0F 0x30) m' 0x30 ↔
        (0x0F : Byte) &&& 0x30 = 0#8 ∧ (0x30 : Byte).getLsbD 7 = false ∧
          flag flagV (testing 0x0F 0x30).shortRegs = (0x30 : Byte).getLsbD 6) :=
  bit_tests_iff noHooks (bare_hookFree _ _ _) (.inl rfl)

theorem bit_blind :
    ¬∀ m m' : Machine Empty Unit, HookFree m → m.mem m.regPc = 0x24#8 ∨ m.mem m.regPc = 0x2C#8 →
      addrOf (currentOp m).addrMode m ≠ invalidAddress → (opcodeExec noHooks).run m = .ok ((), m') →
      Tested m m' (m.mem (addrOf (currentOp m).addrMode m)) := by
  intro hall
  have h := hall (testing 1 1) _ (bare_hookFree _ _ _) (.inl rfl) (by decide)
    (opcodeExec_hookFree noHooks (bare_hookFree _ _ _))
  exact absurd (h.zero.mp (by decide)) (by decide)

end Bit

end Bugnes.OverflowFlag
