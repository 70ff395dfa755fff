import Bugnes.Transfers

namespace Bugnes.Sequential

open Words CpuCore Addr OpcodeTable Opcodes Registers Plain PlainRuns PlainRefinement InstrFrame Transfers

variable {F σ : Type}

def storedByte (f : AsmFun) (mode : AddrMode) (m : Machine F σ) : Option Byte :=
  let v := m.mem (addrOf mode m)
  match f with
  | .sta | .pha => some m.shortRegs.acc
  | .stx => some m.shortRegs.x
  | .sty => some m.shortRegs.y
  | .php => some m.shortRegs.cpu
  | .inc => some (v + 1#8)
  | .dec => some (v - 1#8)
  | .asl => some (shiftLeft v false)
  | .lsr => some (shiftRight v false)
  | .rol => some (shiftLeft v (flag flagC m.shortRegs))
  | .ror => some (shiftRight v (flag flagC m.shortRegs))
  | _ => none

/-- An instruction that writes over its own opcode puts one of the same length there. -/
def LengthKept (m : Machine F σ) : Prop :=
  m.regPc ∈ writeCells (currentOp m).exec (currentOp m).addrMode m →
    ∀ v ∈ storedByte (currentOp m).exec (currentOp m).addrMode m,
      lenOf (opcodeAt v).addrMode = lenOf (currentOp m).addrMode

theorem effect_stored {f : AsmFun} {mode : AddrMode} {m : Machine F σ} {a : Word} (ht : targetOf f mode m = none)
    (ha : a ≠ invalidAddress) (hw : a ∈ writeCells f mode m) :
    ∃ v, storedByte f mode m = some v ∧ ((effect f mode m).apply m).mem a = v := by
  cases f with
  | sta | stx | sty | inc | dec | pha | php =>
      rw [List.mem_singleton.mp hw]
      exact ⟨_, rfl, Function.update_self _ _ _⟩
  | asl | lsr | rol | ror =>
      by_cases hacc : mode = .acc
      · simp [writeCells, hacc] at hw
      · simp only [writeCells, if_neg hacc, List.mem_singleton] at hw
        subst hw
        refine ⟨_, rfl, ?_⟩
        simp [effect, shifted, ha, Effect.apply]
  | jsr => cases ht
  | lda | ldx | ldy | tax | tay | txa | tya | tsx | txs | pla | plp | and | eor | ora | bit | adc | sbc | cmp | cpx | cpy
  | inx | iny | dex | dey | jmp | rts | bcc | bcs | beq | bmi | bne | bpl | bvc | bvs
  | clc | cld | cli | clv | sec | sed | sei | brk | nop | rti => exact absurd hw List.not_mem_nil

theorem nextPc_of_no_target {m : Machine F σ} (hb : m.regPcBranched = invalidAddress) (ht : target m = none) :
    nextPc (exec m) = m.regPc + lenOf (opcodeAt ((exec m).mem m.regPc)).addrMode := by
  have hjsr : (currentOp m).exec ≠ .jsr := by
    intro h
    rw [target, h] at ht
    cases ht
  have hslot : (exec m).regPcBranched = invalidAddress := by
    rw [exec_regPcBranched hb, if_neg hjsr, ht]
    rfl
  rw [nextPc, hslot, if_neg (not_not_intro rfl)]
  rfl

theorem lengthKept_iff {m : Machine F σ} (hpc : m.regPc < cpuAddrReservedStart) (ht : target m = none) :
    lenOf (opcodeAt ((exec m).mem m.regPc)).addrMode = lenOf (currentOp m).addrMode ↔ LengthKept m := by
  by_cases hw : m.regPc ∈ writeCells (currentOp m).exec (currentOp m).addrMode m
  · obtain ⟨v, hv, hmem⟩ := effect_stored ht (ne_invalid_of_lt hpc) hw
    rw [exec, hmem, LengthKept, hv]
    simp [hw]
  · rw [exec_mem hw]
    exact iff_of_true rfl fun h => absurd h hw

/-- Behind an instruction that does not transfer control the next fetch
advances by its length if and only if the instruction does not put an opcode
of another length over its own. -/
theorem opcodeFetch_sequential_iff (hf : HookFuns F σ) {m : Machine F σ} (h : Fetched hf m) (ht : target m = none)
    (hlt : m.regPc + lenOf (currentOp m).addrMode < cpuAddrReservedStart) :
    ∃ m₁, (opcodeExec hf).run m = .ok ((), m₁) ∧
      ((∃ m₂, (opcodeFetch hf).run m₁ = .ok ((), m₂) ∧ m₂.regPc = m.regPc + lenOf (currentOp m).addrMode) ↔
        LengthKept m) := by
  obtain ⟨hfree, hb, hpc⟩ := h.inv
  refine ⟨exec m, opcodeExec_hookFree hf hfree, ?_⟩
  rw [fetch_pc_iff hf (exec_hookFree hfree) hlt, nextPc_of_no_target hb ht, ← lengthKept_iff hpc ht]
  exact add_right_inj _

theorem opcodeFetch_sequential_iff_sta :
    let m := bare 0x200 ⟨0xFF, 0xEA, 2, 3, 4⟩ (bytesAt 0x200 [0x8D, 0x01, 0x02])
    ∃ m₁, (opcodeExec noHooks).run m = .ok ((), m₁) ∧
      ((∃ m₂, (opcodeFetch noHooks).run m₁ = .ok ((), m₂) ∧ m₂.regPc = m.regPc + lenOf (currentOp m).addrMode) ↔
        LengthKept m) :=
  opcodeFetch_sequential_iff noHooks (bare_fetched (by decide) _ _) rfl (by decide)

theorem opcodeFetch_overwritten :
    ¬∀ (hf : HookFuns Empty Unit) (m : Machine Empty Unit), Fetched hf m → target m = none →
      m.regPc + lenOf (currentOp m).addrMode < cpuAddrReservedStart →
      ∃ m₁, (opcodeExec hf).run m = .ok ((), m₁) ∧
        ∃ m₂, (opcodeFetch hf).run m₁ = .ok ((), m₂) ∧ m₂.regPc = m.regPc + lenOf (currentOp m).addrMode := by
  intro hall
  have hfetched : Fetched noHooks (bare 0x200 ⟨0xFF, 0xEA, 2, 3, 4⟩ (bytesAt 0x200 [0x8D, 0x00, 0x02])) :=
    bare_fetched (by decide) _ _
  obtain ⟨hfree, -, -⟩ := hfetched.inv
  obtain ⟨m₁, hrun, hnext⟩ := hall noHooks _ hfetched rfl (by decide)
  rw [opcodeExec_hookFree noHooks hfree] at hrun
  cases hrun
  rw [fetch_pc_iff noHooks (exec_hookFree hfree) (by decide)] at hnext
  exact absurd hnext (by decide)

end Bugnes.Sequential
