import Bugnes.PlainRefinement

namespace Bugnes.Flags

open Words CpuCore Addr OpcodeTable Opcodes Registers Plain PlainRuns PlainRefinement

variable {F σ : Type}

def destOf (f : AsmFun) (mode : AddrMode) : Option ShortReg :=
  match f with
  | .lda | .txa | .tya | .pla | .and | .ora | .eor | .adc | .sbc => some .acc
  | .ldx | .tax | .tsx | .inx | .dex => some .x
  | .ldy | .tay | .iny | .dey => some .y
  | .asl | .lsr | .rol | .ror => if mode = .acc then some .acc else none
  | .sta | .stx | .sty | .txs | .pha | .php | .plp | .bit | .cmp | .cpx | .cpy | .inc | .dec | .jmp | .jsr | .rts
  | .bcc | .bcs | .beq | .bmi | .bne | .bpl | .bvc | .bvs
  | .clc | .cld | .cli | .clv | .sec | .sed | .sei | .brk | .nop | .rti => none

def Describes (reg : ShortReg) (r : ShortRegs) : Prop :=
  (flag flagZ r = true ↔ r.get reg = 0#8) ∧ flag flagN r = (r.get reg).getLsbD 7

/-- When the flags of the old accumulator are also those of the result. -/
def StaleAgrees (f : AsmFun) (a v : Byte) : Prop :=
  match f with
  | .ora => (a = 0#8 → v = 0#8) ∧ (v.msb = true → a.msb = true)
  | .eor => (a = 0#8 ↔ a = v) ∧ v.msb = false
  | _ => True

instance (f : AsmFun) (a v : Byte) : Decidable (StaleAgrees f a v) := by
  unfold StaleAgrees
  cases f <;> infer_instance

theorem getLsbD_seven (v : Byte) : v.getLsbD 7 = v.msb := (BitVec.msb_eq_getLsbD_last v).symm

theorem describes_load {dest : ShortReg} (h : dest = .acc ∨ dest = .x ∨ dest = .y) (v : Byte) (r : ShortRegs) :
    Describes dest (load dest v r) := by
  rw [Describes, getLsbD_seven, load, flagZ_nz, flagN_nz]
  rcases h with rfl | rfl | rfl <;> simp [nz, ShortRegs.get, ShortRegs.set]

theorem describes_arith (v : Byte) (b : Bool) (r : ShortRegs) :
    Describes .acc { putFlag flagV false (putFlag flagC b (nz v r)) with acc := v } := by
  have hz : flag flagZ { putFlag flagV false (putFlag flagC b (nz v r)) with acc := v } = decide (v = 0#8) := by
    rw [flag_clearV (by decide), flag_putFlag_of_disjoint (by decide), flagZ_nz]
  have hn : flag flagN { putFlag flagV false (putFlag flagC b (nz v r)) with acc := v } = v.msb := by
    rw [flag_clearV (by decide), flag_putFlag_of_disjoint (by decide), flagN_nz]
  rw [Describes, getLsbD_seven, hz, hn, decide_eq_true_iff]
  exact ⟨Iff.rfl, rfl⟩

theorem describes_stale {a res : Byte} (r : ShortRegs) :
    Describes .acc { nz a r with acc := res } ↔ (a = 0#8 ↔ res = 0#8) ∧ a.msb = res.msb := by
  have hz : flag flagZ { nz a r with acc := res } = decide (a = 0#8) := flagZ_nz a r
  have hn : flag flagN { nz a r with acc := res } = a.msb := flagN_nz a r
  rw [Describes, getLsbD_seven, hz, hn, decide_eq_true_iff]
  rfl

theorem describes_ora (a v : Byte) (r : ShortRegs) :
    Describes .acc { nz a r with acc := a ||| v } ↔ StaleAgrees .ora a v := by
  rw [describes_stale, BitVec.or_eq_zero_iff, BitVec.msb_or]
  constructor
  · rintro ⟨hz, hn⟩
    exact ⟨fun ha => (hz.mp ha).2, fun hv => by rw [hn, hv, Bool.or_true]⟩
  · rintro ⟨hz, hn⟩
    refine ⟨⟨fun ha => ⟨ha, hz ha⟩, And.left⟩, ?_⟩
    cases hv : v.msb with
    | false => rw [Bool.or_false]
    | true => rw [hn hv, Bool.or_true]

theorem describes_eor (a v : Byte) (r : ShortRegs) :
    Describes .acc { nz a r with acc := a ^^^ v } ↔ StaleAgrees .eor a v := by
  have hmsb : a.msb = (a ^^^ v).msb ↔ v.msb = false := by
    rw [BitVec.msb_xor]
    cases a.msb <;> cases v.msb <;> decide
  rw [describes_stale, BitVec.xor_eq_zero_iff, hmsb]
  rfl

theorem effect_describes_iff {f : AsmFun} {mode : AddrMode} {dest : ShortReg} (m : Machine F σ)
    (hd : destOf f mode = some dest) :
    Describes dest (effect f mode m).regs ↔ StaleAgrees f m.shortRegs.acc (operandOf mode m) := by
  cases f with
  | lda | txa | tya | pla | and | ldx | tax | tsx | inx | dex | ldy | tay | iny | dey =>
      cases hd
      exact iff_of_true (describes_load (by decide) _ _) trivial
  | adc => cases hd; exact iff_of_true (describes_arith _ _ _) trivial
  | sbc => cases hd; exact iff_of_true (describes_arith _ _ _) trivial
  | ora => cases hd; exact describes_ora _ _ _
  | eor => cases hd; exact describes_eor _ _ _
  | asl | lsr | rol | ror =>
      by_cases hacc : mode = .acc
      · simp only [destOf, if_pos hacc, Option.some.injEq] at hd
        subst hacc
        subst hd
        exact iff_of_true (describes_load (.inl rfl) _ _) trivial
      · simp [destOf, hacc] at hd
  | sta | stx | sty | txs | pha | php | plp | bit | cmp | cpx | cpy | inc | dec | jmp | jsr | rts
  | bcc | bcs | beq | bmi | bne | bpl | bvc | bvs | clc | cld | cli | clv | sec | sed | sei | brk | nop | rti =>
      cases hd

/-- After an instruction that computes A, X or Y the flags describe the new
value, except for ORA and EOR, which take them from the old accumulator: there
they do if and only if the old value would give the same flags. -/
theorem opcodeExec_describes_iff (hf : HookFuns F σ) {m : Machine F σ} (h : HookFree m) {dest : ShortReg}
    (hd : destOf (currentOp m).exec (currentOp m).addrMode = some dest) :
    ∃ m', (opcodeExec hf).run m = .ok ((), m') ∧
      (Describes dest m'.shortRegs ↔
        StaleAgrees (currentOp m).exec m.shortRegs.acc (operandOf (currentOp m).addrMode m)) :=
  ⟨exec m, opcodeExec_hookFree hf h, effect_describes_iff m hd⟩

theorem opcodeExec_describes_iff_ora :
    let m := bare 0x200 ⟨0xFF, 0x80, 2, 3, 4⟩ (bytesAt 0x200 [0x09, 0xF0])
    ∃ m', (opcodeExec noHooks).run m = .ok ((), m') ∧
      (Describes .acc m'.shortRegs ↔
        StaleAgrees (currentOp m).exec m.shortRegs.acc (operandOf (currentOp m).addrMode m)) :=
  opcodeExec_describes_iff noHooks (bare_hookFree _ _ _) rfl

theorem opcodeExec_stale :
    ¬∀ (hf : HookFuns Empty Unit) (m : Machine Empty Unit) (dest : ShortReg), HookFree m →
      destOf (currentOp m).exec (currentOp m).addrMode = some dest →
      ∃ m', (opcodeExec hf).run m = .ok ((), m') ∧ Describes dest m'.shortRegs := by
  intro hall
  obtain ⟨m', hrun, hdesc⟩ := hall noHooks (bare 0x200 ⟨0xFF, 0, 2, 3, 4⟩ (bytesAt 0x200 [0x09, 0x01])) .acc
    (bare_hookFree _ _ _) rfl
  rw [opcodeExec_hookFree noHooks (bare_hookFree _ _ _)] at hrun
  cases hrun
  exact absurd hdesc.1 (by decide)

end Bugnes.Flags
