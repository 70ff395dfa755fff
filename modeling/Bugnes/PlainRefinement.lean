import Bugnes.PlainRuns

namespace Bugnes.PlainRefinement

open Words Memhooks CpuCore Addr OpcodeTable Opcodes Registers Plain PlainRuns

variable {F σ : Type} (hf : HookFuns F σ) {m : Machine F σ}

theorem add_minus_one (v : Byte) : v + 255#8 = v - 1#8 := by
  rw [BitVec.sub_eq_add_neg]
  rfl

/-- On a machine whose touched addresses carry no hook an instruction has the
effect the plain semantics gives it, and never fails. -/
theorem asm_run {f : AsmFun} {mode : AddrMode} (h : ∀ a ∈ touched f mode m, HookFreeAt m.allMh a)
    (hbrk : f = .brk → m.ehFunV .brk = none) :
    (asm hf f mode).run m = .ok ((), (effect f mode m).apply m) := by
  cases f with
  | lda | ldx | ldy =>
      have ha : (addr hf mode).run m = .ok (addrOf mode m, m) := addr_run hf fun a hm => h a (by simp [touched, hm])
      have hr := memRead_run hf (h (addrOf mode m) (by simp [touched]))
      simp [asm, asmLDA, asmLDX, asmLDY, asmMem2reg, effect, onRegs, Effect.apply, load, ha, hr,
        ShortRegs.get, ShortRegs.set]
  | sta | stx | sty =>
      have ha : (addr hf mode).run m = .ok (addrOf mode m, m) := addr_run hf fun a hm => h a (by simp [touched, hm])
      have hw := memWrite_run hf (h (addrOf mode m) (by simp [touched]))
      simp [asm, asmSTA, asmSTX, asmSTY, asmReg2mem, effect, Effect.apply, ha, hw, ShortRegs.get]
  | inc | dec =>
      have ha : (addr hf mode).run m = .ok (addrOf mode m, m) := addr_run hf fun a hm => h a (by simp [touched, hm])
      have hi := @asmIncMem_run _ _ hf m _ (h (addrOf mode m) (by simp [touched]))
      simp [asm, asmINC, asmDEC, effect, Effect.apply, ha, hi, add_minus_one]
  | and | eor | ora | bit | adc | sbc | cmp | cpx | cpy =>
      have hv : (addrModeGetValue hf mode).run m = .ok (operandOf mode m, m) :=
        operand_run hf (fun a hm => h a (by simp [touched, hm])) fun hne => h _ (by simp [touched, hne])
      simp [asm, asmAND, asmEOR, asmORA, asmBIT, asmADC, asmSBC, asmCMP, asmCPX, asmCPY, hv, effect, onRegs, Effect.apply,
        asmLogicAnd_run, asmLogicEor_run, asmLogicOra_run, asmLogicAnd_invalid_run, asmArithAdd_run,
        asmArithSub_run, asmArithSub_invalid_run, ShortRegs.get]
  | asl | lsr | rol | ror =>
      have ha : (addr hf mode).run m = .ok (addrOf mode m, m) := addr_run hf fun a hm => h a (by simp [touched, hm])
      have hea : addrOf mode m ≠ invalidAddress → HookFreeAt m.allMh (addrOf mode m) :=
        fun hne => h _ (by simp [touched, hne])
      have hl := asmShrot_left_run hf false hea
      have hr := asmShrot_right_run hf false hea
      rw [Bool.toInt_false] at hl hr
      simp [asm, asmASL, asmLSR, asmROL, asmROR, ha, effect, hl, hr,
        asmShrot_left_run hf _ hea, asmShrot_right_run hf _ hea]
  | jmp =>
      simp [asm, asmJMP, asmMem2pc_run, effect, jump, Effect.apply, addr_run hf h]
  | bcc | bcs | beq | bmi | bne | bpl | bvc | bvs =>
      simp only [asm, asmBCC, asmBCS, asmBEQ, asmBMI, asmBNE, asmBPL, asmBVC, asmBVS, StateT.run_bind,
        addr_run hf h, getFlag_run, ok_bind, asmMem2pc_run, effect, jump, Effect.apply]
      split <;> simp_all
  | jsr =>
      have ha := addr_run hf h
      simp [asm, asmJSR, asmPc2stack, stackPush16_run, asmMem2pc_run, effect, ha]
      rfl
  | brk =>
      have hr := memRead16_run hf (h cpuAddrBreak (by simp [touched])) (h _ (by simp [touched]))
      simp [asm, asmBRK, asmBreak, excepthookCheck, hbrk rfl, hr, effect, jump, Effect.apply]
  | tax | tay | txa | tya | tsx =>
      simp [asm, asmTAX, asmTAY, asmTXA, asmTYA, asmTSX, asmReg2reg_run, effect, onRegs, Effect.apply, ShortRegs.get]
  | txs => simp [asm, asmTXS, asmReg2reg, effect, onRegs, Effect.apply, ShortRegs.get, ShortRegs.set]
  | pha | php =>
      simp [asm, asmPHA, asmPHP, asmReg2stack, stackPush_run, effect, ShortRegs.get]
  | pla | plp =>
      simp [asm, asmPLA, asmPLP, asmStack2reg, stackPop_run, effect, onRegs, Effect.apply, load,
        ShortRegs.get, ShortRegs.set]
  | inx | iny | dex | dey =>
      simp [asm, asmINX, asmINY, asmDEX, asmDEY, asmIncReg_run, effect, onRegs, Effect.apply,
        add_minus_one, ShortRegs.get]
  | rts => simp [asm, asmRTS, asmStack2pc, stackPop16_run, effect, Effect.apply]
  | clc | cld | cli | clv | sec | sed | sei =>
      simp [asm, asmCLC, asmCLD, asmCLI, asmCLV, asmSEC, asmSED, asmSEI, effect, onRegs, Effect.apply]
  | nop | rti => simp [asm, asmNOP, asmRTI, effect, onRegs, Effect.apply]

theorem opcodeExec_run (hpc : HookFreeAt m.allMh m.regPc)
    (h : ∀ a ∈ touched (currentOp m).exec (currentOp m).addrMode m, HookFreeAt m.allMh a)
    (hbrk : (currentOp m).exec = .brk → m.ehFunV .brk = none) :
    (opcodeExec hf).run m = .ok ((), exec m) := by
  have hasm := asm_run hf h hbrk
  simpa [opcodeExec, memRead_run hf hpc, currentOp, exec] using hasm

theorem opcodeExec_hookFree (h : HookFree m) : (opcodeExec hf).run m = .ok ((), exec m) :=
  opcodeExec_run hf (h.at _) (fun a _ => h.at a) fun _ => h.excepthooks _

theorem opcodeLen_of_read {m' : Machine F σ} {b : Byte} (h : (memRead hf m.regPc).run m = .ok (b, m')) :
    (opcodeLen hf).run m = .ok (lenOf (opcodeAt b).addrMode, m') := by
  have hmax := addrMode_ne_max b
  simp only [opcodeLen, StateT.run_bind, getPc_run, ok_bind, h]
  cases hmode : (opcodeAt b).addrMode <;> simp_all [lenOf]

theorem opcodeFetch_of_read {b : Byte} (h : m.regPcBranched = invalidAddress →
      (memRead hf m.regPc).run { m with regPcBranched := invalidAddress } =
        .ok (b, { m with regPcBranched := invalidAddress })) {next : Word}
    (hnext : next = if m.regPcBranched ≠ invalidAddress then m.regPcBranched
      else m.regPc + lenOf (opcodeAt b).addrMode) :
    (opcodeFetch hf).run m =
      if next < cpuAddrReservedStart then .ok ((), { m with regPc := next, regPcBranched := invalidAddress })
      else .error .assertion := by
  by_cases hb : m.regPcBranched = invalidAddress
  · have hlen := opcodeLen_of_read hf (m := { m with regPcBranched := invalidAddress }) (h hb)
    simp [opcodeFetch, addrValid, hnext, hb, hlen, require_apply, setPc]
    split <;> rfl
  · simp [opcodeFetch, addrValid, hnext, hb, require_apply, setPc]
    split <;> rfl

/-- A fetch consumes the pending branch; without one it steps over the
instruction that is in memory now. The opcode is read only in that case. -/
theorem opcodeFetch_run (hpc : m.regPcBranched = invalidAddress → HookFreeAt m.allMh m.regPc) :
    (opcodeFetch hf).run m =
      if nextPc m < cpuAddrReservedStart then
        .ok ((), { m with regPc := nextPc m, regPcBranched := invalidAddress })
      else .error .assertion :=
  opcodeFetch_of_read hf (fun hb => memRead_run hf (hpc hb)) rfl

theorem exec_hookFree (h : HookFree m) : HookFree (exec m) := ⟨h.memhooks, h.excepthooks⟩

theorem exec_at_hookFree (h : HookFree m) (q : Word) : HookFree { exec m with regPc := q } :=
  ⟨h.memhooks, h.excepthooks⟩

def Fetched (m : Machine F σ) : Prop := ∃ m₀, HookFree m₀ ∧ (opcodeFetch hf).run m₀ = .ok ((), m)

theorem Fetched.inv (h : Fetched hf m) :
    HookFree m ∧ m.regPcBranched = invalidAddress ∧ m.regPc < cpuAddrReservedStart := by
  obtain ⟨m₀, h₀, hrun⟩ := h
  rw [opcodeFetch_run hf fun _ => h₀.at _] at hrun
  split at hrun
  · next hlt =>
      cases hrun
      exact ⟨⟨h₀.memhooks, h₀.excepthooks⟩, rfl, hlt⟩
  · cases hrun

theorem ne_invalid_of_lt {a : Word} (h : a < cpuAddrReservedStart) : a ≠ invalidAddress := by
  rintro rfl
  exact absurd h (by decide)

theorem bare_fetched {pc : Word} (hpc : pc < cpuAddrReservedStart) (r : ShortRegs) (mem : Word → Byte) :
    Fetched noHooks (bare pc r mem) := by
  have hmark := ne_invalid_of_lt hpc
  refine ⟨{ bare 0 r mem with regPcBranched := pc }, ⟨fun _ => rfl, fun _ => rfl⟩, ?_⟩
  rw [opcodeFetch_run noHooks fun h => absurd h hmark]
  simp [nextPc, hmark, hpc, bare]

end Bugnes.PlainRefinement
