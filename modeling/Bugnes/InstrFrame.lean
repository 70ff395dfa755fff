import Bugnes.PlainRefinement

namespace Bugnes.InstrFrame

open Words Memhooks CpuCore Addr OpcodeTable Opcodes Registers Plain PlainRuns PlainRefinement

variable {F σ : Type}

/-- The cells an instruction may write: at most the addressed one, or the ones
it pushes. -/
def writeCells (f : AsmFun) (mode : AddrMode) (m : Machine F σ) : List Word :=
  match f with
  | .sta | .stx | .sty | .inc | .dec => [addrOf mode m]
  | .asl | .lsr | .rol | .ror => if mode = .acc then [] else [addrOf mode m]
  | .pha | .php => [stackAddr m.shortRegs.sp]
  | .jsr => [stackAddr m.shortRegs.sp, stackAddr (m.shortRegs.sp - 1#8)]
  | .lda | .ldx | .ldy | .tax | .tay | .txa | .tya | .tsx | .txs | .pla | .plp | .and | .eor | .ora | .bit
  | .adc | .sbc | .cmp | .cpx | .cpy | .inx | .iny | .dex | .dey | .jmp | .rts
  | .bcc | .bcs | .beq | .bmi | .bne | .bpl | .bvc | .bvs
  | .clc | .cld | .cli | .clv | .sec | .sed | .sei | .brk | .nop | .rti => []

def flagMask : AsmFun → Byte
  | .adc | .sbc => flagN ||| flagZ ||| flagC ||| flagV
  | .cmp | .cpx | .cpy | .asl | .lsr | .rol | .ror => flagN ||| flagZ ||| flagC
  | .clc | .sec => flagC
  | .cld | .sed => flagD
  | .cli | .sei => flagI
  | .clv => flagV
  | .plp => 0xFF#8
  | .lda | .ldx | .ldy | .tax | .tay | .txa | .tya | .tsx | .pla | .and | .eor | .ora | .bit
  | .inc | .dec | .inx | .iny | .dex | .dey => flagN ||| flagZ
  | .sta | .stx | .sty | .txs | .pha | .php | .jmp | .jsr | .rts
  | .bcc | .bcs | .beq | .bmi | .bne | .bpl | .bvc | .bvs | .brk | .nop | .rti => 0#8

theorem shifted_writes (mode : AddrMode) (m : Machine F σ) (out : Byte → Bool) (f : Byte → Byte) :
    ∀ w ∈ (shifted mode m out f).writes, mode ≠ .acc ∧ w.1 = addrOf mode m := by
  by_cases hv : addrOf mode m = invalidAddress
  · simp [shifted, onRegs, hv]
  · have hacc : mode ≠ .acc := by
      rintro rfl
      exact hv rfl
    simp [shifted, hv, hacc]

theorem effect_writes (f : AsmFun) (mode : AddrMode) (m : Machine F σ) :
    ∀ w ∈ (effect f mode m).writes, w.1 ∈ writeCells f mode m := by
  cases f with
  | asl | lsr | rol | ror =>
      intro w hw
      simp only [effect] at hw
      obtain ⟨hacc, ha⟩ := shifted_writes mode m _ _ w hw
      simp [writeCells, hacc, ha]
  | _ => simp [effect, writeCells, onRegs, pushed, pushedWord, jump]

theorem foldl_update_of_notMem {ws : List (Word × Byte)} {mem : Word → Byte} {a : Word}
    (h : ∀ w ∈ ws, w.1 ≠ a) : ws.foldl (fun mem w => Function.update mem w.1 w.2) mem a = mem a := by
  induction ws generalizing mem with
  | nil => rfl
  | cons w ws ih =>
      rw [List.foldl_cons, ih fun x hx => h x (by simp [hx])]
      exact Function.update_of_ne (h w (by simp)).symm _ _

theorem apply_mem_of_notMem {e : Effect} {m : Machine F σ} {a : Word} (h : ∀ w ∈ e.writes, w.1 ≠ a) :
    (e.apply m).mem a = m.mem a := foldl_update_of_notMem h

theorem exec_mem {m : Machine F σ} {a : Word}
    (h : a ∉ writeCells (currentOp m).exec (currentOp m).addrMode m) : (exec m).mem a = m.mem a := by
  apply apply_mem_of_notMem
  intro w hw he
  exact h (he ▸ effect_writes _ _ _ w hw)

@[simp] theorem load_sp {dest : ShortReg} (h : dest ≠ .sp) (v : Byte) (r : ShortRegs) :
    (load dest v r).sp = r.sp := by
  cases dest <;> first | rfl | exact absurd rfl h

@[simp] theorem load_x {dest : ShortReg} (h : dest ≠ .x) (v : Byte) (r : ShortRegs) :
    (load dest v r).x = r.x := by
  cases dest <;> first | rfl | exact absurd rfl h

@[simp] theorem load_y {dest : ShortReg} (h : dest ≠ .y) (v : Byte) (r : ShortRegs) :
    (load dest v r).y = r.y := by
  cases dest <;> first | rfl | exact absurd rfl h

theorem shifted_regs (mode : AddrMode) (m : Machine F σ) (out : Byte → Bool) (f : Byte → Byte) :
    (shifted mode m out f).regs.sp = m.shortRegs.sp ∧ (shifted mode m out f).regs.x = m.shortRegs.x ∧
      (shifted mode m out f).regs.y = m.shortRegs.y := by
  by_cases hv : addrOf mode m = invalidAddress <;> simp [shifted, onRegs, hv]

theorem effect_sp (f : AsmFun) (mode : AddrMode) (m : Machine F σ)
    (h : f ∉ [.pha, .php, .pla, .plp, .jsr, .rts, .txs]) : (effect f mode m).regs.sp = m.shortRegs.sp := by
  cases f with
  | asl | lsr | rol | ror => simp only [effect, shifted_regs]
  | pha | php | pla | plp | jsr | rts | txs => simp at h
  | _ => simp [effect, onRegs, jump, adc, sbc, cmpFlags]

theorem effect_x (f : AsmFun) (mode : AddrMode) (m : Machine F σ)
    (h : f ∉ [.ldx, .tax, .tsx, .inx, .dex]) : (effect f mode m).regs.x = m.shortRegs.x := by
  cases f with
  | asl | lsr | rol | ror => simp only [effect, shifted_regs]
  | ldx | tax | tsx | inx | dex => simp at h
  | _ => simp [effect, onRegs, pushed, pushedWord, jump, adc, sbc, cmpFlags]

theorem effect_y (f : AsmFun) (mode : AddrMode) (m : Machine F σ)
    (h : f ∉ [.ldy, .tay, .iny, .dey]) : (effect f mode m).regs.y = m.shortRegs.y := by
  cases f with
  | asl | lsr | rol | ror => simp only [effect, shifted_regs]
  | ldy | tay | iny | dey => simp at h
  | _ => simp [effect, onRegs, pushed, pushedWord, jump, adc, sbc, cmpFlags]

theorem disjoint_or {g a b : Byte} : g &&& (a ||| b) = 0#8 ↔ g &&& a = 0#8 ∧ g &&& b = 0#8 := by
  rw [BitVec.and_or_distrib_left, BitVec.or_eq_zero_iff]

theorem flag_load {g : Byte} (h : g &&& (flagN ||| flagZ) = 0#8) {dest : ShortReg} (hdest : dest ≠ .cpu)
    (v : Byte) (r : ShortRegs) : flag g (load dest v r) = flag g r := by
  obtain ⟨hn, hz⟩ := disjoint_or.mp h
  rw [load, flag_nz_of_disjoint hn hz]
  apply flag_of_cpu_eq
  cases dest <;> first | rfl | exact absurd rfl hdest

theorem flag_shifted {g : Byte} (h : g &&& (flagN ||| flagZ ||| flagC) = 0#8) (mode : AddrMode) (m : Machine F σ)
    (out : Byte → Bool) (f : Byte → Byte) : flag g (shifted mode m out f).regs = flag g m.shortRegs := by
  obtain ⟨hnz, hc⟩ := disjoint_or.mp h
  obtain ⟨hn, hz⟩ := disjoint_or.mp hnz
  by_cases hv : addrOf mode m = invalidAddress
  · simp [shifted, onRegs, hv, flag_load hnz, flag_putFlag_of_disjoint hc]
  · simp [shifted, hv, flag_nz_of_disjoint hn hz, flag_putFlag_of_disjoint hc]

theorem effect_flag {g : Byte} (f : AsmFun) (mode : AddrMode) (m : Machine F σ)
    (h : g &&& flagMask f = 0#8) : flag g (effect f mode m).regs = flag g m.shortRegs := by
  cases f with
  | asl | lsr | rol | ror => simp only [effect, flag_shifted h]
  | lda | ldx | ldy | tax | tay | txa | tya | tsx | and | inx | iny | dex | dey =>
      simp only [effect, onRegs]
      exact flag_load h (by decide) _ _
  | pla =>
      simp only [effect, onRegs]
      rw [flag_load h (by decide)]
      rfl
  | eor | ora | bit | inc | dec =>
      obtain ⟨hn, hz⟩ := disjoint_or.mp h
      exact flag_nz_of_disjoint hn hz _ _
  | cmp | cpx | cpy =>
      obtain ⟨hnz, hc⟩ := disjoint_or.mp h
      obtain ⟨hn, hz⟩ := disjoint_or.mp hnz
      simp only [effect, onRegs, cmpFlags]
      rw [flag_putFlag_of_disjoint hc, flag_nz_of_disjoint hn hz]
  | adc | sbc =>
      obtain ⟨hnzc, hv⟩ := disjoint_or.mp h
      obtain ⟨hnz, hc⟩ := disjoint_or.mp hnzc
      obtain ⟨hn, hz⟩ := disjoint_or.mp hnz
      simp only [effect, onRegs, adc, sbc]
      refine (flag_putFlag_of_disjoint hv _ _).trans ?_
      rw [flag_putFlag_of_disjoint hc, flag_nz_of_disjoint hn hz]
  | clc | sec | cld | sed | cli | sei | clv =>
      simp only [effect, onRegs]
      exact flag_putFlag_of_disjoint h _ _
  | plp =>
      have hall : g &&& 0xFF#8 = g := BitVec.and_allOnes
      have hg : g = 0#8 := hall.symm.trans h
      simp [flag, hg]
  | sta | stx | sty | txs | pha | php | jmp | jsr | rts | bcc | bcs | beq | bmi | bne | bpl | bvc | bvs
  | brk | nop | rti => rfl

theorem exec_flag {g : Byte} {m : Machine F σ} (h : g &&& flagMask (currentOp m).exec = 0#8) :
    flag g (exec m).shortRegs = flag g m.shortRegs := effect_flag _ _ m h

theorem mem_of_flag_ne {g : Byte} {fs : List AsmFun} (hfs : ∀ f, f ∉ fs → g &&& flagMask f = 0#8)
    {m : Machine F σ} (hne : flag g (exec m).shortRegs ≠ flag g m.shortRegs) : (currentOp m).exec ∈ fs := by
  by_contra hf
  exact hne (exec_flag (hfs _ hf))

theorem bit_mask {i : Nat} (hi : i ∈ [4, 5]) (f : AsmFun) (hf : f ∉ [AsmFun.plp]) :
    1#8 <<< i &&& flagMask f = 0#8 := by
  simp only [List.mem_cons, List.not_mem_nil, or_false] at hi
  rcases hi with rfl | rfl <;> cases f <;> first | decide | exact absurd (List.mem_singleton.mpr rfl) hf

theorem exec_unknown {m : Machine F σ} (h : (currentOp m).name = "XXX") : exec m = m := by
  have hnop : (currentOp m).exec = .nop := exec_of_unknown _ h
  rw [exec, hnop]
  rfl

/-- What one instruction may change, by the function its opcode is mapped to. -/
structure Framed (m m' : Machine F σ) : Prop where
  mem : ∀ a, m'.mem a ≠ m.mem a → a ∈ writeCells (currentOp m).exec (currentOp m).addrMode m
  sp : m'.shortRegs.sp ≠ m.shortRegs.sp →
    (currentOp m).exec ∈ [.pha, .php, .pla, .plp, .jsr, .rts, .txs]
  x : m'.shortRegs.x ≠ m.shortRegs.x → (currentOp m).exec ∈ [.ldx, .tax, .tsx, .inx, .dex]
  y : m'.shortRegs.y ≠ m.shortRegs.y → (currentOp m).exec ∈ [.ldy, .tay, .iny, .dey]
  carry : flag flagC m'.shortRegs ≠ flag flagC m.shortRegs →
    (currentOp m).exec ∈ [.adc, .sbc, .cmp, .cpx, .cpy, .asl, .lsr, .rol, .ror, .clc, .sec, .plp]
  overflow : flag flagV m'.shortRegs ≠ flag flagV m.shortRegs →
    (currentOp m).exec ∈ [.adc, .sbc, .bit, .clv, .plp]
  interrupt : flag flagI m'.shortRegs ≠ flag flagI m.shortRegs → (currentOp m).exec ∈ [.cli, .sei, .plp]
  decimal : flag flagD m'.shortRegs ≠ flag flagD m.shortRegs → (currentOp m).exec ∈ [.cld, .sed, .plp]
  bits : ∀ i ∈ [4, 5], m'.shortRegs.cpu.getLsbD i ≠ m.shortRegs.cpu.getLsbD i → (currentOp m).exec = .plp
  pc : m'.regPc = m.regPc
  unknown : (currentOp m).name = "XXX" → m' = m

theorem exec_framed (m : Machine F σ) : Framed m (exec m) where
  mem a hne := by_contra fun ha => hne (exec_mem ha)
  sp hne := by_contra fun hf => hne (effect_sp _ _ m hf)
  x hne := by_contra fun hf => hne (effect_x _ _ m hf)
  y hne := by_contra fun hf => hne (effect_y _ _ m hf)
  carry := mem_of_flag_ne (by intro f; cases f <;> decide)
  overflow := mem_of_flag_ne (by intro f; cases f <;> decide)
  interrupt := mem_of_flag_ne (by intro f; cases f <;> decide)
  decimal := mem_of_flag_ne (by intro f; cases f <;> decide)
  bits i hi hne := by
    have hi8 : i < 8 := by
      simp only [List.mem_cons, List.not_mem_nil, or_false] at hi
      omega
    rw [← flag_eq_getLsbD _ hi8, ← flag_eq_getLsbD _ hi8] at hne
    exact List.mem_singleton.mp (mem_of_flag_ne (bit_mask hi) hne)
  pc := rfl
  unknown := exec_unknown

/-- Whatever its opcode, an instruction changes no more than `Framed` lets it. -/
theorem opcodeExec_framed (hf : HookFuns F σ) {m : Machine F σ} (h : HookFree m) :
    ∃ m', (opcodeExec hf).run m = .ok ((), m') ∧ Framed m m' :=
  ⟨exec m, opcodeExec_hookFree hf h, exec_framed m⟩

theorem opcodeExec_framed_jsr :
    ∃ m', (opcodeExec noHooks).run (bare 0x200 ⟨0xFF, 1, 2, 3, 4⟩ (bytesAt 0x200 [0x20, 0x34, 0x12])) =
      .ok ((), m') ∧ Framed (bare 0x200 ⟨0xFF, 1, 2, 3, 4⟩ (bytesAt 0x200 [0x20, 0x34, 0x12])) m' :=
  opcodeExec_framed noHooks (bare_hookFree _ _ _)

end Bugnes.InstrFrame
