import Bugnes.AccessLog
import Bugnes.Locality
import Bugnes.Mos6502

namespace Bugnes.Reference

open Words Memhooks CpuCore Addr OpcodeTable Registers Plain PlainRuns PlainRefinement AccessLog Sfot Stepping Locality Mos6502

variable {F σ τ : Type} {m : Machine F σ}

def opOf : AsmFun → Op
  | .lda => .ld .a | .ldx => .ld .x | .ldy => .ld .y | .sta => .st .a | .stx => .st .x | .sty => .st .y
  | .tax => .transfer .a .x | .tay => .transfer .a .y | .txa => .transfer .x .a | .tya => .transfer .y .a
  | .tsx => .tsx | .txs => .txs | .pha => .pha | .php => .php | .pla => .pla | .plp => .plp
  | .and => .and | .eor => .eor | .ora => .ora | .bit => .bit
  | .adc => .adc | .sbc => .sbc | .cmp => .compare .a | .cpx => .compare .x | .cpy => .compare .y
  | .inc => .inc | .inx => .increment .x | .iny => .increment .y
  | .dec => .dec | .dex => .decrement .x | .dey => .decrement .y
  | .asl => .asl | .lsr => .lsr | .rol => .rol | .ror => .ror
  | .jmp => .jmp | .jsr => .jsr | .rts => .rts
  | .bcc => .branch .c false | .bcs => .branch .c true | .beq => .branch .z true | .bmi => .branch .n true
  | .bne => .branch .z false | .bpl => .branch .n false | .bvc => .branch .v false | .bvs => .branch .v true
  | .clc => .put .c false | .cld => .put .d false | .cli => .put .i false | .clv => .put .v false
  | .sec => .put .c true | .sed => .put .d true | .sei => .put .i true
  | .brk => .brk | .nop => .nop | .rti => .rti

def modeOf : AddrMode → Mode
  | .imp | .max => .implied
  | .acc => .accumulator
  | .imm => .immediate
  | .rel => .relative
  | .zpa => .zeroPage | .zpx => .zeroPageX | .zpy => .zeroPageY
  | .abs => .absolute | .abx => .absoluteX | .aby => .absoluteY
  | .ind => .indirect | .inx => .indexedIndirect | .iny => .indirectIndexed

/-- The table is the opcode map of the CPU, two stores of Y apart. -/
theorem decode_opcodeAt : ∀ b : Byte, b ≠ 0x8C#8 → b ≠ 0x94#8 →
    decode b = if (opcodeAt b).name = "XXX" then none
      else some (opOf (opcodeAt b).exec, modeOf (opcodeAt b).addrMode) := by
  decide +kernel

theorem decode_sty : decode 0x8C#8 = some (.st .y, .absolute) ∧ decode 0x94#8 = some (.st .y, .zeroPageX) := by
  decide

/-- The machine seen as the CPU, with the PC that comes next. -/
def viewAt (pc : Word) (m : Machine F σ) : Cpu :=
  ⟨m.shortRegs.acc, m.shortRegs.x, m.shortRegs.y, m.shortRegs.sp, .ofByte m.shortRegs.cpu, pc, m.mem⟩

def view (m : Machine F σ) : Cpu := viewAt m.regPc m

def bitOf : Flag → Byte
  | .n => flagN | .v => flagV | .d => flagD | .i => flagI | .z => flagZ | .c => flagC

theorem ofByte_set : ∀ (cpu : Byte) (b : Bool) (f : Flag),
    Flags.ofByte (if b then cpu ||| bitOf f else cpu &&& ~~~bitOf f) = (Flags.ofByte cpu).set b f := by
  intro cpu b f
  revert cpu b
  cases f <;> decide +kernel

theorem ofByte_putFlag (f : Flag) (b : Bool) (r : ShortRegs) :
    Flags.ofByte (putFlag (bitOf f) b r).cpu = (Flags.ofByte r.cpu).set b f := ofByte_set r.cpu b f

theorem ofByte_nz (v : Byte) (r : ShortRegs) : Flags.ofByte (nz v r).cpu = (Flags.ofByte r.cpu).describe v := by
  have hn := ofByte_putFlag .n v.msb (putFlag flagZ (decide (v = 0#8)) r)
  have hz := ofByte_putFlag .z (decide (v = 0#8)) r
  exact hn.trans (congrArg (Flags.set · v.msb .n) hz)

theorem get_ofByte (f : Flag) (r : ShortRegs) : (Flags.ofByte r.cpu).get f = flag (bitOf f) r := by
  cases f with
  | n => exact (flag_eq_getLsbD r (i := 7) (by decide)).symm
  | v => exact (flag_eq_getLsbD r (i := 6) (by decide)).symm
  | d => exact (flag_eq_getLsbD r (i := 3) (by decide)).symm
  | i => exact (flag_eq_getLsbD r (i := 2) (by decide)).symm
  | z => exact (flag_eq_getLsbD r (i := 1) (by decide)).symm
  | c => exact (flag_eq_getLsbD r (i := 0) (by decide)).symm

theorem word_eq (lo hi : Byte) : word lo hi = wordOf lo hi := by
  apply BitVec.eq_of_toNat_eq
  have hlo : lo.toNat < 256 := lo.isLt
  have hhi : hi.toNat < 256 := hi.isLt
  rw [toNat_wordOf, word, BitVec.toNat_ofNat, Nat.mod_eq_of_lt (by omega)]

theorem stackAt_eq (s : Byte) : stackAt s = stackAddr s := rfl

theorem zp_add {b x : Byte} (h : b.toNat + x.toNat < 256) : b.setWidth 16 + x.setWidth 16 = zp (b + x) := by
  apply BitVec.eq_of_toNat_eq
  simp only [zp, BitVec.toNat_add, BitVec.toNat_setWidth]
  omega

theorem zp_succ {b : Byte} (h : b.toNat < 255) : b.setWidth 16 + 1#16 = zp (b + 1#8) :=
  zp_add (x := 1#8) (Nat.succ_lt_succ h)

theorem operand_view (m : Machine F σ) : (view m).operand = wordAt m.mem (m.regPc + 1#16) := by
  rw [Cpu.operand, word_eq, wordAt, add_one_one]
  rfl

def Addressed (mode : AddrMode) : Prop := mode ≠ .imp ∧ mode ≠ .acc ∧ mode ≠ .max

/-- Indexing and pointers stay in page zero, where the CPU would wrap. -/
def InPageZero (mode : AddrMode) (m : Machine F σ) : Prop :=
  let b := (m.mem (m.regPc + 1#16)).toNat
  match mode with
  | .zpx => b + m.shortRegs.x.toNat < 256
  | .zpy => b + m.shortRegs.y.toNat < 256
  | .inx => b + m.shortRegs.x.toNat < 255
  | .iny => b < 255
  | _ => True

theorem address_view {mode : AddrMode} (hmode : Addressed mode) (h : InPageZero mode m) :
    (view m).address (modeOf mode) = addrOf mode m := by
  obtain ⟨himp, hacc, hmax⟩ := hmode
  cases mode with
  | imp => exact absurd rfl himp
  | acc => exact absurd rfl hacc
  | max => exact absurd rfl hmax
  | imm | zpa | rel => rfl
  | zpx | zpy => exact (zp_add h).symm
  | abs => exact operand_view m
  | abx | aby =>
      simp only [modeOf, Cpu.address, operand_view, addrOf]
      rfl
  | ind =>
      simp only [modeOf, Cpu.address, operand_view, addrOf, wordAt, word_eq]
      rfl
  | inx =>
      have hlow : (m.mem (m.regPc + 1#16)).toNat + m.shortRegs.x.toNat < 256 := Nat.lt_succ_of_lt h
      have hsum : (m.mem (m.regPc + 1#16) + m.shortRegs.x).toNat < 255 := by
        rw [BitVec.toNat_add, Nat.mod_eq_of_lt hlow]
        exact h
      have hpointer : (m.mem (m.regPc + 1#16)).setWidth 16 + m.shortRegs.x.setWidth 16 =
          (m.mem (m.regPc + 1#16) + m.shortRegs.x).setWidth 16 := zp_add hlow
      simp only [modeOf, Cpu.address, addrOf, wordAt, word_eq, hpointer, zp_succ hsum]
      rfl
  | iny =>
      have hlow : (m.mem (m.regPc + 1#16)).toNat < 255 := h
      simp only [modeOf, Cpu.address, addrOf, wordAt, word_eq, zp_succ hlow]
      rfl

def SameNz (v w : Byte) : Prop := v.msb = w.msb ∧ (v = 0#8 ↔ w = 0#8)

/-- The states in which an instruction does what it does on the CPU. -/
def Meets (f : AsmFun) (mode : AddrMode) (m : Machine F σ) : Prop :=
  let r := m.shortRegs
  let v := m.mem (addrOf mode m)
  match f with
  | .and | .cmp | .cpx | .cpy => addrOf mode m ≠ invalidAddress
  | .asl | .lsr | .rol | .ror => mode = .acc ∨ addrOf mode m ≠ invalidAddress
  | .eor => addrOf mode m ≠ invalidAddress ∧ SameNz r.acc (r.acc ^^^ v)
  | .ora => addrOf mode m ≠ invalidAddress ∧ SameNz r.acc (r.acc ||| v)
  | .bit => addrOf mode m ≠ invalidAddress ∧ r.acc &&& v = 0#8 ∧ v.msb = false ∧ v.getLsbD 6 = flag flagV r
  | .adc => addrOf mode m ≠ invalidAddress ∧ outOfByte (r.acc.toInt + v.toInt + (flag flagC r).toNat) = false
  | .sbc => addrOf mode m ≠ invalidAddress ∧ outOfByte (r.acc.toInt - v.toInt - (!flag flagC r).toNat) = false
  | .php => r.cpu &&& 0x30#8 = 0x30#8
  -- the address of the routine is read when the return address is on the stack
  | .jsr => ∀ a ∈ [m.regPc + 1#16, m.regPc + 2#16], a ≠ stackAddr r.sp ∧ a ≠ stackAddr (r.sp - 1#8)
  | .brk | .rti => False
  | _ => True

structure Suits (f : AsmFun) (mode : AddrMode) : Prop where
  max : mode ≠ .max
  addressed : familyOf f ≠ none → familyOf f ≠ some .shift → Addressed mode
  shift : familyOf f = some .shift → mode = .acc ∨ Addressed mode
  call : f = .jsr → mode = .abs

theorem describe_congr {v w : Byte} (h : SameNz v w) (p : Flags) : p.describe v = p.describe w := by
  rw [Flags.describe, Flags.describe, h.1, decide_eq_decide.mpr h.2]

def after (e : Effect) (mode : AddrMode) (m : Machine F σ) : Cpu :=
  viewAt (e.branch.getD (m.regPc + lenOf mode)) (e.apply m)

theorem length_modeOf (mode : AddrMode) (h : mode ≠ .max) : (modeOf mode).length = lenOf mode := by
  cases mode with
  | max => exact absurd rfl h
  | _ => rfl

theorem toByte_ofByte : ∀ cpu : Byte, cpu &&& 0x30#8 = 0x30#8 → (Flags.ofByte cpu).toByte = cpu := by decide +kernel

theorem toInt_not : ∀ v : Byte, (~~~v).toInt = -v.toInt - 1 := by decide +kernel

theorem carry_view (m : Machine F σ) : (view m).p.c = flag flagC m.shortRegs := get_ofByte .c m.shortRegs

theorem ofByte_sum (result : Byte) (carry : Bool) (r : ShortRegs) :
    Flags.ofByte (putFlag flagV false (putFlag flagC carry (nz result r))).cpu =
      { (Flags.ofByte r.cpu).describe result with c := carry, v := false } := by
  have hv : Flags.ofByte (putFlag flagV false (putFlag flagC carry (nz result r))).cpu = _ := ofByte_putFlag .v false _
  have hc : Flags.ofByte (putFlag flagC carry (nz result r)).cpu = _ := ofByte_putFlag .c carry _
  rw [hv, hc, ofByte_nz]
  rfl

theorem add_view {v : Byte} {pc : Word}
    (h : outOfByte (m.shortRegs.acc.toInt + v.toInt + (flag flagC m.shortRegs).toNat) = false) {r : ShortRegs}
    (hr : r = { putFlag flagV false (putFlag flagC (decide (256 ≤ m.shortRegs.acc.toNat + v.toNat +
      (flag flagC m.shortRegs).toNat)) (nz (m.shortRegs.acc + v + BitVec.ofNat 8 (flag flagC m.shortRegs).toNat)
        m.shortRegs)) with acc := m.shortRegs.acc + v + BitVec.ofNat 8 (flag flagC m.shortRegs).toNat }) :
    (viewAt pc m).add v = viewAt pc { m with shortRegs := r } := by
  have hflags := ofByte_sum (m.shortRegs.acc + v + BitVec.ofNat 8 (flag flagC m.shortRegs).toNat)
    (decide (256 ≤ m.shortRegs.acc.toNat + v.toNat + (flag flagC m.shortRegs).toNat)) m.shortRegs
  have hc : (viewAt pc m).p.c = flag flagC m.shortRegs := carry_view m
  subst hr
  simp only [Cpu.add, hc]
  simp only [viewAt, h, hflags]
  rfl

theorem shifting_view {op : Op} {mode : AddrMode} {out : Byte → Bool} {f : Byte → Byte}
    (hmode : mode = .acc ∨ Addressed mode) (hpage : InPageZero mode m)
    (hvalid : mode = .acc ∨ addrOf mode m ≠ invalidAddress) (hop : ∀ v, (view m).shift op v = (f v, out v)) :
    (viewAt (m.regPc + lenOf mode) m).shifting op (modeOf mode) ((view m).address (modeOf mode)) =
      after (shifted mode m out f) mode m := by
  have hop' : ∀ v, (viewAt (m.regPc + lenOf mode) m).shift op v = (f v, out v) := hop
  have hcarry : ∀ b, Flags.ofByte (putFlag flagC b m.shortRegs).cpu = (Flags.ofByte m.shortRegs.cpu).set b .c :=
    fun b => ofByte_putFlag .c b m.shortRegs
  by_cases hacc : mode = .acc
  · subst hacc
    have hnone : ¬addrOf .acc m ≠ invalidAddress := not_not_intro rfl
    have hmem : modeOf .acc = .accumulator := rfl
    rw [shifted, if_neg hnone, Cpu.shifting, if_pos hmem]
    simp only [hop']
    simp only [after, viewAt, onRegs, Effect.apply, Registers.load, ShortRegs.set, ofByte_nz, hcarry]
    rfl
  · have haddr := hmode.resolve_left hacc
    have hea := hvalid.resolve_left hacc
    have hmem : modeOf mode ≠ .accumulator := by
      cases mode with
      | acc => exact absurd rfl hacc
      | _ => decide
    rw [shifted, if_pos hea, Cpu.shifting, if_neg hmem, address_view haddr hpage]
    simp only [hop']
    simp only [after, viewAt, Effect.apply, Cpu.store, ofByte_nz, hcarry]
    rfl

theorem branch_view (flag : Flag) (taken : Bool) {mode : AddrMode} (haddr : Addressed mode) (hpage : InPageZero mode m)
    {cond : Bool}
    (hcond : cond = decide (Registers.flag (bitOf flag) m.shortRegs = taken)) :
    (view m).exec (.branch flag taken) (modeOf mode) = after (jump m.shortRegs cond (addrOf mode m)) mode m := by
  have hea : (view m).address (modeOf mode) = addrOf mode m := address_view haddr hpage
  have hget : (view m).p.get flag = Registers.flag (bitOf flag) m.shortRegs := get_ofByte flag m.shortRegs
  have hlen : (modeOf mode).length = lenOf mode := length_modeOf mode haddr.2.2
  simp only [Cpu.exec, hea, hget, hlen, hcond]
  by_cases h : Registers.flag (bitOf flag) m.shortRegs = taken
  · rw [if_pos h, decide_eq_true h]
    rfl
  · rw [if_neg h, decide_eq_false h]
    rfl

theorem ofNat_sum (a v : Byte) (c : Bool) :
    BitVec.ofNat 8 (a.toNat + v.toNat + c.toNat) = a + v + BitVec.ofNat 8 c.toNat := by
  rw [BitVec.ofNat_add, BitVec.ofNat_add, BitVec.ofNat_toNat, BitVec.ofNat_toNat, BitVec.setWidth_eq, BitVec.setWidth_eq]

theorem sub_eq_add_not (a v : Byte) (c : Bool) :
    a - v - BitVec.ofNat 8 (!c).toNat = a + ~~~v + BitVec.ofNat 8 c.toNat := by
  apply BitVec.eq_of_toNat_eq
  have ha : a.toNat < 256 := a.isLt
  have hv : v.toNat < 256 := v.isLt
  cases c <;> simp only [BitVec.toNat_sub, BitVec.toNat_add, BitVec.toNat_not, BitVec.toNat_ofNat, Bool.not_false,
    Bool.not_true, Bool.toNat_true, Bool.toNat_false] <;> omega

theorem borrow_eq_carry (a v : Byte) (c : Bool) :
    decide (v.toNat + (!c).toNat ≤ a.toNat) = decide (256 ≤ a.toNat + (~~~v).toNat + c.toNat) := by
  have hv : v.toNat < 256 := v.isLt
  refine decide_eq_decide.mpr ?_
  rw [BitVec.toNat_not]
  cases c <;> simp only [Bool.not_false, Bool.not_true, Bool.toNat_true, Bool.toNat_false] <;> omega

theorem signed_not (a : Int) (v : Byte) (c : Bool) : a + (~~~v).toInt + c.toNat = a - v.toInt - (!c).toNat := by
  rw [toInt_not]
  cases c <;> simp only [Bool.not_false, Bool.not_true, Bool.toNat_true, Bool.toNat_false] <;> omega

section Exec

variable {f : AsmFun} {mode : AddrMode} (hsuits : Suits f mode) (hpage : InPageZero mode m)

include hsuits hpage

theorem exec_load (hf : f = .lda ∨ f = .ldx ∨ f = .ldy) :
    (view m).exec (opOf f) (modeOf mode) = after (effect f mode m) mode m := by
  have hlen := length_modeOf mode hsuits.max
  rcases hf with rfl | rfl | rfl <;>
  · have hea : (view m).address (modeOf mode) = addrOf mode m :=
      address_view (hsuits.addressed (by decide) (by decide)) hpage
    simp only [opOf, Cpu.exec, hea, hlen]
    simp only [effect, onRegs, after, Effect.apply, view, viewAt, Cpu.load, Cpu.setReg, Registers.load, ofByte_nz,
      ShortRegs.set]
    rfl

theorem exec_store (hf : f = .sta ∨ f = .stx ∨ f = .sty) :
    (view m).exec (opOf f) (modeOf mode) = after (effect f mode m) mode m := by
  have hlen := length_modeOf mode hsuits.max
  rcases hf with rfl | rfl | rfl <;>
  · have hea : (view m).address (modeOf mode) = addrOf mode m :=
      address_view (hsuits.addressed (by decide) (by decide)) hpage
    simp only [opOf, Cpu.exec, hea, hlen]
    rfl

theorem exec_increment (hf : f = .inc ∨ f = .dec) :
    (view m).exec (opOf f) (modeOf mode) = after (effect f mode m) mode m := by
  have hlen := length_modeOf mode hsuits.max
  rcases hf with rfl | rfl <;>
  · have hea : (view m).address (modeOf mode) = addrOf mode m :=
      address_view (hsuits.addressed (by decide) (by decide)) hpage
    simp only [opOf, Cpu.exec, hea, hlen]
    simp only [effect, after, Effect.apply, viewAt, ofByte_nz]
    rfl

theorem exec_logic (hf : f = .and ∨ f = .eor ∨ f = .ora ∨ f = .bit) (h : Meets f mode m) :
    (view m).exec (opOf f) (modeOf mode) = after (effect f mode m) mode m := by
  have hlen := length_modeOf mode hsuits.max
  have hea : (view m).address (modeOf mode) = addrOf mode m :=
    address_view (hsuits.addressed (by rcases hf with rfl | rfl | rfl | rfl <;> decide)
      (by rcases hf with rfl | rfl | rfl | rfl <;> decide)) hpage
  rcases hf with rfl | rfl | rfl | rfl
  · have hv : operandOf mode m = m.mem (addrOf mode m) := if_pos h
    simp only [opOf, Cpu.exec, hea, hlen]
    simp only [effect, hv, onRegs, after, Effect.apply, view, viewAt, Cpu.load, Cpu.setReg, Registers.load, ofByte_nz,
      ShortRegs.set]
    rfl
  · have hv : operandOf mode m = m.mem (addrOf mode m) := if_pos h.1
    simp only [opOf, Cpu.exec, hea, hlen]
    simp only [effect, hv, onRegs, after, Effect.apply, view, viewAt, Cpu.load, Cpu.setReg, ofByte_nz,
      describe_congr h.2]
    rfl
  · have hv : operandOf mode m = m.mem (addrOf mode m) := if_pos h.1
    simp only [opOf, Cpu.exec, hea, hlen]
    simp only [effect, hv, onRegs, after, Effect.apply, view, viewAt, Cpu.load, Cpu.setReg, ofByte_nz,
      describe_congr h.2]
    rfl
  · obtain ⟨-, hand, hmsb, hbit⟩ := h
    have hkept : (Flags.ofByte m.shortRegs.cpu).v = flag flagV m.shortRegs := get_ofByte .v m.shortRegs
    simp only [opOf, Cpu.exec, hea, hlen]
    simp only [effect, onRegs, after, Effect.apply, view, viewAt, ofByte_nz, Flags.describe, hmsb, hbit, hkept.symm, hand,
      decide_true]
    rfl

theorem exec_compare (hf : f = .cmp ∨ f = .cpx ∨ f = .cpy) (h : addrOf mode m ≠ invalidAddress) :
    (view m).exec (opOf f) (modeOf mode) = after (effect f mode m) mode m := by
  have hlen := length_modeOf mode hsuits.max
  have hv : operandOf mode m = m.mem (addrOf mode m) := if_pos h
  have hcarry : ∀ b r, Flags.ofByte (putFlag flagC b r).cpu = (Flags.ofByte r.cpu).set b .c := ofByte_putFlag .c
  rcases hf with rfl | rfl | rfl <;>
  · have hea : (view m).address (modeOf mode) = addrOf mode m :=
      address_view (hsuits.addressed (by decide) (by decide)) hpage
    simp only [opOf, Cpu.exec, hea, hlen]
    simp only [effect, hv, onRegs, after, Effect.apply, viewAt, cmpFlags, hcarry, ofByte_nz]
    rfl

theorem exec_arith (hf : f = .adc ∨ f = .sbc) (h : Meets f mode m) :
    (view m).exec (opOf f) (modeOf mode) = after (effect f mode m) mode m := by
  have hlen := length_modeOf mode hsuits.max
  rcases hf with rfl | rfl
  · have hea : (view m).address (modeOf mode) = addrOf mode m :=
      address_view (hsuits.addressed (by decide) (by decide)) hpage
    have hv : operandOf mode m = m.mem (addrOf mode m) := if_pos h.1
    simp only [opOf, Cpu.exec, hea, hlen]
    refine add_view (r := adc (operandOf mode m) m.shortRegs) h.2 ?_
    rw [adc, hv, ofNat_sum]
    rfl
  · have hea : (view m).address (modeOf mode) = addrOf mode m :=
      address_view (hsuits.addressed (by decide) (by decide)) hpage
    have hv : operandOf mode m = m.mem (addrOf mode m) := if_pos h.1
    simp only [opOf, Cpu.exec, hea, hlen]
    refine add_view (r := sbc (operandOf mode m) m.shortRegs) ?_ ?_
    · rw [signed_not]
      exact h.2
    · rw [sbc, hv, sub_eq_add_not, borrow_eq_carry]
      rfl

theorem exec_shift (hf : f = .asl ∨ f = .lsr ∨ f = .rol ∨ f = .ror) (h : Meets f mode m) :
    (view m).exec (opOf f) (modeOf mode) = after (effect f mode m) mode m := by
  have hcarry : (view m).p.c = flag flagC m.shortRegs := get_ofByte .c m.shortRegs
  have hshift : ∀ (op : Op) (out : Byte → Bool) (g : Byte → Byte), (mode = .acc ∨ addrOf mode m ≠ invalidAddress) →
      familyOf f = some .shift → (∀ v, (view m).shift op v = (g v, out v)) →
      (viewAt (m.regPc + (modeOf mode).length) m).shifting op (modeOf mode) ((view m).address (modeOf mode)) =
        after (shifted mode m out g) mode m := by
    intro op out g hvalid hfam hop
    rw [length_modeOf mode hsuits.max]
    exact shifting_view (hsuits.shift hfam) hpage hvalid hop
  rcases hf with rfl | rfl | rfl | rfl
  · exact hshift .asl BitVec.msb (shiftLeft · false) h rfl (by simp [Cpu.shift, shiftLeft])
  · exact hshift .lsr lowBit (shiftRight · false) h rfl (by simp [Cpu.shift, shiftRight, lowBit])
  · refine hshift .rol BitVec.msb (shiftLeft · (flag flagC m.shortRegs)) h rfl fun v => ?_
    rw [Cpu.shift, hcarry]
    rfl
  · refine hshift .ror lowBit (shiftRight · (flag flagC m.shortRegs)) h rfl fun v => ?_
    rw [Cpu.shift, hcarry]
    rfl

theorem exec_jump (hf : f = .jmp ∨ f = .bcc ∨ f = .bcs ∨ f = .beq ∨ f = .bmi ∨ f = .bne ∨ f = .bpl ∨ f = .bvc ∨ f = .bvs) :
    (view m).exec (opOf f) (modeOf mode) = after (effect f mode m) mode m := by
  have haddr : Addressed mode :=
    hsuits.addressed (by rcases hf with rfl | rfl | rfl | rfl | rfl | rfl | rfl | rfl | rfl <;> decide)
      (by rcases hf with rfl | rfl | rfl | rfl | rfl | rfl | rfl | rfl | rfl <;> decide)
  have hset : ∀ flag : Flag, Registers.flag (bitOf flag) m.shortRegs =
      decide (Registers.flag (bitOf flag) m.shortRegs = true) := fun _ => Bool.decide_eq_true.symm
  have hclear : ∀ flag : Flag, (!Registers.flag (bitOf flag) m.shortRegs) =
      decide (Registers.flag (bitOf flag) m.shortRegs = false) := fun _ => Bool.decide_eq_false.symm
  rcases hf with rfl | rfl | rfl | rfl | rfl | rfl | rfl | rfl | rfl
  · have hea : (view m).address (modeOf mode) = addrOf mode m := address_view haddr hpage
    simp only [opOf, Cpu.exec, hea]
    rfl
  · exact branch_view .c false haddr hpage (hclear .c)
  · exact branch_view .c true haddr hpage (hset .c)
  · exact branch_view .z true haddr hpage (hset .z)
  · exact branch_view .n true haddr hpage (hset .n)
  · exact branch_view .z false haddr hpage (hclear .z)
  · exact branch_view .n false haddr hpage (hclear .n)
  · exact branch_view .v false haddr hpage (hclear .v)
  · exact branch_view .v true haddr hpage (hset .v)

omit hsuits hpage in
theorem operand_pushed (h : Meets .jsr .abs m) :
    addrOf .abs ((pushedWord m.shortRegs (m.regPc + 2#16)).apply m) = addrOf .abs m := by
  have hcell : ∀ a ∈ [m.regPc + 1#16, m.regPc + 2#16],
      ((pushedWord m.shortRegs (m.regPc + 2#16)).apply m).mem a = m.mem a := by
    intro a ha
    obtain ⟨hhigh, hlow⟩ := h a ha
    simp only [pushedWord, Effect.apply, List.foldl_cons, List.foldl_nil, Function.update_of_ne hlow,
      Function.update_of_ne hhigh]
  have hlow := hcell (m.regPc + 1#16) (.head _)
  have hhigh := hcell (m.regPc + 2#16) (.tail _ (.head _))
  show wordAt _ (m.regPc + 1#16) = wordAt m.mem (m.regPc + 1#16)
  rw [wordAt, wordAt, hlow, add_one_one, hhigh]

theorem exec_subroutine (hf : f = .jsr ∨ f = .rts) (h : Meets f mode m) :
    (view m).exec (opOf f) (modeOf mode) = after (effect f mode m) mode m := by
  rcases hf with rfl | rfl
  · obtain rfl := hsuits.call rfl
    have hea : (view m).address (modeOf .abs) = addrOf .abs m :=
      address_view (hsuits.addressed (by decide) (by decide)) hpage
    have heffect : effect .jsr .abs m =
        { pushedWord m.shortRegs (m.regPc + 2#16) with branch := some (addrOf .abs m) } :=
      congrArg (fun a => { pushedWord m.shortRegs (m.regPc + 2#16) with branch := some a }) (operand_pushed h)
    rw [heffect]
    simp only [opOf, Cpu.exec, hea]
    simp only [after, viewAt, Effect.apply, pushedWord, hiByte_eq, loByte_eq]
    rfl
  · simp only [opOf, Cpu.exec, word_eq, stackAt_eq]
    rfl

omit hpage in
theorem exec_transfer (hf : f = .tax ∨ f = .tay ∨ f = .txa ∨ f = .tya ∨ f = .tsx ∨ f = .txs) :
    (view m).exec (opOf f) (modeOf mode) = after (effect f mode m) mode m := by
  have hlen := length_modeOf mode hsuits.max
  rcases hf with rfl | rfl | rfl | rfl | rfl | rfl <;>
  · simp only [opOf, Cpu.exec, hlen]
    simp only [effect, onRegs, after, Effect.apply, view, viewAt, Cpu.load, Cpu.setReg, Cpu.reg, Registers.load, ofByte_nz,
      ShortRegs.set]
    rfl

omit hpage in
theorem exec_count (hf : f = .inx ∨ f = .iny ∨ f = .dex ∨ f = .dey) :
    (view m).exec (opOf f) (modeOf mode) = after (effect f mode m) mode m := by
  have hlen := length_modeOf mode hsuits.max
  rcases hf with rfl | rfl | rfl | rfl <;>
  · simp only [opOf, Cpu.exec, hlen]
    simp only [effect, onRegs, after, Effect.apply, view, viewAt, Cpu.load, Cpu.setReg, Cpu.reg, Registers.load, ofByte_nz,
      ShortRegs.set]
    rfl

omit hpage in
theorem exec_stack (hf : f = .pha ∨ f = .php ∨ f = .pla ∨ f = .plp) (h : Meets f mode m) :
    (view m).exec (opOf f) (modeOf mode) = after (effect f mode m) mode m := by
  have hlen := length_modeOf mode hsuits.max
  rcases hf with rfl | rfl | rfl | rfl
  · simp only [opOf, Cpu.exec, hlen]
    rfl
  · have hbyte : (view m).p.toByte = m.shortRegs.cpu := toByte_ofByte _ h
    simp only [opOf, Cpu.exec, hlen, hbyte]
    rfl
  · simp only [opOf, Cpu.exec, hlen]
    simp only [effect, onRegs, after, Effect.apply, view, viewAt, Cpu.load, Cpu.setReg, stackAt_eq, Registers.load,
      ofByte_nz, ShortRegs.set]
    rfl
  · simp only [opOf, Cpu.exec, hlen]
    rfl

omit hpage in
theorem exec_put (flag : Flag) (b : Bool) :
    (view m).exec (.put flag b) (modeOf mode) = after (onRegs (putFlag (bitOf flag) b m.shortRegs)) mode m := by
  simp only [Cpu.exec, length_modeOf mode hsuits.max, after, onRegs, Effect.apply, viewAt, ofByte_putFlag]
  rfl

/-- Where its state meets the conditions, an instruction does what it does on
the CPU. -/
theorem exec_view (h : Meets f mode m) : (view m).exec (opOf f) (modeOf mode) = after (effect f mode m) mode m := by
  cases f with
  | lda | ldx | ldy => exact exec_load hsuits hpage (by simp)
  | sta | stx | sty => exact exec_store hsuits hpage (by simp)
  | inc | dec => exact exec_increment hsuits hpage (by simp)
  | and | eor | ora | bit => exact exec_logic hsuits hpage (by simp) h
  | cmp | cpx | cpy => exact exec_compare hsuits hpage (by simp) h
  | adc | sbc => exact exec_arith hsuits hpage (by simp) h
  | asl | lsr | rol | ror => exact exec_shift hsuits hpage (by simp) h
  | jmp | bcc | bcs | beq | bmi | bne | bpl | bvc | bvs => exact exec_jump hsuits hpage (by simp)
  | jsr | rts => exact exec_subroutine hsuits hpage (by simp) h
  | tax | tay | txa | tya | tsx | txs => exact exec_transfer hsuits (by simp)
  | inx | iny | dex | dey => exact exec_count hsuits (by simp)
  | pha | php | pla | plp => exact exec_stack hsuits (by simp) h
  | clc | cld | cli | clv | sec | sed | sei => exact exec_put hsuits _ _
  | nop =>
      simp only [opOf, Cpu.exec, length_modeOf mode hsuits.max]
      rfl
  | brk | rti => exact h.elim

end Exec

instance (mode : AddrMode) : Decidable (Addressed mode) := inferInstanceAs (Decidable (_ ∧ _ ∧ _))

theorem suits_opcodeAt (b : Byte) : Suits (opcodeAt b).exec (opcodeAt b).addrMode := by
  obtain ⟨hmax, haddressed, hshift, hcall⟩ := forall_opcode (P := fun op => op.addrMode ≠ .max ∧
    (familyOf op.exec ≠ none → familyOf op.exec ≠ some .shift → Addressed op.addrMode) ∧
    (familyOf op.exec = some .shift → op.addrMode = .acc ∨ Addressed op.addrMode) ∧
    (op.exec = .jsr → op.addrMode = .abs)) (by decide +kernel) b
  exact ⟨hmax, haddressed, hshift, hcall⟩

/-- The instruction at the PC is one that the CPU executes the same. -/
structure Faithful (m : Machine F σ) : Prop where
  documented : (currentOp m).name ≠ "XXX"
  page : InPageZero (currentOp m).addrMode m
  meets : Meets (currentOp m).exec (currentOp m).addrMode m
  -- both rows of the table index with the wrong register
  styAbsolute : m.mem m.regPc = 0x8C#8 → m.shortRegs.x = 0#8
  styZeroPage : m.mem m.regPc = 0x94#8 → m.shortRegs.y = m.shortRegs.x
  -- the length is looked up when the instruction is over
  opcode : (effect (currentOp m).exec (currentOp m).addrMode m).branch = none →
    lenOf (currentOp (exec m)).addrMode = lenOf (currentOp m).addrMode
  target : (effect (currentOp m).exec (currentOp m).addrMode m).branch ≠ some invalidAddress

theorem exec_sty {mode : AddrMode} {md : Mode} (hsuits : Suits .sty mode) (hpage : InPageZero mode m)
    (hlen : md.length = (modeOf mode).length) (haddr : (view m).address md = (view m).address (modeOf mode)) :
    (view m).exec (.st .y) md = after (effect .sty mode m) mode m := by
  have hexec := exec_store hsuits hpage (.inr (.inr rfl))
  rw [← hexec]
  simp only [opOf, Cpu.exec, haddr, hlen]

theorem decode_faithful (h : Faithful m) : ∃ op md, decode (m.mem m.regPc) = some (op, md) ∧
    (view m).exec op md = after (effect (currentOp m).exec (currentOp m).addrMode m) (currentOp m).addrMode m := by
  have hsuits : Suits (currentOp m).exec (currentOp m).addrMode := suits_opcodeAt _
  by_cases habs : m.mem m.regPc = 0x8C#8
  · have hop : currentOp m = opcodeAt 0x8C#8 := congrArg opcodeAt habs
    have hx : (view m).x = 0#8 := h.styAbsolute habs
    have hpage := h.page
    rw [hop] at hsuits hpage ⊢
    refine ⟨.st .y, .absolute, habs ▸ decode_sty.1, exec_sty hsuits hpage rfl ?_⟩
    show (view m).operand = (view m).operand + (view m).x.setWidth 16
    rw [hx]
    exact (BitVec.add_zero _).symm
  · by_cases hzp : m.mem m.regPc = 0x94#8
    · have hop : currentOp m = opcodeAt 0x94#8 := congrArg opcodeAt hzp
      have hy : (view m).y = (view m).x := h.styZeroPage hzp
      have hpage := h.page
      rw [hop] at hsuits hpage ⊢
      refine ⟨.st .y, .zeroPageX, hzp ▸ decode_sty.2, exec_sty hsuits hpage rfl ?_⟩
      show zp ((view m).low + (view m).x) = zp ((view m).low + (view m).y)
      rw [hy]
    · have hdocumented : (opcodeAt (m.mem m.regPc)).name ≠ "XXX" := h.documented
      have hdecode := decode_opcodeAt (m.mem m.regPc) habs hzp
      rw [if_neg hdocumented] at hdecode
      exact ⟨_, _, hdecode, exec_view hsuits h.page h.meets⟩

def toCpu (m : Machine F σ) : Cpu := viewAt (nextPc m) m

theorem after_exec (hbranched : m.regPcBranched = invalidAddress) (h : Faithful m) :
    after (effect (currentOp m).exec (currentOp m).addrMode m) (currentOp m).addrMode m = toCpu (exec m) := by
  have hnext : nextPc (exec m) = (effect (currentOp m).exec (currentOp m).addrMode m).branch.getD
      (m.regPc + lenOf (currentOp m).addrMode) := by
    have hpending : (exec m).regPcBranched =
        (effect (currentOp m).exec (currentOp m).addrMode m).branch.getD invalidAddress := hbranched ▸ rfl
    rw [nextPc, hpending]
    cases hbranch : (effect (currentOp m).exec (currentOp m).addrMode m).branch with
    | none => exact congrArg (m.regPc + ·) (h.opcode hbranch)
    | some a => exact if_pos fun ha => h.target (hbranch.trans (congrArg some ha))
  rw [after, ← hnext]
  rfl

/-- A round in which nothing is met that sets the emulator and the CPU apart. -/
def FaithfulRound (m : Machine F σ) : Prop := nextPc m < cpuAddrReservedStart ∧ Faithful (fetched m)

theorem cycle_step (h : FaithfulRound m) :
    ∃ m', cycle m = some m' ∧ Cpu.step (toCpu m) = some (toCpu m') := by
  refine ⟨_, if_pos h.1, ?_⟩
  obtain ⟨op, md, hdecode, hexec⟩ := decode_faithful h.2
  rw [after_exec rfl h.2] at hexec
  have hview : toCpu m = view (fetched m) := rfl
  rw [hview, Cpu.step, ← hexec]
  exact congrArg (Option.map _) hdecode

theorem iter_cycle_step {n : Nat} (h : ∀ k < n, ∀ q, iter cycle k m = some q → FaithfulRound q) :
    ∃ m', iter cycle n m = some m' ∧ iter Cpu.step n (toCpu m) = some (toCpu m') :=
  iter_abstract toCpu fun k hk q hq => cycle_step (h k hk q hq)

def Shows (S : Set Word) (c : Cpu) (m : Machine F σ) : Prop :=
  c = { toCpu m with mem := c.mem } ∧ ∀ a ∈ S, c.mem a = m.mem a

theorem shows_hosts {S : Set Word} {p : Machine Empty Unit} (h : Hosts S p m) (hpc : m.mem m.regPc = p.mem p.regPc) :
    Shows S (toCpu p) m := by
  have hnext : nextPc p = nextPc m := by
    simp only [nextPc, currentOp, h.branched, h.pc, ← hpc]
  refine ⟨?_, fun a ha => (h.mem a ha).symm⟩
  simp only [toCpu, viewAt, hnext, h.regs]

theorem regPc_within {S : Set Word} {p p' : Machine Empty Unit} {n : Nat} (hin : Within S (n + 1) p)
    (hp : iter cycle (n + 1) p = some p') : p'.regPc ∈ S := by
  obtain ⟨q, hq, hcycle⟩ := iter_succ_inv hp
  have hcells := hin n (Nat.lt_succ_self n) q hq
  by_cases hlt : nextPc q < cpuAddrReservedStart
  · rw [cycle, if_pos hlt] at hcycle
    rw [roundCells, if_pos hlt] at hcells
    cases hcycle
    exact hcells _ (.tail _ (.head _))
  · rw [cycle, if_neg hlt] at hcycle
    cases hcycle

theorem storing_faithful : ∀ k < 2, ∀ q, iter cycle k storing = some q → FaithfulRound q := by
  have hcycle : cycle storing = some (exec (fetched storing)) := if_pos (by decide)
  intro k hk q hq
  obtain rfl | rfl : k = 0 ∨ k = 1 := by omega
  · obtain rfl : storing = q := Option.some.inj hq
    exact ⟨by decide, by decide, trivial, trivial, fun h => absurd h (by decide), fun h => absurd h (by decide),
      fun _ => rfl, by decide⟩
  · rw [iter, hcycle, Option.bind_some] at hq
    obtain rfl : exec (fetched storing) = q := Option.some.inj hq
    exact ⟨by decide, by decide, trivial, trivial, fun h => absurd h (by decide), fun h => absurd h (by decide),
      fun _ => rfl, by decide⟩

end Bugnes.Reference
