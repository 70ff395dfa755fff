import Bugnes.Opcodes
import Bugnes.Registers

namespace Bugnes.Plain

open Words Memhooks CpuCore Addr OpcodeTable Registers

variable {F σ : Type}

def wordAt (mem : Word → Byte) (a : Word) : Word := wordOf (mem a) (mem (a + 1#16))

def addrOf (mode : AddrMode) (m : Machine F σ) : Word :=
  let operand := wordAt m.mem (m.regPc + 1#16)
  let zeroPage := (m.mem (m.regPc + 1#16)).setWidth 16
  match mode with
  | .imm => m.regPc + 1#16
  | .zpa => zeroPage
  | .zpx => zeroPage + m.shortRegs.x.setWidth 16
  | .zpy => zeroPage + m.shortRegs.y.setWidth 16
  | .rel => m.regPc + 2#16 + (m.mem (m.regPc + 1#16)).signExtend 16
  | .abs => operand
  | .abx => operand + m.shortRegs.x.setWidth 16
  | .aby => operand + m.shortRegs.y.setWidth 16
  | .ind => wordAt m.mem operand
  | .inx => wordAt m.mem (zeroPage + m.shortRegs.x.setWidth 16)
  | .iny => wordAt m.mem zeroPage + m.shortRegs.y.setWidth 16
  | .imp | .acc | .max => invalidAddress

def pointerCells (mode : AddrMode) (m : Machine F σ) : List Word :=
  let operand := wordAt m.mem (m.regPc + 1#16)
  let zeroPage := (m.mem (m.regPc + 1#16)).setWidth 16
  match mode with
  | .ind => [operand, operand + 1#16]
  | .inx => [zeroPage + m.shortRegs.x.setWidth 16, zeroPage + m.shortRegs.x.setWidth 16 + 1#16]
  | .iny => [zeroPage, zeroPage + 1#16]
  | _ => []

def addrBytes (mode : AddrMode) (m : Machine F σ) : List Word :=
  [m.regPc + 1#16, m.regPc + 2#16] ++ pointerCells mode m

def operandOf (mode : AddrMode) (m : Machine F σ) : Byte :=
  if addrOf mode m ≠ invalidAddress then m.mem (addrOf mode m)
  else if mode = .acc then m.shortRegs.acc else 0#8

/-- What one instruction does to a machine without hooks: the registers it
leaves, the cells it writes in order, and the branch it makes pending. -/
structure Effect where
  regs : ShortRegs
  writes : List (Word × Byte)
  branch : Option Word

def Effect.apply (e : Effect) (m : Machine F σ) : Machine F σ :=
  { m with
    shortRegs := e.regs
    mem := e.writes.foldl (fun mem w => Function.update mem w.1 w.2) m.mem
    regPcBranched := e.branch.getD m.regPcBranched }

def onRegs (r : ShortRegs) : Effect := ⟨r, [], none⟩

def pushed (r : ShortRegs) (v : Byte) : Effect := ⟨{ r with sp := r.sp - 1#8 }, [(stackAddr r.sp, v)], none⟩

def pushedWord (r : ShortRegs) (v : Word) : Effect :=
  ⟨{ r with sp := r.sp - 1#8 - 1#8 }, [(stackAddr r.sp, hiByte v), (stackAddr (r.sp - 1#8), loByte v)], none⟩

/-- The addresses one instruction hands to the hooks, in any order. -/
def touched (f : AsmFun) (mode : AddrMode) (m : Machine F σ) : List Word :=
  let ea := addrOf mode m
  match f with
  | .lda | .ldx | .ldy | .sta | .stx | .sty | .inc | .dec => addrBytes mode m ++ [ea]
  | .and | .eor | .ora | .bit | .adc | .sbc | .cmp | .cpx | .cpy | .asl | .lsr | .rol | .ror =>
      addrBytes mode m ++ if ea ≠ invalidAddress then [ea] else []
  | .jmp | .bcc | .bcs | .beq | .bmi | .bne | .bpl | .bvc | .bvs => addrBytes mode m
  | .jsr => addrBytes mode ((pushedWord m.shortRegs (m.regPc + 2#16)).apply m)
  | .brk => [cpuAddrBreak, cpuAddrBreak + 1#16]
  | .tax | .tay | .txa | .tya | .tsx | .txs | .pha | .php | .pla | .plp | .inx | .iny | .dex | .dey
  | .rts | .clc | .cld | .cli | .clv | .sec | .sed | .sei | .nop | .rti => []

def shifted (mode : AddrMode) (m : Machine F σ) (out : Byte → Bool) (f : Byte → Byte) : Effect :=
  let ea := addrOf mode m
  if ea ≠ invalidAddress then
    let v := m.mem ea
    ⟨nz (f v) (putFlag flagC (out v) m.shortRegs), [(ea, f v)], none⟩
  else
    let v := m.shortRegs.acc
    onRegs (load .acc (f v) (putFlag flagC (out v) m.shortRegs))

def jump (r : ShortRegs) (taken : Bool) (target : Word) : Effect :=
  ⟨r, [], if taken then some target else none⟩

def effect (f : AsmFun) (mode : AddrMode) (m : Machine F σ) : Effect :=
  let r := m.shortRegs
  let ea := addrOf mode m
  let v := operandOf mode m
  match f with
  | .lda => onRegs (load .acc (m.mem ea) r)
  | .ldx => onRegs (load .x (m.mem ea) r)
  | .ldy => onRegs (load .y (m.mem ea) r)
  | .sta => ⟨r, [(ea, r.acc)], none⟩
  | .stx => ⟨r, [(ea, r.x)], none⟩
  | .sty => ⟨r, [(ea, r.y)], none⟩
  | .tax => onRegs (load .x r.acc r)
  | .tay => onRegs (load .y r.acc r)
  | .txa => onRegs (load .acc r.x r)
  | .tya => onRegs (load .acc r.y r)
  | .tsx => onRegs (load .x r.sp r)
  | .txs => onRegs { r with sp := r.x }
  | .pha => pushed r r.acc
  | .php => pushed r r.cpu
  | .pla => onRegs (load .acc (m.mem (stackAddr (r.sp + 1#8))) { r with sp := r.sp + 1#8 })
  | .plp => onRegs { r with sp := r.sp + 1#8, cpu := m.mem (stackAddr (r.sp + 1#8)) }
  | .and => onRegs (load .acc (r.acc &&& v) r)
  | .eor => onRegs { nz r.acc r with acc := r.acc ^^^ v }
  | .ora => onRegs { nz r.acc r with acc := r.acc ||| v }
  | .bit => onRegs (nz 0#8 r)
  | .adc => onRegs (adc v r)
  | .sbc => onRegs (sbc v r)
  | .cmp => onRegs (cmpFlags r.acc v r)
  | .cpx => onRegs (cmpFlags r.x v r)
  | .cpy => onRegs (cmpFlags r.y v r)
  | .inc => ⟨nz (m.mem ea + 1#8) r, [(ea, m.mem ea + 1#8)], none⟩
  | .dec => ⟨nz (m.mem ea - 1#8) r, [(ea, m.mem ea - 1#8)], none⟩
  | .inx => onRegs (load .x (r.x + 1#8) r)
  | .iny => onRegs (load .y (r.y + 1#8) r)
  | .dex => onRegs (load .x (r.x - 1#8) r)
  | .dey => onRegs (load .y (r.y - 1#8) r)
  | .asl => shifted mode m BitVec.msb (shiftLeft · false)
  | .lsr => shifted mode m lowBit (shiftRight · false)
  | .rol => shifted mode m BitVec.msb (shiftLeft · (flag flagC r))
  | .ror => shifted mode m lowBit (shiftRight · (flag flagC r))
  | .jmp => jump r true ea
  | .jsr =>
      let e := pushedWord r (m.regPc + 2#16)
      { e with branch := some (addrOf mode (e.apply m)) }
  | .rts => ⟨{ r with sp := r.sp + 1#8 + 1#8 }, [],
      some (wordOf (m.mem (stackAddr (r.sp + 1#8))) (m.mem (stackAddr (r.sp + 1#8 + 1#8))) + 1#16)⟩
  | .bcc => jump r (!flag flagC r) ea
  | .bcs => jump r (flag flagC r) ea
  | .beq => jump r (flag flagZ r) ea
  | .bmi => jump r (flag flagN r) ea
  | .bne => jump r (!flag flagZ r) ea
  | .bpl => jump r (!flag flagN r) ea
  | .bvc => jump r (!flag flagV r) ea
  | .bvs => jump r (flag flagV r) ea
  | .clc => onRegs (putFlag flagC false r)
  | .cld => onRegs (putFlag flagD false r)
  | .cli => onRegs (putFlag flagI false r)
  | .clv => onRegs (putFlag flagV false r)
  | .sec => onRegs (putFlag flagC true r)
  | .sed => onRegs (putFlag flagD true r)
  | .sei => onRegs (putFlag flagI true r)
  | .brk => jump r true (wordAt m.mem cpuAddrBreak)
  | .nop | .rti => onRegs r

/-- The length the table gives the instructions of a mode; no row has the mode `max`. -/
def lenOf : AddrMode → Word
  | .imp | .acc => 1#16
  | .imm | .zpa | .zpx | .zpy | .rel | .inx | .iny => 2#16
  | .abs | .abx | .aby | .ind => 3#16
  | .max => 0#16

theorem toNat_lenOf_le (mode : AddrMode) : (lenOf mode).toNat ≤ 3 := by
  cases mode <;> decide

def instrCells (mode : AddrMode) (a : Word) : List Word :=
  (List.range (lenOf mode).toNat).map fun i => a + BitVec.ofNat 16 i

def currentOp (m : Machine F σ) : SfotOpcode := opcodeAt (m.mem m.regPc)

def nextPc (m : Machine F σ) : Word :=
  if m.regPcBranched ≠ invalidAddress then m.regPcBranched else m.regPc + lenOf (currentOp m).addrMode

def exec (m : Machine F σ) : Machine F σ := (effect (currentOp m).exec (currentOp m).addrMode m).apply m

@[simp] theorem exec_regPc (m : Machine F σ) : (exec m).regPc = m.regPc := rfl

def SameOperand (mode : AddrMode) (m m' : Machine F σ) : Prop :=
  ∀ i < (lenOf mode).toNat, 0 < i → m'.mem (m'.regPc + BitVec.ofNat 16 i) = m.mem (m.regPc + BitVec.ofNat 16 i)

theorem pointerCells_congr {mode : AddrMode} {m m' : Machine F σ} (hx : m'.shortRegs.x = m.shortRegs.x)
    (hoperand : SameOperand mode m m') : pointerCells mode m' = pointerCells mode m := by
  cases mode with
  | ind =>
      have h₁ := hoperand 1 (by decide) (by decide)
      have h₂ := hoperand 2 (by decide) (by decide)
      simp only [pointerCells, wordAt, add_one_one, h₁, h₂]
  | inx | iny =>
      have h₁ := hoperand 1 (by decide) (by decide)
      simp only [pointerCells, h₁, hx]
  | imp | acc | imm | zpa | zpx | zpy | rel | abs | abx | aby | max => rfl

theorem addrOf_congr {mode : AddrMode} {m m' : Machine F σ} (hpc : mode = .imm ∨ mode = .rel → m'.regPc = m.regPc)
    (hx : m'.shortRegs.x = m.shortRegs.x) (hy : m'.shortRegs.y = m.shortRegs.y) (hoperand : SameOperand mode m m')
    (hpointer : ∀ a ∈ pointerCells mode m, m'.mem a = m.mem a) : addrOf mode m' = addrOf mode m := by
  cases mode with
  | zpa | zpx | zpy =>
      have h₁ := hoperand 1 (by decide) (by decide)
      simp only [addrOf, h₁, hx, hy]
  | rel =>
      have h₁ := hoperand 1 (by decide) (by decide)
      rw [addrOf, addrOf, ← hpc (.inr rfl)]
      exact congrArg (fun b : Byte => m'.regPc + 2#16 + b.signExtend 16) (hpc (.inr rfl) ▸ h₁)
  | imm => simp only [addrOf, hpc (.inl rfl)]
  | abs | abx | aby =>
      have h₁ := hoperand 1 (by decide) (by decide)
      have h₂ := hoperand 2 (by decide) (by decide)
      simp only [addrOf, wordAt, add_one_one, h₁, h₂, hx, hy]
  | ind =>
      have h₁ := hoperand 1 (by decide) (by decide)
      have h₂ := hoperand 2 (by decide) (by decide)
      simp only [pointerCells, wordAt, add_one_one, List.mem_cons, List.not_mem_nil, or_false, forall_eq_or_imp,
        forall_eq] at hpointer
      simp only [addrOf, wordAt, add_one_one, h₁, h₂, hpointer]
  | inx | iny =>
      have h₁ := hoperand 1 (by decide) (by decide)
      simp only [pointerCells, List.mem_cons, List.not_mem_nil, or_false, forall_eq_or_imp, forall_eq] at hpointer
      simp only [addrOf, wordAt, h₁, hx, hy, hpointer]
  | imp | acc | max => rfl

end Bugnes.Plain
