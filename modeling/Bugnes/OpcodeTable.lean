import Bugnes.Addr

namespace Bugnes.OpcodeTable

open Words Addr

inductive AsmFun
  | lda | ldx | ldy | sta | stx | sty
  | tax | tay | txa | tya
  | tsx | txs | pha | php | pla | plp
  | and | eor | ora | bit
  | adc | sbc | cmp | cpx | cpy
  | inc | inx | iny | dec | dex | dey
  | asl | lsr | rol | ror
  | jmp | jsr | rts
  | bcc | bcs | beq | bmi | bne | bpl | bvc | bvs
  | clc | cld | cli | clv | sec | sed | sei
  | brk | nop | rti
deriving DecidableEq, Repr

def AsmFun.name : AsmFun → String
  | .lda => "LDA" | .ldx => "LDX" | .ldy => "LDY" | .sta => "STA" | .stx => "STX" | .sty => "STY"
  | .tax => "TAX" | .tay => "TAY" | .txa => "TXA" | .tya => "TYA"
  | .tsx => "TSX" | .txs => "TXS" | .pha => "PHA" | .php => "PHP" | .pla => "PLA" | .plp => "PLP"
  | .and => "AND" | .eor => "EOR" | .ora => "ORA" | .bit => "BIT"
  | .adc => "ADC" | .sbc => "SBC" | .cmp => "CMP" | .cpx => "CPX" | .cpy => "CPY"
  | .inc => "INC" | .inx => "INX" | .iny => "INY" | .dec => "DEC" | .dex => "DEX" | .dey => "DEY"
  | .asl => "ASL" | .lsr => "LSR" | .rol => "ROL" | .ror => "ROR"
  | .jmp => "JMP" | .jsr => "JSR" | .rts => "RTS"
  | .bcc => "BCC" | .bcs => "BCS" | .beq => "BEQ" | .bmi => "BMI" | .bne => "BNE" | .bpl => "BPL" | .bvc => "BVC" | .bvs => "BVS"
  | .clc => "CLC" | .cld => "CLD" | .cli => "CLI" | .clv => "CLV" | .sec => "SEC" | .sed => "SED" | .sei => "SEI"
  | .brk => "BRK" | .nop => "NOP" | .rti => "RTI"

structure SfotOpcode where
  name : String
  exec : AsmFun
  addrMode : AddrMode
deriving DecidableEq, Repr

def o (name : AsmFun) (addr : AddrMode) : SfotOpcode := ⟨name.name, name, addr⟩

def oUnknown : SfotOpcode := ⟨"XXX", .nop, .imp⟩

set_option maxRecDepth 2000 in
/-- If the opcode is not known, we default to a NOP. -/
def opcodeNames : List SfotOpcode := [
  /- 0x00 -/ o .brk .imp, o .ora .inx, oUnknown, oUnknown,
  /- 0x04 -/ oUnknown, o .ora .zpa, o .asl .zpa, oUnknown,
  /- 0x08 -/ o .php .imp, o .ora .imm, o .asl .acc, oUnknown,
  /- 0x0C -/ oUnknown, o .ora .abs, o .asl .abs, oUnknown,
  /- 0x10 -/ o .bpl .rel, o .ora .iny, oUnknown, oUnknown,
  /- 0x14 -/ oUnknown, o .ora .zpx, o .asl .zpx, oUnknown,
  /- 0x18 -/ o .clc .imp, o .ora .aby, oUnknown, oUnknown,
  /- 0x1C -/ oUnknown, o .ora .abx, o .asl .abx, oUnknown,
  /- 0x20 -/ o .jsr .abs, o .and .inx, oUnknown, oUnknown,
  /- 0x24 -/ o .bit .zpa, o .and .zpa, o .rol .zpa, oUnknown,
  /- 0x28 -/ o .plp .imp, o .and .imm, o .rol .acc, oUnknown,
  /- 0x2C -/ o .bit .abs, o .and .abs, o .rol .abs, oUnknown,
  /- 0x30 -/ o .bmi .rel, o .and .iny, oUnknown, oUnknown,
  /- 0x34 -/ oUnknown, o .and .zpx, o .rol .zpx, oUnknown,
  /- 0x38 -/ o .sec .imp, o .and .aby, oUnknown, oUnknown,
  /- 0x3C -/ oUnknown, o .and .abx, o .rol .abx, oUnknown,
  /- 0x40 -/ o .rti .imp, o .eor .inx, oUnknown, oUnknown,
  /- 0x44 -/ oUnknown, o .eor .zpa, o .lsr .zpa, oUnknown,
  /- 0x48 -/ o .pha .imp, o .eor .imm, o .lsr .acc, oUnknown,
  /- 0x4C -/ o .jmp .abs, o .eor .abs, o .lsr .abs, oUnknown,
  /- 0x50 -/ o .bvc .rel, o .eor .iny, oUnknown, oUnknown,
  /- 0x54 -/ oUnknown, o .eor .zpx, o .lsr .zpx, oUnknown,
  /- 0x58 -/ o .cli .imp, o .eor .aby, oUnknown, oUnknown,
  /- 0x5C -/ oUnknown, o .eor .abx, o .lsr .abx, oUnknown,
  /- 0x60 -/ o .rts .imp, o .adc .inx, oUnknown, oUnknown,
  /- 0x64 -/ oUnknown, o .adc .zpa, o .ror .zpa, oUnknown,
  /- 0x68 -/ o .pla .imp, o .adc .imm, o .ror .acc, oUnknown,
  /- 0x6C -/ o .jmp .ind, o .adc .abs, o .ror .abs, oUnknown,
  /- 0x70 -/ o .bvs .rel, o .adc .iny, oUnknown, oUnknown,
  /- 0x74 -/ oUnknown, o .adc .zpx, o .ror .zpx, oUnknown,
  /- 0x78 -/ o .sei .imp, o .adc .aby, oUnknown, oUnknown,
  /- 0x7C -/ oUnknown, o .adc .abx, o .ror .abx, oUnknown,
  /- 0x80 -/ oUnknown, o .sta .inx, oUnknown, oUnknown,
  /- 0x84 -/ o .sty .zpa, o .sta .zpa, o .stx .zpa, oUnknown,
  /- 0x88 -/ o .dey .imp, oUnknown, o .txa .imp, oUnknown,
  /- 0x8C -/ o .sty .abx, o .sta .abs, o .stx .abs, oUnknown,
  /- 0x90 -/ o .bcc .rel, o .sta .iny, oUnknown, oUnknown,
  /- 0x94 -/ o .sty .zpy, o .sta .zpx, o .stx .zpy, oUnknown,
  /- 0x98 -/ o .tya .imp, o .sta .aby, o .txs .imp, oUnknown,
  /- 0x9C -/ oUnknown, o .sta .abx, oUnknown, oUnknown,
  /- 0xA0 -/ o .ldy .imm, o .lda .inx, o .ldx .imm, oUnknown,
  /- 0xA4 -/ o .ldy .zpa, o .lda .zpa, o .ldx .zpa, oUnknown,
  /- 0xA8 -/ o .tay .imp, o .lda .imm, o .tax .imp, oUnknown,
  /- 0xAC -/ o .ldy .abs, o .lda .abs, o .ldx .abs, oUnknown,
  /- 0xB0 -/ o .bcs .rel, o .lda .iny, oUnknown, oUnknown,
  /- 0xB4 -/ o .ldy .zpx, o .lda .zpx, o .ldx .zpy, oUnknown,
  /- 0xB8 -/ o .clv .imp, o .lda .aby, o .tsx .imp, oUnknown,
  /- 0xBC -/ o .ldy .abx, o .lda .abx, o .ldx .aby, oUnknown,
  /- 0xC0 -/ o .cpy .imm, o .cmp .inx, oUnknown, oUnknown,
  /- 0xC4 -/ o .cpy .zpa, o .cmp .zpa, o .dec .zpa, oUnknown,
  /- 0xC8 -/ o .iny .imp, o .cmp .imm, o .dex .imp, oUnknown,
  /- 0xCC -/ o .cpy .abs, o .cmp .abs, o .dec .abs, oUnknown,
  /- 0xD0 -/ o .bne .rel, o .cmp .iny, oUnknown, oUnknown,
  /- 0xD4 -/ oUnknown, o .cmp .zpx, o .dec .zpx, oUnknown,
  /- 0xD8 -/ o .cld .imp, o .cmp .aby, oUnknown, oUnknown,
  /- 0xDC -/ oUnknown, o .cmp .abx, o .dec .abx, oUnknown,
  /- 0xE0 -/ o .cpx .imm, o .sbc .inx, oUnknown, oUnknown,
  /- 0xE4 -/ o .cpx .zpa, o .sbc .zpa, o .inc .zpa, oUnknown,
  /- 0xE8 -/ o .inx .imp, o .sbc .imm, o .nop .imp, oUnknown,
  /- 0xEC -/ o .cpx .abs, o .sbc .abs, o .inc .abs, oUnknown,
  /- 0xF0 -/ o .beq .rel, o .sbc .iny, oUnknown, oUnknown,
  /- 0xF4 -/ oUnknown, o .sbc .zpx, o .inc .zpx, oUnknown,
  /- 0xF8 -/ o .sed .imp, o .sbc .aby, oUnknown, oUnknown,
  /- 0xFC -/ oUnknown, o .sbc .abx, o .inc .abx, oUnknown]

theorem length_opcodeNames : opcodeNames.length = 256 := by decide +kernel

def opcodeAt (b : Byte) : SfotOpcode := opcodeNames.get ⟨b.toNat, length_opcodeNames ▸ b.isLt⟩

theorem forall_opcode {P : SfotOpcode → Prop} (h : ∀ op ∈ opcodeNames, P op) (b : Byte) : P (opcodeAt b) :=
  h _ (List.get_mem _ _)

theorem addrMode_ne_max (b : Byte) : (opcodeAt b).addrMode ≠ .max :=
  forall_opcode (P := fun op => op.addrMode ≠ .max) (by decide +kernel) b

theorem exec_of_unknown (b : Byte) : (opcodeAt b).name = "XXX" → (opcodeAt b).exec = .nop :=
  forall_opcode (P := fun op => op.name = "XXX" → op.exec = .nop) (by decide +kernel) b

/-- No two documented opcodes share both the mnemonic and the mode. -/
theorem documented_pairwise :
    opcodeNames.Pairwise fun x y => x.addrMode ≠ y.addrMode ∨ x.name = "XXX" ∨ x.name ≠ y.name := by
  decide +kernel

theorem opcodeAt_inj {b b' : Byte} (hb : (opcodeAt b).name ≠ "XXX") (hname : (opcodeAt b').name = (opcodeAt b).name)
    (hmode : (opcodeAt b').addrMode = (opcodeAt b).addrMode) : b' = b := by
  have hlt : ∀ c c' : Byte, c.toNat < c'.toNat → (opcodeAt c).name ≠ "XXX" →
      (opcodeAt c).addrMode = (opcodeAt c').addrMode → (opcodeAt c).name ≠ (opcodeAt c').name := by
    intro c c' hcc hc hsame
    have hpair := List.pairwise_iff_getElem.mp documented_pairwise c.toNat c'.toNat (length_opcodeNames ▸ c.isLt)
      (length_opcodeNames ▸ c'.isLt) hcc
    exact (hpair.resolve_left (not_not_intro hsame)).resolve_left hc
  rcases Nat.lt_trichotomy b.toNat b'.toNat with h | h | h
  · exact absurd hname.symm (hlt b b' h hb hmode.symm)
  · exact (BitVec.eq_of_toNat_eq h).symm
  · exact absurd hname (hlt b' b h (hname ▸ hb) hmode)

example : opcodeAt 0x8C = ⟨"STY", .sty, .abx⟩ := rfl

end Bugnes.OpcodeTable
