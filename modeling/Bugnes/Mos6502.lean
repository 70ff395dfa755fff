import Mathlib.Data.BitVec

namespace Bugnes.Mos6502

structure Flags where
  n : Bool
  v : Bool
  d : Bool
  i : Bool
  z : Bool
  c : Bool
deriving DecidableEq, Repr

def Flags.ofByte (b : BitVec 8) : Flags :=
  ⟨b.getLsbD 7, b.getLsbD 6, b.getLsbD 3, b.getLsbD 2, b.getLsbD 1, b.getLsbD 0⟩

/-- What PHP pushes, with both bits set that no flag stands behind. -/
def Flags.toByte (p : Flags) : BitVec 8 := BitVec.ofBoolListBE [p.n, p.v, true, true, p.d, p.i, p.z, p.c]

inductive Flag
  | n | v | d | i | z | c
deriving DecidableEq, Repr

def Flags.get (p : Flags) : Flag → Bool
  | .n => p.n | .v => p.v | .d => p.d | .i => p.i | .z => p.z | .c => p.c

def Flags.set (p : Flags) (b : Bool) : Flag → Flags
  | .n => { p with n := b } | .v => { p with v := b } | .d => { p with d := b }
  | .i => { p with i := b } | .z => { p with z := b } | .c => { p with c := b }

def Flags.describe (p : Flags) (value : BitVec 8) : Flags := { p with n := value.msb, z := decide (value = 0#8) }

structure Cpu where
  a : BitVec 8
  x : BitVec 8
  y : BitVec 8
  s : BitVec 8
  p : Flags
  pc : BitVec 16
  mem : BitVec 16 → BitVec 8

inductive Reg
  | a | x | y
deriving DecidableEq, Repr

inductive Mode
  | implied | accumulator | immediate | relative
  | zeroPage | zeroPageX | zeroPageY
  | absolute | absoluteX | absoluteY
  | indirect | indexedIndirect | indirectIndexed
deriving DecidableEq, Repr

inductive Op
  | ld (r : Reg) | st (r : Reg)
  | transfer (source dest : Reg) | tsx | txs
  | pha | php | pla | plp
  | and | eor | ora | bit
  | adc | sbc | compare (r : Reg)
  | inc | dec | increment (r : Reg) | decrement (r : Reg)
  | asl | lsr | rol | ror
  | jmp | jsr | rts
  | branch (flag : Flag) (taken : Bool)
  | put (flag : Flag) (b : Bool)
  | brk | nop | rti
deriving DecidableEq, Repr

def Mode.length : Mode → BitVec 16
  | .implied | .accumulator => 1
  | .immediate | .relative | .zeroPage | .zeroPageX | .zeroPageY | .indexedIndirect | .indirectIndexed => 2
  | .absolute | .absoluteX | .absoluteY | .indirect => 3

section Decode

def aluOps : List Op := [.ora, .and, .eor, .adc, .st .a, .ld .a, .compare .a, .sbc]
def aluModes : List Mode :=
  [.indexedIndirect, .zeroPage, .immediate, .absolute, .indirectIndexed, .zeroPageX, .absoluteY, .absoluteX]
def shiftOps : List Op := [.asl, .rol, .lsr, .ror, .st .x, .ld .x, .dec, .inc]
def implied8 : List Op := [.php, .plp, .pha, .pla, .decrement .y, .transfer .a .y, .increment .y, .increment .x]
def implied18 : List Op :=
  [.put .c false, .put .c true, .put .i false, .put .i true, .transfer .y .a, .put .v false, .put .d false, .put .d true]
def impliedA : List Op := [.transfer .x .a, .transfer .a .x, .decrement .x, .nop]
def branches : List Op :=
  [.branch .n false, .branch .n true, .branch .v false, .branch .v true,
    .branch .c false, .branch .c true, .branch .z false, .branch .z true]

/-- An opcode is `aaabbbcc`: `cc` and `bbb` give the column, `aaa` the row. -/
def decodeFields (aaa bbb cc : Nat) : Option (Op × Mode) :=
  match cc, bbb with
  | 0, 0 => [(.brk, .implied), (.jsr, .absolute), (.rti, .implied), (.rts, .implied)][aaa]?.or
      (if aaa = 5 then some (.ld .y, .immediate) else if aaa = 6 then some (.compare .y, .immediate)
        else if aaa = 7 then some (.compare .x, .immediate) else none)
  | 0, 1 => [none, some .bit, none, none, some (.st .y), some (.ld .y), some (.compare .y), some (.compare .x)][aaa]?.join.map
      (·, .zeroPage)
  | 0, 2 => implied8[aaa]?.map (·, .implied)
  | 0, 3 => if aaa = 3 then some (.jmp, .indirect) else
      [none, some .bit, some .jmp, none, some (.st .y), some (.ld .y), some (.compare .y), some (.compare .x)][aaa]?.join.map
        (·, .absolute)
  | 0, 4 => branches[aaa]?.map (·, .relative)
  | 0, 5 => if aaa = 4 then some (.st .y, .zeroPageX) else if aaa = 5 then some (.ld .y, .zeroPageX) else none
  | 0, 6 => implied18[aaa]?.map (·, .implied)
  | 0, 7 => if aaa = 5 then some (.ld .y, .absoluteX) else none
  | 1, _ => if aaa = 4 ∧ bbb = 2 then none else do return (← aluOps[aaa]?, ← aluModes[bbb]?)
  | 2, 0 => if aaa = 5 then some (.ld .x, .immediate) else none
  | 2, 1 => shiftOps[aaa]?.map (·, .zeroPage)
  | 2, 2 => if aaa < 4 then shiftOps[aaa]?.map (·, .accumulator) else impliedA[aaa - 4]?.map (·, .implied)
  | 2, 3 => shiftOps[aaa]?.map (·, .absolute)
  | 2, 5 => shiftOps[aaa]?.map (·, if aaa = 4 ∨ aaa = 5 then .zeroPageY else .zeroPageX)
  | 2, 6 => if aaa = 4 then some (.txs, .implied) else if aaa = 5 then some (.tsx, .implied) else none
  | 2, 7 => if aaa = 4 then none else shiftOps[aaa]?.map (·, if aaa = 5 then .absoluteY else .absoluteX)
  | _, _ => none

def decode (b : BitVec 8) : Option (Op × Mode) :=
  decodeFields (b.toNat / 32) (b.toNat / 4 % 8) (b.toNat % 4)

end Decode

def word (lo hi : BitVec 8) : BitVec 16 := BitVec.ofNat 16 (lo.toNat + 256 * hi.toNat)

def zp (b : BitVec 8) : BitVec 16 := b.setWidth 16

def outOfByte (i : Int) : Bool := i < -128 || 127 < i

def stackAt (s : BitVec 8) : BitVec 16 := 0x100#16 + s.setWidth 16

namespace Cpu

variable (s : Cpu)

def low : BitVec 8 := s.mem (s.pc + 1#16)

def operand : BitVec 16 := word s.low (s.mem (s.pc + 2#16))

/-- Indexing within page zero does not leave it. The pointer of an indirect jump
is read across the end of a page, which the NMOS part does not do. -/
def address : Mode → BitVec 16
  | .implied | .accumulator => 0
  | .immediate => s.pc + 1#16
  | .relative => s.pc + 2#16 + s.low.signExtend 16
  | .zeroPage => zp s.low
  | .zeroPageX => zp (s.low + s.x)
  | .zeroPageY => zp (s.low + s.y)
  | .absolute => s.operand
  | .absoluteX => s.operand + s.x.setWidth 16
  | .absoluteY => s.operand + s.y.setWidth 16
  | .indirect => word (s.mem s.operand) (s.mem (s.operand + 1#16))
  | .indexedIndirect => word (s.mem (zp (s.low + s.x))) (s.mem (zp (s.low + s.x + 1#8)))
  | .indirectIndexed => word (s.mem (zp s.low)) (s.mem (zp (s.low + 1#8))) + s.y.setWidth 16

def reg : Reg → BitVec 8
  | .a => s.a | .x => s.x | .y => s.y

def setReg (v : BitVec 8) : Reg → Cpu
  | .a => { s with a := v } | .x => { s with x := v } | .y => { s with y := v }

def load (r : Reg) (v : BitVec 8) : Cpu := { s.setReg v r with p := s.p.describe v }

def store (a : BitVec 16) (v : BitVec 8) : Cpu := { s with mem := Function.update s.mem a v }

def push (v : BitVec 8) : Cpu := { s.store (stackAt s.s) v with s := s.s - 1#8 }

def pushWord (v : BitVec 16) : Cpu := (s.push ((v >>> 8).setWidth 8)).push (v.setWidth 8)

/-- Addition in binary, as on a CPU that has no decimal mode. -/
def add (v : BitVec 8) : Cpu :=
  let sum := s.a + v + BitVec.ofNat 8 s.p.c.toNat
  { s with
    a := sum
    p := { s.p.describe sum with
      c := decide (256 ≤ s.a.toNat + v.toNat + s.p.c.toNat)
      v := outOfByte (s.a.toInt + v.toInt + s.p.c.toNat) } }

def comparison (r v : BitVec 8) : Cpu := { s with p := { s.p.describe (r - v) with c := decide (v ≤ r) } }

def shift (op : Op) (v : BitVec 8) : BitVec 8 × Bool :=
  match op with
  | .asl => (v <<< 1, v.msb)
  | .lsr => (v >>> 1, v.getLsbD 0)
  | .rol => (v <<< 1 ||| BitVec.ofNat 8 s.p.c.toNat, v.msb)
  | .ror => (v >>> 1 ||| BitVec.ofNat 8 s.p.c.toNat <<< 7, v.getLsbD 0)
  | _ => (v, s.p.c)

def shifting (op : Op) (m : Mode) (ea : BitVec 16) : Cpu :=
  if m = .accumulator then
    { s with a := (s.shift op s.a).1, p := { s.p.describe (s.shift op s.a).1 with c := (s.shift op s.a).2 } }
  else
    let r := s.shift op (s.mem ea)
    { s.store ea r.1 with p := { s.p.describe r.1 with c := r.2 } }

def exec (op : Op) (m : Mode) : Cpu :=
  let ea := s.address m
  let v := s.mem ea
  let t := { s with pc := s.pc + m.length }
  match op with
  | .ld r => t.load r v
  | .st r => t.store ea (s.reg r)
  | .transfer source dest => t.load dest (s.reg source)
  | .tsx => t.load .x s.s
  | .txs => { t with s := s.x }
  | .pha => t.push s.a
  | .php => t.push s.p.toByte
  | .pla => { t with s := s.s + 1#8 }.load .a (s.mem (stackAt (s.s + 1#8)))
  | .plp => { t with s := s.s + 1#8, p := Flags.ofByte (s.mem (stackAt (s.s + 1#8))) }
  | .and => t.load .a (s.a &&& v)
  | .eor => t.load .a (s.a ^^^ v)
  | .ora => t.load .a (s.a ||| v)
  | .bit => { t with p := { s.p with n := v.msb, v := v.getLsbD 6, z := decide (s.a &&& v = 0#8) } }
  | .adc => t.add v
  | .sbc => t.add (~~~v)
  | .compare r => t.comparison (s.reg r) v
  | .inc => { t.store ea (v + 1#8) with p := s.p.describe (v + 1#8) }
  | .dec => { t.store ea (v - 1#8) with p := s.p.describe (v - 1#8) }
  | .increment r => t.load r (s.reg r + 1#8)
  | .decrement r => t.load r (s.reg r - 1#8)
  | .asl | .lsr | .rol | .ror => t.shifting op m ea
  | .jmp => { t with pc := ea }
  | .jsr => { t.pushWord (s.pc + 2#16) with pc := ea }
  | .rts => { t with
      s := s.s + 1#8 + 1#8
      pc := word (s.mem (stackAt (s.s + 1#8))) (s.mem (stackAt (s.s + 1#8 + 1#8))) + 1#16 }
  | .branch flag taken => if s.p.get flag = taken then { t with pc := ea } else t
  | .put flag b => { t with p := s.p.set b flag }
  | .brk => { (t.pushWord (s.pc + 2#16)).push s.p.toByte with
      p := { s.p with i := true }
      pc := word (s.mem 0xFFFE#16) (s.mem 0xFFFF#16) }
  | .rti => { t with
      s := s.s + 1#8 + 1#8 + 1#8
      p := Flags.ofByte (s.mem (stackAt (s.s + 1#8)))
      pc := word (s.mem (stackAt (s.s + 1#8 + 1#8))) (s.mem (stackAt (s.s + 1#8 + 1#8 + 1#8))) }
  | .nop => t

/-- Nothing where the opcode is none of the documented ones. -/
def step : Option Cpu := (decode (s.mem s.pc)).map fun i => s.exec i.1 i.2

end Cpu

end Bugnes.Mos6502
