import Mathlib.Logic.Function.Basic
import Bugnes.Words

namespace Bugnes.Ppu

open Words

inductive PpuReg
  | cr1
  | cr2
  | sr
deriving DecidableEq, Repr

def ppuSize : Word := 0x4000#16

/-- The static variables of the PPU modules. Of `memory` the cells below
`ppuSize` exist. -/
structure PpuState where
  spriteMem : Byte → Byte
  memaddrJustSetted : Bool
  memaddr : Word
  memory : Word → Byte
  setLower : Bool
  ppuRegs : PpuReg → Byte

abbrev PpuM := StateT PpuState (Except Fault)

def calculateMask (shift size : Nat) : Byte := BitVec.ofNat 8 ((1 <<< size - 1) <<< shift)

def ppuRegGet (reg : PpuReg) : PpuM Byte := do return (← get).ppuRegs reg

def ppuRegGetField (reg : PpuReg) (shift size : Nat) : PpuM Byte := do
  return ((← ppuRegGet reg) &&& calculateMask shift size) >>> shift

def ppuRegSet (reg : PpuReg) (v : Byte) : PpuM Unit :=
  modify fun p => { p with ppuRegs := Function.update p.ppuRegs reg v }

def cr1VerticalWriteShift : Nat := 2
def cr1VerticalWriteSize : Nat := 1

def vertical : PpuM Bool := do
  return (← ppuRegGetField .cr1 cr1VerticalWriteShift cr1VerticalWriteSize) != 0#8

/-- The address may rest at `ppuSize`: it is wrapped only past it. -/
def advance (increment : Word) : PpuM Unit :=
  modify fun p =>
    let memaddr := p.memaddr + increment
    { p with memaddr := if memaddr > ppuSize then memaddr % ppuSize else memaddr }

def memread : PpuM Byte := do
  let increment : Word := if ← vertical then 32#16 else 1#16
  let p ← get
  let ret := p.memory (p.memaddr % ppuSize)
  advance increment
  return ret

def memwrite (value : Byte) : PpuM Byte := do
  let increment : Word := if ← vertical then 32#16 else 1#16
  modify fun p => { p with memory := Function.update p.memory (p.memaddr &&& 0x3FFF#16) value }
  advance increment
  return value

def ppuHookCr1Read (_addr : Word) : PpuM Byte := ppuRegGet .cr1

def ppuHookCr1Write (_addr : Word) (value : Byte) : PpuM Byte := do
  ppuRegSet .cr1 value
  return value

def ppuHookCr2Read (_addr : Word) : PpuM Byte := ppuRegGet .cr2

def ppuHookCr2Write (_addr : Word) (value : Byte) : PpuM Byte := do
  ppuRegSet .cr2 value
  return value

def ppuHookStatusRead (_addr : Word) : PpuM Byte := return 0xC0#8

def ppuHookMemaddrWrite (_addr : Word) (value : Byte) : PpuM Byte := do
  modify fun p => { p with memaddrJustSetted := true }
  if (← get).setLower then
    modify fun p => { p with memaddr := (p.memaddr &&& 0xFF00#16) ||| value.setWidth 16, setLower := false }
  else
    modify fun p => { p with
      memaddr := (p.memaddr &&& 0x00FF#16) ||| ((value.setWidth 16 &&& 0x3F#16) <<< 8)
      setLower := true }
  return value

def ppuHookMemdataRead (_addr : Word) : PpuM Byte := do
  if (← get).memaddrJustSetted then
    modify fun p => { p with memaddrJustSetted := false }
    return 0#8
  memread

/-- What ends up in the CPU's memory behind the port is always zero. -/
def ppuHookMemdataWrite (_addr : Word) (value : Byte) : PpuM Byte := do
  discard (memwrite value)
  return 0#8

def powerUp (memory : Word → Byte) : PpuState :=
  { spriteMem := fun _ => 0#8
    memaddrJustSetted := false
    memaddr := 0#16
    memory := memory
    setLower := false
    ppuRegs := fun _ => 0#8 }

end Bugnes.Ppu
