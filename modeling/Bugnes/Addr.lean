import Bugnes.CpuCore

namespace Bugnes.Addr

open Words CpuCore

inductive AddrMode
  | imp
  | acc
  | imm
  | zpa
  | zpx
  | zpy
  | rel
  | abs
  | abx
  | aby
  | ind
  | inx
  | iny
  | max
deriving DecidableEq, Repr

def invalidAddress : Word := 0xFFFF#16

variable {F σ : Type} (hf : HookFuns F σ)

/-- The operand bytes are read in every mode, needed or not. -/
def addr (mode : AddrMode) : CpuM F σ Word := do
  let pc ← getPc
  let addr ← memRead16 hf (pc + 1#16)
  let addrZeroPage := (← memRead hf (pc + 1#16)).setWidth 16
  let relative := (← memRead hf (pc + 1#16)).signExtend 16
  match mode with
  | .imm => return pc + 1#16
  | .zpa => return addrZeroPage
  | .zpx => return addrZeroPage + (← getSreg .x).setWidth 16
  | .zpy => return addrZeroPage + (← getSreg .y).setWidth 16
  | .rel => return pc + 2#16 + relative
  | .abs => return addr
  | .abx => return addr + (← getSreg .x).setWidth 16
  | .aby => return addr + (← getSreg .y).setWidth 16
  | .ind => memRead16 hf addr
  | .inx => memRead16 hf (addrZeroPage + (← getSreg .x).setWidth 16)
  | .iny => return (← memRead16 hf addrZeroPage) + (← getSreg .y).setWidth 16
  | .imp | .acc | .max => return invalidAddress

def value (mode : AddrMode) : CpuM F σ Byte :=
  match mode with
  | .acc => getSreg .acc
  | _ => return 0#8

def addrValid (addr : Word) : Bool := addr != invalidAddress

def addrModeGetValue (mode : AddrMode) : CpuM F σ Byte := do
  if addrValid (← addr hf mode) then memRead hf (← addr hf mode) else value mode

end Bugnes.Addr
