import Bugnes.Memhooks

namespace Bugnes.CpuCore

open Words Memhooks

inductive ShortReg
  | invalid
  | sp
  | acc
  | x
  | y
  | cpu
deriving DecidableEq, Repr

structure ShortRegs where
  sp : Byte
  acc : Byte
  x : Byte
  y : Byte
  cpu : Byte
deriving DecidableEq, Repr

def flagC : Byte := 1#8 <<< 0
def flagZ : Byte := 1#8 <<< 1
def flagI : Byte := 1#8 <<< 2
def flagD : Byte := 1#8 <<< 3
def flagV : Byte := 1#8 <<< 6
def flagN : Byte := 1#8 <<< 7

def cpuAddrReservedStart : Word := 0xFFFA#16
def cpuAddrReset : Word := cpuAddrReservedStart + 2#16
def cpuAddrBreak : Word := cpuAddrReservedStart + 4#16

inductive EhType
  | brk
deriving DecidableEq, Repr

/-- The static variables of the CPU modules. A hook is named by its function
pointer `F`; what hooks keep outside the CPU is `world`. -/
structure Machine (F σ : Type) where
  regPc : Word
  shortRegs : ShortRegs
  mem : Word → Byte
  regPcBranched : Word
  allMh : AllMh F
  ehFunV : EhType → Option F
  world : σ

abbrev CpuM (F σ : Type) := StateT (Machine F σ) (Except Fault)

/-- What the function pointers do when they are called. -/
structure HookFuns (F σ : Type) where
  read : F → Word → CpuM F σ Byte
  write : F → Word → Byte → CpuM F σ Byte
  transl : F → Word → CpuM F σ Word
  exc : F → Word → String → CpuM F σ Unit

variable {F σ : Type}

def require (p : Prop) [Decidable p] : CpuM F σ Unit := fun m =>
  match assertThat p with
  | .ok _ => .ok ((), m)
  | .error e => .error e

section Memory

variable (hf : HookFuns F σ)

def translAddr (addr : Word) : CpuM F σ Word := do
  match check (← get).allMh .transl addr with
  | some f => hf.transl f addr
  | none => return addr

def memRead (addr : Word) : CpuM F σ Byte := do
  let addr ← translAddr hf addr
  match check (← get).allMh .read addr with
  | some f => hf.read f addr
  | none => return (← get).mem addr

/-- C leaves the order of the two reads open; the left operand comes first here. -/
def memRead16 (addr : Word) : CpuM F σ Word := do
  let msb ← memRead hf (addr + 1#16)
  let lsb ← memRead hf addr
  return wordOf lsb msb

def setMem (addr : Word) (v : Byte) : CpuM F σ Unit :=
  modify fun m => { m with mem := Function.update m.mem addr v }

def memWrite (addr : Word) (v : Byte) : CpuM F σ Unit := do
  let addr ← translAddr hf addr
  match check (← get).allMh .write addr with
  | none => setMem addr v
  | some f =>
      let stored ← hf.write f addr v
      setMem addr stored

/-- Straight to the array; `mem[addr+1]` is past its end for the last address. -/
def memWrite16 (addr v : Word) : CpuM F σ Unit := do
  setMem addr (loByte v)
  if addr.toNat + 1 < 0x10000 then
    setMem (addr + 1#16) (hiByte v)
  else
    throw .outOfBounds

def memInc (addr : Word) (v : Int) : CpuM F σ Unit := do
  let addr ← translAddr hf addr
  match check (← get).allMh .write addr with
  | none => setMem addr ((← get).mem addr + BitVec.ofInt 8 v)
  | some f =>
      let stored ← hf.write f addr ((← get).mem addr + BitVec.ofInt 8 v)
      setMem addr stored

def excepthookCheck (ehType : EhType) (excAddr : Word) (s : String) : CpuM F σ Unit := do
  match (← get).ehFunV ehType with
  | some hook => hf.exc hook excAddr s
  | none => return ()

end Memory

def ShortRegs.get (r : ShortRegs) : ShortReg → Byte
  | .invalid => 0
  | .sp => r.sp
  | .acc => r.acc
  | .x => r.x
  | .y => r.y
  | .cpu => r.cpu

def ShortRegs.set (r : ShortRegs) (v : Byte) : ShortReg → ShortRegs
  | .invalid => r
  | .sp => { r with sp := v }
  | .acc => { r with acc := v }
  | .x => { r with x := v }
  | .y => { r with y := v }
  | .cpu => { r with cpu := v }

def getSreg (reg : ShortReg) : CpuM F σ Byte := do return (← get).shortRegs.get reg

def setSreg (reg : ShortReg) (v : Byte) : CpuM F σ Unit :=
  modify fun m => { m with shortRegs := m.shortRegs.set v reg }

def getPc : CpuM F σ Word := do return (← get).regPc

def setPc (v : Word) : CpuM F σ Unit := modify fun m => { m with regPc := v }

def getFlag (flag : Byte) : CpuM F σ Bool := do return (← getSreg .cpu) &&& flag != 0

def setFlag (flag : Byte) (v : Bool) : CpuM F σ Unit := do
  let cpu ← getSreg .cpu
  setSreg .cpu (if v then cpu ||| flag else cpu &&& ~~~flag)

def stackAddr (i : Byte) : Word := 0x100#16 + i.setWidth 16

theorem toNat_stackAddr (i : Byte) : (stackAddr i).toNat = 256 + i.toNat := by
  have hi : i.toNat < 256 := i.isLt
  simp only [stackAddr, BitVec.toNat_add, BitVec.toNat_setWidth, BitVec.toNat_ofNat]
  omega

theorem stackAddr_injective : Function.Injective stackAddr := by
  intro i j h
  have hn := congrArg BitVec.toNat h
  rw [toNat_stackAddr, toNat_stackAddr] at hn
  exact BitVec.eq_of_toNat_eq (by omega)

theorem ne_stackAddr {a : Word} (h : 0x200 ≤ a.toNat) (i : Byte) : a ≠ stackAddr i := by
  intro heq
  have hi : i.toNat < 256 := i.isLt
  rw [heq, toNat_stackAddr] at h
  omega

def stackPop : CpuM F σ Byte := do
  setSreg .sp ((← getSreg .sp) + 1#8)
  return (← get).mem (stackAddr (← getSreg .sp))

def stackPop16 : CpuM F σ Word := do
  let lsb ← stackPop
  let msb ← stackPop
  return wordOf lsb msb

def stackPush (v : Byte) : CpuM F σ Unit := do
  let sp ← getSreg .sp
  setMem (stackAddr sp) v
  setSreg .sp (sp - 1#8)

def stackPush16 (v : Word) : CpuM F σ Unit := do
  let msb := hiByte v
  let lsb := loByte v
  stackPush msb
  stackPush lsb

end Bugnes.CpuCore
