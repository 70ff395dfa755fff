import Bugnes.Opcodes
import Bugnes.Disas

namespace Bugnes.Sfot

open Words Memhooks CpuCore Addr OpcodeTable Opcodes Disas

variable {F σ τ : Type} (hf : HookFuns F σ)

def atStartup (world : σ) : Machine F σ where
  regPc := 0
  shortRegs := ⟨0, 0, 0, 0, 0⟩
  mem _ := 0
  regPcBranched := 0
  allMh := empty
  ehFunV _ := none
  world := world

def opcodeGetName : CpuM F σ String := do return (opcodeAt (← memRead hf (← getPc))).name

def opcodeGetAddrMode : CpuM F σ AddrMode := do return (opcodeAt (← memRead hf (← getPc))).addrMode

def operandByte (i : Word) : CpuM F σ Byte := do
  if (← opcodeLen hf) > i then memRead hf ((← getPc) + i) else return 0#8

/-- The operand bytes with their number. The length is looked up three times. -/
def opcodeGetParams : CpuM F σ ((Byte × Byte) × Int) := do
  let byte1 ← operandByte hf 1#16
  let byte2 ← operandByte hf 2#16
  return ((byte1, byte2), (← opcodeLen hf).toNat - 1)

def collectStepInfo : CpuM F σ SfotStepInfo := do
  let name ← opcodeGetName hf
  let registers := (← get).shortRegs
  let pc ← getPc
  let mode ← opcodeGetAddrMode hf
  let (par, parN) ← opcodeGetParams hf
  -- `strncpy` of three characters into the cleared record
  let opcodeName := (name.toList.take 3).takeD 4 nul
  ofExcept (disassembleOpcode ⟨0, pc, registers, opcodeName, mode, parN, par, List.replicate 128 nul⟩)

abbrev StepCb (τ : Type) := SfotStepInfo → τ → Int × τ

def instruction : CpuM F σ Unit := do
  opcodeFetch hf
  opcodeExec hf

/-- One round of the loop of `cpu_thread`: whether the callback ended it. -/
def cpuStep (stepCb : Option (StepCb τ)) (t : τ) : CpuM F σ (Bool × τ) := do
  instruction hf
  match stepCb with
  | none => return (false, t)
  | some cb =>
      let info ← collectStepInfo hf
      return ((cb info t).1 ≠ 0, (cb info t).2)

def cpuThread (stepCb : Option (StepCb τ)) : Nat → τ → CpuM F σ (Bool × τ)
  | 0, t => return (false, t)
  | n + 1, t => do
      let (done, t) ← cpuStep hf stepCb t
      if done then return (true, t) else cpuThread stepCb n t

def sfotDoDma (addr : Word) (size : Word) : CpuM F σ (List Byte) :=
  (List.range size.toNat).mapM fun i => memRead hf (addr + BitVec.ofNat 16 i)

def sfotDoDmaTo (addr : Word) (dest : Int → Byte) (size : Word) : CpuM F σ (Int → Byte) :=
  (List.range size.toNat).foldlM (fun dest i => do
    return Function.update dest (i : Int) (← memRead hf (addr + BitVec.ofNat 16 i))) dest

/-- What a call of `read` comes back with: an error, or the bytes it delivered. -/
abbrev ReadOutcome := Option (List Byte)

def deliver (start : Int) (bytes : List Byte) (buf : Int → Byte) : Int → Byte := fun i =>
  if start ≤ i ∧ i < start + bytes.length then bytes.getD (i - start).toNat 0#8 else buf i

/-- The read loop: the bytes read and the buffer when it ends, `-1` where it
gives up, nothing while the outcomes do not yet end it. -/
def readLoop (offset len : Word) : List ReadOutcome → Int → (Int → Byte) → Option (Int × (Int → Byte))
  | [], _, _ => none
  | outcome :: rest, bytesRead, buf =>
      let buf := match outcome with
        | some bytes => deliver (offset.toNat + bytesRead) bytes buf
        | none => buf
      let bytesRead := bytesRead + match outcome with
        | some bytes => (bytes.length : Int)
        | none => -1
      if bytesRead < 0 then some (-1, buf)
      else if (len.toNat : Int) - bytesRead ≠ 0 then readLoop offset len rest bytesRead buf
      else some (bytesRead, buf)

def writeAll (offset len : Word) (buf : Int → Byte) : CpuM F σ Unit :=
  (List.range len.toNat).forM fun i =>
    memWrite hf (offset + BitVec.ofNat 16 i) (buf ((offset.toNat + i : Nat) : Int))

/-- The stack buffer has any content at first. Nothing is returned while the
read loop is not through. -/
def sfotLoad (fd : Int) (offset len : Word) (buf : Int → Byte) (reads : List ReadOutcome) :
    CpuM F σ (Option Int) :=
  if fd < 0 then return some (-1)
  else if offset.toNat + len.toNat > 0x10000 then return some (-1)
  else match readLoop offset len reads 0 buf with
    | none => return none
    | some (bytesRead, buf) => do
        if bytesRead < 0 then return some (-1)
        writeAll hf offset len buf
        require (bytesRead = len.toNat)
        return some bytesRead

/-- A string shorter than `len` is read past its end. -/
def sfotLoadStream (s : List Byte) (offset len : Word) : CpuM F σ Int := do
  if s.length < len.toNat then throw .outOfBounds
  writeAll hf offset len fun i => s.getD (i - offset.toNat).toNat 0#8
  return len.toNat

def sfotSetReset (val : Word) : CpuM F σ Unit := memWrite16 cpuAddrReset val

def sfotExcepthookInsert (ehType : EhType) (ehFun : Option F) : CpuM F σ Unit :=
  modify fun m => { m with ehFunV := Function.update m.ehFunV ehType ehFun }

def memhookInsert (mhType : MhType) (mhFun : Option F) (mhFunName : Option String) (addrStart addrEnd : Word) :
    CpuM F σ Int := do
  match Memhooks.insert mhType mhFun mhFunName addrStart addrEnd (← get).allMh with
  | .error e => throw e
  | .ok (code, table) =>
      modify fun m => { m with allMh := table }
      return code

theorem memhookInsert_run (ty : MhType) (f : Option F) (name : Option String) (s e : Word) (m : Machine F σ) :
    (memhookInsert ty f name s e : CpuM F σ Int).run m =
      (Memhooks.insert ty f name s e m.allMh).map fun r => (r.1, { m with allMh := r.2 }) := by
  rw [memhookInsert, StateT.run_bind, StateT.run_get, pure_eq_ok, ok_bind]
  cases Memhooks.insert ty f name s e m.allMh <;> rfl

/-- The memory and the short registers; the PC and the pending branch stay. -/
def coreClearAll : CpuM F σ Unit :=
  modify fun m => { m with mem := fun _ => 0#8, shortRegs := ⟨0, 0, 0, 0, 0⟩ }

def sfotExcepthookClear : CpuM F σ Unit := modify fun m => { m with ehFunV := fun _ => none }

def sfotMemhookClear : CpuM F σ Unit := modify fun m => { m with allMh := memhookClear m.allMh }

def onWorld {α : Type} (x : StateT σ (Except Fault) α) : CpuM F σ α := fun m => do
  let (a, w) ← x.run m.world
  return (a, { m with world := w })

theorem onWorld_run {α : Type} (x : StateT σ (Except Fault) α) (m : Machine F σ) :
    (onWorld x).run m = (x.run m.world).map fun r => (r.1, { m with world := r.2 }) := by
  change onWorld x m = _
  unfold onWorld
  cases x.run m.world <;> rfl

structure Emulator (F σ τ : Type) where
  cpu : Machine F σ
  stepCb : Option (StepCb τ)
  isPoweredOn : Bool

abbrev SfotM (F σ τ : Type) := StateT (Emulator F σ τ) (Except Fault)

def onCpu {α : Type} (x : CpuM F σ α) : SfotM F σ τ α := fun s => do
  let (a, m) ← x.run s.cpu
  return (a, { s with cpu := m })

theorem onCpu_run {α : Type} (x : CpuM F σ α) (s : Emulator F σ τ) :
    (onCpu x).run s = (x.run s.cpu).map fun r => (r.1, { s with cpu := r.2 }) := by
  change onCpu x s = _
  unfold onCpu
  cases x.run s.cpu <;> rfl

def sfotInstallStepCb (cb : Option (StepCb τ)) : SfotM F σ τ (Option (StepCb τ)) := do
  let oldCb := (← get).stepCb
  modify fun s => { s with stepCb := cb }
  return oldCb

def fetchReset : CpuM F σ Unit := do opcodeFetchStart (← memRead16 hf cpuAddrReset)

/-- In main mode the call comes back when the loop does; nothing is returned
while that takes more than the given rounds. -/
def sfotPoweron (rounds : Nat) (t : τ) : SfotM F σ τ (Option τ) := do
  if (← get).isPoweredOn then return some t
  onCpu (fetchReset hf)
  let (done, t) ← onCpu (cpuThread hf (← get).stepCb rounds t)
  if done then
    modify fun s => { s with isPoweredOn := true }
    return some t
  else return none

def sfotPoweroff : SfotM F σ τ Unit := do
  if !(← get).isPoweredOn then return ()
  onCpu coreClearAll
  onCpu sfotExcepthookClear
  onCpu sfotMemhookClear
  modify fun s => { s with stepCb := none, isPoweredOn := false }

end Bugnes.Sfot
