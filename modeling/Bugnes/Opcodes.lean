import Bugnes.OpcodeTable

namespace Bugnes.Opcodes

open Words CpuCore Addr OpcodeTable

variable {F σ : Type} (hf : HookFuns F σ)

/-- The setter and getter of the pending branch: reading it sets it again. -/
def branchStatus (new : Word) : CpuM F σ Word := do
  let old := (← get).regPcBranched
  modify fun m => { m with regPcBranched := new }
  return old

def opcodeLen : CpuM F σ Word := do
  match (opcodeAt (← memRead hf (← getPc))).addrMode with
  | .imp | .acc => return 1#16
  | .imm | .zpa | .zpx | .zpy | .rel | .inx | .iny => return 2#16
  | .abs | .abx | .aby | .ind => return 3#16
  | .max => throw .assertion

def flagsUpdateBasicByValue (value : Byte) : CpuM F σ Unit := do
  if value = 0#8 then setFlag flagZ true else setFlag flagZ false
  if value.toInt < 0 then setFlag flagN true else setFlag flagN false

def flagsUpdateBasicByRegister (reg : ShortReg) : CpuM F σ Unit := do
  if reg = .cpu then return ()
  if reg = .sp then return ()
  flagsUpdateBasicByValue (← getSreg reg)

def flagsUpdateBasicByMem (addr : Word) : CpuM F σ Unit := do
  flagsUpdateBasicByValue (← memRead hf addr)

def flagsUpdateLogicOverflow (value : Byte) : CpuM F σ Unit := do
  if value &&& (1#8 <<< 6) ≠ 0#8 then setFlag flagV true

def int16 (i : Int) : Int := (BitVec.ofInt 16 i).toInt

def flagsUpdateArithOverflow (a b : Byte) (factor : Int) : CpuM F σ Unit := do
  require (factor.natAbs = 1)
  let longValue := int16 (a.toInt + int16 (b.toInt * factor))
  if longValue ≠ int16 (a.toInt + b.toInt * factor) then setFlag flagV true
  else setFlag flagV false

def flagsUpdateArithAdcCarry (a b : Byte) : CpuM F σ Unit := do
  let longValue := a.toNat + b.toNat + (← getFlag flagC).toNat
  if longValue > 255 then setFlag flagC true else setFlag flagC false

def flagsUpdateArithSbcCarry (a b : Byte) : CpuM F σ Unit := do
  let longValue : Int := a.toNat - b.toNat - (!(← getFlag flagC)).toNat
  if longValue < 0 then setFlag flagC false else setFlag flagC true

def flagsUpdateArithCmpCarry (a b : Byte) : CpuM F σ Unit := do
  if a ≥ b then setFlag flagC true else setFlag flagC false

def flagsUpdateShrotCarry (value : Byte) (direction fill : Int) : CpuM F σ Unit := do
  require (direction.natAbs = 1)
  require (fill = 0 ∨ fill = 1)
  setFlag flagC false
  if direction > 0 ∧ value &&& (1#8 <<< 7) ≠ 0#8 then setFlag flagC true
  if direction < 0 ∧ value &&& (1#8 <<< 0) ≠ 0#8 then setFlag flagC true

def asmReg2reg (dest source : ShortReg) : CpuM F σ Unit := do
  setSreg dest (← getSreg source)
  flagsUpdateBasicByRegister dest

def asmReg2mem (destAddr : Word) (source : ShortReg) : CpuM F σ Unit := do
  memWrite hf destAddr (← getSreg source)

def asmMem2reg (dest : ShortReg) (sourceAddr : Word) : CpuM F σ Unit := do
  setSreg dest (← memRead hf sourceAddr)
  flagsUpdateBasicByRegister dest

def asmReg2stack (source : ShortReg) : CpuM F σ Unit := do
  stackPush (← getSreg source)

def asmStack2reg (dest : ShortReg) : CpuM F σ Unit := do
  setSreg dest (← stackPop)
  flagsUpdateBasicByRegister dest

def asmPc2stack : CpuM F σ Unit := do
  stackPush16 ((← getPc) + 2#16)

/-- The PC is not set here: the next fetch finds the target. -/
def asmStack2pc : CpuM F σ Unit := do
  discard (branchStatus ((← stackPop16) + 1#16))

def asmMem2pc (addr : Word) (condition : Bool) : CpuM F σ Unit := do
  if condition then discard (branchStatus addr)

def asmIncMem (addr : Word) (inc : Int) : CpuM F σ Unit := do
  require (inc.natAbs = 1)
  memInc hf addr inc
  flagsUpdateBasicByMem hf addr

def asmIncReg (reg : ShortReg) (inc : Int) : CpuM F σ Unit := do
  require (inc.natAbs = 1)
  setSreg reg ((← getSreg reg) + BitVec.ofInt 8 inc)
  flagsUpdateBasicByRegister reg

def asmLogicAnd (reg : ShortReg) (value : Byte) : CpuM F σ Unit := do
  let result := (← getSreg reg) &&& value
  flagsUpdateBasicByValue result
  if reg = .invalid then flagsUpdateLogicOverflow result
  setSreg reg result

def asmLogicEor (reg : ShortReg) (value : Byte) : CpuM F σ Unit := do
  let result := (← getSreg reg) ^^^ value
  flagsUpdateBasicByValue (← getSreg reg)
  setSreg reg result

def asmLogicOra (reg : ShortReg) (value : Byte) : CpuM F σ Unit := do
  let result := (← getSreg reg) ||| value
  flagsUpdateBasicByValue (← getSreg reg)
  setSreg reg result

def asmArithAdd (dest source : ShortReg) (value : Byte) : CpuM F σ Unit := do
  let result := (← getSreg source) + value + BitVec.ofNat 8 (← getFlag flagC).toNat
  flagsUpdateBasicByValue result
  flagsUpdateArithAdcCarry (← getSreg source) value
  flagsUpdateArithOverflow (← getSreg source) value 1
  setSreg dest result

def asmArithSub (dest source : ShortReg) (value : Byte) : CpuM F σ Unit := do
  let mut result := (← getSreg source) - value
  if dest ≠ .invalid then result := result - BitVec.ofNat 8 (!(← getFlag flagC)).toNat
  flagsUpdateBasicByValue result
  if dest ≠ .invalid then
    flagsUpdateArithSbcCarry (← getSreg source) value
    flagsUpdateArithOverflow (← getSreg source) value (-1)
  else
    flagsUpdateArithCmpCarry (← getSreg source) value
  setSreg dest result

/-- The operand is in memory if and only if the address is a valid one. -/
def asmShrot (addr : Word) (reg : ShortReg) (direction fill : Int) : CpuM F σ Unit := do
  require (direction.natAbs = 1)
  require (fill = 0 ∨ fill = 1)
  let value ← if addrValid addr then memRead hf addr else getSreg reg
  flagsUpdateShrotCarry value direction fill
  let value := if direction > 0 then (value <<< 1) ||| BitVec.ofInt 8 fill
    else (value >>> 1) ||| BitVec.ofInt 8 (fill <<< (7 : Nat))
  if addrValid addr then
    memWrite hf addr value
    flagsUpdateBasicByMem hf addr
  else
    setSreg reg value
    flagsUpdateBasicByRegister reg

def asmBreak : CpuM F σ Unit := do
  excepthookCheck hf .brk (← getPc) "BRK"
  discard (branchStatus (← memRead16 hf cpuAddrBreak))

def asmLDA (m : AddrMode) : CpuM F σ Unit := do asmMem2reg hf .acc (← addr hf m)
def asmLDX (m : AddrMode) : CpuM F σ Unit := do asmMem2reg hf .x (← addr hf m)
def asmLDY (m : AddrMode) : CpuM F σ Unit := do asmMem2reg hf .y (← addr hf m)
def asmSTA (m : AddrMode) : CpuM F σ Unit := do asmReg2mem hf (← addr hf m) .acc
def asmSTX (m : AddrMode) : CpuM F σ Unit := do asmReg2mem hf (← addr hf m) .x
def asmSTY (m : AddrMode) : CpuM F σ Unit := do asmReg2mem hf (← addr hf m) .y

def asmTAX : CpuM F σ Unit := asmReg2reg .x .acc
def asmTAY : CpuM F σ Unit := asmReg2reg .y .acc
def asmTXA : CpuM F σ Unit := asmReg2reg .acc .x
def asmTYA : CpuM F σ Unit := asmReg2reg .acc .y

def asmTSX : CpuM F σ Unit := asmReg2reg .x .sp
def asmTXS : CpuM F σ Unit := asmReg2reg .sp .x
def asmPHA : CpuM F σ Unit := asmReg2stack .acc
def asmPHP : CpuM F σ Unit := asmReg2stack .cpu
def asmPLA : CpuM F σ Unit := asmStack2reg .acc
def asmPLP : CpuM F σ Unit := asmStack2reg .cpu

def asmAND (m : AddrMode) : CpuM F σ Unit := do asmLogicAnd .acc (← addrModeGetValue hf m)
def asmEOR (m : AddrMode) : CpuM F σ Unit := do asmLogicEor .acc (← addrModeGetValue hf m)
def asmORA (m : AddrMode) : CpuM F σ Unit := do asmLogicOra .acc (← addrModeGetValue hf m)
def asmBIT (m : AddrMode) : CpuM F σ Unit := do asmLogicAnd .invalid (← addrModeGetValue hf m)

def asmADC (m : AddrMode) : CpuM F σ Unit := do asmArithAdd .acc .acc (← addrModeGetValue hf m)
def asmSBC (m : AddrMode) : CpuM F σ Unit := do asmArithSub .acc .acc (← addrModeGetValue hf m)
def asmCMP (m : AddrMode) : CpuM F σ Unit := do asmArithSub .invalid .acc (← addrModeGetValue hf m)
def asmCPX (m : AddrMode) : CpuM F σ Unit := do asmArithSub .invalid .x (← addrModeGetValue hf m)
def asmCPY (m : AddrMode) : CpuM F σ Unit := do asmArithSub .invalid .y (← addrModeGetValue hf m)

def asmINC (m : AddrMode) : CpuM F σ Unit := do asmIncMem hf (← addr hf m) 1
def asmINX : CpuM F σ Unit := asmIncReg .x 1
def asmINY : CpuM F σ Unit := asmIncReg .y 1
def asmDEC (m : AddrMode) : CpuM F σ Unit := do asmIncMem hf (← addr hf m) (-1)
def asmDEX : CpuM F σ Unit := asmIncReg .x (-1)
def asmDEY : CpuM F σ Unit := asmIncReg .y (-1)

def asmASL (m : AddrMode) : CpuM F σ Unit := do asmShrot hf (← addr hf m) .acc 1 0
def asmLSR (m : AddrMode) : CpuM F σ Unit := do asmShrot hf (← addr hf m) .acc (-1) 0
def asmROL (m : AddrMode) : CpuM F σ Unit := do asmShrot hf (← addr hf m) .acc 1 (← getFlag flagC).toInt
def asmROR (m : AddrMode) : CpuM F σ Unit := do asmShrot hf (← addr hf m) .acc (-1) (← getFlag flagC).toInt

def asmJMP (m : AddrMode) : CpuM F σ Unit := do asmMem2pc (← addr hf m) true
/-- The return address minus one is pushed before the operand is read. -/
def asmJSR (m : AddrMode) : CpuM F σ Unit := do
  asmPc2stack
  asmMem2pc (← addr hf m) true
def asmRTS : CpuM F σ Unit := asmStack2pc

def asmBCC (m : AddrMode) : CpuM F σ Unit := do asmMem2pc (← addr hf m) (!(← getFlag flagC))
def asmBCS (m : AddrMode) : CpuM F σ Unit := do asmMem2pc (← addr hf m) (← getFlag flagC)
def asmBEQ (m : AddrMode) : CpuM F σ Unit := do asmMem2pc (← addr hf m) (← getFlag flagZ)
def asmBMI (m : AddrMode) : CpuM F σ Unit := do asmMem2pc (← addr hf m) (← getFlag flagN)
def asmBNE (m : AddrMode) : CpuM F σ Unit := do asmMem2pc (← addr hf m) (!(← getFlag flagZ))
def asmBPL (m : AddrMode) : CpuM F σ Unit := do asmMem2pc (← addr hf m) (!(← getFlag flagN))
def asmBVC (m : AddrMode) : CpuM F σ Unit := do asmMem2pc (← addr hf m) (!(← getFlag flagV))
def asmBVS (m : AddrMode) : CpuM F σ Unit := do asmMem2pc (← addr hf m) (← getFlag flagV)

def asmCLC : CpuM F σ Unit := setFlag flagC false
def asmCLD : CpuM F σ Unit := setFlag flagD false
def asmCLI : CpuM F σ Unit := setFlag flagI false
def asmCLV : CpuM F σ Unit := setFlag flagV false
def asmSEC : CpuM F σ Unit := setFlag flagC true
def asmSED : CpuM F σ Unit := setFlag flagD true
def asmSEI : CpuM F σ Unit := setFlag flagI true

def asmBRK : CpuM F σ Unit := asmBreak hf
def asmNOP : CpuM F σ Unit := pure ()
def asmRTI : CpuM F σ Unit := pure ()

def asm (f : AsmFun) (m : AddrMode) : CpuM F σ Unit :=
  match f with
  | .lda => asmLDA hf m
  | .ldx => asmLDX hf m
  | .ldy => asmLDY hf m
  | .sta => asmSTA hf m
  | .stx => asmSTX hf m
  | .sty => asmSTY hf m
  | .tax => asmTAX
  | .tay => asmTAY
  | .txa => asmTXA
  | .tya => asmTYA
  | .tsx => asmTSX
  | .txs => asmTXS
  | .pha => asmPHA
  | .php => asmPHP
  | .pla => asmPLA
  | .plp => asmPLP
  | .and => asmAND hf m
  | .eor => asmEOR hf m
  | .ora => asmORA hf m
  | .bit => asmBIT hf m
  | .adc => asmADC hf m
  | .sbc => asmSBC hf m
  | .cmp => asmCMP hf m
  | .cpx => asmCPX hf m
  | .cpy => asmCPY hf m
  | .inc => asmINC hf m
  | .inx => asmINX
  | .iny => asmINY
  | .dec => asmDEC hf m
  | .dex => asmDEX
  | .dey => asmDEY
  | .asl => asmASL hf m
  | .lsr => asmLSR hf m
  | .rol => asmROL hf m
  | .ror => asmROR hf m
  | .jmp => asmJMP hf m
  | .jsr => asmJSR hf m
  | .rts => asmRTS
  | .bcc => asmBCC hf m
  | .bcs => asmBCS hf m
  | .beq => asmBEQ hf m
  | .bmi => asmBMI hf m
  | .bne => asmBNE hf m
  | .bpl => asmBPL hf m
  | .bvc => asmBVC hf m
  | .bvs => asmBVS hf m
  | .clc => asmCLC
  | .cld => asmCLD
  | .cli => asmCLI
  | .clv => asmCLV
  | .sec => asmSEC
  | .sed => asmSED
  | .sei => asmSEI
  | .brk => asmBRK hf
  | .nop => asmNOP
  | .rti => asmRTI

def opcodeFetchStart (addr : Word) : CpuM F σ Unit := discard (branchStatus addr)

def opcodeFetch : CpuM F σ Unit := do
  let branch ← branchStatus invalidAddress
  let next ←
    if addrValid branch then pure branch
    else do
      let pc ← getPc
      let len ← opcodeLen hf
      pure (pc + len)
  require (next < cpuAddrReservedStart)
  setPc next

def opcodeExec : CpuM F σ Unit := do
  let op := opcodeAt (← memRead hf (← getPc))
  asm hf op.exec op.addrMode

end Bugnes.Opcodes
