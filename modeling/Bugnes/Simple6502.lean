import Bugnes.Registration

namespace Bugnes.Simple6502

open Words Memhooks CpuCore Disas Sfot Registration

def screenHookOffset : Word := 0x200#16
def screenHookSize : Word := 0x400#16
def randomHookOffset : Word := 0xFE#16
def keyHookOffset : Word := 0xFF#16

def pixelSize : Nat := 8

abbrev Framebuffer := Fin 0x400 → Byte

/-- `random` is what the generator comes up with from now on. The event loop
sets the key code at any time, so `keycode` is what it holds at each look. -/
structure Screen where
  framebuffer : Framebuffer
  random : Nat → BitVec 64
  keycode : Nat → Byte

abbrev ScreenM := StateT Screen (Except Fault)

def screenMemhook (addr : Word) (color : Byte) : ScreenM Byte := do
  if h : 0x200 ≤ addr.toNat ∧ addr.toNat - 0x200 < 0x400 then
    modify fun w => { w with framebuffer := Function.update w.framebuffer ⟨addr.toNat - 0x200, h.2⟩ (color &&& 0xF#8) }
    return color &&& 0xF#8
  else throw .outOfBounds

def randomMemhook (_addr : Word) : ScreenM Byte := do
  let r := (← get).random 0
  modify fun w => { w with random := fun i => w.random (i + 1) }
  return (r &&& 0xFF#64).setWidth 8

def keycodeMemhook (_addr : Word) : ScreenM Byte := do
  let ret := (← get).keycode 0
  modify fun w => { w with keycode := fun i => w.keycode (i + 1) }
  return ret

inductive Hook
  | screenMemhook
  | randomMemhook
  | keycodeMemhook
  | excepthook
deriving DecidableEq, Repr

abbrev SimpleM := CpuM Hook Screen

/-- The exception hook ends the thread of the CPU, or the process. -/
def hookFuns : HookFuns Hook Screen where
  read
    | .randomMemhook, addr => onWorld (randomMemhook addr)
    | .keycodeMemhook, addr => onWorld (keycodeMemhook addr)
    | _, _ => return 0#8
  write
    | .screenMemhook, addr, v => onWorld (screenMemhook addr v)
    | _, _, v => return v
  transl _ addr := return addr
  exc
    | .excepthook, _, _ => throw .exited
    | _, _, _ => return ()

def readHooks : List (Memhook Hook) := [
  ⟨randomHookOffset, randomHookOffset + 1#16, some .randomMemhook, some "random_memhook"⟩,
  ⟨keyHookOffset, keyHookOffset + 1#16, some .keycodeMemhook, some "keycode_memhook"⟩]

def writeHooks : List (Memhook Hook) := [
  ⟨screenHookOffset, screenHookOffset + screenHookSize, some .screenMemhook, some "screen_memhook"⟩]

def insertHooks : SimpleM Unit := do
  registerAll .write writeHooks
  registerAll .read readHooks

def hookTable : AllMh Hook
  | .read => readHooks
  | .write => writeHooks
  | .transl => []

theorem ascending_hookTable (ty : MhType) : Ascending (hookTable ty) := by
  cases ty with
  | read => exact ⟨by decide, by decide⟩
  | write => exact ⟨by decide, by decide⟩
  | transl => exact ⟨by decide, by decide⟩

theorem insertHooks_run {m : Machine Hook Screen} (h : m.allMh = empty) :
    insertHooks.run m = .ok ((), { m with allMh := hookTable }) := by
  have htable : Function.update (Function.update m.allMh .write writeHooks) .read readHooks = hookTable := by
    funext ty
    cases ty with
    | transl => exact congrFun h .transl
    | _ => rfl
  have hwrite : (registerAll .write writeHooks).run m = _ :=
    registerAll_fresh (congrFun h .write) (ascending_hookTable .write)
  have hread : (registerAll .read readHooks).run { m with allMh := Function.update m.allMh .write writeHooks } = _ :=
    registerAll_fresh (congrFun h .read) (ascending_hookTable .read)
  rw [insertHooks, StateT.run_bind, hwrite, ok_bind, hread, ← htable]

/-- The walk over the screen memory of the ROM, black pixels left out. -/
def walkScreen (fbMemory : Int → Byte) : ScreenM Unit :=
  (List.range screenHookSize.toNat).forM fun i =>
    if fbMemory i = 0#8 then return ()
    else discard (screenMemhook (screenHookOffset + BitVec.ofNat 16 i) (fbMemory i))

def black (random : Nat → BitVec 64) (keycode : Nat → Byte) : Screen := ⟨fun _ => 0#8, random, keycode⟩

/-- What it prints goes to `out`, a line a step. -/
def stepCb : StepCb (List String) := fun info out =>
  (0, out ++ [String.ofList (info.opcodeDecoded.takeWhile (· ≠ nul))])

def readInto (outcome : ReadOutcome) (buf : Int → Byte) : Int → Byte :=
  match outcome with
  | some bytes => deliver 0 bytes buf
  | none => buf

/-- What `main` does up to some point of the loop of the CPU. Both buffers have
any content at first, and a read that fails is not noticed. -/
def runMain (fd : Int) (romsize : Nat) (buf fbMemory : Int → Byte) (reads : List ReadOutcome) (fbRead : ReadOutcome)
    (rounds : Nat) : SimpleM Bool := do
  if fd < 0 then return false
  match ← sfotLoad hookFuns fd 0#16 (BitVec.ofNat 16 romsize) buf reads with
  | none => return false
  | some _ =>
      sfotSetReset 0x600#16
      onWorld (walkScreen (readInto fbRead fbMemory))
      sfotExcepthookInsert .brk (some .excepthook)
      insertHooks
      fetchReset hookFuns
      discard (cpuThread hookFuns (some stepCb) rounds [])
      return true

structure Rgb where
  r : Byte
  g : Byte
  b : Byte
deriving DecidableEq, Repr

def colourOf (pixel : Byte) : Option Rgb :=
  match pixel.toNat with
  | 0x0 => some ⟨0, 0, 0⟩
  | 0x1 => some ⟨0xFF, 0xFF, 0xFF⟩
  | 0x2 => some ⟨0x88, 0, 0⟩
  | 0x3 => some ⟨0xAA, 0xFF, 0xEE⟩
  | 0x4 => some ⟨0xCC, 0x44, 0xCC⟩
  | 0x5 => some ⟨0, 0xCC, 0x55⟩
  | 0x6 => some ⟨0, 0, 0xAA⟩
  | 0x7 => some ⟨0xEE, 0xEE, 0x77⟩
  | 0x8 => some ⟨0xDD, 0x88, 0x55⟩
  | 0x9 => some ⟨0x66, 0x44, 0⟩
  | 0xA => some ⟨0xFF, 0x77, 0x77⟩
  | 0xB => some ⟨0x33, 0x33, 0x33⟩
  | 0xC => some ⟨0x77, 0x77, 0x77⟩
  | 0xD => some ⟨0xAA, 0xFF, 0x77⟩
  | 0xE => some ⟨0x00, 0x88, 0xFF⟩
  | 0xF => some ⟨0xBB, 0xBB, 0xBB⟩
  | _ => none

structure Pixel where
  x : Nat
  y : Nat
  rgb : Option Rgb
deriving DecidableEq, Repr

def pixel (i : Fin 0x400) (rgb : Option Rgb) : Pixel :=
  ⟨(i.val &&& 0x1F) * pixelSize, (i.val >>> 5) * pixelSize, rgb⟩

def updateFrom (framebuffer : Framebuffer) : Option Rgb → List (Fin 0x400) → List Pixel
  | _, [] => []
  | rgb, i :: is =>
      -- a pixel that no case matches is drawn in the colour of the one before
      let rgb := (colourOf (framebuffer i)).or rgb
      pixel i rgb :: updateFrom framebuffer rgb is

def screenUpdate (framebuffer : Framebuffer) : List Pixel := updateFrom framebuffer none (List.finRange 0x400)

end Bugnes.Simple6502
