import Bugnes.PpuLoad
import Bugnes.Registration

namespace Bugnes.Simplenes

open Words Memhooks CpuCore PlainRuns Sfot Loading Ppu PpuLoad Registration

def ppuCr1Map : Word := 0x2000#16
def ppuCr2Map : Word := 0x2001#16
def ppuStatusMap : Word := 0x2002#16
def ppuMemAddrMap : Word := 0x2006#16
def ppuMemDataMap : Word := 0x2007#16
def ppuSpriteDmaMap : Word := 0x4014#16

def internalRamMirrorStart : Word := 0x0000#16
def internalRamMirrorStop : Word := 0x2000#16
def internalRamMirrorSize : Word := 0x0800#16

def mirror (addr start size : Word) : Word := addr % size + start

def mirrorInternalRam (addr : Word) : Except Fault Word := do
  assertThat (addr < internalRamMirrorStop)
  return mirror addr internalRamMirrorStart internalRamMirrorStop

inductive Hook
  | cr1Read
  | cr2Read
  | statusRead
  | memdataRead
  | cr1Write
  | cr2Write
  | memaddrWrite
  | memdataWrite
  | spriteDmaWrite
  | mirrorInternalRam
deriving DecidableEq, Repr

abbrev NesM := CpuM Hook PpuState

/-- The hooks that the reads of a DMA can come to. A pointer is never called
as what it was not registered as. -/
def readingFuns : HookFuns Hook PpuState where
  read
    | .cr1Read, addr => onWorld (ppuHookCr1Read addr)
    | .cr2Read, addr => onWorld (ppuHookCr2Read addr)
    | .statusRead, addr => onWorld (ppuHookStatusRead addr)
    | .memdataRead, addr => onWorld (ppuHookMemdataRead addr)
    | _, _ => return 0#8
  write _ _ v := return v
  transl
    | .mirrorInternalRam, addr => ofExcept (mirrorInternalRam addr)
    | _, addr => return addr
  exc _ _ _ := return ()

def hookSpriteDmaWrite (_addr : Word) (value : Byte) : NesM Byte := do
  let bytes ← sfotDoDma readingFuns (value.setWidth 16 <<< 8) 0x100#16
  onWorld (modify fun p => { p with spriteMem := fun i => bytes.getD i.toNat 0#8 })
  return value

def hookFuns : HookFuns Hook PpuState where
  read := readingFuns.read
  write
    | .cr1Write, addr, v => onWorld (ppuHookCr1Write addr v)
    | .cr2Write, addr, v => onWorld (ppuHookCr2Write addr v)
    | .memaddrWrite, addr, v => onWorld (ppuHookMemaddrWrite addr v)
    | .memdataWrite, addr, v => onWorld (ppuHookMemdataWrite addr v)
    | .spriteDmaWrite, addr, v => hookSpriteDmaWrite addr v
    | _, _, v => return v
  transl := readingFuns.transl
  exc := readingFuns.exc

def simple (f : Hook) (name : String) (addr : Word) : Memhook Hook := ⟨addr, addr + 1#16, some f, some name⟩

def readHooks : List (Memhook Hook) := [
  simple .cr1Read "PPU_hook_cr1_read" ppuCr1Map,
  simple .cr2Read "PPU_hook_cr2_read" ppuCr2Map,
  simple .statusRead "PPU_hook_status_read" ppuStatusMap,
  simple .memdataRead "PPU_hook_memdata_read" ppuMemDataMap]

def writeHooks : List (Memhook Hook) := [
  simple .cr1Write "PPU_hook_cr1_write" ppuCr1Map,
  simple .cr2Write "PPU_hook_cr2_write" ppuCr2Map,
  simple .memaddrWrite "PPU_hook_memaddr_write" ppuMemAddrMap,
  simple .memdataWrite "PPU_hook_memdata_write" ppuMemDataMap,
  simple .spriteDmaWrite "hook_sprite_dma_write" ppuSpriteDmaMap]

def translHooks : List (Memhook Hook) := [
  ⟨internalRamMirrorStart, internalRamMirrorStop, some .mirrorInternalRam, some "mirror_internal_ram"⟩]

def insertHooks : NesM Unit := do
  registerAll .read readHooks
  registerAll .write writeHooks
  registerAll .transl translHooks

def hookTable : AllMh Hook
  | .read => readHooks
  | .write => writeHooks
  | .transl => translHooks

theorem ascending_hookTable (ty : MhType) : Ascending (hookTable ty) := by
  cases ty with
  | read => exact ⟨by decide, by decide⟩
  | write => exact ⟨by decide, by decide⟩
  | transl => exact ⟨by decide, by decide⟩

theorem insertHooks_run {m : Machine Hook PpuState} (h : m.allMh = empty) :
    insertHooks.run m = .ok ((), { m with allMh := hookTable }) := by
  have htable : Function.update (Function.update (Function.update m.allMh .read readHooks) .write writeHooks)
      .transl translHooks = hookTable := by
    funext ty
    cases ty <;> rfl
  have hread : (registerAll .read readHooks).run m = _ :=
    registerAll_fresh (congrFun h .read) (ascending_hookTable .read)
  have hwrite : (registerAll .write writeHooks).run { m with allMh := Function.update m.allMh .read readHooks } = _ :=
    registerAll_fresh (congrFun h .write) (ascending_hookTable .write)
  have htransl : (registerAll .transl translHooks).run { m with
      allMh := Function.update (Function.update m.allMh .read readHooks) .write writeHooks } = _ :=
    registerAll_fresh (congrFun h .transl) (ascending_hookTable .transl)
  rw [insertHooks, StateT.run_bind, hread, ok_bind, StateT.run_bind, hwrite, ok_bind, htransl, ← htable]

/-- What `main` does up to some point of the loop. A load of the program that
gives up is not noticed; one of the VROM that does ends the process. Nothing
after a load happens while its reads are not through. -/
def runMain {τ : Type} (fd : Int) (garbage : Int → Byte) (reads : List ReadOutcome) (bytesRead : BitVec 32)
    (vromReads : List ReadOutcome) (cb : StepCb τ) (rounds : Nat) (t : τ) : NesM Bool := do
  match ← sfotLoad hookFuns fd 0xC000#16 0x4000#16 garbage reads with
  | none => return false
  | some _ =>
      match ← onWorld (ppuLoad fd bytesRead vromReads) with
      | none => return false
      | some loaded =>
          if loaded < 0 then return false
          else do
            insertHooks
            fetchReset hookFuns
            discard (cpuThread hookFuns (some cb) rounds t)
            return true

/-- The loads leave the loop as it is, or end the process before it. -/
theorem runMain_cases {τ : Type} {m : Machine Hook PpuState} (h : m.allMh = empty) (fd : Int) (garbage : Int → Byte)
    (reads : List ReadOutcome) (bytesRead : BitVec 32) (vromReads : List ReadOutcome) (cb : StepCb τ) (rounds : Nat)
    (t : τ) :
    (∃ m', (runMain fd garbage reads bytesRead vromReads cb rounds t).run m = .ok (false, m')) ∨
    ((ppuLoad fd bytesRead vromReads).run m.world = .error .outOfBounds ∧
      (runMain fd garbage reads bytesRead vromReads cb rounds t).run m = .error .outOfBounds) ∨
    ∃ mem vrom, (∀ a < 0xC000#16, mem a = m.mem a) ∧
      (runMain fd garbage reads bytesRead vromReads cb rounds t).run m =
        (do
          fetchReset hookFuns
          discard (cpuThread hookFuns (some cb) rounds t)
          return true : NesM Bool).run
          { m with mem := mem, allMh := hookTable, world := { m.world with memory := vrom } } := by
  have hfree (a : Word) : HookFreeAt m.allMh a := fun ty => by rw [h]; rfl
  obtain ⟨code, mem, hload, hkept⟩ := sfotLoad_hookFree hookFuns hfree fd 0xC000#16 0x4000#16 garbage reads
  have hbelow : ∀ a < 0xC000#16, mem a = m.mem a := by
    intro a ha
    refine hkept a fun i hi heq => ?_
    have hi' : i < 0x4000 := hi
    rw [heq, BitVec.lt_def, BitVec.toNat_add, BitVec.toNat_ofNat, BitVec.toNat_ofNat] at ha
    omega
  rw [runMain, StateT.run_bind, hload, ok_bind]
  cases code with
  | none => exact .inl ⟨_, rfl⟩
  | some code =>
      simp only [StateT.run_bind, onWorld_run]
      obtain hout | ⟨loaded, vrom, hvrom⟩ := ppuLoad_ends fd bytesRead vromReads m.world
      · rw [hout]
        exact .inr (.inl ⟨rfl, rfl⟩)
      · rw [hvrom]
        simp only [Except.map, ok_bind]
        cases loaded with
        | none => exact .inl ⟨_, rfl⟩
        | some loaded =>
            by_cases hneg : loaded < 0
            · simp only [if_pos hneg]
              exact .inl ⟨_, rfl⟩
            · have hinsert := insertHooks_run (m := { m with mem := mem, world := { m.world with memory := vrom } }) h
              simp only [if_neg hneg, StateT.run_bind, hinsert, ok_bind]
              exact .inr (.inr ⟨mem, vrom, hbelow, rfl⟩)

theorem runMain_game {τ : Type} {m : Machine Hook PpuState} (h : m.allMh = empty) {fd : Int} (hfd : 0 ≤ fd)
    {rom vrom : List Byte} (hrom : rom.length = 0x4000) (hvrom : vrom.length = 0x4000) (garbage : Int → Byte)
    (cb : StepCb τ) (rounds : Nat) (t : τ) :
    (runMain fd garbage [some rom] 0#32 [some vrom] cb rounds t).run m =
      (do
        fetchReset hookFuns
        discard (cpuThread hookFuns (some cb) rounds t)
        return true : NesM Bool).run
        { m with
          mem := withFile 0xC000#16 rom m.mem
          allMh := hookTable
          world := { m.world with memory := fun a => deliver 0 vrom (fun _ => m.world.memory a) a.toNat } } := by
  have hfree (a : Word) : HookFreeAt m.allMh a := fun ty => by rw [h]; rfl
  have hsize : (0xC000#16).toNat + (0x4000#16).toNat ≤ 0x10000 := by decide
  have hload := sfotLoad_once hookFuns hfree hfd hsize hrom garbage
  have hpos : ¬(ppuSize.toNat : Int) < 0 := by omega
  have hinsert := insertHooks_run (m := { m with
    mem := withFile 0xC000#16 rom m.mem
    world := { m.world with memory := fun a => deliver 0 vrom (fun _ => m.world.memory a) a.toNat } }) h
  rw [runMain, StateT.run_bind, hload, ok_bind]
  simp only [StateT.run_bind, onWorld_run, ppuLoad_once hfd hvrom, Except.map, ok_bind, if_neg hpos, hinsert]

end Bugnes.Simplenes
