import Bugnes.Devices
import Bugnes.PpuPort
import Bugnes.Simplenes

namespace Bugnes.PpuReplaced

open Words CpuCore Sfot Loading Ppu PpuLoad Registration Simplenes TwoMachines Devices PpuPort

variable {τ : Type}

/-- What takes the place of the PPU: the reference machine behind the port, and
the memory that a DMA fills. -/
structure RefPpu where
  port : Port
  spriteMem : Byte → Byte

def onPort (op : PortOp) : StateT RefPpu (Except Fault) Byte := fun q =>
  (portOp op q.port).map fun r => (r.1, { q with port := r.2 })

def refReadingFuns : HookFuns Hook RefPpu where
  read
    | .cr1Read, addr => onWorld (onPort (.cr1Read addr))
    | .cr2Read, addr => onWorld (onPort (.cr2Read addr))
    | .statusRead, _ => return 0xC0#8
    | .memdataRead, addr => onWorld (onPort (.dataRead addr))
    | _, _ => return 0#8
  write _ _ v := return v
  transl
    | .mirrorInternalRam, addr => ofExcept (mirrorInternalRam addr)
    | _, addr => return addr
  exc _ _ _ := return ()

def refSpriteDmaWrite (value : Byte) : CpuM Hook RefPpu Byte := do
  let bytes ← sfotDoDma refReadingFuns (value.setWidth 16 <<< 8) 0x100#16
  onWorld (modify fun q => { q with spriteMem := fun i => bytes.getD i.toNat 0#8 })
  return value

def refFuns : HookFuns Hook RefPpu where
  read := refReadingFuns.read
  write
    | .cr1Write, addr, v => onWorld (onPort (.cr1Write addr v))
    | .cr2Write, addr, v => onWorld (onPort (.cr2Write addr v))
    | .memaddrWrite, addr, v => onWorld (onPort (.addrWrite addr v))
    | .memdataWrite, addr, v => onWorld (onPort (.dataWrite addr v))
    | .spriteDmaWrite, _, v => refSpriteDmaWrite v
    | _, _, v => return v
  transl := refReadingFuns.transl
  exc := refReadingFuns.exc

def refReadInto (start : Int) (bytes : List Byte) : StateT RefPpu (Except Fault) Unit :=
  if bytes = [] ∨ 0 ≤ start ∧ start + bytes.length ≤ 0x4000 then
    modify fun q => { q with port := { q.port with
      memory := fun i => deliver start bytes (fun _ => q.port.memory i) i.toNat } }
  else throw .outOfBounds

def refLoadLoop : List ReadOutcome → Int → StateT RefPpu (Except Fault) (Option Int)
  | [], _ => return none
  | outcome :: rest, loaded => do
      refReadInto loaded (outcome.getD [])
      if loaded + count outcome < 0 then return some (-1)
      else if loaded + count outcome = 0x4000 then return some 0x4000
      else refLoadLoop rest (loaded + count outcome)

def refLoad (fd : Int) (loaded : BitVec 32) (reads : List ReadOutcome) : StateT RefPpu (Except Fault) (Option Int) :=
  if fd < 0 then return some (-1) else refLoadLoop reads loaded.toInt

/-- `main` with the PPU left open: what the callback keeps of the rounds, and
whether it ended them. `load` is the load of the VROM. -/
def mainOn {σ : Type} (hf : HookFuns Hook σ) (load : StateT σ (Except Fault) (Option Int)) (fd : Int)
    (garbage : Int → Byte) (reads : List ReadOutcome) (cb : StepCb τ) (rounds : Nat) (t : τ) :
    CpuM Hook σ (Option (Bool × τ)) := do
  match ← sfotLoad hf fd 0xC000#16 0x4000#16 garbage reads with
  | none => return none
  | some _ =>
      match ← onWorld load with
      | none => return none
      | some loaded =>
          if loaded < 0 then return none
          else do
            registerAll .read readHooks
            registerAll .write writeHooks
            registerAll .transl translHooks
            fetchReset hf
            return some (← cpuThread hf (some cb) rounds t)

theorem runMain_eq (fd : Int) (garbage : Int → Byte) (reads : List ReadOutcome) (bytesRead : BitVec 32)
    (vromReads : List ReadOutcome) (cb : StepCb τ) (rounds : Nat) (t : τ) :
    runMain fd garbage reads bytesRead vromReads cb rounds t =
      Option.isSome <$> mainOn hookFuns (ppuLoad fd bytesRead vromReads) fd garbage reads cb rounds t := by
  rw [runMain, mainOn, map_bind]
  refine congrArg _ (funext fun code => ?_)
  cases code with
  | none => simp
  | some _ =>
      simp only [map_bind]
      refine congrArg _ (funext fun loaded => ?_)
      cases loaded with
      | none => simp
      | some loaded =>
          by_cases hneg : loaded < 0
          · simp [hneg]
          · simp [hneg, insertHooks, discard_eq_bind]

/-- The PPU and what is put in its place, tied by the refinement of the port. -/
structure Tied (p : PpuState) (q : RefPpu) : Prop where
  port : Refines p q.port
  spriteMem : p.spriteMem = q.spriteMem

section Devices

variable {E : Fault → Prop}

theorem vertical_get : vertical = get >>= fun p => pure ((p.ppuRegs .cr1).getLsbD 2) :=
  StateT.ext vertical_run

theorem ppuOp_spriteMem {op : PortOp} {p p' : PpuState} {o : Byte} (h : ppuOp op p = .ok (o, p')) :
    p'.spriteMem = p.spriteMem := by
  cases op with
  | cr1Write | cr1Read | cr2Write | cr2Read =>
      cases h
      rfl
  | addrWrite a v =>
      cases hl : p.setLower <;> simp [ppuOp, hookOf, ppuHookMemaddrWrite, hl] at h <;> rw [← h.2]
  | dataWrite a v =>
      simp [ppuOp, hookOf, ppuHookMemdataWrite, memwrite, discard_eq_bind, vertical_get, advance] at h
      rw [← h.2]
  | dataRead a =>
      cases hd : p.memaddrJustSetted <;>
        simp [ppuOp, hookOf, ppuHookMemdataRead, memread, vertical_get, advance, hd] at h <;> rw [← h.2]

theorem hookOf_matches (op : PortOp) : Matches Tied E (hookOf op) (onPort op) := by
  intro p q h
  obtain ⟨o, port, hport⟩ := portOp_total op q.port
  obtain ⟨p', hp, hR⟩ := ppuOp_simulates op p q.port o port h.port hport
  have hq : (onPort op).run q = .ok (o, { q with port := port }) := congrArg (Except.map _) hport
  rw [show (hookOf op).run p = .ok (o, p') from hp, hq]
  exact ⟨rfl, hR, (ppuOp_spriteMem hp).trans h.spriteMem⟩

theorem ofExcept_matches {α : Type} {r : Except Fault α} (hE : ∀ e, E e) :
    Matches (SameCpu (F := Hook) Tied) E (ofExcept r) (ofExcept r) :=
  CpuTwoMachines.ReadsAlike.ofExcept fun _ _ => hE _

theorem reading_match (hE : ∀ e, E e) : DevicesMatch Tied E readingFuns refReadingFuns where
  read f a := by
    cases f with
    | cr1Read => exact onWorld_matches (hookOf_matches (.cr1Read a))
    | cr2Read => exact onWorld_matches (hookOf_matches (.cr2Read a))
    | memdataRead => exact onWorld_matches (hookOf_matches (.dataRead a))
    | _ => exact .pure _
  write _ _ _ := .pure _
  transl f a := by
    cases f with
    | mirrorInternalRam => exact ofExcept_matches hE
    | _ => exact .pure _
  exc _ _ _ := .pure _

theorem spriteDmaWrite_matches (hE : ∀ e, E e) (a : Word) (v : Byte) :
    Matches (SameCpu Tied) E (hookSpriteDmaWrite a v) (refSpriteDmaWrite v) := by
  refine ((reading_match hE).sfotDoDma _ _).bind fun bytes => ?_
  exact (onWorld_matches (.of_modify fun p q h => ⟨{ h.port with }, rfl⟩)).bind fun _ => .pure _

theorem devices_match (hE : ∀ e, E e) : DevicesMatch Tied E hookFuns refFuns where
  read := (reading_match hE).read
  write f a v := by
    cases f with
    | cr1Write => exact onWorld_matches (hookOf_matches (.cr1Write a v))
    | cr2Write => exact onWorld_matches (hookOf_matches (.cr2Write a v))
    | memaddrWrite => exact onWorld_matches (hookOf_matches (.addrWrite a v))
    | memdataWrite => exact onWorld_matches (hookOf_matches (.dataWrite a v))
    | spriteDmaWrite => exact spriteDmaWrite_matches hE a v
    | _ => exact .pure _
  transl := (reading_match hE).transl
  exc := (reading_match hE).exc

theorem readInto_matches (hE : E .outOfBounds) (start : Int) (bytes : List Byte) :
    Matches Tied E (PpuLoad.readInto start bytes) (refReadInto start bytes) := by
  refine .of_ite (.of_modify fun p q h => ⟨{ h.port with memory := fun i => ?_ }, h.spriteMem⟩) (.throw hE)
  have hi : (i.setWidth 16).toNat = i.toNat := by
    rw [BitVec.toNat_setWidth]
    omega
  simp only [hi, h.port.memory]

theorem loadLoop_matches (hE : E .outOfBounds) (reads : List ReadOutcome) (loaded : Int) :
    Matches Tied E (ppuReadLoop reads loaded) (refLoadLoop reads loaded) := by
  induction reads generalizing loaded with
  | nil => exact .pure _
  | cons outcome rest ih =>
      refine (readInto_matches hE loaded _).bind fun _ => .of_ite (.pure _) ?_
      have hsize : (ppuSize.toNat : Int) = 0x4000 := rfl
      by_cases hdone : loaded + count outcome = 0x4000
      · rw [if_neg (by omega), if_pos hdone, hdone]
        exact .pure _
      · rw [if_pos (by omega), if_neg hdone]
        exact ih _

theorem load_matches (hE : E .outOfBounds) (fd : Int) (loaded : BitVec 32) (reads : List ReadOutcome) :
    Matches Tied E (ppuLoad fd loaded reads) (refLoad fd loaded reads) :=
  .of_ite (.pure _) (loadLoop_matches hE reads _)

end Devices

/-- No program, and no callback that watches it, tells the PPU from the 14-bit
reference machine, however the VROM was read into it. -/
theorem ppu_replaced (fd : Int) (garbage : Int → Byte) (reads : List ReadOutcome) (bytesRead : BitVec 32)
    (vromReads : List ReadOutcome) (cb : StepCb τ) (rounds : Nat) (t : τ) (before : Word → Byte) :
    Agree (SameCpu Tied) (fun _ => True)
      ((mainOn hookFuns (ppuLoad fd bytesRead vromReads) fd garbage reads cb rounds t).run
        (atStartup (powerUp before)))
      ((mainOn refFuns (refLoad fd bytesRead vromReads) fd garbage reads cb rounds t).run
        (atStartup ⟨Port.powerUp fun i => before (i.setWidth 16), fun _ => 0#8⟩)) := by
  have hE : ∀ e : Fault, (fun _ => True) e := fun _ => trivial
  have hdev := devices_match hE
  have hall : Matches (SameCpu Tied) (fun _ => True)
      (mainOn hookFuns (ppuLoad fd bytesRead vromReads) fd garbage reads cb rounds t)
      (mainOn refFuns (refLoad fd bytesRead vromReads) fd garbage reads cb rounds t) := by
    refine (hdev.sfotLoad trivial _ _ _ _ _).bind fun code => ?_
    cases code with
    | none => exact .pure _
    | some _ =>
        refine (onWorld_matches (load_matches trivial fd bytesRead vromReads)).bind fun loaded => ?_
        cases loaded with
        | none => exact .pure _
        | some loaded =>
            refine .of_ite (.pure _) ?_
            refine (registerAll_matches hE _ _).bind fun _ => (registerAll_matches hE _ _).bind fun _ => ?_
            refine (registerAll_matches hE _ _).bind fun _ => hdev.fetchReset.bind fun _ => ?_
            exact (hdev.cpuThread trivial _ _ _).bind fun _ => .pure _
  have hpower : Tied (powerUp before) ⟨Port.powerUp fun i => before (i.setWidth 16), fun _ => 0#8⟩ :=
    ⟨⟨rfl, (by decide : 0 < 0x4100), rfl, rfl, rfl, rfl, fun _ => rfl⟩, rfl⟩
  exact hall _ _ ⟨rfl, rfl, rfl, rfl, rfl, rfl, hpower⟩

end Bugnes.PpuReplaced
