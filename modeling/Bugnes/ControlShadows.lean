import Bugnes.CpuTwoRuns
import Bugnes.RamMirror

namespace Bugnes.ControlShadows

open Words Memhooks CpuCore Registers Addr OpcodeTable Opcodes PlainRuns Sfot Ppu Simplenes RamMirror TwoRuns
  CpuTwoMachines CpuTwoRuns

def mapOf : PpuReg → Word
  | .cr1 => ppuCr1Map
  | .cr2 => ppuCr2Map
  | .sr => ppuStatusMap

def withControl (reg : PpuReg) (v : Byte) (m : Machine Hook PpuState) : Machine Hook PpuState := { m with
  mem := Function.update m.mem (mapOf reg) v
  world := { m.world with ppuRegs := Function.update m.world.ppuRegs reg v } }

/-- The memory behind the two control registers holds what they hold. -/
structure Shadowed (m : Machine Hook PpuState) : Prop where
  memhooks : m.allMh = hookTable
  excepthooks : m.ehFunV = fun _ => none
  shadow : ∀ reg, reg ≠ .sr → m.mem (mapOf reg) = m.world.ppuRegs reg

section Ppu

/-- No hook but the ones of the control registers changes a register. -/
def RegsAre (r : PpuReg → Byte) (p : PpuState) : Prop := p.ppuRegs = r

variable {r : PpuReg → Byte}

abbrev KeepsRegs {α : Type} (x : PpuM α) : Prop := ∀ r, Respects (Along (RegsAre r)) (fun _ => True) x

theorem keepsRegs_modify {f : PpuState → PpuState} (h : ∀ p, (f p).ppuRegs = p.ppuRegs) :
    KeepsRegs (modify f : PpuM PUnit) := by
  refine fun r => .of_modify ?_
  rintro p _ ⟨rfl, hp⟩
  exact ⟨rfl, (h p).trans hp⟩

theorem keepsRegs_get {α : Type} {f : PpuState → PpuM α} (h : ∀ p, KeepsRegs (f p)) : KeepsRegs (get >>= f) :=
  fun r => .get_bind (fun p q hpq => by rw [hpq.1]) fun p => h p r

theorem keepsRegs_vertical : KeepsRegs vertical := by
  refine fun r => .bind ?_ fun _ => .pure _
  exact .bind (keepsRegs_get (fun p r => .pure _) r) fun _ => .pure _

theorem keepsRegs_advance (increment : Word) : KeepsRegs (advance increment) := keepsRegs_modify fun _ => rfl

theorem keepsRegs_memread : KeepsRegs memread := by
  refine fun r => (keepsRegs_vertical r).bind fun v => keepsRegs_get (fun p r => ?_) r
  exact (keepsRegs_advance _ r).bind fun _ => .pure _

theorem keepsRegs_memwrite (value : Byte) : KeepsRegs (memwrite value) := by
  refine fun r => (keepsRegs_vertical r).bind fun v => (keepsRegs_modify (by intro; rfl) r).bind fun _ => ?_
  exact (keepsRegs_advance _ r).bind fun _ => .pure _

theorem keepsRegs_memaddrWrite (a : Word) (v : Byte) : KeepsRegs (ppuHookMemaddrWrite a v) := by
  refine fun r => (keepsRegs_modify (by intro; rfl) r).bind fun _ => keepsRegs_get (fun p r => ?_) r
  exact .of_join (keepsRegs_modify (by intro; rfl) r) (keepsRegs_modify (by intro; rfl) r) fun _ => .pure _

theorem keepsRegs_memdataRead (a : Word) : KeepsRegs (ppuHookMemdataRead a) := by
  refine keepsRegs_get fun p r => .of_ite ?_ (keepsRegs_memread r)
  exact (keepsRegs_modify (by intro; rfl) r).bind fun _ => .pure _

theorem keepsRegs_memdataWrite (a : Word) (v : Byte) : KeepsRegs (ppuHookMemdataWrite a v) :=
  fun r => (keepsRegs_memwrite v r).of_discard.bind fun _ => .pure _

end Ppu

theorem checkList_simple {f : Hook} {name : String} {s a : Word} {rest : List (Memhook Hook)} (hs : s.toNat < 0xFFFF) :
    checkList a (simple f name s :: rest) = if a = s then some f else checkList a rest := by
  have hcover : s ≤ a ∧ a < s + 1#16 ↔ a = s := by bv_omega
  exact if_congr hcover rfl rfl

theorem check_write (a : Word) :
    check hookTable .write a =
      if a = ppuCr1Map then some .cr1Write
      else if a = ppuCr2Map then some .cr2Write
      else if a = ppuMemAddrMap then some .memaddrWrite
      else if a = ppuMemDataMap then some .memdataWrite
      else if a = ppuSpriteDmaMap then some .spriteDmaWrite
      else none := by
  rw [check, hookTable, writeHooks, checkList_simple (by decide), checkList_simple (by decide),
    checkList_simple (by decide), checkList_simple (by decide), checkList_simple (by decide), checkList]

theorem check_read_cr {reg : PpuReg} (h : reg ≠ .sr) :
    check hookTable .read (mapOf reg) = some (if reg = .cr1 then .cr1Read else .cr2Read) := by
  cases reg <;> first | rfl | exact absurd rfl h

def Held (r : PpuReg → Byte) (m : Machine Hook PpuState) : Prop := Shadowed m ∧ m.world.ppuRegs = r

section Machine

variable {m : Machine Hook PpuState} {r : PpuReg → Byte}

theorem keeps_of_held {α : Type} {x : NesM α} (h : ∀ r, Respects (Along (Held r)) (fun _ => True) x) :
    Keeps Shadowed x :=
  fun m hm _ _ hrun => (respects_along.mp (h m.world.ppuRegs) m ⟨hm, rfl⟩ _ _ hrun).1

theorem onWorld_keeps {α : Type} {x : PpuM α} (h : KeepsRegs x) :
    Respects (Along (Held r)) (fun _ => True) (onWorld x : NesM α) := by
  rintro m _ ⟨rfl, hm, hr⟩
  rw [onWorld_run]
  obtain ⟨a, p, _, hp, _, hR⟩ | ⟨e, he, _⟩ := (h r m.world m.world ⟨rfl, hr⟩).cases
  · rw [hp]
    have hregs : m.world.ppuRegs = p.ppuRegs := hr.trans hR.2.symm
    exact ⟨rfl, rfl, { hm with shadow := fun reg hreg => (hm.shadow reg hreg).trans (congrFun hregs reg) }, hR.2⟩
  · rw [he]
    exact ⟨rfl, trivial⟩

theorem setMem_keeps {a : Word} (h₁ : a ≠ ppuCr1Map) (h₂ : a ≠ ppuCr2Map) (v : Byte) :
    Respects (Along (Held r)) (fun _ => True) (setMem a v : NesM Unit) := by
  refine .of_modify ?_
  rintro m _ ⟨rfl, hm, hr⟩
  refine ⟨rfl, { hm with shadow := fun reg hreg => ?_ }, hr⟩
  have hne : mapOf reg ≠ a := by
    cases reg with
    | cr1 => exact h₁.symm
    | cr2 => exact h₂.symm
    | sr => exact absurd rfl hreg
  exact (Function.update_of_ne hne _ _).trans (hm.shadow reg hreg)

theorem translAddr_hooked (h : m.allMh = hookTable) (a : Word) : (translAddr hookFuns a).run m = .ok (a, m) := by
  by_cases ha : a < internalRamMirrorStop
  · exact translAddr_mirrored (h ▸ hookTable_mirrored) ha
  · have hnone : check hookTable .transl a = none := if_neg fun hcovers => ha hcovers.2
    simp [translAddr, h, hnone]

theorem translAddr_keeps (a : Word) : Respects (Along (Held r)) (fun _ => True) (translAddr hookFuns a) := by
  rintro m _ ⟨rfl, hm, hr⟩
  rw [translAddr_hooked hm.memhooks]
  exact ⟨rfl, rfl, hm, hr⟩

theorem memRead_keeps (a : Word) : Respects (Along (Held r)) (fun _ => True) (memRead hookFuns a) := by
  refine (translAddr_keeps a).bind fun a => .get_bind (fun m n h => by rw [h.1]) fun m => ?_
  cases check m.allMh .read a with
  | none => exact .get_bind (fun m n h => by rw [h.1]) fun _ => .pure _
  | some f =>
      cases f with
      | cr1Read | cr2Read => exact onWorld_keeps (keepsRegs_get fun _ _ => .pure _)
      | statusRead => exact onWorld_keeps fun _ => .pure _
      | memdataRead => exact onWorld_keeps (keepsRegs_memdataRead a)
      | _ => exact .pure _

theorem hookSpriteDmaWrite_keeps (a : Word) (v : Byte) :
    Respects (Along (Held r)) (fun _ => True) (hookSpriteDmaWrite a v) := by
  refine Respects.bind (.mapM fun _ _ => memRead_keeps _) fun bytes => ?_
  exact (onWorld_keeps (keepsRegs_modify (by intro; rfl))).bind fun _ => .pure _

theorem writeTo_control (hm : Shadowed m) {reg : PpuReg} (hreg : reg ≠ .sr) (v : Byte) :
    (writeTo hookFuns (mapOf reg) v).run m = .ok ((), withControl reg v m) := by
  cases reg with
  | cr1 =>
      have hc : check m.allMh .write ppuCr1Map = some .cr1Write := hm.memhooks ▸ rfl
      simp [writeTo, withControl, mapOf, hc, hookFuns, onWorld_run, ppuHookCr1Write, ppuRegSet, Except.map]
  | cr2 =>
      have hc : check m.allMh .write ppuCr2Map = some .cr2Write := hm.memhooks ▸ rfl
      simp [writeTo, withControl, mapOf, hc, hookFuns, onWorld_run, ppuHookCr2Write, ppuRegSet, Except.map]
  | sr => exact absurd rfl hreg

theorem mapOf_injective : Function.Injective mapOf := by
  intro x y h
  cases x <;> cases y <;> first | rfl | exact absurd h (by decide)

theorem Shadowed.set (hm : Shadowed m) {reg : PpuReg} (hreg : reg ≠ .sr) (v : Byte) :
    Shadowed (withControl reg v m) where
  memhooks := hm.memhooks
  excepthooks := hm.excepthooks
  shadow reg' hreg' := by
    by_cases h : reg' = reg
    · subst h
      simp [withControl]
    · simp [withControl, h, mapOf_injective.ne h, hm.shadow reg' hreg']

theorem write_respects {f : Hook} (h₁ : f ≠ .cr1Write) (h₂ : f ≠ .cr2Write) (a : Word) (v : Byte) :
    Respects (Along (Held r)) (fun _ => True) (hookFuns.write f a v) := by
  cases f with
  | cr1Write => exact absurd rfl h₁
  | cr2Write => exact absurd rfl h₂
  | memaddrWrite => exact onWorld_keeps (keepsRegs_memaddrWrite a v)
  | memdataWrite => exact onWorld_keeps (keepsRegs_memdataWrite a v)
  | spriteDmaWrite => exact hookSpriteDmaWrite_keeps a v
  | _ => exact .pure _

theorem check_write_other {a : Word} (h₁ : a ≠ ppuCr1Map) (h₂ : a ≠ ppuCr2Map) {f : Hook}
    (hc : check hookTable .write a = some f) : f ≠ .cr1Write ∧ f ≠ .cr2Write := by
  rw [check_write, if_neg h₁, if_neg h₂] at hc
  split_ifs at hc <;> cases hc <;> decide

theorem writeTo_keeps (a : Word) (v : Byte) : Keeps Shadowed (writeTo hookFuns a v) := by
  have hcontrol : ∀ reg, reg ≠ .sr → Keeps Shadowed (writeTo hookFuns (mapOf reg) v) := by
    intro reg hreg m hm _ m' hrun
    rw [writeTo_control hm hreg] at hrun
    cases hrun
    exact hm.set hreg v
  by_cases h₁ : a = ppuCr1Map
  · exact h₁ ▸ hcontrol .cr1 (by decide)
  by_cases h₂ : a = ppuCr2Map
  · exact h₂ ▸ hcontrol .cr2 (by decide)
  intro m hm _ m' hrun
  cases hc : check m.allMh .write a with
  | none =>
      have heq : (writeTo hookFuns a v).run m = (setMem a v : NesM Unit).run m := by simp [writeTo, hc]
      exact keeps_of_held (fun r => setMem_keeps h₁ h₂ v) m hm _ m' (heq ▸ hrun)
  | some f =>
      have hf := check_write_other h₁ h₂ (hm.memhooks ▸ hc)
      have heq : (writeTo hookFuns a v).run m = (hookFuns.write f a v >>= fun stored => setMem a stored).run m := by
        simp [writeTo, hc]
      exact keeps_of_held (fun r => (write_respects hf.1 hf.2 a v).bind fun stored => setMem_keeps h₁ h₂ stored)
        m hm _ m' (heq ▸ hrun)

theorem shadowed_invariant : Invariant hookFuns Shadowed where
  regs _ hm _ := { hm with }
  control _ hm _ _ := { hm with }
  push _ hm i v := { hm with
    shadow := fun reg hreg =>
      (Function.update_of_ne (ne_stackAddr (by cases reg <;> decide) i) _ _).trans (hm.shadow reg hreg) }
  transl a := keeps_of_held fun _ => translAddr_keeps a
  read a := keeps_of_held fun _ => memRead_keeps a
  write := writeTo_keeps
  exc ty a s m hm _ m' hrun := by
    simp [excepthookCheck, hm.excepthooks] at hrun
    exact hrun ▸ hm

theorem memRead_control (hm : Shadowed m) {reg : PpuReg} (hreg : reg ≠ .sr) :
    (memRead hookFuns (mapOf reg)).run m = .ok (m.world.ppuRegs reg, m) := by
  have hc : check m.allMh .read (mapOf reg) = _ := hm.memhooks ▸ check_read_cr hreg
  have hread : hookFuns.read (if reg = .cr1 then .cr1Read else .cr2Read) (mapOf reg) = onWorld (ppuRegGet reg) := by
    cases reg <;> first | rfl | exact absurd rfl hreg
  simp [memRead, translAddr_hooked hm.memhooks, hc, hread, onWorld_run, ppuRegGet, Except.map]

theorem memInc_control (hm : Shadowed m) {reg : PpuReg} (hreg : reg ≠ .sr) (d : Int) :
    (memInc hookFuns (mapOf reg) d).run m =
      .ok ((), withControl reg (m.world.ppuRegs reg + BitVec.ofInt 8 d) m) := by
  rw [memInc_eq, StateT.run_bind, translAddr_hooked hm.memhooks, ok_bind, StateT.run_bind, StateT.run_get, pure_eq_ok,
    ok_bind, writeTo_control hm hreg, hm.shadow reg hreg]

theorem asmIncMem_control (hm : Shadowed m) {reg : PpuReg} (hreg : reg ≠ .sr) {d : Int} (hd : d.natAbs = 1) :
    ∃ m', (asmIncMem hookFuns (mapOf reg) d).run m = .ok ((), m') ∧
      m'.world.ppuRegs reg = m.world.ppuRegs reg + BitVec.ofInt 8 d := by
  let stepped := withControl reg (m.world.ppuRegs reg + BitVec.ofInt 8 d) m
  have hread : (memRead hookFuns (mapOf reg)).run stepped = .ok (stepped.world.ppuRegs reg, stepped) :=
    memRead_control (hm.set hreg _) hreg
  have hrun : (asmIncMem hookFuns (mapOf reg) d).run m =
      .ok ((), { stepped with shortRegs := nz (stepped.world.ppuRegs reg) stepped.shortRegs }) := by
    rw [asmIncMem, StateT.run_bind, require_run hd, ok_bind, StateT.run_bind, memInc_control hm hreg, ok_bind,
      flagsUpdateBasicByMem, StateT.run_bind, hread, ok_bind, flagsUpdateBasicByValue_run]
  exact ⟨_, hrun, Function.update_self ..⟩

theorem held_reading : CpuTwoRuns.Reading hookFuns (Along (Held r)) fun _ => True where
  pc _ _ hR := by rw [hR.1]
  regs _ _ hR := by rw [hR.1]
  read := memRead_keeps

theorem opcodeFetch_keeps : Respects (Along (Held r)) (fun _ => True) (opcodeFetch hookFuns) := by
  have halike := held_reading (r := r).alike
  have hbranch : Respects (Along (Held r)) (fun _ => True) (branchStatus invalidAddress : NesM Word) := by
    rintro m _ ⟨rfl, hm, hr⟩
    rw [branchStatus_run]
    exact ⟨rfl, rfl, { hm with }, hr⟩
  have hset (next : Word) : Respects (Along (Held r)) (fun _ => True)
      (require (next < cpuAddrReservedStart) >>= fun _ => setPc next : NesM Unit) := by
    refine (respects_iff.mpr (matches_require_or trivial _)).bind fun _ => .of_modify ?_
    rintro m _ ⟨rfl, hm, hr⟩
    exact ⟨rfl, { hm with }, hr⟩
  refine hbranch.bind fun branch => .of_ite ((Respects.pure branch).bind hset) ?_
  refine (respects_iff.mpr halike.getPc).bind fun pc => (respects_iff.mpr halike.opcodeLen).bind fun len => ?_
  exact (Respects.pure (pc + len)).bind hset

/-- The next instruction and its effective address, as the loop comes to them. -/
def nextAccess : NesM (AsmFun × Word) := do
  opcodeFetch hookFuns
  let op := opcodeAt (← memRead hookFuns (← getPc))
  return (op.exec, ← addr hookFuns op.addrMode)

def NextIs (m : Machine Hook PpuState) (f : AsmFun) (ea : Word) : Prop :=
  (nextAccess.run m).map Prod.fst = .ok (f, ea)

theorem instruction_next (hm : Shadowed m) {f : AsmFun} {ea : Word} {body : Word → NesM Unit}
    (hbody : ∀ mode, asm hookFuns f mode = addr hookFuns mode >>= body) (h : NextIs m f ea) :
    ∃ m', Shadowed m' ∧ m'.world.ppuRegs = m.world.ppuRegs ∧ (instruction hookFuns).run m = (body ea).run m' := by
  cases hnext : nextAccess.run m with
  | error e =>
      rw [NextIs, hnext] at h
      cases h
  | ok s =>
      obtain ⟨⟨_, _⟩, m₃⟩ := s
      rw [NextIs, hnext] at h
      cases h
      obtain ⟨_, m₁, hfetch, hnext⟩ := bind_run_iff.mp hnext
      obtain ⟨_, _, hpc, hnext⟩ := bind_run_iff.mp hnext
      cases hpc
      obtain ⟨b, m₂, hread, hnext⟩ := bind_run_iff.mp hnext
      obtain ⟨_, _, haddr, hnext⟩ := bind_run_iff.mp hnext
      cases hnext
      have h₁ := respects_along.mp (opcodeFetch_keeps (r := m.world.ppuRegs)) m ⟨hm, rfl⟩ _ _ hfetch
      have h₂ := respects_along.mp (memRead_keeps (r := m.world.ppuRegs) _) m₁ h₁ _ _ hread
      have h₃ := respects_along.mp (held_reading (r := m.world.ppuRegs).addr _) m₂ h₂ _ _ haddr
      have hasm : (asm hookFuns (opcodeAt b).exec (opcodeAt b).addrMode).run m₂ = (body ea).run m₃ := by
        rw [hbody, StateT.run_bind, haddr, ok_bind]
      refine ⟨m₃, h₃.1, h₃.2, ?_⟩
      rw [instruction, StateT.run_bind, hfetch, ok_bind, opcodeExec, StateT.run_bind, getPc_run, ok_bind,
        StateT.run_bind, hread, ok_bind]
      exact hasm

theorem instruction_steps (hm : Shadowed m) {reg : PpuReg} (hreg : reg ≠ .sr) {f : AsmFun} {d : Int}
    (hd : d.natAbs = 1) (hf : ∀ mode, asm hookFuns f mode = addr hookFuns mode >>= fun ea => asmIncMem hookFuns ea d)
    (h : NextIs m f (mapOf reg)) :
    ∃ m', (instruction hookFuns).run m = .ok ((), m') ∧
      m'.world.ppuRegs reg = m.world.ppuRegs reg + BitVec.ofInt 8 d := by
  obtain ⟨m₁, hm₁, hregs, hrun⟩ := instruction_next hm hf h
  rw [hrun, ← hregs]
  exact asmIncMem_control hm₁ hreg hd

theorem instruction_loads (hm : Shadowed m) {reg : PpuReg} (hreg : reg ≠ .sr) (h : NextIs m .lda (mapOf reg)) :
    ∃ m', (instruction hookFuns).run m = .ok ((), m') ∧ m'.shortRegs.get .acc = m.world.ppuRegs reg := by
  obtain ⟨m₁, hm₁, hregs, hrun⟩ := instruction_next hm (fun _ => rfl) h
  rw [hrun, asmMem2reg, StateT.run_bind, memRead_control hm₁ hreg, ok_bind, setSreg_load_run _ _ (.inl rfl), hregs]
  exact ⟨_, rfl, rfl⟩

end Machine

theorem runMain_shadowed {τ : Type} {fd : Int} {garbage : Int → Byte} {reads vromReads : List ReadOutcome}
    {bytesRead : BitVec 32} {cb : StepCb τ} {rounds : Nat} {t : τ} {m : Machine Hook PpuState}
    (h : (runMain fd garbage reads bytesRead vromReads cb rounds t).run (atStartup (powerUp fun _ => 0)) =
      .ok (true, m)) : Shadowed m := by
  obtain ⟨m', hrun⟩ | ⟨-, hrun⟩ | ⟨mem, vrom, hbelow, hrun⟩ :=
    runMain_cases (m := atStartup (powerUp fun _ => 0)) rfl fd garbage reads bytesRead vromReads cb rounds t
  · rw [hrun] at h
    cases h
  · rw [hrun] at h
    cases h
  · rw [hrun] at h
    refine shadowed_invariant.fromReset (some cb) rounds t _ ⟨rfl, rfl, fun reg hreg => ?_⟩ true m h
    exact hbelow _ (by cases reg <;> decide)

/-- After any number of instructions the hooks are in place and the memory behind
the control registers holds their values, so that the instructions that come to
them step them by one and read them as they were set. -/
theorem control_shadows {τ : Type} {fd : Int} {garbage : Int → Byte} {reads vromReads : List ReadOutcome}
    {bytesRead : BitVec 32} {cb : StepCb τ} {rounds : Nat} {t : τ} {m : Machine Hook PpuState}
    (h : (runMain fd garbage reads bytesRead vromReads cb rounds t).run (atStartup (powerUp fun _ => 0)) =
      .ok (true, m)) :
    m.allMh = hookTable ∧ m.mem 0x2000 = m.world.ppuRegs .cr1 ∧ m.mem 0x2001 = m.world.ppuRegs .cr2 ∧
      ∀ reg, reg ≠ .sr →
        (NextIs m .inc (mapOf reg) → ∃ m', (instruction hookFuns).run m = .ok ((), m') ∧
          m'.world.ppuRegs reg = m.world.ppuRegs reg + 1#8) ∧
        (NextIs m .dec (mapOf reg) → ∃ m', (instruction hookFuns).run m = .ok ((), m') ∧
          m'.world.ppuRegs reg = m.world.ppuRegs reg - 1#8) ∧
        (NextIs m .lda (mapOf reg) → ∃ m', (instruction hookFuns).run m = .ok ((), m') ∧
          m'.shortRegs.get .acc = m.world.ppuRegs reg) ∧
        (memRead hookFuns (mapOf reg)).run m = .ok (m.world.ppuRegs reg, m) ∧
        ∀ v, ∃ m', (memWrite hookFuns (mapOf reg) v).run m = .ok ((), m') ∧
          (memRead hookFuns (mapOf reg)).run m' = .ok (v, m') := by
  have hm := runMain_shadowed h
  refine ⟨hm.memhooks, hm.shadow .cr1 (by decide), hm.shadow .cr2 (by decide), fun reg hreg =>
    ⟨instruction_steps hm hreg (d := 1) rfl fun _ => rfl, fun hnext => ?_, instruction_loads hm hreg,
      memRead_control hm hreg, fun v => ?_⟩⟩
  · obtain ⟨m', hrun, hdec⟩ := instruction_steps hm hreg (d := -1) rfl (fun _ => rfl) hnext
    refine ⟨m', hrun, ?_⟩
    rw [hdec, BitVec.sub_eq_add_neg]
    rfl
  · refine ⟨withControl reg v m, ?_, ?_⟩
    · rw [memWrite_eq, StateT.run_bind, translAddr_hooked hm.memhooks, ok_bind, writeTo_control hm hreg]
    · have hset : (withControl reg v m).world.ppuRegs reg = v := Function.update_self ..
      have hread := memRead_control (hm.set hreg v) hreg
      rwa [hset] at hread

/-- The reset vector and, where it points, `LDA #$07`, `STA $2000`, `INC $2000`. -/
def countingByte (i : Nat) : Byte :=
  if i = 0x3FFD then 0xC0#8 else [0xA9, 0x07, 0x8D, 0x00, 0x20, 0xEE, 0x00, 0x20].getD i 0#8

def countingRom : List Byte := (List.range 0x4000).map countingByte

def counting : Machine Hook PpuState := { atStartup (powerUp fun _ => 0) with
  mem := fun a => if (a - 0xC000#16).toNat < 0x4000 then countingByte (a - 0xC000#16).toNat else 0
  allMh := hookTable
  world := { (powerUp fun _ => 0) with memory := fun a => deliver 0 PpuLoad.rom (fun _ => 0) a.toNat } }

theorem counting_starts (rounds : Nat) :
    (runMain 3 (fun _ => 0) [some countingRom] 0 [some PpuLoad.rom] (fun _ _ => (0, ())) rounds ()).run
      (atStartup (powerUp fun _ => 0)) =
        (do
          fetchReset hookFuns
          discard (cpuThread hookFuns (some fun _ _ => (0, ())) rounds ())
          return true : NesM Bool).run counting := by
  have hlen : countingRom.length = 0x4000 := by rw [countingRom, List.length_map, List.length_range]
  refine (runMain_game rfl (by decide) hlen PpuLoad.rom_length _ _ _ _).trans ?_
  rw [countingRom, Loading.withFile_map_range]
  rfl

theorem counting_runs : ∃ m,
    (runMain 3 (fun _ => 0) [some countingRom] 0 [some PpuLoad.rom] (fun _ _ => (0, ())) 2 ()).run
      (atStartup (powerUp fun _ => 0)) = .ok (true, m) ∧
      m.world.ppuRegs .cr1 = 7 ∧ NextIs m .inc (mapOf .cr1) := by
  have hvalues : ((do
      fetchReset hookFuns
      discard (cpuThread hookFuns (some fun _ _ => (0, ())) 2 ())
      return true : NesM Bool).run counting).map
        (fun r => (r.1, r.2.world.ppuRegs .cr1, (nextAccess.run r.2).map Prod.fst)) =
      .ok (true, 7#8, .ok (.inc, mapOf .cr1)) := by decide +kernel
  rw [← counting_starts 2] at hvalues
  obtain ⟨m, hrun, hview⟩ := run_of_view
    (fun m : Machine Hook PpuState => (m.world.ppuRegs .cr1, (nextAccess.run m).map Prod.fst)) hvalues
  obtain ⟨hcr1, hnext⟩ := Prod.mk.inj hview
  exact ⟨m, hrun, hcr1, hnext⟩

theorem control_shadows_counting : ∃ m,
    (runMain 3 (fun _ => 0) [some countingRom] 0 [some PpuLoad.rom] (fun _ _ => (0, ())) 2 ()).run
      (atStartup (powerUp fun _ => 0)) = .ok (true, m) ∧ m.mem 0x2000 = 7 ∧
      ∃ m', (instruction hookFuns).run m = .ok ((), m') ∧ m'.world.ppuRegs .cr1 = 8 := by
  obtain ⟨m, hrun, hcr1, hnext⟩ := counting_runs
  obtain ⟨-, hshadow, -, hreg⟩ := control_shadows hrun
  obtain ⟨m', hinc, hstepped⟩ := (hreg .cr1 (by decide)).1 hnext
  exact ⟨m, hrun, hshadow.trans hcr1, m', hinc, hstepped.trans (by rw [hcr1]; rfl)⟩

end Bugnes.ControlShadows
