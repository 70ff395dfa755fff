import Bugnes.ControlShadows
import Bugnes.FramebufferShadow
import Bugnes.HookSafety
import Bugnes.PpuPort
import Bugnes.RamMirror

namespace Bugnes.MachineSafety

open Words Memhooks CpuCore OpcodeTable Opcodes PlainRuns Sfot TwoMachines TwoRuns CpuTwoMachines HookSafety

section Nes

open Ppu PpuLoad PpuPort Simplenes RamMirror ControlShadows

variable {E : Fault → Prop} {H : EhType → Option Simplenes.Hook}

theorem hookOf_ends (op : PortOp) (p : PpuState) : ∃ r, (hookOf op).run p = .ok r := by
  obtain ⟨spriteMem, just, addr, mem, lower, regs⟩ := p
  cases op with
  | cr1Write | cr1Read | cr2Write | cr2Read | dataWrite => exact ⟨_, rfl⟩
  | addrWrite => cases lower <;> exact ⟨_, rfl⟩
  | dataRead => cases just <;> exact ⟨_, rfl⟩

theorem transl_behaves {a : Word} {f : Simplenes.Hook} (h : check Simplenes.hookTable .transl a = some f) :
    Behaves Simplenes.hookTable H E (readingFuns.transl f a) := by
  by_cases ha : a < internalRamMirrorStop
  · rw [hookTable_mirrored.transl a ha] at h
    cases h
    rw [show readingFuns.transl .mirrorInternalRam a = ofExcept (mirrorInternalRam a) from rfl, mirrorInternalRam_eq ha]
    exact .pure a
  · have hnone : check Simplenes.hookTable .transl a = none := if_neg fun hcovers => ha hcovers.2
    rw [hnone] at h
    cases h

theorem read_behaves (f : Simplenes.Hook) (a : Word) : Behaves Simplenes.hookTable H E (readingFuns.read f a) := by
  cases f with
  | cr1Read => exact .onWorld (hookOf_ends (.cr1Read a))
  | cr2Read => exact .onWorld (hookOf_ends (.cr2Read a))
  | memdataRead => exact .onWorld (hookOf_ends (.dataRead a))
  | statusRead => exact .onWorld fun w => ⟨_, rfl⟩
  | _ => exact .pure _

theorem readingFuns_guarded : Guarded readingFuns Simplenes.hookTable H E where
  read a f _ := read_behaves f a
  write _ _ v _ := .pure v
  transl _ _ := transl_behaves
  exc _ _ _ _ _ := .pure ()

theorem hookFuns_guarded : Guarded Simplenes.hookFuns Simplenes.hookTable H E where
  read a f _ := read_behaves f a
  write a f v _ := by
    cases f with
    | cr1Write => exact .onWorld (hookOf_ends (.cr1Write a v))
    | cr2Write => exact .onWorld (hookOf_ends (.cr2Write a v))
    | memaddrWrite => exact .onWorld (hookOf_ends (.addrWrite a v))
    | memdataWrite => exact .onWorld (hookOf_ends (.dataWrite a v))
    | spriteDmaWrite =>
        refine Behaves.bind (.mapM fun _ _ => readingFuns_guarded.memRead _) fun bytes => ?_
        exact (Behaves.onWorld fun w => ⟨_, rfl⟩).bind fun _ => .pure v
    | _ => exact .pure v
  transl _ _ := transl_behaves
  exc _ _ _ _ _ := .pure ()

section Main

variable {τ : Type} (fd : Int) (garbage : Int → Byte) (reads : List ReadOutcome) (bytesRead : BitVec 32)
  (vromReads : List ReadOutcome) (cb : StepCb τ) (rounds : Nat) (t : τ)

theorem runMain_installed :
    ((ppuLoad fd bytesRead vromReads).run (powerUp fun _ => 0) = .error .outOfBounds ∧
      (Simplenes.runMain fd garbage reads bytesRead vromReads cb rounds t).run (atStartup (powerUp fun _ => 0)) =
        .error .outOfBounds) ∨
    (Simplenes.runMain fd garbage reads bytesRead vromReads cb rounds t).run (atStartup (powerUp fun _ => 0)) =
      .error .assertion ∨
    ∃ done m, (Simplenes.runMain fd garbage reads bytesRead vromReads cb rounds t).run
      (atStartup (powerUp fun _ => 0)) = .ok (done, m) ∧
        (done = true → Installed Simplenes.hookTable (fun _ => none) m) := by
  obtain ⟨m', hrun⟩ | hout | ⟨mem, vrom, -, hrun⟩ :=
    runMain_cases (m := atStartup (powerUp fun _ => 0)) rfl fd garbage reads bytesRead vromReads cb rounds t
  · exact .inr (.inr ⟨false, m', hrun, by simp⟩)
  · exact .inl hout
  · rw [hrun]
    have hpc : (0#16 : Word) < cpuAddrReservedStart := by decide
    let start : Machine Simplenes.Hook PpuState := { atStartup (powerUp fun _ => 0) with
      mem := mem, allMh := Simplenes.hookTable, world := { (powerUp fun _ => 0) with memory := vrom } }
    have hstart : Installed Simplenes.hookTable (fun _ => none) start := ⟨rfl, rfl, hpc⟩
    obtain ⟨done, m, hrun, hm⟩ | ⟨_, hrun, rfl⟩ :=
      along_cases (hookFuns_guarded.fromReset (E := (· = .assertion)) rfl (some cb) rounds t) hstart
    · exact .inr (.inr ⟨done, m, hrun, fun _ => hm⟩)
    · exact .inr (.inl hrun)

/-- Whatever the program, the emulator dies of an assertion or not at all: once
the load of the VROM has stayed within its array no access goes outside one, no
instruction that was fetched fails, and the vectors are never run. -/
theorem simplenes_safe :
    (∀ e, (Simplenes.runMain fd garbage reads bytesRead vromReads cb rounds t).run (atStartup (powerUp fun _ => 0)) =
      .error e → e = .assertion ∨
        e = .outOfBounds ∧ (ppuLoad fd bytesRead vromReads).run (powerUp fun _ => 0) = .error .outOfBounds) ∧
    (0 ≤ bytesRead.toInt → bytesRead.toInt ≤ ppuSize.toNat → Asked bytesRead.toInt vromReads →
      ∀ e, (Simplenes.runMain fd garbage reads bytesRead vromReads cb rounds t).run (atStartup (powerUp fun _ => 0)) =
        .error e → e = .assertion) ∧
    ∀ m, (Simplenes.runMain fd garbage reads bytesRead vromReads cb rounds t).run (atStartup (powerUp fun _ => 0)) =
        .ok (true, m) →
      m.regPc < cpuAddrReservedStart ∧ m.allMh = Simplenes.hookTable ∧
        ∀ m₁, (opcodeFetch Simplenes.hookFuns).run m = .ok ((), m₁) →
          m₁.regPc < cpuAddrReservedStart ∧ ∃ m₂, (opcodeExec Simplenes.hookFuns).run m₁ = .ok ((), m₂) := by
  have hcases := runMain_installed fd garbage reads bytesRead vromReads cb rounds t
  have hfault : ∀ e, (Simplenes.runMain fd garbage reads bytesRead vromReads cb rounds t).run
      (atStartup (powerUp fun _ => 0)) = .error e → e = .assertion ∨
        e = .outOfBounds ∧ (ppuLoad fd bytesRead vromReads).run (powerUp fun _ => 0) = .error .outOfBounds := by
    intro e he
    obtain ⟨hload, hrun⟩ | hrun | ⟨_, _, hrun, -⟩ := hcases
    · exact .inr ⟨Except.error.inj (he.symm.trans hrun), hload⟩
    · exact .inl (Except.error.inj (he.symm.trans hrun))
    · rw [hrun] at he
      cases he
  refine ⟨hfault, fun hlow hhigh hreads e he => ?_, fun m hm => ?_⟩
  · obtain hassert | ⟨-, hload⟩ := hfault e he
    · exact hassert
    · obtain ⟨s, hdone⟩ : ∃ s, (ppuLoad fd bytesRead vromReads).run (powerUp fun _ => 0) = .ok s :=
        ppuLoad_within hlow hhigh hreads _
      rw [hdone] at hload
      cases hload
  · obtain ⟨-, hrun⟩ | hrun | ⟨done, m', hrun, hm'⟩ := hcases
    · rw [hrun] at hm
      cases hm
    · rw [hrun] at hm
      cases hm
    · rw [hrun] at hm
      cases hm
      have hm := hm' rfl
      refine ⟨hm.pc, hm.memhooks, fun m₁ hfetch => ?_⟩
      have hm₁ := hookFuns_guarded.opcodeFetch (E := fun _ => True) trivial hm hfetch
      obtain ⟨m₂, hexec, _⟩ | ⟨_, _, hE⟩ := (hookFuns_guarded (E := fun _ => False)).opcodeExec hm₁
      · exact ⟨hm₁.pc, m₂, hexec⟩
      · exact hE.elim

theorem simplenes_safe_counting :
    (∀ rounds e, (Simplenes.runMain 3 (fun _ => 0) [some countingRom] 0 [some rom] (fun _ _ => (0, ())) rounds ()).run
      (atStartup (powerUp fun _ => 0)) = .error e → e = .assertion) ∧
    ∃ m, (Simplenes.runMain 3 (fun _ => 0) [some countingRom] 0 [some rom] (fun _ _ => (0, ())) 2 ()).run
      (atStartup (powerUp fun _ => 0)) = .ok (true, m) ∧ m.regPc < cpuAddrReservedStart ∧
        ∀ m₁, (opcodeFetch Simplenes.hookFuns).run m = .ok ((), m₁) →
          ∃ m₂, (opcodeExec Simplenes.hookFuns).run m₁ = .ok ((), m₂) := by
  have hasked : Asked (0 : BitVec 32).toInt [some rom] := ⟨rom_length.le, trivial⟩
  have hsafe := simplenes_safe 3 (fun _ => 0) [some countingRom] 0 [some rom] (fun _ _ => (0, ()))
  obtain ⟨m, hrun, -⟩ := counting_runs
  obtain ⟨hpc, -, hnext⟩ := (hsafe 2 ()).2.2 m hrun
  exact ⟨fun rounds => (hsafe rounds ()).2.1 (by decide) (by decide) hasked, m, hrun, hpc,
    fun m₁ hfetch => (hnext m₁ hfetch).2⟩

end Main

end Nes

section Simple

open Simple6502 FramebufferShadow

def brkHook : EhType → Option Simple6502.Hook := Function.update (fun _ => none) .brk (some .excepthook)

theorem screenMemhook_ends {a : Word} {f : Simple6502.Hook} (h : check Simple6502.hookTable .write a = some f) :
    f = .screenMemhook ∧ ∀ v w, ∃ r, (screenMemhook a v).run w = .ok r := by
  by_cases ha : ∃ i, a = pixelAddr i
  · obtain ⟨i, rfl⟩ := ha
    rw [check_write_pixel i] at h
    exact ⟨(Option.some.inj h).symm, fun v w => ⟨_, screenMemhook_pixelAddr w i v⟩⟩
  · rw [check_write_other fun i hi => ha ⟨i, hi⟩] at h
    cases h

theorem simple_quiet {E : Fault → Prop} : Guarded (quiet Simple6502.hookFuns) Simple6502.hookTable brkHook E where
  read a f _ := by
    cases f with
    | randomMemhook | keycodeMemhook => exact .onWorld fun w => ⟨_, rfl⟩
    | _ => exact .pure _
  write a f v hc := by
    obtain ⟨rfl, hends⟩ := screenMemhook_ends hc
    exact .onWorld (hends v)
  transl _ _ hc := nomatch hc
  exc _ _ _ _ _ := .pure ()

theorem simple_guarded {E : Fault → Prop} (hE : E .exited) :
    Guarded Simple6502.hookFuns Simple6502.hookTable brkHook E where
  read := simple_quiet.read
  write := simple_quiet.write
  transl := simple_quiet.transl
  exc _ f _ _ _ := by
    cases f with
    | excepthook => exact .throw hE
    | _ => exact .pure ()

theorem walk_ends {n : Nat} (hn : n ≤ 0x400) (fbMemory : Int → Byte) (w : Screen) :
    ∃ r, ((List.range n).forM fun i => if fbMemory i = 0#8 then return ()
      else discard (screenMemhook (screenHookOffset + BitVec.ofNat 16 i) (fbMemory i)) : ScreenM Unit).run w = .ok r := by
  have hall : Respects (Along fun _ : Screen => True) (fun _ : Fault => False)
      ((List.range n).forM fun i => if fbMemory i = 0#8 then return ()
        else discard (screenMemhook (screenHookOffset + BitVec.ofNat 16 i) (fbMemory i))) := by
    refine .forM fun i hi => .of_ite (.pure _) (.of_discard ?_)
    rintro w _ ⟨rfl, -⟩
    have hi' : i < 0x400 := (List.mem_range.mp hi).trans_le hn
    have hpixel := screenMemhook_pixelAddr w ⟨i, hi'⟩ (fbMemory i)
    rw [show screenHookOffset + BitVec.ofNat 16 i = pixelAddr ⟨i, hi'⟩ from rfl, hpixel]
    exact ⟨rfl, rfl, trivial⟩
  obtain ⟨a, w', hrun, -⟩ := hall.total (s := w) trivial
  exact ⟨_, hrun⟩

theorem walkScreen_ends (fbMemory : Int → Byte) (w : Screen) : ∃ r, (walkScreen fbMemory).run w = .ok r :=
  walk_ends (by decide) fbMemory w

/-- An instruction executed here ends the process at the opcode of BRK, and at no
other. -/
def ExitsAtBrk (m : Machine Simple6502.Hook Screen) : Prop :=
  ∀ e, (opcodeExec Simple6502.hookFuns).run m = .error e ↔
    e = .exited ∧ ∃ b m', (memRead Simple6502.hookFuns m.regPc).run m = .ok (b, m') ∧ (opcodeAt b).exec = .brk

theorem opcodeExec_exits {m : Machine Simple6502.Hook Screen} (hm : Installed Simple6502.hookTable brkHook m) :
    ExitsAtBrk m := by
  intro e
  have hlinked := (simple_quiet (E := fun _ => False)).linked
  obtain ⟨b, m', hread, hm'⟩ | ⟨_, _, hE⟩ := along_cases (hlinked.read m.regPc) hm
  swap
  · exact hE.elim
  have hread' : (memRead Simple6502.hookFuns m.regPc).run m = .ok (b, m') := hread
  have hexec : (opcodeExec Simple6502.hookFuns).run m =
      (asm Simple6502.hookFuns (opcodeAt b).exec (opcodeAt b).addrMode).run m' := by
    rw [opcodeExec, StateT.run_bind, getPc_run, ok_bind, StateT.run_bind, hread', ok_bind]
  rw [hexec, hread']
  by_cases hbrk : (opcodeAt b).exec = .brk
  · have hthrow : (asm Simple6502.hookFuns .brk (opcodeAt b).addrMode).run m' = .error .exited := by
      simp [asm, asmBRK, asmBreak, excepthookCheck, hm'.excepthooks, brkHook, Simple6502.hookFuns]
      rfl
    rw [hbrk, hthrow]
    constructor
    · rintro ⟨⟩
      exact ⟨rfl, b, m', rfl, hbrk⟩
    · rintro ⟨rfl, -⟩
      rfl
  · obtain ⟨_, m'', hrun, -⟩ | ⟨_, _, hE⟩ := along_cases (hlinked.asm (opcodeAt b).exec (opcodeAt b).addrMode) hm'
    · rw [asm_quiet _ hbrk] at hrun
      rw [hrun]
      constructor
      · rintro ⟨⟩
      · rintro ⟨-, _, _, ⟨⟩, hbrk'⟩
        exact absurd hbrk' hbrk
    · exact hE.elim

section Main

variable (fd : Int) (romsize : Nat) (buf fbMemory : Int → Byte) (reads : List ReadOutcome) (fbRead : ReadOutcome)
  (rounds : Nat) (random : Nat → BitVec 64) (keycode : Nat → Byte)

theorem simple_load_safe : Matches (Along (Installed empty fun _ => none)) (· = .assertion)
    (sfotLoad Simple6502.hookFuns fd 0#16 (BitVec.ofNat 16 romsize) buf reads)
    (sfotLoad Simple6502.hookFuns fd 0#16 (BitVec.ofNat 16 romsize) buf reads) :=
  sfotLoad_matches (E := (· = .assertion)) rfl (fun _ _ v => (guarded_empty _ _).linked.write _ v) fd buf reads

theorem simple_installed :
    (∃ e, (Simple6502.runMain fd romsize buf fbMemory reads fbRead rounds).run (atStartup (black random keycode)) =
      .error e ∧ (e = .assertion ∨ e = .exited)) ∨
    ∃ done m, (Simple6502.runMain fd romsize buf fbMemory reads fbRead rounds).run
      (atStartup (black random keycode)) = .ok (done, m) ∧
        (done = true → Installed Simple6502.hookTable brkHook m) := by
  by_cases hfd : fd < 0
  · exact .inr ⟨false, _, by rw [Simple6502.runMain, if_pos hfd]; rfl, nofun⟩
  have hpc : (0#16 : Word) < cpuAddrReservedStart := by decide
  have hstart : Installed (F := Simple6502.Hook) empty (fun _ => none) (atStartup (black random keycode)) :=
    ⟨rfl, rfl, hpc⟩
  rw [Simple6502.runMain, if_neg hfd, StateT.run_bind]
  obtain ⟨code, m₀, hload, hm₀⟩ | ⟨_, hload, rfl⟩ := along_cases (simple_load_safe fd romsize buf reads) hstart
  · rw [hload, ok_bind]
    cases code with
    | none => exact .inr ⟨false, m₀, rfl, nofun⟩
    | some code =>
        obtain ⟨mem, hreset, -⟩ := sfotSetReset_run 0x600#16 m₀
        obtain ⟨⟨_, screen⟩, hwalk⟩ := walkScreen_ends (readInto fbRead fbMemory) m₀.world
        let m₁ : Machine Simple6502.Hook Screen := { m₀ with mem := mem, world := screen, ehFunV := brkHook }
        have hworld : (onWorld (walkScreen (readInto fbRead fbMemory)) : SimpleM Unit).run { m₀ with mem := mem } =
            .ok ((), { m₀ with mem := mem, world := screen }) := by
          rw [onWorld_run, hwalk]
          rfl
        have hexc : (sfotExcepthookInsert .brk (some .excepthook) : SimpleM Unit).run
            { m₀ with mem := mem, world := screen } = .ok ((), m₁) := by
          simp [sfotExcepthookInsert, m₁, brkHook, hm₀.excepthooks]
        have hinsert : Simple6502.insertHooks.run m₁ = .ok ((), { m₁ with allMh := Simple6502.hookTable }) :=
          Simple6502.insertHooks_run hm₀.memhooks
        have hm₁ : Installed Simple6502.hookTable brkHook { m₁ with allMh := Simple6502.hookTable } :=
          ⟨rfl, rfl, hm₀.pc⟩
        have hguarded := simple_guarded (E := fun e => e = .assertion ∨ e = .exited) (.inr rfl)
        simp only [StateT.run_bind _ _ m₀, StateT.run_bind _ _ { m₀ with mem := mem }, hreset, ok_bind, hworld,
          StateT.run_bind _ _ { m₀ with mem := mem, world := screen }, hexc, StateT.run_bind _ _ m₁, hinsert]
        obtain ⟨done, m, hrun, hm⟩ | hfail :=
          along_cases (hguarded.fromReset (.inl rfl) (some Simple6502.stepCb) rounds []) hm₁
        · exact .inr ⟨done, m, hrun, fun _ => hm⟩
        · exact .inl hfail
  · rw [hload]
    exact .inl ⟨_, rfl, .inl rfl⟩

/-- Whatever the program, no access is out of bounds: the emulator ends by an
assertion or by its BRK hook, and the hook runs at the opcode of BRK alone. -/
theorem simple6502_safe :
    (∀ e, (Simple6502.runMain fd romsize buf fbMemory reads fbRead rounds).run (atStartup (black random keycode)) =
      .error e → e = .assertion ∨ e = .exited) ∧
    ∀ m, (Simple6502.runMain fd romsize buf fbMemory reads fbRead rounds).run (atStartup (black random keycode)) =
        .ok (true, m) →
      m.regPc < cpuAddrReservedStart ∧ m.allMh = Simple6502.hookTable ∧ ExitsAtBrk m ∧
        ∀ m₁, (opcodeFetch Simple6502.hookFuns).run m = .ok ((), m₁) →
          m₁.regPc < cpuAddrReservedStart ∧ ExitsAtBrk m₁ := by
  obtain ⟨e, hrun, he⟩ | ⟨done, m', hrun, hm'⟩ :=
    simple_installed fd romsize buf fbMemory reads fbRead rounds random keycode
  · rw [hrun]
    refine ⟨fun e' he' => ?_, nofun⟩
    cases he'
    exact he
  · rw [hrun]
    refine ⟨nofun, fun m hm => ?_⟩
    cases hm
    have hm := hm' rfl
    refine ⟨hm.pc, hm.memhooks, opcodeExec_exits hm, fun m₁ hfetch => ?_⟩
    have hm₁ := (simple_guarded (E := fun _ => True) trivial).opcodeFetch trivial hm hfetch
    exact ⟨hm₁.pc, opcodeExec_exits hm₁⟩

end Main

end Simple

end Bugnes.MachineSafety
