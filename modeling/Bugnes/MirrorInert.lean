import Bugnes.ControlShadows

namespace Bugnes.MirrorInert

open Words Memhooks CpuCore PlainRuns Ppu Sfot Simplenes TwoMachines CpuTwoMachines CpuTwoRuns ControlShadows

variable {τ : Type} {E : Fault → Prop}

def unmirrored (m : Machine Hook PpuState) : Machine Hook PpuState :=
  { m with allMh := Function.update m.allMh .transl [] }

/-- The machine of `main` beside one in which nobody has called `sfot_memhook_insert_transl`. -/
def Beside (m n : Machine Hook PpuState) : Prop := m.allMh = hookTable ∧ n = unmirrored m

theorem translAddr_beside (hf : HookFuns Hook PpuState) (htransl : hf.transl = hookFuns.transl) (a : Word) :
    Matches Beside E (translAddr hf a) (translAddr hf a) := by
  rintro m _ ⟨hm, rfl⟩
  have hsame : translAddr hf a = translAddr hookFuns a := by rw [translAddr, translAddr, htransl]
  have hnone : check (unmirrored m).allMh .transl a = none := by simp [unmirrored, check, checkList]
  have hplain : (translAddr hf a).run (unmirrored m) = .ok (a, unmirrored m) := by simp [translAddr, hnone]
  rw [hplain, hsame, translAddr_hooked hm]
  exact ⟨rfl, hm, rfl⟩

theorem onWorld_beside {α : Type} (hE : ∀ e, E e) (x : PpuM α) : Matches Beside E (onWorld x) (onWorld x) := by
  rintro m _ ⟨hm, rfl⟩
  rw [onWorld_run, onWorld_run]
  cases h : x.run m.world with
  | error e =>
      rw [show x.run (unmirrored m).world = .error e from h]
      exact ⟨rfl, hE e⟩
  | ok r =>
      rw [show x.run (unmirrored m).world = .ok r from h]
      exact ⟨rfl, hm, rfl⟩

theorem setMem_beside (a : Word) (v : Byte) : Matches Beside E (setMem a v) (setMem a v) := by
  refine .of_modify ?_
  rintro m _ ⟨hm, rfl⟩
  exact ⟨hm, rfl⟩

section Access

variable (hE : ∀ e, E e)

include hE

theorem read_beside (f : Hook) (a : Word) : Matches Beside E (readingFuns.read f a) (readingFuns.read f a) := by
  cases f with
  | cr1Read | cr2Read | statusRead | memdataRead => exact onWorld_beside hE _
  | _ => exact .pure _

theorem memRead_beside (hf : HookFuns Hook PpuState) (htransl : hf.transl = hookFuns.transl)
    (hread : hf.read = readingFuns.read) (a : Word) : Matches Beside E (memRead hf a) (memRead hf a) := by
  refine (translAddr_beside hf htransl a).bind fun a => .get_bind ?_
  rintro m _ ⟨hm, rfl⟩
  have hsame : check (unmirrored m).allMh .read a = check m.allMh .read a := rfl
  rw [hsame, hread]
  cases check m.allMh .read a with
  | none => exact ⟨rfl, hm, rfl⟩
  | some f => exact read_beside hE f a m _ ⟨hm, rfl⟩

theorem write_beside (f : Hook) (a : Word) (v : Byte) :
    Matches Beside E (hookFuns.write f a v) (hookFuns.write f a v) := by
  cases f with
  | cr1Write | cr2Write | memaddrWrite | memdataWrite => exact onWorld_beside hE _
  | spriteDmaWrite =>
      refine Matches.bind (.mapM fun _ _ => memRead_beside hE readingFuns rfl rfl _) fun bytes => ?_
      exact (onWorld_beside hE _).bind fun _ => .pure v
  | _ => exact .pure v

theorem writeTo_beside (a : Word) (v : Byte) : Matches Beside E (writeTo hookFuns a v) (writeTo hookFuns a v) := by
  refine .get_bind ?_
  rintro m _ ⟨hm, rfl⟩
  have hsame : check (unmirrored m).allMh .write a = check m.allMh .write a := rfl
  rw [hsame]
  cases check m.allMh .write a with
  | none => exact setMem_beside a v m _ ⟨hm, rfl⟩
  | some f => exact ((write_beside hE f a v).bind fun stored => setMem_beside a stored) m _ ⟨hm, rfl⟩

theorem beside_linked : Linked hookFuns hookFuns Beside E where
  pc := by
    rintro m _ ⟨hm, rfl⟩
    rfl
  regs := by
    rintro m _ ⟨hm, rfl⟩
    rfl
  branched := by
    rintro m _ ⟨hm, rfl⟩
    rfl
  page := by
    rintro m _ ⟨hm, rfl⟩ i
    rfl
  regsSet := by
    rintro m _ ⟨hm, rfl⟩ r
    exact ⟨hm, rfl⟩
  branchedSet := by
    rintro m _ ⟨hm, rfl⟩ b
    exact ⟨hm, rfl⟩
  push := by
    rintro m _ ⟨hm, rfl⟩ i v
    exact ⟨hm, rfl⟩
  read := memRead_beside hE hookFuns rfl rfl
  write a v := by
    rw [memWrite_eq]
    exact (translAddr_beside hookFuns rfl a).bind fun a => writeTo_beside hE a v
  inc a v := by
    rw [memInc_eq]
    refine (translAddr_beside hookFuns rfl a).bind fun a => .get_bind ?_
    rintro m _ ⟨hm, rfl⟩
    exact writeTo_beside hE a _ m _ ⟨hm, rfl⟩
  exc ty a s := by
    refine .get_bind ?_
    rintro m _ ⟨hm, rfl⟩
    have hsame : (unmirrored m).ehFunV ty = m.ehFunV ty := rfl
    rw [hsame]
    cases m.ehFunV ty with
    | none => exact ⟨rfl, hm, rfl⟩
    | some f => exact ⟨rfl, hm, rfl⟩

end Access

/-- The translation hook of `main` is never noticed: every program runs as if
the call that installs it were not there. -/
theorem mirror_unnoticed {m : Machine Hook PpuState} (hm : m.allMh = hookTable) (cb : Option (StepCb τ)) (n : Nat)
    (t : τ) :
    (cpuThread hookFuns cb n t).run (unmirrored m) =
      ((cpuThread hookFuns cb n t).run m).map fun r => (r.1, unmirrored r.2) := by
  have hE : ∀ e : Fault, (fun _ => True) e := fun _ => trivial
  have hpc : ∀ m n, Beside m n → ∀ v < cpuAddrReservedStart, Beside { m with regPc := v } { n with regPc := v } := by
    rintro m _ ⟨hm, rfl⟩ v _
    exact ⟨hm, rfl⟩
  obtain ⟨r, m', _, hrun, hrun', _, rfl⟩ | ⟨e, hrun, hrun', -⟩ :=
    ((beside_linked hE).cpuThread trivial hpc cb n t m _ ⟨hm, rfl⟩).cases
  · rw [hrun, hrun']
    rfl
  · rw [hrun, hrun']
    rfl

/-- `LDA #$42`, `STA $10`, `INC $10` and `LDX $10`, about to be fetched. -/
def working : Machine Hook PpuState := { atStartup (powerUp fun _ => 0) with
  mem := bytesAt 0xC000#16 [0xA9, 0x42, 0x85, 0x10, 0xE6, 0x10, 0xA6, 0x10]
  regPcBranched := 0xC000#16
  allMh := hookTable }

theorem working_runs :
    ((cpuThread hookFuns (none : Option (StepCb Unit)) 4 ()).run working).map (fun r => (r.2.mem 0x10, r.2.shortRegs.x)) =
      .ok (0x43, 0x43) := by
  decide +kernel

theorem mirror_unnoticed_working :
    (cpuThread hookFuns none 4 ()).run (unmirrored working) =
        ((cpuThread hookFuns none 4 ()).run working).map (fun r => (r.1, unmirrored r.2)) ∧
      ((cpuThread hookFuns none 4 ()).run (unmirrored working)).map (fun r => (r.2.mem 0x10, r.2.shortRegs.x)) =
        .ok (0x43, 0x43) := by
  have hsame := mirror_unnoticed (m := working) rfl none 4 ()
  refine ⟨hsame, ?_⟩
  rw [hsame, ← working_runs]
  cases (cpuThread hookFuns (none : Option (StepCb Unit)) 4 ()).run working <;> rfl

end Bugnes.MirrorInert
