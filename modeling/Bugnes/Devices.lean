import Bugnes.CpuTwoRuns
import Bugnes.Registration

namespace Bugnes.Devices

open Words Memhooks CpuCore Sfot Registration TwoMachines CpuTwoMachines CpuTwoRuns

variable {F σ ρ τ : Type} {W : σ → ρ → Prop} {E : Fault → Prop}

/-- Two machines that differ in no more than what their hooks keep outside. -/
structure SameCpu (W : σ → ρ → Prop) (m : Machine F σ) (n : Machine F ρ) : Prop where
  pc : m.regPc = n.regPc
  regs : m.shortRegs = n.shortRegs
  mem : m.mem = n.mem
  branched : m.regPcBranched = n.regPcBranched
  memhooks : m.allMh = n.allMh
  excepthooks : m.ehFunV = n.ehFunV
  world : W m.world n.world

/-- Behind the same function pointers two sets of hooks do the same to what `W` ties. -/
structure DevicesMatch (W : σ → ρ → Prop) (E : Fault → Prop) (hf : HookFuns F σ) (hg : HookFuns F ρ) : Prop where
  read : ∀ f a, Matches (SameCpu W) E (hf.read f a) (hg.read f a)
  write : ∀ f a v, Matches (SameCpu W) E (hf.write f a v) (hg.write f a v)
  transl : ∀ f a, Matches (SameCpu W) E (hf.transl f a) (hg.transl f a)
  exc : ∀ f a s, Matches (SameCpu W) E (hf.exc f a s) (hg.exc f a s)

theorem onWorld_matches {α : Type} {x : StateT σ (Except Fault) α} {y : StateT ρ (Except Fault) α}
    (h : Matches W E x y) : Matches (SameCpu (F := F) W) E (onWorld x) (onWorld y) := by
  intro m n hmn
  rw [onWorld_run, onWorld_run]
  obtain ⟨a, w, w', hx, hy, hW⟩ | ⟨e, hx, hy, he⟩ := (h m.world n.world hmn.world).cases
  · rw [hx, hy]
    exact ⟨rfl, { hmn with world := hW }⟩
  · rw [hx, hy]
    exact ⟨rfl, he⟩

theorem setMem_matches (a : Word) (v : Byte) : Matches (SameCpu (F := F) W) E (setMem a v) (setMem a v) :=
  .of_modify fun _ _ h => { h with mem := by rw [h.mem] }

theorem check_matches {α : Type} {ty : MhType} {a : Word} {x : F → CpuM F σ α} {y : F → CpuM F ρ α} {x' : CpuM F σ α}
    {y' : CpuM F ρ α} (hsome : ∀ f, Matches (SameCpu W) E (x f) (y f)) (hnone : Matches (SameCpu W) E x' y') :
    Matches (SameCpu W) E
      (get >>= fun m => match check m.allMh ty a with | some f => x f | none => x')
      (get >>= fun n => match check n.allMh ty a with | some f => y f | none => y') := by
  refine .get_bind fun m n h => ?_
  rw [h.memhooks]
  cases check n.allMh ty a with
  | none => exact hnone m n h
  | some f => exact hsome f m n h

theorem memhookInsert_matches (hE : ∀ e, E e) (ty : MhType) (f : Option F) (name : Option String) (first last : Word) :
    Matches (SameCpu W) E (memhookInsert ty f name first last) (memhookInsert ty f name first last) := by
  intro m n h
  rw [memhookInsert_run, memhookInsert_run, h.memhooks]
  cases Memhooks.insert ty f name first last n.allMh with
  | error e => exact ⟨rfl, hE e⟩
  | ok r => exact ⟨rfl, { h with memhooks := rfl }⟩

theorem registerAll_matches (hE : ∀ e, E e) (ty : MhType) (rs : List (Memhook F)) :
    Matches (SameCpu W) E (registerAll ty rs) (registerAll ty rs) := by
  induction rs with
  | nil => exact .pure _
  | cons r rs ih => exact (Matches.of_discard (memhookInsert_matches hE _ _ _ _ _)).bind fun _ => ih

section Cpu

variable {hf : HookFuns F σ} {hg : HookFuns F ρ} (h : DevicesMatch W E hf hg)

include h

theorem DevicesMatch.translAddr (a : Word) : Matches (SameCpu W) E (translAddr hf a) (translAddr hg a) :=
  check_matches (h.transl · a) (.pure a)

theorem DevicesMatch.memRead (a : Word) : Matches (SameCpu W) E (memRead hf a) (memRead hg a) := by
  refine (h.translAddr a).bind fun a => check_matches (h.read · a) (.get_bind fun m n hmn => ?_)
  rw [hmn.mem]
  exact ⟨rfl, hmn⟩

theorem DevicesMatch.writeTo (a : Word) (v : Byte) : Matches (SameCpu W) E (writeTo hf a v) (writeTo hg a v) := by
  refine .get_bind fun m n hmn => ?_
  rw [hmn.memhooks]
  cases check n.allMh .write a with
  | none => exact setMem_matches a v m n hmn
  | some f => exact ((h.write f a v).bind fun stored => setMem_matches a stored) m n hmn

theorem DevicesMatch.memWrite (a : Word) (v : Byte) : Matches (SameCpu W) E (memWrite hf a v) (memWrite hg a v) := by
  rw [memWrite_eq, memWrite_eq]
  exact (h.translAddr a).bind fun a => h.writeTo a v

theorem DevicesMatch.memInc (a : Word) (v : Int) : Matches (SameCpu W) E (memInc hf a v) (memInc hg a v) := by
  rw [memInc_eq, memInc_eq]
  refine (h.translAddr a).bind fun a => .get_bind fun m n hmn => ?_
  rw [hmn.mem]
  exact h.writeTo a _ m n hmn

theorem DevicesMatch.excepthookCheck (ty : EhType) (a : Word) (s : String) :
    Matches (SameCpu W) E (excepthookCheck hf ty a s) (excepthookCheck hg ty a s) := by
  refine .get_bind fun m n hmn => ?_
  rw [hmn.excepthooks]
  cases n.ehFunV ty with
  | none => exact ⟨rfl, hmn⟩
  | some f => exact h.exc f a s m n hmn

theorem DevicesMatch.linked : Linked hf hg (SameCpu W) E where
  pc _ _ hmn := hmn.pc
  regs _ _ hmn := hmn.regs
  read := h.memRead
  branched _ _ hmn := hmn.branched
  page _ _ hmn _ := congrFun hmn.mem _
  regsSet _ _ hmn _ := { hmn with regs := rfl }
  branchedSet _ _ hmn _ := { hmn with branched := rfl }
  push _ _ hmn _ _ := { hmn with mem := by rw [hmn.mem] }
  write := h.memWrite
  inc := h.memInc
  exc := h.excepthookCheck

/-- No program tells the one set of devices from the other. -/
theorem DevicesMatch.cpuThread (hE : E .assertion) (cb : Option (StepCb τ)) (n : Nat) (t : τ) :
    Matches (SameCpu W) E (cpuThread hf cb n t) (cpuThread hg cb n t) :=
  h.linked.cpuThread hE (fun _ _ hmn _ _ => { hmn with pc := rfl }) cb n t

theorem DevicesMatch.fetchReset : Matches (SameCpu W) E (fetchReset hf) (fetchReset hg) :=
  (h.linked.read16 _).bind fun _ => .of_discard (h.linked.branchStatus _)

theorem DevicesMatch.sfotLoad (hE : E .assertion) (fd : Int) (offset len : Word) (garbage : Int → Byte)
    (reads : List ReadOutcome) :
    Matches (SameCpu W) E (sfotLoad hf fd offset len garbage reads) (sfotLoad hg fd offset len garbage reads) :=
  sfotLoad_matches hE (fun _ _ v => h.memWrite _ v) fd garbage reads

theorem DevicesMatch.sfotDoDma (a size : Word) : Matches (SameCpu W) E (sfotDoDma hf a size) (sfotDoDma hg a size) :=
  .mapM fun _ _ => h.memRead _

end Cpu

end Bugnes.Devices
