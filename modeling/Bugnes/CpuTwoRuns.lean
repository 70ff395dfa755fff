import Bugnes.CpuTwoMachines
import Bugnes.TwoRuns

namespace Bugnes.CpuTwoRuns

open Words Memhooks CpuCore Addr OpcodeTable Opcodes PlainRuns Disas Sfot TwoRuns CpuTwoMachines

variable {F σ τ : Type} {hf : HookFuns F σ} {R : Machine F σ → Machine F σ → Prop} {E : Fault → Prop}

/-- A relation of machines that ties what an address is computed from, and that
reads of memory respect. -/
structure Reading (hf : HookFuns F σ) (R : Machine F σ → Machine F σ → Prop) (E : Fault → Prop) : Prop where
  pc : ∀ m n, R m n → m.regPc = n.regPc
  regs : ∀ m n, R m n → m.shortRegs = n.shortRegs
  read : ∀ a, Respects R E (memRead hf a)

/-- One that ties everything the CPU computes with, and that its own updates
and all accesses to memory respect. -/
structure Stable (hf : HookFuns F σ) (R : Machine F σ → Machine F σ → Prop) (E : Fault → Prop) : Prop
    extends Reading hf R E where
  branched : ∀ m n, R m n → m.regPcBranched = n.regPcBranched
  page : ∀ m n, R m n → ∀ i, m.mem (stackAddr i) = n.mem (stackAddr i)
  regsSet : ∀ m n, R m n → ∀ r, R { m with shortRegs := r } { n with shortRegs := r }
  branchedSet : ∀ m n, R m n → ∀ v, R { m with regPcBranched := v } { n with regPcBranched := v }
  push : ∀ m n, R m n → ∀ i v, R { m with mem := Function.update m.mem (stackAddr i) v }
    { n with mem := Function.update n.mem (stackAddr i) v }
  write : ∀ a v, Respects R E (memWrite hf a v)
  inc : ∀ a v, Respects R E (memInc hf a v)
  exc : ∀ ty a s, Respects R E (excepthookCheck hf ty a s)

def writeTo (hf : HookFuns F σ) (addr : Word) (v : Byte) : CpuM F σ Unit := do
  match check (← get).allMh .write addr with
  | none => setMem addr v
  | some f =>
      let stored ← hf.write f addr v
      setMem addr stored

theorem memWrite_eq (a : Word) (v : Byte) : memWrite hf a v = translAddr hf a >>= fun a => writeTo hf a v := rfl

theorem memInc_eq (a : Word) (v : Int) :
    memInc hf a v = translAddr hf a >>= fun a => get >>= fun m => writeTo hf a (m.mem a + BitVec.ofInt 8 v) := by
  refine congrArg (translAddr hf a >>= ·) (funext fun a => StateT.ext fun m => ?_)
  simp only [writeTo, StateT.run_bind, StateT.run_get, pure_eq_ok, ok_bind]
  cases check m.allMh .write a <;> simp

structure Invariant (hf : HookFuns F σ) (I : Machine F σ → Prop) : Prop where
  regs : ∀ m, I m → ∀ r, I { m with shortRegs := r }
  control : ∀ m, I m → ∀ pc b, I { m with regPc := pc, regPcBranched := b }
  push : ∀ m, I m → ∀ i v, I { m with mem := Function.update m.mem (stackAddr i) v }
  transl : ∀ a, Keeps I (translAddr hf a)
  read : ∀ a, Keeps I (memRead hf a)
  write : ∀ a v, Keeps I (writeTo hf a v)
  exc : ∀ ty a s, Keeps I (excepthookCheck hf ty a s)

theorem sfotLoad_respects (hE : E .assertion) {offset len : Word}
    (hw : ∀ i < len.toNat, ∀ v, Respects R E (memWrite hf (offset + BitVec.ofNat 16 i) v)) (fd : Int)
    (garbage : Int → Byte) (reads : List ReadOutcome) :
    Respects R E (sfotLoad hf fd offset len garbage reads) :=
  respects_iff.mpr (sfotLoad_matches hE (fun i hi v => respects_iff.mp (hw i hi v)) fd garbage reads)

namespace Reading

variable (h : Reading hf R E)

include h

theorem alike : ReadsAlike hf hf R E := ⟨h.pc, h.regs, fun a => respects_iff.mp (h.read a)⟩

theorem read16 (a : Word) : Respects R E (memRead16 hf a) := respects_iff.mpr (h.alike.read16 a)

theorem addr (mode : AddrMode) : Respects R E (addr hf mode) := respects_iff.mpr (h.alike.addr mode)

theorem addrModeGetValue (mode : AddrMode) : Respects R E (addrModeGetValue hf mode) :=
  respects_iff.mpr (h.alike.addrModeGetValue mode)

end Reading

namespace Stable

variable (h : Stable hf R E)

include h

theorem linked : Linked hf hf R E where
  toReadsAlike := h.alike
  branched := h.branched
  page := h.page
  regsSet := h.regsSet
  branchedSet := h.branchedSet
  push := h.push
  write a v := respects_iff.mp (h.write a v)
  inc a v := respects_iff.mp (h.inc a v)
  exc ty a s := respects_iff.mp (h.exc ty a s)

theorem branchStatus (new : Word) : Respects R E (branchStatus new : CpuM F σ Word) :=
  respects_iff.mpr (h.linked.branchStatus new)

theorem opcodeExec : Respects R E (opcodeExec hf) := respects_iff.mpr h.linked.opcodeExec

section Loop

variable (hE : ∀ e, E e) (hpc : ∀ m n, R m n → ∀ v, R { m with regPc := v } { n with regPc := v })

include hE hpc

theorem instruction : Respects R E (instruction hf) := respects_iff.mpr (h.linked.instruction (hE _) fun m n hR v _ => hpc m n hR v)

theorem cpuThread (cb : Option (StepCb τ)) (n : Nat) (t : τ) : Respects R E (cpuThread hf cb n t) :=
  respects_iff.mpr (h.linked.cpuThread (hE _) (fun m n hR v _ => hpc m n hR v) cb n t)

end Loop

end Stable

section Invariant

variable {I : Machine F σ → Prop} (h : Invariant hf I)

include h

theorem Invariant.stable : Stable hf (Along I) fun _ => True where
  pc _ _ hR := by rw [hR.1]
  regs _ _ hR := by rw [hR.1]
  branched _ _ hR := by rw [hR.1]
  page _ _ hR _ := by rw [hR.1]
  regsSet := by
    rintro m _ ⟨rfl, hm⟩ r
    exact ⟨rfl, h.regs m hm r⟩
  branchedSet := by
    rintro m _ ⟨rfl, hm⟩ b
    exact ⟨rfl, h.control m hm m.regPc b⟩
  push := by
    rintro m _ ⟨rfl, hm⟩ i v
    exact ⟨rfl, h.push m hm i v⟩
  read a := respects_along.mpr (h.read a)
  write a v := by
    rw [memWrite_eq]
    exact (respects_along.mpr (h.transl a)).bind fun a => respects_along.mpr (h.write a v)
  inc a v := by
    rw [memInc_eq]
    refine (respects_along.mpr (h.transl a)).bind fun a => .get_bind (fun m n hR => by rw [hR.1]) fun m => ?_
    exact respects_along.mpr (h.write a _)
  exc ty a s := respects_along.mpr (h.exc ty a s)

theorem Invariant.cpuThread (cb : Option (StepCb τ)) (n : Nat) (t : τ) : Keeps I (cpuThread hf cb n t) := by
  refine respects_along.mp (h.stable.cpuThread (fun _ => trivial) ?_ cb n t)
  rintro m _ ⟨rfl, hm⟩ v
  exact ⟨rfl, h.control m hm v m.regPcBranched⟩

theorem Invariant.fetchReset : Keeps I (fetchReset hf) :=
  respects_along.mp ((h.stable.read16 _).bind fun _ => .of_discard (h.stable.branchStatus _))

theorem Invariant.fromReset (cb : Option (StepCb τ)) (n : Nat) (t : τ) :
    Keeps I (do
      Sfot.fetchReset hf
      discard (Sfot.cpuThread hf cb n t)
      return true) :=
  respects_along.mp <| (respects_along.mpr h.fetchReset).bind fun _ =>
    (respects_along.mpr (h.cpuThread cb n t)).of_discard.bind fun _ => .pure _

end Invariant

end Bugnes.CpuTwoRuns
