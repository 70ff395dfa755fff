import Bugnes.PlainRefinement
import Bugnes.Rounds
import Bugnes.Sfot

namespace Bugnes.Tracing

open Words Memhooks CpuCore Addr OpcodeTable Opcodes Plain PlainRuns PlainRefinement Disas Sfot TwoMachines
  TwoRuns Rounds

variable {F σ τ : Type} {hf : HookFuns F σ}

/-- Taking the record of a step leaves the machine and its hooks as they are. -/
def Unseen (hf : HookFuns F σ) (m : Machine F σ) : Prop := ∃ info, (collectStepInfo hf).run m = .ok (info, m)

def Still (hf : HookFuns F σ) (m : Machine F σ) (a : Word) : Prop := ∃ v, (memRead hf a).run m = .ok (v, m)

/-- Reading the bytes of the current instruction changes nothing. -/
def StillBytes (hf : HookFuns F σ) (m : Machine F σ) : Prop :=
  ∃ b, (memRead hf m.regPc).run m = .ok (b, m) ∧
    ∀ i, 0 < i → i < (lenOf (opcodeAt b).addrMode).toNat → Still hf m (m.regPc + BitVec.ofNat 16 i)

section Record

variable {m : Machine F σ} {b : Byte}

theorem operandText_ok (byte1 byte2 : Byte) {mode : AddrMode} (h : mode ≠ .max) :
    ∃ text, operandText ((lenOf mode).toNat - 1) mode byte1 byte2 = .ok text := by
  cases mode with
  | max => exact absurd rfl h
  | _ => exact ⟨_, rfl⟩

theorem operandByte_still (hb : (memRead hf m.regPc).run m = .ok (b, m)) {i : Word}
    (h : i < lenOf (opcodeAt b).addrMode → Still hf m (m.regPc + i)) :
    ∃ v, (operandByte hf i).run m = .ok (v, m) := by
  rw [operandByte, StateT.run_bind, opcodeLen_of_read hf hb, ok_bind]
  by_cases hi : i < lenOf (opcodeAt b).addrMode
  · obtain ⟨v, hv⟩ := h hi
    exact ⟨v, by rw [if_pos hi, StateT.run_bind, getPc_run, ok_bind, hv]⟩
  · exact ⟨0#8, by rw [if_neg hi]; rfl⟩

theorem collectStepInfo_still (h : StillBytes hf m) : Unseen hf m := by
  obtain ⟨b, hb, hrest⟩ := h
  have hoperand : ∀ i : Word, 0#16 < i → i < lenOf (opcodeAt b).addrMode → Still hf m (m.regPc + i) := by
    intro i hpos hi
    simpa using hrest i.toNat (BitVec.lt_def.mp hpos) (BitVec.lt_def.mp hi)
  obtain ⟨v₁, h₁⟩ := operandByte_still hb (hoperand 1#16 (by decide))
  obtain ⟨v₂, h₂⟩ := operandByte_still hb (hoperand 2#16 (by decide))
  have hlen := opcodeLen_of_read hf hb
  obtain ⟨text, htext⟩ := operandText_ok v₁ v₂ (addrMode_ne_max b)
  obtain ⟨info, hinfo⟩ : ∃ info, disassembleOpcode ⟨0, m.regPc, m.shortRegs,
      ((opcodeAt b).name.toList.take 3).takeD 4 nul, (opcodeAt b).addrMode,
      (lenOf (opcodeAt b).addrMode).toNat - 1, (v₁, v₂), List.replicate 128 nul⟩ = .ok info :=
    disassembleOpcode_ok roomy_cleared (by rw [List.takeD_length]) htext
  refine ⟨info, ?_⟩
  simp only [collectStepInfo, opcodeGetName, opcodeGetAddrMode, opcodeGetParams, StateT.run_bind, StateT.run_get,
    StateT.run_pure, getPc_run, hb, h₁, h₂, hlen, hinfo, ok_bind, pure_eq_ok, ofExcept]

end Record

theorem discard_cpuThread_none (n : Nat) (t : τ) :
    discard (cpuThread hf none n t) = rounds (instruction hf) n := by
  induction n with
  | zero => rw [cpuThread, discard_eq_bind, pure_bind, rounds]
  | succ n ih =>
      have hround : discard (cpuThread hf none (n + 1) t) =
          instruction hf >>= fun _ => discard (cpuThread hf none n t) := by
        simp only [cpuThread, cpuStep, discard_eq_bind, bind_assoc, pure_bind, Bool.false_eq_true, if_false]
      rw [hround, ih, rounds]

theorem discard_cpuThread_some {cb : StepCb τ} (hcb : ∀ info t, (cb info t).1 = 0) (n : Nat) (t : τ) :
    discard (cpuThread hf (some cb) n t) =
      rounds (instruction hf >>= fun _ => discard (collectStepInfo hf)) n := by
  induction n generalizing t with
  | zero => rw [cpuThread, discard_eq_bind, pure_bind, rounds]
  | succ n ih =>
      have hround : discard (cpuThread hf (some cb) (n + 1) t) =
          instruction hf >>= fun _ => collectStepInfo hf >>= fun info =>
            discard (cpuThread hf (some cb) n (cb info t).2) := by
        simp only [cpuThread, cpuStep, discard_eq_bind, bind_assoc, pure_bind, hcb, ne_eq,
          not_true_eq_false, decide_false, Bool.false_eq_true, if_false]
      simp only [hround, ih, rounds, discard_eq_bind, bind_assoc, pure_bind]

def traced (hf : HookFuns F σ) (cb : StepCb τ) (n : Nat) (t : τ) : CpuM F σ Unit :=
  discard (cpuThread hf (some cb) n t)

def untraced (hf : HookFuns F σ) (n : Nat) (t : τ) : CpuM F σ Unit := discard (cpuThread hf none n t)

def After (hf : HookFuns F σ) (t : τ) (m m' : Machine F σ) : Prop := ∃ n, (untraced hf (n + 1) t).run m = .ok ((), m')

/-- A callback that never ends the loop is unseen by the machine exactly when
the records it gets are, and they are where the bytes of every executed
instruction can be read again without a hook moving on. -/
theorem tracing_unseen {cb : StepCb τ} (hcb : ∀ info t, (cb info t).1 = 0) (t : τ) (m : Machine F σ) :
    ((∀ n, (traced hf cb n t).run m = (untraced hf n t).run m) ↔ ∀ m', After hf t m m' → Unseen hf m') ∧
    ((∀ m', After hf t m m' → StillBytes hf m') → ∀ n, (traced hf cb n t).run m = (untraced hf n t).run m) := by
  have hiff : (∀ n, (traced hf cb n t).run m = (untraced hf n t).run m) ↔ ∀ m', After hf t m m' → Unseen hf m' := by
    simp only [traced, untraced, After, discard_cpuThread_some hcb, discard_cpuThread_none, rounds_probe,
      discard_run_iff, Unseen, forall_exists_index]
    exact forall_comm
  exact ⟨hiff, fun h => hiff.mpr fun m' hm' => collectStepInfo_still (h m' hm')⟩

/-- A read hook that counts its calls and reads as a NOP. -/
def counting : HookFuns Unit Nat where
  read _ _ := do
    modify fun m => { m with world := m.world + 1 }
    return 0xEA#8
  write _ _ v := return v
  transl _ a := return a
  exc _ _ _ := return ()

def counted : Machine Unit Nat where
  regPc := 0
  shortRegs := ⟨0, 0, 0, 0, 0⟩
  mem _ := 0
  regPcBranched := 0x200
  allMh := Function.update empty .read [⟨0x200, 0x300, some (), none⟩]
  ehFunV _ := none
  world := 0

def quiet : StepCb Unit := fun _ t => (0, t)

theorem tracing_unseen_counted :
    ((∀ n, (traced counting quiet n ()).run counted = (untraced counting n ()).run counted) ↔
      ∀ m', After counting () counted m' → Unseen counting m') ∧
    ((∀ m', After counting () counted m' → StillBytes counting m') →
      ∀ n, (traced counting quiet n ()).run counted = (untraced counting n ()).run counted) :=
  tracing_unseen (fun _ _ => rfl) () counted

theorem tracing_advances_hooks : (traced counting quiet 1 ()).run counted ≠ (untraced counting 1 ()).run counted := by
  intro h
  have hworld := congrArg (Except.map fun r => r.2.world) h
  have htraced : ((traced counting quiet 1 ()).run counted).map (fun r => r.2.world) = .ok 6 := by decide +kernel
  have huntraced : ((untraced counting 1 ()).run counted).map (fun r => r.2.world) = .ok 1 := by decide +kernel
  rw [htraced, huntraced] at hworld
  cases hworld

end Bugnes.Tracing
