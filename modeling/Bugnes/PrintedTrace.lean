import Bugnes.Lines
import Bugnes.Locality
import Bugnes.Simple6502
import Bugnes.TraceLine

namespace Bugnes.PrintedTrace

open Words Memhooks CpuCore OpcodeTable Plain PlainRuns PlainRefinement Disas Sfot StepRecord TraceLine Lines Simple6502

variable {F F' σ σ' : Type} {hf : HookFuns F σ} {hf' : HookFuns F' σ'} {m : Machine F σ} {m' : Machine F' σ'}

/-- The states after each round of the loop. -/
def Trail (hf : HookFuns F σ) : Machine F σ → List (Machine F σ) → Prop
  | _, [] => True
  | m, q :: qs => (instruction hf).run m = .ok ((), q) ∧ Trail hf q qs

/-- Nothing hooks the reads of the instruction at the PC. -/
def Clear (q : Machine F σ) : Prop :=
  ∀ i ≤ 2#16, check q.allMh .transl (q.regPc + i) = none ∧ check q.allMh .read (q.regPc + i) = none

def parAt (q : Machine F σ) (i : Word) : Byte :=
  if i < lenOf (currentOp q).addrMode then q.mem (q.regPc + i) else 0#8

/-- What a line is about: the place, the instruction there and the registers. -/
def shown (q : Machine F σ) : Word × Byte × (Byte × Byte) × ShortRegs :=
  (q.regPc, q.mem q.regPc, (parAt q 1#16, parAt q 2#16), q.shortRegs)

def lineFor (s : Word × Byte × (Byte × Byte) × ShortRegs) : List Char := traceLine (opcodeAt s.2.1) s.1 s.2.2.1 s.2.2.2

def lineOf (q : Machine F σ) : List Char := lineFor (shown q)

def stdout (out : List String) : List Char := text String.toList '\n' out

section Record

variable (hf) {q : Machine F σ} (h : Clear q)

include h

theorem memRead_clear {i : Word} (hi : i ≤ 2#16) :
    (memRead hf (q.regPc + i)).run q = .ok (q.mem (q.regPc + i), q) := by
  obtain ⟨htransl, hread⟩ := h i hi
  simp [memRead, translAddr, htransl, hread]

theorem memRead_opcode : (memRead hf q.regPc).run q = .ok (q.mem q.regPc, q) := by
  have hzero := memRead_clear hf h (i := 0#16) (by decide)
  rwa [BitVec.add_zero] at hzero

theorem operandByte_clear {i : Word} (hi : i ≤ 2#16) : (operandByte hf i).run q = .ok (parAt q i, q) := by
  rw [operandByte, StateT.run_bind, opcodeLen_of_read hf (memRead_opcode hf h), ok_bind, parAt]
  by_cases hlt : i < lenOf (currentOp q).addrMode
  · rw [if_pos hlt]
    exact (congrArg (StateT.run · q) (if_pos hlt)).trans (memRead_clear hf h hi)
  · rw [if_neg hlt]
    exact congrArg (StateT.run · q) (if_neg hlt)

theorem collectStepInfo_clear :
    (collectStepInfo hf).run q =
      .ok (recordOf (currentOp q) q.regPc (parAt q 1#16, parAt q 2#16) q.shortRegs, q) := by
  have hb := memRead_opcode hf h
  have hlen := opcodeLen_of_read hf hb
  have hrecord : disassembleOpcode ⟨0, q.regPc, q.shortRegs, nameField (currentOp q), (currentOp q).addrMode,
      (lenOf (currentOp q).addrMode).toNat - 1, (parAt q 1#16, parAt q 2#16), List.replicate 128 nul⟩ =
      .ok (recordOf (currentOp q) q.regPc (parAt q 1#16, parAt q 2#16) q.shortRegs) :=
    disassembleOpcode_record (named _) (addrMode_ne_max _) _ _ _
  have h₁ := operandByte_clear hf h (i := 1#16) (by decide)
  have h₂ := operandByte_clear hf h (i := 2#16) (by decide)
  simp only [nameField, currentOp] at hrecord
  simp only [collectStepInfo, opcodeGetName, opcodeGetAddrMode, opcodeGetParams, StateT.run_bind, StateT.run_get,
    StateT.run_pure, getPc_run, hb, h₁, h₂, hlen, hrecord, ok_bind, pure_eq_ok, ofExcept]
  rfl

end Record

section Text

variable {qs : List (Machine F σ)} {qs' : List (Machine F' σ')}

theorem run_prints (hqs : Trail hf m qs) (hclear : ∀ q ∈ qs, Clear q) (out : List String) :
    (cpuThread hf (some stepCb) qs.length out).run m =
      .ok ((false, out ++ qs.map (String.ofList <| lineOf ·)), qs.getLastD m) := by
  induction qs generalizing m out with
  | nil =>
      rw [List.map_nil, List.append_nil]
      rfl
  | cons q qs ih =>
      obtain ⟨hround, hrest⟩ := hqs
      have hinfo := collectStepInfo_clear hf (hclear q (.head _))
      have hline : cString (recordOf (currentOp q) q.regPc (parAt q 1#16, parAt q 2#16) q.shortRegs).opcodeDecoded =
          lineOf q := cString_record (named _)
      have hstep : (cpuStep hf (some stepCb) out).run m = .ok ((false, out ++ [String.ofList (lineOf q)]), q) := by
        rw [cpuStep, StateT.run_bind, hround, ok_bind]
        simp only [StateT.run_bind, hinfo, ok_bind, ← hline]
        rfl
      rw [List.length_cons, cpuThread, StateT.run_bind, hstep, ok_bind]
      have hrun := ih hrest (fun q' hq' => hclear q' (.tail _ hq')) (out ++ [String.ofList (lineOf q)])
      rw [List.append_assoc] at hrun
      cases qs <;> exact hrun

theorem length_lineOf (q : Machine F σ) : (lineOf q).length = 49 := by
  have hfront : (headField (currentOp q) q.regPc ++
      operandField (currentOp q).addrMode (parAt q 1#16, parAt q 2#16)).length = 24 :=
    length_front (named _) (addrMode_ne_max _) _ _
  exact (List.length_append).trans (congrArg₂ (· + ·) hfront (length_registerField q.shortRegs))

theorem stdout_lines (qs : List (Machine F σ)) :
    stdout (qs.map (String.ofList <| lineOf ·)) = text id '\n' (qs.map lineOf) := by
  simp [stdout, text, List.flatMap_map]

theorem lineOf_inj {q : Machine F σ} {q' : Machine F' σ'} (hdoc : Documented (currentOp q)) (h : lineOf q = lineOf q') :
    shown q = shown q' := by
  have hline : traceLine (currentOp q) q.regPc (parAt q 1#16, parAt q 2#16) q.shortRegs =
      traceLine (currentOp q') q'.regPc (parAt q' 1#16, parAt q' 2#16) q'.shortRegs := h
  obtain ⟨hpc, hname, hmode, hlow, hhigh, hregs⟩ :=
    traceLine_inj (named _) (named _) (addrMode_ne_max _) (addrMode_ne_max _) hline
  have hbyte : q.mem q.regPc = q'.mem q'.regPc := (opcodeAt_inj hdoc hname.symm hmode.symm).symm
  have hop : currentOp q = currentOp q' := by rw [currentOp, currentOp, hbyte]
  have hpar : ∀ i, (i < lenOf (currentOp q).addrMode → parAt q i = parAt q' i) → parAt q i = parAt q' i := by
    intro i h
    by_cases hi : i < lenOf (currentOp q).addrMode
    · exact h hi
    · rw [parAt, parAt, if_neg hi, if_neg (hop ▸ hi)]
  rw [shown, shown, hbyte, hpc, hregs, hpar 1#16 fun hi => hlow (BitVec.lt_def.mp hi),
    hpar 2#16 fun hi => hhigh (BitVec.lt_def.mp hi)]

theorem map_lineFor (qs : List (Machine F σ)) : (qs.map shown).map lineFor = qs.map lineOf := List.map_map

theorem map_shown_of_lines (hdoc : ∀ q ∈ qs, Documented (currentOp q)) (h : qs.map lineOf = qs'.map lineOf) :
    qs.map shown = qs'.map shown := by
  induction qs generalizing qs' with
  | nil =>
      cases qs' with
      | nil => rfl
      | cons q' qs' => cases h
  | cons q qs ih =>
      cases qs' with
      | nil => cases h
      | cons q' qs' =>
          obtain ⟨hline, hrest⟩ := List.cons.inj h
          rw [List.map_cons, List.map_cons, lineOf_inj (hdoc q (.head _)) hline,
            ih (fun r hr => hdoc r (.tail _ hr)) hrest]

/-- Runs of any two machines print the same exactly when all their steps are the same. -/
theorem stdout_lossless (hqs : Trail hf m qs) (hqs' : Trail hf' m' qs') (hclear : ∀ q ∈ qs, Clear q)
    (hclear' : ∀ q ∈ qs', Clear q) (hdoc : ∀ q ∈ qs, Documented (currentOp q)) :
    ∃ out out', (cpuThread hf (some stepCb) qs.length []).run m = .ok ((false, out), qs.getLastD m) ∧
      (cpuThread hf' (some stepCb) qs'.length []).run m' = .ok ((false, out'), qs'.getLastD m') ∧
      (stdout out = stdout out' ↔ qs.map shown = qs'.map shown) := by
  refine ⟨_, _, run_prints hqs hclear [], run_prints hqs' hclear' [], ?_⟩
  rw [List.nil_append, List.nil_append, stdout_lines, stdout_lines]
  constructor
  · intro h
    have hlength : ∀ {F σ : Type} (qs : List (Machine F σ)), ∀ line ∈ qs.map lineOf, (id line).length = 49 := by
      intro F σ qs line hline
      obtain ⟨q, -, rfl⟩ := List.mem_map.mp hline
      exact length_lineOf q
    have hlines := text_inj_of_length (hlength qs) (hlength qs') h
    rw [List.map_id, List.map_id] at hlines
    exact map_shown_of_lines hdoc hlines
  · intro h
    have hlines : qs.map lineOf = qs'.map lineOf := by
      rw [← map_lineFor, ← map_lineFor, h]
    rw [hlines]

end Text

def storingOf (v : Byte) : Machine Empty Unit :=
  { bare 0x8000 ⟨0xFF, 0, 1, 2, 3⟩ (bytesAt 0x8000 [0xA9, v, 0x8D, 0x00, 0x60]) with regPcBranched := 0x8000 }

def loadedOf (v : Byte) : Machine Empty Unit := exec (Locality.fetched (storingOf v))

def storedOf (v : Byte) : Machine Empty Unit := exec (Locality.fetched (loadedOf v))

theorem trail_cons {m : Machine Empty Unit} {qs : List (Machine Empty Unit)} (h : HookFree m)
    (hpc : nextPc m < cpuAddrReservedStart) (hqs : Trail noHooks (exec (Locality.fetched m)) qs) :
    Trail noHooks m (exec (Locality.fetched m) :: qs) := by
  refine ⟨?_, hqs⟩
  rw [instruction, StateT.run_bind, opcodeFetch_run noHooks fun _ => h.at _, if_pos hpc, ok_bind]
  exact opcodeExec_hookFree noHooks ⟨h.memhooks, h.excepthooks⟩

theorem storingOf_trail {v : Byte} (hfirst : nextPc (storingOf v) < cpuAddrReservedStart)
    (hsecond : nextPc (loadedOf v) < cpuAddrReservedStart) : Trail noHooks (storingOf v) [loadedOf v, storedOf v] :=
  trail_cons ⟨fun _ => rfl, fun _ => rfl⟩ hfirst (trail_cons ⟨fun _ => rfl, fun _ => rfl⟩ hsecond trivial)

theorem stdout_lossless_storing :
    ∃ out out', (cpuThread noHooks (some stepCb) 2 []).run (storingOf 5) = .ok ((false, out), storedOf 5) ∧
      (cpuThread noHooks (some stepCb) 2 []).run (storingOf 6) = .ok ((false, out'), storedOf 6) ∧
      stdout out ≠ stdout out' := by
  have hclear (v : Byte) : ∀ q ∈ [loadedOf v, storedOf v], Clear q :=
    List.forall_mem_cons.mpr ⟨fun _ _ => ⟨rfl, rfl⟩, List.forall_mem_singleton.mpr fun _ _ => ⟨rfl, rfl⟩⟩
  have hdoc : ∀ q ∈ [loadedOf 5, storedOf 5], Documented (currentOp q) :=
    List.forall_mem_cons.mpr ⟨by rw [Documented]; decide +kernel,
      List.forall_mem_singleton.mpr (by rw [Documented]; decide +kernel)⟩
  obtain ⟨out, out', hrun, hrun', hiff⟩ :=
    stdout_lossless (storingOf_trail (v := 5) (by decide +kernel) (by decide +kernel))
      (storingOf_trail (v := 6) (by decide +kernel) (by decide +kernel)) (hclear 5) (hclear 6) hdoc
  have hother : [loadedOf 5, storedOf 5].map shown ≠ [loadedOf 6, storedOf 6].map shown := by decide +kernel
  exact ⟨out, out', hrun, hrun', mt hiff.mp hother⟩

end Bugnes.PrintedTrace
