import Bugnes.InstrStores
import Bugnes.Operands
import Bugnes.StepRecord

namespace Bugnes.StepReport

open Words Memhooks CpuCore Registers Addr OpcodeTable Opcodes Plain PlainRuns PlainRefinement Sfot
open StatelessHooks InstrStores Operands StepRecord Disas

variable {F σ : Type}

section Report

variable (p : PureHooks F) (m : Machine F σ)

def stores : List (Word × Byte) := storesOf p m (opcodeOf p m).exec (opcodeOf p m).addrMode

def cellAt (i : Word) : Word := translated p m.allMh (m.regPc + i)

def recordAt : SfotStepInfo := recordOf (opcodeOf p m) m.regPc (parBytes p m) m.shortRegs

/-- The record names the instruction at the PC as it stands. -/
structure Reports (info : SfotStepInfo) : Prop where
  pc : info.regPc = m.regPc
  name : info.opcodeName = nameField (opcodeOf p m)
  mode : info.addrMode = (opcodeOf p m).addrMode
  parN : info.opcodeParN = (lenOf (opcodeOf p m).addrMode).toNat - 1
  par : info.opcodePar = parBytes p m

/-- What the instruction stores into the cells it is read from is what is there.
A byte that a hook answers for may be stored to as one likes. -/
def BytesKept : Prop :=
  ∀ i < lenOf (opcodeOf p m).addrMode, check m.allMh .read (cellAt p m i) = none →
    ∀ w ∈ stores p m, w.1 = cellAt p m i → w.2 = m.mem w.1

end Report

section Reading

variable {p : PureHooks F} {m m₁ : Machine F σ}

theorem seen_stored_iff {t : AllMh F} {ws : List (Word × Byte)} (hnodup : (ws.map Prod.fst).Nodup)
    (mem : Word → Byte) (a : Word) :
    seen p t (storeAll ws mem) a = seen p t mem a ↔
      (check t .read (translated p t a) = none → ∀ w ∈ ws, w.1 = translated p t a → w.2 = mem w.1) := by
  have hcell : (∀ w ∈ ws, w.1 = translated p t a → w.2 = mem w.1) ↔
      ∀ w ∈ ws, w.1 = translated p t a → w.2 = mem (translated p t a) :=
    forall₂_congr fun w _ => forall_congr' fun he => by rw [he]
  rw [hcell, ← storeAll_eq_iff hnodup]
  cases hc : check t .read (translated p t a) with
  | none => simp [seen, hc]
  | some f => simp [seen, hc]

theorem lt_lenOf_zero (b : Byte) : 0#16 < lenOf (opcodeAt b).addrMode :=
  forall_opcode (P := fun op => 0#16 < lenOf op.addrMode) (by decide +kernel) b

def SameBytes (p : PureHooks F) (m m₁ : Machine F σ) : Prop :=
  ∀ i < lenOf (opcodeOf p m).addrMode, seen p m.allMh m₁.mem (m.regPc + i) = seen p m.allMh m.mem (m.regPc + i)

theorem opcodeByte_of_sameBytes (hpc : m₁.regPc = m.regPc) (hmh : m₁.allMh = m.allMh) (h : SameBytes p m m₁) :
    opcodeByte p m₁ = opcodeByte p m := by
  have hzero := h 0#16 (lt_lenOf_zero _)
  rw [BitVec.add_zero] at hzero
  rw [opcodeByte, opcodeByte, hpc, hmh, hzero]

theorem parByte_of_sameBytes (hpc : m₁.regPc = m.regPc) (hmh : m₁.allMh = m.allMh) (h : SameBytes p m m₁) (i : Word) :
    parByte p m₁ i = parByte p m i := by
  have hop : opcodeOf p m₁ = opcodeOf p m := congrArg opcodeAt (opcodeByte_of_sameBytes hpc hmh h)
  rw [parByte, parByte, hop, hpc, hmh]
  by_cases hi : i < lenOf (opcodeOf p m).addrMode
  · rw [if_pos hi, if_pos hi, h i hi]
  · rw [if_neg hi, if_neg hi]

theorem sameBytes_of_parByte (hpc : m₁.regPc = m.regPc) (hmh : m₁.allMh = m.allMh)
    (hbyte : opcodeByte p m₁ = opcodeByte p m) (h₁ : parByte p m₁ 1#16 = parByte p m 1#16)
    (h₂ : parByte p m₁ 2#16 = parByte p m 2#16) : SameBytes p m m₁ := by
  have hop : opcodeOf p m₁ = opcodeOf p m := congrArg opcodeAt hbyte
  have hle : (lenOf (opcodeOf p m).addrMode).toNat ≤ 3 := toNat_lenOf_le _
  have hpar : ∀ i, i < lenOf (opcodeOf p m).addrMode → parByte p m₁ i = parByte p m i →
      seen p m.allMh m₁.mem (m.regPc + i) = seen p m.allMh m.mem (m.regPc + i) := by
    intro i hi he
    rwa [parByte, parByte, hop, hpc, hmh, if_pos hi, if_pos hi] at he
  intro i hi
  have hi' := BitVec.lt_def.mp hi
  have hcases : i = 0#16 ∨ i = 1#16 ∨ i = 2#16 := by
    have hthree : i.toNat = 0 ∨ i.toNat = 1 ∨ i.toNat = 2 := by omega
    rcases hthree with h | h | h
    · exact .inl (BitVec.eq_of_toNat_eq h)
    · exact .inr (.inl (BitVec.eq_of_toNat_eq h))
    · exact .inr (.inr (BitVec.eq_of_toNat_eq h))
  rcases hcases with rfl | rfl | rfl
  · rwa [opcodeByte, opcodeByte, hpc, hmh, ← BitVec.add_zero m.regPc] at hbyte
  · exact hpar 1#16 hi h₁
  · exact hpar 2#16 hi h₂

theorem nameField_inj {b b' : Byte} (h : nameField (opcodeAt b) = nameField (opcodeAt b')) :
    (opcodeAt b).name = (opcodeAt b').name := by
  rw [nameField_eq (named b), nameField_eq (named b')] at h
  exact String.toList_injective (List.append_cancel_right h)

variable (hpc : m₁.regPc = m.regPc) (hmh : m₁.allMh = m.allMh)

include hpc hmh

/-- A record that is right about the mnemonic and the mode is right about the
opcode, as an undocumented one stores nothing. -/
theorem opcodeByte_of_record (hmem : m₁.mem = storeAll (stores p m) m.mem)
    (hname : nameField (opcodeOf p m₁) = nameField (opcodeOf p m))
    (hmode : (opcodeOf p m₁).addrMode = (opcodeOf p m).addrMode) : opcodeByte p m₁ = opcodeByte p m := by
  by_cases hdoc : (opcodeOf p m).name = "XXX"
  · have hnop : (opcodeOf p m).exec = .nop := exec_of_unknown _ hdoc
    have hnone : stores p m = [] := by rw [stores, hnop]; rfl
    rw [opcodeByte, opcodeByte, hpc, hmh, hmem, hnone]
    rfl
  · exact opcodeAt_inj hdoc (nameField_inj hname) hmode

theorem reports_iff_sameBytes (hmem : m₁.mem = storeAll (stores p m) m.mem) :
    Reports p m (recordAt p m₁) ↔ SameBytes p m m₁ := by
  constructor
  · intro h
    have hpar := Prod.ext_iff.mp h.par
    exact sameBytes_of_parByte hpc hmh (opcodeByte_of_record hpc hmh hmem h.name h.mode) hpar.1 hpar.2
  · intro h
    have hop : opcodeOf p m₁ = opcodeOf p m := congrArg opcodeAt (opcodeByte_of_sameBytes hpc hmh h)
    have hpar := parByte_of_sameBytes hpc hmh h
    refine ⟨hpc, congrArg nameField hop, congrArg SfotOpcode.addrMode hop, ?_, Prod.ext (hpar _) (hpar _)⟩
    exact congrArg (fun op : SfotOpcode => ((lenOf op.addrMode).toNat : Int) - 1) hop

omit hpc hmh in
theorem sameBytes_iff (hmem : m₁.mem = storeAll (stores p m) m.mem) : SameBytes p m m₁ ↔ BytesKept p m := by
  refine forall₂_congr fun i _ => ?_
  rw [hmem]
  exact seen_stored_iff (nodup_storesOf p m _ _) m.mem (m.regPc + i)

end Reading

section Steps

variable {hf : HookFuns F σ} {p : PureHooks F} {m₀ m : Machine F σ}

theorem opcodeExec_stores (h : Stateless hf p m.allMh) (hexc : Silent hf m) :
    Stores (opcodeExec hf) m (stores p m) :=
  .after_read (getPc_run m) (.after_read (memRead_stateless h m.regPc) (asm_stores h hexc _ _))

theorem opcodeFetch_keeps (h : Stateless hf p m₀.allMh) (hfetch : (opcodeFetch hf).run m₀ = .ok ((), m)) :
    m.allMh = m₀.allMh ∧ m.ehFunV = m₀.ehFunV := by
  have hread := memRead_stateless (m := { m₀ with regPcBranched := invalidAddress }) h m₀.regPc
  obtain ⟨next, hnext⟩ : ∃ next, next = if m₀.regPcBranched ≠ invalidAddress then m₀.regPcBranched
    else m₀.regPc + lenOf (opcodeAt (seen p m₀.allMh m₀.mem m₀.regPc)).addrMode := ⟨_, rfl⟩
  rw [opcodeFetch_of_read hf (fun _ => hread) hnext] at hfetch
  by_cases hlt : next < cpuAddrReservedStart
  · rw [if_pos hlt] at hfetch
    cases hfetch
    exact ⟨rfl, rfl⟩
  · rw [if_neg hlt] at hfetch
    cases hfetch

theorem cpuStep_record (h : Stateless hf p m₀.allMh) (hexc : Silent hf m₀)
    (hfetch : (opcodeFetch hf).run m₀ = .ok ((), m)) :
    ∃ m₁ : Machine F σ, m₁.regPc = m.regPc ∧ m₁.allMh = m.allMh ∧ m₁.mem = storeAll (stores p m) m.mem ∧
      ∀ (τ : Type) (cb : StepCb τ) (t : τ), (cpuStep hf (some cb) t).run m₀ =
        .ok ((decide ((cb (recordAt p m₁) t).1 ≠ 0), (cb (recordAt p m₁) t).2), m₁) := by
  obtain ⟨hmh, heh⟩ := opcodeFetch_keeps h hfetch
  have hm : Stateless hf p m.allMh := hmh ▸ h
  obtain ⟨m₁, hexec, hpc₁, hmh₁, hmem₁⟩ := opcodeExec_stores hm fun ty f hfun => hexc ty f (heh ▸ hfun)
  refine ⟨m₁, hpc₁, hmh₁, hmem₁, fun τ cb t => ?_⟩
  have hinfo : (collectStepInfo hf).run m₁ = .ok (recordAt p m₁, m₁) := collectStepInfo_stateless (hmh₁.symm ▸ hm)
  rw [cpuStep, instruction, StateT.run_bind, StateT.run_bind, hfetch, ok_bind, hexec, ok_bind]
  simp only [StateT.run_bind, hinfo, ok_bind]
  rfl

/-- The callback is told of the instruction that was executed if and only if that
left its own bytes as they were. -/
theorem step_told_iff (h : Stateless hf p m₀.allMh) (hexc : Silent hf m₀)
    (hfetch : (opcodeFetch hf).run m₀ = .ok ((), m)) :
    ∃ info m₁,
      (∀ (τ : Type) (cb : StepCb τ) (t : τ),
        (cpuStep hf (some cb) t).run m₀ = .ok ((decide ((cb info t).1 ≠ 0), (cb info t).2), m₁)) ∧
      (Reports p m info ↔ BytesKept p m) := by
  obtain ⟨m₁, hpc, hmh, hmem, hstep⟩ := cpuStep_record h hexc hfetch
  exact ⟨recordAt p m₁, m₁, hstep, (reports_iff_sameBytes hpc hmh hmem).trans (sameBytes_iff hmem)⟩

end Steps

def storing (target : Word) (a : Byte) : Machine Empty Unit :=
  bare 0x200 ⟨0xFF, a, 0, 0, 0⟩ (bytesAt 0x200 [0x8D, loByte target, hiByte target])

def starting (target : Word) (a : Byte) : Machine Empty Unit := { storing target a with regPcBranched := 0x200 }

theorem starting_fetch (target : Word) (a : Byte) :
    (opcodeFetch noHooks).run (starting target a) = .ok ((), storing target a) := by
  have hfree : HookFree (starting target a) := ⟨fun _ => rfl, fun _ => rfl⟩
  rw [opcodeFetch_run noHooks fun _ => hfree.at _]
  rfl

theorem opcodeOf_storing (target : Word) (a : Byte) :
    opcodeOf unhooked (storing target a) = ⟨"STA", .sta, .abs⟩ := by
  have hbyte : opcodeByte unhooked (storing target a) = 0x8D := by
    change (storing target a).mem 0x200 = 0x8D
    simp [storing, bare, bytesAt]
  rw [opcodeOf, hbyte]
  rfl

theorem stores_storing (target : Word) (a : Byte) : stores unhooked (storing target a) = [(target, a)] := by
  have haddr : addrOf .abs (viewed unhooked (storing target a)) = target := by
    change wordAt (storing target a).mem 0x201 = target
    simp [wordAt, storing, bare, bytesAt]
  rw [stores, opcodeOf_storing]
  exact congrArg (fun e => [(e, a)]) haddr

theorem noHooks_silent (m : Machine Empty Unit) : Silent noHooks m := fun _ f => f.elim

theorem step_told_iff_store :
    ∃ info m₁,
      (∀ (τ : Type) (cb : StepCb τ) (t : τ), (cpuStep noHooks (some cb) t).run (starting 0x300 0xEA) =
        .ok ((decide ((cb info t).1 ≠ 0), (cb info t).2), m₁)) ∧
      Reports unhooked (storing 0x300 0xEA) info := by
  obtain ⟨info, m₁, hstep, hiff⟩ :=
    step_told_iff unhooked_stateless (noHooks_silent (starting 0x300 0xEA)) (starting_fetch _ _)
  refine ⟨info, m₁, hstep, hiff.mpr fun i hi _ w hw hcell => ?_⟩
  rw [stores_storing, List.mem_singleton] at hw
  rw [opcodeOf_storing] at hi
  rw [hw] at hcell
  have haway : (0x300#16 : Word) ≠ 0x200#16 + i := by
    have hlt : i < 3#16 := hi
    bv_omega
  exact absurd hcell haway

theorem step_told_nop :
    ∃ info m₁, (cpuStep noHooks (some fun info _ => (0, some info)) none).run (starting 0x200 0xEA) =
        .ok ((false, some info), m₁) ∧
      info.opcodeName = nameField (opcodeAt 0xEA) ∧ info.addrMode = .imp ∧ info.opcodeParN = 0 ∧
      ¬Reports unhooked (storing 0x200 0xEA) info := by
  obtain ⟨m₁, hpc, hmh, hmem, hstep⟩ :=
    cpuStep_record unhooked_stateless (noHooks_silent (starting 0x200 0xEA)) (starting_fetch _ _)
  have hop : opcodeOf unhooked m₁ = opcodeAt 0xEA := by
    rw [stores_storing] at hmem
    rw [opcodeOf, opcodeByte, hpc, hmh, hmem]
    rfl
  have hmode : (recordAt unhooked m₁).addrMode = .imp := congrArg SfotOpcode.addrMode hop
  refine ⟨_, m₁, hstep _ _ _, congrArg nameField hop, hmode, ?_, fun hreports => ?_⟩
  · exact congrArg (fun op : SfotOpcode => ((lenOf op.addrMode).toNat : Int) - 1) hop
  · have habs := hreports.mode
    rw [hmode, opcodeOf_storing] at habs
    cases habs

end Bugnes.StepReport
