import Bugnes.Transfers

namespace Bugnes.CompareBranch

open Words CpuCore Addr OpcodeTable Opcodes Registers Plain PlainRuns PlainRefinement InstrFrame Transfers

variable {F σ : Type}

def compared (f : AsmFun) (r : ShortRegs) : Option Byte :=
  match f with
  | .cmp => some r.acc
  | .cpx => some r.x
  | .cpy => some r.y
  | _ => none

def decided (f : AsmFun) (r v : Byte) : Option Bool :=
  match f with
  | .bcs => some (decide (r ≥ v))
  | .bcc => some (decide (r < v))
  | .beq => some (decide (r = v))
  | .bne => some (decide (r ≠ v))
  | .bmi => some ((r - v).getLsbD 7)
  | .bpl => some (!(r - v).getLsbD 7)
  | _ => none

def branchTarget (m : Machine F σ) : Word := m.regPc + 2#16 + (m.mem (m.regPc + 1#16)).signExtend 16

/-- A comparison changes nothing but N, Z and C. -/
structure Untouched (m m' : Machine F σ) : Prop where
  acc : m'.shortRegs.acc = m.shortRegs.acc
  x : m'.shortRegs.x = m.shortRegs.x
  y : m'.shortRegs.y = m.shortRegs.y
  sp : m'.shortRegs.sp = m.shortRegs.sp
  mem : m'.mem = m.mem
  flags : ∀ g ∈ [flagV, flagD, flagI], flag g m'.shortRegs = flag g m.shortRegs

/-- The branch at the PC is taken or not, and the fetch after it goes there. -/
structure Branches (hf : HookFuns F σ) (m m' : Machine F σ) (taken : Bool) : Prop where
  pending : m'.regPcBranched = if taken then branchTarget m else invalidAddress
  fetch : ∀ t, t < cpuAddrReservedStart → t = (if taken then branchTarget m else m.regPc + 2#16) →
    ∃ m'', (opcodeFetch hf).run m' = .ok ((), m'') ∧ m''.regPc = t

theorem effect_compare {f : AsmFun} {mode : AddrMode} {m : Machine F σ} {r : Byte}
    (hr : compared f m.shortRegs = some r) :
    effect f mode m = onRegs (cmpFlags r (operandOf mode m) m.shortRegs) := by
  cases f with
  | cmp | cpx | cpy =>
      cases hr
      rfl
  | _ => cases hr

section Flags

variable (a v : Byte) (r : ShortRegs)

theorem flagC_cmpFlags : flag flagC (cmpFlags a v r) = decide (a ≥ v) := flag_putFlag_self (by decide) _ _

theorem flagZ_cmpFlags : flag flagZ (cmpFlags a v r) = decide (a = v) := by
  have hzero : a - v = 0#8 ↔ a = v := BitVec.sub_eq_iff_eq_add.trans (by rw [BitVec.zero_add])
  rw [cmpFlags, flag_putFlag_of_disjoint (by decide), flagZ_nz]
  exact decide_eq_decide.mpr hzero

theorem flagN_cmpFlags : flag flagN (cmpFlags a v r) = (a - v).getLsbD 7 := by
  rw [cmpFlags, flag_putFlag_of_disjoint (by decide), flagN_nz, BitVec.msb_eq_getLsbD_last]

theorem condition_cmpFlags {f : AsmFun} {taken : Bool} (h : decided f a v = some taken) :
    condition f (cmpFlags a v r) = some taken := by
  cases f with
  | bcs =>
      rw [condition, flagC_cmpFlags]
      exact h
  | bcc =>
      have hlt : (!decide (a ≥ v)) = decide (a < v) := by
        rw [← decide_not]
        exact decide_eq_decide.mpr BitVec.not_le
      rw [condition, flagC_cmpFlags, hlt]
      exact h
  | beq =>
      rw [condition, flagZ_cmpFlags]
      exact h
  | bne =>
      rw [condition, flagZ_cmpFlags, ← decide_not]
      exact h
  | bmi =>
      rw [condition, flagN_cmpFlags]
      exact h
  | bpl =>
      rw [condition, flagN_cmpFlags]
      exact h
  | _ => cases h

end Flags

section Compare

variable {m : Machine F σ} {r : Byte}

theorem exec_compare (hr : compared (currentOp m).exec m.shortRegs = some r)
    (he : addrOf (currentOp m).addrMode m ≠ invalidAddress) :
    exec m = { m with shortRegs := cmpFlags r (m.mem (addrOf (currentOp m).addrMode m)) m.shortRegs } := by
  rw [exec, effect_compare hr, operandOf, if_pos he]
  rfl

theorem untouched_compare (v : Byte) : Untouched m { m with shortRegs := cmpFlags r v m.shortRegs } := by
  refine ⟨rfl, rfl, rfl, rfl, rfl, fun g hg => ?_⟩
  have hdisjoint : ∀ g ∈ [flagV, flagD, flagI], g &&& flagC = 0#8 ∧ g &&& flagN = 0#8 ∧ g &&& flagZ = 0#8 := by decide
  obtain ⟨hc, hn, hz⟩ := hdisjoint g hg
  exact (flag_putFlag_of_disjoint hc _ _).trans (flag_nz_of_disjoint hn hz _ _)

theorem decided_branch {f : AsmFun} {v : Byte} {taken : Bool} (h : decided f r v = some taken) :
    f ∈ [.bcs, .bcc, .beq, .bne, .bmi, .bpl] := by
  cases f with
  | bcs | bcc | beq | bne | bmi | bpl => decide
  | _ => cases h

theorem target_branch {taken : Bool} (hbranch : (currentOp m).exec ∈ [.bcs, .bcc, .beq, .bne, .bmi, .bpl])
    (hc : condition (currentOp m).exec m.shortRegs = some taken) :
    target m = if taken then some (branchTarget m) else none := by
  have hsome : targetOf (currentOp m).exec (currentOp m).addrMode m =
      if condition (currentOp m).exec m.shortRegs = some true then some (branchTarget m) else none := by
    cases hop : (currentOp m).exec with
    | bcs | bcc | beq | bne | bmi | bpl => rfl
    | _ => rw [hop] at hbranch; exact absurd hbranch (by decide)
  rw [target, hsome, hc]
  cases taken <;> rfl

theorem branch_taken (hf : HookFuns F σ) (h : HookFree m) (hb : m.regPcBranched = invalidAddress)
    {taken : Bool} (hbranch : (currentOp m).exec ∈ [.bcs, .bcc, .beq, .bne, .bmi, .bpl])
    (hc : condition (currentOp m).exec m.shortRegs = some taken) (ht : branchTarget m < cpuAddrReservedStart) :
    Branches hf m (exec m) taken := by
  have hjsr : (currentOp m).exec ≠ .jsr := fun hop => absurd (hop ▸ hbranch) (by decide)
  have hpending : (exec m).regPcBranched = if taken then branchTarget m else invalidAddress := by
    rw [exec_regPcBranched hb, if_neg hjsr, target_branch hbranch hc]
    cases taken <;> rfl
  refine ⟨hpending, fun t hlt hgoes => (fetch_pc_iff hf (exec_hookFree h) hlt).mpr ?_⟩
  subst hgoes
  cases taken with
  | false => exact nextPc_untaken hb hc
  | true =>
      have hvalid : branchTarget m ≠ invalidAddress := by
        intro he
        rw [he] at ht
        exact absurd ht (by decide)
      rw [nextPc, hpending, if_pos rfl, if_pos hvalid]
      rfl

end Compare

/-- After a comparison the branches decide the order of the register and the
operand as numbers without a sign; only BMI and BPL look at the difference. -/
theorem compare_branch (hf : HookFuns F σ) {m : Machine F σ} (h : HookFree m) {r : Byte}
    (hr : compared (currentOp m).exec m.shortRegs = some r)
    (he : addrOf (currentOp m).addrMode m ≠ invalidAddress) :
    ∃ m₁, (opcodeExec hf).run m = .ok ((), m₁) ∧ Untouched m m₁ ∧
      ∀ m₂ taken, (opcodeFetch hf).run m₁ = .ok ((), m₂) →
        decided (currentOp m₂).exec r (m.mem (addrOf (currentOp m).addrMode m)) = some taken →
        branchTarget m₂ < cpuAddrReservedStart →
        ∃ m₃, (opcodeExec hf).run m₂ = .ok ((), m₃) ∧ Branches hf m₂ m₃ taken := by
  have hexec := exec_compare hr he
  refine ⟨exec m, opcodeExec_hookFree hf h, hexec ▸ untouched_compare _, fun m₂ taken hfetch hdecided ht => ?_⟩
  have hfree : HookFree (exec m) := exec_hookFree h
  have hfetched : Fetched hf m₂ := ⟨exec m, hfree, hfetch⟩
  obtain ⟨hfree₂, hb₂, -⟩ := hfetched.inv
  have hregs : m₂.shortRegs = cmpFlags r (m.mem (addrOf (currentOp m).addrMode m)) m.shortRegs := by
    rw [opcodeFetch_run hf fun _ => hfree.at _, hexec] at hfetch
    split at hfetch
    · cases hfetch
      rfl
    · cases hfetch
  have hcondition := condition_cmpFlags _ _ m.shortRegs hdecided
  rw [← hregs] at hcondition
  exact ⟨exec m₂, opcodeExec_hookFree hf hfree₂, branch_taken hf hfree₂ hb₂ (decided_branch hdecided) hcondition ht⟩

def comparing : Machine Empty Unit := bare 0x200 ⟨0xFF, 3, 0, 0, 1⟩ (bytesAt 0x200 [0xC9, 0x05, 0x90, 0x10])

theorem compare_branch_less :
    ∃ m₁ m₂ m₃, (opcodeExec noHooks).run comparing = .ok ((), m₁) ∧ Untouched comparing m₁ ∧
      (opcodeFetch noHooks).run m₁ = .ok ((), m₂) ∧ (opcodeExec noHooks).run m₂ = .ok ((), m₃) ∧
      Branches noHooks m₂ m₃ true := by
  obtain ⟨m₁, hexec, huntouched, hbranch⟩ :=
    compare_branch noHooks (m := comparing) (bare_hookFree _ _ _) rfl (by decide)
  have hfree : HookFree comparing := bare_hookFree _ _ _
  obtain rfl : exec comparing = m₁ := by
    rw [opcodeExec_hookFree noHooks hfree] at hexec
    cases hexec
    rfl
  have hfetch : (opcodeFetch noHooks).run (exec comparing) = .ok ((), { exec comparing with
      regPc := nextPc (exec comparing), regPcBranched := invalidAddress }) := by
    rw [opcodeFetch_run noHooks fun _ => (exec_hookFree hfree).at _, if_pos (by decide +kernel)]
  obtain ⟨m₃, hexec₂, htaken⟩ := hbranch _ true hfetch (by decide +kernel) (by decide +kernel)
  exact ⟨_, _, m₃, hexec, huntouched, hfetch, hexec₂, htaken⟩

end Bugnes.CompareBranch
