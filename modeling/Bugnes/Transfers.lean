import Bugnes.InstrFrame

namespace Bugnes.Transfers

open Words CpuCore Addr OpcodeTable Opcodes Registers Plain PlainRuns PlainRefinement InstrFrame

variable {F σ : Type}

def condition (f : AsmFun) (r : ShortRegs) : Option Bool :=
  match f with
  | .bcc => some (!flag flagC r)
  | .bcs => some (flag flagC r)
  | .beq => some (flag flagZ r)
  | .bmi => some (flag flagN r)
  | .bne => some (!flag flagZ r)
  | .bpl => some (!flag flagN r)
  | .bvc => some (!flag flagV r)
  | .bvs => some (flag flagV r)
  | _ => none

def operandWord (m : Machine F σ) : Word := wordAt m.mem (m.regPc + 1#16)

def targetOf (f : AsmFun) (mode : AddrMode) (m : Machine F σ) : Option Word :=
  let sp := m.shortRegs.sp
  match f with
  | .jmp => some (if mode = .ind then wordAt m.mem (operandWord m) else operandWord m)
  | .jsr => some (operandWord m)
  | .rts => some (wordOf (m.mem (stackAddr (sp + 1#8))) (m.mem (stackAddr (sp + 1#8 + 1#8))) + 1#16)
  | .brk => some (wordAt m.mem cpuAddrBreak)
  | f =>
      if condition f m.shortRegs = some true then
        some (m.regPc + 2#16 + (m.mem (m.regPc + 1#16)).signExtend 16)
      else none

def target (m : Machine F σ) : Option Word := targetOf (currentOp m).exec (currentOp m).addrMode m

/-- JSR reads its operand after its pushes. They leave it alone when they miss
its two bytes or push what is there already. -/
def OperandKept (m : Machine F σ) : Prop :=
  ∀ i ∈ [1#16, 2#16],
    (stackAddr m.shortRegs.sp = m.regPc + i → hiByte (m.regPc + 2#16) = m.mem (m.regPc + i)) ∧
    (stackAddr (m.shortRegs.sp - 1#8) = m.regPc + i → loByte (m.regPc + 2#16) = m.mem (m.regPc + i))

/-- The transfers the pending branch can deliver: the marker of no branch is
not a target, unless stepping over the instruction fails the assertion too. -/
def Deliverable (m : Machine F σ) (t : Word) : Prop :=
  (t ≠ invalidAddress ∨ cpuAddrReservedStart ≤ m.regPc + lenOf (currentOp m).addrMode) ∧
    ((currentOp m).exec = .jsr → OperandKept m)

section Fetches

variable (hf : HookFuns F σ)

def Honours (m : Machine F σ) (t : Word) : Prop :=
  if t < cpuAddrReservedStart then ∃ m', (opcodeFetch hf).run m = .ok ((), m') ∧ m'.regPc = t
  else (opcodeFetch hf).run m = .error .assertion

/-- The fetch after an instruction goes where its transfer goes, and behind a
branch that is not taken. -/
def Followed (m m₁ : Machine F σ) : Prop :=
  (∀ t, target m = some t → Honours hf m₁ t) ∧
    (condition (currentOp m).exec m.shortRegs = some false → m.regPc + 2#16 < cpuAddrReservedStart →
      ∃ m₂, (opcodeFetch hf).run m₁ = .ok ((), m₂) ∧ m₂.regPc = m.regPc + 2#16)

theorem fetch_pc_iff {m : Machine F σ} (h : HookFree m) {t : Word} (ht : t < cpuAddrReservedStart) :
    (∃ m', (opcodeFetch hf).run m = .ok ((), m') ∧ m'.regPc = t) ↔ nextPc m = t := by
  rw [opcodeFetch_run hf fun _ => h.at _]
  constructor
  · rintro ⟨m', hrun, rfl⟩
    split at hrun <;> cases hrun
    rfl
  · rintro rfl
    rw [if_pos ht]
    exact ⟨_, rfl, rfl⟩

theorem honours_iff {m : Machine F σ} (h : HookFree m) (t : Word) :
    Honours hf m t ↔ if t < cpuAddrReservedStart then nextPc m = t else cpuAddrReservedStart ≤ nextPc m := by
  unfold Honours
  split
  · next ht => exact fetch_pc_iff hf h ht
  · rw [opcodeFetch_run hf fun _ => h.at _, ← BitVec.not_lt]
    split <;> simp_all

end Fetches

def pushedOperand (m : Machine F σ) : Word :=
  operandWord ((pushedWord m.shortRegs (m.regPc + 2#16)).apply m)

def TransferMode (f : AsmFun) (mode : AddrMode) : Prop :=
  (f ∈ [.bcc, .bcs, .beq, .bmi, .bne, .bpl, .bvc, .bvs] → mode = .rel) ∧ (f = .jsr → mode = .abs) ∧
    (f = .jmp → mode = .abs ∨ mode = .ind)

theorem transferMode (b : Byte) : TransferMode (opcodeAt b).exec (opcodeAt b).addrMode :=
  forall_opcode (P := fun op => TransferMode op.exec op.addrMode) (by unfold TransferMode; decide +kernel) b

theorem effect_branch {f : AsmFun} {mode : AddrMode} (hmode : TransferMode f mode) (m : Machine F σ) :
    (effect f mode m).branch = if f = .jsr then some (pushedOperand m) else targetOf f mode m := by
  obtain ⟨hrel, habs, hjmp⟩ := hmode
  cases f with
  | bcc | bcs | beq | bmi | bne | bpl | bvc | bvs =>
      rw [hrel (by decide)]
      simp [effect, jump, targetOf, condition, addrOf]
  | jsr => rw [habs rfl]; rfl
  | jmp => rcases hjmp rfl with rfl | rfl <;> rfl
  | rts => rfl
  | brk => rfl
  | asl | lsr | rol | ror =>
      by_cases hv : addrOf mode m = invalidAddress <;> simp [effect, shifted, onRegs, targetOf, condition, hv]
  | _ => rfl

/-- The pending branch an instruction leaves is its target, except that JSR
takes its operand from the memory it has pushed to. -/
theorem exec_regPcBranched {m : Machine F σ} (hb : m.regPcBranched = invalidAddress) :
    (exec m).regPcBranched =
      if (currentOp m).exec = .jsr then pushedOperand m else (target m).getD invalidAddress := by
  have he : (exec m).regPcBranched =
      (effect (currentOp m).exec (currentOp m).addrMode m).branch.getD m.regPcBranched := rfl
  have hmode : TransferMode (currentOp m).exec (currentOp m).addrMode := transferMode _
  rw [he, hb, effect_branch hmode]
  split <;> rfl

theorem writeCells_of_target {f : AsmFun} {mode : AddrMode} {m : Machine F σ} (ht : targetOf f mode m ≠ none) :
    writeCells f mode m =
      if f = .jsr then [stackAddr m.shortRegs.sp, stackAddr (m.shortRegs.sp - 1#8)] else [] := by
  cases f <;> first | rfl | exact absurd rfl ht

theorem reserved_iff_of_target {m : Machine F σ} (ht : target m ≠ none) :
    cpuAddrReservedStart ≤ m.regPc + lenOf (currentOp (exec m)).addrMode ↔
      cpuAddrReservedStart ≤ m.regPc + lenOf (currentOp m).addrMode := by
  by_cases hw : m.regPc ∈ writeCells (currentOp m).exec (currentOp m).addrMode m
  · have hlow : m.regPc.toNat < 0x200 := by
      rw [writeCells_of_target ht] at hw
      split at hw
      · simp only [List.mem_cons, List.not_mem_nil, or_false] at hw
        rcases hw with hw | hw <;> rw [hw, toNat_stackAddr] <;> omega
      · cases hw
    have hl := toNat_lenOf_le (currentOp m).addrMode
    have hl' := toNat_lenOf_le (currentOp (exec m)).addrMode
    simp only [BitVec.le_def, BitVec.toNat_add, cpuAddrReservedStart, BitVec.toNat_ofNat]
    omega
  · rw [currentOp, exec_regPc, exec_mem hw]
    rfl

theorem nextPc_iff {m : Machine F σ} {t : Word} (hb : m.regPcBranched = t) :
    (if t < cpuAddrReservedStart then nextPc m = t else cpuAddrReservedStart ≤ nextPc m) ↔
      t ≠ invalidAddress ∨ cpuAddrReservedStart ≤ m.regPc + lenOf (currentOp m).addrMode := by
  have hmark : ¬invalidAddress < cpuAddrReservedStart := by decide
  by_cases ht : t = invalidAddress
  · subst ht
    simp [nextPc, hb, hmark]
  · simp only [nextPc, hb, ne_eq, ht, not_false_eq_true, if_true, true_or, iff_true]
    split
    · trivial
    · exact BitVec.not_lt.mp ‹_›

theorem pushedOperand_eq (m : Machine F σ) :
    pushedOperand m = wordAt (Function.update (Function.update m.mem (stackAddr m.shortRegs.sp) (hiByte (m.regPc + 2#16)))
      (stackAddr (m.shortRegs.sp - 1#8)) (loByte (m.regPc + 2#16))) (m.regPc + 1#16) := rfl

theorem update_two_iff {mem : Word → Byte} {b c a : Word} (hbc : b ≠ c) (v w : Byte) :
    Function.update (Function.update mem b v) c w a = mem a ↔ (b = a → v = mem a) ∧ (c = a → w = mem a) := by
  by_cases hc : a = c
  · subst hc
    simp [hbc]
  · by_cases hb : a = b
    · subst hb
      simp [Function.update_of_ne hc, Ne.symm hc]
    · simp [Function.update_of_ne hc, Function.update_of_ne hb, Ne.symm hc, Ne.symm hb]

theorem pushedOperand_iff (m : Machine F σ) : pushedOperand m = operandWord m ↔ OperandKept m := by
  have hne : stackAddr m.shortRegs.sp ≠ stackAddr (m.shortRegs.sp - 1#8) := by
    intro he
    have h := congrArg BitVec.toNat (stackAddr_injective he)
    simp only [BitVec.toNat_sub, BitVec.toNat_ofNat] at h
    omega
  rw [pushedOperand_eq, operandWord, wordAt, wordAt, wordOf_inj, update_two_iff hne, update_two_iff hne, add_one_one]
  simp [OperandKept]

theorem overlap_arith {P C D l h l' h' n : Nat} (hl : l < 256) (hh : h < 256)
    (hC : 256 ≤ C ∧ C < 512) (hD : C = 256 ∧ D = 511 ∨ D + 1 = C)
    (hl' : l' = if P + 1 = D then (P + 2) % 256 else if P + 1 = C then (P + 2) / 256 else l)
    (hh' : h' = if P + 2 = D then (P + 2) % 256 else if P + 2 = C then (P + 2) / 256 else h)
    (hne : l + 256 * h ≠ l' + 256 * h') (hn : n ≤ 3) (hkeep : P ≠ C → P ≠ D → n = 3) :
    (if l' + 256 * h' ≠ 65535 then l' + 256 * h' else P + n) ≠ l + 256 * h ∧
      (65530 ≤ l + 256 * h → (if l' + 256 * h' ≠ 65535 then l' + 256 * h' else P + n) < 65530) := by
  split_ifs at hl' hh' ⊢ <;> omega

theorem toNat_update_two (mem : Word → Byte) (b c a : Word) (v w : Byte) :
    (Function.update (Function.update mem b v) c w a).toNat =
      if a.toNat = c.toNat then w.toNat else if a.toNat = b.toNat then v.toNat else (mem a).toNat := by
  simp only [Function.update_apply, BitVec.toNat_inj]
  split_ifs <;> rfl

theorem toNat_nextPc {m : Machine F σ} {t : Word} (hb : m.regPcBranched = t) (hpc : m.regPc < cpuAddrReservedStart) :
    (nextPc m).toNat =
      if t.toNat ≠ 65535 then t.toNat else m.regPc.toNat + (lenOf (currentOp m).addrMode).toNat := by
  have hl := toNat_lenOf_le (currentOp m).addrMode
  have hmark : t ≠ invalidAddress ↔ t.toNat ≠ 65535 := not_congr BitVec.toNat_inj.symm
  rw [nextPc, hb]
  by_cases ht : t ≠ invalidAddress
  · rw [if_pos ht, if_pos (hmark.mp ht)]
  · rw [BitVec.lt_def] at hpc
    rw [if_neg ht, if_neg (fun h => ht (hmark.mpr h)), BitVec.toNat_add]
    simp only [cpuAddrReservedStart, BitVec.toNat_ofNat] at hpc
    omega

theorem not_nextPc_of_overlap {m : Machine F σ} (hb : m.regPcBranched = invalidAddress)
    (hpc : m.regPc < cpuAddrReservedStart) (hjsr : (currentOp m).exec = .jsr) (hk : ¬OperandKept m) :
    ¬if operandWord m < cpuAddrReservedStart then nextPc (exec m) = operandWord m
      else cpuAddrReservedStart ≤ nextPc (exec m) := by
  have hslot : (exec m).regPcBranched = pushedOperand m := by rw [exec_regPcBranched hb, if_pos hjsr]
  have hnext := toNat_nextPc hslot (m := exec m) hpc
  have hP : m.regPc.toNat < 65530 := hpc
  have h₁ : (m.regPc + 1#16).toNat = m.regPc.toNat + 1 := by simp; omega
  have h₂ : (m.regPc + 1#16 + 1#16).toNat = m.regPc.toNat + 2 := by simp; omega
  have h₃ : (m.regPc + 2#16).toNat = m.regPc.toNat + 2 := by simp; omega
  have hS := m.shortRegs.sp.isLt
  have hcells : (stackAddr m.shortRegs.sp).toNat = 256 ∧ (stackAddr (m.shortRegs.sp - 1#8)).toNat = 511 ∨
      (stackAddr (m.shortRegs.sp - 1#8)).toNat + 1 = (stackAddr m.shortRegs.sp).toNat := by
    simp only [toNat_stackAddr, BitVec.toNat_sub, BitVec.toNat_ofNat]
    omega
  have hop : m.regPc ≠ stackAddr m.shortRegs.sp → m.regPc ≠ stackAddr (m.shortRegs.sp - 1#8) →
      (lenOf (currentOp (exec m)).addrMode).toNat = 3 := by
    intro hC hD
    have hmem : (exec m).mem m.regPc = m.mem m.regPc := exec_mem (by simp [hjsr, writeCells, hC, hD])
    have habs : (currentOp m).addrMode = .abs := (transferMode (m.mem m.regPc)).2.1 hjsr
    rw [currentOp, exec_regPc, hmem]
    exact congrArg (fun a => (lenOf a).toNat) habs
  have hl := toNat_update_two m.mem (stackAddr m.shortRegs.sp) (stackAddr (m.shortRegs.sp - 1#8))
    (m.regPc + 1#16) (hiByte (m.regPc + 2#16)) (loByte (m.regPc + 2#16))
  have hh := toNat_update_two m.mem (stackAddr m.shortRegs.sp) (stackAddr (m.shortRegs.sp - 1#8))
    (m.regPc + 1#16 + 1#16) (hiByte (m.regPc + 2#16)) (loByte (m.regPc + 2#16))
  rw [h₁, toNat_hiByte, toNat_loByte, h₃] at hl
  rw [h₂, toNat_hiByte, toNat_loByte, h₃] at hh
  have hne : (operandWord m).toNat ≠ (pushedOperand m).toNat := by
    intro he
    exact hk ((pushedOperand_iff m).mp (BitVec.eq_of_toNat_eq he.symm))
  rw [pushedOperand_eq, operandWord, wordAt, wordAt, toNat_wordOf, toNat_wordOf] at hne
  rw [pushedOperand_eq, wordAt, toNat_wordOf] at hnext
  obtain ⟨hmiss, hlow⟩ := overlap_arith (BitVec.isLt _) (BitVec.isLt _)
    (by rw [toNat_stackAddr]; omega) hcells hl hh hne (toNat_lenOf_le _)
    fun hC hD => hop (fun h => hC (congrArg _ h)) (fun h => hD (congrArg _ h))
  rw [exec_regPc] at hnext
  rw [← hnext] at hmiss hlow
  have ht : (operandWord m).toNat = (m.mem (m.regPc + 1#16)).toNat + 256 * (m.mem (m.regPc + 1#16 + 1#16)).toNat :=
    toNat_wordOf _ _
  rw [← ht] at hmiss hlow
  split
  · exact fun h => hmiss (congrArg _ h)
  · next hge => exact BitVec.not_le.mpr (hlow (BitVec.le_def.mp (BitVec.not_lt.mp hge)))

theorem honours_exec_iff (hf : HookFuns F σ) {m : Machine F σ} (h : Fetched hf m) {t : Word} (ht : target m = some t) :
    Honours hf (exec m) t ↔ Deliverable m t := by
  obtain ⟨hfree, hb, hpc⟩ := h.inv
  have hsome : target m ≠ none := by simp [ht]
  rw [honours_iff hf (exec_hookFree hfree)]
  have hkept : (exec m).regPcBranched = t →
      ((if t < cpuAddrReservedStart then nextPc (exec m) = t else cpuAddrReservedStart ≤ nextPc (exec m)) ↔
        t ≠ invalidAddress ∨ cpuAddrReservedStart ≤ m.regPc + lenOf (currentOp m).addrMode) := by
    intro hslot
    rw [nextPc_iff hslot, exec_regPc, reserved_iff_of_target hsome]
  by_cases hjsr : (currentOp m).exec = .jsr
  · have hop : t = operandWord m := by
      rw [target, hjsr] at ht
      exact (Option.some.inj ht).symm
    by_cases hk : OperandKept m
    · rw [hkept (by rw [exec_regPcBranched hb, if_pos hjsr, (pushedOperand_iff m).mpr hk, hop])]
      exact ⟨fun ht => ⟨ht, fun _ => hk⟩, And.left⟩
    · subst hop
      exact iff_of_false (not_nextPc_of_overlap hb hpc hjsr hk) fun hd => hk (hd.2 hjsr)
  · rw [hkept (by rw [exec_regPcBranched hb, if_neg hjsr, ht]; rfl)]
    exact ⟨fun ht => ⟨ht, fun h => absurd h hjsr⟩, And.left⟩

theorem nextPc_untaken {m : Machine F σ} (hb : m.regPcBranched = invalidAddress)
    (hc : condition (currentOp m).exec m.shortRegs = some false) : nextPc (exec m) = m.regPc + 2#16 := by
  obtain ⟨hmem, htarget, hbr⟩ : writeCells (currentOp m).exec (currentOp m).addrMode m = [] ∧ target m = none ∧
      (currentOp m).exec ∈ [.bcc, .bcs, .beq, .bmi, .bne, .bpl, .bvc, .bvs] := by
    unfold target
    cases hop : (currentOp m).exec <;> rw [hop] at hc <;>
      first | exact ⟨rfl, by simp [targetOf, hc], by decide⟩ | cases hc
  have hslot : (exec m).regPcBranched = invalidAddress := by
    have hjsr : (currentOp m).exec ≠ .jsr := fun h => absurd (h ▸ hbr) (by decide)
    rw [exec_regPcBranched hb, if_neg hjsr, htarget]
    rfl
  have hsame : (exec m).mem m.regPc = m.mem m.regPc := exec_mem (by rw [hmem]; exact List.not_mem_nil)
  have hrel : (currentOp m).addrMode = .rel := (transferMode (m.mem m.regPc)).1 hbr
  rw [nextPc, hslot, if_neg (not_not_intro rfl), currentOp, exec_regPc, hsame]
  exact congrArg (fun a => m.regPc + lenOf a) hrel

/-- A taken transfer is followed if and only if its target is not the address
that marks no branch, unless the fetch fails anyway, and JSR has not pushed a
different operand over its own. A branch that is not taken always is. -/
theorem opcodeFetch_followed_iff (hf : HookFuns F σ) {m : Machine F σ} (h : Fetched hf m) :
    ∃ m₁, (opcodeExec hf).run m = .ok ((), m₁) ∧
      (Followed hf m m₁ ↔ ∀ t, target m = some t → Deliverable m t) := by
  obtain ⟨hfree, hb, -⟩ := h.inv
  refine ⟨exec m, opcodeExec_hookFree hf hfree, ?_⟩
  constructor
  · rintro ⟨htaken, -⟩ t ht
    exact (honours_exec_iff hf h ht).mp (htaken t ht)
  · intro hd
    refine ⟨fun t ht => (honours_exec_iff hf h ht).mpr (hd t ht), fun hc hlt => ?_⟩
    exact (fetch_pc_iff hf (exec_hookFree hfree) hlt).mpr (nextPc_untaken hb hc)

theorem opcodeFetch_followed_iff_jsr :
    let m := bare 0x80 ⟨0xFF, 1, 2, 3, 4⟩ (bytesAt 0x80 [0x20, 0x34, 0x12])
    ∃ m₁, (opcodeExec noHooks).run m = .ok ((), m₁) ∧
      (Followed noHooks m m₁ ↔ ∀ t, target m = some t → Deliverable m t) :=
  opcodeFetch_followed_iff noHooks (bare_fetched (by decide) _ _)

theorem opcodeFetch_ignores :
    ¬∀ (hf : HookFuns Empty Unit) (m : Machine Empty Unit), Fetched hf m →
      ∃ m₁, (opcodeExec hf).run m = .ok ((), m₁) ∧ Followed hf m m₁ := by
  intro hall
  have hfetched : Fetched noHooks (bare 0x200 ⟨0xFF, 1, 2, 3, 4⟩ (bytesAt 0x200 [0x4C, 0xFF, 0xFF])) :=
    bare_fetched (by decide) _ _
  obtain ⟨hfree, -, -⟩ := hfetched.inv
  obtain ⟨m₁, hrun, htaken, -⟩ := hall noHooks _ hfetched
  rw [opcodeExec_hookFree noHooks hfree] at hrun
  cases hrun
  exact absurd ((honours_exec_iff noHooks hfetched rfl).mp (htaken 0xFFFF rfl)).1 (by decide)

end Bugnes.Transfers
