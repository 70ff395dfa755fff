import Bugnes.PlainRefinement

namespace Bugnes.StoreLoad

open Words CpuCore Addr OpcodeTable Opcodes Registers Plain PlainRuns PlainRefinement

variable {F σ : Type}

def loads : List Byte :=
  [0xA1, 0xA5, 0xAD, 0xB1, 0xB5, 0xB9, 0xBD, 0xA6, 0xAE, 0xB6, 0xA4, 0xAC, 0xB4]

def storeOf (l : Byte) : SfotOpcode := opcodeAt (l - 0x20#8)

def regOf : AsmFun → ShortReg
  | .lda | .sta => .acc
  | .ldx | .stx => .x
  | .ldy | .sty => .y
  | _ => .invalid

/-- Two stores have another addressing mode than their loads. It makes no
difference when the modes give one address or the other cell holds the value. -/
def RowsAgree (l : Byte) (m : Machine F σ) : Prop :=
  let r := m.shortRegs
  (l = 0xAC#8 → r.x = 0#8 ∨ m.mem (wordAt m.mem (m.regPc + 1#16)) = r.y) ∧
    (l = 0xB4#8 → r.x = r.y ∨ m.mem ((m.mem (m.regPc + 1#16)).setWidth 16 + r.x.setWidth 16) = r.y)

theorem loads_rows : ∀ l ∈ loads,
    ((opcodeAt l).exec, (storeOf l).exec) ∈ [(AsmFun.lda, AsmFun.sta), (.ldx, .stx), (.ldy, .sty)] ∧
      (opcodeAt l).addrMode ∈ [AddrMode.zpa, .zpx, .zpy, .abs, .abx, .aby, .inx, .iny] ∧
      (l ≠ 0xAC#8 → l ≠ 0xB4#8 → (storeOf l).addrMode = (opcodeAt l).addrMode) := by
  decide +kernel

theorem exec_store {m : Machine F σ} (h : (currentOp m).exec ∈ [.sta, .stx, .sty]) :
    exec m = { m with
      mem := Function.update m.mem (addrOf (currentOp m).addrMode m) (m.shortRegs.get (regOf (currentOp m).exec)) } := by
  simp only [List.mem_cons, List.not_mem_nil, or_false] at h
  unfold exec
  rcases h with h | h | h <;> rw [h] <;> rfl

theorem exec_load {m : Machine F σ} (h : (currentOp m).exec ∈ [.lda, .ldx, .ldy]) :
    (exec m).shortRegs.get (regOf (currentOp m).exec) = m.mem (addrOf (currentOp m).addrMode m) ∧
      (exec m).mem = m.mem := by
  simp only [List.mem_cons, List.not_mem_nil, or_false] at h
  unfold exec
  rcases h with h | h | h <;> rw [h] <;> exact ⟨rfl, rfl⟩

theorem update_eq_iff (mem : Word → Byte) (a b : Word) (v : Byte) :
    Function.update mem a v b = v ↔ b = a ∨ mem b = v := by
  by_cases h : b = a
  · simp [h]
  · simp [h]

theorem setWidth_inj {a b : Byte} : a.setWidth 16 = b.setWidth 16 ↔ a = b := by
  constructor
  · intro h
    have hn := congrArg BitVec.toNat h
    rw [BitVec.toNat_setWidth, BitVec.toNat_setWidth] at hn
    exact BitVec.eq_of_toNat_eq (by omega)
  · rintro rfl
    rfl

theorem rowsAgree_iff {l : Byte} (hl : l ∈ loads) (m : Machine F σ) :
    (addrOf (opcodeAt l).addrMode m = addrOf (storeOf l).addrMode m ∨
        m.mem (addrOf (opcodeAt l).addrMode m) = m.shortRegs.get (regOf (opcodeAt l).exec)) ↔ RowsAgree l m := by
  by_cases hac : l = 0xAC#8
  · subst hac
    have hx : addrOf .abs m = addrOf .abx m ↔ m.shortRegs.x = 0#8 := by
      rw [eq_comm, addrOf, addrOf, add_eq_left]
      exact setWidth_inj (b := 0#8)
    have hne : ¬(0xAC#8 = 0xB4#8) := by decide
    simp only [RowsAgree, hne, forall_const, false_implies, and_true, ← hx]
    rfl
  · by_cases hb4 : l = 0xB4#8
    · subst hb4
      have hxy : addrOf .zpx m = addrOf .zpy m ↔ m.shortRegs.x = m.shortRegs.y := by
        rw [addrOf, addrOf, add_right_inj, setWidth_inj]
      simp only [RowsAgree, hac, forall_const, false_implies, true_and, ← hxy]
      rfl
    · obtain ⟨-, -, hmode⟩ := loads_rows l hl
      exact iff_of_true (.inl (by rw [hmode hac hb4])) ⟨fun h => absurd h hac, fun h => absurd h hb4⟩

/-- A load after the store of the same register with the same operand gives
back what was stored, except for the rows 0x8C and 0x94: there it does if and
only if the other addressing mode makes no difference. -/
theorem store_load_iff (hf : HookFuns F σ) {m : Machine F σ} (h : HookFree m) {l : Byte} (hl : l ∈ loads) {q : Word}
    (hstore : m.mem m.regPc = l - 0x20#8) (hload : m.mem q = l)
    (hoperand : ∀ i < (lenOf (opcodeAt l).addrMode).toNat, 0 < i →
      m.mem (q + BitVec.ofNat 16 i) = m.mem (m.regPc + BitVec.ofNat 16 i))
    (hapart : addrOf (storeOf l).addrMode m ∉
      instrCells (opcodeAt l).addrMode q ++ pointerCells (opcodeAt l).addrMode m) :
    ∃ m₁ m₂, (opcodeExec hf).run m = .ok ((), m₁) ∧ (opcodeExec hf).run { m₁ with regPc := q } = .ok ((), m₂) ∧
      ((m₂.shortRegs.get (regOf (opcodeAt l).exec) = m.shortRegs.get (regOf (opcodeAt l).exec) ∧
          m₂.mem (addrOf (opcodeAt l).addrMode { m₁ with regPc := q }) = m.shortRegs.get (regOf (opcodeAt l).exec)) ↔
        RowsAgree l m) := by
  obtain ⟨hpair, hmodes, -⟩ := loads_rows l hl
  have hopm : currentOp m = storeOf l := by rw [currentOp, hstore, storeOf]
  have hst : (storeOf l).exec ∈ [AsmFun.sta, .stx, .sty] ∧ (opcodeAt l).exec ∈ [AsmFun.lda, .ldx, .ldy] ∧
      regOf (storeOf l).exec = regOf (opcodeAt l).exec := by
    simp only [List.mem_cons, List.not_mem_nil, or_false, Prod.mk.injEq] at hpair
    rcases hpair with ⟨hL, hS⟩ | ⟨hL, hS⟩ | ⟨hL, hS⟩ <;> rw [hL, hS] <;> decide
  obtain ⟨hS, hL, hreg⟩ := hst
  have hm₁ := exec_store (hopm ▸ hS)
  rw [hopm, hreg] at hm₁
  have hkept : ∀ a ∈ instrCells (opcodeAt l).addrMode q ++ pointerCells (opcodeAt l).addrMode m,
      (exec m).mem a = m.mem a := by
    intro a ha
    rw [hm₁]
    refine Function.update_of_ne ?_ _ _
    rintro rfl
    exact hapart ha
  have hcell : ∀ i < (lenOf (opcodeAt l).addrMode).toNat, (exec m).mem (q + BitVec.ofNat 16 i) = m.mem (q + BitVec.ofNat 16 i) :=
    fun i hi => hkept _ (List.mem_append_left _ (List.mem_map.mpr ⟨i, List.mem_range.mpr hi, rfl⟩))
  have hlen : 0 < (lenOf (opcodeAt l).addrMode).toNat := by
    have hpos : ∀ mode ∈ [AddrMode.zpa, .zpx, .zpy, .abs, .abx, .aby, .inx, .iny], 0 < (lenOf mode).toNat := by decide
    exact hpos _ hmodes
  have hopq : currentOp { exec m with regPc := q } = opcodeAt l := by
    have hq : (exec m).mem q = m.mem q := by simpa using hcell 0 hlen
    rw [currentOp, hq, hload]
  have haddr : addrOf (opcodeAt l).addrMode { exec m with regPc := q } = addrOf (opcodeAt l).addrMode m := by
    have hregs : (exec m).shortRegs = m.shortRegs := by rw [hm₁]
    refine addrOf_congr ?_ (congrArg _ hregs) (congrArg _ hregs) (fun i hi hpos => ?_)
      fun a ha => hkept a (List.mem_append_right _ ha)
    · rintro (himm | hrel)
      · exact absurd (himm ▸ hmodes) (by decide)
      · exact absurd (hrel ▸ hmodes) (by decide)
    · exact (hcell i hi).trans (hoperand i hi hpos)
  refine ⟨exec m, _, opcodeExec_hookFree hf h, opcodeExec_hookFree hf (exec_at_hookFree h q), ?_⟩
  obtain ⟨hval, hmem⟩ := exec_load (hopq ▸ hL)
  rw [hopq, haddr] at hval
  rw [hval, hmem, haddr, and_self, ← rowsAgree_iff hl, hm₁]
  exact update_eq_iff _ _ _ _

theorem store_load_iff_inx :
    let m := bare 0x200 ⟨0xFF, 0x77, 4, 3, 4⟩ fun a =>
      if a = 0x24 then 0x00 else if a = 0x25 then 0x03 else bytesAt 0x200 [0x81, 0x20, 0xA1, 0x20] a
    ∃ m₁ m₂, (opcodeExec noHooks).run m = .ok ((), m₁) ∧
      (opcodeExec noHooks).run { m₁ with regPc := 0x202 } = .ok ((), m₂) ∧
      ((m₂.shortRegs.get (regOf (opcodeAt 0xA1).exec) = m.shortRegs.get (regOf (opcodeAt 0xA1).exec) ∧
          m₂.mem (addrOf (opcodeAt 0xA1).addrMode { m₁ with regPc := 0x202 }) =
            m.shortRegs.get (regOf (opcodeAt 0xA1).exec)) ↔
        RowsAgree 0xA1 m) := by
  intro m
  refine store_load_iff noHooks (bare_hookFree _ _ _) (by decide) rfl rfl ?_ (by decide)
  intro i hi hpos
  obtain rfl : i = 1 := by
    have htwo : i < 2 := hi
    omega
  rfl

theorem store_load_differ :
    ¬∀ (hf : HookFuns Empty Unit) (m : Machine Empty Unit) (l : Byte) (q : Word), HookFree m → l ∈ loads →
      m.mem m.regPc = l - 0x20#8 → m.mem q = l →
      (∀ i < (lenOf (opcodeAt l).addrMode).toNat, 0 < i →
        m.mem (q + BitVec.ofNat 16 i) = m.mem (m.regPc + BitVec.ofNat 16 i)) →
      addrOf (storeOf l).addrMode m ∉ instrCells (storeOf l).addrMode m.regPc ++
        instrCells (opcodeAt l).addrMode q ++ pointerCells (opcodeAt l).addrMode m →
      ∃ m₁ m₂, (opcodeExec hf).run m = .ok ((), m₁) ∧ (opcodeExec hf).run { m₁ with regPc := q } = .ok ((), m₂) ∧
        m₂.shortRegs.get (regOf (opcodeAt l).exec) = m.shortRegs.get (regOf (opcodeAt l).exec) ∧
        m₂.mem (addrOf (opcodeAt l).addrMode { m₁ with regPc := q }) =
          m.shortRegs.get (regOf (opcodeAt l).exec) := by
  intro hall
  have hfree := bare_hookFree 0x200 ⟨0xFF, 1, 1, 5, 4⟩ (bytesAt 0x200 [0x8C, 0x00, 0x03, 0xAC, 0x00, 0x03])
  obtain ⟨m₁, m₂, h₁, h₂, hreg, -⟩ := hall noHooks _ 0xAC 0x203 hfree (by decide) rfl rfl
    (by
      intro i hi hpos
      obtain rfl | rfl : i = 1 ∨ i = 2 := by
        have hthree : i < 3 := hi
        omega
      · rfl
      · rfl)
    (by decide)
  rw [opcodeExec_hookFree noHooks hfree] at h₁
  cases h₁
  rw [opcodeExec_hookFree noHooks (exec_at_hookFree hfree 0x203)] at h₂
  cases h₂
  exact absurd hreg (by decide)

end Bugnes.StoreLoad
