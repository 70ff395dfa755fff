import Bugnes.StatelessHooks

namespace Bugnes.Operands

open Words Memhooks CpuCore Addr OpcodeTable Plain PlainRuns StatelessHooks

variable {F σ : Type}

section ZeroPage

def inPage (z : Byte) : Word := z.setWidth 16

/-- The word at `z` with its second byte in page zero too. -/
def wordInPage (mem : Word → Byte) (z : Byte) : Word := wordOf (mem (inPage z)) (mem (inPage (z + 1#8)))

/-- The bytes of a word at `n` that lie past page zero are those one page below. -/
def PageRepeats (mem : Word → Byte) (n : Nat) : Prop :=
  ∀ i < 2, 256 ≤ n + i → mem (BitVec.ofNat 16 (n + i)) = mem (BitVec.ofNat 16 (n + i - 256))

theorem inPage_ofNat {n : Nat} (hn : n < 512) :
    inPage (BitVec.ofNat 8 n) = BitVec.ofNat 16 (if 256 ≤ n then n - 256 else n) := by
  apply BitVec.eq_of_toNat_eq
  rw [inPage, BitVec.toNat_setWidth, BitVec.toNat_ofNat, BitVec.toNat_ofNat]
  split <;> omega

theorem mem_inPage_iff (mem : Word → Byte) {n : Nat} (hn : n < 512) :
    mem (BitVec.ofNat 16 n) = mem (inPage (BitVec.ofNat 8 n)) ↔
      (256 ≤ n → mem (BitVec.ofNat 16 n) = mem (BitVec.ofNat 16 (n - 256))) := by
  rw [inPage_ofNat hn]
  by_cases h : 256 ≤ n
  · simp [h]
  · simp [h]

theorem wordAt_inPage_iff (mem : Word → Byte) {n : Nat} (hn : n < 511) :
    wordAt mem (BitVec.ofNat 16 n) = wordInPage mem (BitVec.ofNat 8 n) ↔ PageRepeats mem n := by
  have hword : BitVec.ofNat 16 n + 1#16 = BitVec.ofNat 16 (n + 1) := (BitVec.ofNat_add n 1).symm
  have hbyte : BitVec.ofNat 8 n + 1#8 = BitVec.ofNat 8 (n + 1) := (BitVec.ofNat_add n 1).symm
  rw [wordAt, wordInPage, wordOf_inj, hword, hbyte, mem_inPage_iff mem (by omega), mem_inPage_iff mem (by omega)]
  constructor
  · rintro ⟨h₀, h₁⟩ i hi
    rcases Nat.le_one_iff_eq_zero_or_eq_one.mp (Nat.le_of_lt_succ hi) with rfl | rfl
    · exact h₀
    · exact h₁
  · intro h
    exact ⟨h 0 (by decide), h 1 (by decide)⟩

theorem wordAt_byte_iff (mem : Word → Byte) (z : Byte) :
    wordAt mem (inPage z) = wordInPage mem z ↔ PageRepeats mem z.toNat := by
  have hz := z.isLt
  have h := wordAt_inPage_iff mem (n := z.toNat) (by omega)
  rwa [BitVec.ofNat_toNat, BitVec.ofNat_toNat, BitVec.setWidth_eq] at h

theorem inPage_add (b x : Byte) : inPage b + inPage x = BitVec.ofNat 16 (b.toNat + x.toNat) := by
  apply BitVec.eq_of_toNat_eq
  simp [inPage]

theorem inPage_add_iff (b x : Byte) : inPage b + inPage x = inPage (b + x) ↔ b.toNat + x.toNat < 256 := by
  have hb := b.isLt
  have hx := x.isLt
  rw [inPage_add, inPage, BitVec.toNat_eq, BitVec.toNat_ofNat, BitVec.toNat_setWidth, BitVec.toNat_add]
  omega

theorem addr_hookFree (hf : HookFuns F σ) {m : Machine F σ} (h : HookFree m) (mode : AddrMode) (a : Word) :
    (addr hf mode).run m = .ok (a, m) ↔ addrOf mode m = a := by
  rw [addr_run hf fun a _ => h.at a]
  simp

/-- The four modes stay in page zero as long as the sums do. Past it the code
takes its pointer bytes from the next page, where they may be the same. -/
theorem zero_page_iff (hf : HookFuns F σ) {m : Machine F σ} (h : HookFree m) {b : Byte}
    (hb : m.mem (m.regPc + 1#16) = b) :
    ((addr hf .zpx).run m = .ok (inPage (b + m.shortRegs.x), m) ↔ b.toNat + m.shortRegs.x.toNat < 256) ∧
    ((addr hf .zpy).run m = .ok (inPage (b + m.shortRegs.y), m) ↔ b.toNat + m.shortRegs.y.toNat < 256) ∧
    ((addr hf .inx).run m = .ok (wordInPage m.mem (b + m.shortRegs.x), m) ↔
      PageRepeats m.mem (b.toNat + m.shortRegs.x.toNat)) ∧
    ((addr hf .iny).run m = .ok (wordInPage m.mem b + m.shortRegs.y.setWidth 16, m) ↔ PageRepeats m.mem b.toNat) := by
  have hb' := b.isLt
  have hx := m.shortRegs.x.isLt
  simp only [addr_hookFree hf h]
  refine ⟨?_, ?_, ?_, ?_⟩
  · simp only [addrOf, hb]
    exact inPage_add_iff b m.shortRegs.x
  · simp only [addrOf, hb]
    exact inPage_add_iff b m.shortRegs.y
  · have hsum : b + m.shortRegs.x = BitVec.ofNat 8 (b.toNat + m.shortRegs.x.toNat) := by simp [BitVec.ofNat_add]
    have haddr : addrOf .inx m = wordAt m.mem (inPage b + inPage m.shortRegs.x) := by simp only [addrOf, hb, inPage]
    rw [haddr, inPage_add, hsum]
    exact wordAt_inPage_iff m.mem (by omega)
  · have haddr : addrOf .iny m = wordAt m.mem (inPage b) + m.shortRegs.y.setWidth 16 := by simp only [addrOf, hb, inPage]
    rw [haddr, BitVec.add_left_inj]
    exact wordAt_byte_iff m.mem b

def indexing (x : Byte) : Machine Empty Unit := bare 0x200 ⟨0xFF, 0, x, 0, 0⟩ (bytesAt 0x200 [0xB5, 0xF0])

theorem zero_page_indexing :
    ((addr noHooks .zpx).run (indexing 1) = .ok (inPage (0xF0 + 1), indexing 1) ↔
      (0xF0 : Byte).toNat + (1 : Byte).toNat < 256) ∧
    ((addr noHooks .zpy).run (indexing 1) = .ok (inPage (0xF0 + 0), indexing 1) ↔
      (0xF0 : Byte).toNat + (0 : Byte).toNat < 256) ∧
    ((addr noHooks .inx).run (indexing 1) = .ok (wordInPage (indexing 1).mem (0xF0 + 1), indexing 1) ↔
      PageRepeats (indexing 1).mem ((0xF0 : Byte).toNat + (1 : Byte).toNat)) ∧
    ((addr noHooks .iny).run (indexing 1) =
        .ok (wordInPage (indexing 1).mem 0xF0 + (0 : Byte).setWidth 16, indexing 1) ↔
      PageRepeats (indexing 1).mem (0xF0 : Byte).toNat) :=
  zero_page_iff noHooks (bare_hookFree _ _ _) rfl

theorem zero_page_left :
    ¬∀ m : Machine Empty Unit, HookFree m →
      (addr noHooks .zpx).run m = .ok (inPage (m.mem (m.regPc + 1#16) + m.shortRegs.x), m) := by
  intro hall
  have hfree : HookFree (indexing 0x20) := bare_hookFree _ _ _
  exact absurd ((addr_hookFree noHooks hfree .zpx _).mp (hall _ hfree)) (by decide)

end ZeroPage

section Sentinel

variable {hf : HookFuns F σ} {p : PureHooks F} {m : Machine F σ}

/-- The operand of the logic and arithmetic instructions is what a load from
the same mode finds, unless it lies at the address that stands for none: there
it counts as zero. -/
theorem operand_loads_iff (h : Stateless hf p m.allMh) {mode : AddrMode} (hmode : mode ∉ [.imp, .acc, .max]) :
    ∃ e, (addr hf mode).run m = .ok (e, m) ∧
      ((addrModeGetValue hf mode).run m = (addr hf mode >>= memRead hf).run m ↔
        e ≠ invalidAddress ∨ seen p m.allMh m.mem invalidAddress = 0#8) := by
  obtain ⟨e, he⟩ := addr_stateless h mode
  refine ⟨e, he, ?_⟩
  have hload : (addr hf mode >>= memRead hf).run m = .ok (seen p m.allMh m.mem e, m) := by
    rw [StateT.run_bind, he, ok_bind, memRead_stateless h]
  by_cases hv : e = invalidAddress
  · have hvalue : (value mode : CpuM F σ Byte).run m = .ok (0#8, m) := by
      cases mode with
      | imp | acc | max => simp at hmode
      | _ => rfl
    have hoperand : (addrModeGetValue hf mode).run m = .ok (0#8, m) := by
      simp [addrModeGetValue, he, addrValid, hv, hvalue]
    rw [hoperand, hload, hv]
    simp [eq_comm]
  · have hoperand : (addrModeGetValue hf mode).run m = .ok (seen p m.allMh m.mem e, m) := by
      simp [addrModeGetValue, he, addrValid, hv, memRead_stateless h]
    rw [hoperand, hload]
    exact iff_of_true rfl (.inl hv)

def lastByte (v : Byte) : Machine Empty Unit :=
  bare 0x200 ⟨0xFF, 0xFF, 0, 0, 0⟩ fun a => if a = 0xFFFF then v else bytesAt 0x200 [0x2D, 0xFF, 0xFF] a

def unhooked : PureHooks Empty := ⟨fun f => f.elim, fun f => f.elim, fun f => f.elim⟩

theorem unhooked_stateless : Stateless noHooks unhooked empty := fun _ _ h => (List.not_mem_nil h).elim

theorem operand_loads_last :
    ∃ e, (addr noHooks .abs).run (lastByte 5) = .ok (e, lastByte 5) ∧
      ((addrModeGetValue noHooks .abs).run (lastByte 5) = (addr noHooks .abs >>= memRead noHooks).run (lastByte 5) ↔
        e ≠ invalidAddress ∨ seen unhooked (lastByte 5).allMh (lastByte 5).mem invalidAddress = 0#8) :=
  operand_loads_iff unhooked_stateless (by decide)

theorem operand_skips_last :
    ¬∀ m : Machine Empty Unit, Stateless noHooks unhooked m.allMh → ∀ mode, mode ∉ [.imp, .acc, .max] →
      (addrModeGetValue noHooks mode).run m = (addr noHooks mode >>= memRead noHooks).run m := by
  intro hall
  have h := congrArg (Except.map Prod.fst) (hall (lastByte 5) unhooked_stateless .abs (by decide))
  have hoperand : ((addrModeGetValue noHooks .abs).run (lastByte 5)).map Prod.fst = .ok 0 := by decide +kernel
  have hload : ((addr noHooks .abs >>= memRead noHooks).run (lastByte 5)).map Prod.fst = .ok 5 := by decide +kernel
  rw [hoperand, hload] at h
  cases h

end Sentinel

end Bugnes.Operands
