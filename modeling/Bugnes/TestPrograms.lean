import Bugnes.CompareBranch
import Bugnes.MacroAssembler

namespace Bugnes.TestPrograms

open Words CpuCore Addr Registers Stepping CompareBranch TestReports MacroAssembler

section ChainedSbc

variable (a b e : Word)

/-- The program of the test, with any minuend, subtrahend and expectation. -/
def carryOnChainedSbc : List Macro := [
  -- set the values
  .ldaImm (loByte a),
  .staZpa 0xC0,
  .ldaImm (hiByte a),
  .staZpa 0xC1,
  .ldaImm (loByte b),
  .staZpa 0xB0,
  .ldaImm (hiByte b),
  .staZpa 0xB1,
  .cldImp,
  .secImp,
  -- do the subtraction, store the result in 0xC2-0xC3
  .ldaZpa 0xC0,
  .sbcZpa 0xB0,
  .staZpa 0xC2,
  .ldaZpa 0xC1,
  .sbcZpa 0xB1,
  .staZpa 0xC3,
  -- compare the value to the expected one
  .ldaImm (loByte e),
  .cmpZpa 0xC2,
  .beqRel 3,
  jmpToFail,
  .ldaImm (hiByte e),
  .cmpZpa 0xC3,
  .beqRel 3,
  jmpToFail,
  jmpToSucc]

def computing : List Macro := (carryOnChainedSbc a b e).take 18

theorem acc_load (v : Byte) (r : ShortRegs) : (load .acc v r).acc = v := rfl

theorem flagC_load (v : Byte) (r : ShortRegs) : flag flagC (load .acc v r) = flag flagC r := flagC_nz v (r.set v .acc)

theorem acc_sbc (v : Byte) (r : ShortRegs) :
    (sbc v r).acc = r.acc - v - BitVec.ofNat 8 (!flag flagC r).toNat := rfl

theorem flagC_sec (r : ShortRegs) : flag flagC (putFlag flagC true r) = true := flag_putFlag_self (by decide) true r

theorem loByte_sub : loByte a - loByte b = loByte (a - b) := by
  have ha := a.isLt
  have hb := b.isLt
  apply BitVec.eq_of_toNat_eq
  simp only [BitVec.toNat_sub, toNat_loByte]
  omega

theorem hiByte_sub :
    hiByte a - hiByte b - BitVec.ofNat 8 (!decide ((loByte b).toNat ≤ (loByte a).toNat)).toNat = hiByte (a - b) := by
  have ha := a.isLt
  have hb := b.isLt
  apply BitVec.eq_of_toNat_eq
  by_cases h : (loByte b).toNat ≤ (loByte a).toNat
  · rw [decide_eq_true h]
    rw [toNat_loByte, toNat_loByte] at h
    simp only [BitVec.toNat_sub, toNat_hiByte, BitVec.toNat_ofNat, Bool.not_true, Bool.toNat_false]
    omega
  · rw [decide_eq_false h]
    rw [toNat_loByte, toNat_loByte] at h
    simp only [BitVec.toNat_sub, toNat_hiByte, BitVec.toNat_ofNat, Bool.not_false, Bool.toNat_true]
    omega

theorem bytes_eq_iff {v w : Word} : loByte v = loByte w ∧ hiByte v = hiByte w ↔ v = w := by
  constructor
  · rintro ⟨hlo, hhi⟩
    rw [← wordOf_bytes v, ← wordOf_bytes w, hlo, hhi]
  · rintro rfl
    exact ⟨rfl, rfl⟩

theorem computing_does (r : ShortRegs) (low : Page) :
    ∃ s, (computing a b e).foldlM (fun s i => does i s) (r, low) = some s ∧
      flag flagZ s.1 = decide (loByte (a - b) = loByte e) ∧ s.2 0xC3 = hiByte (a - b) := by
  refine ⟨_, rfl, ?_, ?_⟩
  · rw [← loByte_sub]
    simp [acc_load, flagC_load, acc_sbc, flagC_sec, flagZ_cmpFlags, eq_comm]
  · rw [← hiByte_sub]
    simp [acc_load, flagC_load, acc_sbc, flagC_sec, flagC_sbc]

def verdict : Word := if a - b = e then exceptionSuccess else exceptionFailure

theorem chainedSbc_leads (r : ShortRegs) (low : Page) :
    ∃ s : ShortRegs × Page, LeadsTo testCycle (At (assemble (carryOnChainedSbc a b e)) (location 0) r low)
      (At (assemble (carryOnChainedSbc a b e)) (verdict a b e) s.1 s.2) := by
  obtain ⟨asm, hasm⟩ : ∃ asm, asm = assemble (carryOnChainedSbc a b e) := ⟨_, rfl⟩
  have hfit : asm.length ≤ 0xFDFA := by
    rw [hasm]
    exact show 51 ≤ 0xFDFA by decide
  have hcode : Code asm 0 (computing a b e ++ (.beqRel 3 :: jmpToFail ::
      ([.ldaImm (hiByte e), .cmpZpa 0xC3] ++ .beqRel 3 :: jmpToFail :: [jmpToSucc]))) := hasm
  obtain ⟨s, hs, hlow, hhigh⟩ := computing_does a b e r low
  have hfirst := (block_leads hfit hcode hs).trans (beq_fail_leads hfit hcode.append)
  rw [hlow] at hfirst
  rw [← hasm]
  by_cases hlo : loByte (a - b) = loByte e
  · -- the low bytes agree, and the high bytes decide
    rw [decide_eq_true hlo] at hfirst
    have hcode' : Code asm _ ([.ldaImm (hiByte e), .cmpZpa 0xC3] ++ .beqRel 3 :: jmpToFail :: [jmpToSucc]) :=
      hcode.append.after_fail
    have hs' : [Macro.ldaImm (hiByte e), .cmpZpa 0xC3].foldlM (fun s i => does i s) s =
        some (cmpFlags (hiByte e) (hiByte (a - b)) (load .acc (hiByte e) s.1), s.2) := by
      rw [← hhigh]
      rfl
    have hsecond := (block_leads hfit hcode' hs').trans (beq_fail_leads hfit hcode'.append)
    rw [flagZ_cmpFlags] at hsecond
    by_cases hhi : hiByte e = hiByte (a - b)
    · rw [decide_eq_true hhi] at hsecond
      have heq : a - b = e := bytes_eq_iff.mp ⟨hlo, hhi.symm⟩
      rw [verdict, if_pos heq]
      exact ⟨_, hfirst.trans (hsecond.trans (jmp_abs (hcode'.append.after_fail.here hfit) (by decide)))⟩
    · rw [decide_eq_false hhi] at hsecond
      have hne : a - b ≠ e := fun he => hhi (congrArg hiByte he.symm)
      rw [verdict, if_neg hne]
      exact ⟨_, hfirst.trans hsecond⟩
  · rw [decide_eq_false hlo] at hfirst
    have hne : a - b ≠ e := fun he => hlo (congrArg loByte he)
    rw [verdict, if_neg hne]
    exact ⟨s, hfirst⟩

/-- Whatever the numbers, the test passes exactly when the expectation is the difference. -/
theorem chained_sbc_reports (x : Word) : Reports (assemble (carryOnChainedSbc a b e)) x ↔
    x = if a - b = e then exceptionSuccess else exceptionFailure := by
  have hexit : 0x1000 ≤ (verdict a b e).toNat ∧ verdict a b e < cpuAddrReservedStart := by
    rw [verdict]
    split <;> decide
  obtain ⟨s, hleads⟩ := chainedSbc_leads a b e ⟨0, 0, 0, 0, 0⟩ (loaded (assemble (carryOnChainedSbc a b e)))
  have hlen : (assemble (carryOnChainedSbc a b e)).length ≤ 0xE00 := show 51 ≤ 0xE00 by decide
  exact reports_of_leads hlen hexit.1 hexit.2 hleads x

end ChainedSbc

section SubroutineCallAndReturn

/-- The program of the test, with any table of jumps behind the call and any
number that the subroutine adds to the return address. -/
def subroutineCallAndReturn (ts : List Word) (x : Byte) : List Macro :=
  [.ldxImm 0xFF, .txsImp, .jsrAbs (location (6 + 3 * ts.length))] ++ ts.map .jmpAbs ++
    [.plaImp, .adcImm x, .phaImp, .rtsImp]

variable {ts : List Word} {j : Nat}

theorem length_jumps (ts : List Word) : (assemble (ts.map .jmpAbs)).length = 3 * ts.length := by
  induction ts with
  | nil => rfl
  | cons t ts ih =>
      rw [List.map_cons, assemble, List.flatMap_cons, List.length_append]
      exact (congrArg (3 + ·) ih).trans (Nat.add_comm _ _)

theorem length_subroutine (ts : List Word) (x : Byte) :
    (assemble (subroutineCallAndReturn ts x)).length = 3 * ts.length + 11 := by
  have happ : assemble (subroutineCallAndReturn ts x) =
      assemble [.ldxImm 0xFF, .txsImp, .jsrAbs (location (6 + 3 * ts.length))] ++ assemble (ts.map .jmpAbs) ++
        assemble [.plaImp, .adcImm x, .phaImp, .rtsImp] := by
    rw [assemble, subroutineCallAndReturn, List.flatMap_append, List.flatMap_append]
    rfl
  rw [happ, List.length_append, List.length_append, length_jumps]
  exact congrArg (· + 5) (Nat.add_comm 6 _)

theorem moving_does {r : ShortRegs} {low : Page} {v : Word} {x : Byte} (hret : low (stackAddr (r.sp + 1#8)) = loByte v)
    (hcarry : flag flagC r = false) :
    ∃ s : ShortRegs × Page, [Macro.plaImp, .adcImm x, .phaImp].foldlM (fun s i => does i s) (r, low) = some s ∧
      s.1.sp = r.sp ∧ s.2 (stackAddr (r.sp + 1#8)) = loByte (v + x.setWidth 16) ∧
      s.2 (stackAddr (r.sp + 1#8 + 1#8)) = low (stackAddr (r.sp + 1#8 + 1#8)) := by
  refine ⟨_, rfl, ?_, ?_, ?_⟩
  · exact BitVec.add_sub_cancel r.sp 1#8
  · have hacc : (adc x (load .acc (low (stackAddr (r.sp + 1#8))) { r with sp := r.sp + 1#8 })).acc =
        BitVec.ofNat 8 ((loByte v).toNat + x.toNat + (flag flagC r).toNat) := by
      rw [← hret, ← flagC_load (low (stackAddr (r.sp + 1#8))) r]
      rfl
    refine (Function.update_self _ _ _).trans (hacc.trans ?_)
    rw [hcarry, Bool.toNat_false, Nat.add_zero]
    apply BitVec.eq_of_toNat_eq
    rw [BitVec.toNat_ofNat, toNat_loByte, toNat_loByte, BitVec.toNat_add, BitVec.toNat_setWidth]
    omega
  · have hne : r.sp + 1#8 + 1#8 ≠ r.sp + 1#8 := by
      rw [BitVec.add_assoc]
      exact fun he => absurd ((BitVec.add_right_inj _).mp he) (by decide)
    exact Function.update_of_ne (stackAddr_injective.ne hne) _ _

theorem hiByte_add {v : Word} {x : Byte} (hpage : (loByte v).toNat + x.toNat < 256) :
    hiByte (v + x.setWidth 16) = hiByte v := by
  have hv := v.isLt
  rw [toNat_loByte] at hpage
  apply BitVec.eq_of_toNat_eq
  rw [toNat_hiByte, toNat_hiByte, BitVec.toNat_add, BitVec.toNat_setWidth]
  omega

theorem code_entry {asm : List Byte} {k : Nat} {rest : List Macro} (h : Code asm k (ts.map .jmpAbs ++ rest))
    (hj : j < ts.length) :
    Code asm (k + 3 * j) (.jmpAbs ts[j] :: ((ts.drop (j + 1)).map .jmpAbs ++ rest)) := by
  have hsplit : ts.map Macro.jmpAbs ++ rest =
      (ts.take j).map .jmpAbs ++ .jmpAbs ts[j] :: ((ts.drop (j + 1)).map .jmpAbs ++ rest) := by
    rw [← List.cons_append, ← List.map_cons, ← List.append_assoc, ← List.map_append, List.getElem_cons_drop,
      List.take_append_drop]
  rw [hsplit] at h
  have happ := h.append
  rwa [length_jumps, List.length_take, Nat.min_eq_left hj.le] at happ

theorem subroutine_leads (hj : j < ts.length) (hpage : 3 * j + 5 < 256) (hvalid : ts[j] ≠ invalidAddress)
    (hfit : 3 * ts.length + 11 ≤ 0xFDFA) {r : ShortRegs} {low : Page} (hc : flag flagC r = false) :
    ∃ s : ShortRegs × Page, LeadsTo testCycle
      (At (assemble (subroutineCallAndReturn ts (BitVec.ofNat 8 (3 * j)))) (location 0) r low)
      (At (assemble (subroutineCallAndReturn ts (BitVec.ofNat 8 (3 * j)))) ts[j] s.1 s.2) := by
  obtain ⟨asm, hasm⟩ : ∃ asm, asm = assemble (subroutineCallAndReturn ts (BitVec.ofNat 8 (3 * j))) := ⟨_, rfl⟩
  have hlen : asm.length ≤ 0xFDFA := by
    rw [hasm, length_subroutine]
    exact hfit
  have hcode : Code asm 0 ([.ldxImm 0xFF, .txsImp] ++ (.jsrAbs (location (6 + 3 * ts.length)) ::
      (ts.map .jmpAbs ++ ([.plaImp, .adcImm (BitVec.ofNat 8 (3 * j)), .phaImp] ++ [.rtsImp])))) := by
    rw [Code, hasm, subroutineCallAndReturn, List.append_assoc]
    rfl
  have hjumps : Code asm 6 (ts.map .jmpAbs ++ ([.plaImp, .adcImm (BitVec.ofNat 8 (3 * j)), .phaImp] ++ [.rtsImp])) :=
    hcode.append.tail
  have hsub : Code asm (6 + 3 * ts.length) ([.plaImp, .adcImm (BitVec.ofNat 8 (3 * j)), .phaImp] ++ [.rtsImp]) := by
    have happ := hjumps.append
    rwa [length_jumps] at happ
  have hinside : ∀ {k : Nat} {i : Macro} {is : List Macro}, Code asm k (i :: is) → location k ≠ invalidAddress := by
    intro k i is h he
    exact absurd (he ▸ (h.here hlen).below) (by decide)
  obtain ⟨r₁, hr₁⟩ : ∃ r₁, r₁ = { load .x 0xFF r with sp := 0xFF } := ⟨_, rfl⟩
  have hc₁ : flag flagC r₁ = false := hr₁ ▸ (flagC_nz 0xFF (r.set 0xFF .x)).trans hc
  have hset : LeadsTo testCycle (At asm (location 0) r low) (At asm (location 3) r₁ low) := by
    rw [hr₁]
    exact block_leads (s := (r, low)) hlen hcode rfl
  -- the call is at byte 3 and leaves the address of byte 5
  have hcall : LeadsTo testCycle (At asm (location 3) r₁ low) (At asm (location (6 + 3 * ts.length))
      { r₁ with sp := r₁.sp - 1#8 - 1#8 } (called (location 3 + 2#16) r₁ low)) :=
    jsr_abs (hcode.append.here hlen) (hinside hsub)
  rw [location_add 3 2] at hcall
  obtain ⟨s, hs, hsp, hlow, hhigh⟩ := moving_does (r := { r₁ with sp := r₁.sp - 1#8 - 1#8 })
    (x := BitVec.ofNat 8 (3 * j)) (called_low (location 5) r₁ low) hc₁
  rw [called_high] at hhigh
  have hsmall : (BitVec.ofNat 8 (3 * j)).toNat = 3 * j := (BitVec.toNat_ofNat _ _).trans (Nat.mod_eq_of_lt (by omega))
  have hx : location 5 + (BitVec.ofNat 8 (3 * j)).setWidth 16 = location (5 + 3 * j) := by
    rw [← location_add]
    apply congrArg (location 5 + ·)
    apply BitVec.eq_of_toNat_eq
    rw [BitVec.toNat_setWidth, hsmall, BitVec.toNat_ofNat]
  have hmoved : hiByte (location (5 + 3 * j)) = hiByte (location 5) := by
    rw [← hx]
    apply hiByte_add
    have hfive : (loByte (location 5)).toNat = 5 := rfl
    rw [hfive, hsmall]
    omega
  have hnext : location (5 + 3 * j) + 1#16 = location (6 + 3 * j) := by
    rw [show 6 + 3 * j = 5 + 3 * j + 1 by omega]
    exact location_add _ 1
  have hentry := code_entry hjumps hj
  have hret : LeadsTo testCycle (At asm _ s.1 s.2) (At asm (location (5 + 3 * j) + 1#16) _ s.2) :=
    rts_imp (hsub.append.here hlen) (by rw [hsp, hlow, hx]) (by rw [hsp, hhigh, hmoved]) (hnext ▸ hinside hentry)
  rw [hnext] at hret
  rw [← hasm]
  exact ⟨(_, s.2), ((hset.trans hcall).trans (block_leads hlen hsub hs)).trans
    (hret.trans (jmp_abs (hentry.here hlen) hvalid))⟩

/-- The call comes back to whichever entry of the table the subroutine selects. -/
theorem subroutine_reports (ts : List Word) (hj : j < ts.length) (hpage : 3 * j + 5 < 256)
    (hfit : 3 * ts.length + 11 ≤ 0xE00) (hexit : 0x1000 ≤ (ts[j]).toNat ∧ ts[j] < cpuAddrReservedStart)
    (x : Word) : Reports (assemble (subroutineCallAndReturn ts (BitVec.ofNat 8 (3 * j)))) x ↔ x = ts[j] := by
  have hvalid : ts[j] ≠ invalidAddress := by
    intro he
    exact absurd (he ▸ hexit.2) (by decide)
  have hlen := length_subroutine ts (BitVec.ofNat 8 (3 * j))
  obtain ⟨s, hleads⟩ := subroutine_leads (r := ⟨0, 0, 0, 0, 0⟩) hj hpage hvalid (hfit.trans (by decide)) rfl
  exact reports_of_leads (hlen.le.trans hfit) hexit.1 hexit.2 hleads x

theorem subroutine_reports_success :
    Reports (assemble (subroutineCallAndReturn [exceptionFailure, exceptionSuccess] 3)) exceptionSuccess :=
  (subroutine_reports (j := 1) [exceptionFailure, exceptionSuccess] (by decide) (by decide) (by decide) (by decide)
    exceptionSuccess).mpr rfl

end SubroutineCallAndReturn

end Bugnes.TestPrograms
