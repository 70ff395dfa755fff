import Bugnes.Plain

namespace Bugnes.PlainRuns

open Words Memhooks CpuCore Addr OpcodeTable Opcodes Registers Plain

variable {F σ : Type}

def HookFreeAt (t : AllMh F) (a : Word) : Prop := ∀ ty, check t ty a = none

structure HookFree (m : Machine F σ) : Prop where
  memhooks : ∀ ty, m.allMh ty = []
  excepthooks : ∀ ty, m.ehFunV ty = none

theorem HookFree.at {m : Machine F σ} (h : HookFree m) (a : Word) : HookFreeAt m.allMh a := by
  intro ty
  simp [check, h.memhooks ty, checkList]

def noHooks : HookFuns Empty Unit := ⟨fun f => f.elim, fun f => f.elim, fun f => f.elim, fun f => f.elim⟩

def bare (pc : Word) (r : ShortRegs) (mem : Word → Byte) : Machine Empty Unit :=
  ⟨pc, r, mem, invalidAddress, empty, fun _ => none, ()⟩

theorem bare_hookFree (pc : Word) (r : ShortRegs) (mem : Word → Byte) : HookFree (bare pc r mem) :=
  ⟨fun _ => rfl, fun _ => rfl⟩

def bytesAt (start : Word) (bytes : List Byte) : Word → Byte := fun a => bytes.getD (a - start).toNat 0#8

@[simp] theorem require_run {p : Prop} [Decidable p] (h : p) (m : Machine F σ) :
    (require p : CpuM F σ Unit).run m = .ok ((), m) := by
  simp [require, StateT.run, assertThat_of h]

theorem require_eq {p : Prop} [Decidable p] (h : p) : (require p : CpuM F σ Unit) = pure () := by
  funext m
  exact require_run h m

theorem require_apply {p : Prop} [Decidable p] (m : Machine F σ) :
    (require p : CpuM F σ Unit).run m = if p then .ok ((), m) else .error .assertion := by
  by_cases h : p <;> simp [require, StateT.run, assertThat, h]

section Registers

variable (m : Machine F σ)

@[simp] theorem getPc_run : (getPc : CpuM F σ Word).run m = .ok (m.regPc, m) := by
  simp [getPc]

@[simp] theorem getSreg_run (reg : ShortReg) : (getSreg reg : CpuM F σ Byte).run m = .ok (m.shortRegs.get reg, m) := by
  simp [getSreg]

@[simp] theorem setSreg_run (reg : ShortReg) (v : Byte) :
    (setSreg reg v : CpuM F σ Unit).run m = .ok ((), { m with shortRegs := m.shortRegs.set v reg }) := by
  simp [setSreg]

@[simp] theorem getFlag_run (f : Byte) : (getFlag f : CpuM F σ Bool).run m = .ok (flag f m.shortRegs, m) := by
  simp [getFlag, flag, ShortRegs.get]

@[simp] theorem setFlag_run (f : Byte) (b : Bool) :
    (setFlag f b : CpuM F σ Unit).run m = .ok ((), { m with shortRegs := putFlag f b m.shortRegs }) := by
  simp [setFlag, putFlag, ShortRegs.get, ShortRegs.set]

@[simp] theorem branchStatus_run (new : Word) :
    (branchStatus new : CpuM F σ Word).run m = .ok (m.regPcBranched, { m with regPcBranched := new }) := by
  simp [branchStatus]

@[simp] theorem flagsUpdateBasicByValue_run (v : Byte) :
    (flagsUpdateBasicByValue v : CpuM F σ Unit).run m = .ok ((), { m with shortRegs := nz v m.shortRegs }) := by
  by_cases hz : v = 0#8 <;> by_cases hn : v.toInt < 0 <;>
    simp [flagsUpdateBasicByValue, nz, BitVec.msb_eq_toInt, hz, hn]

@[simp] theorem flagsUpdateBasicByRegister_run (reg : ShortReg) (h : reg ≠ .cpu ∧ reg ≠ .sp) :
    (flagsUpdateBasicByRegister reg : CpuM F σ Unit).run m =
      .ok ((), { m with shortRegs := nz (m.shortRegs.get reg) m.shortRegs }) := by
  simp [flagsUpdateBasicByRegister, h.1, h.2]

@[simp] theorem flagsUpdateBasicByRegister_cpu_run :
    (flagsUpdateBasicByRegister .cpu : CpuM F σ Unit).run m = .ok ((), m) := by
  simp [flagsUpdateBasicByRegister]

@[simp] theorem flagsUpdateBasicByRegister_sp_run :
    (flagsUpdateBasicByRegister .sp : CpuM F σ Unit).run m = .ok ((), m) := by
  simp [flagsUpdateBasicByRegister]

theorem setSreg_load_run (v : Byte) {dest : ShortReg} (h : dest = .acc ∨ dest = .x ∨ dest = .y) :
    (setSreg dest v >>= fun _ => flagsUpdateBasicByRegister dest : CpuM F σ Unit).run m =
      .ok ((), { m with shortRegs := load dest v m.shortRegs }) := by
  rcases h with rfl | rfl | rfl <;> simp [load, ShortRegs.get, ShortRegs.set]

theorem int16_of_range {i : Int} (h : -32768 ≤ i ∧ i < 32768) : int16 i = i := by
  rw [int16, BitVec.toInt_ofInt, Int.bmod_def]
  omega

/-- Both sums are taken in full, so they never differ and V is always cleared. -/
theorem flagsUpdateArithOverflow_run (a b : Byte) {factor : Int} (h : factor.natAbs = 1) :
    (flagsUpdateArithOverflow a b factor : CpuM F σ Unit).run m =
      .ok ((), { m with shortRegs := putFlag flagV false m.shortRegs }) := by
  have hb : int16 (b.toInt * factor) = b.toInt * factor := by
    have h₁ := b.toInt_lt
    have h₂ := b.le_toInt
    apply int16_of_range
    rcases Int.natAbs_eq_iff.mp h with rfl | rfl <;> simp at * <;> omega
  simp [flagsUpdateArithOverflow, h, hb]

theorem flagsUpdateArithAdcCarry_run (a b : Byte) :
    (flagsUpdateArithAdcCarry a b : CpuM F σ Unit).run m =
      .ok ((), { m with
        shortRegs := putFlag flagC (decide (a.toNat + b.toNat + (flag flagC m.shortRegs).toNat > 255)) m.shortRegs }) := by
  by_cases h : a.toNat + b.toNat + (flag flagC m.shortRegs).toNat > 255 <;>
    simp [flagsUpdateArithAdcCarry, h]

theorem flagsUpdateArithSbcCarry_run (a b : Byte) :
    (flagsUpdateArithSbcCarry a b : CpuM F σ Unit).run m =
      .ok ((), { m with
        shortRegs := putFlag flagC (decide (b.toNat + (!flag flagC m.shortRegs).toNat ≤ a.toNat)) m.shortRegs }) := by
  have hiff : (a.toNat : Int) - b.toNat < (!flag flagC m.shortRegs).toNat ↔
      ¬b.toNat + (!flag flagC m.shortRegs).toNat ≤ a.toNat := by omega
  by_cases h : b.toNat + (!flag flagC m.shortRegs).toNat ≤ a.toNat <;>
    simp [flagsUpdateArithSbcCarry, hiff, h]

theorem flagsUpdateArithCmpCarry_run (a b : Byte) :
    (flagsUpdateArithCmpCarry a b : CpuM F σ Unit).run m =
      .ok ((), { m with shortRegs := putFlag flagC (decide (b ≤ a)) m.shortRegs }) := by
  by_cases h : b ≤ a <;> simp [flagsUpdateArithCmpCarry, h]

theorem asmReg2reg_run (dest source : ShortReg) (h : dest = .acc ∨ dest = .x ∨ dest = .y) :
    (asmReg2reg dest source : CpuM F σ Unit).run m =
      .ok ((), { m with shortRegs := load dest (m.shortRegs.get source) m.shortRegs }) := by
  rcases h with rfl | rfl | rfl <;> simp [asmReg2reg, load, ShortRegs.get, ShortRegs.set]

theorem asmIncReg_run (reg : ShortReg) {inc : Int} (hinc : inc.natAbs = 1) (h : reg = .x ∨ reg = .y) :
    (asmIncReg reg inc : CpuM F σ Unit).run m =
      .ok ((), { m with
        shortRegs := load reg (m.shortRegs.get reg + BitVec.ofInt 8 inc) m.shortRegs }) := by
  rcases h with rfl | rfl <;> simp [asmIncReg, hinc, load, ShortRegs.get, ShortRegs.set]

theorem asmLogicAnd_run (v : Byte) :
    (asmLogicAnd .acc v : CpuM F σ Unit).run m =
      .ok ((), { m with shortRegs := load .acc (m.shortRegs.acc &&& v) m.shortRegs }) := by
  simp [asmLogicAnd, load, nz, putFlag, ShortRegs.get, ShortRegs.set]

/-- The pseudo register reads as zero, so V is never touched. -/
theorem asmLogicAnd_invalid_run (v : Byte) :
    (asmLogicAnd .invalid v : CpuM F σ Unit).run m =
      .ok ((), { m with shortRegs := nz 0#8 m.shortRegs }) := by
  simp [asmLogicAnd, flagsUpdateLogicOverflow, ShortRegs.get, ShortRegs.set]

theorem asmLogicEor_run (v : Byte) :
    (asmLogicEor .acc v : CpuM F σ Unit).run m =
      .ok ((), { m with
        shortRegs := { nz m.shortRegs.acc m.shortRegs with acc := m.shortRegs.acc ^^^ v } }) := by
  simp [asmLogicEor, ShortRegs.get, ShortRegs.set]

theorem asmLogicOra_run (v : Byte) :
    (asmLogicOra .acc v : CpuM F σ Unit).run m =
      .ok ((), { m with
        shortRegs := { nz m.shortRegs.acc m.shortRegs with acc := m.shortRegs.acc ||| v } }) := by
  simp [asmLogicOra, ShortRegs.get, ShortRegs.set]

theorem asmArithAdd_run (v : Byte) :
    (asmArithAdd .acc .acc v : CpuM F σ Unit).run m =
      .ok ((), { m with shortRegs := adc v m.shortRegs }) := by
  have hsum : BitVec.ofNat 8 (m.shortRegs.acc.toNat + v.toNat + (flag flagC m.shortRegs).toNat) =
      m.shortRegs.acc + v + BitVec.ofNat 8 (flag flagC m.shortRegs).toNat := by
    simp [BitVec.ofNat_add]
  simp [asmArithAdd, adc, hsum, flagsUpdateArithAdcCarry_run, flagsUpdateArithOverflow_run,
    ShortRegs.get, ShortRegs.set]

theorem asmArithSub_run (v : Byte) :
    (asmArithSub .acc .acc v : CpuM F σ Unit).run m =
      .ok ((), { m with shortRegs := sbc v m.shortRegs }) := by
  simp [asmArithSub, sbc, flagsUpdateArithSbcCarry_run, flagsUpdateArithOverflow_run,
    ShortRegs.get, ShortRegs.set]

theorem asmArithSub_invalid_run (source : ShortReg) (v : Byte)
    (h : source = .acc ∨ source = .x ∨ source = .y) :
    (asmArithSub .invalid source v : CpuM F σ Unit).run m =
      .ok ((), { m with shortRegs := cmpFlags (m.shortRegs.get source) v m.shortRegs }) := by
  rcases h with rfl | rfl | rfl <;>
    simp [asmArithSub, cmpFlags, flagsUpdateArithCmpCarry_run, ShortRegs.get, ShortRegs.set] <;> rfl

theorem flagsUpdateShrotCarry_run (v : Byte) {direction fill : Int} (hd : direction = 1 ∨ direction = -1)
    (hf : fill = 0 ∨ fill = 1) :
    (flagsUpdateShrotCarry v direction fill : CpuM F σ Unit).run m =
      .ok ((), { m with
        shortRegs := putFlag flagC (if direction = 1 then v.msb else lowBit v) m.shortRegs }) := by
  rcases hd with rfl | rfl
  · have h7 : v &&& 128#8 = 0#8 ↔ v.msb = false := and_bit_eq_zero v (i := 7) (by decide)
    cases hv : v.msb <;> simp [flagsUpdateShrotCarry, hf, h7, hv]
  · have h0 : v &&& 1#8 = 0#8 ↔ lowBit v = false := and_bit_eq_zero v (i := 0) (by decide)
    cases hv : lowBit v <;> simp [flagsUpdateShrotCarry, hf, h0, hv]

@[simp] theorem discard_branchStatus_run (new : Word) :
    (discard (branchStatus new) : CpuM F σ Unit).run m = .ok ((), { m with regPcBranched := new }) := rfl

theorem asmMem2pc_run (target : Word) (condition : Bool) :
    (asmMem2pc target condition : CpuM F σ Unit).run m =
      .ok ((), { m with regPcBranched := if condition then target else m.regPcBranched }) := by
  cases condition <;> simp [asmMem2pc]

end Registers

section Stack

variable (m : Machine F σ)

@[simp] theorem setMem_run (a : Word) (v : Byte) :
    (setMem a v : CpuM F σ Unit).run m = .ok ((), { m with mem := Function.update m.mem a v }) := by
  simp [setMem]

theorem stackPush_run (v : Byte) :
    (stackPush v : CpuM F σ Unit).run m = .ok ((), (pushed m.shortRegs v).apply m) := by
  simp [stackPush, pushed, Effect.apply, ShortRegs.get, ShortRegs.set]

theorem stackPush16_run (v : Word) :
    (stackPush16 v : CpuM F σ Unit).run m = .ok ((), (pushedWord m.shortRegs v).apply m) := by
  simp [stackPush16, stackPush_run, pushed, pushedWord, Effect.apply]

theorem asmPc2stack_run :
    (asmPc2stack : CpuM F σ Unit).run m = .ok ((), (pushedWord m.shortRegs (m.regPc + 2#16)).apply m) := by
  rw [asmPc2stack, StateT.run_bind, getPc_run, ok_bind, stackPush16_run]

theorem stackPop_run :
    (stackPop : CpuM F σ Byte).run m =
      .ok (m.mem (stackAddr (m.shortRegs.sp + 1#8)),
        { m with shortRegs := { m.shortRegs with sp := m.shortRegs.sp + 1#8 } }) := by
  simp [stackPop, ShortRegs.get, ShortRegs.set]

theorem stackPop16_run :
    (stackPop16 : CpuM F σ Word).run m =
      .ok (wordOf (m.mem (stackAddr (m.shortRegs.sp + 1#8))) (m.mem (stackAddr (m.shortRegs.sp + 1#8 + 1#8))),
        { m with shortRegs := { m.shortRegs with sp := m.shortRegs.sp + 1#8 + 1#8 } }) := by
  simp [stackPop16, stackPop_run]

end Stack

section Memory

variable (hf : HookFuns F σ) {m : Machine F σ}

theorem memRead_run {a : Word} (h : HookFreeAt m.allMh a) : (memRead hf a).run m = .ok (m.mem a, m) := by
  simp [memRead, translAddr, h .transl, h .read]

theorem memRead16_run {a : Word} (h : HookFreeAt m.allMh a) (h' : HookFreeAt m.allMh (a + 1#16)) :
    (memRead16 hf a).run m = .ok (wordAt m.mem a, m) := by
  simp [memRead16, memRead_run hf h, memRead_run hf h', wordAt]

theorem memWrite_run {a : Word} (h : HookFreeAt m.allMh a) (v : Byte) :
    (memWrite hf a v).run m = .ok ((), { m with mem := Function.update m.mem a v }) := by
  simp [memWrite, translAddr, h .transl, h .write]

theorem memInc_run {a : Word} (h : HookFreeAt m.allMh a) (v : Int) :
    (memInc hf a v).run m =
      .ok ((), { m with mem := Function.update m.mem a (m.mem a + BitVec.ofInt 8 v) }) := by
  simp [memInc, translAddr, h .transl, h .write]

theorem addr_run {mode : AddrMode} (h : ∀ a ∈ addrBytes mode m, HookFreeAt m.allMh a) :
    (addr hf mode).run m = .ok (addrOf mode m, m) := by
  have h₁ : HookFreeAt m.allMh (m.regPc + 1#16) := h _ (by simp [addrBytes, pointerCells])
  have h₂ : HookFreeAt m.allMh (m.regPc + 1#16 + 1#16) := h _ (by simp [addrBytes, add_one_one])
  have hw := memRead16_run hf h₁ h₂
  have hb := memRead_run hf h₁
  cases mode with
  | ind =>
      have hp := memRead16_run hf (h (wordAt m.mem (m.regPc + 1#16)) (by simp [addrBytes, pointerCells]))
        (h (wordAt m.mem (m.regPc + 1#16) + 1#16) (by simp [addrBytes, pointerCells]))
      simp [addr, addrOf, hw, hb, hp]
  | inx =>
      have hp := memRead16_run hf
        (h ((m.mem (m.regPc + 1#16)).setWidth 16 + m.shortRegs.x.setWidth 16) (by simp [addrBytes, pointerCells]))
        (h ((m.mem (m.regPc + 1#16)).setWidth 16 + m.shortRegs.x.setWidth 16 + 1#16) (by simp [addrBytes, pointerCells]))
      simp [addr, addrOf, hw, hb, hp, ShortRegs.get]
  | iny =>
      have hp := memRead16_run hf (h ((m.mem (m.regPc + 1#16)).setWidth 16) (by simp [addrBytes, pointerCells]))
        (h ((m.mem (m.regPc + 1#16)).setWidth 16 + 1#16) (by simp [addrBytes, pointerCells]))
      simp [addr, addrOf, hw, hb, hp, ShortRegs.get]
  | imp | acc | imm | zpa | zpx | zpy | rel | abs | abx | aby | max =>
      simp [addr, addrOf, hw, hb, ShortRegs.get]

theorem operand_run {mode : AddrMode} (h : ∀ a ∈ addrBytes mode m, HookFreeAt m.allMh a)
    (hea : addrOf mode m ≠ invalidAddress → HookFreeAt m.allMh (addrOf mode m)) :
    (addrModeGetValue hf mode).run m = .ok (operandOf mode m, m) := by
  have ha := addr_run hf h
  by_cases hv : addrOf mode m = invalidAddress
  · cases mode <;> simp [addrModeGetValue, operandOf, addrValid, value, ha, hv, ShortRegs.get]
  · simp [addrModeGetValue, operandOf, addrValid, ha, hv, memRead_run hf (hea hv)]

theorem asmIncMem_run {a : Word} (h : HookFreeAt m.allMh a) {inc : Int} (hinc : inc.natAbs = 1) :
    (asmIncMem hf a inc).run m =
      .ok ((), { m with
        shortRegs := nz (m.mem a + BitVec.ofInt 8 inc) m.shortRegs
        mem := Function.update m.mem a (m.mem a + BitVec.ofInt 8 inc) }) := by
  simp [asmIncMem, flagsUpdateBasicByMem, hinc, memInc_run hf, memRead_run hf, h]

theorem asmShrot_memory {e : Word} (he : e ≠ invalidAddress) {direction fill : Int}
    (hd : direction = 1 ∨ direction = -1) (hfill : fill = 0 ∨ fill = 1) :
    (asmShrot hf e .acc direction fill : CpuM F σ Unit) = (do
      let v ← memRead hf e
      flagsUpdateShrotCarry v direction fill
      memWrite hf e (if direction > 0 then (v <<< 1) ||| BitVec.ofInt 8 fill
        else (v >>> 1) ||| BitVec.ofInt 8 (fill <<< (7 : Nat)))
      flagsUpdateBasicByMem hf e) := by
  have hd' : direction.natAbs = 1 := by omega
  simp only [asmShrot, addrValid, bne_iff_ne, ne_eq, he, not_false_eq_true, if_true, require_eq hd', require_eq hfill,
    pure_bind]

theorem asmShrot_acc {direction fill : Int} (hd : direction = 1 ∨ direction = -1) (hfill : fill = 0 ∨ fill = 1) :
    (asmShrot hf invalidAddress .acc direction fill : CpuM F σ Unit) = (do
      let v ← getSreg .acc
      flagsUpdateShrotCarry v direction fill
      setSreg .acc (if direction > 0 then (v <<< 1) ||| BitVec.ofInt 8 fill
        else (v >>> 1) ||| BitVec.ofInt 8 (fill <<< (7 : Nat)))
      flagsUpdateBasicByRegister .acc) := by
  have hd' : direction.natAbs = 1 := by omega
  simp only [asmShrot, addrValid, bne_self_eq_false, Bool.false_eq_true, if_false, require_eq hd', require_eq hfill,
    pure_bind]

theorem asmShrot_run {mode : AddrMode} {direction fill : Int} {out : Byte → Bool} {f : Byte → Byte}
    (hd : direction = 1 ∨ direction = -1) (hfill : fill = 0 ∨ fill = 1)
    (hout : ∀ v, out v = if direction = 1 then v.msb else lowBit v)
    (hval : ∀ v, f v = if direction > 0 then (v <<< 1) ||| BitVec.ofInt 8 fill
      else (v >>> 1) ||| BitVec.ofInt 8 (fill <<< (7 : Nat)))
    (hea : addrOf mode m ≠ invalidAddress → HookFreeAt m.allMh (addrOf mode m)) :
    (asmShrot hf (addrOf mode m) .acc direction fill).run m = .ok ((), (shifted mode m out f).apply m) := by
  have hcarry := fun m : Machine F σ => fun v => flagsUpdateShrotCarry_run m v hd hfill
  by_cases hv : addrOf mode m = invalidAddress
  · rw [hv, asmShrot_acc hf hd hfill]
    simp [shifted, onRegs, load, Effect.apply, hv, hcarry, hout, hval, ShortRegs.get, ShortRegs.set]
  · have hfree := hea hv
    rw [asmShrot_memory hf hv hd hfill]
    simp [shifted, Effect.apply, hv, hcarry, hout, hval, memRead_run hf, memWrite_run hf, flagsUpdateBasicByMem, hfree]

theorem asmShrot_left_run {mode : AddrMode} (fill : Bool)
    (hea : addrOf mode m ≠ invalidAddress → HookFreeAt m.allMh (addrOf mode m)) :
    (asmShrot hf (addrOf mode m) .acc 1 fill.toInt).run m =
      .ok ((), (shifted mode m BitVec.msb (shiftLeft · fill)).apply m) :=
  asmShrot_run hf (.inl rfl) (by cases fill <;> decide) (fun _ => rfl)
    (fun _ => by cases fill <;> simp [shiftLeft]) hea

theorem asmShrot_right_run {mode : AddrMode} (fill : Bool)
    (hea : addrOf mode m ≠ invalidAddress → HookFreeAt m.allMh (addrOf mode m)) :
    (asmShrot hf (addrOf mode m) .acc (-1) fill.toInt).run m =
      .ok ((), (shifted mode m lowBit (shiftRight · fill)).apply m) := by
  have htop : BitVec.ofInt 8 ((1 : Int) <<< (7 : Nat)) = 128#8 := by decide
  exact asmShrot_run hf (.inr rfl) (by cases fill <;> decide) (fun _ => rfl)
    (fun _ => by cases fill <;> simp [shiftRight, htop]) hea

end Memory

end Bugnes.PlainRuns
