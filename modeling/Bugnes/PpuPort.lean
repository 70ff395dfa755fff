import Bugnes.Ppu
import Bugnes.Runs
import Bugnes.TwoRuns

namespace Bugnes.PpuPort

open Words Ppu

inductive PortOp
  | cr1Write (addr : Word) (v : Byte)
  | cr1Read (addr : Word)
  | cr2Write (addr : Word) (v : Byte)
  | cr2Read (addr : Word)
  | addrWrite (addr : Word) (v : Byte)
  | dataWrite (addr : Word) (v : Byte)
  | dataRead (addr : Word)
deriving Repr

def hookOf : PortOp → PpuM Byte
  | .cr1Write a v => ppuHookCr1Write a v
  | .cr1Read a => ppuHookCr1Read a
  | .cr2Write a v => ppuHookCr2Write a v
  | .cr2Read a => ppuHookCr2Read a
  | .addrWrite a v => ppuHookMemaddrWrite a v
  | .dataWrite a v => ppuHookMemdataWrite a v
  | .dataRead a => ppuHookMemdataRead a

def ppuOp : Runs.Machine PortOp Byte PpuState Fault := fun op p => (hookOf op).run p

/-- The reference machine: a 14-bit address, which half of it comes next, and
whether the next read is a dummy. -/
structure Port where
  a : BitVec 14
  lower : Bool
  dummy : Bool
  cr1 : Byte
  cr2 : Byte
  memory : BitVec 14 → Byte

def Port.inc (q : Port) : BitVec 14 := if q.cr1.getLsbD 2 then 32#14 else 1#14

def Port.step (q : Port) : Port := { q with a := q.a + q.inc }

def portOp : Runs.Machine PortOp Byte Port Fault
  | .cr1Write _ v, q => .ok (v, { q with cr1 := v })
  | .cr1Read _, q => .ok (q.cr1, q)
  | .cr2Write _ v, q => .ok (v, { q with cr2 := v })
  | .cr2Read _, q => .ok (q.cr2, q)
  | .addrWrite _ v, q =>
      let a : BitVec (6 + 8) := if q.lower then q.a.extractLsb' 8 6 ++ v else v.setWidth 6 ++ q.a.setWidth 8
      .ok (v, { q with a := a, lower := !q.lower, dummy := true })
  | .dataWrite _ v, q => .ok (0#8, { q with memory := Function.update q.memory q.a v }.step)
  | .dataRead _, q => if q.dummy then .ok (0#8, { q with dummy := false }) else .ok (q.memory q.a, q.step)

def Port.powerUp (memory : BitVec 14 → Byte) : Port := ⟨0#14, false, false, 0#8, 0#8, memory⟩

/-- The counter is the 14-bit address up to a multiple of the size, and less
than a page past it. -/
structure Refines (p : PpuState) (q : Port) : Prop where
  addr : p.memaddr.toNat % 0x4000 = q.a.toNat
  bound : p.memaddr.toNat < 0x4100
  lower : p.setLower = q.lower
  dummy : p.memaddrJustSetted = q.dummy
  cr1 : p.ppuRegs .cr1 = q.cr1
  cr2 : p.ppuRegs .cr2 = q.cr2
  memory : ∀ i : BitVec 14, p.memory (i.setWidth 16) = q.memory i

theorem vertical_run (p : PpuState) : vertical.run p = .ok ((p.ppuRegs .cr1).getLsbD 2, p) := by
  have h : ∀ v : Byte, ((v &&& calculateMask cr1VerticalWriteShift cr1VerticalWriteSize) >>> cr1VerticalWriteShift != 0#8) =
      v.getLsbD 2 := by decide +kernel
  simp only [vertical, ppuRegGetField, ppuRegGet]
  exact congrArg (fun b => Except.ok (b, p)) (h (p.ppuRegs .cr1))

theorem toNat_ppuSize : ppuSize.toNat = 0x4000 := rfl

theorem toNat_high (m : Word) (v : Byte) :
    ((m &&& 0x00FF#16) ||| ((v.setWidth 16 &&& 0x3F#16) <<< 8)).toNat = v.toNat % 64 * 256 + m.toNat % 256 := by
  have hv := v.isLt
  have hm : (m &&& 0x00FF#16).toNat = m.toNat % 256 := by
    rw [BitVec.toNat_and]
    exact Nat.and_two_pow_sub_one_eq_mod m.toNat 8
  have hw : ((v.setWidth 16 : Word) &&& 0x3F#16).toNat = v.toNat % 64 := by
    rw [BitVec.toNat_and, BitVec.toNat_setWidth, Nat.mod_eq_of_lt (by omega)]
    exact Nat.and_two_pow_sub_one_eq_mod v.toNat 6
  have hs : (v.toNat % 64) <<< 8 % 2 ^ 16 = (v.toNat % 64) <<< 8 := by
    rw [Nat.shiftLeft_eq]
    omega
  rw [BitVec.toNat_or, BitVec.toNat_shiftLeft, hm, hw, hs, Nat.or_comm,
    ← Nat.shiftLeft_add_eq_or_of_lt (Nat.mod_lt _ (by decide)), Nat.shiftLeft_eq]

theorem toNat_low (m : Word) (v : Byte) : ((m &&& 0xFF00#16) ||| v.setWidth 16).toNat = m.toNat / 256 * 256 + v.toNat := by
  have hv := v.isLt
  have hm := m.isLt
  have hbit : ∀ i (hi : i < 16), (0xFF00#16)[i] = decide (8 ≤ i) := by decide
  have hmask : m &&& 0xFF00#16 = (m >>> 8) <<< 8 := by
    ext i hi
    by_cases h8 : i < 8
    · have hlow : ¬8 ≤ i := by omega
      simp [hbit i hi, h8, hlow]
    · have hhigh : 8 ≤ i := by omega
      simp [hbit i hi, h8, hhigh, BitVec.getLsbD_eq_getElem hi]
  have hs : (m.toNat / 256) <<< 8 % 2 ^ 16 = (m.toNat / 256) <<< 8 := by
    rw [Nat.shiftLeft_eq]
    omega
  have hd : m.toNat >>> 8 = m.toNat / 256 := Nat.shiftRight_eq_div_pow _ _
  have hw : v.toNat % 2 ^ 16 = v.toNat := Nat.mod_eq_of_lt (by omega)
  rw [hmask, BitVec.toNat_or, BitVec.toNat_shiftLeft, BitVec.toNat_ushiftRight, hd, hs, BitVec.toNat_setWidth, hw,
    ← Nat.shiftLeft_add_eq_or_of_lt (by omega), Nat.shiftLeft_eq]

theorem toNat_append_byte (h : BitVec 6) (l : Byte) : (h ++ l).toNat = h.toNat * 256 + l.toNat := by
  rw [BitVec.toNat_append, ← Nat.shiftLeft_add_eq_or_of_lt l.isLt, Nat.shiftLeft_eq]

theorem memory_index {p : PpuState} {q : Port} (h : Refines p q) :
    p.memaddr % ppuSize = q.a.setWidth 16 ∧ p.memaddr &&& 0x3FFF#16 = q.a.setWidth 16 := by
  have ha := q.a.isLt
  have hw : q.a.toNat % 2 ^ 16 = q.a.toNat := Nat.mod_eq_of_lt (by omega)
  constructor
  · apply BitVec.eq_of_toNat_eq
    rw [BitVec.toNat_umod, BitVec.toNat_setWidth, hw]
    exact h.addr
  · apply BitVec.eq_of_toNat_eq
    rw [BitVec.toNat_and, BitVec.toNat_setWidth, hw, ← h.addr]
    exact Nat.and_two_pow_sub_one_eq_mod p.memaddr.toNat 14

theorem toNat_advanced {a : Word} {inc : Nat} (ha : a.toNat < 0x4100) (hinc : inc ≤ 32) :
    let next := a + BitVec.ofNat 16 inc
    (if next > ppuSize then next % ppuSize else next).toNat % 0x4000 = (a.toNat + inc) % 0x4000 ∧
      (if next > ppuSize then next % ppuSize else next).toNat < 0x4100 := by
  intro next
  have hsum : next.toNat = a.toNat + inc := by
    rw [BitVec.toNat_add, BitVec.toNat_ofNat]
    omega
  have hwrap : (next % ppuSize).toNat = (a.toNat + inc) % 0x4000 := by
    rw [BitVec.toNat_umod, hsum, toNat_ppuSize]
  split
  · rw [hwrap, Nat.mod_mod]
    omega
  · next hle =>
      have hle := BitVec.le_def.mp (BitVec.not_lt.mp hle)
      rw [toNat_ppuSize, hsum] at hle
      rw [hsum]
      omega

theorem advance_refines {p : PpuState} {q : Port} (h : Refines p q) :
    ∃ p', (advance (if (p.ppuRegs .cr1).getLsbD 2 then 32#16 else 1#16)).run p = .ok ((), p') ∧ Refines p' q.step := by
  obtain ⟨inc, hinc, hword, hport⟩ : ∃ inc, inc ≤ 32 ∧
      ((if (p.ppuRegs .cr1).getLsbD 2 then 32#16 else 1#16 : Word) = BitVec.ofNat 16 inc) ∧ q.inc = BitVec.ofNat 14 inc := by
    rw [Port.inc, ← h.cr1]
    cases (p.ppuRegs .cr1).getLsbD 2
    · exact ⟨1, by decide, rfl, rfl⟩
    · exact ⟨32, by decide, rfl, rfl⟩
  have ha := h.addr
  have hnext : (q.a + q.inc).toNat = (p.memaddr.toNat + inc) % 0x4000 := by
    rw [hport, BitVec.toNat_add, BitVec.toNat_ofNat]
    omega
  obtain ⟨hmod, hbound⟩ := toNat_advanced h.bound hinc
  rw [hword]
  exact ⟨_, rfl, hmod.trans hnext.symm, hbound, h.lower, h.dummy, h.cr1, h.cr2, h.memory⟩

theorem addrWrite_refines {p : PpuState} {q : Port} (h : Refines p q) (addr : Word) (v : Byte) :
    ∃ p' q', (ppuHookMemaddrWrite addr v).run p = .ok (v, p') ∧ portOp (.addrWrite addr v) q = .ok (v, q') ∧
      Refines p' q' := by
  have ha := h.addr
  have hb := h.bound
  have hv := v.isLt
  cases hl : p.setLower with
  | true =>
      have hrun : (ppuHookMemaddrWrite addr v).run p = .ok (v, { p with
          memaddrJustSetted := true, memaddr := (p.memaddr &&& 0xFF00#16) ||| v.setWidth 16, setLower := false }) := by
        simp [ppuHookMemaddrWrite, hl]
      refine ⟨_, _, hrun, rfl, ?_⟩
      have hhigh : (q.a.extractLsb' 8 6).toNat = q.a.toNat / 256 := by
        have hq := q.a.isLt
        rw [BitVec.extractLsb'_toNat, Nat.shiftRight_eq_div_pow]
        omega
      refine ⟨?_, ?_, ?_, rfl, h.cr1, h.cr2, h.memory⟩
      · simp only [← h.lower, hl, if_true]
        rw [toNat_low, toNat_append_byte, hhigh]
        omega
      · rw [toNat_low]
        omega
      · rw [← h.lower, hl]
        rfl
  | false =>
      have hrun : (ppuHookMemaddrWrite addr v).run p = .ok (v, { p with
          memaddrJustSetted := true
          memaddr := (p.memaddr &&& 0x00FF#16) ||| ((v.setWidth 16 &&& 0x3F#16) <<< 8)
          setLower := true }) := by
        simp [ppuHookMemaddrWrite, hl]
      refine ⟨_, _, hrun, rfl, ?_⟩
      refine ⟨?_, ?_, ?_, rfl, h.cr1, h.cr2, h.memory⟩
      · simp only [← h.lower, hl, Bool.false_eq_true, if_false]
        rw [toNat_high, toNat_append_byte, BitVec.toNat_setWidth, BitVec.toNat_setWidth]
        omega
      · rw [toNat_high]
        omega
      · rw [← h.lower, hl]
        rfl

theorem memwrite_refines {p : PpuState} {q : Port} (h : Refines p q) (v : Byte) :
    ∃ p', (memwrite v).run p = .ok (v, p') ∧
      Refines p' { q with memory := Function.update q.memory q.a v }.step := by
  have hstored : Refines { p with memory := Function.update p.memory (p.memaddr &&& 0x3FFF#16) v }
      { q with memory := Function.update q.memory q.a v } := by
    refine ⟨h.addr, h.bound, h.lower, h.dummy, h.cr1, h.cr2, fun i => ?_⟩
    rw [(memory_index h).2]
    by_cases hi : i = q.a
    · subst hi
      simp
    · have hne : (i.setWidth 16 : Word) ≠ q.a.setWidth 16 := by
        intro he
        have hn := congrArg BitVec.toNat he
        rw [BitVec.toNat_setWidth, BitVec.toNat_setWidth] at hn
        exact hi (BitVec.eq_of_toNat_eq (by omega))
      simp only [Function.update_of_ne hne, Function.update_of_ne hi]
      exact h.memory i
  obtain ⟨p', hrun, hr⟩ := advance_refines hstored
  exact ⟨p', by simp [memwrite, vertical_run, -BitVec.getLsbD_eq_getElem, hrun], hr⟩

theorem memread_refines {p : PpuState} {q : Port} (h : Refines p q) :
    ∃ p', memread.run p = .ok (q.memory q.a, p') ∧ Refines p' q.step := by
  obtain ⟨p', hrun, hr⟩ := advance_refines h
  refine ⟨p', ?_, hr⟩
  rw [← h.memory q.a, ← (memory_index h).1]
  simp [memread, vertical_run, -BitVec.getLsbD_eq_getElem, hrun]

theorem ppuOp_simulates (op : PortOp) (p : PpuState) (q : Port) (o : Byte) (q' : Port) (h : Refines p q)
    (hop : portOp op q = .ok (o, q')) : ∃ p', ppuOp op p = .ok (o, p') ∧ Refines p' q' := by
  cases op with
  | cr1Write addr v =>
      have hcr1 : Function.update p.ppuRegs .cr1 v .cr1 = v := Function.update_self _ _ _
      refine ⟨{ p with ppuRegs := Function.update p.ppuRegs .cr1 v }, ?_⟩
      cases hop
      exact ⟨rfl, h.addr, h.bound, h.lower, h.dummy, hcr1, h.cr2, h.memory⟩
  | cr1Read addr =>
      cases hop
      exact ⟨p, congrArg (fun v => Except.ok (v, p)) h.cr1, h⟩
  | cr2Write addr v =>
      have hcr2 : Function.update p.ppuRegs .cr2 v .cr2 = v := Function.update_self _ _ _
      refine ⟨{ p with ppuRegs := Function.update p.ppuRegs .cr2 v }, ?_⟩
      cases hop
      exact ⟨rfl, h.addr, h.bound, h.lower, h.dummy, h.cr1, hcr2, h.memory⟩
  | cr2Read addr =>
      cases hop
      exact ⟨p, congrArg (fun v => Except.ok (v, p)) h.cr2, h⟩
  | addrWrite addr v =>
      obtain ⟨p₁, q₁, hp, hq, hr⟩ := addrWrite_refines h addr v
      rw [hq] at hop
      cases hop
      exact ⟨p₁, hp, hr⟩
  | dataWrite addr v =>
      cases hop
      obtain ⟨p', hwrite, hr⟩ := memwrite_refines h v
      exact ⟨p', by simp [ppuOp, hookOf, ppuHookMemdataWrite, TwoRuns.discard_run_ok hwrite], hr⟩
  | dataRead addr =>
      cases hd : p.memaddrJustSetted with
      | true =>
          rw [portOp, ← h.dummy, hd] at hop
          cases hop
          have hrun : (ppuHookMemdataRead addr).run p = .ok (0#8, { p with memaddrJustSetted := false }) := by
            simp [ppuHookMemdataRead, hd]
          exact ⟨_, hrun, h.addr, h.bound, h.lower, rfl, h.cr1, h.cr2, h.memory⟩
      | false =>
          rw [portOp, ← h.dummy, hd] at hop
          cases hop
          obtain ⟨p', hread, hr⟩ := memread_refines h
          have hrun : (ppuHookMemdataRead addr).run p = .ok (q.memory q.a, p') := by
            simp [ppuHookMemdataRead, hd, hread]
          exact ⟨p', hrun, hr⟩

theorem portOp_total (op : PortOp) (q : Port) : ∃ o q', portOp op q = .ok (o, q') := by
  cases op with
  | dataRead addr =>
      cases hd : q.dummy with
      | true => exact ⟨0#8, { q with dummy := false }, if_pos hd⟩
      | false => exact ⟨q.memory q.a, q.step, if_neg (by simp [hd])⟩
  | _ => exact ⟨_, _, rfl⟩

theorem run_portOp_total (ops : List PortOp) (q : Port) : ∃ outs q', Runs.run portOp ops q = .ok (outs, q') := by
  induction ops generalizing q with
  | nil => exact ⟨[], q, rfl⟩
  | cons op ops ih =>
      obtain ⟨o, q₁, hop⟩ := portOp_total op q
      obtain ⟨outs, q₂, hrun⟩ := ih q₁
      exact ⟨o :: outs, q₂, Runs.run_cons_ok hop hrun⟩

/-- From power-up, with any bytes in its memory, the address port is the 14-bit
counter: every hook returns what the reference machine does, and the memories
stay the same. -/
theorem run_refines_port (memory : Word → Byte) (ops : List PortOp) :
    ∃ outs p q, Runs.run ppuOp ops (powerUp memory) = .ok (outs, p) ∧
      Runs.run portOp ops (Port.powerUp fun i => memory (i.setWidth 16)) = .ok (outs, q) ∧
      ∀ i : BitVec 14, p.memory (i.setWidth 16) = q.memory i := by
  obtain ⟨outs, q, hrun⟩ := run_portOp_total ops (Port.powerUp fun i => memory (i.setWidth 16))
  have hinit : Refines (powerUp memory) (Port.powerUp fun i => memory (i.setWidth 16)) :=
    ⟨rfl, (by decide : 0 < 0x4100), rfl, rfl, rfl, rfl, fun _ => rfl⟩
  obtain ⟨p, hrun', hr⟩ := Runs.run_simulates ppuOp_simulates hinit hrun
  exact ⟨outs, p, q, hrun', hrun, hr.memory⟩

end Bugnes.PpuPort
