import Bugnes.Blocks
import Bugnes.PpuPort

namespace Bugnes.PpuRoundTrip

open Words Ppu PpuPort Blocks

def addressBytes (a : BitVec 14) : List Byte := [(a >>> 8).setWidth 8, a.setWidth 8]

def setAddress (a : BitVec 14) : List PortOp := (addressBytes a).map (.addrWrite 0x2006)

/-- Write a block, go back to its address and read it, past the dummy. -/
def roundTrip (a : BitVec 14) (vs : List Byte) : List PortOp :=
  setAddress a ++ vs.map (.dataWrite 0x2007) ++ (setAddress a ++ (.dataRead 0x2007 :: vs.map fun _ => .dataRead 0x2007))

section Port

variable (q : Port)

def next (a : BitVec 14) : BitVec 14 := a + q.inc

theorem setAddress_port {q : Port} (h : q.lower = false) (a : BitVec 14) :
    Runs.run portOp (setAddress a) q = .ok (addressBytes a, { q with a := a, lower := false, dummy := true }) := by
  have ha := a.isLt
  have hhigh : (((a >>> 8).setWidth 8 : Byte).setWidth 6 ++ q.a.setWidth 8 : BitVec 14).toNat =
      a.toNat / 256 * 256 + q.a.toNat % 256 := by
    rw [toNat_append_byte]
    simp only [BitVec.toNat_setWidth, BitVec.toNat_ushiftRight, Nat.shiftRight_eq_div_pow]
    omega
  have hboth : (((((a >>> 8).setWidth 8 : Byte).setWidth 6 ++ q.a.setWidth 8 : BitVec 14).extractLsb' 8 6 ++
      (a.setWidth 8 : Byte) : BitVec 14)) = a := by
    apply BitVec.eq_of_toNat_eq
    rw [toNat_append_byte, BitVec.extractLsb'_toNat, hhigh, Nat.shiftRight_eq_div_pow, BitVec.toNat_setWidth]
    omega
  simp only [setAddress, addressBytes, List.map_cons, List.map_nil, Runs.run, portOp, h, Bool.false_eq_true, if_false,
    Bool.not_false, if_true, Bool.not_true]
  rw [hboth]

theorem writes_port (vs : List Byte) :
    Runs.run portOp (vs.map (.dataWrite 0x2007)) q = .ok (vs.map fun _ => 0#8, { q with
      a := (next q)^[vs.length] q.a, memory := writeBlock (next q) vs q.a q.memory }) := by
  induction vs generalizing q with
  | nil => rfl
  | cons v vs ih =>
      have hstep : portOp (.dataWrite 0x2007 v) q = .ok (0#8, { q with
        a := next q q.a, memory := Function.update q.memory q.a v }) := rfl
      exact Runs.run_cons_ok hstep (ih _)

theorem dummy_port {q : Port} (h : q.dummy = true) :
    portOp (.dataRead 0x2007) q = .ok (0#8, { q with dummy := false }) := if_pos h

theorem reads_port {q : Port} (h : q.dummy = false) (n : Nat) :
    Runs.run portOp (List.replicate n (.dataRead 0x2007)) q =
      .ok (readBlock (next q) q.memory n q.a, { q with a := (next q)^[n] q.a }) := by
  induction n generalizing q with
  | zero => rfl
  | succ n ih =>
      have hstep : portOp (.dataRead 0x2007) q = .ok (q.memory q.a, { q with a := next q q.a }) :=
        if_neg (by simp [h])
      exact Runs.run_cons_ok hstep (ih (q := { q with a := next q q.a }) h)

theorem iterate_next (k : Nat) (a : BitVec 14) : (next q)^[k] a = a + BitVec.ofNat 14 (k * q.inc.toNat) := by
  induction k with
  | zero => simp
  | succ k ih =>
      rw [Function.iterate_succ_apply', ih, next, Nat.succ_mul, BitVec.ofNat_add, BitVec.add_assoc]
      simp

theorem distinct_next {n : Nat} (h : n * q.inc.toNat ≤ 0x4000) (a : BitVec 14) : Distinct (next q) n a := by
  have hpos : 0 < q.inc.toNat := by
    rw [Port.inc]
    split <;> decide
  intro i j hij hj heq
  have hi' : i * q.inc.toNat < j * q.inc.toNat := Nat.mul_lt_mul_of_pos_right hij hpos
  have hj' : j * q.inc.toNat < n * q.inc.toNat := Nat.mul_lt_mul_of_pos_right hj hpos
  have hj'' : j * q.inc.toNat < 2 ^ 14 := lt_of_lt_of_le hj' h
  rw [iterate_next, iterate_next, add_ofNat_inj (hi'.trans hj'') hj''] at heq
  exact absurd heq (Nat.ne_of_lt hi')

theorem roundTrip_port {q : Port} (hlatch : q.lower = false) (a : BitVec 14) (vs : List Byte)
    (hlen : vs.length * q.inc.toNat ≤ 0x4000) :
    ∃ q', Runs.run portOp (roundTrip a vs) q =
        .ok (addressBytes a ++ (vs.map fun _ => 0#8) ++ (addressBytes a ++ (0#8 :: vs)), q') ∧
      ∀ i, (∀ k < vs.length, i ≠ a + BitVec.ofNat 14 (k * q.inc.toNat)) → q'.memory i = q.memory i := by
  let q₁ : Port := { q with a := a, lower := false, dummy := true }
  let q₂ : Port := { q₁ with a := (next q)^[vs.length] a, memory := writeBlock (next q) vs a q.memory }
  let q₃ : Port := { q₂ with a := a }
  have h₁ : Runs.run portOp (setAddress a) q = .ok (addressBytes a, q₁) := setAddress_port hlatch a
  have h₂ : Runs.run portOp (vs.map (.dataWrite 0x2007)) q₁ = .ok (vs.map fun _ => 0#8, q₂) := writes_port q₁ vs
  have h₃ : Runs.run portOp (setAddress a) q₂ = .ok (addressBytes a, q₃) := setAddress_port (q := q₂) rfl a
  have hdummy : portOp (.dataRead 0x2007) q₃ = .ok (0#8, { q₃ with dummy := false }) := dummy_port rfl
  have hblock : readBlock (next q) (writeBlock (next q) vs a q.memory) vs.length a = vs :=
    readBlock_writeBlock (distinct_next q hlen a)
  have h₄ := reads_port (q := { q₃ with dummy := false }) rfl vs.length
  change Runs.run portOp _ _ = .ok (readBlock (next q) (writeBlock (next q) vs a q.memory) vs.length a, _) at h₄
  rw [hblock, ← List.map_const'] at h₄
  have hread := Runs.run_append_ok h₃ (Runs.run_cons_ok hdummy h₄)
  refine ⟨_, Runs.run_append_ok (Runs.run_append_ok h₁ h₂) hread, ?_⟩
  intro i hi
  refine writeBlock_of_ne fun k hk => ?_
  rw [iterate_next]
  exact hi k hk

end Port

def portOf (p : PpuState) : Port where
  a := p.memaddr.setWidth 14
  lower := p.setLower
  dummy := p.memaddrJustSetted
  cr1 := p.ppuRegs .cr1
  cr2 := p.ppuRegs .cr2
  memory i := p.memory (i.setWidth 16)

/-- Of the old address only the low byte outlives the first write. -/
theorem addrWrite_masked {p : PpuState} (h : p.setLower = false) (addr : Word) (v : Byte) :
    ppuOp (.addrWrite addr v) p = ppuOp (.addrWrite addr v) { p with memaddr := p.memaddr &&& 0x3FFF#16 } := by
  have hmask : p.memaddr &&& 0x3FFF#16 &&& 0x00FF#16 = p.memaddr &&& 0x00FF#16 := by
    rw [BitVec.and_assoc]
    rfl
  simp [ppuOp, hookOf, ppuHookMemaddrWrite, h, hmask]

theorem masked_refines (p : PpuState) : Refines { p with memaddr := p.memaddr &&& 0x3FFF#16 } (portOf p) := by
  have hmod : (p.memaddr &&& 0x3FFF#16).toNat = p.memaddr.toNat % 0x4000 := by
    rw [BitVec.toNat_and]
    exact Nat.and_two_pow_sub_one_eq_mod p.memaddr.toNat 14
  refine ⟨?_, ?_, rfl, rfl, rfl, rfl, fun _ => rfl⟩
  · rw [hmod, Nat.mod_mod, portOf, BitVec.toNat_setWidth]
  · rw [hmod]
    omega

def increment (p : PpuState) : Nat := if (p.ppuRegs .cr1).getLsbD 2 then 32 else 1

theorem inc_portOf (p : PpuState) : (portOf p).inc.toNat = increment p := by
  rw [Port.inc, increment, portOf]
  split <;> rfl

/-- From any state that expects the high byte of an address, a block no longer
than a turn through the memory comes back as it was written, and all bytes it
does not cover stay as they were. -/
theorem round_trip {p : PpuState} (hlatch : p.setLower = false) (a : BitVec 14) {vs : List Byte}
    (hlen : vs.length ≤ 0x4000 / increment p) :
    ∃ p', Runs.run ppuOp (roundTrip a vs) p =
        .ok (addressBytes a ++ (vs.map fun _ => 0#8) ++ (addressBytes a ++ (0#8 :: vs)), p') ∧
      ∀ i : BitVec 14, (∀ k < vs.length, i ≠ a + BitVec.ofNat 14 (k * increment p)) →
        p'.memory (i.setWidth 16) = p.memory (i.setWidth 16) := by
  have hpos : 0 < increment p := by
    rw [increment]
    split <;> decide
  obtain ⟨q', hport, hframe⟩ := roundTrip_port (q := portOf p) hlatch a vs
    (by rw [inc_portOf]; exact (Nat.le_div_iff_mul_le hpos).mp hlen)
  obtain ⟨p', hrun, hr⟩ := Runs.run_simulates ppuOp_simulates (masked_refines p) hport
  refine ⟨p', ?_, fun i hi => ?_⟩
  · rw [← hrun]
    exact Runs.run_cons_congr (addrWrite_masked hlatch _ _)
  · rw [hr.memory, hframe i (by rwa [inc_portOf])]
    rfl

theorem round_trip_over :
    ∃ p', Runs.run ppuOp (roundTrip 0x3FFF [1, 2]) (powerUp fun _ => 0) =
        .ok (addressBytes 0x3FFF ++ ([1, 2].map fun _ => 0#8) ++ (addressBytes 0x3FFF ++ [0, 1, 2]), p') ∧
      ∀ i : BitVec 14, (∀ k < 2, i ≠ 0x3FFF + BitVec.ofNat 14 (k * increment (powerUp fun _ => 0))) →
        p'.memory (i.setWidth 16) = 0 :=
  round_trip rfl 0x3FFF (by decide)

end Bugnes.PpuRoundTrip
