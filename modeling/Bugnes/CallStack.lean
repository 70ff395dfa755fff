import Bugnes.Locality
import Bugnes.Simple6502
import Bugnes.StackRefinement

namespace Bugnes.CallStack

open Words Memhooks CpuCore Addr OpcodeTable Opcodes Registers Plain PlainRuns PlainRefinement InstrFrame Sfot RingStack
  StackRefinement Stepping Locality

variable {F σ τ : Type}

/-- What a program has on its stack: a byte, or the end of a JSR that has not returned. -/
inductive Slot
  | byte (v : Byte)
  | frame (w : Word)
deriving DecidableEq, Repr

def Slot.bytes : Slot → List Byte
  | .byte v => [v]
  | .frame w => [loByte w, hiByte w]

def bytesOf (ss : List Slot) : List Byte := ss.flatMap Slot.bytes

def Spares (q : Machine Empty Unit) (ss : List Slot) : Prop :=
  ∀ w ∈ (effect (currentOp q).exec (currentOp q).addrMode q).writes, ∀ k < (bytesOf ss).length,
    w.1 ≠ stackAddr (q.shortRegs.sp + BitVec.ofNat 8 (k + 1))

instance (q : Machine Empty Unit) (ss : List Slot) : Decidable (Spares q ss) :=
  List.decidableBAll
    (fun w : Word × Byte => ∀ k < (bytesOf ss).length, w.1 ≠ stackAddr (q.shortRegs.sp + BitVec.ofNat 8 (k + 1))) _

def pushSlot (q : Machine Empty Unit) (s : Slot) (ss : List Slot) : Option (Machine Empty Unit × List Slot) :=
  if (bytesOf (s :: ss)).length ≤ 256 then some (exec q, s :: ss) else none

/-- An instruction on a machine whose stack lies apart from the memory, and gives
back what was put on it as it was put. Nothing where a program does not keep to
that: it pops what is not on top, stores into the stack, or has more than a page. -/
def apartExec (q : Machine Empty Unit) (ss : List Slot) : Option (Machine Empty Unit × List Slot) :=
  let r := q.shortRegs
  match (currentOp q).exec with
  | .jsr => pushSlot q (.frame (q.regPc + 2#16)) ss
  | .pha => pushSlot q (.byte r.acc) ss
  | .php => pushSlot q (.byte r.cpu) ss
  | .rts => match ss with
    | .frame w :: ss => some ({ q with shortRegs := { r with sp := r.sp + 1#8 + 1#8 }, regPcBranched := w + 1#16 }, ss)
    | _ => none
  | .pla => match ss with
    | .byte v :: ss => some ({ q with shortRegs := load .acc v { r with sp := r.sp + 1#8 } }, ss)
    | _ => none
  | .plp => match ss with
    | .byte v :: ss => some ({ q with shortRegs := { r with sp := r.sp + 1#8, cpu := v } }, ss)
    | _ => none
  | .txs => none
  | _ => if Spares q ss then some (exec q, ss) else none

def apartCycle (t : Machine Empty Unit × List Slot) : Option (Machine Empty Unit × List Slot) :=
  if nextPc t.1 < cpuAddrReservedStart then apartExec (fetched t.1) t.2 else none

def Stacked (base : Byte) (t : Machine Empty Unit × List Slot) (p : Machine Empty Unit) : Prop :=
  t.1 = p ∧ Holds base (ringOf p) (bytesOf t.2)

section Instruction

variable {base : Byte} {q q' : Machine Empty Unit} {ss ss' : List Slot}

theorem bytesOf_cons (s : Slot) (ss : List Slot) : bytesOf (s :: ss) = s.bytes ++ bytesOf ss := List.flatMap_cons ..

theorem push_byte (h : Holds base (ringOf q) (bytesOf ss)) {v : Byte} (hexec : exec q = (pushed q.shortRegs v).apply q)
    (hroom : (bytesOf (.byte v :: ss)).length ≤ 256) : Holds base (ringOf (exec q)) (bytesOf (.byte v :: ss)) := by
  rw [hexec, ringOf_pushed]
  exact push_holds h hroom v

theorem push_frame (h : Holds base (ringOf q) (bytesOf ss)) (hexec : (currentOp q).exec = .jsr)
    (hroom : (bytesOf (.frame (q.regPc + 2#16) :: ss)).length ≤ 256) :
    Holds base (ringOf (exec q)) (bytesOf (.frame (q.regPc + 2#16) :: ss)) := by
  have hring : ringOf (exec q) = ringOf ((pushedWord q.shortRegs (q.regPc + 2#16)).apply q) := by
    rw [exec, hexec]
    rfl
  rw [bytesOf_cons, Slot.bytes, List.length_append] at hroom
  rw [hring, ringOf_pushedWord]
  exact push_holds (push_holds h (by simp at hroom; omega) _) (by simp at hroom ⊢; omega) _

theorem holds_spared (h : Holds base (ringOf q) (bytesOf ss)) (hspares : Spares q ss)
    (hsp : (exec q).shortRegs.sp = q.shortRegs.sp) : Holds base (ringOf (exec q)) (bytesOf ss) := by
  refine ⟨?_, ?_⟩
  · rw [ringOf, hsp]
    exact h.ptr
  · rw [ringOf, hsp]
    exact above_congr h.above fun k hk => apply_mem_of_notMem fun w hw => hspares w hw k hk

/-- The machine does what the one with the stack apart does. -/
theorem apartExec_exec (h : Holds base (ringOf q) (bytesOf ss)) (hstep : apartExec q ss = some (q', ss')) :
    exec q = q' ∧ Holds base (ringOf q') (bytesOf ss') := by
  have hexec : exec q = (effect (currentOp q).exec (currentOp q).addrMode q).apply q := rfl
  cases hop : (currentOp q).exec with
  | jsr =>
      simp only [apartExec, hop, pushSlot] at hstep
      split at hstep
      · next hroom =>
          cases hstep
          exact ⟨rfl, push_frame h hop hroom⟩
      · cases hstep
  | pha | php =>
      simp only [apartExec, hop, pushSlot] at hstep
      rw [hop] at hexec
      split at hstep
      · next hroom =>
          cases hstep
          exact ⟨rfl, push_byte h hexec hroom⟩
      · cases hstep
  | rts =>
      rw [hop] at hexec
      match ss, h with
      | [], h | .byte v :: ss, h => simp [apartExec, hop] at hstep
      | .frame w :: ss, h =>
          simp only [apartExec, hop] at hstep
          cases hstep
          have hbytes : bytesOf (.frame w :: ss') = loByte w :: hiByte w :: bytesOf ss' := rfl
          obtain ⟨hlow, hholds⟩ := pop_holds (hbytes ▸ h)
          obtain ⟨hhigh, hholds⟩ := pop_holds hholds
          have hword := congrArg₂ wordOf hlow hhigh
          rw [wordOf_bytes] at hword
          refine ⟨?_, hholds⟩
          rw [hexec, ← hword]
          rfl
  | pla | plp =>
      rw [hop] at hexec
      match ss, h with
      | [], h | .frame w :: ss, h => simp [apartExec, hop] at hstep
      | .byte v :: ss, h =>
          simp only [apartExec, hop] at hstep
          cases hstep
          have hbytes : bytesOf (.byte v :: ss') = v :: bytesOf ss' := rfl
          obtain ⟨hv, hholds⟩ := pop_holds (hbytes ▸ h)
          refine ⟨?_, hholds⟩
          rw [hexec, ← hv]
          rfl
  | txs => simp [apartExec, hop] at hstep
  | _ =>
      simp only [apartExec, hop] at hstep
      split at hstep
      · next hspares =>
          cases hstep
          have hsp : (exec q).shortRegs.sp = q.shortRegs.sp := effect_sp _ _ q (by rw [hop]; decide)
          exact ⟨rfl, holds_spared h hspares hsp⟩
      · cases hstep

theorem apartCycle_cycle {t t' : Machine Empty Unit × List Slot} {p : Machine Empty Unit} (h : Stacked base t p)
    (hstep : apartCycle t = some t') : ∃ p', cycle p = some p' ∧ Stacked base t' p' := by
  obtain ⟨rfl, hholds⟩ := h
  rw [apartCycle] at hstep
  by_cases hnext : nextPc t.1 < cpuAddrReservedStart
  · rw [if_pos hnext] at hstep
    obtain ⟨hexec, hholds'⟩ := apartExec_exec (q := fetched t.1) hholds hstep
    exact ⟨_, if_pos hnext, hexec.symm, hexec ▸ hholds'⟩
  · rw [if_neg hnext] at hstep
    cases hstep

end Instruction

def saving : Machine Simple6502.Hook Simple6502.Screen :=
  { atStartup (Simple6502.black (fun _ => 0) fun _ => 0) with
    regPc := 0x600
    shortRegs := ⟨0xFF, 7, 0, 0, 0⟩
    mem := bytesAt 0x600 [0x20, 0x04, 0x06, 0xEA, 0x48, 0xA9, 0x00, 0x68, 0x60]
    regPcBranched := 0x600
    allMh := Simple6502.hookTable }

def savingCells : List Word := [0x600, 0x601, 0x602, 0x604, 0x605, 0x606, 0x607, 0x608, 0x1FD, 0x1FE, 0x1FF]

theorem savingCells_free : ∀ a ∈ savingCells, HookFreeAt Simple6502.hookTable a := by
  have hall : ∀ ty, savingCells.all fun a => check Simple6502.hookTable ty a = none := by
    intro ty
    cases ty <;> decide
  exact fun a ha ty => of_decide_eq_true (List.all_eq_true.mp (hall ty) a ha)

end Bugnes.CallStack
