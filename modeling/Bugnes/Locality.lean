import Bugnes.InstrFrame
import Bugnes.Stepping
import Bugnes.Rounds
import Bugnes.Simplenes

namespace Bugnes.Locality

open Words Memhooks CpuCore Addr OpcodeTable Opcodes Plain PlainRuns PlainRefinement InstrFrame Sfot Stepping

variable {F σ τ : Type}

def fetched (m : Machine F σ) : Machine F σ := { m with regPc := nextPc m, regPcBranched := invalidAddress }

/-- One round without hooks, nothing where the fetch asserts. -/
def cycle (m : Machine F σ) : Option (Machine F σ) :=
  if nextPc m < cpuAddrReservedStart then some (exec (fetched m)) else none

def stackCells (f : AsmFun) (r : ShortRegs) : List Word :=
  match f with
  | .pha | .php => [stackAddr r.sp]
  | .pla | .plp => [stackAddr (r.sp + 1#8)]
  | .jsr => [stackAddr r.sp, stackAddr (r.sp - 1#8)]
  | .rts => [stackAddr (r.sp + 1#8), stackAddr (r.sp + 1#8 + 1#8)]
  | _ => []

/-- The cells that the instruction at the PC looks at or stores to. -/
def cellsOf (m : Machine F σ) : List Word :=
  m.regPc :: touched (currentOp m).exec (currentOp m).addrMode m ++ stackCells (currentOp m).exec m.shortRegs

def core (m : Machine F σ) : Machine Empty Unit := bare m.regPc m.shortRegs m.mem

theorem effect_core (f : AsmFun) (mode : AddrMode) (m : Machine F σ) : effect f mode m = effect f mode (core m) := rfl

theorem touched_core (f : AsmFun) (mode : AddrMode) (m : Machine F σ) : touched f mode m = touched f mode (core m) := rfl

section Congruence

variable {f : AsmFun} {mode : AddrMode} {m m' : Machine F σ} (hpc : m'.regPc = m.regPc)
  (hregs : m'.shortRegs = m.shortRegs)

include hpc

theorem sameOperand (h : ∀ a ∈ addrBytes mode m, m'.mem a = m.mem a) : SameOperand mode m m' := by
  intro i hi hpos
  have hlen := toNat_lenOf_le mode
  rw [hpc]
  obtain rfl | rfl : i = 1 ∨ i = 2 := by omega
  · exact h _ (by simp [addrBytes])
  · exact h _ (by simp [addrBytes])

include hregs

theorem addrOf_same (h : ∀ a ∈ addrBytes mode m, m'.mem a = m.mem a) : addrOf mode m' = addrOf mode m :=
  addrOf_congr (fun _ => hpc) (by rw [hregs]) (by rw [hregs]) (sameOperand hpc h)
    fun a ha => h a (List.mem_append_right _ ha)

theorem addrBytes_same (h : ∀ a ∈ addrBytes mode m, m'.mem a = m.mem a) : addrBytes mode m' = addrBytes mode m := by
  rw [addrBytes, addrBytes, hpc, pointerCells_congr (by rw [hregs]) (sameOperand hpc h)]

theorem operandOf_same (h : ∀ a ∈ addrBytes mode m, m'.mem a = m.mem a)
    (hea : addrOf mode m ≠ invalidAddress → m'.mem (addrOf mode m) = m.mem (addrOf mode m)) :
    operandOf mode m' = operandOf mode m := by
  rw [operandOf, operandOf, addrOf_same hpc hregs h, hregs]
  by_cases hv : addrOf mode m ≠ invalidAddress
  · rw [if_pos hv, if_pos hv, hea hv]
  · rw [if_neg hv, if_neg hv]

theorem pushed_same {a : Word} (h : m'.mem a = m.mem a) :
    ((pushedWord m'.shortRegs (m'.regPc + 2#16)).apply m').mem a =
      ((pushedWord m.shortRegs (m.regPc + 2#16)).apply m).mem a := by
  simp only [pushedWord, Effect.apply, List.foldl_cons, List.foldl_nil, hpc, hregs, Function.update_apply, h]

theorem touched_same (h : ∀ a ∈ touched f mode m, m'.mem a = m.mem a) : touched f mode m' = touched f mode m := by
  cases f with
  | lda | ldx | ldy | sta | stx | sty | inc | dec
  | and | eor | ora | bit | adc | sbc | cmp | cpx | cpy | asl | lsr | rol | ror =>
      have hbytes : ∀ a ∈ addrBytes mode m, m'.mem a = m.mem a := fun a ha => h a (List.mem_append_left _ ha)
      rw [touched, touched, addrBytes_same hpc hregs hbytes, addrOf_same hpc hregs hbytes]
  | jmp | bcc | bcs | beq | bmi | bne | bpl | bvc | bvs => exact addrBytes_same hpc hregs h
  | jsr =>
      refine addrBytes_same (m := (pushedWord m.shortRegs (m.regPc + 2#16)).apply m) hpc ?_ fun a ha => ?_
      · simp only [pushedWord, Effect.apply, hregs]
      · exact pushed_same hpc hregs (h a ha)
  | _ => rfl

/-- An instruction does the same wherever its cells hold the same. -/
theorem effect_same (h : ∀ a ∈ touched f mode m, m'.mem a = m.mem a)
    (hstack : ∀ a ∈ stackCells f m.shortRegs, m'.mem a = m.mem a) : effect f mode m' = effect f mode m := by
  cases f with
  | lda | ldx | ldy | sta | stx | sty | inc | dec =>
      have haddr : addrOf mode m' = addrOf mode m :=
        addrOf_same hpc hregs fun a ha => h a (List.mem_append_left _ ha)
      have hea := h (addrOf mode m) (List.mem_append_right _ (.head _))
      simp only [effect, haddr, hregs, hea]
  | and | eor | ora | bit | adc | sbc | cmp | cpx | cpy =>
      have hoperand : operandOf mode m' = operandOf mode m :=
        operandOf_same hpc hregs (fun a ha => h a (List.mem_append_left _ ha))
          fun hv => h _ (List.mem_append_right _ (by rw [if_pos hv]; exact .head _))
      simp only [effect, hoperand, hregs]
  | asl | lsr | rol | ror =>
      have haddr : addrOf mode m' = addrOf mode m :=
        addrOf_same hpc hregs fun a ha => h a (List.mem_append_left _ ha)
      by_cases hv : addrOf mode m ≠ invalidAddress
      · have hea := h _ (List.mem_append_right _ (by rw [if_pos hv]; exact .head _))
        simp only [effect, shifted, haddr, hregs, hea]
      · simp only [effect, shifted, haddr, hregs, if_neg hv]
  | jmp | bcc | bcs | beq | bmi | bne | bpl | bvc | bvs =>
      simp only [effect, addrOf_same hpc hregs h, hregs]
  | jsr =>
      have haddr : addrOf mode ((pushedWord m'.shortRegs (m'.regPc + 2#16)).apply m') =
          addrOf mode ((pushedWord m.shortRegs (m.regPc + 2#16)).apply m) :=
        addrOf_same (m := (pushedWord m.shortRegs (m.regPc + 2#16)).apply m) hpc
          (by simp only [pushedWord, Effect.apply, hregs]) fun a ha => pushed_same hpc hregs (h a ha)
      simp only [effect, haddr]
      rw [hpc, hregs]
  | brk =>
      have h₁ := h cpuAddrBreak (.head _)
      have h₂ := h (cpuAddrBreak + 1#16) (.tail _ (.head _))
      simp only [effect, wordAt, h₁, h₂, hregs]
  | pla | plp =>
      have h₁ := hstack _ (.head _)
      simp only [effect, hregs, h₁]
  | rts =>
      have h₁ := hstack _ (.head _)
      have h₂ := hstack _ (.tail _ (.head _))
      simp only [effect, hregs, h₁, h₂]
  | tax | tay | txa | tya | tsx | txs | pha | php | inx | iny | dex | dey
  | clc | cld | cli | clv | sec | sed | sei | nop | rti =>
      simp only [effect, hregs]

end Congruence

theorem writes_cells (f : AsmFun) (mode : AddrMode) (m : Machine F σ) :
    ∀ w ∈ (effect f mode m).writes, w.1 ∈ touched f mode m ++ stackCells f m.shortRegs := by
  cases f with
  | asl | lsr | rol | ror =>
      by_cases hv : addrOf mode m = invalidAddress
      · simp [effect, shifted, onRegs, hv]
      · simp [effect, shifted, touched, hv]
  | _ => simp [effect, touched, stackCells, onRegs, pushed, pushedWord, jump]

def roundCells (m : Machine F σ) : List Word :=
  m.regPc :: if nextPc m < cpuAddrReservedStart then cellsOf (fetched m) else []

/-- The machine is in the state of `p` on the cells of `S`, and no hook is on them. -/
structure Hosts (S : Set Word) (p : Machine Empty Unit) (m : Machine F σ) : Prop where
  pc : m.regPc = p.regPc
  regs : m.shortRegs = p.shortRegs
  branched : m.regPcBranched = p.regPcBranched
  mem : ∀ a ∈ S, m.mem a = p.mem a
  free : ∀ a ∈ S, HookFreeAt m.allMh a

def alone (m : Machine F σ) : Machine Empty Unit := { core m with regPcBranched := m.regPcBranched }

theorem hosts_alone {S : Set Word} {m : Machine F σ} (h : ∀ a ∈ S, HookFreeAt m.allMh a) : Hosts S (alone m) m :=
  ⟨rfl, rfl, rfl, fun _ _ => rfl, h⟩

structure Beyond (S : Set Word) (m m' : Machine F σ) : Prop where
  mem : ∀ a ∉ S, m'.mem a = m.mem a
  memhooks : m'.allMh = m.allMh
  excepthooks : m'.ehFunV = m.ehFunV
  world : m'.world = m.world

theorem Beyond.refl (S : Set Word) (m : Machine F σ) : Beyond S m m := ⟨fun _ _ => rfl, rfl, rfl, rfl⟩

theorem Beyond.trans {S : Set Word} {m m' m'' : Machine F σ} (h : Beyond S m m') (h' : Beyond S m' m'') :
    Beyond S m m'' where
  mem a ha := (h'.mem a ha).trans (h.mem a ha)
  memhooks := h'.memhooks.trans h.memhooks
  excepthooks := h'.excepthooks.trans h.excepthooks
  world := h'.world.trans h.world

theorem foldl_update_congr {ws : List (Word × Byte)} {mem mem' : Word → Byte} {a : Word} (h : mem' a = mem a) :
    ws.foldl (fun mem w => Function.update mem w.1 w.2) mem' a =
      ws.foldl (fun mem w => Function.update mem w.1 w.2) mem a := by
  induction ws generalizing mem mem' with
  | nil => exact h
  | cons w ws ih => exact ih (by simp only [Function.update_apply, h])

section Host

variable {S : Set Word} {p : Machine Empty Unit} {m : Machine F σ} (hf : HookFuns F σ)

theorem Hosts.exec (h : Hosts S p m) (hcells : ∀ a ∈ cellsOf p, a ∈ S)
    (hbrk : m.ehFunV .brk = none ∨ (currentOp p).exec ≠ .brk) :
    (opcodeExec hf).run m = .ok ((), exec m) ∧ Hosts S (exec p) (exec m) ∧ Beyond S m (exec m) := by
  have hpc : p.regPc ∈ S := hcells _ (.head _)
  have hop : currentOp m = currentOp p := by rw [currentOp, currentOp, h.pc, h.mem _ hpc]
  have htouched : ∀ a ∈ touched (currentOp p).exec (currentOp p).addrMode p, a ∈ S :=
    fun a ha => hcells a (.tail _ (List.mem_append_left _ ha))
  have hstack : ∀ a ∈ stackCells (currentOp p).exec p.shortRegs, a ∈ S :=
    fun a ha => hcells a (.tail _ (List.mem_append_right _ ha))
  have hpc' : (core m).regPc = p.regPc := h.pc
  have hregs' : (core m).shortRegs = p.shortRegs := h.regs
  have hsame : touched (currentOp p).exec (currentOp p).addrMode m = touched (currentOp p).exec (currentOp p).addrMode p := by
    rw [touched_core]
    exact touched_same hpc' hregs' fun a ha => h.mem a (htouched a ha)
  have heffect : effect (currentOp p).exec (currentOp p).addrMode m = effect (currentOp p).exec (currentOp p).addrMode p := by
    rw [effect_core]
    exact effect_same hpc' hregs' (fun a ha => h.mem a (htouched a ha))
      fun a ha => h.mem a (hstack a ha)
  refine ⟨opcodeExec_run hf (h.pc ▸ h.free _ hpc) ?_ ?_, ⟨h.pc, ?_, ?_, ?_, h.free⟩, ?_, rfl, rfl, rfl⟩
  · rw [hop, hsame]
    exact fun a ha => h.free a (htouched a ha)
  · rw [hop]
    exact fun hf => hbrk.resolve_right fun hne => hne hf
  · rw [Plain.exec, hop, heffect]
    rfl
  · rw [Plain.exec, hop, heffect]
    exact congrArg ((effect (currentOp p).exec (currentOp p).addrMode p).branch.getD ·) h.branched
  · intro a ha
    rw [Plain.exec, hop, heffect]
    exact foldl_update_congr (h.mem a ha)
  · intro a ha
    rw [Plain.exec, hop, heffect]
    refine apply_mem_of_notMem fun w hw he => ha ?_
    rw [← he]
    exact (List.mem_append.mp (writes_cells _ _ p w hw)).elim (htouched _) (hstack _)

/-- A round does on the host what it does on the machine that has nothing else. -/
theorem Hosts.round (h : Hosts S p m) (hcells : ∀ a ∈ roundCells p, a ∈ S)
    (hbrk : m.ehFunV .brk = none ∨ (currentOp (fetched p)).exec ≠ .brk) :
    (∃ p' m', cycle p = some p' ∧ (instruction hf).run m = .ok ((), m') ∧ Hosts S p' m' ∧ Beyond S m m') ∨
      cycle p = none ∧ (instruction hf).run m = .error .assertion := by
  have hpc : p.regPc ∈ S := hcells _ (.head _)
  have hnext : nextPc m = nextPc p := by
    simp only [nextPc, currentOp, h.branched, h.pc, h.mem _ hpc]
  have hfetch := opcodeFetch_run hf (m := m) fun _ => h.pc ▸ h.free _ hpc
  rw [hnext] at hfetch
  by_cases hlt : nextPc p < cpuAddrReservedStart
  · have hcells' : ∀ a ∈ cellsOf (fetched p), a ∈ S := fun a ha => hcells a (.tail _ (by rwa [if_pos hlt]))
    have hfetched : Hosts S (fetched p) { m with regPc := nextPc p, regPcBranched := invalidAddress } :=
      ⟨rfl, h.regs, rfl, h.mem, h.free⟩
    obtain ⟨hexec, hhosts, hbeyond⟩ := hfetched.exec hf hcells' hbrk
    refine .inl ⟨_, _, if_pos hlt, ?_, hhosts, hbeyond.mem, rfl, rfl, rfl⟩
    rw [instruction, StateT.run_bind, hfetch, if_pos hlt, ok_bind, hexec]
  · refine .inr ⟨if_neg hlt, ?_⟩
    rw [instruction, StateT.run_bind, hfetch, if_neg hlt]
    rfl

end Host

/-- The first rounds of `p` stay within `S`. -/
def Within (S : Set Word) (n : Nat) (p : Machine Empty Unit) : Prop :=
  ∀ k < n, ∀ q, iter cycle k p = some q → ∀ a ∈ roundCells q, a ∈ S

def keepsTo (cells : List Word) : Nat → Machine Empty Unit → Bool
  | 0, _ => true
  | n + 1, p => (roundCells p).all (· ∈ cells) && ((cycle p).map (keepsTo cells n)).getD true

theorem within_of_keepsTo {cells : List Word} {n : Nat} {p : Machine Empty Unit} (h : keepsTo cells n p = true) :
    Within {a | a ∈ cells} n p := by
  induction n generalizing p with
  | zero => exact fun k hk => absurd hk (Nat.not_lt_zero k)
  | succ n ih =>
      obtain ⟨hcells, hrest⟩ := Bool.and_eq_true_iff.mp h
      intro k hk q hq
      cases k with
      | zero =>
          cases hq
          exact fun a ha => of_decide_eq_true (List.all_eq_true.mp hcells a ha)
      | succ k =>
          obtain ⟨p₁, hp₁, hq⟩ := Option.bind_eq_some_iff.mp hq
          rw [hp₁] at hrest
          exact ih hrest k (Nat.lt_of_succ_lt_succ hk) q hq

def BreakFree (n : Nat) (p : Machine Empty Unit) : Prop :=
  ∀ k < n, ∀ q, iter cycle k p = some q → (currentOp (fetched q)).exec ≠ .brk

def storing : Machine Empty Unit :=
  { bare 0x8000 ⟨0xFF, 0, 1, 2, 3⟩ (bytesAt 0x8000 [0xA9, 0x05, 0x8D, 0x00, 0x60]) with regPcBranched := 0x8000 }

def storingCells : List Word := [0x8000, 0x8001, 0x8002, 0x8003, 0x8004, 0x6000]

theorem storingCells_free : ∀ a ∈ storingCells, HookFreeAt Simplenes.hookTable a := by
  have hall : ∀ ty, storingCells.all fun a => check Simplenes.hookTable ty a = none := by
    intro ty
    cases ty <;> decide
  exact fun a ha ty => of_decide_eq_true (List.all_eq_true.mp (hall ty) a ha)

theorem storing_within : Within {a | a ∈ storingCells} 2 storing := within_of_keepsTo (by decide)

end Bugnes.Locality
