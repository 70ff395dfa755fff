import Bugnes.PlainRuns
import Bugnes.Sfot
import Bugnes.TwoMachines

namespace Bugnes.CpuTwoMachines

open Words Memhooks CpuCore Addr OpcodeTable Opcodes PlainRuns Disas Sfot TwoMachines

variable {F G σ ρ τ : Type} {hf : HookFuns F σ} {hg : HookFuns G ρ} {R : Machine F σ → Machine G ρ → Prop}
  {E : Fault → Prop}

/-- A relation of two machines, each with hooks of its own, that ties what an
address is computed from and that reads of memory respect. -/
structure ReadsAlike (hf : HookFuns F σ) (hg : HookFuns G ρ) (R : Machine F σ → Machine G ρ → Prop)
    (E : Fault → Prop) : Prop where
  pc : ∀ m n, R m n → m.regPc = n.regPc
  regs : ∀ m n, R m n → m.shortRegs = n.shortRegs
  read : ∀ a, Matches R E (memRead hf a) (memRead hg a)

/-- One that ties everything the CPU computes with, and that its own updates
and all accesses to memory respect. -/
structure Linked (hf : HookFuns F σ) (hg : HookFuns G ρ) (R : Machine F σ → Machine G ρ → Prop)
    (E : Fault → Prop) : Prop extends ReadsAlike hf hg R E where
  branched : ∀ m n, R m n → m.regPcBranched = n.regPcBranched
  page : ∀ m n, R m n → ∀ i, m.mem (stackAddr i) = n.mem (stackAddr i)
  regsSet : ∀ m n, R m n → ∀ r, R { m with shortRegs := r } { n with shortRegs := r }
  branchedSet : ∀ m n, R m n → ∀ v, R { m with regPcBranched := v } { n with regPcBranched := v }
  push : ∀ m n, R m n → ∀ i v, R { m with mem := Function.update m.mem (stackAddr i) v }
    { n with mem := Function.update n.mem (stackAddr i) v }
  write : ∀ a v, Matches R E (memWrite hf a v) (memWrite hg a v)
  inc : ∀ a v, Matches R E (memInc hf a v) (memInc hg a v)
  exc : ∀ ty a s, Matches R E (excepthookCheck hf ty a s) (excepthookCheck hg ty a s)

theorem matches_require {p : Prop} [Decidable p] (hp : p) : Matches R E (require p) (require p) := by
  intro m n h
  rw [require_run hp, require_run hp]
  exact ⟨rfl, h⟩

theorem matches_require_or (hE : E .assertion) (p : Prop) [Decidable p] : Matches R E (require p) (require p) := by
  by_cases hp : p
  · exact matches_require hp
  · intro m n _
    rw [require_apply, require_apply, if_neg hp, if_neg hp]
    exact ⟨rfl, hE⟩

theorem sfotLoad_matches (hE : E .assertion) {offset len : Word}
    (hw : ∀ i < len.toNat, ∀ v,
      Matches R E (memWrite hf (offset + BitVec.ofNat 16 i) v) (memWrite hg (offset + BitVec.ofNat 16 i) v))
    (fd : Int) (garbage : Int → Byte) (reads : List ReadOutcome) :
    Matches R E (sfotLoad hf fd offset len garbage reads) (sfotLoad hg fd offset len garbage reads) := by
  refine .of_ite (.pure _) (.of_ite (.pure _) ?_)
  cases readLoop offset len reads 0 garbage with
  | none => exact .pure _
  | some r =>
      have hall : Matches R E (writeAll hf offset len r.2) (writeAll hg offset len r.2) :=
        .forM fun i hi => hw i (List.mem_range.mp hi) _
      refine .of_ite (.pure _) (hall.bind fun _ => ?_)
      exact (matches_require_or hE _).bind fun _ => .pure _

namespace ReadsAlike

variable (h : ReadsAlike hf hg R E)

include h

theorem getPc : Matches R E getPc getPc := fun m n hR => ⟨h.pc m n hR, hR⟩

theorem getSreg (reg : ShortReg) : Matches R E (getSreg reg) (getSreg reg) :=
  fun m n hR => ⟨congrArg (ShortRegs.get · reg) (h.regs m n hR), hR⟩

theorem getFlag (f : Byte) : Matches R E (getFlag f) (getFlag f) := (h.getSreg .cpu).bind fun _ => .pure _

theorem read16 (a : Word) : Matches R E (memRead16 hf a) (memRead16 hg a) :=
  (h.read _).bind fun _ => (h.read _).bind fun _ => .pure _

theorem addr (mode : AddrMode) : Matches R E (addr hf mode) (addr hg mode) := by
  refine h.getPc.bind fun pc => (h.read16 _).bind fun a => (h.read _).bind fun z => (h.read _).bind fun r => ?_
  cases mode with
  | imm | zpa | rel | abs | imp | acc | max => exact .pure _
  | zpx | abx => exact (h.getSreg .x).bind fun _ => .pure _
  | zpy | aby => exact (h.getSreg .y).bind fun _ => .pure _
  | ind => exact h.read16 _
  | inx => exact (h.getSreg .x).bind fun _ => h.read16 _
  | iny => exact (h.read16 _).bind fun _ => (h.getSreg .y).bind fun _ => .pure _

theorem value (mode : AddrMode) : Matches R E (value mode) (value mode) := by
  cases mode with
  | acc => exact h.getSreg .acc
  | _ => exact .pure _

theorem addrModeGetValue (mode : AddrMode) : Matches R E (addrModeGetValue hf mode) (addrModeGetValue hg mode) :=
  (h.addr mode).bind fun _ => .of_ite ((h.addr mode).bind fun _ => h.read _) (h.value mode)

theorem opcodeLen : Matches R E (opcodeLen hf) (opcodeLen hg) := by
  refine h.getPc.bind fun pc => (h.read pc).bind fun b => ?_
  cases hmode : (opcodeAt b).addrMode with
  | max => exact absurd hmode (addrMode_ne_max b)
  | _ => exact .pure _

theorem opcodeGetName : Matches R E (opcodeGetName hf) (opcodeGetName hg) :=
  h.getPc.bind fun pc => (h.read pc).bind fun _ => .pure _

theorem opcodeGetAddrMode : Matches R E (opcodeGetAddrMode hf) (opcodeGetAddrMode hg) :=
  h.getPc.bind fun pc => (h.read pc).bind fun _ => .pure _

theorem operandByte (i : Word) : Matches R E (operandByte hf i) (operandByte hg i) :=
  h.opcodeLen.bind fun _ => .of_ite (h.getPc.bind fun _ => h.read _) (.pure _)

theorem opcodeGetParams : Matches R E (opcodeGetParams hf) (opcodeGetParams hg) :=
  (h.operandByte _).bind fun _ => (h.operandByte _).bind fun _ => h.opcodeLen.bind fun _ => .pure _

omit h in
theorem ofExcept {α : Type} {r : Except Fault α} (hE : ∀ e, r = .error e → E e) :
    Matches R E (ofExcept r) (ofExcept r) := by
  cases r with
  | ok a => exact .pure a
  | error e => exact .throw (hE e rfl)

theorem collectStepInfo (hE : E .assertion) : Matches R E (collectStepInfo hf) (collectStepInfo hg) := by
  refine h.opcodeGetName.bind fun name => .get_bind fun m n hR => ?_
  rw [h.regs m n hR]
  refine Matches.bind h.getPc (fun pc => ?_) m n hR
  refine h.opcodeGetAddrMode.bind fun mode => h.opcodeGetParams.bind fun _ => ofExcept fun e he => ?_
  exact disassembleOpcode_fault roomy_cleared (by rw [List.takeD_length]) he ▸ hE

end ReadsAlike

namespace Linked

variable (h : Linked hf hg R E)

include h

theorem setSreg (reg : ShortReg) (v : Byte) : Matches R E (setSreg reg v) (setSreg reg v) := by
  intro m n hR
  rw [setSreg_run, setSreg_run, h.regs m n hR]
  exact ⟨rfl, h.regsSet m n hR _⟩

theorem setFlag (f : Byte) (b : Bool) : Matches R E (setFlag f b) (setFlag f b) :=
  (h.getSreg .cpu).bind fun _ => h.setSreg .cpu _

theorem branchStatus (new : Word) : Matches R E (branchStatus new) (branchStatus new) :=
  fun m n hR => ⟨h.branched m n hR, h.branchedSet m n hR new⟩

theorem stackPush (v : Byte) : Matches R E (stackPush v) (stackPush v) :=
  (h.getSreg .sp).bind fun sp =>
    .bind (fun m n hR => ⟨rfl, h.push m n hR sp v⟩) fun _ => h.setSreg .sp _

theorem stackPush16 (v : Word) : Matches R E (stackPush16 v) (stackPush16 v) :=
  (h.stackPush _).bind fun _ => h.stackPush _

theorem stackPop : Matches R E (stackPop) (stackPop) := by
  intro m n hR
  rw [stackPop_run, stackPop_run, h.regs m n hR, h.page m n hR]
  exact ⟨rfl, h.regsSet m n hR _⟩

theorem stackPop16 : Matches R E (stackPop16) (stackPop16) :=
  h.stackPop.bind fun _ => h.stackPop.bind fun _ => .pure _

theorem flagsUpdateBasicByValue (v : Byte) : Matches R E (flagsUpdateBasicByValue v) (flagsUpdateBasicByValue v) := by
  refine .of_join (h.setFlag _ _) (h.setFlag _ _) fun _ => ?_
  exact .of_ite (h.setFlag _ _) (h.setFlag _ _)

theorem flagsUpdateBasicByRegister (reg : ShortReg) :
    Matches R E (flagsUpdateBasicByRegister reg) (flagsUpdateBasicByRegister reg) := by
  refine .of_ite (.pure _) (.of_ite (.pure _) ?_)
  exact (h.getSreg reg).bind fun _ => h.flagsUpdateBasicByValue _

theorem flagsUpdateBasicByMem (a : Word) : Matches R E (flagsUpdateBasicByMem hf a) (flagsUpdateBasicByMem hg a) :=
  (h.read a).bind fun _ => h.flagsUpdateBasicByValue _

theorem flagsUpdateLogicOverflow (v : Byte) : Matches R E (flagsUpdateLogicOverflow v) (flagsUpdateLogicOverflow v) :=
  .of_ite (h.setFlag _ _) (.pure _)

theorem flagsUpdateArithOverflow (a b : Byte) {factor : Int} (hfactor : factor.natAbs = 1) :
    Matches R E (flagsUpdateArithOverflow a b factor) (flagsUpdateArithOverflow a b factor) :=
  (matches_require hfactor).bind fun _ => .of_ite (h.setFlag _ _) (h.setFlag _ _)

theorem flagsUpdateArithAdcCarry (a b : Byte) :
    Matches R E (flagsUpdateArithAdcCarry a b) (flagsUpdateArithAdcCarry a b) :=
  (h.getFlag _).bind fun _ => .of_ite (h.setFlag _ _) (h.setFlag _ _)

theorem flagsUpdateArithSbcCarry (a b : Byte) :
    Matches R E (flagsUpdateArithSbcCarry a b) (flagsUpdateArithSbcCarry a b) :=
  (h.getFlag _).bind fun _ => .of_ite (h.setFlag _ _) (h.setFlag _ _)

theorem flagsUpdateArithCmpCarry (a b : Byte) :
    Matches R E (flagsUpdateArithCmpCarry a b) (flagsUpdateArithCmpCarry a b) :=
  .of_ite (h.setFlag _ _) (h.setFlag _ _)

theorem flagsUpdateShrotCarry (v : Byte) {direction fill : Int} (hd : direction.natAbs = 1)
    (hfill : fill = 0 ∨ fill = 1) :
    Matches R E (flagsUpdateShrotCarry v direction fill) (flagsUpdateShrotCarry v direction fill) := by
  refine (matches_require hd).bind fun _ => (matches_require hfill).bind fun _ => (h.setFlag _ _).bind fun _ => ?_
  have hlast : ∀ _ : Unit, Matches R E
      (if direction < 0 ∧ v &&& (1#8 <<< 0) ≠ 0#8 then CpuCore.setFlag flagC true else pure ())
      (if direction < 0 ∧ v &&& (1#8 <<< 0) ≠ 0#8 then CpuCore.setFlag flagC true else pure ()) :=
    fun _ => .of_ite (h.setFlag _ _) (.pure _)
  exact .of_ite ((h.setFlag _ _).bind hlast) (hlast ())

theorem asmReg2reg (dest source : ShortReg) : Matches R E (asmReg2reg dest source) (asmReg2reg dest source) :=
  (h.getSreg _).bind fun _ => (h.setSreg _ _).bind fun _ => h.flagsUpdateBasicByRegister _

theorem asmReg2mem (a : Word) (source : ShortReg) : Matches R E (asmReg2mem hf a source) (asmReg2mem hg a source) :=
  (h.getSreg _).bind fun _ => h.write _ _

theorem asmMem2reg (dest : ShortReg) (a : Word) : Matches R E (asmMem2reg hf dest a) (asmMem2reg hg dest a) :=
  (h.read _).bind fun _ => (h.setSreg _ _).bind fun _ => h.flagsUpdateBasicByRegister _

theorem asmReg2stack (source : ShortReg) : Matches R E (asmReg2stack source) (asmReg2stack source) :=
  (h.getSreg _).bind fun _ => h.stackPush _

theorem asmStack2reg (dest : ShortReg) : Matches R E (asmStack2reg dest) (asmStack2reg dest) :=
  h.stackPop.bind fun _ => (h.setSreg _ _).bind fun _ => h.flagsUpdateBasicByRegister _

theorem asmPc2stack : Matches R E asmPc2stack asmPc2stack := h.getPc.bind fun _ => h.stackPush16 _

theorem asmStack2pc : Matches R E asmStack2pc asmStack2pc :=
  h.stackPop16.bind fun _ => .of_discard (h.branchStatus _)

theorem asmMem2pc (a : Word) (condition : Bool) : Matches R E (asmMem2pc a condition) (asmMem2pc a condition) :=
  .of_ite (.of_discard (h.branchStatus _)) (.pure _)

theorem asmIncMem (a : Word) {v : Int} (hv : v.natAbs = 1) : Matches R E (asmIncMem hf a v) (asmIncMem hg a v) :=
  (matches_require hv).bind fun _ => (h.inc a v).bind fun _ => h.flagsUpdateBasicByMem a

theorem asmIncReg (reg : ShortReg) {v : Int} (hv : v.natAbs = 1) :
    Matches R E (asmIncReg reg v) (asmIncReg reg v) :=
  (matches_require hv).bind fun _ => (h.getSreg _).bind fun _ => (h.setSreg _ _).bind fun _ =>
    h.flagsUpdateBasicByRegister _

theorem asmLogicAnd (reg : ShortReg) (v : Byte) : Matches R E (asmLogicAnd reg v) (asmLogicAnd reg v) := by
  refine (h.getSreg _).bind fun _ => (h.flagsUpdateBasicByValue _).bind fun _ => ?_
  exact .of_ite ((h.flagsUpdateLogicOverflow _).bind fun _ => h.setSreg _ _) (h.setSreg _ _)

theorem asmLogicEor (reg : ShortReg) (v : Byte) : Matches R E (asmLogicEor reg v) (asmLogicEor reg v) :=
  (h.getSreg _).bind fun _ => (h.getSreg _).bind fun _ => (h.flagsUpdateBasicByValue _).bind fun _ => h.setSreg _ _

theorem asmLogicOra (reg : ShortReg) (v : Byte) : Matches R E (asmLogicOra reg v) (asmLogicOra reg v) :=
  (h.getSreg _).bind fun _ => (h.getSreg _).bind fun _ => (h.flagsUpdateBasicByValue _).bind fun _ => h.setSreg _ _

theorem asmArithAdd (dest source : ShortReg) (v : Byte) :
    Matches R E (asmArithAdd dest source v) (asmArithAdd dest source v) :=
  (h.getSreg _).bind fun _ => (h.getFlag _).bind fun _ => (h.flagsUpdateBasicByValue _).bind fun _ =>
    (h.getSreg _).bind fun _ => (h.flagsUpdateArithAdcCarry _ _).bind fun _ =>
      (h.getSreg _).bind fun _ => (h.flagsUpdateArithOverflow _ _ (by decide)).bind fun _ => h.setSreg _ _

theorem asmArithSub (dest source : ShortReg) (v : Byte) :
    Matches R E (asmArithSub dest source v) (asmArithSub dest source v) := by
  by_cases hd : dest = .invalid
  · subst hd
    exact (h.getSreg _).bind fun _ => (h.flagsUpdateBasicByValue _).bind fun _ => (h.getSreg _).bind fun _ =>
      (h.flagsUpdateArithCmpCarry _ _).bind fun _ => h.setSreg _ _
  · simp only [Opcodes.asmArithSub, ne_eq, hd, not_false_eq_true, if_true]
    exact (h.getSreg _).bind fun _ => (h.getFlag _).bind fun _ => (h.flagsUpdateBasicByValue _).bind fun _ =>
      (h.getSreg _).bind fun _ => (h.flagsUpdateArithSbcCarry _ _).bind fun _ =>
        (h.getSreg _).bind fun _ => (h.flagsUpdateArithOverflow _ _ (by decide)).bind fun _ => h.setSreg _ _

theorem asmShrot (a : Word) (reg : ShortReg) {direction fill : Int} (hd : direction.natAbs = 1)
    (hfill : fill = 0 ∨ fill = 1) :
    Matches R E (asmShrot hf a reg direction fill) (asmShrot hg a reg direction fill) := by
  refine (matches_require hd).bind fun _ => (matches_require hfill).bind fun _ => ?_
  refine .of_join (h.read _) (h.getSreg _) fun _ => (h.flagsUpdateShrotCarry _ hd hfill).bind fun _ => ?_
  refine .of_ite ?_ ?_
  · exact (h.write _ _).bind fun _ => h.flagsUpdateBasicByMem _
  · exact (h.setSreg _ _).bind fun _ => h.flagsUpdateBasicByRegister _

theorem asmBreak : Matches R E (asmBreak hf) (asmBreak hg) :=
  h.getPc.bind fun _ => (h.exc _ _ _).bind fun _ => (h.read16 _).bind fun _ => .of_discard (h.branchStatus _)

theorem asm (f : AsmFun) (mode : AddrMode) : Matches R E (asm hf f mode) (asm hg f mode) := by
  cases f with
  | lda | ldx | ldy => exact (h.addr mode).bind fun _ => h.asmMem2reg _ _
  | sta | stx | sty => exact (h.addr mode).bind fun _ => h.asmReg2mem _ _
  | tax | tay | txa | tya | tsx | txs => exact h.asmReg2reg _ _
  | pha | php => exact h.asmReg2stack _
  | pla | plp => exact h.asmStack2reg _
  | and | bit => exact (h.addrModeGetValue mode).bind fun _ => h.asmLogicAnd _ _
  | eor => exact (h.addrModeGetValue mode).bind fun _ => h.asmLogicEor _ _
  | ora => exact (h.addrModeGetValue mode).bind fun _ => h.asmLogicOra _ _
  | adc => exact (h.addrModeGetValue mode).bind fun _ => h.asmArithAdd _ _ _
  | sbc | cmp | cpx | cpy => exact (h.addrModeGetValue mode).bind fun _ => h.asmArithSub _ _ _
  | inc | dec => exact (h.addr mode).bind fun _ => h.asmIncMem _ (by decide)
  | inx | iny | dex | dey => exact h.asmIncReg _ (by decide)
  | asl | lsr => exact (h.addr mode).bind fun _ => h.asmShrot _ _ (by decide) (by decide)
  | rol | ror =>
      exact (h.addr mode).bind fun _ => (h.getFlag _).bind fun b =>
        h.asmShrot _ _ (by decide) (by cases b <;> decide)
  | jmp => exact (h.addr mode).bind fun _ => h.asmMem2pc _ _
  | jsr => exact h.asmPc2stack.bind fun _ => (h.addr mode).bind fun _ => h.asmMem2pc _ _
  | rts => exact h.asmStack2pc
  | bcc | bcs | beq | bmi | bne | bpl | bvc | bvs =>
      exact (h.addr mode).bind fun _ => (h.getFlag _).bind fun _ => h.asmMem2pc _ _
  | clc | cld | cli | clv | sec | sed | sei => exact h.setFlag _ _
  | brk => exact h.asmBreak
  | nop | rti => exact .pure _

theorem opcodeExec : Matches R E (opcodeExec hf) (opcodeExec hg) :=
  h.getPc.bind fun pc => (h.read pc).bind fun _ => h.asm _ _

section Loop

variable (hE : E .assertion)
  (hpc : ∀ m n, R m n → ∀ v < cpuAddrReservedStart, R { m with regPc := v } { n with regPc := v })

include hE hpc

theorem opcodeFetch : Matches R E (opcodeFetch hf) (opcodeFetch hg) := by
  have hset : ∀ next, Matches R E (require (next < cpuAddrReservedStart) >>= fun _ => setPc next)
      (require (next < cpuAddrReservedStart) >>= fun _ => setPc next) := by
    intro next
    by_cases hnext : next < cpuAddrReservedStart
    · exact (matches_require hnext).bind fun _ m n hR => ⟨rfl, hpc m n hR next hnext⟩
    · intro m n _
      simp only [StateT.run_bind, require_apply, if_neg hnext]
      exact ⟨rfl, hE⟩
  refine (h.branchStatus _).bind fun branch => .of_ite ((Matches.pure branch).bind hset) ?_
  exact h.getPc.bind fun pc => h.opcodeLen.bind fun len => (Matches.pure (pc + len)).bind hset

theorem instruction : Matches R E (instruction hf) (instruction hg) :=
  (h.opcodeFetch hE hpc).bind fun _ => h.opcodeExec

theorem cpuStep (cb : Option (StepCb τ)) (t : τ) : Matches R E (cpuStep hf cb t) (cpuStep hg cb t) := by
  refine (h.instruction hE hpc).bind fun _ => ?_
  cases cb with
  | none => exact .pure _
  | some cb => exact (h.collectStepInfo hE).bind fun _ => .pure _

theorem cpuThread (cb : Option (StepCb τ)) (n : Nat) (t : τ) :
    Matches R E (cpuThread hf cb n t) (cpuThread hg cb n t) := by
  induction n generalizing t with
  | zero => exact .pure _
  | succ n ih =>
      refine (h.cpuStep hE hpc cb t).bind fun r => ?_
      exact .of_ite (.pure _) (ih _)

end Loop

end Linked

end Bugnes.CpuTwoMachines
