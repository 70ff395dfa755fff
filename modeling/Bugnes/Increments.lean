import Bugnes.StatelessHooks

namespace Bugnes.Increments

open Words Memhooks CpuCore Registers Addr OpcodeTable Opcodes PlainRuns StatelessHooks TwoRuns CpuTwoRuns

variable {F σ : Type}

def stepOf : AsmFun → Option Int
  | .inc => some 1
  | .dec => some (-1)
  | _ => none

def readThenWrite (hf : HookFuns F σ) (mode : AddrMode) (d : Int) : CpuM F σ Unit := do
  let e ← addr hf mode
  let r := (← memRead hf e) + BitVec.ofInt 8 d
  memWrite hf e r
  setFlag flagZ (r = 0#8)
  setFlag flagN r.msb

structure SameFlags (x y : Byte) : Prop where
  zero : x = 0#8 ↔ y = 0#8
  negative : x.msb = y.msb

/-- The values that a step takes into or out of zero or across the sign. -/
def crossing (d : Int) : List Byte := if d = 1 then [0x00, 0x7F, 0xFF] else [0x00, 0x01, 0x80]

/-- What the hooks at the translated address `a` have to be like for a step by
`d` to be a read and a write. -/
def Harmless (p : PureHooks F) (t : AllMh F) (mem : Word → Byte) (a : Word) (d : Int) : Prop :=
  match check t .read a with
  | none => SameFlags (stored p t a (mem a + BitVec.ofInt 8 d)) (mem a + BitVec.ofInt 8 d)
  | some f => p.read f a ∉ crossing d ∧
      stored p t a (mem a + BitVec.ofInt 8 d) = stored p t a (p.read f a + BitVec.ofInt 8 d)

theorem sameFlags_step {d : Int} (hd : d.natAbs = 1) (v : Byte) :
    SameFlags v (v + BitVec.ofInt 8 d) ↔ v ∉ crossing d := by
  have hup : ∀ v : Byte, ((v = 0#8 ↔ v + 1#8 = 0#8) ∧ v.msb = (v + 1#8).msb) ↔ v ∉ crossing 1 := by decide +kernel
  have hdown : ∀ v : Byte, ((v = 0#8 ↔ v + 255#8 = 0#8) ∧ v.msb = (v + 255#8).msb) ↔ v ∉ crossing (-1) := by
    decide +kernel
  have hpair : ∀ y, SameFlags v y ↔ (v = 0#8 ↔ y = 0#8) ∧ v.msb = y.msb := fun y =>
    ⟨fun h => ⟨h.zero, h.negative⟩, fun h => ⟨h.1, h.2⟩⟩
  rcases Int.natAbs_eq_iff.mp hd with rfl | rfl
  · exact (hpair _).trans (hup v)
  · exact (hpair _).trans (hdown v)

theorem nz_eq_iff (x y : Byte) (r : ShortRegs) : nz x r = nz y r ↔ SameFlags x y := by
  constructor
  · intro h
    have hz := congrArg (flag flagZ) h
    have hn := congrArg (flag flagN) h
    rw [flagZ_nz, flagZ_nz] at hz
    rw [flagN_nz, flagN_nz] at hn
    exact ⟨decide_eq_decide.mp hz, hn⟩
  · intro h
    rw [nz, nz, h.negative, decide_eq_decide.mpr h.zero]

def stepped (m : Machine F σ) (a : Word) (v : Byte) (flags : Byte) : Machine F σ := { m with
  mem := Function.update m.mem a v
  shortRegs := nz flags m.shortRegs }

theorem stepped_eq_iff {m : Machine F σ} {a : Word} {v w x y : Byte} :
    stepped m a v x = stepped m a w y ↔ v = w ∧ SameFlags x y := by
  constructor
  · intro h
    have hmem := congrFun (congrArg Machine.mem h) a
    simp only [stepped, Function.update_self] at hmem
    exact ⟨hmem, (nz_eq_iff x y m.shortRegs).mp (congrArg Machine.shortRegs h)⟩
  · rintro ⟨rfl, hflags⟩
    rw [stepped, stepped, (nz_eq_iff x y m.shortRegs).mpr hflags]

theorem asm_step (hf : HookFuns F σ) (mode : AddrMode) {f : AsmFun} {d : Int} (h : stepOf f = some d) :
    d.natAbs = 1 ∧ asm hf f mode = addr hf mode >>= fun e => asmIncMem hf e d := by
  cases f with
  | inc | dec =>
      cases h
      exact ⟨rfl, rfl⟩
  | _ => cases h

section Stateless

variable {hf : HookFuns F σ} {p : PureHooks F} {m : Machine F σ} (h : Stateless hf p m.allMh)

include h

theorem asmIncMem_stateless {d : Int} (hd : d.natAbs = 1) (e : Word) :
    (asmIncMem hf e d).run m = .ok ((),
      let a := translated p m.allMh e
      let v := stored p m.allMh a (m.mem a + BitVec.ofInt 8 d)
      stepped m a v (match check m.allMh .read a with
        | none => v
        | some f => p.read f a)) := by
  have hback := memRead_stateless (m := { m with
    mem := Function.update m.mem (translated p m.allMh e)
      (stored p m.allMh (translated p m.allMh e) (m.mem (translated p m.allMh e) + BitVec.ofInt 8 d)) }) h e
  rw [asmIncMem, StateT.run_bind, require_run hd, ok_bind, StateT.run_bind, memInc_stateless h, ok_bind,
    flagsUpdateBasicByMem, StateT.run_bind, hback, ok_bind, flagsUpdateBasicByValue_run]
  cases hc : check m.allMh .read (translated p m.allMh e) <;> simp [stepped, seen, hc]

theorem readThenWrite_stateless {mode : AddrMode} {e : Word} (he : (addr hf mode).run m = .ok (e, m)) (d : Int) :
    (readThenWrite hf mode d).run m = .ok ((),
      let a := translated p m.allMh e
      let r := seen p m.allMh m.mem e + BitVec.ofInt 8 d
      stepped m a (stored p m.allMh a r) r) := by
  rw [readThenWrite, StateT.run_bind, he, ok_bind, StateT.run_bind, memRead_stateless h, ok_bind, StateT.run_bind,
    memWrite_stateless h, ok_bind, StateT.run_bind, setFlag_run, ok_bind, setFlag_run]
  rfl

theorem stepped_harmless_iff {d : Int} (hd : d.natAbs = 1) (e : Word) :
    (asmIncMem hf e d).run m = .ok ((),
        let a := translated p m.allMh e
        let r := seen p m.allMh m.mem e + BitVec.ofInt 8 d
        stepped m a (stored p m.allMh a r) r) ↔
      Harmless p m.allMh m.mem (translated p m.allMh e) d := by
  rw [asmIncMem_stateless h hd, Except.ok.injEq, Prod.mk.injEq, stepped_eq_iff, Harmless, seen]
  cases hc : check m.allMh .read (translated p m.allMh e) with
  | none => simp
  | some f => simp [sameFlags_step hd, and_comm]

/-- An INC or DEC is a read, a write and the flags of the result if and only if
the hooks at its address let it be one. -/
theorem increment_honours_iff {d : Int}
    (hop : stepOf (opcodeAt (seen p m.allMh m.mem m.regPc)).exec = some d) :
    ∃ e, (addr hf (opcodeAt (seen p m.allMh m.mem m.regPc)).addrMode).run m = .ok (e, m) ∧
      ((opcodeExec hf).run m = (readThenWrite hf (opcodeAt (seen p m.allMh m.mem m.regPc)).addrMode d).run m ↔
        Harmless p m.allMh m.mem (translated p m.allMh e) d) := by
  obtain ⟨e, he⟩ := addr_stateless h (opcodeAt (seen p m.allMh m.mem m.regPc)).addrMode
  obtain ⟨hd, hasm⟩ := asm_step hf (opcodeAt (seen p m.allMh m.mem m.regPc)).addrMode hop
  have hexec : (opcodeExec hf).run m = (asmIncMem hf e d).run m := by
    rw [opcodeExec, StateT.run_bind, getPc_run, ok_bind, StateT.run_bind, memRead_stateless h, ok_bind, hasm,
      StateT.run_bind, he, ok_bind]
  refine ⟨e, he, ?_⟩
  rw [hexec, readThenWrite_stateless h he]
  exact stepped_harmless_iff h hd e

end Stateless

def latch : PureHooks Unit := ⟨fun _ _ => 5#8, fun _ _ v => v, fun _ a => a⟩

def latchFuns : HookFuns Unit Unit := latch.funs

/-- About to execute `INC $10`. -/
def latched : Machine Unit Unit where
  regPc := 0x200#16
  shortRegs := ⟨0, 0, 0, 0, 0⟩
  mem a := if a = 0x10#16 then 0x20#8 else bytesAt 0x200#16 [0xE6#8, 0x10#8] a
  regPcBranched := invalidAddress
  allMh := Function.update empty .read [⟨0x10#16, 0x11#16, some (), none⟩]
  ehFunV _ := none
  world := ()

theorem latched_stateless : Stateless latchFuns latch latched.allMh :=
  latch.stateless _

theorem increment_honours_latched :
    ∃ e, (addr latchFuns (opcodeAt (seen latch latched.allMh latched.mem latched.regPc)).addrMode).run latched =
        .ok (e, latched) ∧
      ((opcodeExec latchFuns).run latched = (readThenWrite latchFuns
          (opcodeAt (seen latch latched.allMh latched.mem latched.regPc)).addrMode 1).run latched ↔
        Harmless latch latched.allMh latched.mem (translated latch latched.allMh e) 1) :=
  increment_honours_iff latched_stateless (by decide)

theorem increment_behind_hook : Stateless latchFuns latch latched.allMh ∧
    opcodeAt (seen latch latched.allMh latched.mem latched.regPc) = ⟨"INC", .inc, .zpa⟩ ∧
    (opcodeExec latchFuns).run latched ≠ (readThenWrite latchFuns .zpa 1).run latched := by
  have hexec : ((opcodeExec latchFuns).run latched).map (fun r => r.2.mem 0x10#16) = .ok 0x21#8 := by decide +kernel
  have hread : ((readThenWrite latchFuns .zpa 1).run latched).map (fun r => r.2.mem 0x10#16) = .ok 0x06#8 := by
    decide +kernel
  refine ⟨latched_stateless, by decide, fun h => ?_⟩
  rw [h, hread] at hexec
  exact absurd hexec (by decide)

end Bugnes.Increments
