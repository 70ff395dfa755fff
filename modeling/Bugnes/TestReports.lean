import Bugnes.Loaders
import Bugnes.Locality
import Bugnes.Sessions
import Bugnes.StepReport
import Bugnes.WordWrites

namespace Bugnes.TestReports

open Words Memhooks CpuCore Addr OpcodeTable Opcodes Plain PlainRuns PlainRefinement StatelessHooks StepRecord Sfot Stepping
  TwoMachines Locality Loading Loaders WordWrites Sessions

structure Checks where
  exceptionAddr : Word

inductive Hook
  | exceptionHook
deriving DecidableEq, Repr

def exceptionHook (addr : Word) (_s : String) : StateT Checks (Except Fault) Unit :=
  modify fun w => { w with exceptionAddr := addr }

def hookFuns : HookFuns Hook Checks where
  read _ _ := return 0#8
  write _ _ v := return v
  transl _ addr := return addr
  exc
    | .exceptionHook, addr, s => onWorld (exceptionHook addr s)

def stepHookStopAtBrk : StepCb Unit := fun info _ => (if info.opcodeName.take 3 = "BRK".toList then 1 else 0, ())

def fixtureSetup : SfotM Hook Checks Unit Unit := do
  onCpu (sfotExcepthookInsert .brk (some .exceptionHook))
  discard (sfotInstallStepCb (some stepHookStopAtBrk))
  onCpu (sfotSetReset 0x200#16)

def asmSize (asm : List Byte) : Word := BitVec.ofNat 16 asm.length

/-- A test without memory hooks, up to some round of the loop. -/
def runTest (asm : List Byte) (rounds : Nat) : SfotM Hook Checks Unit (Option Unit) := do
  fixtureSetup
  discard (onCpu (sfotLoadStream hookFuns asm 0x200#16 (asmSize asm)))
  sfotPoweron hookFuns rounds ()

def Reports (asm : List Byte) (a : Word) : Prop :=
  ∃ rounds s, (runTest asm rounds).run (fresh ⟨0#16⟩) = .ok (some (), s) ∧ s.cpu.world.exceptionAddr = a

def loaded (asm : List Byte) : Word → Byte := fun a =>
  if (a - 0x200#16).toNat < (asmSize asm).toNat then asm.getD (a - 0x200#16).toNat 0#8
  else meant (fun _ => 0#8) cpuAddrReset 0x200#16 a

def booted (asm : List Byte) : Machine Empty Unit :=
  { bare 0#16 ⟨0, 0, 0, 0, 0⟩ (loaded asm) with regPcBranched := wordAt (loaded asm) cpuAddrReset }

def OnBrk {F σ : Type} (m : Machine F σ) : Prop := (currentOp m).exec = .brk

instance {F σ : Type} (m : Machine F σ) : Decidable (OnBrk m) := inferInstanceAs (Decidable (_ = _))

/-- A round after which the loop goes on. -/
def testCycle (p : Machine Empty Unit) : Option (Machine Empty Unit) := (cycle p).filter fun q => ¬OnBrk q

/-- The program comes to a BRK at `a` before any other. -/
def ComesTo (a : Word) (p : Machine Empty Unit) : Prop :=
  ∃ k q, iter testCycle k p = some q ∧ nextPc q = a ∧ a < cpuAddrReservedStart ∧ OnBrk (fetched q)

theorem comesTo_iff {a : Word} {p : Machine Empty Unit} :
    ComesTo a p ↔ (nextPc p = a ∧ a < cpuAddrReservedStart ∧ OnBrk (fetched p)) ∨
      ∃ q, testCycle p = some q ∧ ComesTo a q := by
  constructor
  · rintro ⟨k, q, hq, h⟩
    cases k with
    | zero =>
        cases hq
        exact .inl h
    | succ k =>
        obtain ⟨p', hp', hq⟩ := Option.bind_eq_some_iff.mp hq
        exact .inr ⟨p', hp', k, q, hq, h⟩
  · rintro (h | ⟨p', hp', k, q, hq, h⟩)
    · exact ⟨0, p, rfl, h⟩
    · exact ⟨k + 1, q, Option.bind_eq_some_iff.mpr ⟨p', hp', hq⟩, h⟩

section Loop

variable {p : Machine Empty Unit} {m : Machine Hook Checks}

def noMemhooks : PureHooks Hook := ⟨fun _ _ => 0#8, fun _ _ v => v, fun _ addr => addr⟩

structure Ready (p : Machine Empty Unit) (m : Machine Hook Checks) : Prop where
  hosts : Hosts Set.univ p m
  memhooks : m.allMh = empty
  excepthook : m.ehFunV .brk = some .exceptionHook
  world : m.world = ⟨0#16⟩

theorem stops_iff (b : Byte) : (nameField (opcodeAt b)).take 3 = "BRK".toList ↔ (opcodeAt b).exec = .brk :=
  forall_opcode (P := fun op => (nameField op).take 3 = "BRK".toList ↔ op.exec = .brk) (by decide +kernel) b

theorem cpuStep_stops {m' : Machine Hook Checks} (hrun : (instruction hookFuns).run m = .ok ((), m'))
    (hm : m'.allMh = empty) :
    (cpuStep hookFuns (some stepHookStopAtBrk) ()).run m = .ok ((decide (OnBrk m'), ()), m') := by
  have hstateless : Stateless hookFuns noMemhooks m'.allMh := by
    rw [hm]
    exact fun _ _ hmh => absurd hmh List.not_mem_nil
  have hinfo := collectStepInfo_stateless hstateless
  have hop : opcodeOf noMemhooks m' = currentOp m' := by
    rw [opcodeOf, opcodeByte, hm]
    rfl
  have hname := stops_iff (m'.mem m'.regPc)
  have hstop : decide ((stepHookStopAtBrk (recordOf (currentOp m') m'.regPc (parBytes noMemhooks m') m'.shortRegs)
      ()).1 ≠ 0) = decide (OnBrk m') :=
    decide_eq_decide.mpr ((ite_ne_right_iff.trans (and_iff_left Int.one_ne_zero)).trans hname)
  rw [cpuStep, StateT.run_bind, hrun, ok_bind]
  simp only [StateT.run_bind, hinfo, ok_bind, hop, hstop]
  rfl

theorem opcodeExec_brk (hm : m.allMh = empty) (hexc : m.ehFunV .brk = some .exceptionHook)
    (hbrk : OnBrk m) :
    (opcodeExec hookFuns).run m = .ok ((), { exec m with world := ⟨m.regPc⟩ }) := by
  have hfree : ∀ a, HookFreeAt m.allMh a := fun a ty => by rw [hm]; rfl
  have htold : (excepthookCheck hookFuns .brk m.regPc "BRK").run m = .ok ((), { m with world := ⟨m.regPc⟩ }) := by
    simp only [excepthookCheck, StateT.run_bind, StateT.run_get, pure_eq_ok, ok_bind, hexc]
    rfl
  have hvector := memRead16_run hookFuns (m := { m with world := ⟨m.regPc⟩ }) (hfree cpuAddrBreak) (hfree _)
  have hasm : (opcodeAt (m.mem m.regPc)).exec = .brk := hbrk
  have hexec : exec m = (effect .brk (currentOp m).addrMode m).apply m := by rw [exec, currentOp, hasm]
  rw [hexec]
  simp [opcodeExec, memRead_run hookFuns (hfree m.regPc), hasm, asm, asmBRK, asmBreak, htold, hvector, effect, jump,
    Effect.apply]

theorem Ready.instruction (h : Ready p m) :
    (cycle p = none ∧ (instruction hookFuns).run m = .error .assertion) ∨
      ∃ p' m', cycle p = some p' ∧ (instruction hookFuns).run m = .ok ((), m') ∧ Hosts Set.univ p' m' ∧
        m'.allMh = empty ∧ m'.ehFunV .brk = some .exceptionHook ∧
        m'.world = ⟨if OnBrk (fetched p) then nextPc p else 0#16⟩ := by
  by_cases hbrk : OnBrk (fetched p)
  · have hmem : m.mem = p.mem := funext fun a => h.hosts.mem a (Set.mem_univ a)
    have hnext : nextPc m = nextPc p := by simp only [nextPc, currentOp, h.hosts.branched, h.hosts.pc, hmem]
    have hfetch := opcodeFetch_run hookFuns (m := m) fun _ => h.hosts.free _ (Set.mem_univ _)
    rw [hnext] at hfetch
    by_cases hlt : nextPc p < cpuAddrReservedStart
    · have hop : OnBrk { m with regPc := nextPc p, regPcBranched := invalidAddress } := by
        rw [OnBrk, currentOp, hmem]
        exact hbrk
      have hexec := opcodeExec_brk (m := { m with regPc := nextPc p, regPcBranched := invalidAddress }) h.memhooks
        h.excepthook hop
      -- without the hook the round is that of the CPU by itself
      have hquiet : Hosts Set.univ (fetched p)
          { m with regPc := nextPc p, regPcBranched := invalidAddress, ehFunV := fun _ => none } :=
        ⟨rfl, h.hosts.regs, rfl, h.hosts.mem, h.hosts.free⟩
      have hhosts := (hquiet.exec hookFuns (fun a _ => Set.mem_univ a) (.inl rfl)).2.1
      have hrun : (Sfot.instruction hookFuns).run m = .ok ((),
          { exec { m with regPc := nextPc p, regPcBranched := invalidAddress } with world := ⟨nextPc p⟩ }) := by
        rw [Sfot.instruction, StateT.run_bind, hfetch, if_pos hlt, ok_bind]
        exact hexec
      exact .inr ⟨_, _, if_pos hlt, hrun, ⟨hhosts.pc, hhosts.regs, hhosts.branched, hhosts.mem, hhosts.free⟩,
        h.memhooks, h.excepthook, by rw [if_pos hbrk]⟩
    · refine .inl ⟨if_neg hlt, ?_⟩
      rw [Sfot.instruction, StateT.run_bind, hfetch, if_neg hlt]
      rfl
  · obtain ⟨p', m', hcycle, hrun, hhosts, hbeyond⟩ | hfail :=
      h.hosts.round hookFuns (fun a _ => Set.mem_univ a) (.inr hbrk)
    · refine .inr ⟨p', m', hcycle, hrun, hhosts, hbeyond.memhooks.trans h.memhooks, ?_, ?_⟩
      · rw [hbeyond.excepthooks, h.excepthook]
      · rw [hbeyond.world, h.world, if_neg hbrk]
    · exact .inl hfail

theorem testCycle_eq_some {q : Machine Empty Unit} : testCycle p = some q ↔ cycle p = some q ∧ ¬OnBrk q := by
  simp [testCycle, Option.filter_eq_some_iff]

theorem onBrk_exec {q : Machine Empty Unit} (h : OnBrk q) : OnBrk (exec q) := by
  have hexec : (currentOp q).exec = .brk := h
  have hmem : (exec q).mem = q.mem := by
    rw [exec, hexec]
    rfl
  rw [OnBrk, currentOp, hmem]
  exact h

theorem testCycle_onBrk (h : OnBrk (fetched p)) : testCycle p = none := by
  rw [testCycle, cycle]
  split
  · exact if_neg (by simpa using onBrk_exec h)
  · rfl

/-- The loop goes on, or it is left with what the hook has heard. -/
theorem Ready.round (h : Ready p m) :
    (cycle p = none ∧ (cpuStep hookFuns (some stepHookStopAtBrk) ()).run m = .error .assertion) ∨
    (∃ p' m', testCycle p = some p' ∧
      (cpuStep hookFuns (some stepHookStopAtBrk) ()).run m = .ok ((false, ()), m') ∧ Ready p' m') ∨
    (testCycle p = none ∧ nextPc p < cpuAddrReservedStart ∧
      ∃ m', (cpuStep hookFuns (some stepHookStopAtBrk) ()).run m = .ok ((true, ()), m') ∧
        m'.world = ⟨if OnBrk (fetched p) then nextPc p else 0#16⟩) := by
  obtain ⟨hcycle, hrun⟩ | ⟨p', m', hcycle, hrun, hhosts, hmh, hexc, hworld⟩ := h.instruction
  · refine .inl ⟨hcycle, ?_⟩
    rw [cpuStep, StateT.run_bind, hrun]
    rfl
  · have hstep := cpuStep_stops hrun hmh
    have hop : OnBrk m' ↔ OnBrk p' := by
      rw [OnBrk, OnBrk, currentOp, currentOp, hhosts.pc, hhosts.mem _ (Set.mem_univ _)]
    rw [decide_eq_decide.mpr hop] at hstep
    by_cases hbrk : OnBrk p'
    · rw [decide_eq_true hbrk] at hstep
      refine .inr (.inr ⟨?_, ?_, m', hstep, hworld⟩)
      · rw [testCycle, hcycle]
        exact if_neg (by simpa using hbrk)
      · by_contra hlt
        rw [cycle, if_neg hlt] at hcycle
        cases hcycle
    · rw [decide_eq_false hbrk] at hstep
      have htest := testCycle_eq_some.mpr ⟨hcycle, hbrk⟩
      refine .inr (.inl ⟨p', m', htest, hstep, hhosts, hmh, hexc, ?_⟩)
      rw [hworld, if_neg]
      intro hfetched
      rw [testCycle_onBrk hfetched] at htest
      cases htest

/-- The loop comes back with an address exactly when the CPU by itself comes to
a BRK there. -/
theorem thread_reports {a : Word} (ha : a ≠ 0#16) (h : Ready p m) :
    (∃ rounds m', (cpuThread hookFuns (some stepHookStopAtBrk) rounds ()).run m = .ok ((true, ()), m') ∧
      m'.world.exceptionAddr = a) ↔ ComesTo a p := by
  constructor
  · rintro ⟨rounds, m', hrun, hworld⟩
    induction rounds generalizing p m with
    | zero => cases hrun
    | succ rounds ih =>
        rw [cpuThread, StateT.run_bind] at hrun
        rw [comesTo_iff]
        obtain ⟨-, hstep⟩ | ⟨p₁, m₁, hcycle, hstep, hready⟩ | ⟨-, hlt, m₁, hstep, hheard⟩ := h.round
        · rw [hstep] at hrun
          cases hrun
        · rw [hstep] at hrun
          exact .inr ⟨p₁, hcycle, ih hready hrun⟩
        · rw [hstep] at hrun
          cases hrun
          rw [hheard] at hworld
          by_cases hbrk : OnBrk (fetched p)
          · rw [if_pos hbrk] at hworld
            exact .inl ⟨hworld, hworld ▸ hlt, hbrk⟩
          · rw [if_neg hbrk] at hworld
            exact absurd hworld.symm ha
  · rintro ⟨k, q, hq, hcomes⟩
    induction k generalizing p m with
    | zero =>
        cases hq
        obtain ⟨hnext, hlt, hbrk⟩ := hcomes
        obtain ⟨hcycle, -⟩ | ⟨p₁, m₁, hcycle, -⟩ | ⟨-, -, m₁, hstep, hheard⟩ := h.round
        · rw [cycle, if_pos (hnext ▸ hlt)] at hcycle
          cases hcycle
        · rw [testCycle_onBrk hbrk] at hcycle
          cases hcycle
        · refine ⟨1, m₁, ?_, by rw [hheard, if_pos hbrk, hnext]⟩
          rw [cpuThread, StateT.run_bind, hstep]
          rfl
    | succ k ih =>
        obtain ⟨p', hp', hrest⟩ := Option.bind_eq_some_iff.mp hq
        obtain ⟨hcycle, -⟩ | ⟨p₁, m₁, hcycle, hstep, hready⟩ | ⟨hnone, -⟩ := h.round
        · rw [testCycle, hcycle] at hp'
          cases hp'
        · obtain rfl : p' = p₁ := Option.some.inj (hp'.symm.trans hcycle)
          obtain ⟨rounds, m', hrun, hworld⟩ := ih hready hrest
          refine ⟨rounds + 1, m', ?_, hworld⟩
          rw [cpuThread, StateT.run_bind, hstep]
          exact hrun
        · rw [hnone] at hp'
          cases hp'

end Loop

section Poweron

variable (asm : List Byte)

def setUp : Machine Hook Checks :=
  { atStartup ⟨0#16⟩ with
    mem := meant (fun _ => 0#8) cpuAddrReset 0x200#16
    ehFunV := Function.update (fun _ => none) .brk (some .exceptionHook) }

theorem fixtureSetup_run :
    fixtureSetup.run (fresh ⟨0#16⟩) = .ok ((), ⟨setUp, some stepHookStopAtBrk, false⟩) := by
  simp [fixtureSetup, onCpu_run, sfotExcepthookInsert, sfotInstallStepCb, sfotSetReset, discard_eq_bind, fresh,
    memWrite16_run (show cpuAddrReset ≠ 0xFFFF by decide), Except.map]
  rfl

theorem sfotLoadStream_setUp :
    (sfotLoadStream hookFuns asm 0x200#16 (asmSize asm)).run setUp =
      .ok (((asmSize asm).toNat : Int), { setUp with mem := loaded asm }) := by
  have hmem : copied 0x200#16 (asmSize asm).toNat (fileAt asm 0x200#16) setUp.mem = loaded asm := by
    funext a
    rw [copied, loaded, fileAt_add]
    rfl
  have hwrite := writeAll_eq hookFuns (m := setUp) (fun _ _ => rfl) 0x200#16 (asmSize asm) (fileAt asm 0x200#16)
  rw [hmem] at hwrite
  exact sfotLoadStream_run (Nat.mod_le _ _) hwrite

def atLoop : Machine Hook Checks :=
  { setUp with mem := loaded asm, regPcBranched := wordAt (loaded asm) cpuAddrReset }

theorem ready_atLoop : Ready (booted asm) (atLoop asm) :=
  ⟨⟨rfl, rfl, rfl, fun _ _ => rfl, fun _ _ _ => rfl⟩, rfl, rfl, rfl⟩

theorem runTest_run (rounds : Nat) :
    (runTest asm rounds).run (fresh ⟨0#16⟩) =
      ((cpuThread hookFuns (some stepHookStopAtBrk) rounds ()).run (atLoop asm)).map fun r =>
        (if r.1.1 then some () else none, ⟨r.2, some stepHookStopAtBrk, r.1.1⟩) := by
  have hreset : (fetchReset hookFuns).run { setUp with mem := loaded asm } = .ok ((), atLoop asm) := by
    have hvector := memRead16_run hookFuns (m := { setUp with mem := loaded asm }) (a := cpuAddrReset) (fun _ => rfl)
      fun _ => rfl
    rw [fetchReset, StateT.run_bind, hvector]
    rfl
  rw [runTest, StateT.run_bind, fixtureSetup_run, ok_bind]
  simp only [discard_eq_bind, StateT.run_bind, onCpu_run, sfotLoadStream_setUp, sfotPoweron, Except.map, ok_bind,
    StateT.run_pure, StateT.run_get, pure_eq_ok, Bool.false_eq_true, if_false, hreset]
  cases (cpuThread hookFuns (some stepHookStopAtBrk) rounds ()).run (atLoop asm) with
  | error e => rfl
  | ok r =>
      obtain ⟨⟨_ | _, _⟩, m'⟩ := r
      · rfl
      · rfl

theorem reports_iff {a : Word} :
    Reports asm a ↔ ∃ rounds m', (cpuThread hookFuns (some stepHookStopAtBrk) rounds ()).run (atLoop asm) =
      .ok ((true, ()), m') ∧ m'.world.exceptionAddr = a := by
  constructor
  · rintro ⟨rounds, s, hrun, hs⟩
    rw [runTest_run] at hrun
    cases hthread : (cpuThread hookFuns (some stepHookStopAtBrk) rounds ()).run (atLoop asm) with
    | error e =>
        rw [hthread] at hrun
        cases hrun
    | ok r =>
        obtain ⟨⟨_ | _, _⟩, m'⟩ := r
        · rw [hthread] at hrun
          cases hrun
        · rw [hthread] at hrun
          cases hrun
          exact ⟨rounds, m', hthread, hs⟩
  · rintro ⟨rounds, m', hthread, hworld⟩
    exact ⟨rounds, _, by rw [runTest_run, hthread]; rfl, hworld⟩

end Poweron

theorem cpuThread_unique {F σ τ : Type} {hf : HookFuns F σ} {cb : Option (StepCb τ)} {n n' : Nat} {t u u' : τ}
    {m m₁ m₂ : Machine F σ} (h : (cpuThread hf cb n t).run m = .ok ((true, u), m₁))
    (h' : (cpuThread hf cb n' t).run m = .ok ((true, u'), m₂)) : m₁ = m₂ := by
  induction n generalizing n' t m with
  | zero => cases h
  | succ n ih =>
      cases n' with
      | zero => cases h'
      | succ n' =>
          rw [cpuThread, StateT.run_bind] at h h'
          cases hstep : (cpuStep hf cb t).run m with
          | error e =>
              rw [hstep] at h
              cases h
          | ok r =>
              obtain ⟨⟨done, t'⟩, m'⟩ := r
              rw [hstep] at h h'
              cases done with
              | true =>
                  cases h
                  cases h'
                  rfl
              | false => exact ih h h'

theorem Reports.unique {asm : List Byte} {a a' : Word} (h : Reports asm a) (h' : Reports asm a') : a = a' := by
  obtain ⟨_, m₁, hrun, rfl⟩ := (reports_iff asm).mp h
  obtain ⟨_, m₂, hrun', rfl⟩ := (reports_iff asm).mp h'
  rw [cpuThread_unique hrun hrun']

/-- What a test reports is where its program, on the CPU by itself, first comes to a BRK. -/
theorem test_reports (asm : List Byte) {a : Word} (ha : a ≠ 0#16) : Reports asm a ↔ ComesTo a (booted asm) :=
  (reports_iff asm).trans (thread_reports ha (ready_atLoop asm))

def jumping : List Byte := [0xA9, 0x01, 0x4C, 0x00, 0x10]

theorem jumping_comes : ComesTo 0x1000#16 (booted jumping) := by
  have hend : (iter testCycle 2 (booted jumping)).map (fun q => (nextPc q, decide (OnBrk (fetched q)))) =
      some (0x1000#16, true) := by decide +kernel
  obtain ⟨q, hq, hview⟩ := Option.map_eq_some_iff.mp hend
  obtain ⟨hnext, hbrk⟩ := Prod.mk.inj hview
  exact ⟨2, q, hq, hnext, by decide, of_decide_eq_true hbrk⟩

theorem test_reports_jumping : Reports jumping 0x1000#16 := (test_reports jumping (by decide)).mpr jumping_comes

end Bugnes.TestReports
