import Bugnes.CpuTwoRuns
import Bugnes.HookTables
import Bugnes.PlainRefinement
import Bugnes.Rounds
import Bugnes.StatelessHooks

namespace Bugnes.Sessions

open Words Memhooks HookTables CpuCore Addr OpcodeTable Opcodes Plain PlainRuns PlainRefinement Sfot TwoRuns CpuTwoRuns
  Rounds StatelessHooks

variable {F σ τ : Type}

inductive Setup (F τ : Type)
  | load (fd : Int) (offset len : Word) (reads : List ReadOutcome)
  | loadStream (s : List Byte) (offset len : Word)
  | insert (mhType : MhType) (mhFun : Option F) (mhFunName : Option String) (addrStart addrEnd : Word)
  | exception (ehType : EhType) (ehFun : Option F)
  | setReset (val : Word)
  | installStepCb (cb : Option (StepCb τ))

section Run

variable (hf : HookFuns F σ)

/-- Whether the call came back; `sfot_load` finds garbage in its buffer. -/
def setup (garbage : Int → Byte) : Setup F τ → SfotM F σ τ Bool
  | .load fd offset len reads => do return (← onCpu (sfotLoad hf fd offset len garbage reads)).isSome
  | .loadStream s offset len => do
      discard (onCpu (sfotLoadStream hf s offset len))
      return true
  | .insert mhType mhFun mhFunName addrStart addrEnd => do
      discard (onCpu (memhookInsert mhType mhFun mhFunName addrStart addrEnd))
      return true
  | .exception ehType ehFun => do
      onCpu (sfotExcepthookInsert ehType ehFun)
      return true
  | .setReset val => do
      onCpu (sfotSetReset val)
      return true
  | .installStepCb cb => do
      discard (sfotInstallStepCb cb)
      return true

def setups : (Nat → Int → Byte) → List (Setup F τ) → SfotM F σ τ Bool
  | _, [] => return true
  | garbage, op :: ops => do
      if ← setup hf (garbage 0) op then setups (fun i => garbage (i + 1)) ops else return false

abbrev Snapshot := Word × ShortRegs × (Word → Byte)

def snapshot (m : Machine F σ) : Snapshot := (m.regPc, m.shortRegs, m.mem)

/-- What is seen right after the instruction that follows so many rounds. -/
def watch (cb : Option (StepCb τ)) (n : Nat) (t : τ) : CpuM F σ (Option Snapshot) := do
  let (done, _) ← cpuThread hf cb n t
  if done then return none
  instruction hf
  return some (snapshot (← get))

def watchPoweron (n : Nat) (t : τ) : SfotM F σ τ (Option Snapshot) := do
  if (← get).isPoweredOn then return none
  onCpu (fetchReset hf)
  onCpu (watch hf (← get).stepCb n t)

def session (garbage : Nat → Int → Byte) (ops : List (Setup F τ)) (n : Nat) (t : τ) : SfotM F σ τ (Option Snapshot) := do
  if ← setups hf garbage ops then watchPoweron hf n t else return none

def observed (garbage : Nat → Int → Byte) (ops : List (Setup F τ)) (n : Nat) (t : τ) (s : Emulator F σ τ) :
    Except Fault (Option Snapshot) := ((session hf garbage ops n t).run s).map Prod.fst

def fresh (world : σ) : Emulator F σ τ := ⟨atStartup world, none, false⟩

inductive Reachable : Emulator F σ τ → Prop
  | fresh (world : σ) : Reachable (fresh world)
  | setup {s s' : Emulator F σ τ} (garbage : Int → Byte) (op : Setup F τ) :
      Reachable s → (setup hf garbage op).run s = .ok (true, s') → Reachable s'
  | poweron {s s' : Emulator F σ τ} (rounds : Nat) (t t' : τ) :
      Reachable s → (sfotPoweron hf rounds t).run s = .ok (some t', s') → Reachable s'
  | poweroff {s s' : Emulator F σ τ} : Reachable s → (sfotPoweroff).run s = .ok ((), s') → Reachable s'

inductive Idle : Emulator F σ τ → Prop
  | fresh (world : σ) : Idle (fresh world)
  | poweroff {s s' : Emulator F σ τ} :
      Reachable hf s → s.isPoweredOn → (sfotPoweroff).run s = .ok ((), s') → Idle s'

end Run

section Garbage

variable {hf : HookFuns F σ} {offset len : Word}

def SameRead (offset len : Word) : Option (Int × (Int → Byte)) → Option (Int × (Int → Byte)) → Prop
  | none, none => True
  | some (n, buf), some (n', buf') =>
      n = n' ∧ (0 ≤ n → ∀ i : Nat, i < len.toNat →
        buf ((offset.toNat + i : Nat) : Int) = buf' ((offset.toNat + i : Nat) : Int))
  | _, _ => False

theorem deliver_agree {start : Int} {bytes : List Byte} {buf buf' : Int → Byte} {i : Int}
    (h : i < start → buf i = buf' i) (hi : i < start + bytes.length) :
    deliver start bytes buf i = deliver start bytes buf' i := by
  unfold deliver
  split
  · rfl
  · exact h (by omega)

theorem readLoop_garbage {reads : List ReadOutcome} {bytesRead : Int} {buf buf' : Int → Byte}
    (h : ∀ i : Int, offset.toNat ≤ i → i < offset.toNat + bytesRead → buf i = buf' i) :
    SameRead offset len (readLoop offset len reads bytesRead buf) (readLoop offset len reads bytesRead buf') := by
  induction reads generalizing bytesRead buf buf' with
  | nil => exact trivial
  | cons outcome rest ih =>
      -- the part of the buffer that counts as read is the same in both after the call
      obtain ⟨count, g, g', hg, hg', hagree⟩ : ∃ (count : Int) (g g' : Int → Byte),
          readLoop offset len (outcome :: rest) bytesRead buf =
            (if bytesRead + count < 0 then some (-1, g)
              else if (len.toNat : Int) - (bytesRead + count) ≠ 0 then readLoop offset len rest (bytesRead + count) g
              else some (bytesRead + count, g)) ∧
          readLoop offset len (outcome :: rest) bytesRead buf' =
            (if bytesRead + count < 0 then some (-1, g')
              else if (len.toNat : Int) - (bytesRead + count) ≠ 0 then readLoop offset len rest (bytesRead + count) g'
              else some (bytesRead + count, g')) ∧
          ∀ i : Int, offset.toNat ≤ i → i < offset.toNat + (bytesRead + count) → g i = g' i := by
        cases outcome with
        | none => exact ⟨-1, buf, buf', rfl, rfl, fun i h₁ h₂ => h i h₁ (by omega)⟩
        | some bytes =>
            exact ⟨bytes.length, _, _, rfl, rfl, fun i h₁ h₂ => deliver_agree (h i h₁) (by omega)⟩
      rw [hg, hg']
      split
      · exact ⟨rfl, fun hneg => absurd hneg (by decide)⟩
      · split
        · exact ih hagree
        · exact ⟨rfl, fun _ i hi => hagree _ (by omega) (by omega)⟩

theorem sfotLoad_garbage (fd : Int) (reads : List ReadOutcome) (garbage garbage' : Int → Byte) :
    sfotLoad hf fd offset len garbage reads = sfotLoad hf fd offset len garbage' reads := by
  have h : SameRead offset len (readLoop offset len reads 0 garbage) (readLoop offset len reads 0 garbage') :=
    readLoop_garbage fun i h₁ h₂ => by omega
  unfold sfotLoad
  match hr : readLoop offset len reads 0 garbage, hr' : readLoop offset len reads 0 garbage', h with
  | none, none, _ => rfl
  | some (n, buf), some (n', buf'), ⟨hn, hbuf⟩ =>
      subst hn
      by_cases hneg : n < 0
      · simp only [hneg, if_true]
      · have hwrite : writeAll hf offset len buf = writeAll hf offset len buf' :=
          forM_congr fun i hi => by rw [hbuf (by omega) i (List.mem_range.mp hi)]
        simp only [hwrite]

theorem setups_garbage (ops : List (Setup F τ)) (garbage garbage' : Nat → Int → Byte) :
    setups hf garbage ops = setups hf garbage' ops := by
  induction ops generalizing garbage garbage' with
  | nil => rfl
  | cons op ops ih =>
      have hop : setup hf (garbage 0) op = setup hf (garbage' 0) op := by
        cases op with
        | load fd offset len reads => rw [setup, setup, sfotLoad_garbage fd reads (garbage 0) (garbage' 0)]
        | _ => rfl
      rw [setups, setups, hop, ih (fun i => garbage (i + 1)) fun i => garbage' (i + 1)]

end Garbage

structure SameMemory (hf : HookFuns F σ) (p : PureHooks F) (m n : Machine F σ) : Prop where
  regs : m.shortRegs = n.shortRegs
  mem : m.mem = n.mem
  memhooks : m.allMh = n.allMh
  excepthooks : m.ehFunV = n.ehFunV
  stateless : Stateless hf p m.allMh
  silent : ∀ ty, ∀ f ∈ m.ehFunV ty, ∀ a s, hf.exc f a s = pure ()

/-- The same but for the PC and the pending branch, which `K` relates. -/
structure Same (hf : HookFuns F σ) (p : PureHooks F) (K : Word × Word → Word × Word → Prop) (m n : Machine F σ) : Prop
    extends SameMemory hf p m n where
  control : K (m.regPc, m.regPcBranched) (n.regPc, n.regPcBranched)

section Same

variable {hf : HookFuns F σ} {p : PureHooks F} {K : Word × Word → Word × Word → Prop} {E : Fault → Prop}

theorem SameMemory.stateless' {m n : Machine F σ} (h : SameMemory hf p m n) : Stateless hf p n.allMh :=
  h.memhooks ▸ h.stateless

theorem respects_setMem (a : Word) (v : Byte) : Respects (Same hf p K) E (setMem a v : CpuM F σ Unit) :=
  .of_modify fun _ _ h => { h with mem := by rw [h.mem] }

theorem respects_read (a : Word) : Respects (Same hf p K) E (memRead hf a) := by
  intro m n h
  rw [memRead_stateless h.stateless, memRead_stateless h.stateless', h.memhooks, h.mem]
  exact ⟨rfl, h⟩

theorem respects_write (a : Word) (v : Byte) : Respects (Same hf p K) E (memWrite hf a v) := by
  intro m n h
  rw [memWrite_stateless h.stateless, memWrite_stateless h.stateless']
  exact ⟨rfl, { h with mem := by rw [h.memhooks, h.mem] }⟩

theorem respects_inc (a : Word) (v : Int) : Respects (Same hf p K) E (memInc hf a v) := by
  intro m n h
  rw [memInc_stateless h.stateless, memInc_stateless h.stateless']
  exact ⟨rfl, { h with mem := by rw [h.memhooks, h.mem] }⟩

theorem respects_exc (ty : EhType) (a : Word) (s : String) : Respects (Same hf p K) E (excepthookCheck hf ty a s) := by
  intro m n h
  rw [excepthookCheck_silent (h.silent ty), excepthookCheck_silent (h.excepthooks ▸ h.silent ty)]
  exact ⟨rfl, h⟩

theorem same_stable (hK : ∀ x y, K x y → x = y) (hb : ∀ a b c d v, K (a, b) (c, d) → K (a, v) (c, v)) :
    Stable hf (Same hf p K) E where
  pc _ _ h := congrArg Prod.fst (hK _ _ h.control)
  regs _ _ h := h.regs
  branched _ _ h := congrArg Prod.snd (hK _ _ h.control)
  page _ _ h i := congrFun h.mem _
  regsSet _ _ h _ := { h with regs := rfl }
  branchedSet _ _ h v := { h with control := hb _ _ _ _ v h.control }
  push _ _ h i v := { h with mem := by rw [h.mem] }
  read := respects_read
  write := respects_write
  inc := respects_inc
  exc := respects_exc

theorem eq_stable : Stable hf (Same hf p Eq) E :=
  same_stable (fun _ _ h => h) fun a b c d v h => by rw [(Prod.mk.inj h).1]

theorem eq_pc (m n : Machine F σ) (h : Same hf p Eq m n) (v : Word) :
    Same hf p Eq { m with regPc := v } { n with regPc := v } :=
  { h with control := by rw [(Prod.mk.inj h.control).2] }

theorem watch_respects (hE : ∀ e, E e) (cb : Option (StepCb τ)) (n : Nat) (t : τ) :
    Respects (Same hf p Eq) E (watch hf cb n t) := by
  refine (eq_stable.cpuThread hE eq_pc cb n t).bind fun r => .of_ite (.pure _) ?_
  refine (eq_stable.instruction hE eq_pc).bind fun _ => .get_bind (fun m n h => ?_) fun _ => .pure _
  rw [snapshot, snapshot, (Prod.mk.inj h.control).1, h.regs, h.mem]

end Same

def Allowed (hf : HookFuns F σ) (p : PureHooks F) : Setup F τ → Prop
  | .insert mhType mhFun _ _ _ => ∀ f ∈ mhFun, Acts hf p f mhType
  | .exception _ ehFun => ∀ f ∈ ehFun, ∀ a s, hf.exc f a s = pure ()
  | _ => True

structure SameSetup (hf : HookFuns F σ) (p : PureHooks F) (s t : Emulator F σ τ) : Prop where
  cpu : Same hf p (fun _ _ => True) s.cpu t.cpu
  stepCb : s.stepCb = t.stepCb
  off : s.isPoweredOn = false ∧ t.isPoweredOn = false

section Setups

variable {hf : HookFuns F σ} {p : PureHooks F}

def AnyFault (_ : Fault) : Prop := True

theorem onCpu_respects {α : Type} {x : CpuM F σ α} (h : Respects (Same hf p fun _ _ => True) AnyFault x) :
    Respects (SameSetup hf p) AnyFault (onCpu x : SfotM F σ τ α) := by
  intro s t hst
  rw [onCpu_run, onCpu_run]
  obtain ⟨a, m, n, hm, hn, hR⟩ | ⟨e, hm, hn, he⟩ := (h s.cpu t.cpu hst.cpu).cases
  · rw [hm, hn]
    exact ⟨rfl, { hst with cpu := hR }⟩
  · rw [hm, hn]
    exact ⟨rfl, he⟩

theorem sfotLoadStream_respects (s : List Byte) (offset len : Word) :
    Respects (Same hf p fun _ _ => True) AnyFault (sfotLoadStream hf s offset len) :=
  .of_ite (.throw trivial) (Respects.bind (.forM fun _ _ => respects_write _ _) fun _ => .pure _)

theorem sfotSetReset_respects (val : Word) :
    Respects (Same hf p fun _ _ => True) AnyFault (sfotSetReset val : CpuM F σ Unit) :=
  (respects_setMem _ _).bind fun _ => .of_ite (respects_setMem _ _) (.throw trivial)

theorem memhookInsert_respects {ty : MhType} {f : Option F} (hf' : ∀ g ∈ f, Acts hf p g ty) (name : Option String)
    (s e : Word) : Respects (Same hf p fun _ _ => True) AnyFault (memhookInsert ty f name s e : CpuM F σ Int) := by
  intro m n h
  rw [memhookInsert_run, memhookInsert_run, ← h.memhooks]
  cases hins : Memhooks.insert ty f name s e m.allMh with
  | error e => exact ⟨rfl, trivial⟩
  | ok r => exact ⟨rfl, { h with memhooks := rfl, stateless := insert_forall h.stateless (fun _ => hf') hins }⟩

theorem setup_respects (garbage : Int → Byte) {op : Setup F τ} (hop : Allowed hf p op) :
    Respects (SameSetup hf p) AnyFault (setup hf garbage op) := by
  cases op with
  | load fd offset len reads =>
      exact (onCpu_respects (sfotLoad_respects trivial (fun _ _ _ => respects_write _ _) _ _ _)).bind fun _ => .pure _
  | loadStream s offset len => exact (onCpu_respects (sfotLoadStream_respects _ _ _)).of_discard.bind fun _ => .pure _
  | insert ty f name s e => exact (onCpu_respects (memhookInsert_respects hop _ _ _)).of_discard.bind fun _ => .pure _
  | exception ty f =>
      refine (onCpu_respects (.of_modify fun m n h => ?_)).bind fun _ => .pure _
      refine { h with excepthooks := by rw [h.excepthooks], silent := fun ty' g hg => ?_ }
      cases ty
      cases ty'
      exact hop g (by simpa using hg)
  | setReset val => exact (onCpu_respects (sfotSetReset_respects _)).bind fun _ => .pure _
  | installStepCb cb =>
      refine Respects.bind (.of_discard ?_) fun _ => .pure _
      exact fun s t h => ⟨h.stepCb, { h with stepCb := rfl }⟩

theorem setups_respects (garbage : Nat → Int → Byte) {ops : List (Setup F τ)} (hops : ∀ op ∈ ops, Allowed hf p op) :
    Respects (SameSetup hf p) AnyFault (setups hf garbage ops) := by
  induction ops generalizing garbage with
  | nil => exact .pure _
  | cons op ops ih =>
      refine (setup_respects _ (hops op (.head _))).bind fun b => ?_
      exact .of_ite (ih _ fun op hop => hops op (.tail _ hop)) (.pure _)

end Setups

section Poweron

variable (p : PureHooks F) (m : Machine F σ)

def resetWord : Word := wordOf (seen p m.allMh m.mem cpuAddrReset) (seen p m.allMh m.mem (cpuAddrReset + 1#16))

def inRange (next : Word) : Option Word := if next < cpuAddrReservedStart then some next else none

def steppedOver : Option Word := inRange (m.regPc + lenOf (opcodeAt (seen p m.allMh m.mem m.regPc)).addrMode)

def started : Machine F σ := { m with regPcBranched := resetWord p m }

variable {p m} {hf : HookFuns F σ}

theorem fetchReset_run (h : Stateless hf p m.allMh) : (fetchReset hf).run m = .ok ((), started p m) := by
  simp [fetchReset, memRead16, opcodeFetchStart, memRead_stateless h, started, resetWord]

def firstTarget (p : PureHooks F) (m : Machine F σ) : Word :=
  if resetWord p m ≠ invalidAddress then resetWord p m
  else m.regPc + lenOf (opcodeAt (seen p m.allMh m.mem m.regPc)).addrMode

def firstPc (p : PureHooks F) (m : Machine F σ) : Option Word := inRange (firstTarget p m)

theorem opcodeFetch_started (h : Stateless hf p m.allMh) :
    (opcodeFetch hf).run (started p m) = match firstPc p m with
      | some next => .ok ((), { m with regPc := next, regPcBranched := invalidAddress })
      | none => .error .assertion := by
  have hread : ∀ b, (memRead hf m.regPc).run { m with regPcBranched := b } =
      .ok (seen p m.allMh m.mem m.regPc, { m with regPcBranched := b }) :=
    fun b => memRead_stateless (m := { m with regPcBranched := b }) h _
  have hnext : firstTarget p m = if (started p m).regPcBranched ≠ invalidAddress then (started p m).regPcBranched
      else (started p m).regPc + lenOf (opcodeAt (seen p m.allMh m.mem m.regPc)).addrMode := rfl
  rw [opcodeFetch_of_read hf (m := started p m) (fun _ => hread invalidAddress) hnext, firstPc, inRange]
  by_cases hlt : firstTarget p m < cpuAddrReservedStart
  · simp only [if_pos hlt, started]
  · simp only [if_neg hlt]

theorem firstPc_lt {next : Word} (h : firstPc p m = some next) : next < cpuAddrReservedStart := by
  by_cases hlt : firstTarget p m < cpuAddrReservedStart
  · rw [firstPc, inRange, if_pos hlt] at h
    rwa [Option.some.inj h] at hlt
  · rw [firstPc, inRange, if_neg hlt] at h
    cases h

theorem opcodeExec_total (h : Stateless hf p m.allMh) (hx : ∀ ty, ∀ f ∈ m.ehFunV ty, ∀ a s, hf.exc f a s = pure ()) :
    ∃ m', (opcodeExec hf).run m = .ok ((), m') ∧ m'.regPc = m.regPc := by
  have hstable : Stable hf (Same hf p fun x y => x = y ∧ x.1 = m.regPc) fun _ => False :=
    same_stable (fun _ _ hK => hK.1) fun a b c d v hK => ⟨by rw [(Prod.mk.inj hK.1).1], hK.2⟩
  have hrun := hstable.opcodeExec m m
    { regs := rfl, mem := rfl, memhooks := rfl, excepthooks := rfl, stateless := h, silent := hx, control := ⟨rfl, rfl⟩ }
  obtain ⟨_, m', n', hm, _, hR⟩ | ⟨_, _, _, he⟩ := hrun.cases
  · exact ⟨m', hm, hR.control.2⟩
  · exact he.elim

section Watch

variable {cb : Option (StepCb τ)} {m m' : Machine F σ}

/-- What is watched depends on the machine through its first fetch only. -/
theorem watch_congr (h : (opcodeFetch hf).run m = (opcodeFetch hf).run m') (n : Nat) (t : τ) :
    (watch hf cb n t).run m = (watch hf cb n t).run m' := by
  cases n <;> simp only [watch, cpuThread, cpuStep, instruction, bind_assoc, pure_bind, Bool.false_eq_true, if_false,
    StateT.run_bind, h]

theorem watch_error {e : Fault} (h : (opcodeFetch hf).run m = .error e) (n : Nat) (t : τ) :
    (watch hf cb n t).run m = .error e := by
  cases n <;> simp only [watch, cpuThread, cpuStep, instruction, bind_assoc, pure_bind, Bool.false_eq_true, if_false,
    StateT.run_bind, h, error_bind]

def watchedPc (r : Except Fault (Option Snapshot)) : Option Word := r.toOption.join.map Prod.fst

theorem watch_zero (hs : Stateless hf p m.allMh) (hx : ∀ ty, ∀ f ∈ m.ehFunV ty, ∀ a s, hf.exc f a s = pure ()) (t : τ) :
    watchedPc (((watch hf cb 0 t).run (started p m)).map Prod.fst) = firstPc p m := by
  have hfetch := opcodeFetch_started hs
  cases hpc : firstPc p m with
  | none =>
      rw [hpc] at hfetch
      rw [watch_error hfetch]
      rfl
  | some next =>
      rw [hpc] at hfetch
      obtain ⟨m', hexec, hpc'⟩ :=
        opcodeExec_total (m := { m with regPc := next, regPcBranched := invalidAddress }) hs hx
      simp only [watch, cpuThread, instruction, bind_assoc, pure_bind, Bool.false_eq_true, if_false, StateT.run_bind,
        hfetch, ok_bind, hexec, StateT.run_get, StateT.run_pure, pure_eq_ok, snapshot, hpc']
      rfl

end Watch

def LandsAlike (p : PureHooks F) (m n : Machine F σ) : Prop :=
  resetWord p m ≠ invalidAddress ∨ steppedOver p m = steppedOver p n

theorem resetWord_eq {m n : Machine F σ} (h : SameMemory hf p m n) : resetWord p m = resetWord p n := by
  rw [resetWord, resetWord, h.memhooks, h.mem]

theorem landsAlike_iff {m n : Machine F σ} (h : SameMemory hf p m n) :
    LandsAlike p m n ↔ firstPc p m = firstPc p n := by
  by_cases hw : resetWord p m = invalidAddress
  · have hw' := (resetWord_eq h).symm.trans hw
    simp [LandsAlike, firstPc, firstTarget, steppedOver, hw, hw']
  · simp [LandsAlike, firstPc, firstTarget, ← resetWord_eq h, hw]

def pending (m : Machine F σ) (next : Word) : Machine F σ := { m with regPc := 0, regPcBranched := next }

theorem opcodeFetch_pending {m : Machine F σ} (h : Stateless hf p m.allMh) {next : Word} (hpc : firstPc p m = some next) :
    (opcodeFetch hf).run (started p m) = (opcodeFetch hf).run (pending m next) := by
  have hlt := firstPc_lt hpc
  have hne := ne_invalid_of_lt hlt
  have hfetch := opcodeFetch_of_read hf (m := pending m next) (b := 0#8) (fun hb => absurd hb hne) rfl
  rw [opcodeFetch_started h, hfetch]
  simp only [hpc, pending, hne, ne_eq, not_false_eq_true, if_true, if_pos hlt]

theorem watch_started {m n : Machine F σ} (h : Same hf p (fun _ _ => True) m n) (cb : Option (StepCb τ)) (t : τ) :
    (∀ k, ((watch hf cb k t).run (started p m)).map Prod.fst = ((watch hf cb k t).run (started p n)).map Prod.fst) ↔
      LandsAlike p m n := by
  rw [landsAlike_iff h.toSameMemory]
  constructor
  · intro hall
    have h0 := congrArg watchedPc (hall 0)
    rwa [watch_zero h.stateless h.silent, watch_zero h.stateless' (h.excepthooks ▸ h.silent)] at h0
  · intro hpc k
    cases hpm : firstPc p m with
    | none =>
        have hm := opcodeFetch_started h.stateless
        have hn := opcodeFetch_started h.stateless'
        rw [hpm] at hm
        rw [← hpc, hpm] at hn
        rw [watch_error hm, watch_error hn]
    | some next =>
        have hsame : Same hf p Eq (pending m next) (pending n next) :=
          { h with control := rfl }
        rw [watch_congr (opcodeFetch_pending h.stateless hpm),
          watch_congr (opcodeFetch_pending h.stateless' (hpc ▸ hpm))]
        obtain ⟨r, m', n', hrm, hrn, _⟩ | ⟨e, hrm, hrn, _⟩ :=
          (watch_respects (E := AnyFault) (fun _ => trivial) cb k t _ _ hsame).cases
        · rw [hrm, hrn]
          rfl
        · rw [hrm, hrn]

end Poweron

/-- What `sfot_poweroff` leaves and a fresh process has. -/
structure Cleared (s : Emulator F σ τ) : Prop where
  regs : s.cpu.shortRegs = ⟨0, 0, 0, 0, 0⟩
  mem : s.cpu.mem = fun _ => 0
  memhooks : s.cpu.allMh = fun _ => []
  excepthooks : s.cpu.ehFunV = fun _ => none
  stepCb : s.stepCb = none
  off : s.isPoweredOn = false

section Theorem

variable {hf : HookFuns F σ} {p : PureHooks F} {s s' : Emulator F σ τ}

theorem Idle.cleared (h : Idle hf s) : Cleared s := by
  cases h with
  | fresh world => exact ⟨rfl, rfl, rfl, rfl, rfl, rfl⟩
  | poweroff _ hon hrun =>
      simp [sfotPoweroff, hon, onCpu_run, coreClearAll, sfotExcepthookClear, sfotMemhookClear, Except.map] at hrun
      subst hrun
      exact ⟨rfl, rfl, rfl, rfl, rfl, rfl⟩

theorem Cleared.sameSetup (h : Cleared s) (h' : Cleared s') : SameSetup hf p s s' where
  cpu :=
    { regs := h.regs.trans h'.regs.symm
      mem := h.mem.trans h'.mem.symm
      memhooks := h.memhooks.trans h'.memhooks.symm
      excepthooks := h.excepthooks.trans h'.excepthooks.symm
      stateless := by simp [Stateless, h.memhooks]
      silent := by simp [h.excepthooks]
      control := trivial }
  stepCb := h.stepCb.trans h'.stepCb.symm
  off := ⟨h.off, h'.off⟩

theorem watchPoweron_run (hs : Stateless hf p s.cpu.allMh) (hoff : s.isPoweredOn = false) (n : Nat) (t : τ) :
    ((watchPoweron hf n t).run s).map Prod.fst = ((watch hf s.stepCb n t).run (started p s.cpu)).map Prod.fst := by
  simp only [watchPoweron, StateT.run_bind, StateT.run_get, pure_eq_ok, ok_bind, hoff, Bool.false_eq_true, if_false,
    onCpu_run, fetchReset_run hs, Except.map]
  cases (watch hf s.stepCb n t).run (started p s.cpu) <;> rfl

/-- Two sessions that begin with the same calls look alike at every length
exactly when their first fetch goes to the same place: the reset word is no
0xFFFF, or what was left in the PC leads there in both. -/
theorem sessions_alike {ops : List (Setup F τ)} (hops : ∀ op ∈ ops, Allowed hf p op) (hs : Idle hf s) (hs' : Idle hf s')
    (garbage garbage' : Nat → Int → Byte) (t : τ) :
    (∀ n, observed hf garbage ops n t s = observed hf garbage' ops n t s') ↔
      ∀ u u', (setups hf garbage ops).run s = .ok (true, u) → (setups hf garbage' ops).run s' = .ok (true, u') →
        LandsAlike p u.cpu u'.cpu := by
  rw [setups_garbage ops garbage' garbage]
  simp only [observed, session, setups_garbage ops garbage' garbage, StateT.run_bind]
  obtain ⟨b, u, u', hu, hu', hR⟩ | ⟨e, hu, hu', _⟩ :=
    (setups_respects garbage hops s s' (hs.cleared.sameSetup hs'.cleared)).cases
  · rw [hu, hu']
    simp only [ok_bind, Except.ok.injEq, Prod.mk.injEq]
    cases b with
    | false => simp [Except.map]
    | true =>
      simp only [if_true, watchPoweron_run hR.cpu.stateless hR.off.1, watchPoweron_run hR.cpu.stateless' hR.off.2,
        ← hR.stepCb, watch_started hR.cpu]
      simp
  · rw [hu, hu']
    simp

end Theorem

def stopAtOnce : StepCb Unit := fun _ t => (1, t)

def used : Emulator Empty Unit Unit where
  cpu := { atStartup () with regPc := 0x200 }
  stepCb := none
  isPoweredOn := false

set_option maxRecDepth 20000 in
theorem used_idle : Idle noHooks used := by
  have hreset : Reachable noHooks _ := .setup (fun _ => 0) (.setReset 0x200 : Setup Empty Unit) (.fresh ()) rfl
  have hcb : Reachable noHooks _ := .setup (fun _ => 0) (.installStepCb (some stopAtOnce)) hreset rfl
  have hon : Reachable noHooks _ := .poweron 1 () () hcb rfl
  exact .poweroff hon rfl rfl

def noPureHooks : PureHooks Empty := ⟨fun f => f.elim, fun f => f.elim, fun f => f.elim⟩

def resetTo (val : Word) : List (Setup Empty Unit) := [.setReset val]

theorem sessions_alike_used :
    (∀ n, observed noHooks (fun _ _ => 0) (resetTo 0x300) n () used =
        observed noHooks (fun _ _ => 0) (resetTo 0x300) n () (fresh ())) ↔
      ∀ u u', (setups noHooks (fun _ _ => 0) (resetTo 0x300)).run used = .ok (true, u) →
        (setups noHooks (fun _ _ => 0) (resetTo 0x300)).run (fresh ()) = .ok (true, u') →
          LandsAlike noPureHooks u.cpu u'.cpu :=
  sessions_alike (by simp [resetTo, Allowed]) used_idle (.fresh ()) _ _ ()

theorem sessions_leak : Idle noHooks used ∧
    observed noHooks (fun _ _ => 0) (resetTo 0xFFFF) 0 () used ≠
      observed noHooks (fun _ _ => 0) (resetTo 0xFFFF) 0 () (fresh ()) := by
  refine ⟨used_idle, fun h => ?_⟩
  have hused : watchedPc (observed noHooks (fun _ _ => 0) (resetTo 0xFFFF) 0 () used) = some 0x201 := by decide +kernel
  have hfresh : watchedPc (observed noHooks (fun _ _ => 0) (resetTo 0xFFFF) 0 () (fresh ())) = some 1 := by decide +kernel
  rw [h, hfresh] at hused
  exact absurd hused (by decide)

end Bugnes.Sessions
