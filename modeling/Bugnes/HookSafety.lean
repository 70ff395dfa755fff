import Bugnes.CpuTwoRuns

namespace Bugnes.HookSafety

open Words Memhooks CpuCore Opcodes Sfot TwoMachines TwoRuns CpuTwoMachines CpuTwoRuns

variable {F σ τ α β : Type}

/-- What the hooks have no business with. -/
structure Control (F : Type) where
  regPc : Word
  shortRegs : ShortRegs
  regPcBranched : Word
  allMh : AllMh F
  ehFunV : EhType → Option F

def control (m : Machine F σ) : Control F := ⟨m.regPc, m.shortRegs, m.regPcBranched, m.allMh, m.ehFunV⟩

section Behaves

variable {T : AllMh F} {H : EhType → Option F} {E : Fault → Prop}

/-- Under these tables it fails in no way but `E`, and leaves the control part alone. -/
def Behaves (T : AllMh F) (H : EhType → Option F) (E : Fault → Prop) (x : CpuM F σ α) : Prop :=
  ∀ c, c.allMh = T → c.ehFunV = H → Matches (Along (control · = c)) E x x

/-- Every hook behaves wherever the tables make it answer. -/
structure Guarded (hf : HookFuns F σ) (T : AllMh F) (H : EhType → Option F) (E : Fault → Prop) : Prop where
  read : ∀ a f, check T .read a = some f → Behaves T H E (hf.read f a)
  write : ∀ a f v, check T .write a = some f → Behaves T H E (hf.write f a v)
  transl : ∀ a f, check T .transl a = some f → Behaves T H E (hf.transl f a)
  exc : ∀ ty f a s, H ty = some f → Behaves T H E (hf.exc f a s)

/-- The tables are these, and the PC has not come to the vectors. -/
structure Installed (T : AllMh F) (H : EhType → Option F) (m : Machine F σ) : Prop where
  memhooks : m.allMh = T
  excepthooks : m.ehFunV = H
  pc : m.regPc < cpuAddrReservedStart

namespace Behaves

theorem pure (a : α) : Behaves T H E (Pure.pure a : CpuM F σ α) := fun _ _ _ => .pure a

theorem bind {x : CpuM F σ α} {f : α → CpuM F σ β} (hx : Behaves T H E x) (hf : ∀ a, Behaves T H E (f a)) :
    Behaves T H E (x >>= f) := fun c hT hH => (hx c hT hH).bind fun a => hf a c hT hH

theorem throw {e : Fault} (he : E e) : Behaves T H E (MonadExcept.throw e : CpuM F σ α) := fun _ _ _ => .throw he

theorem mapM {xs : List α} {f : α → CpuM F σ β} (h : ∀ a ∈ xs, Behaves T H E (f a)) : Behaves T H E (xs.mapM f) :=
  fun c hT hH => .mapM fun a ha => h a ha c hT hH

theorem get_bind {f : Machine F σ → CpuM F σ α}
    (h : ∀ m, m.allMh = T → m.ehFunV = H → Behaves T H E (f m)) : Behaves T H E (get >>= f) := by
  refine fun c hT hH => .get_bind ?_
  rintro m _ ⟨rfl, hc⟩
  subst hc
  exact h m hT hH (control m) hT hH m m ⟨rfl, rfl⟩

theorem setMem (a : Word) (v : Byte) : Behaves T H E (setMem a v : CpuM F σ Unit) := by
  refine fun c _ _ => .of_modify ?_
  rintro m _ ⟨rfl, hc⟩
  exact ⟨rfl, hc⟩

theorem onWorld {x : StateT σ (Except Fault) α} (h : ∀ w, ∃ r, x.run w = .ok r) :
    Behaves T H E (onWorld x : CpuM F σ α) := by
  rintro c _ _ m _ ⟨rfl, hc⟩
  obtain ⟨r, hr⟩ := h m.world
  rw [onWorld_run, hr]
  exact ⟨rfl, rfl, hc⟩

theorem check {ty : MhType} {a : Word} {x : F → CpuM F σ α} {x' : CpuM F σ α}
    (hsome : ∀ f, check T ty a = some f → Behaves T H E (x f)) (hnone : Behaves T H E x') :
    Behaves T H E (get >>= fun m => match Memhooks.check m.allMh ty a with | some f => x f | none => x') := by
  refine .get_bind fun m hT _ => ?_
  rw [hT]
  cases hc : Memhooks.check T ty a with
  | none => exact hnone
  | some f => exact hsome f hc

theorem installed {x : CpuM F σ α} (h : Behaves T H E x) : Matches (Along (Installed T H)) E x x := by
  rintro m _ ⟨rfl, hm⟩
  obtain ⟨a, m', _, hrun, _, hm'⟩ | ⟨e, hrun, _, he⟩ :=
    (h (control m) hm.memhooks hm.excepthooks m m ⟨rfl, rfl⟩).cases
  · have hcontrol : control m' = control m := hm'.2
    have hpc : m'.regPc = m.regPc := congrArg Control.regPc hcontrol
    have hT : m'.allMh = m.allMh := congrArg Control.allMh hcontrol
    have hH : m'.ehFunV = m.ehFunV := congrArg Control.ehFunV hcontrol
    rw [hrun]
    exact ⟨rfl, rfl, hT.trans hm.memhooks, hH.trans hm.excepthooks, hpc ▸ hm.pc⟩
  · rw [hrun]
    exact ⟨rfl, he⟩

end Behaves

section Access

variable {hf : HookFuns F σ} (h : Guarded hf T H E)

include h

theorem Guarded.translAddr (a : Word) : Behaves T H E (translAddr hf a) := .check (h.transl a) (.pure a)

theorem Guarded.memRead (a : Word) : Behaves T H E (memRead hf a) :=
  (h.translAddr a).bind fun a => .check (h.read a) (.get_bind fun _ _ _ => .pure _)

theorem Guarded.writeTo (a : Word) (v : Byte) : Behaves T H E (writeTo hf a v) := by
  refine .get_bind fun m hT _ => ?_
  rw [hT]
  cases hc : check T .write a with
  | none => exact .setMem a v
  | some f => exact (h.write a f v hc).bind fun stored => .setMem a stored

theorem Guarded.memWrite (a : Word) (v : Byte) : Behaves T H E (memWrite hf a v) := by
  rw [memWrite_eq]
  exact (h.translAddr a).bind fun a => h.writeTo a v

theorem Guarded.memInc (a : Word) (v : Int) : Behaves T H E (memInc hf a v) := by
  rw [memInc_eq]
  exact (h.translAddr a).bind fun a => .get_bind fun _ _ _ => h.writeTo a _

theorem Guarded.excepthookCheck (ty : EhType) (a : Word) (s : String) :
    Behaves T H E (excepthookCheck hf ty a s) := by
  refine .get_bind fun m _ hH => ?_
  rw [hH]
  cases hc : H ty with
  | none => exact .pure ()
  | some f => exact h.exc ty f a s hc

theorem Guarded.linked : Linked hf hf (Along (Installed T H)) E where
  pc _ _ hR := by rw [hR.1]
  regs _ _ hR := by rw [hR.1]
  branched _ _ hR := by rw [hR.1]
  page _ _ hR _ := by rw [hR.1]
  regsSet := by
    rintro m _ ⟨rfl, hm⟩ r
    exact ⟨rfl, { hm with }⟩
  branchedSet := by
    rintro m _ ⟨rfl, hm⟩ b
    exact ⟨rfl, { hm with }⟩
  push := by
    rintro m _ ⟨rfl, hm⟩ i v
    exact ⟨rfl, { hm with }⟩
  read a := (h.memRead a).installed
  write a v := (h.memWrite a v).installed
  inc a v := (h.memInc a v).installed
  exc ty a s := (h.excepthookCheck ty a s).installed

end Access

end Behaves

theorem along_cases {x : CpuM F σ α} {I : Machine F σ → Prop} {E : Fault → Prop} (h : Matches (Along I) E x x)
    {m : Machine F σ} (hm : I m) :
    (∃ a m', x.run m = .ok (a, m') ∧ I m') ∨ ∃ e, x.run m = .error e ∧ E e := by
  obtain ⟨a, m', _, hrun, _, hR⟩ | ⟨e, hrun, _, he⟩ := (h m m ⟨rfl, hm⟩).cases
  · exact .inl ⟨a, m', hrun, hR.2⟩
  · exact .inr ⟨e, hrun, he⟩

section Run

variable {hf : HookFuns F σ} {T : AllMh F} {H : EhType → Option F} {E : Fault → Prop} {m : Machine F σ}

def quiet (hf : HookFuns F σ) : HookFuns F σ := { hf with exc := fun _ _ _ => return () }

theorem asm_quiet (hf : HookFuns F σ) {f : OpcodeTable.AsmFun} (h : f ≠ .brk) (mode : Addr.AddrMode) :
    asm (quiet hf) f mode = asm hf f mode := by
  cases f <;> first | rfl | exact absurd rfl h

variable (h : Guarded hf T H E)

include h

/-- One instruction fails only as a hook does. -/
theorem Guarded.opcodeExec (hm : Installed T H m) :
    (∃ m', (opcodeExec hf).run m = .ok ((), m') ∧ Installed T H m') ∨ ∃ e, (opcodeExec hf).run m = .error e ∧ E e := by
  obtain ⟨_, m', hrun, hm'⟩ | he := along_cases h.linked.opcodeExec hm
  · exact .inl ⟨m', hrun, hm'⟩
  · exact .inr he

omit h in
theorem installed_setPc {m n : Machine F σ} (hR : Along (Installed T H) m n) {v : Word} (hv : v < cpuAddrReservedStart) :
    Along (Installed T H) { m with regPc := v } { n with regPc := v } := by
  obtain ⟨rfl, hm⟩ := hR
  exact ⟨rfl, { hm with pc := hv }⟩

theorem Guarded.opcodeFetch (hE : E .assertion) {m' : Machine F σ} (hm : Installed T H m)
    (hfetch : (opcodeFetch hf).run m = .ok ((), m')) : Installed T H m' := by
  have hmatches := h.linked.opcodeFetch hE fun _ _ hR _ hv => installed_setPc hR hv
  obtain ⟨_, m₁, hrun, hm₁⟩ | ⟨_, hrun, -⟩ := along_cases hmatches hm
  · rw [hrun] at hfetch
    cases hfetch
    exact hm₁
  · rw [hrun] at hfetch
    cases hfetch

theorem Guarded.fromReset {τ : Type} (hE : E .assertion) (cb : Option (StepCb τ)) (n : Nat) (t : τ) :
    Matches (Along (Installed T H)) E (do
      fetchReset hf
      discard (cpuThread hf cb n t)
      return true) (do
      fetchReset hf
      discard (cpuThread hf cb n t)
      return true) := by
  have hreset : Matches (Along (Installed T H)) E (fetchReset hf) (fetchReset hf) :=
    (h.linked.read16 _).bind fun _ => .of_discard (h.linked.branchStatus _)
  have hthread := h.linked.cpuThread hE (fun _ _ hR _ hv => installed_setPc hR hv) cb n t
  exact hreset.bind fun _ => (Matches.of_discard hthread).bind fun _ => .pure _

end Run

theorem guarded_empty (hf : HookFuns F σ) (E : Fault → Prop) : Guarded hf empty (fun _ => none) E where
  read _ _ hc := nomatch hc
  write _ _ _ hc := nomatch hc
  transl _ _ hc := nomatch hc
  exc _ _ _ _ hc := nomatch hc

end Bugnes.HookSafety
