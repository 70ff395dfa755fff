import Bugnes.CarryChain
import Bugnes.InstrFrame

namespace Bugnes.MultiByte

open Words CpuCore Addr OpcodeTable Opcodes Registers Plain PlainRuns PlainRefinement InstrFrame CarryChain

variable {F σ : Type}

structure Digit where
  a : Word
  b : Word
  r : Word

def cellsOf (ds : List Digit) : List Word := ds.flatMap fun d => [d.a, d.b, d.r]

def valueAt (f : Digit → Word) (ds : List Digit) (m : Machine F σ) : Nat :=
  Nat.ofDigits 256 (ds.map fun d => (m.mem (f d)).toNat)

/-- The result cells differ and are not operands that are still to be read. -/
structure Apart (ds : List Digit) : Prop where
  results : (ds.map Digit.r).Nodup
  operands : ds.Pairwise fun d e => d.r ≠ e.a ∧ d.r ≠ e.b

structure At (f : AsmFun) (ea : Word) (m : Machine F σ) : Prop where
  op : (currentOp m).exec = f
  addr : addrOf (currentOp m).addrMode m = ea
  opcode : HookFreeAt m.allMh m.regPc
  operand : ∀ a ∈ addrBytes (currentOp m).addrMode m, HookFreeAt m.allMh a
  cell : HookFreeAt m.allMh ea

structure Glue (cells : List Word) (m m' : Machine F σ) : Prop where
  acc : m'.shortRegs.acc = m.shortRegs.acc
  carry : flag flagC m'.shortRegs = flag flagC m.shortRegs
  cells : ∀ a ∈ cells, m'.mem a = m.mem a

def Does (hf : HookFuns F σ) (cells : List Word) (f : AsmFun) (ea : Word) (m m' : Machine F σ) : Prop :=
  ∃ m₁, Glue cells m m₁ ∧ At f ea m₁ ∧ (opcodeExec hf).run m₁ = .ok ((), m')

inductive Chain (hf : HookFuns F σ) (op : AsmFun) (cells : List Word) : List Digit → Machine F σ → Machine F σ → Prop
  | nil (m : Machine F σ) : Chain hf op cells [] m m
  | cons {d : Digit} {ds : List Digit} {m m₁ m₂ m₃ m' : Machine F σ} :
      Does hf cells .lda d.a m m₁ → Does hf cells op d.b m₁ m₂ → Does hf cells .sta d.r m₂ m₃ →
      Chain hf op cells ds m₃ m' → Chain hf op cells (d :: ds) m m'

structure Site where
  load : Word
  op : Word
  store : Word

def Site.pcs (s : Site) : List Word := [s.load, s.op, s.store]

def stepAt (hf : HookFuns F σ) : Runs.Machine Word Unit (Machine F σ) Fault := fun q m =>
  (do setPc q; opcodeExec hf : CpuM F σ Unit).run m

def codeCells (m : Machine F σ) : List Word :=
  instrCells (currentOp m).addrMode m.regPc ++ pointerCells (currentOp m).addrMode m

def programCells (m : Machine F σ) (sites : List Site) : List Word :=
  (sites.flatMap Site.pcs).flatMap fun q => codeCells { m with regPc := q }

def CodeOf (op : AsmFun) (m : Machine F σ) (s : Site) (d : Digit) : Prop :=
  At .lda d.a { m with regPc := s.load } ∧ At op d.b { m with regPc := s.op } ∧ At .sta d.r { m with regPc := s.store }

/-- The instructions of a chain are in memory, and no result is stored over them. -/
structure Laid (op : AsmFun) (m : Machine F σ) (sites : List Site) (ds : List Digit) : Prop where
  code : List.Forall₂ (CodeOf op m) sites ds
  clear : ∀ d ∈ ds, d.r ∉ programCells m sites

def memoryOps : List AsmFun := [.lda, .adc, .sbc, .sta, .asl, .lsr, .rol, .ror]

theorem mem_touched {f : AsmFun} {mode : AddrMode} {m : Machine F σ} {a : Word} (hop : f ∈ memoryOps)
    (ha : a ∈ touched f mode m) : a ∈ addrBytes mode m ∨ a = addrOf mode m := by
  have hsome : a ∈ addrBytes mode m ++ [addrOf mode m] := by
    cases f with
    | lda | sta => exact ha
    | adc | sbc | asl | lsr | rol | ror =>
        rcases List.mem_append.mp ha with ha | ha
        · exact List.mem_append_left _ ha
        · split_ifs at ha
          · exact List.mem_append_right _ ha
          · cases ha
    | _ => exact absurd hop (by decide)
  rcases List.mem_append.mp hsome with ha | ha
  · exact .inl ha
  · exact .inr (List.mem_singleton.mp ha)

theorem mem_writeCells {f : AsmFun} {mode : AddrMode} {m : Machine F σ} {a : Word} (hop : f ∈ memoryOps)
    (ha : a ∈ writeCells f mode m) : f ∉ [.lda, .adc, .sbc] ∧ a = addrOf mode m := by
  cases f with
  | lda | adc | sbc => cases ha
  | sta => exact ⟨by decide, List.mem_singleton.mp ha⟩
  | asl | lsr | rol | ror =>
      rw [writeCells] at ha
      split_ifs at ha
      · cases ha
      · exact ⟨by decide, List.mem_singleton.mp ha⟩
  | _ => exact absurd hop (by decide)

theorem At.run (hf : HookFuns F σ) {f : AsmFun} {ea : Word} {m : Machine F σ} (h : At f ea m)
    (hop : f ∈ memoryOps) : (opcodeExec hf).run m = .ok ((), exec m) := by
  refine opcodeExec_run hf h.opcode ?_ ?_
  · intro a ha
    rw [h.op] at ha
    rcases mem_touched hop ha with ha | ha
    · exact h.operand a ha
    · rw [ha, h.addr]
      exact h.cell
  · rintro hbrk
    rw [h.op.symm.trans hbrk] at hop
    exact absurd hop (by decide)

theorem Does.eq {hf : HookFuns F σ} {cells : List Word} {f : AsmFun} {ea : Word} {m m' : Machine F σ}
    (h : Does hf cells f ea m m') (hop : f ∈ memoryOps) :
    ∃ m₁, Glue cells m m₁ ∧ At f ea m₁ ∧ m' = (effect f (currentOp m₁).addrMode m₁).apply m₁ := by
  obtain ⟨m₁, hglue, hat, hrun⟩ := h
  rw [hat.run hf hop] at hrun
  cases hrun
  exact ⟨m₁, hglue, hat, by rw [exec, hat.op]⟩

theorem Does.lda {hf : HookFuns F σ} {cells : List Word} {ea : Word} {m m' : Machine F σ}
    (h : Does hf cells .lda ea m m') (hea : ea ∈ cells) :
    m'.shortRegs.acc = m.mem ea ∧ flag flagC m'.shortRegs = flag flagC m.shortRegs ∧
      ∀ a ∈ cells, m'.mem a = m.mem a := by
  obtain ⟨m₁, hglue, hat, rfl⟩ := h.eq (by decide)
  refine ⟨?_, ?_, hglue.cells⟩
  · rw [← hglue.cells ea hea, ← hat.addr]
    rfl
  · rw [← hglue.carry]
    exact flagC_nz _ _

theorem Does.sta {hf : HookFuns F σ} {cells : List Word} {ea : Word} {m m' : Machine F σ}
    (h : Does hf cells .sta ea m m') :
    m'.mem ea = m.shortRegs.acc ∧ flag flagC m'.shortRegs = flag flagC m.shortRegs ∧
      ∀ a ∈ cells, a ≠ ea → m'.mem a = m.mem a := by
  obtain ⟨m₁, hglue, hat, rfl⟩ := h.eq (by decide)
  rw [← hat.addr, ← hglue.acc]
  refine ⟨Function.update_self _ _ _, hglue.carry, fun a ha hne => ?_⟩
  exact (Function.update_of_ne hne _ _).trans (hglue.cells a ha)

/-- ADC and SBC, as operations on the registers and the operand that is read. -/
structure Arith (op : AsmFun) (g : Byte → ShortRegs → ShortRegs) : Prop where
  mem : op ∈ [.adc, .sbc]
  eq : ∀ {F σ : Type} (mode : AddrMode) (m : Machine F σ), effect op mode m = onRegs (g (operandOf mode m) m.shortRegs)

theorem arith_memory {op : AsmFun} (h : op ∈ [.adc, .sbc]) : op ∈ memoryOps := by
  have hall : ∀ op ∈ [AsmFun.adc, .sbc], op ∈ memoryOps := by decide
  exact hall op h

theorem arith_adc : Arith .adc adc := ⟨by decide, fun _ _ => rfl⟩

theorem arith_sbc : Arith .sbc sbc := ⟨by decide, fun _ _ => rfl⟩

theorem Does.arith {hf : HookFuns F σ} {cells : List Word} {op : AsmFun} {g : Byte → ShortRegs → ShortRegs}
    {ea : Word} {m m' : Machine F σ} (h : Does hf cells op ea m m') (hg : Arith op g) :
    (∀ a ∈ cells, m'.mem a = m.mem a) ∧ (ea ∈ cells → ea ≠ invalidAddress →
      ∃ r, r.acc = m.shortRegs.acc ∧ flag flagC r = flag flagC m.shortRegs ∧ m'.shortRegs = g (m.mem ea) r) := by
  obtain ⟨m₁, hglue, hat, rfl⟩ := h.eq (arith_memory hg.mem)
  rw [hg.eq]
  refine ⟨hglue.cells, fun hea hvalid => ⟨m₁.shortRegs, hglue.acc, hglue.carry, ?_⟩⟩
  rw [operandOf, hat.addr, if_pos hvalid, hglue.cells ea hea]
  rfl

theorem adc_column (v : Byte) (r : ShortRegs) :
    (adc v r).acc.toNat + 256 * (flag flagC (adc v r)).toNat = r.acc.toNat + v.toNat + (flag flagC r).toNat := by
  have ha := r.acc.isLt
  have hv := v.isLt
  have hc := Bool.toNat_le (flag flagC r)
  have hacc : (adc v r).acc = BitVec.ofNat 8 (r.acc.toNat + v.toNat + (flag flagC r).toNat) := rfl
  rw [flagC_adc, hacc, BitVec.toNat_ofNat]
  by_cases h : r.acc.toNat + v.toNat + (flag flagC r).toNat > 255
  · rw [decide_eq_true h, Bool.toNat_true]
    omega
  · rw [decide_eq_false h, Bool.toNat_false]
    omega

theorem sbc_column (v : Byte) (r : ShortRegs) :
    r.acc.toNat + 256 * (!flag flagC (sbc v r)).toNat = (sbc v r).acc.toNat + v.toNat + (!flag flagC r).toNat := by
  have ha := r.acc.isLt
  have hv := v.isLt
  have hc := Bool.toNat_le (!flag flagC r)
  have hacc : (sbc v r).acc = r.acc - v - BitVec.ofNat 8 (!flag flagC r).toNat := rfl
  rw [flagC_sbc, hacc, BitVec.toNat_sub, BitVec.toNat_sub, BitVec.toNat_ofNat]
  by_cases h : v.toNat + (!flag flagC r).toNat ≤ r.acc.toNat
  · rw [decide_eq_true h, Bool.not_true, Bool.toNat_false]
    omega
  · rw [decide_eq_false h, Bool.not_false, Bool.toNat_true]
    omega

section Chains

variable {hf : HookFuns F σ} {cells : List Word} {op : AsmFun} {g : Byte → ShortRegs → ShortRegs}
  {ds : List Digit} {m m' : Machine F σ}

theorem Chain.keeps (h : Chain hf op cells ds m m') (hg : Arith op g) (hd : ∀ d ∈ ds, d.a ∈ cells) {a : Word}
    (ha : a ∈ cells) (hr : ∀ d ∈ ds, a ≠ d.r) : m'.mem a = m.mem a := by
  induction h with
  | nil m => rfl
  | @cons d ds m m₁ m₂ m₃ m' hload hop hstore _ ih =>
      have h₁ := (hload.lda (hd d List.mem_cons_self)).2.2 a ha
      have h₂ := (hop.arith hg).1 a ha
      have h₃ := hstore.sta.2.2 a ha (hr d List.mem_cons_self)
      rw [ih (fun e he => hd e (.tail _ he)) (fun e he => hr e (.tail _ he)), h₃, h₂, h₁]

/-- If one operation is a column, with the digits of `col` and the carry that
`pass` makes of the flag, then a chain of them is a ripple of such columns. -/
theorem Chain.ripple (col : Byte → Byte → Byte → Column) (pass : Bool → Nat) (hg : Arith op g)
    (hcol : ∀ v r, (col r.acc v (g v r).acc).z + 256 * pass (flag flagC (g v r)) =
      (col r.acc v (g v r).acc).x + (col r.acc v (g v r).acc).y + pass (flag flagC r))
    (h : Chain hf op cells ds m m') (hcells : ∀ d ∈ ds, d.a ∈ cells ∧ d.b ∈ cells ∧ d.r ∈ cells)
    (hb : ∀ d ∈ ds, d.b ≠ invalidAddress) (hr : Apart ds) :
    Ripple 256 (pass (flag flagC m.shortRegs)) (ds.map fun d => col (m.mem d.a) (m.mem d.b) (m'.mem d.r))
      (pass (flag flagC m'.shortRegs)) := by
  induction h with
  | nil m => exact .nil _
  | @cons d ds m m₁ m₂ m₃ m' hload hop hstore hrest ih =>
      obtain ⟨ha, hbc, hrc⟩ := hcells d List.mem_cons_self
      have hrest' : ∀ e ∈ ds, e.a ∈ cells ∧ e.b ∈ cells ∧ e.r ∈ cells := fun e he => hcells e (.tail _ he)
      obtain ⟨hnot, hnodup⟩ := List.nodup_cons.mp hr.results
      obtain ⟨hop₁, hops⟩ := List.pairwise_cons.mp hr.operands
      obtain ⟨hacc, hc₁, hmem₁⟩ := hload.lda ha
      obtain ⟨hmem₂, hsome⟩ := hop.arith hg
      obtain ⟨r, hracc, hrc', hg'⟩ := hsome hbc (hb d List.mem_cons_self)
      obtain ⟨hstored, hc₃, hmem₃⟩ := hstore.sta
      have hlater : ∀ a ∈ cells, a ≠ d.r → m₃.mem a = m.mem a :=
        fun a hac hne => (hmem₃ a hac hne).trans ((hmem₂ a hac).trans (hmem₁ a hac))
      have hz : m'.mem d.r = (g (m.mem d.b) r).acc := by
        have hkeep := hrest.keeps hg (fun e he => (hrest' e he).1) hrc
          (fun e he heq => hnot (List.mem_map.mpr ⟨e, he, heq.symm⟩))
        rw [hkeep, hstored, hg', hmem₁ _ hbc]
      have hcol' := hcol (m.mem d.b) r
      rw [hracc, hacc, hrc', hc₁] at hcol'
      have ih' := ih hrest' (fun e he => hb e (.tail _ he)) ⟨hnodup, hops⟩
      have hcolumns : (ds.map fun e => col (m₃.mem e.a) (m₃.mem e.b) (m'.mem e.r)) =
          ds.map fun e => col (m.mem e.a) (m.mem e.b) (m'.mem e.r) := by
        refine List.map_congr_left fun e he => ?_
        rw [hlater e.a (hrest' e he).1 (hop₁ e he).1.symm, hlater e.b (hrest' e he).2.1 (hop₁ e he).2.symm]
      rw [hcolumns, hc₃, hg', hmem₁ _ hbc] at ih'
      rw [List.map_cons, hz]
      exact .cons hcol' ih'

end Chains

structure Kept (code : List Word) (m m' : Machine F σ) : Prop where
  x : m'.shortRegs.x = m.shortRegs.x
  y : m'.shortRegs.y = m.shortRegs.y
  hooks : m'.allMh = m.allMh
  mem : ∀ a ∈ code, m'.mem a = m.mem a

theorem Kept.trans {code : List Word} {m m' m'' : Machine F σ} (h : Kept code m m') (h' : Kept code m' m'') :
    Kept code m m'' :=
  ⟨h'.x.trans h.x, h'.y.trans h.y, h'.hooks.trans h.hooks, fun a ha => (h'.mem a ha).trans (h.mem a ha)⟩

theorem lenOf_pos {mode : AddrMode} (h : mode ≠ .max) : 0 < (lenOf mode).toNat := by
  cases mode <;> first | decide | exact absurd rfl h

theorem At.kept {f : AsmFun} {ea : Word} {m m' : Machine F σ} (h : At f ea m) (hpc : m'.regPc = m.regPc)
    (hk : Kept (codeCells m) m m') : At f ea m' := by
  have hinstr : ∀ i < (lenOf (currentOp m).addrMode).toNat,
      m'.mem (m.regPc + BitVec.ofNat 16 i) = m.mem (m.regPc + BitVec.ofNat 16 i) :=
    fun i hi => hk.mem _ (List.mem_append_left _ (List.mem_map.mpr ⟨i, List.mem_range.mpr hi, rfl⟩))
  have hop : currentOp m' = currentOp m := by
    have h₀ := hinstr 0 (lenOf_pos (addrMode_ne_max _))
    rw [BitVec.add_zero] at h₀
    rw [currentOp, hpc, h₀, currentOp]
  have hoperand : SameOperand (currentOp m).addrMode m m' := by
    intro i hi _
    rw [hpc]
    exact hinstr i hi
  have haddr := addrOf_congr (fun _ => hpc) hk.x hk.y hoperand fun a ha => hk.mem a (List.mem_append_right _ ha)
  have hpointer := pointerCells_congr hk.x hoperand
  refine ⟨by rw [hop]; exact h.op, by rw [hop, haddr]; exact h.addr, ?_, ?_, ?_⟩
  · rw [hk.hooks, hpc]
    exact h.opcode
  · rw [hk.hooks, hop, addrBytes, hpc, hpointer]
    exact h.operand
  · rw [hk.hooks]
    exact h.cell

theorem At.exec_kept {f : AsmFun} {ea : Word} {m : Machine F σ} (h : At f ea m) (hop : f ∈ memoryOps)
    {code : List Word} (hclear : f ∈ [.lda, .adc, .sbc] ∨ ea ∉ code) : Kept code m (exec m) where
  x := by
    have hx : ∀ f ∈ memoryOps, f ∉ [AsmFun.ldx, .tax, .tsx, .inx, .dex] := by decide
    exact effect_x _ _ m (h.op ▸ hx f hop)
  y := by
    have hy : ∀ f ∈ memoryOps, f ∉ [AsmFun.ldy, .tay, .iny, .dey] := by decide
    exact effect_y _ _ m (h.op ▸ hy f hop)
  hooks := rfl
  mem a ha := by
    apply exec_mem
    rw [h.op]
    intro hwrite
    obtain ⟨hstores, hea⟩ := mem_writeCells hop hwrite
    rw [h.addr] at hea
    exact hclear.elim hstores fun hout => hout (hea ▸ ha)

theorem stepAt_kept (hf : HookFuns F σ) (cells : List Word) {code : List Word} {f : AsmFun} {ea q : Word}
    {m₀ m : Machine F σ} (h : At f ea { m₀ with regPc := q }) (hop : f ∈ memoryOps)
    (hcode : codeCells { m₀ with regPc := q } ⊆ code) (hclear : f ∈ [.lda, .adc, .sbc] ∨ ea ∉ code)
    (hk : Kept code m₀ m) :
    ∃ m', stepAt hf q m = .ok ((), m') ∧ Does hf cells f ea m m' ∧ Kept code m₀ m' := by
  have hat : At f ea { m with regPc := q } := h.kept rfl ⟨hk.x, hk.y, hk.hooks, fun a ha => hk.mem a (hcode ha)⟩
  have hrun := hat.run hf hop
  have hk' : Kept code m (exec { m with regPc := q }) := by
    obtain ⟨hx, hy, hh, hm⟩ := hat.exec_kept hop hclear
    exact ⟨hx, hy, hh, hm⟩
  exact ⟨_, hrun, ⟨{ m with regPc := q }, ⟨rfl, rfl, fun _ _ => rfl⟩, hat, hrun⟩, hk.trans hk'⟩

theorem run_code (hf : HookFuns F σ) (cells : List Word) {code : List Word} {op : AsmFun} (hop : op ∈ [.adc, .sbc])
    {m₀ : Machine F σ} {sites : List Site} {ds : List Digit} (h : List.Forall₂ (CodeOf op m₀) sites ds)
    (hcode : programCells m₀ sites ⊆ code) (hclear : ∀ d ∈ ds, d.r ∉ code) {m : Machine F σ} (hk : Kept code m₀ m) :
    ∃ outs m', Runs.run (stepAt hf) (sites.flatMap Site.pcs) m = .ok (outs, m') ∧ Chain hf op cells ds m m' := by
  induction h generalizing m with
  | nil => exact ⟨[], m, rfl, .nil m⟩
  | @cons s d sites ds hs _ ih =>
      obtain ⟨hload, hop', hstore⟩ := hs
      have hpc : ∀ q ∈ s.pcs, codeCells { m₀ with regPc := q } ⊆ code := fun q hq a ha =>
        hcode (List.mem_flatMap.mpr ⟨q, List.mem_flatMap.mpr ⟨s, List.mem_cons_self, hq⟩, ha⟩)
      obtain ⟨m₁, hrun₁, hd₁, hk₁⟩ := stepAt_kept hf cells hload (by decide) (hpc _ (by simp [Site.pcs]))
        (.inl (by decide)) hk
      obtain ⟨m₂, hrun₂, hd₂, hk₂⟩ := stepAt_kept hf cells hop' (arith_memory hop) (hpc _ (by simp [Site.pcs]))
        (.inl (.tail _ hop)) hk₁
      obtain ⟨m₃, hrun₃, hd₃, hk₃⟩ := stepAt_kept hf cells hstore (by decide) (hpc _ (by simp [Site.pcs]))
        (.inr (hclear d List.mem_cons_self)) hk₂
      obtain ⟨outs, m', hrun, hchain⟩ := ih
        (fun a ha => hcode (by
          rw [programCells, List.flatMap_cons, List.flatMap_append]
          exact List.mem_append_right _ ha))
        (fun e he => hclear e (.tail _ he)) hk₃
      have hrun' := Runs.run_cons_ok hrun₁ (Runs.run_cons_ok hrun₂ (Runs.run_cons_ok hrun₃ hrun))
      exact ⟨_, m', hrun', .cons hd₁ hd₂ hd₃ hchain⟩

theorem Laid.run (hf : HookFuns F σ) {op : AsmFun} (hop : op ∈ [.adc, .sbc]) {m : Machine F σ} {sites : List Site}
    {ds : List Digit} (h : Laid op m sites ds) :
    ∃ outs m', Runs.run (stepAt hf) (sites.flatMap Site.pcs) m = .ok (outs, m') ∧
      Chain hf op (cellsOf ds) ds m m' :=
  run_code hf (cellsOf ds) hop h.code (List.Subset.refl _) h.clear ⟨rfl, rfl, rfl, fun _ _ => rfl⟩

theorem cells_of_mem {ds : List Digit} {d : Digit} (hd : d ∈ ds) :
    d.a ∈ cellsOf ds ∧ d.b ∈ cellsOf ds ∧ d.r ∈ cellsOf ds := by
  have hsub : ∀ x ∈ [d.a, d.b, d.r], x ∈ cellsOf ds := fun x hx => List.mem_flatMap.mpr ⟨d, hd, hx⟩
  exact ⟨hsub _ (by simp), hsub _ (by simp), hsub _ (by simp)⟩

theorem number_map (f : Column → Nat) (g : Digit → Column) (ds : List Digit) :
    number 256 f (ds.map g) = Nat.ofDigits 256 (ds.map fun d => f (g d)) := by
  rw [number, List.map_map]
  rfl

theorem valueAt_lt (f : Digit → Word) (ds : List Digit) (m : Machine F σ) : valueAt f ds m < 256 ^ ds.length := by
  have hdigit : ∀ x ∈ ds.map fun d => (m.mem (f d)).toNat, x < 256 := by
    simp only [List.mem_map]
    rintro _ ⟨d, -, rfl⟩
    exact (m.mem (f d)).isLt
  have hlt := Nat.ofDigits_lt_base_pow_length (by decide) hdigit
  rwa [List.length_map] at hlt

/-- A chain of ADC adds two numbers of any length exactly, and a chain of SBC
subtracts them, with the carry that comes out as the last digit or the inverted
borrow. No instruction of a chain fails, and code that no result is stored over
runs through as one. -/
theorem chain_exact (hf : HookFuns F σ) {ds : List Digit} (hb : ∀ d ∈ ds, d.b ≠ invalidAddress) (hr : Apart ds) :
    (∀ m m', Chain hf .adc (cellsOf ds) ds m m' →
      valueAt Digit.r ds m' + 256 ^ ds.length * (flag flagC m'.shortRegs).toNat =
        valueAt Digit.a ds m + valueAt Digit.b ds m + (flag flagC m.shortRegs).toNat) ∧
    (∀ m m', Chain hf .sbc (cellsOf ds) ds m m' →
      (valueAt Digit.r ds m' : Int) =
          (valueAt Digit.a ds m - valueAt Digit.b ds m - (1 - (flag flagC m.shortRegs).toNat)) % 256 ^ ds.length ∧
        (flag flagC m'.shortRegs = true ↔
          valueAt Digit.a ds m ≥ valueAt Digit.b ds m + (1 - (flag flagC m.shortRegs).toNat))) ∧
    (∀ f ∈ [AsmFun.lda, .adc, .sbc, .sta], ∀ ea m, At f ea m → ∃ m', (opcodeExec hf).run m = .ok ((), m')) ∧
    ∀ op ∈ [AsmFun.adc, .sbc], ∀ m sites, Laid op m sites ds →
      ∃ outs m', Runs.run (stepAt hf) (sites.flatMap Site.pcs) m = .ok (outs, m') ∧
        Chain hf op (cellsOf ds) ds m m' := by
  have hops : ∀ f ∈ [AsmFun.lda, .adc, .sbc, .sta], f ∈ memoryOps := by decide
  refine ⟨fun m m' h => ?_, fun m m' h => ?_, fun f hop ea m h => ⟨_, h.run hf (hops f hop)⟩,
    fun op hop m sites h => h.run hf hop⟩
  · have hsum := (h.ripple (fun x y z => ⟨x.toNat, y.toNat, z.toNat⟩) Bool.toNat arith_adc adc_column
      (fun d hd => cells_of_mem hd) hb hr).sum
    rwa [number_map, number_map, number_map, List.length_map] at hsum
  · have hsum := (h.ripple (fun x y z => ⟨z.toNat, y.toNat, x.toNat⟩) (fun c => (!c).toNat) arith_sbc sbc_column
      (fun d hd => cells_of_mem hd) hb hr).sum
    rw [number_map, number_map, number_map, List.length_map] at hsum
    obtain ⟨hmod, hborrow⟩ := sub_of_add (valueAt_lt Digit.r ds m') (Bool.toNat_le _) hsum
    have hc : (!flag flagC m.shortRegs).toNat = 1 - (flag flagC m.shortRegs).toNat := by
      cases flag flagC m.shortRegs <;> rfl
    have hc' : (!flag flagC m'.shortRegs).toNat = 0 ↔ flag flagC m'.shortRegs = true := by
      cases flag flagC m'.shortRegs <;> decide
    rw [hc, hc'] at hborrow
    refine ⟨?_, hborrow⟩
    have hcast : ((!flag flagC m.shortRegs).toNat : Int) = 1 - (flag flagC m.shortRegs).toNat := by
      cases flag flagC m.shortRegs <;> rfl
    rw [hcast] at hmod
    exact_mod_cast hmod

theorem chain_exact_two :
    let ds : List Digit := [⟨0x212, 0x214, 0x216⟩, ⟨0x213, 0x215, 0x217⟩]
    let m := bare 0x200 ⟨0xFF, 0, 0, 0, 1⟩ (bytesAt 0x200 [0xAD, 0x12, 0x02, 0x6D, 0x14, 0x02, 0x8D, 0x16, 0x02,
      0xAD, 0x13, 0x02, 0x6D, 0x15, 0x02, 0x8D, 0x17, 0x02, 0xFF, 0x01, 0x01, 0x00])
    ∃ outs m', Runs.run (stepAt noHooks) [0x200, 0x203, 0x206, 0x209, 0x20C, 0x20F] m = .ok (outs, m') ∧
      valueAt Digit.r ds m' + 256 ^ ds.length * (flag flagC m'.shortRegs).toNat =
        valueAt Digit.a ds m + valueAt Digit.b ds m + (flag flagC m.shortRegs).toNat := by
  intro ds m
  have hb : ∀ d ∈ ds, d.b ≠ invalidAddress := by simp [ds, invalidAddress]
  have hr : Apart ds := ⟨by decide, by simp [ds]⟩
  have hfree : ∀ a, HookFreeAt m.allMh a := (bare_hookFree _ _ _).at
  have hlaid : Laid .adc m [⟨0x200, 0x203, 0x206⟩, ⟨0x209, 0x20C, 0x20F⟩] ds := by
    refine ⟨.cons ⟨?_, ?_, ?_⟩ (.cons ⟨?_, ?_, ?_⟩ .nil), by decide +kernel⟩ <;>
      exact ⟨by decide, by decide +kernel, hfree _, fun a _ => hfree a, hfree _⟩
  obtain ⟨hadd, -, -, hlaid_run⟩ := chain_exact noHooks hb hr
  obtain ⟨outs, m', hrun, hchain⟩ := hlaid_run .adc (by decide) m _ hlaid
  exact ⟨outs, m', hrun, hadd _ _ hchain⟩

end Bugnes.MultiByte
