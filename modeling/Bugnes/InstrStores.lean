import Bugnes.InstrFrame
import Bugnes.Shifts
import Bugnes.StatelessHooks

namespace Bugnes.InstrStores

open Words Memhooks CpuCore Registers Addr OpcodeTable Opcodes Plain PlainRuns PlainRefinement InstrFrame
open StatelessHooks Shifts

variable {F σ : Type}

def storeAll (ws : List (Word × Byte)) (mem : Word → Byte) : Word → Byte :=
  ws.foldl (fun mem w => Function.update mem w.1 w.2) mem

theorem storeAll_eq_iff {ws : List (Word × Byte)} (hnodup : (ws.map Prod.fst).Nodup) (mem : Word → Byte) (c : Word) :
    storeAll ws mem c = mem c ↔ ∀ w ∈ ws, w.1 = c → w.2 = mem c := by
  induction ws generalizing mem with
  | nil => simp [storeAll]
  | cons w ws ih =>
      rw [List.map_cons, List.nodup_cons] at hnodup
      rw [List.forall_mem_cons]
      by_cases hw : w.1 = c
      · have hrest : ∀ x ∈ ws, x.1 ≠ c := fun x hx he =>
          hnodup.1 (List.mem_map.mpr ⟨x, hx, he.trans hw.symm⟩)
        have hcell : storeAll (w :: ws) mem c = w.2 := by
          rw [storeAll, List.foldl_cons, foldl_update_of_notMem hrest, ← hw, Function.update_self]
        rw [hcell]
        exact ⟨fun he => ⟨fun _ => he, fun x hx hxc => absurd hxc (hrest x hx)⟩, fun h => h.1 hw⟩
      · have hfirst : Function.update mem w.1 w.2 c = mem c := Function.update_of_ne (Ne.symm hw) _ _
        have hlast := ih hnodup.2 (Function.update mem w.1 w.2)
        rw [hfirst] at hlast
        exact hlast.trans ⟨fun h => ⟨fun he => absurd he hw, h⟩, fun h => h.2⟩

section Stores

variable (p : PureHooks F) (m : Machine F σ)

/-- A write to `e`: the cell it ends up in and what the hook makes of it. -/
def hooked (e : Word) (v : Byte) : Word × Byte :=
  (translated p m.allMh e, stored p m.allMh (translated p m.allMh e) v)

/-- The cells an instruction stores to, with the bytes they get. Pushes know no
hooks, and an increment starts from the cell and not from what it reads as. -/
def storesOf (f : AsmFun) (mode : AddrMode) : List (Word × Byte) :=
  let e := addrOf mode (viewed p m)
  let old := m.mem (translated p m.allMh e)
  let r := m.shortRegs
  let shifts (left : Bool) : List (Word × Byte) :=
    if e = invalidAddress then [] else [hooked p m e (shift left (fillOf f r) (seen p m.allMh m.mem e))]
  match f with
  | .sta => [hooked p m e r.acc]
  | .stx => [hooked p m e r.x]
  | .sty => [hooked p m e r.y]
  | .inc => [hooked p m e (old + 1#8)]
  | .dec => [hooked p m e (old - 1#8)]
  | .asl | .rol => shifts true
  | .lsr | .ror => shifts false
  | .pha => (pushed r r.acc).writes
  | .php => (pushed r r.cpu).writes
  | .jsr => (pushedWord r (m.regPc + 2#16)).writes
  | _ => []

theorem nodup_storesOf (f : AsmFun) (mode : AddrMode) : ((storesOf p m f mode).map Prod.fst).Nodup := by
  cases f with
  | asl | lsr | rol | ror =>
      simp only [storesOf]
      split
      · exact List.nodup_nil
      · exact List.nodup_singleton _
  | sta | stx | sty | inc | dec | pha | php => exact List.nodup_singleton _
  | jsr =>
      have hne : m.shortRegs.sp ≠ m.shortRegs.sp - 1#8 := by bv_omega
      exact List.nodup_cons.mpr ⟨fun h => hne (stackAddr_injective (List.mem_singleton.mp h)), List.nodup_singleton _⟩
  | _ => exact List.nodup_nil

end Stores

/-- The computation ends with these bytes stored, and the PC and the tables of
hooks as they were. -/
def Stores (x : CpuM F σ Unit) (m : Machine F σ) (ws : List (Word × Byte)) : Prop :=
  ∃ m', x.run m = .ok ((), m') ∧ m'.regPc = m.regPc ∧ m'.allMh = m.allMh ∧ m'.mem = storeAll ws m.mem

def Silent (hf : HookFuns F σ) (m : Machine F σ) : Prop := ∀ ty, ∀ f ∈ m.ehFunV ty, ∀ a s, hf.exc f a s = pure ()

section Rules

variable {α : Type} {m m₁ : Machine F σ} {ws : List (Word × Byte)}

theorem Stores.after_read {x : CpuM F σ α} {f : α → CpuM F σ Unit} {a : α} (hx : x.run m = .ok (a, m))
    (hf : Stores (f a) m ws) : Stores (x >>= f) m ws := by
  obtain ⟨m', hrun, hm'⟩ := hf
  exact ⟨m', by rw [StateT.run_bind, hx, ok_bind, hrun], hm'⟩

theorem Stores.after_regs {x : CpuM F σ α} {f : α → CpuM F σ Unit} {a : α} {r : ShortRegs}
    (hx : x.run m = .ok (a, { m with shortRegs := r })) (hf : Stores (f a) { m with shortRegs := r } ws) :
    Stores (x >>= f) m ws := by
  obtain ⟨m', hrun, hm'⟩ := hf
  exact ⟨m', by rw [StateT.run_bind, hx, ok_bind, hrun], hm'⟩

theorem Stores.quietly {x : CpuM F σ Unit} {f : Unit → CpuM F σ Unit} (hx : Stores x m ws)
    (hf : ∀ m₁ : Machine F σ, m₁.allMh = m.allMh → Stores (f ()) m₁ []) : Stores (x >>= f) m ws := by
  obtain ⟨m₁, hrun, hpc, hmh, hmem⟩ := hx
  obtain ⟨m', hrun', hpc', hmh', hmem'⟩ := hf m₁ hmh
  exact ⟨m', by rw [StateT.run_bind, hrun, ok_bind, hrun'], hpc'.trans hpc, hmh'.trans hmh, hmem'.trans hmem⟩

theorem Stores.of_run {x : CpuM F σ Unit} {r : ShortRegs} {b : Word}
    (h : x.run m = .ok ((), { m with shortRegs := r, regPcBranched := b })) : Stores x m [] :=
  ⟨_, h, rfl, rfl, rfl⟩

theorem Stores.of_effect {x : CpuM F σ Unit} {e : Effect} (h : x.run m = .ok ((), e.apply m)) : Stores x m e.writes :=
  ⟨_, h, rfl, rfl, rfl⟩

end Rules

section Instructions

variable {hf : HookFuns F σ} {p : PureHooks F} {m : Machine F σ} (h : Stateless hf p m.allMh)

theorem asm_untouched {f : AsmFun} {mode : AddrMode} (htouched : touched f mode m = []) (hbrk : f ≠ .brk) :
    Stores (asm hf f mode) m (effect f mode m).writes := by
  refine .of_effect (asm_run hf (fun a ha => ?_) fun hf => absurd hf hbrk)
  rw [htouched] at ha
  exact absurd ha List.not_mem_nil

include h

theorem flagsByMem_stores (e : Word) : Stores (flagsUpdateBasicByMem hf e) m [] :=
  .after_read (memRead_stateless h e) (.of_run (flagsUpdateBasicByValue_run m _))

theorem memWrite_stores (e : Word) (v : Byte) : Stores (memWrite hf e v) m [hooked p m e v] :=
  ⟨_, memWrite_stateless h e v, rfl, rfl, rfl⟩

theorem memInc_stores (e : Word) (d : Int) :
    Stores (memInc hf e d) m [hooked p m e (m.mem (translated p m.allMh e) + BitVec.ofInt 8 d)] :=
  ⟨_, memInc_stateless h e d, rfl, rfl, rfl⟩

theorem asmMem2reg_stores {dest : ShortReg} (hdest : dest = .acc ∨ dest = .x ∨ dest = .y) (e : Word) :
    Stores (asmMem2reg hf dest e) m [] :=
  .after_read (memRead_stateless h e) (.of_run (setSreg_load_run m _ hdest))

theorem asmIncMem_stores {d : Int} (hd : d.natAbs = 1) (e : Word) :
    Stores (asmIncMem hf e d) m [hooked p m e (m.mem (translated p m.allMh e) + BitVec.ofInt 8 d)] :=
  .after_read (require_run hd m)
    ((memInc_stores h e d).quietly fun m₁ hmh => flagsByMem_stores (m := m₁) (hmh.symm ▸ h) e)

omit h in
theorem asmShrot_acc_stores {direction fill : Int} (hd : direction = 1 ∨ direction = -1) (hfill : fill = 0 ∨ fill = 1) :
    Stores (asmShrot hf invalidAddress .acc direction fill) m [] := by
  rw [asmShrot_acc hf hd hfill]
  refine .after_read (getSreg_run m .acc) (.after_regs (flagsUpdateShrotCarry_run m _ hd hfill) ?_)
  exact .of_run (setSreg_load_run _ _ (.inl rfl))

theorem writeBack_stores (e : Word) (v : Byte) :
    Stores (memWrite hf e v >>= fun _ => flagsUpdateBasicByMem hf e) m [hooked p m e v] :=
  (memWrite_stores h e v).quietly fun m₁ hmh => flagsByMem_stores (m := m₁) (hmh.symm ▸ h) e

theorem asmShrot_stores (e : Word) (left fill : Bool) :
    Stores (asmShrot hf e .acc (if left then 1 else -1) fill.toInt) m
      (if e = invalidAddress then [] else [hooked p m e (shift left fill (seen p m.allMh m.mem e))]) := by
  have hd : (if left then (1 : Int) else -1) = 1 ∨ (if left then (1 : Int) else -1) = -1 := by cases left <;> decide
  have hfill : fill.toInt = 0 ∨ fill.toInt = 1 := by cases fill <;> decide
  by_cases he : e = invalidAddress
  · subst he
    exact asmShrot_acc_stores hd hfill
  · have hback : ∀ r v, Stores (memWrite hf e v >>= fun _ => flagsUpdateBasicByMem hf e) { m with shortRegs := r }
        [hooked p m e v] := fun r v => writeBack_stores (m := { m with shortRegs := r }) h e v
    rw [if_neg he, asmShrot_memory hf he hd hfill, ← shift_of_direction]
    exact .after_read (memRead_stateless h e) (.after_regs (flagsUpdateShrotCarry_run m _ hd hfill) (hback _ _))

theorem asm_stores (hexc : Silent hf m) (f : AsmFun) (mode : AddrMode) :
    Stores (asm hf f mode) m (storesOf p m f mode) := by
  have ha := addr_viewed h mode
  obtain ⟨v, hv⟩ := addrModeGetValue_stateless h mode
  cases f with
  | lda | ldx | ldy => exact .after_read ha (asmMem2reg_stores h (by decide) _)
  | sta | stx | sty => exact .after_read ha (.after_read (getSreg_run m _) (memWrite_stores h _ _))
  | inc => exact .after_read ha (asmIncMem_stores h rfl _)
  | dec =>
      rw [storesOf, ← add_minus_one]
      exact .after_read ha (asmIncMem_stores h rfl _)
  | asl => exact .after_read ha (asmShrot_stores h _ true false)
  | lsr => exact .after_read ha (asmShrot_stores h _ false false)
  | rol => exact .after_read ha (.after_read (getFlag_run m flagC) (asmShrot_stores h _ true _))
  | ror => exact .after_read ha (.after_read (getFlag_run m flagC) (asmShrot_stores h _ false _))
  | and => exact .after_read hv (.of_run (asmLogicAnd_run m v))
  | bit => exact .after_read hv (.of_run (asmLogicAnd_invalid_run m v))
  | eor => exact .after_read hv (.of_run (asmLogicEor_run m v))
  | ora => exact .after_read hv (.of_run (asmLogicOra_run m v))
  | adc => exact .after_read hv (.of_run (asmArithAdd_run m v))
  | sbc => exact .after_read hv (.of_run (asmArithSub_run m v))
  | cmp | cpx | cpy => exact .after_read hv (.of_run (asmArithSub_invalid_run m _ v (by decide)))
  | jmp => exact .after_read ha (.of_run (asmMem2pc_run m _ _))
  | bcc | bcs | beq | bmi | bne | bpl | bvc | bvs =>
      exact .after_read ha (.after_read (getFlag_run m _) (.of_run (asmMem2pc_run m _ _)))
  | jsr =>
      refine (Stores.of_effect (asmPc2stack_run m)).quietly fun m₁ hmh => ?_
      obtain ⟨e, he⟩ := addr_stateless (m := m₁) (hmh.symm ▸ h) mode
      exact .after_read he (.of_run (asmMem2pc_run m₁ _ _))
  | brk =>
      refine .after_read (getPc_run m) (.after_read (excepthookCheck_silent (hexc _)) ?_)
      refine .after_read (memRead16_stateless h cpuAddrBreak) ?_
      exact .of_run (discard_branchStatus_run m _)
  | _ => exact asm_untouched rfl (by decide)

end Instructions

end Bugnes.InstrStores
