import Bugnes.MultiByte
import Bugnes.Shifts

namespace Bugnes.MultiShift

open Words CpuCore Registers Addr OpcodeTable Opcodes Plain PlainRuns PlainRefinement InstrFrame CarryChain MultiByte
open Shifts

variable {F σ : Type}

abbrev Step := AsmFun × Word

inductive Steps (hf : HookFuns F σ) (cells : List Word) : List Step → Machine F σ → Machine F σ → Prop
  | nil (m : Machine F σ) : Steps hf cells [] m m
  | cons {s : Step} {ss : List Step} {m m₁ m' : Machine F σ} :
      Does hf cells s.1 s.2 m m₁ → Steps hf cells ss m₁ m' → Steps hf cells (s :: ss) m m'

def each (f : AsmFun) (as : List Word) : List Step := as.map fun a => (f, a)

/-- To the left from the lowest byte up, which `first` is for. -/
def leftSteps (first : AsmFun) (a : Word) (as : List Word) : List Step := (first, a) :: each .rol as

/-- To the right from the highest byte down. -/
def rightSteps (as : List Word) : List Step := each .ror as.reverse

def numberAt (as : List Word) (m : Machine F σ) : Nat := Nat.ofDigits 256 (as.map fun a => (m.mem a).toNat)

/-- The code of the steps is in memory, and none of them works on it. -/
structure Placed (m : Machine F σ) (pcs : List Word) (ss : List Step) : Prop where
  code : List.Forall₂ (fun q s => At s.1 s.2 { m with regPc := q }) pcs ss
  clear : ∀ s ∈ ss, s.2 ∉ pcs.flatMap fun q => codeCells { m with regPc := q }

/-- The bytes are back as they were, and the carry is `c`. -/
structure Restored (as : List Word) (c : Bool) (m m' : Machine F σ) : Prop where
  cells : ∀ a ∈ as, m'.mem a = m.mem a
  carry : flag flagC m'.shortRegs = c

section Steps

variable {hf : HookFuns F σ} {cells as : List Word} {ss ss' : List Step} {m m' m'' : Machine F σ}

theorem Steps.append_inv (h : Steps hf cells (ss ++ ss') m m'') :
    ∃ m', Steps hf cells ss m m' ∧ Steps hf cells ss' m' m'' := by
  induction ss generalizing m with
  | nil => exact ⟨m, .nil m, h⟩
  | cons s ss ih =>
      cases h with
      | cons hdoes hrest =>
          obtain ⟨m', hss, hss'⟩ := ih hrest
          exact ⟨m', .cons hdoes hss, hss'⟩

theorem leftOf_memory {f : AsmFun} {left : Bool} (hf : leftOf f = some left) : f ∈ memoryOps := by
  cases f with
  | asl | lsr | rol | ror => decide
  | _ => cases hf

theorem fillOf_congr (f : AsmFun) {r r' : ShortRegs} (h : flag flagC r = flag flagC r') : fillOf f r = fillOf f r' := by
  cases f <;> first | rfl | exact h

theorem does_shift {f : AsmFun} {left : Bool} {ea : Word} (h : Does hf cells f ea m m') (hleft : leftOf f = some left)
    (hea : ea ∈ cells) (hvalid : ea ≠ invalidAddress) :
    m'.mem ea = shift left (fillOf f m.shortRegs) (m.mem ea) ∧ flag flagC m'.shortRegs = bitOut left (m.mem ea) ∧
      ∀ a ∈ cells, a ≠ ea → m'.mem a = m.mem a := by
  obtain ⟨m₁, hglue, hat, rfl⟩ := h.eq (leftOf_memory hleft)
  have haddr := hat.addr
  have hshift := @shifted_at F σ m₁ (currentOp m₁).addrMode left (fillOf f m₁.shortRegs) (haddr ▸ hvalid)
  rw [effect_shift hleft, ← fillOf_congr f hglue.carry, ← hglue.cells ea hea]
  rw [haddr] at hshift
  exact ⟨hshift.byte, hshift.carry, fun a ha hne => (hshift.others a hne).trans (hglue.cells a ha)⟩

theorem Steps.keeps {f : AsmFun} {left : Bool} (h : Steps hf cells (each f as) m m') (hleft : leftOf f = some left)
    (hcells : ∀ a ∈ as, a ∈ cells ∧ a ≠ invalidAddress) {a : Word} (ha : a ∈ cells) (hnot : a ∉ as) :
    m'.mem a = m.mem a := by
  induction as generalizing m with
  | nil => cases h; rfl
  | cons b as ih =>
      obtain ⟨hne, hnot'⟩ := not_or.mp (mt List.mem_cons.mpr hnot)
      obtain ⟨hb, hvalid⟩ := hcells b List.mem_cons_self
      cases h with
      | cons hdoes hrest =>
          have hhead := (does_shift hdoes hleft hb hvalid).2.2 a ha hne
          rw [ih hrest (fun c hc => hcells c (.tail _ hc)) hnot', hhead]

theorem shiftLeft_column (v : Byte) (c : Bool) :
    (shiftLeft v c).toNat + 256 * v.msb.toNat = v.toNat + v.toNat + c.toNat := by
  have hall : ∀ (v : Byte) c, (shiftLeft v c).toNat + 256 * v.msb.toNat = v.toNat + v.toNat + c.toNat := by
    decide +kernel
  exact hall v c

theorem shiftRight_shiftLeft (v : Byte) (c : Bool) :
    shiftRight (shiftLeft v c) v.msb = v ∧ lowBit (shiftLeft v c) = c := by
  have hall : ∀ (v : Byte) c, shiftRight (shiftLeft v c) v.msb = v ∧ lowBit (shiftLeft v c) = c := by
    decide +kernel
  exact hall v c

end Steps

section Rotation

variable {hf : HookFuns F σ} {cells as : List Word} {a : Word} {first : AsmFun} {m m₁ m' m'' : Machine F σ}

def columns (as : List Word) (m m' : Machine F σ) : List Column :=
  as.map fun a => ⟨(m.mem a).toNat, (m.mem a).toNat, (m'.mem a).toNat⟩

theorem ripple_cons (hdoes : Does hf cells first a m m₁) (hrest : Steps hf cells (each .rol as) m₁ m')
    (hfirst : leftOf first = some true) (hcells : ∀ b ∈ a :: as, b ∈ cells ∧ b ≠ invalidAddress)
    (hnodup : (a :: as).Nodup)
    (ih : Ripple 256 (flag flagC m₁.shortRegs).toNat (columns as m₁ m') (flag flagC m'.shortRegs).toNat) :
    Ripple 256 (fillOf first m.shortRegs).toNat (columns (a :: as) m m') (flag flagC m'.shortRegs).toNat := by
  obtain ⟨hnot, -⟩ := List.nodup_cons.mp hnodup
  obtain ⟨ha, hvalid⟩ := hcells a List.mem_cons_self
  obtain ⟨hbyte, hcarry, hothers⟩ := does_shift hdoes hfirst ha hvalid
  have hkept := hrest.keeps rfl (fun b hb => hcells b (.tail _ hb)) ha hnot
  have hcolumns : columns as m₁ m' = columns as m m' := by
    refine List.map_congr_left fun b hb => ?_
    have hne : b ≠ a := fun he => hnot (he ▸ hb)
    rw [hothers b (hcells b (.tail _ hb)).1 hne]
  have hcolumn := shiftLeft_column (m.mem a) (fillOf first m.shortRegs)
  have hbyte' : m'.mem a = shiftLeft (m.mem a) (fillOf first m.shortRegs) := hkept.trans hbyte
  rw [hcolumns, hcarry] at ih
  rw [columns, List.map_cons, hbyte']
  exact .cons hcolumn ih

theorem ripple_rol (h : Steps hf cells (each .rol as) m m') (hcells : ∀ b ∈ as, b ∈ cells ∧ b ≠ invalidAddress)
    (hnodup : as.Nodup) :
    Ripple 256 (flag flagC m.shortRegs).toNat (columns as m m') (flag flagC m'.shortRegs).toNat := by
  induction as generalizing m with
  | nil => cases h; exact .nil _
  | cons a as ih =>
      cases h with
      | cons hdoes hrest =>
          exact ripple_cons hdoes hrest rfl hcells hnodup
            (ih hrest (fun b hb => hcells b (.tail _ hb)) (List.nodup_cons.mp hnodup).2)

theorem restored_cons (hdoes : Does hf cells first a m m₁) (hrest : Steps hf cells (each .rol as) m₁ m')
    (hback : Steps hf cells (rightSteps (a :: as)) m' m'') (hfirst : leftOf first = some true)
    (hcells : ∀ b ∈ a :: as, b ∈ cells ∧ b ≠ invalidAddress) (hnodup : (a :: as).Nodup)
    (ih : ∀ m₂, Steps hf cells (rightSteps as) m' m₂ → Restored as (flag flagC m₁.shortRegs) m₁ m₂) :
    Restored (a :: as) (fillOf first m.shortRegs) m m'' := by
  obtain ⟨hnot, -⟩ := List.nodup_cons.mp hnodup
  obtain ⟨ha, hvalid⟩ := hcells a List.mem_cons_self
  have hcells' : ∀ b ∈ as, b ∈ cells ∧ b ≠ invalidAddress := fun b hb => hcells b (.tail _ hb)
  obtain ⟨hbyte, hcarry, hothers⟩ := does_shift hdoes hfirst ha hvalid
  rw [rightSteps, List.reverse_cons, each, List.map_append] at hback
  obtain ⟨m₂, hright, hlast⟩ := hback.append_inv
  cases hlast with
  | cons hror hnil =>
      cases hnil
      obtain ⟨hbyte₂, hcarry₂, hothers₂⟩ := does_shift hror rfl ha hvalid
      obtain ⟨hrestored, hcarried⟩ := ih m₂ hright
      -- nothing after its own rotation to the left has worked on the lowest byte
      have hkept : m₂.mem a = shiftLeft (m.mem a) (fillOf first m.shortRegs) := by
        have hreverse : ∀ b ∈ as.reverse, b ∈ cells ∧ b ≠ invalidAddress :=
          fun b hb => hcells' b (List.mem_reverse.mp hb)
        rw [Steps.keeps hright rfl hreverse ha (mt List.mem_reverse.mp hnot), hrest.keeps rfl hcells' ha hnot, hbyte]
        rfl
      have hback' := shiftRight_shiftLeft (m.mem a) (fillOf first m.shortRegs)
      refine ⟨fun b hb => ?_, ?_⟩
      · rcases List.mem_cons.mp hb with rfl | hb
        · have hfill : fillOf .ror m₂.shortRegs = (m.mem b).msb := hcarried.trans hcarry
          rw [hbyte₂, hfill, hkept]
          exact hback'.1
        · have hne : b ≠ a := fun he => hnot (he ▸ hb)
          rw [hothers₂ b (hcells' b hb).1 hne, hrestored b hb, hothers b (hcells' b hb).1 hne]
      · rw [hcarry₂, hkept]
        exact hback'.2

theorem restored_rol (h : Steps hf cells (each .rol as) m m') (hback : Steps hf cells (rightSteps as) m' m'')
    (hcells : ∀ b ∈ as, b ∈ cells ∧ b ≠ invalidAddress) (hnodup : as.Nodup) :
    Restored as (flag flagC m.shortRegs) m m'' := by
  induction as generalizing m m'' with
  | nil =>
      cases h
      cases hback
      exact ⟨fun b hb => absurd hb List.not_mem_nil, rfl⟩
  | cons a as ih =>
      cases h with
      | cons hdoes hrest =>
          exact restored_cons hdoes hrest hback rfl hcells hnodup fun m₂ hright =>
            ih hrest hright (fun b hb => hcells b (.tail _ hb)) (List.nodup_cons.mp hnodup).2

theorem leftSteps_double (h : Steps hf cells (leftSteps first a as) m m') (hfirst : leftOf first = some true)
    (hcells : ∀ b ∈ a :: as, b ∈ cells ∧ b ≠ invalidAddress) (hnodup : (a :: as).Nodup) :
    numberAt (a :: as) m' + 256 ^ (a :: as).length * (flag flagC m'.shortRegs).toNat =
      2 * numberAt (a :: as) m + (fillOf first m.shortRegs).toNat := by
  cases h with
  | cons hdoes hrest =>
      have hripple := ripple_cons hdoes hrest hfirst hcells hnodup
        (ripple_rol hrest (fun b hb => hcells b (.tail _ hb)) (List.nodup_cons.mp hnodup).2)
      have hsum := hripple.sum
      simp only [number, columns, List.map_map, List.length_map] at hsum
      rw [two_mul]
      exact hsum

theorem leftSteps_restored (h : Steps hf cells (leftSteps first a as) m m')
    (hback : Steps hf cells (rightSteps (a :: as)) m' m'') (hfirst : leftOf first = some true)
    (hcells : ∀ b ∈ a :: as, b ∈ cells ∧ b ≠ invalidAddress) (hnodup : (a :: as).Nodup) :
    Restored (a :: as) (fillOf first m.shortRegs) m m'' := by
  cases h with
  | cons hdoes hrest =>
      exact restored_cons hdoes hrest hback hfirst hcells hnodup fun m₂ hright =>
        restored_rol hrest hright (fun b hb => hcells b (.tail _ hb)) (List.nodup_cons.mp hnodup).2

end Rotation

theorem run_steps (hf : HookFuns F σ) (cells : List Word) {code : List Word} {m₀ : Machine F σ} {pcs : List Word}
    {ss : List Step} (h : List.Forall₂ (fun q s => At s.1 s.2 { m₀ with regPc := q }) pcs ss)
    (hops : ∀ s ∈ ss, s.1 ∈ memoryOps) (hcode : (pcs.flatMap fun q => codeCells { m₀ with regPc := q }) ⊆ code)
    (hclear : ∀ s ∈ ss, s.2 ∉ code) {m : Machine F σ} (hk : Kept code m₀ m) :
    ∃ outs m', Runs.run (stepAt hf) pcs m = .ok (outs, m') ∧ Steps hf cells ss m m' := by
  induction h generalizing m with
  | nil => exact ⟨[], m, rfl, .nil m⟩
  | @cons q s pcs ss hat _ ih =>
      obtain ⟨hhead, htail⟩ := List.append_subset.mp hcode
      obtain ⟨m₁, hstep, hdoes, hk₁⟩ := stepAt_kept hf cells hat (hops s List.mem_cons_self) hhead
        (.inr (hclear s List.mem_cons_self)) hk
      obtain ⟨outs, m', hrun, hsteps⟩ :=
        ih (fun s hs => hops s (.tail _ hs)) htail (fun s hs => hclear s (.tail _ hs)) hk₁
      exact ⟨_, m', Runs.run_cons_ok hstep hrun, .cons hdoes hsteps⟩

/-- A number of any length is doubled by rotating its bytes from the lowest up,
and halved again by rotating them from the highest down. Code that none of them
lies in runs through as one. -/
theorem rotate_exact (hf : HookFuns F σ) {first : AsmFun} (hfirst : first ∈ [.asl, .rol]) {a : Word} {as : List Word}
    (hvalid : invalidAddress ∉ a :: as) (hnodup : (a :: as).Nodup) :
    (∀ m m', Steps hf (a :: as) (leftSteps first a as) m m' →
      numberAt (a :: as) m' + 256 ^ (a :: as).length * (flag flagC m'.shortRegs).toNat =
        2 * numberAt (a :: as) m + (fillOf first m.shortRegs).toNat) ∧
    (∀ m m' m'', Steps hf (a :: as) (leftSteps first a as) m m' → Steps hf (a :: as) (rightSteps (a :: as)) m' m'' →
      Restored (a :: as) (fillOf first m.shortRegs) m m'') ∧
    ∀ m pcs, Placed m pcs (leftSteps first a as ++ rightSteps (a :: as)) →
      ∃ outs m' m'', Runs.run (stepAt hf) pcs m = .ok (outs, m'') ∧
        Steps hf (a :: as) (leftSteps first a as) m m' ∧ Steps hf (a :: as) (rightSteps (a :: as)) m' m'' := by
  have hleft : leftOf first = some true := by
    have hall : ∀ f ∈ [AsmFun.asl, .rol], leftOf f = some true := by decide
    exact hall first hfirst
  have hcells : ∀ b ∈ a :: as, b ∈ a :: as ∧ b ≠ invalidAddress := fun b hb => ⟨hb, fun he => hvalid (he ▸ hb)⟩
  refine ⟨fun m m' h => leftSteps_double h hleft hcells hnodup,
    fun m m' m'' h hback => leftSteps_restored h hback hleft hcells hnodup, fun m pcs h => ?_⟩
  have hops : ∀ s ∈ leftSteps first a as ++ rightSteps (a :: as), s.1 ∈ memoryOps := by
    intro s hs
    rcases List.mem_append.mp hs with hs | hs
    · rcases List.mem_cons.mp hs with rfl | hs
      · exact leftOf_memory hleft
      · obtain ⟨b, -, rfl⟩ := List.mem_map.mp hs
        exact leftOf_memory (show leftOf .rol = some true from rfl)
    · obtain ⟨b, -, rfl⟩ := List.mem_map.mp hs
      exact leftOf_memory (show leftOf .ror = some false from rfl)
  obtain ⟨outs, m'', hrun, hsteps⟩ := run_steps hf (a :: as) h.code hops (List.Subset.refl _) h.clear
    ⟨rfl, rfl, rfl, fun _ _ => rfl⟩
  obtain ⟨m', hl, hr⟩ := hsteps.append_inv
  exact ⟨outs, m', m'', hrun, hl, hr⟩

theorem rotate_exact_two :
    let m := bare 0x200 ⟨0xFF, 0, 0, 0, 1⟩ (bytesAt 0x200 [0x2E, 0x0C, 0x02, 0x2E, 0x0D, 0x02, 0x6E, 0x0D, 0x02,
      0x6E, 0x0C, 0x02, 0x81, 0xC0])
    ∃ outs, ∃ m' m'' : Machine Empty Unit,
      Runs.run (stepAt noHooks) [0x200, 0x203, 0x206, 0x209] m = .ok (outs, m'') ∧
      numberAt [0x20C, 0x20D] m' + 256 ^ 2 * (flag flagC m'.shortRegs).toNat =
        2 * numberAt [0x20C, 0x20D] m + (fillOf .rol m.shortRegs).toNat ∧
      Restored [0x20C, 0x20D] (fillOf .rol m.shortRegs) m m'' := by
  intro m
  have hfree : ∀ a, HookFreeAt m.allMh a := (bare_hookFree _ _ _).at
  have hplaced : Placed m [0x200, 0x203, 0x206, 0x209] (leftSteps .rol 0x20C [0x20D] ++ rightSteps [0x20C, 0x20D]) := by
    refine ⟨.cons ?_ (.cons ?_ (.cons ?_ (.cons ?_ .nil))), by decide +kernel⟩ <;>
      exact ⟨by decide, by decide +kernel, hfree _, fun a _ => hfree a, hfree _⟩
  obtain ⟨hdouble, hback, hrun⟩ := @rotate_exact _ _ noHooks .rol (by decide) 0x20C [0x20D] (by decide) (by decide)
  obtain ⟨outs, m', m'', hm, hl, hr⟩ := hrun m _ hplaced
  exact ⟨outs, m', m'', hm, hdouble _ _ hl, hback _ _ _ hl hr⟩

end Bugnes.MultiShift
