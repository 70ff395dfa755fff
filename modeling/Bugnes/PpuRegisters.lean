import Bugnes.BitFields
import Bugnes.RamMirror

namespace Bugnes.PpuRegisters

open Words BitFields
open Ppu (PpuReg PpuState PpuM calculateMask cr1VerticalWriteShift cr1VerticalWriteSize)
open RamMirror (ownCell foldl_update_eq)

abbrev Regs := PpuReg → Byte

/-- A failed assertion leaves the registers as they are when it fails. -/
abbrev RegM := EStateM Fault Regs

def ppuRegGet (reg : PpuReg) : RegM Byte := do return (← get) reg

def ppuRegGetField (reg : PpuReg) (shift size : Nat) : RegM Byte := do
  return ((← ppuRegGet reg) &&& calculateMask shift size) >>> shift

def ppuRegSet (reg : PpuReg) (v : Byte) : RegM Unit := modify fun regs => Function.update regs reg v

/-- The value is shifted as an `int` and cut to a byte only where it is stored. -/
def ppuRegSetField (reg : PpuReg) (shift size : Nat) (val : Byte) : RegM Unit := do
  let mask := calculateMask shift size
  let newval := ((← ppuRegGet reg) &&& ~~~mask) ||| BitVec.ofNat 8 (val.toNat <<< shift)
  if ¬val.toNat <<< shift ≤ mask.toNat then throw .assertion
  ppuRegSet reg newval

def withRegs {α : Type} (x : RegM α) : PpuM α := fun p =>
  match x.run p.ppuRegs with
  | .ok a regs => .ok (a, { p with ppuRegs := regs })
  | .error e _ => .error e

theorem withRegs_run {α : Type} {x : RegM α} {p : PpuState} {a : α} {regs : Regs} (h : x.run p.ppuRegs = .ok a regs) :
    (withRegs x).run p = .ok (a, { p with ppuRegs := regs }) := by
  change withRegs x p = _
  rw [withRegs, h]

theorem withRegs_get (reg : PpuReg) : withRegs (ppuRegGet reg) = Ppu.ppuRegGet reg := rfl

theorem withRegs_getField (reg : PpuReg) (shift size : Nat) :
    withRegs (ppuRegGetField reg shift size) = Ppu.ppuRegGetField reg shift size := rfl

theorem withRegs_set (reg : PpuReg) (v : Byte) : withRegs (ppuRegSet reg v) = Ppu.ppuRegSet reg v := rfl

abbrev Field := BitField 8

/-- Fields of the registers, those of one register with no bit in common. -/
structure Layout where
  fields : PpuReg → Set Field
  disjoint : ∀ reg, (fields reg).PairwiseDisjoint BitField.bits

structure FieldWrite (L : Layout) where
  reg : PpuReg
  field : Field
  val : Byte
  mem : field ∈ L.fields reg
  inRange : val.toNat < 2 ^ field.size

def cr1NameTableAddr : Field := ⟨0, 2, by decide⟩
def cr1VerticalWrite : Field := ⟨cr1VerticalWriteShift, cr1VerticalWriteSize, by decide⟩
def cr1SpritePattTable : Field := ⟨3, 1, by decide⟩
def cr1ScreenPattTable : Field := ⟨4, 1, by decide⟩
def cr1SpriteSize : Field := ⟨5, 1, by decide⟩
def cr1PpuMasterSlave : Field := ⟨6, 1, by decide⟩
def cr1VblankEnable : Field := ⟨7, 1, by decide⟩

def cr2Byte0Unknown : Field := ⟨0, 1, by decide⟩
def cr2ImageMask : Field := ⟨1, 1, by decide⟩
def cr2SpriteMask : Field := ⟨2, 1, by decide⟩
def cr2ScreenEnable : Field := ⟨3, 1, by decide⟩
def cr2SpritesEnable : Field := ⟨4, 1, by decide⟩
def cr2BackgroundColor : Field := ⟨5, 3, by decide⟩

def srBytes05Unknown : Field := ⟨0, 6, by decide⟩
def srHitFlag : Field := ⟨6, 1, by decide⟩
def srVblankFlag : Field := ⟨7, 1, by decide⟩

/-- The `_SHIFT` and `_SIZE` enums of each register. -/
def fieldsOf : PpuReg → List Field
  | .cr1 => [cr1NameTableAddr, cr1VerticalWrite, cr1SpritePattTable, cr1ScreenPattTable, cr1SpriteSize,
      cr1PpuMasterSlave, cr1VblankEnable]
  | .cr2 => [cr2Byte0Unknown, cr2ImageMask, cr2SpriteMask, cr2ScreenEnable, cr2SpritesEnable, cr2BackgroundColor]
  | .sr => [srBytes05Unknown, srHitFlag, srVblankFlag]

theorem fieldsOf_apart (reg : PpuReg) :
    ∀ f ∈ fieldsOf reg, ∀ g ∈ fieldsOf reg, f ≠ g → f.shift + f.size ≤ g.shift ∨ g.shift + g.size ≤ f.shift := by
  cases reg <;> decide

/-- The sizes sum up to eight and nothing else: no bit of a register is left out. -/
theorem fieldsOf_cover (reg : PpuReg) : ∀ i < 8, ∃ f ∈ fieldsOf reg, i ∈ f.bits := by
  cases reg <;> decide

def ppuLayout : Layout where
  fields reg := { f | f ∈ fieldsOf reg }
  disjoint reg f hf g hg hne := by
    refine Set.disjoint_left.mpr fun i hi hi' => ?_
    have hf' := hi.2
    have hg' := hi'.2
    rcases fieldsOf_apart reg f hf g hg hne with h | h
    · exact absurd (h.trans hi'.1) (not_le.mpr hf')
    · exact absurd (h.trans hi.1) (not_le.mpr hg')

section Runs

variable {L : Layout}

def setFields (ws : List (FieldWrite L)) : RegM Unit :=
  ws.forM fun w => ppuRegSetField w.reg w.field.shift w.field.size w.val

def writesTo (reg : PpuReg) (ws : List (FieldWrite L)) : List (Field × Byte) :=
  (ws.filter fun w => w.reg = reg).map fun w => (w.field, w.val)

theorem calculateMask_eq (f : Field) : calculateMask f.shift f.size = f.mask := by
  rw [calculateMask, BitField.mask, Nat.one_shiftLeft]

theorem ppuRegGetField_run (reg : PpuReg) (f : Field) (regs : Regs) :
    (ppuRegGetField reg f.shift f.size).run regs = .ok (f.read (regs reg)) regs := by
  rw [ppuRegGetField, calculateMask_eq]
  rfl

theorem ppuRegSetField_run {f : Field} {val : Byte} (hval : f.InRange val) (reg : PpuReg) (regs : Regs) :
    (ppuRegSetField reg f.shift f.size val).run regs =
      .ok () (Function.update regs reg (f.write (regs reg) val)) := by
  have hshift : BitVec.ofNat 8 (val.toNat <<< f.shift) = val <<< f.shift := by
    apply BitVec.eq_of_toNat_eq
    rw [BitVec.toNat_ofNat, BitVec.toNat_shiftLeft]
  have hle : ¬¬val.toNat <<< f.shift ≤ f.mask.toNat := not_not.mpr ((shifted_le_mask_iff f).mpr hval)
  rw [ppuRegSetField, calculateMask_eq, hshift]
  simp only [if_neg hle]
  rfl

theorem ppuRegSetField_fails {f : Field} {val : Byte} (hval : ¬f.InRange val) (reg : PpuReg) (regs : Regs) :
    (ppuRegSetField reg f.shift f.size val).run regs = .error .assertion regs := by
  have hle : ¬val.toNat <<< f.shift ≤ f.mask.toNat := fun h => hval ((shifted_le_mask_iff f).mp h)
  rw [ppuRegSetField, calculateMask_eq]
  simp only [if_pos hle]
  rfl

theorem writesTo_cons (reg : PpuReg) (w : FieldWrite L) (ws : List (FieldWrite L)) :
    writesTo reg (w :: ws) = if w.reg = reg then (w.field, w.val) :: writesTo reg ws else writesTo reg ws := by
  by_cases hreg : w.reg = reg <;> simp [writesTo, hreg]

theorem setFields_run (ws : List (FieldWrite L)) (regs : Regs) :
    (setFields ws).run regs = .ok () fun reg => writeAll (writesTo reg ws) (regs reg) := by
  induction ws generalizing regs with
  | nil => rfl
  | cons w ws ih =>
      let regs₁ : Regs := Function.update regs w.reg (w.field.write (regs w.reg) w.val)
      have hcons : setFields (w :: ws) =
          ppuRegSetField w.reg w.field.shift w.field.size w.val >>= fun _ => setFields ws := rfl
      have hstep : (ppuRegSetField w.reg w.field.shift w.field.size w.val).run regs = .ok () regs₁ :=
        ppuRegSetField_run w.inRange w.reg regs
      have hrest : ∀ reg, writeAll (writesTo reg ws) (regs₁ reg) = writeAll (writesTo reg (w :: ws)) (regs reg) := by
        intro reg
        rw [writesTo_cons]
        by_cases hreg : w.reg = reg
        · subst hreg
          rw [if_pos rfl]
          exact congrArg (writeAll (writesTo w.reg ws)) (Function.update_self _ _ _)
        · rw [if_neg hreg]
          exact congrArg (writeAll (writesTo reg ws)) (Function.update_of_ne (Ne.symm hreg) _ _)
      rw [hcons, EStateM.run_bind, hstep]
      simp only [ih, hrest]

theorem writesTo_spec (reg : PpuReg) (ws : List (FieldWrite L)) :
    ∀ p ∈ writesTo reg ws, p.1 ∈ L.fields reg ∧ p.1.InRange p.2 := by
  intro p hp
  obtain ⟨w, hw, rfl⟩ := List.mem_map.mp hp
  obtain rfl : w.reg = reg := by simpa using (List.mem_filter.mp hw).2
  exact ⟨w.mem, w.inRange⟩

/-- Each field reads as it was last written, or as at first, and nothing else has
changed. -/
structure Independent (L : Layout) (ws : List (FieldWrite L)) (regs regs' : Regs) : Prop where
  reads : ∀ reg, ∃ initial : Field → Byte, ∀ f ∈ L.fields reg,
    (ppuRegGetField reg f.shift f.size).run regs = .ok (initial f) regs ∧
      (ppuRegGetField reg f.shift f.size).run regs' = .ok (ownCell initial (writesTo reg ws) f) regs'
  outside : ∀ reg i, (∀ p ∈ writesTo reg ws, i ∉ p.1.bits) → (regs' reg).getLsbD i = (regs reg).getLsbD i
  others : ∀ reg, writesTo reg ws = [] → regs' reg = regs reg

theorem read_setFields (ws : List (FieldWrite L)) (regs : Regs) {reg : PpuReg} {f : Field} (hf : f ∈ L.fields reg) :
    f.read (writeAll (writesTo reg ws) (regs reg)) = ownCell (fun g => g.read (regs reg)) (writesTo reg ws) f := by
  have hfold : f.read (writeAll (writesTo reg ws) (regs reg)) =
      (writesTo reg ws).foldl (fun vals p => Function.update vals p.1 p.2) (fun g => g.read (regs reg)) f :=
    read_writeAll (L.disjoint reg) (writesTo_spec reg ws) hf rfl
  rw [hfold, foldl_update_eq]

/-- The fields of a register are variables of their own. A value that a field has
no room for is refused before anything is changed. -/
theorem fields_independent (L : Layout) (regs : Regs) :
    (∀ ws : List (FieldWrite L), ∃ regs', (setFields ws).run regs = .ok () regs' ∧ Independent L ws regs regs') ∧
      ∀ reg (f : Field) (val : Byte), 2 ^ f.size ≤ val.toNat →
        (ppuRegSetField reg f.shift f.size val).run regs = .error .assertion regs := by
  refine ⟨fun ws => ⟨_, setFields_run ws regs, fun reg => ?_, fun reg i hi => ?_, fun reg hnone => ?_⟩, ?_⟩
  · refine ⟨fun g => g.read (regs reg), fun f hf => ⟨ppuRegGetField_run reg f regs, ?_⟩⟩
    rw [ppuRegGetField_run, read_setFields ws regs hf]
  · exact getLsbD_writeAll_of_notMem (fun p hp => (writesTo_spec reg ws p hp).2) hi _
  · rw [hnone]
    rfl
  · intro reg f val hval
    exact ppuRegSetField_fails (not_lt.mpr hval) reg regs

end Runs

def cr2Pattern : List (FieldWrite ppuLayout) := [
  ⟨.cr2, cr2Byte0Unknown, 1, by simp [ppuLayout, fieldsOf], by decide⟩,
  ⟨.cr2, cr2ImageMask, 0, by simp [ppuLayout, fieldsOf], by decide⟩,
  ⟨.cr2, cr2SpriteMask, 1, by simp [ppuLayout, fieldsOf], by decide⟩,
  ⟨.cr2, cr2BackgroundColor, 5, by simp [ppuLayout, fieldsOf], by decide⟩,
  ⟨.cr2, cr2BackgroundColor, 2, by simp [ppuLayout, fieldsOf], by decide⟩]

theorem fields_independent_cr2 :
    (∃ regs', (setFields cr2Pattern).run (fun _ => 0) = .ok () regs' ∧
      Independent ppuLayout cr2Pattern (fun _ => 0) regs') ∧
      (ppuRegSetField .cr2 cr2ImageMask.shift cr2ImageMask.size 2).run (fun _ => 0) =
        .error .assertion fun _ => 0 := by
  obtain ⟨hwrites, hfails⟩ := fields_independent ppuLayout fun _ => 0
  exact ⟨hwrites cr2Pattern, hfails .cr2 cr2ImageMask 2 (by decide)⟩

example : (match (setFields cr2Pattern).run fun _ => 0 with
    | .ok _ regs => regs .cr2
    | .error _ regs => regs .sr) = 0x45 := by
  decide

theorem registers_eq {regs regs' : Regs} (h : ∀ reg, ∀ f ∈ fieldsOf reg, f.read (regs reg) = f.read (regs' reg)) :
    regs = regs' := by
  funext reg
  exact eq_of_reads (S := { f | f ∈ fieldsOf reg }) (fieldsOf_cover reg) (h reg)

theorem vertical_setFields (ws : List (FieldWrite ppuLayout)) (p : PpuState) :
    ∃ regs', (withRegs (setFields ws)).run p = .ok ((), { p with ppuRegs := regs' }) ∧
      Ppu.vertical.run { p with ppuRegs := regs' } =
        .ok (ownCell (fun g => g.read (p.ppuRegs .cr1)) (writesTo .cr1 ws) cr1VerticalWrite != 0#8,
          { p with ppuRegs := regs' }) := by
  refine ⟨_, withRegs_run (setFields_run ws p.ppuRegs), ?_⟩
  have hmem : cr1VerticalWrite ∈ ppuLayout.fields .cr1 := by simp [ppuLayout, fieldsOf]
  have hread := ppuRegGetField_run .cr1 cr1VerticalWrite fun reg => writeAll (writesTo reg ws) (p.ppuRegs reg)
  rw [read_setFields ws p.ppuRegs hmem] at hread
  have hfield := withRegs_run (p := { p with ppuRegs := fun reg => writeAll (writesTo reg ws) (p.ppuRegs reg) }) hread
  rw [withRegs_getField] at hfield
  rw [Ppu.vertical, StateT.run_bind]
  exact congrArg (· >>= _) hfield

end Bugnes.PpuRegisters
