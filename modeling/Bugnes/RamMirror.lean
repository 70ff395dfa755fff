import Bugnes.PlainRuns
import Bugnes.Simplenes

namespace Bugnes.RamMirror

open Words Memhooks CpuCore PlainRuns Ppu Sfot Registration Simplenes

section LastWrite

variable {α β : Type} {p q : α → Prop} [DecidablePred p] [DecidablePred q]

/-- The last write to an address that `p` holds of. -/
def lastWrite (p : α → Prop) [DecidablePred p] (writes : List (α × β)) : Option (α × β) :=
  (writes.filter fun w => p w.1).getLast?

def ownCell [DecidableEq α] (mem : α → β) (writes : List (α × β)) (b : α) : β :=
  ((lastWrite (· = b) writes).map Prod.snd).getD (mem b)

theorem lastWrite_append (w : α × β) (writes : List (α × β)) :
    lastWrite p (writes ++ [w]) = if p w.1 then some w else lastWrite p writes := by
  by_cases h : p w.1 <;> simp [lastWrite, List.filter_append, h]

theorem lastWrite_mono (hqp : ∀ a, q a → p a) {writes : List (α × β)} {w : α × β} (h : lastWrite p writes = some w)
    (hw : q w.1) : lastWrite q writes = some w := by
  induction writes using List.reverseRecOn with
  | nil => cases h
  | append_singleton writes x ih =>
      rw [lastWrite_append] at h ⊢
      by_cases hp : p x.1
      · rw [if_pos hp] at h
        cases h
        rw [if_pos hw]
      · rw [if_neg hp] at h
        rw [if_neg fun hq => hp (hqp _ hq), ih h]

theorem foldl_update_eq [DecidableEq α] (mem : α → β) (writes : List (α × β)) (b : α) :
    writes.foldl (fun mem w => Function.update mem w.1 w.2) mem b = ownCell mem writes b := by
  induction writes using List.reverseRecOn with
  | nil => rfl
  | append_singleton writes w ih =>
      rw [List.foldl_concat, ownCell, lastWrite_append]
      by_cases h : w.1 = b
      · simp [h]
      · rw [if_neg h, Function.update_of_ne (Ne.symm h), ih, ownCell]

end LastWrite

/-- The tables that send every address of the RAM area through `mirror_internal_ram`
and have no other hook there. -/
structure Mirrored (t : AllMh Hook) : Prop where
  transl : ∀ a < internalRamMirrorStop, check t .transl a = some .mirrorInternalRam
  read : ∀ a < internalRamMirrorStop, check t .read a = none
  write : ∀ a < internalRamMirrorStop, check t .write a = none

theorem outside_ram {xs : List (Memhook Hook)} (h : ∀ r ∈ xs, internalRamMirrorStop ≤ r.addrStart) {a : Word}
    (ha : a < internalRamMirrorStop) : checkList a xs = none :=
  checkList_outside fun r hr hcovers => BitVec.not_lt.mpr (BitVec.le_trans (h r hr) hcovers.1) ha

theorem hookTable_mirrored : Mirrored hookTable where
  transl _ h := if_pos ⟨BitVec.not_lt.mp (by simp [internalRamMirrorStart]), h⟩
  read _ h := outside_ram (by decide) h
  write _ h := outside_ram (by decide) h

theorem mirrorInternalRam_eq {a : Word} (h : a < internalRamMirrorStop) : mirrorInternalRam a = .ok a := by
  have hmod : a % internalRamMirrorStop = a := BitVec.umod_eq_of_lt h
  simp [mirrorInternalRam, assertThat_of h, mirror, internalRamMirrorStart, hmod]

section Access

variable {m : Machine Hook PpuState} {a : Word}

theorem translAddr_mirrored (h : Mirrored m.allMh) (ha : a < internalRamMirrorStop) :
    (translAddr hookFuns a).run m = .ok (a, m) := by
  have htransl : hookFuns.transl .mirrorInternalRam a = ofExcept (mirrorInternalRam a) := rfl
  simp [translAddr, h.transl a ha, htransl, mirrorInternalRam_eq ha, ofExcept]

theorem memRead_mirrored (h : Mirrored m.allMh) (ha : a < internalRamMirrorStop) :
    (memRead hookFuns a).run m = .ok (m.mem a, m) := by
  simp [memRead, translAddr_mirrored h ha, h.read a ha]

theorem memWrite_mirrored (h : Mirrored m.allMh) (ha : a < internalRamMirrorStop) (v : Byte) :
    (memWrite hookFuns a v).run m = .ok ((), { m with mem := Function.update m.mem a v }) := by
  simp [memWrite, translAddr_mirrored h ha, h.write a ha]

end Access

def writeThenRead (writes : List (Word × Byte)) (b : Word) : NesM Byte := do
  writes.forM fun w => memWrite hookFuns w.1 w.2
  memRead hookFuns b

theorem writes_run {m : Machine Hook PpuState} (h : Mirrored m.allMh) {writes : List (Word × Byte)}
    (hw : ∀ w ∈ writes, w.1 < internalRamMirrorStop) :
    (writes.forM fun w => memWrite hookFuns w.1 w.2).run m =
      .ok ((), { m with mem := writes.foldl (fun mem w => Function.update mem w.1 w.2) m.mem }) := by
  induction writes generalizing m with
  | nil => rfl
  | cons w ws ih =>
      change (memWrite hookFuns w.1 w.2 >>= fun _ => ws.forM fun w => memWrite hookFuns w.1 w.2).run m = _
      rw [StateT.run_bind, memWrite_mirrored h (hw w (.head _)), ok_bind]
      exact ih (m := { m with mem := _ }) h fun w hmem => hw w (.tail _ hmem)

def Congruent (a b : Word) : Prop := a % internalRamMirrorSize = b % internalRamMirrorSize

instance (b : Word) : DecidablePred (Congruent · b) := fun _ => inferInstanceAs (Decidable (_ = _))

/-- Without wrapping to the physical size a read finds the last write to any
mirror of its address exactly when that write was to the address itself, or
left out the value that is there anyway. -/
theorem mirror_last_write {m : Machine Hook PpuState} (h : Mirrored m.allMh) {writes : List (Word × Byte)}
    (hw : ∀ w ∈ writes, w.1 < internalRamMirrorStop) {b : Word} (hb : b < internalRamMirrorStop) :
    (∀ w, lastWrite (Congruent · b) writes = some w →
        ((writeThenRead writes b).run m).map Prod.fst = .ok w.2) ↔
      ∀ w, lastWrite (Congruent · b) writes = some w → w.1 = b ∨ ownCell m.mem writes b = w.2 := by
  have hread : ((writeThenRead writes b).run m).map Prod.fst = .ok (ownCell m.mem writes b) := by
    rw [writeThenRead, StateT.run_bind, writes_run h hw, ok_bind, ← foldl_update_eq]
    exact congrArg (Except.map Prod.fst) (memRead_mirrored
      (m := { m with mem := writes.foldl (fun mem w => Function.update mem w.1 w.2) m.mem }) h hb)
  rw [hread]
  refine forall₂_congr fun w hlast => ?_
  constructor
  · intro hown
    exact .inr (Except.ok.inj hown)
  · rintro (hb | hown)
    · have hself := lastWrite_mono (q := (· = b)) (fun a ha => by rw [ha]; exact rfl) hlast hb
      rw [ownCell, hself]
      rfl
    · rw [hown]

def hooked (memory : Word → Byte) : Machine Hook PpuState := { atStartup (powerUp memory) with allMh := hookTable }

theorem mirror_last_write_own :
    (∀ w, lastWrite (Congruent · 0x10) [(0x810, 1), (0x10, 2)] = some w →
        ((writeThenRead [(0x810, 1), (0x10, 2)] 0x10).run (hooked fun _ => 0)).map Prod.fst = .ok w.2) ↔
      ∀ w, lastWrite (Congruent · 0x10) [(0x810, 1), (0x10, 2)] = some w →
        w.1 = 0x10 ∨ ownCell (hooked fun _ => 0).mem [(0x810, 1), (0x10, 2)] 0x10 = w.2 :=
  mirror_last_write hookTable_mirrored (by simp [internalRamMirrorStop]) (by simp [internalRamMirrorStop])

theorem mirror_unshared :
    lastWrite (Congruent · 0x0) [(0x800, (0x42 : Byte))] = some (0x800, 0x42) ∧
      ((writeThenRead [(0x800, 0x42)] 0x0).run (hooked fun _ => 0)).map Prod.fst = .ok 0 := by
  decide +kernel

end Bugnes.RamMirror
