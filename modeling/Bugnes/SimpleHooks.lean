import Bugnes.Registration

namespace Bugnes.SimpleHooks

open Words Memhooks Registration

variable {F : Type}

structure Simple (F : Type) where
  mhF : F
  mhFName : String
  addr : Word
deriving Repr

/-- `sfot_memhook_insert_*_simple(mh_f, where)`: the range `where, (where)+1`,
whose end is a 16-bit parameter. -/
def insertSimple (ty : MhType) (h : Simple F) : Call F :=
  .insert ty (some h.mhF) (some h.mhFName) h.addr (h.addr + 1#16)

def rangeOf (h : Simple F) : Memhook F := ⟨h.addr, h.addr + 1#16, some h.mhF, some h.mhFName⟩

/-- All hooks go in, and afterwards each is found at its address and none elsewhere. -/
def Carried (ty : MhType) (hooks : List (Simple F)) (t : AllMh F) : Prop :=
  ∃ t', Runs.run call (hooks.map (insertSimple ty)) t = .ok (hooks.map fun _ => 0, t') ∧
    (∀ h ∈ hooks, check t' ty h.addr = some h.mhF) ∧
    ∀ a, a ∉ hooks.map Simple.addr → check t' ty a = none

theorem lt_add_one {a : Word} (h : a ≠ 0xFFFF) : a < a + 1#16 := by
  have hn : a.toNat ≠ 65535 := fun he => h (BitVec.eq_of_toNat_eq he)
  have ha := a.isLt
  rw [BitVec.lt_def, BitVec.toNat_add, BitVec.toNat_ofNat]
  omega

theorem add_one_le {a b : Word} (h : a < b) : a + 1#16 ≤ b := by
  have hb := b.isLt
  rw [BitVec.lt_def] at h
  rw [BitVec.le_def, BitVec.toNat_add, BitVec.toNat_ofNat]
  omega

theorem covers_iff {a b : Word} (h : b ≠ 0xFFFF) : b ≤ a ∧ a < b + 1#16 ↔ a = b := by
  have hn : b.toNat ≠ 65535 := fun he => h (BitVec.eq_of_toNat_eq he)
  have hb := b.isLt
  rw [BitVec.le_def, BitVec.lt_def, BitVec.toNat_add, BitVec.toNat_ofNat, BitVec.toNat_eq]
  omega

theorem ascending_simple {hooks : List (Simple F)} (h : (hooks.map Simple.addr).Pairwise (· < ·))
    (hlast : 0xFFFF ∉ hooks.map Simple.addr) : Ascending (hooks.map rangeOf) where
  ranges := by
    intro r hr
    obtain ⟨x, hx, rfl⟩ := List.mem_map.mp hr
    exact lt_add_one fun he => hlast (List.mem_map.mpr ⟨x, hx, he⟩)
  order := by
    refine List.Pairwise.isChain (List.pairwise_map.mpr ?_)
    exact (List.pairwise_map.mp h).imp add_one_le

theorem not_insert_last (ty : MhType) {h : Simple F} (hlast : h.addr = 0xFFFF) (t : AllMh F) :
    ¬∃ r t', call (insertSimple ty h) t = .ok (r, t') := by
  rintro ⟨r, t', hcall⟩
  have hend : ¬h.addr < h.addr + 1#16 := by
    rw [hlast]
    decide
  simp only [call, insertSimple, Memhooks.insert, assertThat_of_not hend, error_bind] at hcall
  cases hcall

/-- The end of the range of the last address is zero, which the assertion of
`insert` rejects; every other address carries its hook. -/
theorem carried_iff {ty : MhType} {hooks : List (Simple F)} {t : AllMh F} (ht : t ty = [])
    (h : (hooks.map Simple.addr).Pairwise (· < ·)) : Carried ty hooks t ↔ 0xFFFF ∉ hooks.map Simple.addr := by
  constructor
  · rintro ⟨t', hrun, -⟩ hlast
    obtain ⟨x, hx, hx'⟩ := List.mem_map.mp hlast
    obtain ⟨t₁, r, t₂, hcall⟩ := Runs.run_ok_mem hrun (List.mem_map_of_mem hx)
    exact not_insert_last ty hx' t₁ ⟨r, t₂, hcall⟩
  · intro hlast
    have hne : ∀ x ∈ hooks, x.addr ≠ 0xFFFF := fun x hx he => hlast (List.mem_map.mpr ⟨x, hx, he⟩)
    obtain ⟨t', hrun, -, hin, hout, -⟩ := register_ascending ht (ascending_simple h hlast)
    rw [List.map_map, List.map_map] at hrun
    refine ⟨t', hrun, fun x hx => ?_, fun a ha => ?_⟩
    · exact hin (rangeOf x) (List.mem_map_of_mem hx) x.addr ((covers_iff (hne x hx)).mpr rfl)
    · refine hout a fun r hr hcovers => ha ?_
      obtain ⟨x, hx, rfl⟩ := List.mem_map.mp hr
      exact List.mem_map.mpr ⟨x, hx, ((covers_iff (hne x hx)).mp hcovers).symm⟩

theorem carried_iff_neighbours :
    Carried .transl [⟨1, "a", 0x2000⟩, ⟨2, "b", 0x2001⟩, ⟨3, "c", 0xFFFE⟩] (empty : AllMh Nat) ↔
      (0xFFFF : Word) ∉ [0x2000, 0x2001, 0xFFFE] :=
  carried_iff rfl (by simp)

theorem carried_not_last :
    ¬∀ (ty : MhType) (hooks : List (Simple Nat)), (hooks.map Simple.addr).Pairwise (· < ·) →
      Carried ty hooks empty := by
  intro hall
  obtain ⟨t', hrun, -⟩ := hall .read [⟨1, "a", 0xFFFF⟩] (by simp)
  cases hrun

end Bugnes.SimpleHooks
