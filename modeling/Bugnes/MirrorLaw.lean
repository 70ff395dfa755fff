import Mathlib.Data.Nat.ModEq
import Bugnes.Simplenes

namespace Bugnes.MirrorLaw

open Words Simplenes

/-- What the mirroring of `addr` into the `size` addresses from `start` on is to be. -/
structure Mirrors (addr start size : Word) : Prop where
  law : (mirror addr start size).toNat = start.toNat + (addr.toNat - start.toNat) % size.toNat
  window : start ≤ mirror addr start size ∧ (mirror addr start size).toNat < start.toNat + size.toNat
  identity : addr.toNat < start.toNat + size.toNat → mirror addr start size = addr
  idempotent : mirror (mirror addr start size) start size = mirror addr start size
  periodic : ∀ addr', start ≤ addr' → addr'.toNat ≡ addr.toNat [MOD size.toNat] →
    mirror addr' start size = mirror addr start size

section Window

variable {start size : Word} (hsize : 0 < size) (hfit : start.toNat + size.toNat ≤ 0x10000)

include hsize hfit

theorem toNat_mirror (addr : Word) : (mirror addr start size).toNat = addr.toNat % size.toNat + start.toNat := by
  have hmod : addr.toNat % size.toNat < size.toNat := Nat.mod_lt _ (BitVec.lt_def.mp hsize)
  rw [mirror, BitVec.toNat_add, BitVec.toNat_umod]
  exact Nat.mod_eq_of_lt (by omega)

theorem law_iff {addr : Word} (haddr : start ≤ addr) :
    (mirror addr start size).toNat = start.toNat + (addr.toNat - start.toNat) % size.toNat ↔
      size.toNat ∣ start.toNat := by
  have hle := BitVec.le_def.mp haddr
  have hmod : addr.toNat - start.toNat ≡ addr.toNat [MOD size.toNat] ↔ size.toNat ∣ start.toNat := by
    rw [Nat.modEq_iff_dvd' (Nat.sub_le _ _), Nat.sub_sub_self hle]
  rw [toNat_mirror hsize hfit, ← hmod, Nat.ModEq, Nat.add_comm, Nat.add_left_cancel_iff, eq_comm]

theorem mirror_window (addr : Word) :
    start ≤ mirror addr start size ∧ (mirror addr start size).toNat < start.toNat + size.toNat := by
  have hmod : addr.toNat % size.toNat < size.toNat := Nat.mod_lt _ (BitVec.lt_def.mp hsize)
  rw [BitVec.le_def, toNat_mirror hsize hfit]
  omega

theorem mirror_periodic {addr addr' : Word} (h : addr'.toNat ≡ addr.toNat [MOD size.toNat]) :
    mirror addr' start size = mirror addr start size := by
  apply BitVec.eq_of_toNat_eq
  rw [toNat_mirror hsize hfit, toNat_mirror hsize hfit, h]

theorem mirror_of_window (hdvd : size.toNat ∣ start.toNat) {addr : Word} (hstart : start ≤ addr)
    (hend : addr.toNat < start.toNat + size.toNat) : mirror addr start size = addr := by
  have hle := BitVec.le_def.mp hstart
  apply BitVec.eq_of_toNat_eq
  rw [(law_iff hsize hfit hstart).mpr hdvd, Nat.mod_eq_of_lt (by omega)]
  omega

/-- The address is reduced as it is and not from `start` on, which makes no
difference if and only if the window begins at a multiple of its size. -/
theorem mirrors_iff {addr : Word} (haddr : start ≤ addr) : Mirrors addr start size ↔ size.toNat ∣ start.toNat := by
  constructor
  · intro h
    exact (law_iff hsize hfit haddr).mp h.law
  · intro hdvd
    obtain ⟨hstart, hend⟩ := mirror_window hsize hfit addr
    exact {
      law := (law_iff hsize hfit haddr).mpr hdvd
      window := ⟨hstart, hend⟩
      identity := mirror_of_window hsize hfit hdvd haddr
      idempotent := mirror_of_window hsize hfit hdvd hstart hend
      periodic := fun _ _ h => mirror_periodic hsize hfit h }

end Window

theorem mirrors_iff_ram :
    Mirrors 0x1234 internalRamMirrorStart internalRamMirrorStop ↔
      internalRamMirrorStop.toNat ∣ internalRamMirrorStart.toNat :=
  mirrors_iff (by decide) (by decide) (by decide)

theorem mirror_shifted :
    ¬∀ start size : Word, 0 < size → start.toNat + size.toNat ≤ 0x10000 →
      ∀ addr, start ≤ addr → Mirrors addr start size := by
  intro hall
  have h := hall 1 2 (by decide) (by decide) 1 (by decide)
  exact absurd (h.identity (by decide)) (by decide)

end Bugnes.MirrorLaw
