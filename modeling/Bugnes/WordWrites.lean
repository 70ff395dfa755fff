import Bugnes.StatelessHooks

namespace Bugnes.WordWrites

open Words Memhooks CpuCore Addr Plain PlainRuns StatelessHooks

variable {F σ : Type}

def writeBytes (hf : HookFuns F σ) (addr v : Word) : CpuM F σ Unit := do
  memWrite hf addr (loByte v)
  memWrite hf (addr + 1#16) (hiByte v)

section Cells

variable (p : PureHooks F) (t : AllMh F) (mem : Word → Byte) (addr v : Word)

/-- The byte that belongs in a cell when `v` is at `addr`. -/
def meant (c : Word) : Byte := if c = addr then loByte v else if c = addr + 1#16 then hiByte v else mem c

def through : Word → Byte :=
  let low := translated p t addr
  let high := translated p t (addr + 1#16)
  Function.update (Function.update mem low (stored p t low (loByte v))) high (stored p t high (hiByte v))

/-- The write hooks make of the bytes what belongs in the cells they go to, the
second byte last, and a cell that none goes to has its byte already. -/
structure HooksFit : Prop where
  high : stored p t (translated p t (addr + 1#16)) (hiByte v) = meant mem addr v (translated p t (addr + 1#16))
  low : translated p t addr ≠ translated p t (addr + 1#16) →
    stored p t (translated p t addr) (loByte v) = meant mem addr v (translated p t addr)
  missed : ∀ c ∈ [addr, addr + 1#16], c ∉ [translated p t addr, translated p t (addr + 1#16)] →
    mem c = meant mem addr v c

end Cells

/-- What a write of 16 bits is to do: no more and no less than the two writes,
so that an unhooked pair of cells reads as it was written. -/
structure WritesBytes (hf : HookFuns F σ) (p : PureHooks F) (m : Machine F σ) (addr v : Word) : Prop where
  same : (memWrite16 addr v).run m = (writeBytes hf addr v).run m
  readBack : translated p m.allMh addr ≠ translated p m.allMh (addr + 1#16) →
    (∀ c ∈ [translated p m.allMh addr, translated p m.allMh (addr + 1#16)],
      check m.allMh .read c = none ∧ check m.allMh .write c = none) →
    ∃ m', (memWrite16 addr v).run m = .ok ((), m') ∧ (memRead16 hf addr).run m' = .ok (v, m')

theorem update_two_eq_iff {mem f : Word → Byte} {a b : Word} {v w : Byte} :
    Function.update (Function.update mem a v) b w = f ↔
      w = f b ∧ (a ≠ b → v = f a) ∧ ∀ c, c ≠ a → c ≠ b → mem c = f c := by
  constructor
  · rintro rfl
    refine ⟨?_, fun hab => ?_, fun c ha hb => ?_⟩
    · rw [Function.update_self]
    · rw [Function.update_of_ne hab, Function.update_self]
    · rw [Function.update_of_ne hb, Function.update_of_ne ha]
  · rintro ⟨hb, ha, hrest⟩
    funext c
    by_cases hcb : c = b
    · rw [hcb, Function.update_self, hb]
    · rw [Function.update_of_ne hcb]
      by_cases hca : c = a
      · rw [hca, Function.update_self, ha fun hab => hcb (hca.trans hab)]
      · rw [Function.update_of_ne hca, hrest c hca hcb]

theorem meant_of_notMem {mem : Word → Byte} {addr v c : Word} (h : c ∉ [addr, addr + 1#16]) :
    meant mem addr v c = mem c := by
  simp only [List.mem_cons, List.not_mem_nil, or_false, not_or] at h
  rw [meant, if_neg h.1, if_neg h.2]

theorem through_eq_meant_iff {p : PureHooks F} {t : AllMh F} {mem : Word → Byte} {addr v : Word} :
    through p t mem addr v = meant mem addr v ↔ HooksFit p t mem addr v := by
  rw [through, update_two_eq_iff]
  constructor
  · rintro ⟨hhigh, hlow, hrest⟩
    refine ⟨hhigh, hlow, fun c _ hc => ?_⟩
    simp only [List.mem_cons, List.not_mem_nil, or_false, not_or] at hc
    exact hrest c hc.1 hc.2
  · intro h
    refine ⟨h.high, h.low, fun c hlow hhigh => ?_⟩
    by_cases hc : c ∈ [addr, addr + 1#16]
    · exact h.missed c hc (by simp [hlow, hhigh])
    · exact (meant_of_notMem hc).symm

theorem hooksFit_untranslated {p : PureHooks F} {t : AllMh F} {mem : Word → Byte} {addr v : Word}
    (h : ∀ c ∈ [addr, addr + 1#16], check t .transl c = none) :
    HooksFit p t mem addr v ↔
      stored p t addr (loByte v) = loByte v ∧ stored p t (addr + 1#16) (hiByte v) = hiByte v := by
  have hlow : translated p t addr = addr := by rw [translated, h addr (by simp)]
  have hhigh : translated p t (addr + 1#16) = addr + 1#16 := by rw [translated, h (addr + 1#16) (by simp)]
  have hapart : addr ≠ addr + 1#16 := by simp
  have hmeantLow : meant mem addr v addr = loByte v := if_pos rfl
  have hmeantHigh : meant mem addr v (addr + 1#16) = hiByte v := by rw [meant, if_neg hapart.symm, if_pos rfl]
  constructor
  · rintro ⟨hhi, hlo, -⟩
    rw [hhigh, hmeantHigh] at hhi
    rw [hlow, hhigh, hmeantLow] at hlo
    exact ⟨hlo hapart, hhi⟩
  · rintro ⟨hlo, hhi⟩
    refine ⟨?_, fun _ => ?_, fun c hc hmissed => ?_⟩
    · rw [hhigh, hmeantHigh, hhi]
    · rw [hlow, hmeantLow, hlo]
    · rw [hlow, hhigh] at hmissed
      exact absurd hc hmissed

theorem memWrite16_run {addr : Word} (haddr : addr ≠ 0xFFFF) (v : Word) (m : Machine F σ) :
    (memWrite16 addr v : CpuM F σ Unit).run m = .ok ((), { m with mem := meant m.mem addr v }) := by
  have hlt : addr.toNat + 1 < 0x10000 := by
    have hn : addr.toNat ≠ 65535 := fun he => haddr (BitVec.eq_of_toNat_eq he)
    have ha := addr.isLt
    omega
  have hapart : addr ≠ addr + 1#16 := by simp
  have hmeant : Function.update (Function.update m.mem addr (loByte v)) (addr + 1#16) (hiByte v) =
      meant m.mem addr v := by
    refine update_two_eq_iff.mpr ⟨?_, fun _ => ?_, fun c hlow hhigh => ?_⟩
    · rw [meant, if_neg hapart.symm, if_pos rfl]
    · rw [meant, if_pos rfl]
    · rw [meant, if_neg hlow, if_neg hhigh]
  rw [memWrite16, StateT.run_bind, setMem_run, ok_bind, if_pos hlt, setMem_run]
  simp only [hmeant]

theorem memWrite16_last (v : Word) (m : Machine F σ) :
    (memWrite16 0xFFFF v : CpuM F σ Unit).run m = .error .outOfBounds := rfl

section Stateless

variable {hf : HookFuns F σ} {p : PureHooks F} {m : Machine F σ} (h : Stateless hf p m.allMh)

include h

theorem writeBytes_run (addr v : Word) :
    (writeBytes hf addr v).run m = .ok ((), { m with mem := through p m.allMh m.mem addr v }) := by
  let low := translated p m.allMh addr
  let m₁ : Machine F σ := { m with mem := Function.update m.mem low (stored p m.allMh low (loByte v)) }
  have hlow : (memWrite hf addr (loByte v)).run m = .ok ((), m₁) := memWrite_stateless h addr (loByte v)
  rw [writeBytes, StateT.run_bind, hlow, ok_bind]
  exact memWrite_stateless (m := m₁) h (addr + 1#16) (hiByte v)

theorem same_iff (addr v : Word) :
    (memWrite16 addr v).run m = (writeBytes hf addr v).run m ↔ addr ≠ 0xFFFF ∧ HooksFit p m.allMh m.mem addr v := by
  rw [writeBytes_run h, ← through_eq_meant_iff]
  constructor
  · intro hsame
    have haddr : addr ≠ 0xFFFF := by
      rintro rfl
      rw [memWrite16_last] at hsame
      cases hsame
    rw [memWrite16_run haddr] at hsame
    exact ⟨haddr, (congrArg (fun r : Unit × Machine F σ => r.2.mem) (Except.ok.inj hsame)).symm⟩
  · rintro ⟨haddr, hfit⟩
    rw [memWrite16_run haddr, hfit]

theorem read_through {addr v : Word} (hapart : translated p m.allMh addr ≠ translated p m.allMh (addr + 1#16))
    (hfree : ∀ c ∈ [translated p m.allMh addr, translated p m.allMh (addr + 1#16)],
      check m.allMh .read c = none ∧ check m.allMh .write c = none) :
    let m' := { m with mem := through p m.allMh m.mem addr v }
    (memRead16 hf addr).run m' = .ok (v, m') := by
  intro m'
  have hlow : seen p m.allMh m'.mem addr = loByte v := by
    obtain ⟨hr, hw⟩ := hfree (translated p m.allMh addr) (by simp)
    rw [seen, hr]
    simp only [m', through, Function.update_of_ne hapart, Function.update_self, stored, hw]
  have hhigh : seen p m.allMh m'.mem (addr + 1#16) = hiByte v := by
    obtain ⟨hr, hw⟩ := hfree (translated p m.allMh (addr + 1#16)) (by simp)
    rw [seen, hr]
    simp only [m', through, Function.update_self, stored, hw]
  have hread : (memRead16 hf addr).run m' = .ok (wordAt (seen p m.allMh m'.mem) addr, m') :=
    memRead16_stateless (m := m') h addr
  rw [hread, wordAt, hlow, hhigh, wordOf_bytes]

/-- The 16-bit write knows no hooks and has no address behind the last one. -/
theorem writesBytes_iff (addr v : Word) :
    WritesBytes hf p m addr v ↔ addr ≠ 0xFFFF ∧ HooksFit p m.allMh m.mem addr v := by
  constructor
  · intro hw
    exact (same_iff h addr v).mp hw.same
  · intro hfit
    have hsame := (same_iff h addr v).mpr hfit
    refine ⟨hsame, fun hapart hfree => ?_⟩
    exact ⟨_, hsame.trans (writeBytes_run h addr v), read_through h hapart hfree⟩

end Stateless

def nibble : PureHooks Unit := ⟨fun _ _ => 0#8, fun _ _ v => v &&& 0x0F#8, fun _ a => a⟩

def nibbleFuns : HookFuns Unit Unit := nibble.funs

def wired : Machine Unit Unit where
  regPc := 0x200#16
  shortRegs := ⟨0, 0, 0, 0, 0⟩
  mem _ := 0x20#8
  regPcBranched := invalidAddress
  allMh := Function.update empty .write [⟨0x10#16, 0x12#16, some (), none⟩]
  ehFunV _ := none
  world := ()

theorem wired_stateless : Stateless nibbleFuns nibble wired.allMh :=
  nibble.stateless _

theorem writesBytes_wired : WritesBytes nibbleFuns nibble wired 0x10 0x0201 := by
  have hfit : HooksFit nibble wired.allMh wired.mem 0x10 0x0201 :=
    (hooksFit_untranslated fun _ _ => rfl).mpr ⟨by decide, by decide⟩
  exact (writesBytes_iff wired_stateless 0x10 0x0201).mpr ⟨by decide, hfit⟩

theorem write16_unwired :
    (memWrite16 0x10 0x3231).run wired ≠ (writeBytes nibbleFuns 0x10 0x3231).run wired := by
  have hdirect : ((memWrite16 0x10 0x3231 : CpuM Unit Unit Unit).run wired).map (fun r => r.2.mem 0x10) =
      .ok 0x31#8 := by decide +kernel
  have hbytes : ((writeBytes nibbleFuns 0x10 0x3231).run wired).map (fun r => r.2.mem 0x10) = .ok 0x01#8 := by
    decide +kernel
  intro h
  rw [h, hbytes] at hdirect
  exact absurd hdirect (by decide)

end Bugnes.WordWrites
