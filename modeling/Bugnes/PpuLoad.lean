import Bugnes.Loading
import Bugnes.Ppu

namespace Bugnes.PpuLoad

open Words Sfot Feeding Loading Ppu

/-- Bytes delivered at an index of `memory`. There are no cells but its own. -/
def readInto (start : Int) (bytes : List Byte) : PpuM Unit :=
  if bytes = [] ∨ 0 ≤ start ∧ start + bytes.length ≤ ppuSize.toNat then
    modify fun p => { p with memory := fun a => deliver start bytes (fun _ => p.memory a) a.toNat }
  else throw .outOfBounds

def ppuReadLoop : List ReadOutcome → Int → PpuM (Option Int)
  | [], _ => return none
  | outcome :: rest, bytesRead => do
      readInto bytesRead (outcome.getD [])
      let bytesRead := bytesRead + count outcome
      if bytesRead < 0 then return some (-1)
      else if (ppuSize.toNat : Int) - bytesRead ≠ 0 then ppuReadLoop rest bytesRead
      else return some bytesRead

/-- The count starts as whatever `bytes_read` has on the stack. Nothing is
returned while the read loop is not through. -/
def ppuLoad (fd : Int) (bytesRead : BitVec 32) (reads : List ReadOutcome) : PpuM (Option Int) :=
  if fd < 0 then return some (-1) else ppuReadLoop reads bytesRead.toInt

/-- `PPU_SIZE - bytes_read` as the `size_t` that `read` takes. -/
def request (bytesRead : Int) : Nat := (((ppuSize.toNat : Int) - bytesRead) % 2 ^ 64).toNat

def Returns (fd : Int) (bytesRead : BitVec 32) (reads : Nat → ReadOutcome) (p : PpuState) (r : Int) (p' : PpuState) :
    Prop :=
  ∃ n, (ppuLoad fd bytesRead (first reads n)).run p = .ok (some r, p')

/-- No call of `read` delivers more than it was asked for. -/
def Asked : Int → List ReadOutcome → Prop
  | _, [] => True
  | bytesRead, outcome :: rest =>
      (outcome.getD []).length ≤ request bytesRead ∧ Asked (bytesRead + count outcome) rest

def Filled (file : List Byte) (p p' : PpuState) : Prop :=
  p' = { p with memory := p'.memory } ∧ ∀ i < ppuSize.toNat, p'.memory (BitVec.ofNat 16 i) = file.getD i 0#8

section Pieces

variable {file bytes : List Byte} {reads : Nat → ReadOutcome}

theorem first_cons (reads : Nat → ReadOutcome) (n : Nat) :
    first reads (n + 1) = reads 0 :: first (fun k => reads (k + 1)) n := by
  rw [first, List.range_succ_eq_map, List.map_cons, List.map_map]
  rfl

theorem first_add (reads : Nat → ReadOutcome) (n k : Nat) :
    ∃ rest, first reads (n + k) = first reads n ++ rest := by
  rw [first, List.range_add, List.map_append]
  exact ⟨_, rfl⟩

theorem got_cons (h : reads 0 = some bytes) (n : Nat) :
    got reads (n + 1) = bytes ++ got (fun k => reads (k + 1)) n := by
  induction n with
  | zero => rw [got, got, got, h, Option.getD_some, List.nil_append, List.append_nil]
  | succ n ih => rw [got, ih, got, List.append_assoc]

theorem first_piece {k : Nat} (h : Delivers file k reads) :
    ∃ bytes rest, reads 0 = some bytes ∧ bytes ++ rest = file ∧ bytes.length ≤ k ∧
      (bytes = [] → k = 0 ∨ file.length = 0) := by
  obtain ⟨bytes, hread, ⟨rest, hfile⟩, hfits, hempty⟩ := h 0 (.inl rfl)
  rw [got, List.length_nil, List.drop_zero] at hfile
  rw [got, List.length_nil, Nat.zero_add] at hfits
  rw [got, List.length_nil, Nat.le_zero] at hempty
  exact ⟨bytes, rest, hread, hfile, hfits, hempty⟩

theorem delivers_tail {k : Nat} (h : Delivers file k reads) (hread : reads 0 = some bytes) (hmore : bytes.length < k) :
    Delivers (file.drop bytes.length) (k - bytes.length) fun n => reads (n + 1) := by
  intro n hn
  have hgot : (got reads (n + 1)).length = bytes.length + (got (fun n => reads (n + 1)) n).length := by
    rw [got_cons hread, List.length_append]
  have hasked : (got reads (n + 1)).length < k := by
    rcases hn with rfl | hn
    · rw [hgot]
      exact hmore
    · omega
  obtain ⟨next, hnext, hpart, hfits, hempty⟩ := h (n + 1) (.inr hasked)
  refine ⟨next, hnext, ?_, by omega, fun hnil => ?_⟩
  · rwa [List.drop_drop, ← hgot]
  · rw [List.length_drop]
    rcases hempty hnil with hk | heof
    · omega
    · exact .inr (by omega)

end Pieces

section Loop

variable {p p' : PpuState} {reads : List ReadOutcome} {bytesRead r : Int}

theorem readInto_run {start : Int} {bytes : List Byte} (hstart : 0 ≤ start)
    (hend : start + bytes.length ≤ ppuSize.toNat) (p : PpuState) :
    (readInto start bytes).run p =
      .ok ((), { p with memory := fun a => deliver start bytes (fun _ => p.memory a) a.toNat }) := by
  rw [readInto, if_pos (.inr ⟨hstart, hend⟩)]
  rfl

theorem ppuReadLoop_cons_run {outcome : ReadOutcome} (h : (readInto bytesRead (outcome.getD [])).run p = .ok ((), p')) :
    (ppuReadLoop (outcome :: reads) bytesRead).run p =
      (if bytesRead + count outcome < 0 then pure (some (-1))
        else if (ppuSize.toNat : Int) - (bytesRead + count outcome) ≠ 0 then
          ppuReadLoop reads (bytesRead + count outcome)
        else pure (some (bytesRead + count outcome)) : PpuM (Option Int)).run p' := by
  rw [ppuReadLoop, StateT.run_bind, h]
  rfl

theorem ppuReadLoop_append (h : (ppuReadLoop reads bytesRead).run p = .ok (some r, p')) (rest : List ReadOutcome) :
    (ppuReadLoop (reads ++ rest) bytesRead).run p = .ok (some r, p') := by
  induction reads generalizing bytesRead p with
  | nil => cases h
  | cons outcome reads ih =>
      rw [List.cons_append]
      cases hinto : (readInto bytesRead (outcome.getD [])).run p with
      | error e =>
          rw [ppuReadLoop, StateT.run_bind, hinto] at h
          cases h
      | ok s =>
          rw [ppuReadLoop_cons_run hinto] at h ⊢
          split_ifs at h ⊢
          · exact h
          · exact ih h
          · exact h

theorem readInto_ends (start : Int) (bytes : List Byte) (p : PpuState) :
    (readInto start bytes).run p = .error .outOfBounds ∨
      ∃ memory, (readInto start bytes).run p = .ok ((), { p with memory := memory }) := by
  rw [readInto]
  split_ifs
  · exact .inr ⟨_, rfl⟩
  · exact .inl rfl

theorem ppuReadLoop_ends (reads : List ReadOutcome) (bytesRead : Int) (p : PpuState) :
    (ppuReadLoop reads bytesRead).run p = .error .outOfBounds ∨
      ∃ r memory, (ppuReadLoop reads bytesRead).run p = .ok (r, { p with memory := memory }) := by
  induction reads generalizing bytesRead p with
  | nil => exact .inr ⟨none, p.memory, rfl⟩
  | cons outcome reads ih =>
      obtain hout | ⟨memory, hinto⟩ := readInto_ends bytesRead (outcome.getD []) p
      · rw [ppuReadLoop, StateT.run_bind, hout]
        exact .inl rfl
      · rw [ppuReadLoop_cons_run hinto]
        split_ifs
        · exact .inr ⟨_, memory, rfl⟩
        · exact ih _ { p with memory := memory }
        · exact .inr ⟨_, memory, rfl⟩

theorem ppuLoad_ends (fd : Int) (bytesRead : BitVec 32) (reads : List ReadOutcome) (p : PpuState) :
    (ppuLoad fd bytesRead reads).run p = .error .outOfBounds ∨
      ∃ r memory, (ppuLoad fd bytesRead reads).run p = .ok (r, { p with memory := memory }) := by
  rw [ppuLoad]
  split_ifs
  · exact .inr ⟨_, p.memory, rfl⟩
  · exact ppuReadLoop_ends reads _ p

theorem ppuReadLoop_within (hlow : 0 ≤ bytesRead) (hhigh : bytesRead ≤ ppuSize.toNat) (hreads : Asked bytesRead reads)
    (p : PpuState) : ∃ s, (ppuReadLoop reads bytesRead).run p = .ok s := by
  have hsize : ppuSize.toNat = 0x4000 := rfl
  induction reads generalizing bytesRead p with
  | nil => exact ⟨_, rfl⟩
  | cons outcome reads ih =>
      obtain ⟨hasked, hrest⟩ := hreads
      have hend : bytesRead + (outcome.getD []).length ≤ ppuSize.toNat := by
        rw [request] at hasked
        omega
      have hcount : count outcome ≤ (outcome.getD []).length := by cases outcome <;> simp [count]
      rw [ppuReadLoop_cons_run (readInto_run hlow hend p)]
      split_ifs with hneg
      · exact ⟨_, rfl⟩
      · exact ih (not_lt.mp hneg) (by omega) hrest _
      · exact ⟨_, rfl⟩

/-- A count that happens to be one of a cell keeps the load inside the memory. -/
theorem ppuLoad_within {fd : Int} {garbage : BitVec 32} (hlow : 0 ≤ garbage.toInt) (hhigh : garbage.toInt ≤ ppuSize.toNat)
    (hreads : Asked garbage.toInt reads) (p : PpuState) : ∃ s, (ppuLoad fd garbage reads).run p = .ok s := by
  rw [ppuLoad]
  split_ifs
  · exact ⟨_, rfl⟩
  · exact ppuReadLoop_within hlow hhigh hreads p

theorem ppuLoad_once {fd : Int} (hfd : 0 ≤ fd) {vrom : List Byte} (h : vrom.length = ppuSize.toNat) (p : PpuState) :
    (ppuLoad fd 0#32 [some vrom]).run p = .ok (some (ppuSize.toNat : Int), { p with
      memory := fun a => deliver 0 vrom (fun _ => p.memory a) a.toNat }) := by
  have hfits : (0 : Int) + vrom.length ≤ ppuSize.toNat := by omega
  rw [ppuLoad, if_neg (not_lt.mpr hfd), BitVec.toInt_zero, ppuReadLoop_cons_run (readInto_run le_rfl hfits p)]
  have hcount : (0 : Int) + count (some vrom) = ppuSize.toNat := by rw [count, h, Int.zero_add]
  rw [hcount, if_neg (by omega), if_neg (by omega)]
  rfl

theorem Returns.unique {fd : Int} {garbage : BitVec 32} {reads : Nat → ReadOutcome} {r' : Int} {p'' : PpuState}
    (hfd : 0 ≤ fd) (h : Returns fd garbage reads p r p') (h' : Returns fd garbage reads p r' p'') :
    r = r' ∧ p' = p'' := by
  obtain ⟨n, hrun⟩ := h
  obtain ⟨n', hrun'⟩ := h'
  rw [ppuLoad, if_neg (not_lt.mpr hfd)] at hrun hrun'
  obtain ⟨rest, hrest⟩ := first_add reads n n'
  obtain ⟨rest', hrest'⟩ := first_add reads n' n
  have hboth := ppuReadLoop_append hrun rest
  rw [← hrest, Nat.add_comm, hrest', ppuReadLoop_append hrun' rest'] at hboth
  cases hboth
  exact ⟨rfl, rfl⟩

end Loop

def filledFrom (b : Nat) (file : List Byte) (memory : Word → Byte) : Word → Byte := fun a =>
  if b ≤ a.toNat ∧ a.toNat < ppuSize.toNat then file.getD (a.toNat - b) 0#8 else memory a

theorem filledFrom_append {b : Nat} {bytes : List Byte} (hend : b + bytes.length ≤ ppuSize.toNat) (rest : List Byte)
    (memory : Word → Byte) :
    filledFrom (b + bytes.length) rest (fun a => deliver b bytes (fun _ => memory a) a.toNat) =
      filledFrom b (bytes ++ rest) memory := by
  funext a
  simp only [filledFrom, deliver]
  by_cases hbehind : b + bytes.length ≤ a.toNat ∧ a.toNat < ppuSize.toNat
  · have hindex : a.toNat - b - bytes.length = a.toNat - (b + bytes.length) := by omega
    rw [if_pos hbehind, if_pos (by omega), List.getD_append_right _ _ _ _ (by omega), hindex]
  · rw [if_neg hbehind]
    by_cases hpiece : b ≤ a.toNat ∧ a.toNat < b + bytes.length
    · have hindex : ((a.toNat : Int) - b).toNat = a.toNat - b := by omega
      rw [if_pos (by omega), if_pos (by omega), List.getD_append _ _ _ _ (by omega), hindex]
    · rw [if_neg (by omega), if_neg (by omega)]

theorem filledFrom_size (file : List Byte) (memory : Word → Byte) : filledFrom ppuSize.toNat file memory = memory := by
  funext a
  rw [filledFrom, if_neg (by omega)]

/-- From a count within the memory the loop comes to its end, with the file
from that cell on. -/
theorem ppuReadLoop_fills {k b : Nat} {file : List Byte} {reads : Nat → ReadOutcome} (hk : b + k = ppuSize.toNat)
    (h : Delivers file k reads) (hlong : k ≤ file.length) (p : PpuState) :
    ∃ n, (ppuReadLoop (first reads n) b).run p =
      .ok (some (ppuSize.toNat : Int), { p with memory := filledFrom b file p.memory }) := by
  induction k using Nat.strong_induction_on generalizing b file reads p with
  | _ k ih =>
      obtain ⟨bytes, rest, hread, rfl, hfits, hempty⟩ := first_piece h
      have hend : b + bytes.length ≤ ppuSize.toNat := by omega
      let p₁ : PpuState := { p with memory := fun a => deliver b bytes (fun _ => p.memory a) a.toNat }
      have hinto : (readInto b ((reads 0).getD [])).run p = .ok ((), p₁) := by
        rw [hread]
        exact readInto_run (by omega) (by exact_mod_cast hend) p
      have hcount : (b : Int) + count (reads 0) = ((b + bytes.length : Nat) : Int) := by rw [hread]; rfl
      have hnext : filledFrom (b + bytes.length) rest p₁.memory = filledFrom b (bytes ++ rest) p.memory :=
        filledFrom_append hend rest p.memory
      rcases Nat.eq_or_lt_of_le hfits with hlast | hmore
      · have hfull : b + bytes.length = ppuSize.toNat := by omega
        rw [hfull, filledFrom_size] at hnext
        refine ⟨1, ?_⟩
        rw [first_cons, ppuReadLoop_cons_run hinto, hcount, if_neg (by omega), if_neg (by omega), ← hnext, hfull]
        rfl
      · have hpos : 0 < bytes.length := by
          refine List.length_pos_iff.mpr fun hnil => ?_
          rcases hempty hnil with hzero | hzero <;> omega
        have hlong' : k - bytes.length ≤ rest.length := by
          rw [List.length_append] at hlong
          omega
        have htail := delivers_tail h hread hmore
        rw [List.drop_left] at htail
        obtain ⟨n, hrun⟩ := ih (k - bytes.length) (by omega) (b := b + bytes.length) (by omega) htail hlong' p₁
        refine ⟨n + 1, ?_⟩
        rw [first_cons, ppuReadLoop_cons_run hinto, hcount, if_neg (by omega), if_pos (by omega), hrun, hnext]

section Load

variable {fd : Int} {garbage : BitVec 32} {file : List Byte} {reads : Nat → ReadOutcome}
  (hfd : 0 ≤ fd) (hlong : ppuSize.toNat ≤ file.length) (h : Delivers file (request garbage.toInt) reads)

include hfd hlong h

theorem returns_within (hlow : 0 ≤ garbage.toInt) (hhigh : garbage.toInt ≤ ppuSize.toNat) (p : PpuState) :
    Returns fd garbage reads p ppuSize.toNat
      { p with memory := filledFrom garbage.toInt.toNat file p.memory } := by
  have hsize : ppuSize.toNat = 0x4000 := rfl
  obtain ⟨b, hb⟩ := Int.eq_ofNat_of_zero_le hlow
  rw [hb] at h hhigh
  have hrequest : request b = ppuSize.toNat - b := by
    rw [request]
    omega
  rw [hrequest] at h
  obtain ⟨n, hrun⟩ := ppuReadLoop_fills (b := b) (by omega) h (by omega) p
  refine ⟨n, ?_⟩
  rw [ppuLoad, if_neg (not_lt.mpr hfd), hb, hrun]
  rfl

theorem not_returns_outside (hout : ¬(0 ≤ garbage.toInt ∧ garbage.toInt ≤ ppuSize.toNat)) {p p' : PpuState} {r : Int} :
    ¬Returns fd garbage reads p r p' := by
  have hsize : ppuSize.toNat = 0x4000 := rfl
  have hleast := BitVec.le_toInt garbage
  have hmost := BitVec.toInt_lt (x := garbage)
  have hrequest : request garbage.toInt ≠ 0 := by
    rw [request]
    omega
  obtain ⟨bytes, rest, hread, -, -, hempty⟩ := first_piece h
  have hbytes : bytes ≠ [] := by
    intro hnil
    rcases hempty hnil with h₀ | heof
    · exact hrequest h₀
    · omega
  have hinto : (readInto garbage.toInt ((reads 0).getD [])).run p = .error .outOfBounds := by
    rw [hread, Option.getD_some, readInto, if_neg]
    · rfl
    · rintro (hnil | ⟨hstart, hend⟩)
      · exact hbytes hnil
      · omega
  rintro ⟨n, hrun⟩
  rw [ppuLoad, if_neg (not_lt.mpr hfd)] at hrun
  cases n with
  | zero => cases hrun
  | succ n =>
      rw [first_cons, ppuReadLoop, StateT.run_bind, hinto] at hrun
      cases hrun

theorem filled_within_iff (hlow : 0 ≤ garbage.toInt) (hhigh : garbage.toInt ≤ ppuSize.toNat) (p : PpuState) :
    (∃ p', Returns fd garbage reads p ppuSize.toNat p' ∧ Filled file p p') ↔
      Filled file p { p with memory := filledFrom garbage.toInt.toNat file p.memory } := by
  have hreturns := returns_within hfd hlong h hlow hhigh p
  constructor
  · rintro ⟨p', hp', hfilled⟩
    obtain ⟨-, rfl⟩ := hp'.unique hfd hreturns
    exact hfilled
  · intro hfilled
    exact ⟨_, hreturns, hfilled⟩

/-- Nothing sets the count. The load is right where the bytes it leaves out and
the shift of the others do not show, as they never do for a count of zero. -/
theorem load_fills_iff (p : PpuState) :
    (∃ p', Returns fd garbage reads p ppuSize.toNat p' ∧ Filled file p p') ↔
      0 ≤ garbage.toInt ∧ garbage.toInt ≤ ppuSize.toNat ∧ ∀ i < ppuSize.toNat,
        (if garbage.toInt ≤ i then file.getD (i - garbage.toInt.toNat) 0#8 else p.memory (BitVec.ofNat 16 i)) =
          file.getD i 0#8 := by
  by_cases hin : 0 ≤ garbage.toInt ∧ garbage.toInt ≤ ppuSize.toNat
  · obtain ⟨hlow, hhigh⟩ := hin
    have hcell (i : Nat) (hi : i < ppuSize.toNat) :
        filledFrom garbage.toInt.toNat file p.memory (BitVec.ofNat 16 i) =
          if garbage.toInt ≤ i then file.getD (i - garbage.toInt.toNat) 0#8 else p.memory (BitVec.ofNat 16 i) := by
      have hlt : i < 2 ^ 16 := hi.trans ppuSize.isLt
      rw [filledFrom, BitVec.toNat_ofNat, Nat.mod_eq_of_lt hlt]
      by_cases hle : garbage.toInt ≤ i
      · rw [if_pos hle, if_pos ⟨by omega, hi⟩]
      · rw [if_neg hle, if_neg (by omega)]
    rw [filled_within_iff hfd hlong h hlow hhigh]
    constructor
    · rintro ⟨-, hfilled⟩
      exact ⟨hlow, hhigh, fun i hi => (hcell i hi).symm.trans (hfilled i hi)⟩
    · rintro ⟨-, -, hsame⟩
      exact ⟨rfl, fun i hi => (hcell i hi).trans (hsame i hi)⟩
  · refine iff_of_false ?_ fun hin' => hin ⟨hin'.1, hin'.2.1⟩
    rintro ⟨p', hp', -⟩
    exact not_returns_outside hfd hlong h hin hp'

end Load

def rom : List Byte := List.replicate 0x4000 7

theorem rom_length : rom.length = ppuSize.toNat := List.length_replicate ..

theorem delivers_rom : Delivers rom (request (0 : BitVec 32).toInt) (atOnce rom) := delivers_atOnce rom_length.le

theorem load_fills_rom :
    (∃ p', Returns 3 0 (atOnce rom) (powerUp fun _ => 0) ppuSize.toNat p' ∧ Filled rom (powerUp fun _ => 0) p') ↔
      0 ≤ (0 : BitVec 32).toInt ∧ (0 : BitVec 32).toInt ≤ ppuSize.toNat ∧ ∀ i < ppuSize.toNat,
        (if (0 : BitVec 32).toInt ≤ i then rom.getD (i - (0 : BitVec 32).toInt.toNat) 0#8 else 0) =
          rom.getD i 0#8 :=
  load_fills_iff (by decide) rom_length.ge delivers_rom (powerUp fun _ => 0)

theorem load_nothing :
    Delivers rom (request (0x4000 : BitVec 32).toInt) (fun _ => some []) ∧
      ¬∃ p', Returns 3 0x4000 (fun _ => some []) (powerUp fun _ => 0) ppuSize.toNat p' ∧
        Filled rom (powerUp fun _ => 0) p' := by
  have hgot (n : Nat) : got (fun _ => some []) n = [] := by
    induction n with
    | zero => rfl
    | succ n ih => rw [got, ih]; rfl
  have hdelivers : Delivers rom (request (0x4000 : BitVec 32).toInt) fun _ => some [] := by
    intro n _
    rw [hgot]
    exact ⟨[], rfl, List.nil_prefix, Nat.zero_le _, fun _ => .inl (by decide)⟩
  refine ⟨hdelivers, ?_⟩
  rw [filled_within_iff (by decide) rom_length.ge hdelivers (by decide) (by decide)]
  rintro ⟨-, hfilled⟩
  exact absurd (hfilled 0 (by decide)) (by decide)

end Bugnes.PpuLoad
