import Mathlib.Data.List.GetD
import Bugnes.Feeding
import Bugnes.PlainRuns
import Bugnes.Rounds
import Bugnes.Sfot

namespace Bugnes.Loading

open Words CpuCore PlainRuns Sfot Feeding Rounds

variable {F σ : Type} {hf : HookFuns F σ} {m : Machine F σ} {offset len : Word} {garbage : Int → Byte}

/-- What a call of `read` adds to the count of bytes: an error counts as less than none. -/
def count : ReadOutcome → Int
  | some bytes => bytes.length
  | none => -1

def readStep (offset : Word) (s : Int × (Int → Byte)) (outcome : ReadOutcome) : Int × (Int → Byte) :=
  (s.1 + count outcome, match outcome with
    | some bytes => deliver (offset.toNat + s.1) bytes s.2
    | none => s.2)

def readStop (len : Word) (s : Int × (Int → Byte)) : Option (Int × (Int → Byte)) :=
  if s.1 < 0 then some (-1, s.2) else if (len.toNat : Int) - s.1 ≠ 0 then none else some s

theorem readLoop_cons (outcome : ReadOutcome) (rest : List ReadOutcome) (bytesRead : Int) (buf : Int → Byte) :
    let s := readStep offset (bytesRead, buf) outcome
    readLoop offset len (outcome :: rest) bytesRead buf =
      if s.1 < 0 then some (-1, s.2)
      else if (len.toNat : Int) - s.1 ≠ 0 then readLoop offset len rest s.1 s.2 else some s := by
  cases outcome <;> rfl

theorem readLoop_eq_feed (reads : List ReadOutcome) (bytesRead : Int) (buf : Int → Byte) :
    readLoop offset len reads bytesRead buf = feed (readStep offset) (readStop len) reads (bytesRead, buf) := by
  induction reads generalizing bytesRead buf with
  | nil => rfl
  | cons outcome rest ih =>
      rw [readLoop_cons, feed, readStop]
      by_cases hneg : (readStep offset (bytesRead, buf) outcome).1 < 0
      · simp only [if_pos hneg]
      · by_cases hleft : (len.toNat : Int) - (readStep offset (bytesRead, buf) outcome).1 ≠ 0
        · simp only [if_neg hneg, if_pos hleft]
          exact ih _ _
        · simp only [if_neg hneg, if_neg hleft]

theorem readStop_some {s r : Int × (Int → Byte)} (h : readStop len s = some r) :
    s.1 < 0 ∧ r = (-1, s.2) ∨ s.1 = len.toNat ∧ r = ((len.toNat : Int), s.2) := by
  rw [readStop] at h
  split_ifs at h with hneg hleft
  · exact .inl ⟨hneg, (Option.some.inj h).symm⟩
  · have hlen : s.1 = len.toNat := by omega
    exact .inr ⟨hlen, by rw [← hlen]; exact (Option.some.inj h).symm⟩

theorem readStop_none {s : Int × (Int → Byte)} : readStop len s = none ↔ 0 ≤ s.1 ∧ s.1 ≠ len.toNat := by
  rw [readStop]
  split_ifs with hneg hleft
  · exact iff_of_false nofun fun h => absurd hneg (not_lt_of_ge h.1)
  · exact iff_of_true rfl ⟨not_lt.mp hneg, by omega⟩
  · exact iff_of_false nofun fun h => h.2 (by omega)

theorem readLoop_value {reads : List ReadOutcome} {bytesRead : Int} {buf : Int → Byte} {r : Int × (Int → Byte)}
    (h : readLoop offset len reads bytesRead buf = some r) :
    (∃ buf, r = (-1, buf)) ∨ ∃ buf, r = ((len.toNat : Int), buf) := by
  induction reads generalizing bytesRead buf with
  | nil => cases h
  | cons outcome rest ih =>
      rw [readLoop_eq_feed, feed] at h
      cases hstop : readStop len (readStep offset (bytesRead, buf) outcome) with
      | none =>
          rw [hstop] at h
          exact ih ((readLoop_eq_feed ..).trans h)
      | some r' =>
          rw [hstop] at h
          cases h
          rcases readStop_some hstop with ⟨-, hr⟩ | ⟨-, hr⟩
          · exact .inl ⟨_, hr⟩
          · exact .inr ⟨_, hr⟩

section Load

variable {fd : Int} (hfd : 0 ≤ fd) (hsize : offset.toNat + len.toNat ≤ 0x10000) {reads : List ReadOutcome}
  {buf : Int → Byte}

include hfd hsize

theorem sfotLoad_none (h : readLoop offset len reads 0 garbage = none) :
    (sfotLoad hf fd offset len garbage reads).run m = .ok (none, m) := by
  rw [sfotLoad, if_neg (not_lt.mpr hfd), if_neg (not_lt.mpr hsize), h]
  rfl

theorem sfotLoad_gaveUp (h : readLoop offset len reads 0 garbage = some (-1, buf)) :
    (sfotLoad hf fd offset len garbage reads).run m = .ok (some (-1), m) := by
  rw [sfotLoad, if_neg (not_lt.mpr hfd), if_neg (not_lt.mpr hsize), h]
  rfl

theorem sfotLoad_done (h : readLoop offset len reads 0 garbage = some ((len.toNat : Int), buf)) :
    (sfotLoad hf fd offset len garbage reads).run m =
      ((writeAll hf offset len buf).run m).map fun r => (some (len.toNat : Int), r.2) := by
  have hpos : ¬(len.toNat : Int) < 0 := by omega
  rw [sfotLoad, if_neg (not_lt.mpr hfd), if_neg (not_lt.mpr hsize), h]
  simp only [if_neg hpos, StateT.run_bind]
  cases hw : (writeAll hf offset len buf).run m with
  | error e => rfl
  | ok r =>
      rw [ok_bind, require_run rfl, ok_bind]
      rfl

end Load

def copied (offset : Word) (n : Nat) (buf : Int → Byte) (mem : Word → Byte) : Word → Byte := fun a =>
  if (a - offset).toNat < n then buf ((offset.toNat + (a - offset).toNat : Nat) : Int) else mem a

section Copied

variable {n : Nat} {buf : Int → Byte} {mem : Word → Byte}

theorem copied_at {i : Nat} (hi : i < n) (hn : n ≤ 2 ^ 16) :
    copied offset n buf mem (offset + BitVec.ofNat 16 i) = buf ((offset.toNat + i : Nat) : Int) := by
  have hindex : (offset + BitVec.ofNat 16 i - offset).toNat = i := by
    rw [BitVec.add_comm, BitVec.add_sub_cancel, BitVec.toNat_ofNat, Nat.mod_eq_of_lt (hi.trans_le hn)]
  rw [copied, hindex, if_pos hi]

theorem copied_other {a : Word} (h : ∀ i < n, a ≠ offset + BitVec.ofNat 16 i) : copied offset n buf mem a = mem a := by
  refine if_neg fun hlt => h _ hlt ?_
  rw [BitVec.ofNat_toNat, BitVec.setWidth_eq, BitVec.add_comm, BitVec.sub_add_cancel]

theorem copied_succ (hn : n < 2 ^ 16) :
    Function.update (copied offset n buf mem) (offset + BitVec.ofNat 16 n) (buf ((offset.toNat + n : Nat) : Int)) =
      copied offset (n + 1) buf mem := by
  funext a
  by_cases ha : a = offset + BitVec.ofNat 16 n
  · rw [ha, Function.update_self, copied_at (Nat.lt_succ_self n) hn]
  · rw [Function.update_of_ne ha, copied, copied]
    have hindex : (a - offset).toNat ≠ n := by
      rintro rfl
      exact ha (by rw [BitVec.ofNat_toNat, BitVec.setWidth_eq, BitVec.add_comm, BitVec.sub_add_cancel])
    exact if_congr (by omega) rfl rfl

end Copied

theorem writeAll_eq (hf : HookFuns F σ) (hm : ∀ a, HookFreeAt m.allMh a) (offset len : Word) (buf : Int → Byte) :
    (writeAll hf offset len buf).run m = .ok ((), { m with mem := copied offset len.toNat buf m.mem }) := by
  have hstep : ∀ i < len.toNat, ∀ t, t = { m with mem := copied offset i buf m.mem } →
      ∃ t', (memWrite hf (offset + BitVec.ofNat 16 i) (buf ((offset.toNat + i : Nat) : Int))).run t = .ok ((), t') ∧
        t' = { m with mem := copied offset (i + 1) buf m.mem } := by
    rintro i hi t rfl
    refine ⟨_, memWrite_run (m := { m with mem := copied offset i buf m.mem }) hf (hm _) _, ?_⟩
    rw [copied_succ (hi.trans len.isLt)]
  have hstart : m = { m with mem := copied offset 0 buf m.mem } := rfl
  obtain ⟨t, hrun, rfl⟩ :=
    forM_range (P := fun i t => t = { m with mem := copied offset i buf m.mem }) hstart hstep
  exact hrun

theorem deliver_at {bytes : List Byte} {i : Nat} (h : i < bytes.length) (start : Int) (buf : Int → Byte) :
    deliver start bytes buf (start + i) = bytes.getD i 0#8 := by
  have hi : start ≤ start + i ∧ start + i < start + bytes.length := by omega
  have hindex : (start + i - start).toNat = i := by omega
  rw [deliver, if_pos hi, hindex]

def withFile (offset : Word) (file : List Byte) (mem : Word → Byte) : Word → Byte := fun a =>
  file.getD (a - offset).toNat (mem a)

theorem withFile_map_range (offset : Word) (n : Nat) (byte : Nat → Byte) (mem : Word → Byte) :
    withFile offset ((List.range n).map byte) mem =
      fun a => if (a - offset).toNat < n then byte (a - offset).toNat else mem a := by
  funext a
  rw [withFile, List.getD_eq_getElem?_getD, List.getElem?_map]
  split_ifs with ha
  · rw [List.getElem?_range ha]
    rfl
  · rw [List.getElem?_eq_none (by rwa [List.length_range, ← not_lt])]
    rfl

theorem copied_deliver (offset : Word) (file : List Byte) (buf : Int → Byte) (mem : Word → Byte) :
    copied offset file.length (deliver offset.toNat file buf) mem = withFile offset file mem := by
  funext a
  rw [copied, withFile]
  split_ifs with ha
  · rw [Nat.cast_add, deliver_at ha, List.getD_eq_getElem _ _ ha, List.getD_eq_getElem _ _ ha]
  · rw [List.getD_eq_default _ _ (not_lt.mp ha)]

theorem writeAll_run (hf : HookFuns F σ) (hm : ∀ a, HookFreeAt m.allMh a) (offset len : Word) (buf : Int → Byte) :
    ∃ mem, (writeAll hf offset len buf).run m = .ok ((), { m with mem := mem }) ∧
      (∀ i < len.toNat, mem (offset + BitVec.ofNat 16 i) = buf ((offset.toNat + i : Nat) : Int)) ∧
      ∀ a, (∀ i < len.toNat, a ≠ offset + BitVec.ofNat 16 i) → mem a = m.mem a :=
  ⟨_, writeAll_eq hf hm offset len buf, fun _ hi => copied_at hi len.isLt.le, fun _ ha => copied_other ha⟩

theorem sfotLoad_once (hf : HookFuns F σ) (hm : ∀ a, HookFreeAt m.allMh a) {fd : Int} (hfd : 0 ≤ fd)
    (hsize : offset.toNat + len.toNat ≤ 0x10000) {file : List Byte} (h : file.length = len.toNat)
    (garbage : Int → Byte) :
    (sfotLoad hf fd offset len garbage [some file]).run m =
      .ok (some (len.toNat : Int), { m with mem := withFile offset file m.mem }) := by
  have hloop : readLoop offset len [some file] 0 garbage =
      some ((len.toNat : Int), deliver (offset.toNat + 0) file garbage) := by
    simp [readLoop, h]
  rw [sfotLoad_done hfd hsize hloop, writeAll_eq hf hm, Int.add_zero, ← h, copied_deliver]
  rfl

theorem sfotLoad_hookFree (hf : HookFuns F σ) (hm : ∀ a, HookFreeAt m.allMh a) (fd : Int) (offset len : Word)
    (garbage : Int → Byte) (reads : List ReadOutcome) :
    ∃ code mem, (sfotLoad hf fd offset len garbage reads).run m = .ok (code, { m with mem := mem }) ∧
      ∀ a, (∀ i < len.toNat, a ≠ offset + BitVec.ofNat 16 i) → mem a = m.mem a := by
  have hkept (code : Option Int) (h : (sfotLoad hf fd offset len garbage reads).run m = .ok (code, m)) :
      ∃ code mem, (sfotLoad hf fd offset len garbage reads).run m = .ok (code, { m with mem := mem }) ∧
        ∀ a, (∀ i < len.toNat, a ≠ offset + BitVec.ofNat 16 i) → mem a = m.mem a :=
    ⟨code, m.mem, h, fun _ _ => rfl⟩
  by_cases hfd : fd < 0
  · exact hkept (some (-1)) (by rw [sfotLoad, if_pos hfd]; rfl)
  by_cases hsize : offset.toNat + len.toNat ≤ 0x10000
  · cases hloop : readLoop offset len reads 0 garbage with
    | none => exact hkept none (sfotLoad_none (not_lt.mp hfd) hsize hloop)
    | some r =>
        rcases readLoop_value hloop with ⟨buf, rfl⟩ | ⟨buf, rfl⟩
        · exact hkept (some (-1)) (sfotLoad_gaveUp (not_lt.mp hfd) hsize hloop)
        · refine ⟨some (len.toNat : Int), copied offset len.toNat buf m.mem, ?_, fun a ha => copied_other ha⟩
          rw [sfotLoad_done (not_lt.mp hfd) hsize hloop, writeAll_eq hf hm]
          rfl
  · exact hkept (some (-1)) (by rw [sfotLoad, if_neg hfd, if_pos (not_le.mp hsize)]; rfl)

def Loads (hf : HookFuns F σ) (fd : Int) (offset len : Word) (garbage : Int → Byte) (reads : Nat → ReadOutcome)
    (m : Machine F σ) (r : Int) (m' : Machine F σ) : Prop :=
  ∃ n, (sfotLoad hf fd offset len garbage (first reads n)).run m = .ok (some r, m')

section Determinism

variable {fd : Int} {reads : Nat → ReadOutcome} {r r' : Int} {m' m'' : Machine F σ}

theorem sfotLoad_mono {n n' : Nat}
    (h : (sfotLoad hf fd offset len garbage (first reads n)).run m = .ok (some r, m')) (hn : n ≤ n') :
    (sfotLoad hf fd offset len garbage (first reads n')).run m = .ok (some r, m') := by
  rw [sfotLoad] at h ⊢
  split_ifs at h ⊢ with hfd hsize
  · exact h
  · exact h
  · cases hloop : readLoop offset len (first reads n) 0 garbage with
    | none =>
        rw [hloop] at h
        cases h
    | some s =>
        have hloop' : readLoop offset len (first reads n') 0 garbage = some s := by
          rw [readLoop_eq_feed] at hloop ⊢
          exact feed_first_mono hloop hn
        rw [hloop']
        rwa [hloop] at h

theorem Loads.unique (h : Loads hf fd offset len garbage reads m r m')
    (h' : Loads hf fd offset len garbage reads m r' m'') : r = r' ∧ m' = m'' := by
  obtain ⟨n, hrun⟩ := h
  obtain ⟨n', hrun'⟩ := h'
  have hmax := sfotLoad_mono hrun (le_max_left n n')
  rw [sfotLoad_mono hrun' (le_max_right n n')] at hmax
  cases hmax
  exact ⟨rfl, rfl⟩

end Determinism

section Failures

/-- The bytes that the first calls of `read` delivered, less those that failed. -/
def balance (reads : Nat → ReadOutcome) : Nat → Int
  | 0 => 0
  | n + 1 => balance reads n + count (reads n)

/-- The failures come to outnumber the bytes, and up to there the difference
never is just what was asked for. -/
def Overdrawn (len : Word) (reads : Nat → ReadOutcome) : Prop :=
  ∃ n, balance reads (n + 1) < 0 ∧ ∀ k < n, balance reads (k + 1) ≠ len.toNat

variable {reads : Nat → ReadOutcome}

theorem after_fst (offset : Word) (garbage : Int → Byte) (reads : Nat → ReadOutcome) (n : Nat) :
    (after (readStep offset) reads (0, garbage) n).1 = balance reads n := by
  induction n with
  | zero => rfl
  | succ n ih => exact congrArg (· + count (reads n)) ih

theorem readLoop_gives_up_iff (offset : Word) (garbage : Int → Byte) :
    (∃ n buf, readLoop offset len (first reads n) 0 garbage = some (-1, buf)) ↔ Overdrawn len reads := by
  simp only [readLoop_eq_feed, feed_first_some]
  constructor
  · rintro ⟨n, buf, k, -, hstop, hbefore⟩
    rcases readStop_some hstop with ⟨hneg, -⟩ | ⟨-, hr⟩
    · refine ⟨k, after_fst offset garbage reads (k + 1) ▸ hneg, fun j hj => ?_⟩
      exact after_fst offset garbage reads (j + 1) ▸ (readStop_none.mp (hbefore j hj)).2
    · have hlen : (-1 : Int) = len.toNat := congrArg Prod.fst hr
      omega
  · rintro ⟨n, hneg, hbefore⟩
    -- the first call after which the failures outnumber the bytes
    have hex : ∃ k, balance reads (k + 1) < 0 := ⟨n, hneg⟩
    have hfirst : Nat.find hex ≤ n := Nat.find_min' hex hneg
    refine ⟨Nat.find hex + 1, (after (readStep offset) reads (0, garbage) (Nat.find hex + 1)).2, Nat.find hex,
      Nat.lt_succ_self _, ?_, fun j hj => ?_⟩
    · rw [readStop, if_pos (by rw [after_fst]; exact Nat.find_spec hex)]
    · rw [readStop_none, after_fst]
      exact ⟨not_lt.mp (Nat.find_min hex hj), hbefore j (lt_of_lt_of_le hj hfirst)⟩

theorem loads_gaveUp_iff {fd : Int} (hfd : 0 ≤ fd) (hsize : offset.toNat + len.toNat ≤ 0x10000) {m' : Machine F σ} :
    Loads hf fd offset len garbage reads m (-1) m' ↔ m' = m ∧ Overdrawn len reads := by
  rw [← readLoop_gives_up_iff offset garbage]
  constructor
  · rintro ⟨n, hrun⟩
    cases hloop : readLoop offset len (first reads n) 0 garbage with
    | none =>
        rw [sfotLoad_none hfd hsize hloop] at hrun
        cases hrun
    | some r =>
        rcases readLoop_value hloop with ⟨buf, rfl⟩ | ⟨buf, rfl⟩
        · rw [sfotLoad_gaveUp hfd hsize hloop] at hrun
          cases hrun
          exact ⟨rfl, n, buf, hloop⟩
        · rw [sfotLoad_done hfd hsize hloop] at hrun
          cases hw : (writeAll hf offset len buf).run m with
          | error e =>
              rw [hw] at hrun
              cases hrun
          | ok w =>
              rw [hw] at hrun
              have hr : some (len.toNat : Int) = some (-1) := congrArg Prod.fst (Except.ok.inj hrun)
              have hlen : (len.toNat : Int) = -1 := Option.some.inj hr
              omega
  · rintro ⟨rfl, n, buf, hloop⟩
    exact ⟨n, sfotLoad_gaveUp hfd hsize hloop⟩

theorem loads_badFd {fd : Int} (hfd : fd < 0) (reads : Nat → ReadOutcome) :
    Loads hf fd offset len garbage reads m (-1) m := by
  refine ⟨0, ?_⟩
  rw [sfotLoad, if_pos hfd]
  rfl

/-- An error of `read` is not always one of the load: it takes one byte off the
count, and only where none is left does the load give up. -/
theorem load_atomic_iff (hf : HookFuns F σ) (m : Machine F σ) (fd : Int) {offset len : Word}
    (hsize : offset.toNat + len.toNat ≤ 0x10000) (garbage : Int → Byte) (reads : Nat → ReadOutcome) :
    (∃ m', Loads hf fd offset len garbage reads m (-1) m' ∧ m'.mem = m.mem) ↔ fd < 0 ∨ Overdrawn len reads := by
  by_cases hfd : fd < 0
  · exact iff_of_true ⟨m, loads_badFd hfd reads, rfl⟩ (.inl hfd)
  · simp only [loads_gaveUp_iff (not_lt.mp hfd) hsize, hfd, false_or]
    constructor
    · rintro ⟨m', ⟨-, h⟩, -⟩
      exact h
    · intro h
      exact ⟨m, ⟨rfl, h⟩, rfl⟩

def got (reads : Nat → ReadOutcome) : Nat → List Byte
  | 0 => []
  | n + 1 => got reads n ++ (reads n).getD []

def Fitting (len : Word) (reads : Nat → ReadOutcome) : Prop :=
  ∀ n, ∀ bytes ∈ reads n, balance reads n + bytes.length ≤ len.toNat

theorem load_atomic_iff_first :
    (∃ m', Loads noHooks 3 0 2 (fun _ => 0) (fun _ => none) (bare 0 ⟨0, 0, 0, 0, 0⟩ fun _ => 0) (-1) m' ∧
        m'.mem = fun _ => 0) ↔
      (3 : Int) < 0 ∨ Overdrawn 2 fun _ => none :=
  load_atomic_iff noHooks (bare 0 ⟨0, 0, 0, 0, 0⟩ fun _ => 0) 3 (by decide) (fun _ => 0) fun _ => none

def interrupted (n : Nat) : ReadOutcome := [some [1], none, some [2, 3]].getD n (some [])

theorem balance_interrupted (n : Nat) : balance interrupted (n + 3) = 2 := by
  induction n with
  | zero => decide
  | succ n ih =>
      rw [balance, ih]
      rfl

theorem fitting_interrupted : Fitting 2 interrupted := by
  intro n bytes h
  match n with
  | 0 => cases h; decide
  | 1 => cases h
  | 2 => cases h; decide
  | n + 3 =>
      cases h
      rw [balance_interrupted]
      decide

theorem load_goes_on :
    ¬∀ (m : Machine Empty Unit) (offset len : Word), offset.toNat + len.toNat ≤ 0x10000 →
      ∀ reads : Nat → ReadOutcome, Fitting len reads → (∃ k, reads k = none ∧ (got reads k).length < len.toNat) →
        ∃ m', Loads noHooks 3 offset len (fun _ => 0) reads m (-1) m' ∧ m'.mem = m.mem := by
  intro hall
  obtain ⟨m', hloads, -⟩ := hall (bare 0 ⟨0, 0, 0, 0, 0⟩ fun _ => 0) 0 2 (by decide) interrupted fitting_interrupted
    ⟨1, rfl, by decide⟩
  obtain ⟨-, n, hneg, -⟩ := (loads_gaveUp_iff (by decide) (by decide)).mp hloads
  match n with
  | 0 | 1 => exact absurd hneg (by decide)
  | n + 2 => rw [balance_interrupted] at hneg; exact absurd hneg (by decide)

end Failures

section Files

/-- The calls of `read` deliver a file in pieces no longer than asked for, none
of them empty before its end, as long as there is something left to ask for. -/
def Delivers (file : List Byte) (len : Nat) (reads : Nat → ReadOutcome) : Prop :=
  ∀ n, n = 0 ∨ (got reads n).length < len →
    ∃ bytes, reads n = some bytes ∧ bytes <+: file.drop (got reads n).length ∧
      (got reads n).length + bytes.length ≤ len ∧ (bytes = [] → len = 0 ∨ file.length ≤ (got reads n).length)

/-- The state of the read loop with the first part of a file in the buffer. -/
structure Holds (file : List Byte) (offset : Word) (reads : Nat → ReadOutcome) (n : Nat) (s : Int × (Int → Byte)) :
    Prop where
  count : s.1 = (got reads n).length
  part : got reads n <+: file
  bytes : ∀ i < (got reads n).length, s.2 ((offset.toNat + i : Nat) : Int) = file.getD i 0#8

variable {file : List Byte} {reads : Nat → ReadOutcome} {n : Nat} {s : Int × (Int → Byte)}

theorem holds_start : Holds file offset reads 0 (0, garbage) :=
  ⟨rfl, List.nil_prefix, fun i hi => absurd hi (Nat.not_lt_zero i)⟩

theorem Holds.step (h : Holds file offset reads n s) {bytes : List Byte} (hread : reads n = some bytes)
    (hpart : bytes <+: file.drop (got reads n).length) :
    Holds file offset reads (n + 1) (readStep offset s (reads n)) := by
  have hgot : got reads (n + 1) = got reads n ++ bytes := by rw [got, hread, Option.getD_some]
  have hpart' : got reads n ++ bytes <+: file := by
    obtain ⟨rest, rfl⟩ := h.part
    rw [List.drop_left] at hpart
    exact (List.prefix_append_right_inj _).mpr hpart
  refine ⟨?_, hgot ▸ hpart', fun i hi => ?_⟩
  · rw [hread, hgot, List.length_append, readStep, h.count]
    rfl
  · rw [hgot, List.length_append] at hi
    have hstep : (readStep offset s (reads n)).2 = deliver (offset.toNat + s.1) bytes s.2 := by rw [hread]; rfl
    rw [hstep, h.count, deliver]
    by_cases hold : i < (got reads n).length
    · rw [if_neg (by omega), h.bytes i hold]
    · have hindex : (((offset.toNat + i : Nat) : Int) - (offset.toNat + (got reads n).length : Int)).toNat =
          i - (got reads n).length := by omega
      rw [if_pos (by omega), hindex]
      obtain ⟨rest, hrest⟩ := hpart'
      rw [← hrest, List.append_assoc, List.getD_append_right _ _ _ _ (not_lt.mp hold),
        List.getD_append _ _ _ _ (by omega)]

/-- A file that is too short leaves the loop reading nothing for ever. -/
theorem readLoop_short (h : Delivers file len.toNat reads) (hshort : file.length < len.toNat) (n : Nat) :
    readLoop offset len (first reads n) 0 garbage = none := by
  rw [readLoop_eq_feed]
  refine feed_never (P := Holds file offset reads) holds_start (fun n t ht => ?_) n
  have hlen := ht.part.length_le
  obtain ⟨bytes, hread, hpart, -⟩ := h n (.inr (by omega))
  have hnext := ht.step hread hpart
  have hlen' := hnext.part.length_le
  have hcount := hnext.count
  exact ⟨readStop_none.mpr (by omega), hnext⟩

/-- One that is long enough fills the buffer; every piece brings the loop
nearer to its end. -/
theorem readLoop_fills (offset : Word) (garbage : Int → Byte) (h : Delivers file len.toNat reads)
    (hlong : len.toNat ≤ file.length) :
    ∃ n buf, readLoop offset len (first reads n) 0 garbage = some ((len.toNat : Int), buf) ∧
      ∀ i < len.toNat, buf ((offset.toNat + i : Nat) : Int) = file.getD i 0#8 := by
  let Reading : Nat → Int × (Int → Byte) → Prop := fun n t =>
    Holds file offset reads n t ∧ (n = 0 ∨ (got reads n).length < len.toNat)
  let Filled : Int × (Int → Byte) → Prop := fun r =>
    r.1 = len.toNat ∧ ∀ i < len.toNat, r.2 ((offset.toNat + i : Nat) : Int) = file.getD i 0#8
  have hstep : ∀ n t, Reading n t →
      (∃ r, readStop len (readStep offset t (reads n)) = some r ∧ Filled r) ∨
      readStop len (readStep offset t (reads n)) = none ∧ Reading (n + 1) (readStep offset t (reads n)) ∧
        ((len.toNat : Int) - (readStep offset t (reads n)).1).toNat < ((len.toNat : Int) - t.1).toNat := by
    rintro n t ⟨ht, hasked⟩
    obtain ⟨bytes, hread, hpart, hfits, hempty⟩ := h n hasked
    have hnext := ht.step hread hpart
    have hgot : (got reads (n + 1)).length = (got reads n).length + bytes.length := by
      rw [got, hread, Option.getD_some, List.length_append]
    have hcount := ht.count
    have hcount' := hnext.count
    rcases Nat.eq_or_lt_of_le (hgot ▸ hfits) with hlast | hmore
    · have hend : (readStep offset t (reads n)).1 = len.toNat := by omega
      refine .inl ⟨_, ?_, hend, fun i hi => hnext.bytes i (hlast ▸ hi)⟩
      rw [readStop, if_neg (by omega), if_neg (by omega)]
    · have hpos : 0 < bytes.length := by
        refine List.length_pos_iff.mpr fun hnil => ?_
        rcases hempty hnil with h₀ | heof <;> omega
      exact .inr ⟨readStop_none.mpr (by omega), ⟨hnext, .inr hmore⟩, by omega⟩
  obtain ⟨n, ⟨c, buf⟩, hfeed, rfl, hbuf⟩ := feed_ends (P := Reading) (Q := Filled)
    (fun t => ((len.toNat : Int) - t.1).toNat) (s := (0, garbage)) ⟨holds_start, .inl rfl⟩ hstep
  exact ⟨n, buf, (readLoop_eq_feed _ _ _).trans hfeed, hbuf⟩

def fileAt (file : List Byte) (offset : Word) (i : Int) : Byte := file.getD (i - offset.toNat).toNat 0#8

theorem fileAt_add (file : List Byte) (offset : Word) (i : Nat) :
    fileAt file offset ((offset.toNat + i : Nat) : Int) = file.getD i 0#8 := by
  have hindex : (((offset.toNat + i : Nat) : Int) - offset.toNat).toNat = i := by omega
  rw [fileAt, hindex]

section Load

variable {fd : Int} (hfd : 0 ≤ fd) (hsize : offset.toNat + len.toNat ≤ 0x10000)
  (h : Delivers file len.toNat reads)

include hfd hsize h

theorem sfotLoad_file (hf : HookFuns F σ) (m : Machine F σ) (garbage : Int → Byte) (hlong : len.toNat ≤ file.length) :
    ∃ n, (sfotLoad hf fd offset len garbage (first reads n)).run m =
      ((writeAll hf offset len (fileAt file offset)).run m).map
        fun r => (some (len.toNat : Int), r.2) := by
  obtain ⟨n, buf, hloop, hbuf⟩ := readLoop_fills offset garbage h hlong
  have hwrite : writeAll hf offset len buf = writeAll hf offset len (fileAt file offset) := by
    refine forM_congr fun i hi => ?_
    rw [hbuf i (List.mem_range.mp hi), fileAt_add]
  exact ⟨n, hwrite ▸ sfotLoad_done hfd hsize hloop⟩

theorem loads_short (hshort : file.length < len.toNat) {r : Int} {m' : Machine F σ} :
    ¬Loads hf fd offset len garbage reads m r m' := by
  rintro ⟨n, hrun⟩
  rw [sfotLoad_none hfd hsize (readLoop_short h hshort n)] at hrun
  cases hrun

/-- The read loop ends if and only if the file has all the bytes. The hooks on
the memory written to have their say in whether the writes do. -/
theorem load_ends_iff (hf : HookFuns F σ) (m : Machine F σ) (garbage : Int → Byte) :
    ((len.toNat ≤ file.length → ∃ n, (sfotLoad hf fd offset len garbage (first reads n)).run m =
          ((writeAll hf offset len (fileAt file offset)).run m).map
            fun r => (some (len.toNat : Int), r.2)) ∧
      (file.length < len.toNat → ∃ m', Loads hf fd offset len garbage reads m (-1) m' ∧ m'.mem = m.mem)) ↔
    len.toNat ≤ file.length := by
  constructor
  · rintro ⟨-, hshort⟩
    by_contra hlt
    obtain ⟨m', hloads, -⟩ := hshort (not_le.mp hlt)
    exact loads_short hfd hsize h (not_le.mp hlt) hloads
  · intro hlong
    exact ⟨sfotLoad_file hfd hsize h hf m garbage, fun hshort => absurd hshort (not_lt.mpr hlong)⟩

/-- Without hooks the memory gets the first bytes of the file, and nothing else. -/
theorem load_any_split (hf : HookFuns F σ) {m : Machine F σ} (hm : ∀ a, HookFreeAt m.allMh a) (garbage : Int → Byte)
    (hlong : len.toNat ≤ file.length) :
    ∃ mem, Loads hf fd offset len garbage reads m len.toNat { m with mem := mem } ∧
      (∀ i < len.toNat, mem (offset + BitVec.ofNat 16 i) = file.getD i 0#8) ∧
      ∀ a : Word, ¬(offset.toNat ≤ a.toNat ∧ a.toNat < offset.toNat + len.toNat) → mem a = m.mem a := by
  obtain ⟨n, hrun⟩ := sfotLoad_file hfd hsize h hf m garbage hlong
  obtain ⟨mem, hwrite, hcopied, hkept⟩ := writeAll_run hf hm offset len (fileAt file offset)
  refine ⟨mem, ⟨n, ?_⟩, fun i hi => ?_, fun a ha => hkept a fun i hi heq => ha ?_⟩
  · rw [hrun, hwrite]
    rfl
  · rw [hcopied i hi, fileAt_add]
  · have hnat := congrArg BitVec.toNat heq
    rw [BitVec.toNat_add, BitVec.toNat_ofNat] at hnat
    omega

end Load

def atOnce (file : List Byte) (n : Nat) : ReadOutcome := some (if n = 0 then file else [])

theorem got_atOnce (file : List Byte) (n : Nat) : got (atOnce file) (n + 1) = file := by
  induction n with
  | zero => rfl
  | succ n ih =>
      rw [got, ih]
      exact List.append_nil file

theorem delivers_atOnce {file : List Byte} {len : Nat} (h : file.length ≤ len) : Delivers file len (atOnce file) := by
  intro n _
  cases n with
  | zero =>
      refine ⟨file, rfl, List.prefix_rfl, (Nat.zero_add _).trans_le h, ?_⟩
      rintro rfl
      exact .inr le_rfl
  | succ n =>
      rw [got_atOnce]
      exact ⟨[], rfl, List.nil_prefix, h, fun _ => .inr le_rfl⟩

def pieces (n : Nat) : ReadOutcome := some ([[1], [2, 3]].getD n [])

theorem got_pieces (n : Nat) : got pieces (n + 2) = [1, 2, 3] := by
  induction n with
  | zero => rfl
  | succ n ih =>
      rw [got, ih]
      rfl

theorem delivers_pieces {len : Nat} (h : 3 ≤ len) : Delivers [1, 2, 3] len pieces := by
  intro n _
  match n with
  | 0 => exact ⟨[1], rfl, by decide, show 0 + 1 ≤ len by omega, fun hnil => by cases hnil⟩
  | 1 => exact ⟨[2, 3], rfl, by decide, h, fun hnil => by cases hnil⟩
  | n + 2 =>
      rw [got_pieces]
      exact ⟨[], rfl, List.nil_prefix, h, fun _ => .inr le_rfl⟩

theorem load_ends_iff_pieces :
    (((3 : Word).toNat ≤ [(1 : Byte), 2, 3].length → ∃ n,
        (sfotLoad noHooks 3 0x200 3 (fun _ => 0) (first pieces n)).run (bare 0 ⟨0, 0, 0, 0, 0⟩ fun _ => 0) =
          ((writeAll noHooks 0x200 3 (fileAt [1, 2, 3] 0x200)).run (bare 0 ⟨0, 0, 0, 0, 0⟩ fun _ => 0)).map
            fun r => (some ((3 : Word).toNat : Int), r.2)) ∧
      ([(1 : Byte), 2, 3].length < (3 : Word).toNat → ∃ m', Loads noHooks 3 0x200 3 (fun _ => 0) pieces
          (bare 0 ⟨0, 0, 0, 0, 0⟩ fun _ => 0) (-1) m' ∧ m'.mem = fun _ => 0)) ↔
    (3 : Word).toNat ≤ [(1 : Byte), 2, 3].length :=
  load_ends_iff (by decide) (by decide) (delivers_pieces le_rfl) noHooks _ _

theorem load_waits :
    ¬∀ (m : Machine Empty Unit) (offset len : Word) (file : List Byte) (reads : Nat → ReadOutcome),
      offset.toNat + len.toNat ≤ 0x10000 → Delivers file len.toNat reads → file.length < len.toNat →
        ∃ m', Loads noHooks 3 offset len (fun _ => 0) reads m (-1) m' ∧ m'.mem = m.mem := by
  intro hall
  have hdelivers : Delivers [7] (2 : Word).toNat (atOnce [7]) := delivers_atOnce (by decide)
  obtain ⟨m', hloads, -⟩ := hall (bare 0 ⟨0, 0, 0, 0, 0⟩ fun _ => 0) 0x200 2 [7] (atOnce [7]) (by decide) hdelivers
    (by decide)
  exact loads_short (by decide) (by decide) hdelivers (by decide) hloads

theorem load_any_split_pieces :
    ∃ mem, Loads noHooks 3 0x200 3 (fun _ => 0) pieces (bare 0 ⟨0, 0, 0, 0, 0⟩ fun _ => 0)
        ((3 : Word).toNat : Int) (bare 0 ⟨0, 0, 0, 0, 0⟩ mem) ∧
      (∀ i < (3 : Word).toNat, mem (0x200 + BitVec.ofNat 16 i) = [(1 : Byte), 2, 3].getD i 0#8) ∧
      ∀ a : Word, ¬((0x200 : Word).toNat ≤ a.toNat ∧ a.toNat < (0x200 : Word).toNat + (3 : Word).toNat) →
        mem a = 0 :=
  load_any_split (by decide) (by decide) (delivers_pieces le_rfl) noHooks
    (fun a => (bare_hookFree 0 ⟨0, 0, 0, 0, 0⟩ fun _ => 0).at a) _ (by decide)

end Files

end Bugnes.Loading
