import Bugnes.AccessLog
import Bugnes.PlainRefinement

namespace Bugnes.Accesses

open Words Memhooks CpuCore Addr OpcodeTable Opcodes Plain PlainRuns StatelessHooks AccessLog

variable {F : Type}

section Counting

variable {t : AllMh F} {x : Word}

theorem count_readCalls (hx : check t .read x ≠ none) (a : Word) :
    (readCalls t a).count (.read x) = if a = x then 1 else 0 := by
  by_cases ha : a = x
  · subst ha
    simp [readCalls, hx]
  · by_cases hc : check t .read a = none <;> simp [readCalls, hc, ha]

theorem count_writeCalls (hx : check t .write x ≠ none) (a : Word) :
    (writeCalls t a).count (.write x) = if a = x then 1 else 0 := by
  by_cases ha : a = x
  · subst ha
    simp [writeCalls, hx]
  · by_cases hc : check t .write a = none <;> simp [writeCalls, hc, ha]

theorem count_writeCalls_read (a : Word) : (writeCalls t a).count (.read x) = 0 := by
  by_cases hc : check t .write a = none <;> simp [writeCalls, hc]

theorem count_readCalls_write (a : Word) : (readCalls t a).count (.write x) = 0 := by
  by_cases hc : check t .read a = none <;> simp [readCalls, hc]

theorem count_flatMap_readCalls (hx : check t .read x ≠ none) (as : List Word) :
    (as.flatMap (readCalls t)).count (.read x) = as.count x := by
  induction as with
  | nil => rfl
  | cons a as ih =>
      rw [List.flatMap_cons, List.count_append, count_readCalls hx, ih, List.count_cons, Nat.add_comm]
      simp only [beq_iff_eq]

theorem count_flatMap_readCalls_write (as : List Word) : (as.flatMap (readCalls t)).count (.write x) = 0 := by
  induction as with
  | nil => rfl
  | cons a as ih => rw [List.flatMap_cons, List.count_append, count_readCalls_write, ih]

variable {p : PureHooks F} {m : Machine F Log}

theorem count_addrCalls (hx : check m.allMh .read x ≠ none) (hnext : x ≠ m.regPc + 1#16) (mode : AddrMode) :
    (addrCalls p mode m).count (.read x) =
      (if x = m.regPc + 2#16 then 1 else 0) + (pointerCells mode (sight p m)).count x := by
  simp only [addrCalls, List.count_append, count_readCalls hx, count_flatMap_readCalls hx, List.count_reverse,
    if_neg hnext.symm, eq_comm (a := x), Nat.add_zero]

theorem count_addrCalls_write (mode : AddrMode) : (addrCalls p mode m).count (.write x) = 0 := by
  simp only [addrCalls, List.count_append, count_readCalls_write, count_flatMap_readCalls_write]

theorem check_invalidAddress (t : AllMh F) (ty : MhType) : check t ty invalidAddress = none := by
  have hnever : ∀ e : Word, ¬invalidAddress < e := fun e h => by
    rw [invalidAddress] at h
    bv_omega
  rw [check]
  induction t ty with
  | nil => rfl
  | cons mh rest ih => rw [checkList, if_neg fun hcovers => hnever _ hcovers.2, ih]

end Counting

def MemoryMode (mode : AddrMode) : Prop := mode ≠ .imp ∧ mode ≠ .acc

def pointersOf (mode : AddrMode) (m : Machine F Log) : List Word :=
  match mode with
  | .inx | .iny => pointerCells mode m
  | _ => []

/-- How often the effective address is to be read; of a jump nothing is asked. -/
def demandedReads : Family → Option Nat
  | .load | .operand | .increment | .shift => some 1
  | .store => some 0
  | .jump => none

def demandedWrites : Family → Nat
  | .store | .increment | .shift => 1
  | .load | .operand | .jump => 0

structure AccessedOnce (t : AllMh F) (fam : Family) (e : Word) (pointers : List Word) (log : Log) : Prop where
  reads : check t .read e ≠ none → ∀ n ∈ demandedReads fam, log.count (.read e) = n
  writes : check t .write e ≠ none → log.count (.write e) = demandedWrites fam
  pointers : ∀ q ∈ pointers, check t .read q ≠ none → log.count (.read q) = 1

/-- The accesses that come to more than one: a shift writes back and reads once
more, every address computation also reads at `pc + 2` and at the pointer, and
the families with an operand compute the address twice. -/
structure Undisturbed (t : AllMh F) (fam : Family) (e pc : Word) (pointers : List Word) : Prop where
  effective : fam ≠ .jump → check t .read e ≠ none → fam ≠ .shift ∧ e ≠ pc + 2#16 ∧ e ∉ pointers
  pointers : ∀ q ∈ pointers, check t .read q ≠ none →
    q ≠ pc + 2#16 ∧ q ≠ e ∧ (fam = .operand → e = invalidAddress)

theorem family_of_mode (b : Byte) (h : MemoryMode (opcodeAt b).addrMode) :
    ∃ fam, familyOf (opcodeAt b).exec = some fam ∧
      (fam = .jump → (opcodeAt b).addrMode ≠ .inx ∧ (opcodeAt b).addrMode ≠ .iny) ∧
      (fam ≠ .jump → (opcodeAt b).addrMode ≠ .ind) := by
  have hrow : (opcodeAt b).addrMode = .imp ∨ (opcodeAt b).addrMode = .acc ∨
      familyOf (opcodeAt b).exec ≠ none ∧
        (familyOf (opcodeAt b).exec = some .jump → (opcodeAt b).addrMode ≠ .inx ∧ (opcodeAt b).addrMode ≠ .iny) ∧
        ((opcodeAt b).addrMode = .ind → familyOf (opcodeAt b).exec = some .jump) :=
    forall_opcode (P := fun op => op.addrMode = .imp ∨ op.addrMode = .acc ∨ familyOf op.exec ≠ none ∧
      (familyOf op.exec = some .jump → op.addrMode ≠ .inx ∧ op.addrMode ≠ .iny) ∧
      (op.addrMode = .ind → familyOf op.exec = some .jump)) (by decide +kernel) b
  obtain himp | hacc | ⟨hsome, hjump, hind⟩ := hrow
  · exact absurd himp h.1
  · exact absurd hacc h.2
  · obtain ⟨fam, hfam⟩ := Option.ne_none_iff_exists'.mp hsome
    refine ⟨fam, hfam, fun h => hjump (h ▸ hfam), fun h hmode => h ?_⟩
    exact Option.some.inj (hfam.symm.trans (hind hmode))

theorem nodup_pointersOf (mode : AddrMode) (m : Machine F Log) : (pointersOf mode m).Nodup := by
  have hnext : ∀ q : Word, q ≠ q + 1#16 := by
    intro q h
    bv_omega
  cases mode <;> simp [pointersOf, pointerCells, hnext]

theorem demanded_iff {cnt : Word → Nat} {H : Word → Prop} {e pc2 : Word} {pointers : List Word} {k d r : Nat}
    (hk : 1 ≤ k) (hrd : r ≤ d) (hnodup : pointers.Nodup)
    (hcnt : ∀ x, H x → cnt x = k * ((if x = pc2 then 1 else 0) + pointers.count x) + if x = e then d else 0) :
    ((H e → cnt e = r) ∧ ∀ q ∈ pointers, H q → cnt q = 1) ↔
      (H e → d = r ∧ e ≠ pc2 ∧ e ∉ pointers) ∧ ∀ q ∈ pointers, H q → q ≠ pc2 ∧ q ≠ e ∧ k = 1 := by
  have heffective : H e → (cnt e = r ↔ d = r ∧ e ≠ pc2 ∧ e ∉ pointers) := by
    intro he
    rw [hcnt e he, if_pos rfl, ← List.count_eq_zero]
    constructor
    · intro h
      have hzero : (if e = pc2 then 1 else 0) + pointers.count e = 0 := by
        by_contra hne
        have := Nat.mul_le_mul hk (Nat.one_le_iff_ne_zero.mpr hne)
        omega
      refine ⟨by rw [hzero] at h; omega, fun hpc => ?_, by omega⟩
      rw [if_pos hpc] at hzero
      omega
    · rintro ⟨rfl, hpc, hcount⟩
      rw [if_neg hpc, hcount]
      omega
  have hpointer : ∀ q ∈ pointers, H q → q ≠ e → (cnt q = 1 ↔ q ≠ pc2 ∧ k = 1) := by
    intro q hq hH hqe
    rw [hcnt q hH, if_neg hqe, List.count_eq_one_of_mem hnodup hq, Nat.add_zero]
    by_cases hpc : q = pc2 <;> simp [hpc]
  constructor
  · rintro ⟨he, hq⟩
    have hout : ∀ q ∈ pointers, H q → q ≠ e := by
      rintro q hmem hH rfl
      exact ((heffective hH).mp (he hH)).2.2 hmem
    refine ⟨fun h => (heffective h).mp (he h), fun q hmem hH => ?_⟩
    obtain ⟨hpc, hk1⟩ := (hpointer q hmem hH (hout q hmem hH)).mp (hq q hmem hH)
    exact ⟨hpc, hout q hmem hH, hk1⟩
  · rintro ⟨he, hq⟩
    refine ⟨fun h => (heffective h).mpr (he h), fun q hmem hH => ?_⟩
    obtain ⟨hpc, hne, hk1⟩ := hq q hmem hH
    exact (hpointer q hmem hH hne).mpr ⟨hpc, hk1⟩

section Count

variable {p : PureHooks F} {m : Machine F Log} {fam : Family} {mode : AddrMode}

def directReads : Family → Nat
  | .load | .operand | .increment => 1
  | .shift => 2
  | .store | .jump => 0

def addrTimes (fam : Family) (e : Word) : Nat := if fam = .operand ∧ e ≠ invalidAddress then 2 else 1

theorem count_further (hjump : fam ≠ .jump) {x : Word} (hx : check m.allMh .read x ≠ none) :
    (addrCalls p mode m ++ furtherCalls p fam mode m).count (.read x) =
      addrTimes fam (addrOf mode (sight p m)) * (addrCalls p mode m).count (.read x) +
        if x = addrOf mode (sight p m) then directReads fam else 0 := by
  have hvalid : addrOf mode (sight p m) = invalidAddress → x ≠ addrOf mode (sight p m) := by
    intro he hxe
    rw [hxe, he] at hx
    exact hx (check_invalidAddress _ _)
  simp only [List.count_append, eq_comm (a := x)]
  cases fam with
  | load => simp [furtherCalls, addrTimes, directReads, count_readCalls hx]
  | store => simp [furtherCalls, addrTimes, directReads, count_writeCalls_read]
  | increment => simp [furtherCalls, addrTimes, directReads, count_readCalls hx, count_writeCalls_read]
  | operand =>
      by_cases he : addrOf mode (sight p m) = invalidAddress
      · simp [furtherCalls, addrTimes, he, (he ▸ hvalid he).symm]
      · simp [furtherCalls, addrTimes, directReads, he, count_readCalls hx]
        omega
  | shift =>
      by_cases he : addrOf mode (sight p m) = invalidAddress
      · simp [furtherCalls, addrTimes, he, (he ▸ hvalid he).symm]
      · simp only [furtherCalls, if_neg he, List.count_append, count_readCalls hx, count_writeCalls_read]
        split <;> simp [addrTimes, directReads]
  | jump => exact absurd rfl hjump

theorem count_writes (hjump : fam ≠ .jump) (hx : check m.allMh .write (addrOf mode (sight p m)) ≠ none) :
    (addrCalls p mode m ++ furtherCalls p fam mode m).count (.write (addrOf mode (sight p m))) = demandedWrites fam := by
  have hvalid : addrOf mode (sight p m) ≠ invalidAddress := by
    intro he
    rw [he] at hx
    exact hx (check_invalidAddress _ _)
  rw [List.count_append, count_addrCalls_write]
  cases fam <;>
    simp [furtherCalls, demandedWrites, hvalid, count_addrCalls_write, count_readCalls_write, count_writeCalls hx]

theorem accessedOnce_iff (hjump : fam ≠ .jump) (hind : mode ≠ .ind)
    (hnext : check m.allMh .read (m.regPc + 1#16) = none) :
    AccessedOnce m.allMh fam (addrOf mode (sight p m)) (pointersOf mode (sight p m))
        (addrCalls p mode m ++ furtherCalls p fam mode m) ↔
      Undisturbed m.allMh fam (addrOf mode (sight p m)) m.regPc (pointersOf mode (sight p m)) := by
  have hpointers : pointerCells mode (sight p m) = pointersOf mode (sight p m) := by
    cases mode with
    | ind => exact absurd rfl hind
    | _ => rfl
  have hcnt : ∀ x, check m.allMh .read x ≠ none →
      (addrCalls p mode m ++ furtherCalls p fam mode m).count (.read x) =
        addrTimes fam (addrOf mode (sight p m)) *
          ((if x = m.regPc + 2#16 then 1 else 0) + (pointersOf mode (sight p m)).count x) +
        if x = addrOf mode (sight p m) then directReads fam else 0 := by
    intro x hx
    have hne : x ≠ m.regPc + 1#16 := by
      rintro rfl
      exact hx hnext
    rw [count_further hjump hx, count_addrCalls hx hne, hpointers]
  have hk : 1 ≤ addrTimes fam (addrOf mode (sight p m)) := by
    rw [addrTimes]
    split <;> decide
  have honce : addrTimes fam (addrOf mode (sight p m)) = 1 ↔
      (fam = .operand → addrOf mode (sight p m) = invalidAddress) := by
    rw [addrTimes]
    by_cases hfam : fam = .operand <;> by_cases he : addrOf mode (sight p m) = invalidAddress <;> simp [hfam, he]
  obtain ⟨r, hr, hrd, hdr⟩ : ∃ r, demandedReads fam = some r ∧ r ≤ directReads fam ∧
      (directReads fam = r ↔ fam ≠ .shift) := by
    cases fam with
    | jump => exact absurd rfl hjump
    | _ => exact ⟨_, rfl, by decide, by decide⟩
  have hreads := demanded_iff (H := fun x => check m.allMh .read x ≠ none) hk hrd (nodup_pointersOf mode (sight p m))
    hcnt
  rw [hdr, honce] at hreads
  constructor
  · intro h
    have hboth := hreads.mp ⟨fun hx => h.reads hx r hr, h.pointers⟩
    exact ⟨fun _ => hboth.1, hboth.2⟩
  · intro h
    have hboth := hreads.mpr ⟨h.effective hjump, h.pointers⟩
    refine ⟨fun hx n hn => ?_, count_writes hjump, hboth.2⟩
    rw [hr] at hn
    exact Option.some.inj hn ▸ hboth.1 hx

end Count

/-- An instruction accesses its effective address and its pointer bytes once
each if and only if none of its further accesses falls on a hook of theirs. -/
theorem accessed_once_iff {p : PureHooks F} {m : Machine F Log} (h : Untranslated m.allMh)
    (hown : ∀ a ∈ instrCells (currentOp m).addrMode m.regPc, check m.allMh .read a = none ∧ check m.allMh .write a = none)
    (hmode : MemoryMode (currentOp m).addrMode) :
    ∃ e fam log m₁ m', (addr (recording p) (currentOp m).addrMode).run m = .ok (e, m₁) ∧
      familyOf (currentOp m).exec = some fam ∧
      (opcodeExec (recording p)).run m = .ok ((), m') ∧ m'.world = m.world ++ log ∧
      (AccessedOnce m.allMh fam e (pointersOf (currentOp m).addrMode (sight p m)) log ↔
        Undisturbed m.allMh fam e m.regPc (pointersOf (currentOp m).addrMode (sight p m))) := by
  have hcell : ∀ i < (lenOf (currentOp m).addrMode).toNat, check m.allMh .read (m.regPc + BitVec.ofNat 16 i) = none :=
    fun i hi => (hown _ (List.mem_map_of_mem (List.mem_range.mpr hi))).1
  have hlen : 2 ≤ (lenOf (currentOp m).addrMode).toNat := by
    obtain ⟨himp, hacc⟩ := hmode
    have hmax : (currentOp m).addrMode ≠ .max := addrMode_ne_max _
    cases hm : (currentOp m).addrMode with
    | imp => exact absurd hm himp
    | acc => exact absurd hm hacc
    | max => exact absurd hm hmax
    | _ => decide
  have hpc : check m.allMh .read m.regPc = none := by simpa using hcell 0 (by omega)
  have hnext : check m.allMh .read (m.regPc + 1#16) = none := hcell 1 (by omega)
  have hexec : (opcodeExec (recording p)).run m =
      (asm (recording p) (currentOp m).exec (currentOp m).addrMode).run m := by
    have hread := memRead_recording (p := p) h m.regPc
    rw [seen_untranslated h, readCalls, if_pos hpc, noted_nil, hpc] at hread
    rw [opcodeExec, StateT.run_bind, getPc_run, ok_bind, StateT.run_bind, hread, ok_bind]
    rfl
  have haddr := addr_recording (p := p) h (currentOp m).addrMode
  obtain ⟨fam, hfam, hptr, hind⟩ := family_of_mode (m.mem m.regPc) hmode
  by_cases hjump : fam = .jump
  · subst hjump
    obtain ⟨m₁, m', hrun, hworld⟩ := asm_jump_logs (p := p) h hfam (currentOp m).addrMode
    have hnone : pointersOf (currentOp m).addrMode (sight p m) = [] := by
      obtain ⟨hinx, hiny⟩ := hptr rfl
      cases hm : (currentOp m).addrMode with
      | inx => exact absurd hm hinx
      | iny => exact absurd hm hiny
      | _ => rfl
    refine ⟨_, .jump, _, _, m', haddr, hfam, hexec.trans hrun, hworld, fun _ => ⟨?_, ?_⟩, fun _ => ⟨?_, ?_, ?_⟩⟩
    · exact fun hne => absurd rfl hne
    · simp [hnone]
    · exact fun _ n hn => by cases hn
    · exact fun _ => count_addrCalls_write _
    · simp [hnone]
  · obtain ⟨m', hrun, hworld⟩ := asm_logs (p := p) h hfam hjump (currentOp m).addrMode
    exact ⟨_, fam, _, _, m', haddr, hfam, hexec.trans hrun, hworld, accessedOnce_iff hjump (hind hjump) hnext⟩

def zeros : PureHooks Unit := ⟨fun _ _ => 0#8, fun _ _ v => v, fun _ a => a⟩

/-- About to execute `ORA ($20),Y`, with a hook on both pointer bytes. -/
def pointing : Machine Unit Log where
  regPc := 0x200#16
  shortRegs := ⟨0, 0, 0, 0, 0⟩
  mem := bytesAt 0x200#16 [0x11#8, 0x20#8]
  regPcBranched := invalidAddress
  allMh := Function.update empty .read [⟨0x20#16, 0x22#16, some (), none⟩]
  ehFunV _ := none
  world := []

theorem currentOp_pointing : currentOp pointing = ⟨"ORA", .ora, .iny⟩ := by
  have hbyte : pointing.mem pointing.regPc = 0x11#8 := rfl
  rw [currentOp, hbyte]
  rfl

theorem pointing_own : ∀ a ∈ instrCells .iny pointing.regPc,
    check pointing.allMh .read a = none ∧ check pointing.allMh .write a = none := by
  have hcells : instrCells .iny pointing.regPc = [0x200#16, 0x201#16] := rfl
  rw [hcells, List.forall_mem_cons, List.forall_mem_singleton]
  exact ⟨⟨rfl, rfl⟩, rfl, rfl⟩

theorem accessed_once_pointing :
    ∃ e fam log m₁ m', (addr (recording zeros) (currentOp pointing).addrMode).run pointing = .ok (e, m₁) ∧
      familyOf (currentOp pointing).exec = some fam ∧
      (opcodeExec (recording zeros)).run pointing = .ok ((), m') ∧ m'.world = pointing.world ++ log ∧
      (AccessedOnce pointing.allMh fam e (pointersOf (currentOp pointing).addrMode (sight zeros pointing)) log ↔
        Undisturbed pointing.allMh fam e pointing.regPc
          (pointersOf (currentOp pointing).addrMode (sight zeros pointing))) := by
  have h := accessed_once_iff (p := zeros) (m := pointing) fun _ => rfl
  rw [currentOp_pointing] at h ⊢
  exact h pointing_own ⟨by decide, by decide⟩

theorem pointer_read_twice : currentOp pointing = ⟨"ORA", .ora, .iny⟩ ∧ Untranslated pointing.allMh ∧
    (∀ a ∈ instrCells .iny pointing.regPc, check pointing.allMh .read a = none ∧ check pointing.allMh .write a = none) ∧
    pointersOf .iny (sight zeros pointing) = [0x20#16, 0x21#16] ∧
    ((opcodeExec (recording zeros)).run pointing).map (fun r => r.2.world.count (.read 0x20#16)) = .ok 2 :=
  ⟨currentOp_pointing, fun _ => rfl, pointing_own, rfl, by decide +kernel⟩

end Bugnes.Accesses
