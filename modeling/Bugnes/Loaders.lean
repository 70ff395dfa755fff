import Bugnes.Loading
import Bugnes.StatelessHooks

namespace Bugnes.Loaders

open Words Memhooks CpuCore PlainRuns StatelessHooks Sfot Rounds Loading

variable {F σ : Type}

def Agree (hf : HookFuns F σ) (fd : Int) (offset len : Word) (garbage : Int → Byte) (reads : Nat → ReadOutcome)
    (s : List Byte) (m : Machine F σ) : Prop :=
  ∃ r m', Loads hf fd offset len garbage reads m r m' ∧ (sfotLoadStream hf s offset len).run m = .ok (r, m')

section Stream

variable {hf : HookFuns F σ} {m m' : Machine F σ} {offset len : Word} {s : List Byte}

theorem writeAll_stateless {p : PureHooks F} (h : Stateless hf p m.allMh) (offset len : Word) (buf : Int → Byte) :
    ∃ mem, (writeAll hf offset len buf).run m = .ok ((), { m with mem := mem }) := by
  have hstep : ∀ i < len.toNat, ∀ t : Machine F σ, t = { m with mem := t.mem } →
      ∃ t', (memWrite hf (offset + BitVec.ofNat 16 i) (buf ((offset.toNat + i : Nat) : Int))).run t = .ok ((), t') ∧
        t' = { m with mem := t'.mem } := by
    intro i _ t ht
    have hstateless : Stateless hf p t.allMh := by
      rw [ht]
      exact h
    refine ⟨_, memWrite_stateless hstateless _ _, ?_⟩
    rw [ht]
  have hstart : m = { m with mem := m.mem } := rfl
  obtain ⟨t, hrun, ht⟩ := forM_range (P := fun _ (t : Machine F σ) => t = { m with mem := t.mem }) hstart hstep
  exact ⟨t.mem, hrun.trans (by rw [← ht])⟩

theorem sfotLoadStream_run (hlong : len.toNat ≤ s.length)
    (hwrite : (writeAll hf offset len (fileAt s offset)).run m = .ok ((), m')) :
    (sfotLoadStream hf s offset len).run m = .ok ((len.toNat : Int), m') := by
  have hstream : sfotLoadStream hf s offset len =
      (writeAll hf offset len (fileAt s offset) >>= fun _ => pure (len.toNat : Int) : CpuM F σ Int) := by
    rw [sfotLoadStream, if_neg (not_lt.mpr hlong)]
    rfl
  rw [hstream, StateT.run_bind, hwrite]
  rfl

end Stream

section Loaders

variable {hf : HookFuns F σ} {p : PureHooks F} {m : Machine F σ} {fd : Int} {offset len : Word} {file : List Byte}
  {reads : Nat → ReadOutcome} {garbage : Int → Byte}

theorem loads_tooFar (hfd : 0 ≤ fd) (hfar : 0x10000 < offset.toNat + len.toNat) :
    Loads hf fd offset len garbage reads m (-1) m := by
  refine ⟨0, ?_⟩
  rw [sfotLoad, if_neg (not_lt.mpr hfd), if_pos hfar]
  rfl

theorem Agree.within (hfd : 0 ≤ fd) (h : Agree hf fd offset len garbage reads file m)
    (hlong : len.toNat ≤ file.length) {mem : Word → Byte}
    (hwrite : (writeAll hf offset len (fileAt file offset)).run m = .ok ((), { m with mem := mem })) :
    offset.toNat + len.toNat ≤ 0x10000 := by
  by_contra hfar
  obtain ⟨r, m', hloads, hstream⟩ := h
  obtain ⟨hr, -⟩ := hloads.unique (loads_tooFar hfd (not_le.mp hfar))
  rw [sfotLoadStream_run hlong hwrite, hr] at hstream
  have hlen : (len.toNat : Int) = -1 := congrArg Prod.fst (Except.ok.inj hstream)
  omega

/-- Only the loader of files minds the end of the memory. The one of streams
goes on at its start. -/
theorem loaders_agree_iff (hfd : 0 ≤ fd) (h : Stateless hf p m.allMh) (hread : Delivers file len.toNat reads)
    (hlong : len.toNat ≤ file.length) (garbage : Int → Byte) :
    (Agree hf fd offset len garbage reads file m ↔ offset.toNat + len.toNat ≤ 0x10000) ∧
      (0x10000 < offset.toNat + len.toNat → Loads hf fd offset len garbage reads m (-1) m) ∧
      ∃ mem, (sfotLoadStream hf file offset len).run m = .ok ((len.toNat : Int), { m with mem := mem }) := by
  obtain ⟨mem, hwrite⟩ := writeAll_stateless h offset len (fileAt file offset)
  refine ⟨⟨fun hagree => hagree.within hfd hlong hwrite, fun hsize => ?_⟩, loads_tooFar hfd,
    mem, sfotLoadStream_run hlong hwrite⟩
  obtain ⟨n, hrun⟩ := sfotLoad_file hfd hsize hread hf m garbage hlong
  refine ⟨len.toNat, { m with mem := mem }, ⟨n, ?_⟩, sfotLoadStream_run hlong hwrite⟩
  rw [hrun, hwrite]
  rfl

end Loaders

/-- A cell that keeps the complement of what is written to it. -/
def complement : PureHooks Unit := ⟨fun _ _ => 0#8, fun _ _ v => ~~~v, fun _ a => a⟩

def complementing : Machine Unit Unit where
  regPc := 0#16
  shortRegs := ⟨0, 0, 0, 0, 0⟩
  mem _ := 0#8
  regPcBranched := 0#16
  allMh := Function.update empty .write [⟨0x201#16, 0x202#16, some (), none⟩]
  ehFunV _ := none
  world := ()

theorem loaders_agree_complementing :
    (Agree complement.funs 3 0x200 3 (fun _ => 0) pieces [1, 2, 3] complementing ↔
        (0x200 : Word).toNat + (3 : Word).toNat ≤ 0x10000) ∧
      (0x10000 < (0x200 : Word).toNat + (3 : Word).toNat → Loads complement.funs 3 0x200 3 (fun _ => 0) pieces
        complementing (-1) complementing) ∧
      ∃ mem, (sfotLoadStream complement.funs [1, 2, 3] 0x200 3).run complementing =
        .ok (((3 : Word).toNat : Int), { complementing with mem := mem }) :=
  loaders_agree_iff (p := complement) (by decide)
    (complement.stateless _) (delivers_pieces le_rfl) (by decide) _

theorem loaders_differ :
    Delivers [1, 2] (2 : Word).toNat (atOnce [1, 2]) ∧
      ¬Agree noHooks 3 0xFFFF 2 (fun _ => 0) (atOnce [1, 2]) [1, 2] (bare 0 ⟨0, 0, 0, 0, 0⟩ fun _ => 0) := by
  refine ⟨delivers_atOnce (by decide), fun h => ?_⟩
  have hfree (a : Word) : HookFreeAt (bare 0 ⟨0, 0, 0, 0, 0⟩ fun _ => 0).allMh a :=
    (bare_hookFree 0 ⟨0, 0, 0, 0, 0⟩ fun _ => 0).at a
  obtain ⟨mem, hwrite, -⟩ := writeAll_run noHooks hfree 0xFFFF 2 (fileAt [1, 2] 0xFFFF)
  exact absurd (h.within (by decide) (by decide) hwrite) (by decide)

section Dma

variable (hf : HookFuns F σ)

theorem deliver_cons (start : Int) (b : Byte) (bytes : List Byte) (dest : Int → Byte) :
    deliver start (b :: bytes) dest = deliver (start + 1) bytes (Function.update dest start b) := by
  funext i
  simp only [deliver, List.length_cons]
  by_cases hi : start + 1 ≤ i ∧ i < start + 1 + bytes.length
  · have hindex : (i - start).toNat = (i - (start + 1)).toNat + 1 := by omega
    rw [if_pos (by omega), if_pos hi, hindex, List.getD_cons_succ]
  · rw [if_neg hi]
    by_cases hstart : i = start
    · subst hstart
      rw [if_pos (by omega), sub_self, Function.update_self]
      rfl
    · rw [if_neg (by omega), Function.update_of_ne hstart]

theorem foldlM_deliver (addr : Word) (n start : Nat) (dest : Int → Byte) :
    (List.range' start n).foldlM (fun dest i => do
        return Function.update dest (i : Int) (← memRead hf (addr + BitVec.ofNat 16 i))) dest =
      (do
        let bytes ← (List.range' start n).mapM fun i => memRead hf (addr + BitVec.ofNat 16 i)
        return deliver start bytes dest : CpuM F σ (Int → Byte)) := by
  induction n generalizing start dest with
  | zero =>
      have hnone : deliver start [] dest = dest := by
        funext i
        rw [deliver, if_neg (by simp)]
      simp [hnone]
  | succ n ih =>
      simp only [List.range'_succ, List.foldlM_cons, List.mapM_cons, bind_assoc, pure_bind, ih, deliver_cons,
        Nat.cast_add, Nat.cast_one]

theorem sfotDoDmaTo_eq (addr : Word) (dest : Int → Byte) (size : Word) :
    sfotDoDmaTo hf addr dest size = (do
      let bytes ← sfotDoDma hf addr size
      return deliver 0 bytes dest : CpuM F σ (Int → Byte)) := by
  rw [sfotDoDmaTo, sfotDoDma, List.range_eq_range']
  exact foldlM_deliver hf addr size.toNat 0 dest

variable {m : Machine F σ}

theorem mapM_run {xs : List Nat} {x : Nat → CpuM F σ Byte} {v : Nat → Byte} (h : ∀ i, (x i).run m = .ok (v i, m)) :
    (xs.mapM x).run m = .ok (xs.map v, m) := by
  induction xs with
  | nil => rfl
  | cons i xs ih => rw [List.mapM_cons, StateT.run_bind, h i, ok_bind, StateT.run_bind, ih]; rfl

theorem sfotDoDma_run (hm : ∀ a, HookFreeAt m.allMh a) (addr size : Word) :
    (sfotDoDma hf addr size).run m = .ok ((List.range size.toNat).map fun i => m.mem (addr + BitVec.ofNat 16 i), m) :=
  mapM_run fun _ => memRead_run hf (hm _)

theorem sfotDoDmaTo_run (hm : ∀ a, HookFreeAt m.allMh a) (addr : Word) (dest : Int → Byte) (size : Word) :
    ∃ dest', (sfotDoDmaTo hf addr dest size).run m = .ok (dest', m) ∧
      (∀ i < size.toNat, dest' (i : Int) = m.mem (addr + BitVec.ofNat 16 i)) ∧
      ∀ i : Int, ¬(0 ≤ i ∧ i < size.toNat) → dest' i = dest i := by
  let bytes : List Byte := (List.range size.toNat).map fun i => m.mem (addr + BitVec.ofNat 16 i)
  have hlen : bytes.length = size.toNat := by rw [List.length_map, List.length_range]
  refine ⟨deliver 0 bytes dest, ?_, fun i hi => ?_, fun i hi => ?_⟩
  · rw [sfotDoDmaTo_eq, StateT.run_bind, sfotDoDma_run hf hm]
    rfl
  · have hindex : ((i : Int) - 0).toNat = i := by omega
    rw [deliver, if_pos (by omega), hindex, List.getD_eq_getElem _ _ (hlen.symm ▸ hi), List.getElem_map,
      List.getElem_range]
  · rw [deliver, if_neg (by omega)]

/-- What was loaded comes back, over the end of the memory too. -/
theorem load_dma (hm : ∀ a, HookFreeAt m.allMh a) (offset len : Word) {s : List Byte}
    (hlong : len.toNat ≤ s.length) (dest : Int → Byte) :
    ∃ mem dest', (sfotLoadStream hf s offset len).run m = .ok ((len.toNat : Int), { m with mem := mem }) ∧
      (sfotDoDmaTo hf offset dest len).run { m with mem := mem } = .ok (dest', { m with mem := mem }) ∧
      (∀ i < len.toNat, dest' (i : Int) = s.getD i 0#8) ∧
      (∀ i : Int, ¬(0 ≤ i ∧ i < len.toNat) → dest' i = dest i) ∧
      ∀ a, (∀ i < len.toNat, a ≠ offset + BitVec.ofNat 16 i) → mem a = m.mem a := by
  obtain ⟨mem, hwrite, hcopied, hkept⟩ := writeAll_run hf hm offset len (fileAt s offset)
  obtain ⟨dest', hdma, hinside, houtside⟩ :=
    sfotDoDmaTo_run hf (m := { m with mem := mem }) hm offset dest len
  refine ⟨mem, dest', sfotLoadStream_run hlong hwrite, hdma, fun i hi => ?_, houtside, hkept⟩
  calc dest' (i : Int) = mem (offset + BitVec.ofNat 16 i) := hinside i hi
    _ = fileAt s offset ((offset.toNat + i : Nat) : Int) := hcopied i hi
    _ = s.getD i 0#8 := fileAt_add s offset i

theorem load_dma_wrapped :
    ∃ mem dest', (sfotLoadStream noHooks [1, 2] 0xFFFF 2).run (bare 0 ⟨0, 0, 0, 0, 0⟩ fun _ => 0) =
        .ok (((2 : Word).toNat : Int), bare 0 ⟨0, 0, 0, 0, 0⟩ mem) ∧
      (sfotDoDmaTo noHooks 0xFFFF (fun _ => 9) 2).run (bare 0 ⟨0, 0, 0, 0, 0⟩ mem) =
        .ok (dest', bare 0 ⟨0, 0, 0, 0, 0⟩ mem) ∧
      (∀ i < (2 : Word).toNat, dest' (i : Int) = [(1 : Byte), 2].getD i 0#8) ∧
      (∀ i : Int, ¬(0 ≤ i ∧ i < (2 : Word).toNat) → dest' i = 9) ∧
      ∀ a, (∀ i < (2 : Word).toNat, a ≠ 0xFFFF + BitVec.ofNat 16 i) → mem a = 0 :=
  load_dma noHooks (fun a => (bare_hookFree 0 ⟨0, 0, 0, 0, 0⟩ fun _ => 0).at a) 0xFFFF 2 (by decide) _

end Dma

end Bugnes.Loaders
