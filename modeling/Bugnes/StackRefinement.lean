import Bugnes.PlainRefinement
import Bugnes.RingStack
import Bugnes.Runs

namespace Bugnes.StackRefinement

open Words CpuCore Plain PlainRuns RingStack

variable {F σ : Type}

inductive StackOp
  | push (v : Byte)
  | push16 (v : Word)
  | pop
  | pop16
deriving Repr

inductive Popped
  | nothing
  | byte (v : Byte)
  | word (v : Word)
deriving DecidableEq, Repr

def stackOp : Runs.Machine StackOp Popped (Machine F σ) Fault
  | .push v, m => (do stackPush v; return .nothing : CpuM F σ Popped).run m
  | .push16 v, m => (do stackPush16 v; return .nothing : CpuM F σ Popped).run m
  | .pop, m => (do return .byte (← stackPop) : CpuM F σ Popped).run m
  | .pop16, m => (do return .word (← stackPop16) : CpuM F σ Popped).run m

inductive Misuse
  | overflow
  | underflow
deriving DecidableEq, Repr

/-- The abstract stack of bytes. A word is two bytes, the low one on top. -/
def lifo (capacity : Nat) : Runs.Machine StackOp Popped (List Byte) Misuse
  | .push v, xs => if xs.length + 1 ≤ capacity then .ok (.nothing, v :: xs) else .error .overflow
  | .push16 v, xs =>
      if xs.length + 2 ≤ capacity then .ok (.nothing, loByte v :: hiByte v :: xs) else .error .overflow
  | .pop, x :: xs => .ok (.byte x, xs)
  | .pop16, lsb :: msb :: xs => .ok (.word (wordOf lsb msb), xs)
  | .pop, [] | .pop16, [] | .pop16, [_] => .error .underflow

def StackOp.delta : StackOp → Int
  | .push _ => 1
  | .push16 _ => 2
  | .pop => -1
  | .pop16 => -2

def depth (ops : List StackOp) : Int := (ops.map StackOp.delta).sum

def ringOf (m : Machine F σ) : Buffer 8 Byte := ⟨m.shortRegs.sp, fun i => m.mem (stackAddr i)⟩

def SameOutside (m m' : Machine F σ) : Prop :=
  ∀ a : Word, ¬(0x100 ≤ a.toNat ∧ a.toNat ≤ 0x1FF) → m'.mem a = m.mem a

theorem ringOf_pushed (m : Machine F σ) (v : Byte) : ringOf ((pushed m.shortRegs v).apply m) = push v (ringOf m) := by
  have hcells : Function.update m.mem (stackAddr m.shortRegs.sp) v ∘ stackAddr =
      Function.update (m.mem ∘ stackAddr) m.shortRegs.sp v :=
    Function.update_comp_eq_of_injective _ stackAddr_injective _ _
  exact congrArg (Buffer.mk (m.shortRegs.sp - 1#8)) hcells

theorem pushedWord_apply (m : Machine F σ) (v : Word) :
    (pushedWord m.shortRegs v).apply m =
      (pushed { m.shortRegs with sp := m.shortRegs.sp - 1#8 } (loByte v)).apply
        ((pushed m.shortRegs (hiByte v)).apply m) := rfl

theorem ringOf_pushedWord (m : Machine F σ) (v : Word) :
    ringOf ((pushedWord m.shortRegs v).apply m) = push (loByte v) (push (hiByte v) (ringOf m)) := by
  rw [← ringOf_pushed, pushedWord_apply]
  exact ringOf_pushed ((pushed m.shortRegs (hiByte v)).apply m) (loByte v)

theorem pushed_sameOutside (m : Machine F σ) (v : Byte) : SameOutside m ((pushed m.shortRegs v).apply m) := by
  intro a ha
  refine Function.update_of_ne ?_ _ _
  rintro rfl
  have h := m.shortRegs.sp.isLt
  rw [toNat_stackAddr] at ha
  omega

theorem SameOutside.trans {m m' m'' : Machine F σ} (h : SameOutside m m') (h' : SameOutside m' m'') :
    SameOutside m m'' := fun a ha => (h' a ha).trans (h a ha)

theorem pushedWord_sameOutside (m : Machine F σ) (v : Word) :
    SameOutside m ((pushedWord m.shortRegs v).apply m) := by
  rw [pushedWord_apply]
  exact (pushed_sameOutside m _).trans (pushed_sameOutside ((pushed m.shortRegs (hiByte v)).apply m) _)

/-- A machine that started with the memory of `m₀` and holds the values of an
abstract stack in its stack page. -/
structure Refines (m₀ m : Machine F σ) (xs : List Byte) : Prop where
  holds : Holds m₀.shortRegs.sp (ringOf m) xs
  outside : SameOutside m₀ m

theorem Refines.push {m₀ m : Machine F σ} {xs : List Byte} (h : Refines m₀ m xs) (hroom : xs.length < 256)
    (v : Byte) : Refines m₀ ((pushed m.shortRegs v).apply m) (v :: xs) where
  holds := by
    rw [ringOf_pushed]
    exact push_holds h.holds hroom v
  outside := h.outside.trans (pushed_sameOutside m v)

theorem Refines.pop {m₀ m : Machine F σ} {x : Byte} {xs : List Byte} (h : Refines m₀ m (x :: xs)) :
    m.mem (stackAddr (m.shortRegs.sp + 1#8)) = x ∧
      Refines m₀ { m with shortRegs := { m.shortRegs with sp := m.shortRegs.sp + 1#8 } } xs := by
  obtain ⟨hx, hxs⟩ := pop_holds h.holds
  exact ⟨hx, hxs, h.outside⟩

/-- What the abstract stack of 256 bytes can do, the stack page does. -/
theorem stackOp_simulates {m₀ : Machine F σ} (op : StackOp) (m : Machine F σ) (xs : List Byte) (o : Popped)
    (ys : List Byte) (h : Refines m₀ m xs) (hop : lifo 256 op xs = .ok (o, ys)) :
    ∃ m', stackOp op m = .ok (o, m') ∧ Refines m₀ m' ys := by
  cases op with
  | push v =>
      rw [lifo] at hop
      split at hop
      · cases hop
        exact ⟨_, by simp [stackOp, stackPush_run], h.push (by omega) v⟩
      · cases hop
  | push16 v =>
      rw [lifo] at hop
      split at hop
      · cases hop
        refine ⟨(pushedWord m.shortRegs v).apply m, by simp [stackOp, stackPush16_run], ?_⟩
        rw [pushedWord_apply]
        exact (h.push (by omega) (hiByte v)).push (by simp; omega) (loByte v)
      · cases hop
  | pop =>
      cases xs with
      | nil => cases hop
      | cons x xs =>
          cases hop
          obtain ⟨hx, hxs⟩ := h.pop
          exact ⟨_, by simp [stackOp, stackPop_run, hx], hxs⟩
  | pop16 =>
      cases xs with
      | nil => cases hop
      | cons lsb xs =>
          cases xs with
          | nil => cases hop
          | cons msb xs =>
              cases hop
              obtain ⟨hl, hxs⟩ := h.pop
              obtain ⟨hm, hxs⟩ := hxs.pop
              have hm : m.mem (stackAddr (m.shortRegs.sp + 1#8 + 1#8)) = msb := hm
              exact ⟨_, by simp [stackOp, stackPop16_run, hl, hm], hxs⟩

theorem lifo_run {capacity : Nat} {ops : List StackOp} {xs : List Byte}
    (h : ∀ before, before <+: ops → 0 ≤ xs.length + depth before ∧ xs.length + depth before ≤ capacity) :
    ∃ outs ys, Runs.run (lifo capacity) ops xs = .ok (outs, ys) ∧ (ys.length : Int) = xs.length + depth ops := by
  induction ops generalizing xs with
  | nil => exact ⟨[], xs, rfl, by simp [depth]⟩
  | cons op ops ih =>
      obtain ⟨hlow, hhigh⟩ := h [op] (by simp)
      have hdelta : depth [op] = op.delta := by simp [depth]
      rw [hdelta] at hlow hhigh
      obtain ⟨o, zs, hop, hlen⟩ : ∃ o zs, lifo capacity op xs = .ok (o, zs) ∧ (zs.length : Int) = xs.length + op.delta := by
        cases op with
        | push v =>
            simp only [StackOp.delta] at hhigh
            exact ⟨_, _, if_pos (by omega), by simp [StackOp.delta]⟩
        | push16 v =>
            simp only [StackOp.delta] at hhigh
            exact ⟨_, _, if_pos (by omega), by simp [StackOp.delta]; omega⟩
        | pop =>
            match xs, hlow with
            | x :: xs, _ => exact ⟨_, _, rfl, by simp [StackOp.delta]⟩
        | pop16 =>
            match xs, hlow with
            | x :: y :: xs, _ => exact ⟨_, _, rfl, by simp [StackOp.delta]; omega⟩
      have hcons : ∀ before, depth (op :: before) = op.delta + depth before := fun _ => by simp [depth]
      have hnext : ∀ before, before <+: ops →
          0 ≤ zs.length + depth before ∧ zs.length + depth before ≤ capacity := by
        intro before hb
        have hb' := h (op :: before) (List.cons_prefix_cons.mpr ⟨rfl, hb⟩)
        rw [hcons] at hb'
        omega
      obtain ⟨outs, ys, hrun, hys⟩ := ih hnext
      exact ⟨o :: outs, ys, Runs.run_cons_ok hop hrun, by rw [hcons]; omega⟩

/-- Within the 256 bytes of the page the stack functions are an abstract
stack: after every operation all that was popped is what the abstract stack
returned, SP is as far below its first value as the stack is deep, and nothing
outside the page has changed. A word is popped as it was pushed. -/
theorem run_refines_lifo (m : Machine F σ) (ops : List StackOp)
    (h : ∀ before, before <+: ops → 0 ≤ depth before ∧ depth before ≤ 256) :
    (∀ before, before <+: ops → ∃ outs xs m',
      Runs.run (lifo 256) before [] = .ok (outs, xs) ∧ Runs.run stackOp before m = .ok (outs, m') ∧
      (m'.shortRegs.sp.toNat : Int) = (m.shortRegs.sp.toNat - depth before) % 256 ∧ SameOutside m m') ∧
    ∀ (v : Word) (xs : List Byte), xs.length + 2 ≤ 256 →
      Runs.run (lifo 256) [.push16 v, .pop16] xs = .ok ([.nothing, .word v], xs) := by
  constructor
  · intro before hb
    have hbefore : ∀ b, b <+: before → 0 ≤ ([] : List Byte).length + depth b ∧
        ([] : List Byte).length + depth b ≤ (256 : Nat) := by
      intro b hbb
      simpa using h b (hbb.trans hb)
    obtain ⟨outs, xs, hrun, hlen⟩ := lifo_run hbefore
    have hinit : Refines m m [] := ⟨holds_nil (ringOf m), fun _ _ => rfl⟩
    obtain ⟨m', hrun', hptr, hout⟩ := Runs.run_simulates stackOp_simulates hinit hrun
    refine ⟨outs, xs, m', hrun, hrun', ?_, hout⟩
    have hsp := congrArg BitVec.toNat hptr.ptr
    have hlt := m'.shortRegs.sp.isLt
    simp only [ringOf, BitVec.toNat_add, BitVec.toNat_ofNat] at hsp
    simp only [List.length_nil] at hlen
    omega
  · intro v xs hlen
    have hpush : lifo 256 (.push16 v) xs = .ok (.nothing, loByte v :: hiByte v :: xs) := if_pos hlen
    have hpop : lifo 256 .pop16 (loByte v :: hiByte v :: xs) = .ok (.word v, xs) := by simp [lifo]
    exact Runs.run_cons_ok hpush (Runs.run_cons_ok hpop rfl)

theorem run_refines_lifo_wrap :
    let m := bare 0x200 ⟨0, 1, 2, 3, 4⟩ fun _ => 0#8
    let ops := [StackOp.push16 0x1234, .push 0x56, .pop, .pop16]
    (∀ before, before <+: ops → ∃ outs xs m',
      Runs.run (lifo 256) before [] = .ok (outs, xs) ∧ Runs.run stackOp before m = .ok (outs, m') ∧
      (m'.shortRegs.sp.toNat : Int) = (m.shortRegs.sp.toNat - depth before) % 256 ∧ SameOutside m m') ∧
    ∀ (v : Word) (xs : List Byte), xs.length + 2 ≤ 256 →
      Runs.run (lifo 256) [.push16 v, .pop16] xs = .ok ([.nothing, .word v], xs) := by
  have hall : ∀ b ∈ List.inits [StackOp.push16 0x1234, .push 0x56, .pop, .pop16], 0 ≤ depth b ∧ depth b ≤ 256 := by
    decide
  exact run_refines_lifo _ _ fun before hb => hall before ((List.mem_inits before _).mpr hb)

end Bugnes.StackRefinement
