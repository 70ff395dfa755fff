import Bugnes.StackRefinement
import Bugnes.Transfers

namespace Bugnes.Subroutines

open Words Memhooks CpuCore Addr OpcodeTable Opcodes Plain PlainRuns PlainRefinement InstrFrame Transfers RingStack
  StackRefinement

variable {F σ : Type}

structure Visit (F σ : Type) where
  change : Machine F σ → Machine F σ
  site : Word

/-- Execute the instruction at the site, and tell where the next fetch goes. -/
def visit (hf : HookFuns F σ) : Runs.Machine (Visit F σ) Word (Machine F σ) Fault := fun v m =>
  (do
    modify v.change
    setPc v.site
    opcodeExec hf
    opcodeFetch hf
    getPc : CpuM F σ Word).run m

/-- A change that leaves SP, the stack page and the code alone. -/
structure Harmless (code : List Word) (change : Machine F σ → Machine F σ) : Prop where
  stack : ∀ m, ringOf (change m) = ringOf m
  bytes : ∀ m, ∀ a ∈ code, (change m).mem a = m.mem a
  hooks : ∀ m, ∀ a ∈ code, HookFreeAt m.allMh a → HookFreeAt (change m).allMh a

def CodeCell (m : Machine F σ) (a : Word) : Prop :=
  HookFreeAt m.allMh a ∧ ¬(0x100 ≤ a.toNat ∧ a.toNat ≤ 0x1FF)

def callCells (p : Word) : List Word := [p, p + 1#16, p + 2#16]

structure CallSite (m : Machine F σ) (p : Word) : Prop where
  opcode : m.mem p = 0x20#8
  cells : ∀ a ∈ callCells p, CodeCell m a
  back : p.toNat + 3 < 0xFFFA
  forth : wordAt m.mem (p + 1#16) < cpuAddrReservedStart

structure ReturnSite (m : Machine F σ) (q : Word) : Prop where
  opcode : m.mem q = 0x60#8
  cell : CodeCell m q

def codeOf (calls returns : List (Visit F σ)) : List Word :=
  calls.flatMap (fun v => callCells v.site) ++ returns.map Visit.site

def frames (ws : List Word) : List Byte := ws.flatMap fun w => [loByte w, hiByte w]

theorem length_frames (ws : List Word) : (frames ws).length = 2 * ws.length := by
  induction ws with
  | nil => rfl
  | cons w ws ih =>
      simp only [frames, List.flatMap_cons, List.length_append, List.length_cons] at *
      rw [ih]
      simp
      omega

/-- Inside the calls with the return addresses `ws`, the innermost first. -/
structure Inside (code : List Word) (m₀ m : Machine F σ) (ws : List Word) : Prop where
  holds : Holds m₀.shortRegs.sp (ringOf m) (frames ws)
  same : ∀ a ∈ code, m.mem a = m₀.mem a
  free : ∀ a ∈ code, HookFreeAt m.allMh a

theorem Inside.change {code : List Word} {m₀ m : Machine F σ} {ws : List Word} (h : Inside code m₀ m ws)
    {c : Machine F σ → Machine F σ} (hc : Harmless code c) (p : Word) :
    Inside code m₀ { c m with regPc := p } ws where
  holds := (hc.stack m).symm ▸ h.holds
  same a ha := (hc.bytes m a ha).trans (h.same a ha)
  free a ha := hc.hooks m a ha (h.free a ha)

theorem opcodeAt_jsr : opcodeAt 0x20#8 = ⟨"JSR", .jsr, .abs⟩ := rfl

theorem opcodeAt_rts : opcodeAt 0x60#8 = ⟨"RTS", .rts, .imp⟩ := rfl

theorem exec_jsr {m : Machine F σ} (h : m.mem m.regPc = 0x20#8) :
    exec m = { (pushedWord m.shortRegs (m.regPc + 2#16)).apply m with regPcBranched := pushedOperand m } := by
  rw [exec, currentOp, h, opcodeAt_jsr]
  rfl

theorem exec_rts {m : Machine F σ} (h : m.mem m.regPc = 0x60#8) :
    exec m = { m with
      shortRegs := { m.shortRegs with sp := m.shortRegs.sp + 1#8 + 1#8 }
      regPcBranched := wordOf (m.mem (stackAddr (m.shortRegs.sp + 1#8)))
        (m.mem (stackAddr (m.shortRegs.sp + 1#8 + 1#8))) + 1#16 } := by
  rw [exec, currentOp, h, opcodeAt_rts]
  rfl

section Steps

variable (hf : HookFuns F σ) {code : List Word} {m₀ m : Machine F σ} {ws : List Word}

theorem exec_call (h : Inside code m₀ m ws) (hroom : ws.length < 128) (hout : ∀ a ∈ code, CodeCell m₀ a)
    (hcells : callCells m.regPc ⊆ code) (hsite : CallSite m₀ m.regPc) :
    (opcodeExec hf).run m = .ok ((), exec m) ∧
      (exec m).regPcBranched = wordAt m₀.mem (m.regPc + 1#16) ∧
      Inside code m₀ (exec m) ((m.regPc + 2#16) :: ws) := by
  have h₀ : m.regPc ∈ code := hcells (by simp [callCells])
  have h₁ : m.regPc + 1#16 ∈ code := hcells (by simp [callCells])
  have h₂ : m.regPc + 2#16 ∈ code := hcells (by simp [callCells])
  have hopcode : m.mem m.regPc = 0x20#8 := (h.same _ h₀).trans hsite.opcode
  have hmem : ∀ a ∈ code, ((pushedWord m.shortRegs (m.regPc + 2#16)).apply m).mem a = m₀.mem a :=
    fun a ha => (pushedWord_sameOutside m _ a (hout a ha).2).trans (h.same a ha)
  refine ⟨opcodeExec_run hf (h.free _ h₀) ?_ ?_, ?_, ?_, ?_, ?_⟩
  · rw [currentOp, hopcode, opcodeAt_jsr]
    intro a ha
    rcases List.mem_cons.mp ha with rfl | ha
    · exact h.free _ h₁
    · rw [List.mem_singleton.mp ha]
      exact h.free _ h₂
  · rw [currentOp, hopcode, opcodeAt_jsr]
    rintro ⟨⟩
  · have htwo := add_one_one m.regPc
    have hoperand : pushedOperand m = wordAt m₀.mem (m.regPc + 1#16) :=
      congrArg₂ wordOf (hmem _ h₁) ((congrArg _ htwo).trans ((hmem _ h₂).trans (congrArg _ htwo.symm)))
    rw [exec_jsr hopcode]
    exact hoperand
  · have hring : ringOf (exec m) = push (loByte (m.regPc + 2#16)) (push (hiByte (m.regPc + 2#16)) (ringOf m)) := by
      rw [exec_jsr hopcode, ← ringOf_pushedWord]
      rfl
    have hlen := length_frames ws
    have hhi := push_holds h.holds (by omega) (hiByte (m.regPc + 2#16))
    rw [hring]
    exact push_holds hhi (by simp only [List.length_cons]; omega) (loByte (m.regPc + 2#16))
  · intro a ha
    rw [exec_jsr hopcode]
    exact hmem a ha
  · exact h.free

theorem exec_return {w : Word} (h : Inside code m₀ m (w :: ws)) (hcell : m.regPc ∈ code)
    (hsite : ReturnSite m₀ m.regPc) :
    (opcodeExec hf).run m = .ok ((), exec m) ∧ (exec m).regPcBranched = w + 1#16 ∧ Inside code m₀ (exec m) ws := by
  have hopcode : m.mem m.regPc = 0x60#8 := (h.same _ hcell).trans hsite.opcode
  obtain ⟨hl, hholds⟩ := pop_holds h.holds
  obtain ⟨hh, hholds⟩ := pop_holds hholds
  refine ⟨opcodeExec_run hf (h.free _ hcell) ?_ ?_, ?_, ?_, ?_, ?_⟩
  · rw [currentOp, hopcode, opcodeAt_rts]
    exact fun a ha => absurd ha List.not_mem_nil
  · rw [currentOp, hopcode, opcodeAt_rts]
    rintro ⟨⟩
  · have hword := congrArg₂ wordOf hl hh
    rw [wordOf_bytes] at hword
    rw [exec_rts hopcode]
    exact congrArg (· + 1#16) hword
  · have hring : ringOf (exec m) = (pop (pop (ringOf m)).2).2 := by
      rw [exec_rts hopcode]
      rfl
    rw [hring]
    exact hholds
  · intro a ha
    rw [exec_rts hopcode]
    exact h.same a ha
  · exact h.free

theorem visit_run {v : Visit F σ} {m' : Machine F σ} {t : Word}
    (hexec : (opcodeExec hf).run { v.change m with regPc := v.site } = .ok ((), m'))
    (hslot : m'.regPcBranched = t) (ht : t < cpuAddrReservedStart) :
    visit hf v m = .ok (t, { m' with regPc := t, regPcBranched := invalidAddress }) := by
  have hmark := ne_invalid_of_lt ht
  have hnext : nextPc m' = t := by rw [nextPc, hslot, if_pos hmark]
  have hfetch := opcodeFetch_run hf (m := m') fun h => absurd (hslot.symm.trans h) hmark
  rw [hnext, if_pos ht] at hfetch
  have hset : (setPc v.site : CpuM F σ Unit).run (v.change m) = .ok ((), { v.change m with regPc := v.site }) := rfl
  simp [visit, hset, hexec, hfetch]

theorem visit_call {v : Visit F σ} (h : Inside code m₀ m ws) (hroom : ws.length < 128) (hc : Harmless code v.change)
    (hout : ∀ a ∈ code, CodeCell m₀ a) (hcells : callCells v.site ⊆ code) (hsite : CallSite m₀ v.site) :
    ∃ m', visit hf v m = .ok (wordAt m₀.mem (v.site + 1#16), m') ∧ Inside code m₀ m' ((v.site + 2#16) :: ws) := by
  obtain ⟨hexec, hslot, hin⟩ := exec_call hf (h.change hc v.site) hroom hout hcells hsite
  exact ⟨_, visit_run hf hexec hslot hsite.forth, hin.holds, hin.same, hin.free⟩

theorem visit_return {v : Visit F σ} {w : Word} (h : Inside code m₀ m (w :: ws)) (hc : Harmless code v.change)
    (hcell : v.site ∈ code) (hsite : ReturnSite m₀ v.site) (hw : w + 1#16 < cpuAddrReservedStart) :
    ∃ m', visit hf v m = .ok (w + 1#16, m') ∧ Inside code m₀ m' ws := by
  obtain ⟨hexec, hslot, hin⟩ := exec_return hf (h.change hc v.site) hcell hsite
  exact ⟨_, visit_run hf hexec hslot hw, hin.holds, hin.same, hin.free⟩

theorem run_calls {calls : List (Visit F σ)} (h : Inside code m₀ m ws) (hroom : ws.length + calls.length ≤ 128)
    (hout : ∀ a ∈ code, CodeCell m₀ a) (hc : ∀ v ∈ calls, Harmless code v.change)
    (hcells : ∀ v ∈ calls, callCells v.site ⊆ code) (hsites : ∀ v ∈ calls, CallSite m₀ v.site) :
    ∃ m', Runs.run (visit hf) calls m = .ok (calls.map fun v => wordAt m₀.mem (v.site + 1#16), m') ∧
      Inside code m₀ m' ((calls.map fun v => v.site + 2#16).reverse ++ ws) := by
  induction calls generalizing m ws with
  | nil => exact ⟨m, rfl, h⟩
  | cons v calls ih =>
      rw [List.length_cons] at hroom
      have hv := List.mem_cons_self (a := v) (l := calls)
      obtain ⟨m₁, hrun₁, h₁⟩ := visit_call hf h (by omega) (hc v hv) hout (hcells v hv) (hsites v hv)
      obtain ⟨m₂, hrun₂, h₂⟩ := ih h₁ (by rw [List.length_cons]; omega) (fun u hu => hc u (.tail _ hu))
        (fun u hu => hcells u (.tail _ hu)) (fun u hu => hsites u (.tail _ hu))
      refine ⟨m₂, Runs.run_cons_ok hrun₁ hrun₂, ?_⟩
      rwa [List.map_cons, List.reverse_cons, List.append_assoc]

theorem run_returns {returns : List (Visit F σ)} (h : Inside code m₀ m ws) (hlen : returns.length = ws.length)
    (hws : ∀ w ∈ ws, w + 1#16 < cpuAddrReservedStart) (hc : ∀ v ∈ returns, Harmless code v.change)
    (hcells : ∀ v ∈ returns, v.site ∈ code) (hsites : ∀ v ∈ returns, ReturnSite m₀ v.site) :
    ∃ m', Runs.run (visit hf) returns m = .ok (ws.map fun w => w + 1#16, m') ∧ Inside code m₀ m' [] := by
  induction returns generalizing m ws with
  | nil =>
      rw [List.length_eq_zero_iff.mp hlen.symm] at h ⊢
      exact ⟨m, rfl, h⟩
  | cons v returns ih =>
      obtain ⟨w, ws, rfl⟩ : ∃ w us, ws = w :: us :=
        List.exists_cons_of_length_pos (by rw [← hlen, List.length_cons]; omega)
      have hv := List.mem_cons_self (a := v) (l := returns)
      obtain ⟨m₁, hrun₁, h₁⟩ := visit_return hf h (hc v hv) (hcells v hv) (hsites v hv) (hws w List.mem_cons_self)
      obtain ⟨m₂, hrun₂, h₂⟩ := ih h₁ (Nat.succ.inj hlen) (fun u hu => hws u (.tail _ hu))
        (fun u hu => hc u (.tail _ hu)) (fun u hu => hcells u (.tail _ hu)) (fun u hu => hsites u (.tail _ hu))
      exact ⟨m₂, Runs.run_cons_ok hrun₁ hrun₂, h₂⟩

end Steps

theorem codeOf_cells {m : Machine F σ} {calls returns : List (Visit F σ)} (hcalls : ∀ v ∈ calls, CallSite m v.site)
    (hreturns : ∀ v ∈ returns, ReturnSite m v.site) : ∀ a ∈ codeOf calls returns, CodeCell m a := by
  intro a ha
  rcases List.mem_append.mp ha with ha | ha
  · obtain ⟨v, hv, ha⟩ := List.mem_flatMap.mp ha
    exact (hcalls v hv).cells a ha
  · obtain ⟨v, hv, rfl⟩ := List.mem_map.mp ha
    exact (hreturns v hv).cell

/-- Up to 128 nested calls continue at their operands, and as many returns
continue behind the calls, the innermost first, with SP back where it was. -/
theorem nested_calls_return (hf : HookFuns F σ) (m : Machine F σ) (calls returns : List (Visit F σ))
    (hlen : returns.length = calls.length) (hn : calls.length ≤ 128) (hcalls : ∀ v ∈ calls, CallSite m v.site)
    (hreturns : ∀ v ∈ returns, ReturnSite m v.site)
    (hchange : ∀ v ∈ calls ++ returns, Harmless (codeOf calls returns) v.change) :
    ∃ m', Runs.run (visit hf) (calls ++ returns) m =
        .ok ((calls.map fun v => wordAt m.mem (v.site + 1#16)) ++ (calls.map fun v => v.site + 3#16).reverse, m') ∧
      m'.shortRegs.sp = m.shortRegs.sp := by
  have hout := codeOf_cells hcalls hreturns
  have hinit : Inside (codeOf calls returns) m m [] := ⟨holds_nil (ringOf m), fun _ _ => rfl, fun a ha => (hout a ha).1⟩
  obtain ⟨m₁, hrun₁, h₁⟩ := run_calls hf hinit (by simpa using hn) hout
    (fun v hv => hchange v (List.mem_append_left _ hv))
    (fun v hv a ha => List.mem_append_left _ (List.mem_flatMap.mpr ⟨v, hv, ha⟩)) hcalls
  rw [List.append_nil] at h₁
  have hback : ∀ v ∈ calls, v.site + 2#16 + 1#16 < cpuAddrReservedStart := by
    intro v hv
    have h := (hcalls v hv).back
    simp only [BitVec.lt_def, BitVec.toNat_add, BitVec.toNat_ofNat, cpuAddrReservedStart]
    omega
  obtain ⟨m₂, hrun₂, h₂⟩ := run_returns hf h₁ (by simpa using hlen) (by simpa using hback)
    (fun v hv => hchange v (List.mem_append_right _ hv))
    (fun v hv => List.mem_append_right _ (List.mem_map_of_mem hv)) hreturns
  refine ⟨m₂, ?_, ?_⟩
  · rw [Runs.run_append_ok hrun₁ hrun₂, List.map_reverse, List.map_map]
    simp only [Function.comp_def, add_two_one]
  · have hptr := h₂.holds.ptr
    simpa [ringOf, frames] using hptr

theorem nested_calls_return_twice :
    let m := bare 0x200 ⟨0, 1, 2, 3, 4⟩ (bytesAt 0x200 [0x20, 0x03, 0x02, 0x20, 0x06, 0x02, 0x60])
    let change : Machine Empty Unit → Machine Empty Unit :=
      fun m => { m with shortRegs := { m.shortRegs with acc := m.shortRegs.acc + 1#8 } }
    let calls : List (Visit Empty Unit) := [⟨change, 0x200⟩, ⟨change, 0x203⟩]
    ∃ m', Runs.run (visit noHooks) (calls ++ [⟨change, 0x206⟩, ⟨change, 0x206⟩]) m =
        .ok ((calls.map fun v => wordAt m.mem (v.site + 1#16)) ++ (calls.map fun v => v.site + 3#16).reverse, m') ∧
      m'.shortRegs.sp = m.shortRegs.sp := by
  intro m change calls
  have hfree := (bare_hookFree 0x200 ⟨0, 1, 2, 3, 4⟩ (bytesAt 0x200 [0x20, 0x03, 0x02, 0x20, 0x06, 0x02, 0x60])).at
  have hpage : ∀ a ∈ callCells 0x200 ++ callCells 0x203, ¬(0x100 ≤ a.toNat ∧ a.toNat ≤ 0x1FF) := by simp [callCells]
  refine nested_calls_return noHooks m calls [⟨change, 0x206⟩, ⟨change, 0x206⟩] rfl (by decide : 2 ≤ 128) ?_ ?_ ?_
  · intro v hv
    simp only [calls, List.mem_cons, List.not_mem_nil, or_false] at hv
    rcases hv with rfl | rfl
    · exact ⟨by decide, fun a ha => ⟨hfree a, hpage a (List.mem_append_left _ ha)⟩, by decide, by decide⟩
    · exact ⟨by decide, fun a ha => ⟨hfree a, hpage a (List.mem_append_right _ ha)⟩, by decide, by decide⟩
  · intro v hv
    simp only [List.mem_cons, List.not_mem_nil, or_false, or_self] at hv
    subst hv
    exact ⟨by decide, hfree _, by decide⟩
  · intro v hv
    have hv' : v.change = change := by
      simp only [calls, List.cons_append, List.nil_append, List.mem_cons, List.not_mem_nil, or_false] at hv
      rcases hv with rfl | rfl | rfl | rfl <;> rfl
    rw [hv']
    exact ⟨fun _ => rfl, fun _ _ _ => rfl, fun _ _ _ h => h⟩

end Bugnes.Subroutines
