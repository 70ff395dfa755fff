import Bugnes.TestReports

namespace Bugnes.MacroAssembler

open Words CpuCore Addr OpcodeTable Registers Plain PlainRuns WordWrites Stepping Locality TestReports

/-- The macros of the assembler. -/
inductive Macro
  | ldaImm (x : Byte)
  | ldaZpa (x : Byte)
  | ldxImm (x : Byte)
  | staZpa (x : Byte)
  | staAbs (x : Word)
  | txsImp
  | phaImp
  | plaImp
  | adcImm (x : Byte)
  | sbcZpa (x : Byte)
  | cmpZpa (x : Byte)
  | beqRel (x : Byte)
  | bneRel (x : Byte)
  | jmpAbs (x : Word)
  | jsrAbs (x : Word)
  | rtsImp
  | cldImp
  | secImp
deriving DecidableEq, Repr

def demux16 (x : Word) : List Byte := [loByte x, hiByte x]

def Macro.bytes : Macro → List Byte
  | .ldaImm x => [0xA9, x]
  | .ldaZpa x => [0xA5, x]
  | .ldxImm x => [0xA2, x]
  | .staZpa x => [0x85, x]
  | .staAbs x => 0x8D :: demux16 x
  | .txsImp => [0x9A]
  | .phaImp => [0x48]
  | .plaImp => [0x68]
  | .adcImm x => [0x69, x]
  | .sbcZpa x => [0xE5, x]
  | .cmpZpa x => [0xC5, x]
  | .beqRel x => [0xF0, x]
  | .bneRel x => [0xD0, x]
  | .jmpAbs x => 0x4C :: demux16 x
  | .jsrAbs x => 0x20 :: demux16 x
  | .rtsImp => [0x60]
  | .cldImp => [0xD8]
  | .secImp => [0x38]

def assemble (is : List Macro) : List Byte := is.flatMap Macro.bytes

def exceptionSuccess : Word := 0x1000
def exceptionFailure : Word := 0x1001

def jmpToSucc : Macro := .jmpAbs exceptionSuccess
def jmpToFail : Macro := .jmpAbs exceptionFailure

abbrev Page := Word → Byte

/-- What the macros without a jump do to the registers and the two lowest pages. -/
def does : Macro → ShortRegs × Page → Option (ShortRegs × Page)
  | .ldaImm x, (r, low) => some (load .acc x r, low)
  | .ldaZpa x, (r, low) => some (load .acc (low (x.setWidth 16)) r, low)
  | .ldxImm x, (r, low) => some (load .x x r, low)
  | .staZpa x, (r, low) => some (r, Function.update low (x.setWidth 16) r.acc)
  | .txsImp, (r, low) => some ({ r with sp := r.x }, low)
  | .phaImp, (r, low) => some ({ r with sp := r.sp - 1#8 }, Function.update low (stackAddr r.sp) r.acc)
  | .plaImp, (r, low) => some (load .acc (low (stackAddr (r.sp + 1#8))) { r with sp := r.sp + 1#8 }, low)
  | .adcImm x, (r, low) => some (adc x r, low)
  | .sbcZpa x, (r, low) => some (sbc (low (x.setWidth 16)) r, low)
  | .cmpZpa x, (r, low) => some (cmpFlags r.acc (low (x.setWidth 16)) r, low)
  | .cldImp, (r, low) => some (putFlag flagD false r, low)
  | .secImp, (r, low) => some (putFlag flagC true r, low)
  | .staAbs _, _ | .beqRel _, _ | .bneRel _, _ | .jmpAbs _, _ | .jsrAbs _, _ | .rtsImp, _ => none

section Rules

variable {asm : List Byte} {pc : Word} {r : ShortRegs} {low : Page}

/-- The memory while only the two lowest pages are written. -/
def image (asm : List Byte) (low : Page) : Word → Byte := fun a => if a < 0x200#16 then low a else loaded asm a

/-- About to fetch at `pc`. -/
structure At (asm : List Byte) (pc : Word) (r : ShortRegs) (low : Page) (p : Machine Empty Unit) : Prop where
  next : nextPc p = pc
  regs : p.shortRegs = r
  mem : p.mem = image asm low

structure Here (asm : List Byte) (pc : Word) (bs : List Byte) : Prop where
  above : 0x200 ≤ pc.toNat
  below : pc < cpuAddrReservedStart
  bytes : ∀ i < bs.length, loaded asm (pc + BitVec.ofNat 16 i) = bs.getD i 0#8

theorem image_above {a : Word} (h : 0x200 ≤ a.toNat) : image asm low a = loaded asm a := if_neg (Nat.not_lt.mpr h)

theorem Here.image {bs : List Byte} (h : Here asm pc bs) {i : Nat} (hi : i < bs.length) (hle : i ≤ 2) :
    image asm low (pc + BitVec.ofNat 16 i) = bs.getD i 0#8 := by
  have hpc := BitVec.lt_def.mp h.below
  have habove := h.above
  have hreserved : cpuAddrReservedStart.toNat = 0xFFFA := rfl
  have hnext : (pc + BitVec.ofNat 16 i).toNat = pc.toNat + i := by
    rw [BitVec.toNat_add, BitVec.toNat_ofNat]
    omega
  rw [image_above (by omega), h.bytes i hi]

theorem Here.opcode {b : Byte} {bs : List Byte} (h : Here asm pc (b :: bs)) :
    MacroAssembler.image asm low pc = b := by
  have hb : MacroAssembler.image asm low (pc + 0#16) = b := h.image (i := 0) (Nat.succ_pos _) (Nat.zero_le _)
  rwa [BitVec.add_zero] at hb

theorem Here.operand {b x : Byte} {bs : List Byte} (h : Here asm pc (b :: x :: bs)) :
    MacroAssembler.image asm low (pc + 1#16) = x := h.image (i := 1) (Nat.succ_lt_succ (Nat.succ_pos _)) (by decide)

theorem Here.high {b x y : Byte} {bs : List Byte} (h : Here asm pc (b :: x :: y :: bs)) :
    MacroAssembler.image asm low (pc + 1#16 + 1#16) = y := by
  rw [add_one_one]
  exact h.image (i := 2) (Nat.succ_lt_succ (Nat.succ_lt_succ (Nat.succ_pos _))) le_rfl

theorem foldl_image {ws : List (Word × Byte)} (h : ∀ w ∈ ws, w.1 < 0x200#16) :
    ws.foldl (fun mem w => Function.update mem w.1 w.2) (image asm low) =
      image asm (ws.foldl (fun mem w => Function.update mem w.1 w.2) low) := by
  induction ws generalizing low with
  | nil => rfl
  | cons w ws ih =>
      have hw : Function.update (image asm low) w.1 w.2 = image asm (Function.update low w.1 w.2) := by
        funext a
        by_cases ha : a = w.1
        · rw [ha, image, if_pos (h w (.head _)), Function.update_self, Function.update_self]
        · simp only [image, Function.update_of_ne ha]
      rw [List.foldl_cons, List.foldl_cons, hw, ih fun v hv => h v (.tail _ hv)]

theorem no_writes : ∀ w ∈ ([] : List (Word × Byte)), w.1 < 0x200#16 := fun _ hw => absurd hw List.not_mem_nil

theorem no_branch : none ≠ some invalidAddress := (Option.some_ne_none invalidAddress).symm

/-- What an instruction of the program does to a state that is known. -/
theorem At.step {b : Byte} {bs : List Byte} {e : Effect} {p : Machine Empty Unit} (hp : At asm pc r low p)
    (hcode : Here asm pc (b :: bs)) (hexec : (opcodeAt b).exec ≠ .brk)
    (heffect : effect (opcodeAt b).exec (opcodeAt b).addrMode (bare pc r (image asm low)) = e)
    (hwrites : ∀ w ∈ e.writes, w.1 < 0x200#16) (hbranch : e.branch ≠ some invalidAddress) :
    ∃ q, testCycle p = some q ∧ At asm (e.branch.getD (pc + lenOf (opcodeAt b).addrMode)) e.regs
      (e.writes.foldl (fun mem w => Function.update mem w.1 w.2) low) q := by
  have hop : currentOp (fetched p) = opcodeAt b := by
    rw [currentOp, fetched, hp.next, hp.mem, hcode.opcode]
  have hdone : exec (fetched p) = e.apply (fetched p) := by
    rw [exec, hop, effect_core, core, fetched, hp.next, hp.regs, hp.mem, heffect]
  have hmem : (e.apply (fetched p)).mem =
      image asm (e.writes.foldl (fun mem w => Function.update mem w.1 w.2) low) := by
    rw [Effect.apply, fetched, hp.mem]
    exact foldl_image hwrites
  have hop' : currentOp (e.apply (fetched p)) = opcodeAt b := by
    have hpc : (e.apply (fetched p)).regPc = pc := hp.next
    rw [currentOp, hpc, hmem, hcode.opcode]
  have hcycle : cycle p = some (e.apply (fetched p)) := by
    rw [cycle, hp.next, if_pos hcode.below, hdone]
  refine ⟨e.apply (fetched p), testCycle_eq_some.mpr ⟨hcycle, ?_⟩, ?_, rfl, hmem⟩
  · rw [OnBrk, hop']
    exact hexec
  · have hpending : (e.apply (fetched p)).regPcBranched = e.branch.getD invalidAddress := rfl
    have hpc : (e.apply (fetched p)).regPc = pc := hp.next
    rw [nextPc, hpending, hpc, hop']
    cases he : e.branch with
    | none => exact if_neg (not_not_intro rfl)
    | some t => exact if_pos fun ht => hbranch (he.trans (congrArg some ht))

theorem addrOf_zpa {b z : Byte} {bs : List Byte} (h : Here asm pc (b :: z :: bs)) :
    addrOf .zpa (bare pc r (image asm low)) = z.setWidth 16 := congrArg (BitVec.setWidth 16) h.operand

theorem zpa_low (z : Byte) : z.setWidth 16 < 0x200#16 := by
  have hz := z.isLt
  rw [BitVec.lt_def, BitVec.toNat_setWidth, Nat.mod_eq_of_lt (by omega)]
  exact hz.trans (by decide)

theorem image_zpa (z : Byte) : image asm low (z.setWidth 16) = low (z.setWidth 16) := if_pos (zpa_low z)

theorem operandOf_zpa {b z : Byte} {bs : List Byte} (h : Here asm pc (b :: z :: bs)) :
    operandOf .zpa (bare pc r (image asm low)) = low (z.setWidth 16) := by
  have hvalid : z.setWidth 16 ≠ invalidAddress := by
    intro he
    exact absurd (he ▸ zpa_low z) (by decide)
  rw [operandOf, addrOf_zpa h, if_pos hvalid]
  exact image_zpa z

theorem operandOf_imm {b x : Byte} {bs : List Byte} (h : Here asm pc (b :: x :: bs)) :
    operandOf .imm (bare pc r (image asm low)) = x := by
  have hvalid : addrOf .imm (bare pc r (image asm low)) ≠ invalidAddress := by
    intro he
    have hlast : pc = 0xFFFE#16 := by
      rw [← BitVec.add_sub_cancel pc 1#16]
      exact congrArg (· - 1#16) he
    exact absurd (hlast ▸ h.below) (by decide)
  rw [operandOf, if_pos hvalid]
  exact h.operand

theorem stackAddr_low (s : Byte) : stackAddr s < 0x200#16 := by
  rw [BitVec.lt_def, toNat_stackAddr]
  exact Nat.add_lt_add_left s.isLt 256

theorem does_leads {i : Macro} {s s' : ShortRegs × Page} (hdoes : does i s = some s') (h : Here asm pc i.bytes) :
    LeadsTo testCycle (At asm pc s.1 s.2) (At asm (pc + BitVec.ofNat 16 i.bytes.length) s'.1 s'.2) := by
  obtain ⟨r, low⟩ := s
  cases i with
  | ldaImm x =>
      cases hdoes
      have heffect : effect .lda .imm (bare pc r (image asm low)) = onRegs (load .acc x r) :=
        congrArg (fun v => onRegs (load .acc v r)) h.operand
      exact .of_step fun p hp => hp.step h (by decide) heffect no_writes no_branch
  | ldaZpa x =>
      cases hdoes
      have heffect : effect .lda .zpa (bare pc r (image asm low)) = onRegs (load .acc (low (x.setWidth 16)) r) := by
        rw [effect, addrOf_zpa h]
        exact congrArg (fun v => onRegs (load .acc v r)) (image_zpa x)
      exact .of_step fun p hp => hp.step h (by decide) heffect no_writes no_branch
  | ldxImm x =>
      cases hdoes
      have heffect : effect .ldx .imm (bare pc r (image asm low)) = onRegs (load .x x r) :=
        congrArg (fun v => onRegs (load .x v r)) h.operand
      exact .of_step fun p hp => hp.step h (by decide) heffect no_writes no_branch
  | staZpa x =>
      cases hdoes
      have heffect : effect .sta .zpa (bare pc r (image asm low)) = ⟨r, [(x.setWidth 16, r.acc)], none⟩ := by
        rw [effect, addrOf_zpa h]
        rfl
      exact .of_step fun p hp => hp.step h (by decide) heffect (List.forall_mem_singleton.mpr (zpa_low x)) no_branch
  | adcImm x =>
      cases hdoes
      have heffect : effect .adc .imm (bare pc r (image asm low)) = onRegs (adc x r) := by
        rw [effect, operandOf_imm h]
        rfl
      exact .of_step fun p hp => hp.step h (by decide) heffect no_writes no_branch
  | sbcZpa x =>
      cases hdoes
      have heffect : effect .sbc .zpa (bare pc r (image asm low)) = onRegs (sbc (low (x.setWidth 16)) r) := by
        rw [effect, operandOf_zpa h]
        rfl
      exact .of_step fun p hp => hp.step h (by decide) heffect no_writes no_branch
  | cmpZpa x =>
      cases hdoes
      have heffect : effect .cmp .zpa (bare pc r (image asm low)) =
          onRegs (cmpFlags r.acc (low (x.setWidth 16)) r) := by
        rw [effect, operandOf_zpa h]
        rfl
      exact .of_step fun p hp => hp.step h (by decide) heffect no_writes no_branch
  | phaImp =>
      cases hdoes
      exact .of_step fun p hp => hp.step h (by decide) rfl (List.forall_mem_singleton.mpr (stackAddr_low r.sp)) no_branch
  | plaImp =>
      cases hdoes
      have heffect : effect .pla .imp (bare pc r (image asm low)) =
          onRegs (load .acc (low (stackAddr (r.sp + 1#8))) { r with sp := r.sp + 1#8 }) :=
        congrArg (fun v => onRegs (load .acc v { r with sp := r.sp + 1#8 })) (if_pos (stackAddr_low _))
      exact .of_step fun p hp => hp.step h (by decide) heffect no_writes no_branch
  | txsImp | cldImp | secImp =>
      cases hdoes
      exact .of_step fun p hp => hp.step h (by decide) rfl no_writes no_branch
  | staAbs _ | beqRel _ | bneRel _ | jmpAbs _ | jsrAbs _ | rtsImp => cases hdoes

theorem beq_rel {x : Byte} (h : Here asm pc (Macro.beqRel x).bytes)
    (hvalid : pc + 2#16 + x.signExtend 16 ≠ invalidAddress) :
    LeadsTo testCycle (At asm pc r low)
      (At asm (if flag flagZ r then pc + 2#16 + x.signExtend 16 else pc + 2#16) r low) := by
  have htarget : addrOf .rel (bare pc r (image asm low)) = pc + 2#16 + x.signExtend 16 :=
    congrArg (fun x : Byte => pc + 2#16 + x.signExtend 16) h.operand
  have heffect : effect .beq .rel (bare pc r (image asm low)) =
      jump r (flag flagZ r) (pc + 2#16 + x.signExtend 16) := by
    rw [effect, htarget]
    rfl
  cases hz : flag flagZ r with
  | false =>
      rw [hz] at heffect
      exact .of_step fun p hp => hp.step h (by decide) heffect no_writes no_branch
  | true =>
      rw [hz] at heffect
      exact .of_step fun p hp => hp.step h (by decide) heffect no_writes fun he => hvalid (Option.some.inj he)

theorem jmp_abs {t : Word} (h : Here asm pc (Macro.jmpAbs t).bytes) (hvalid : t ≠ invalidAddress) :
    LeadsTo testCycle (At asm pc r low) (At asm t r low) := by
  have heffect : effect .jmp .abs (bare pc r (image asm low)) = jump r true t := by
    have htarget : addrOf .abs (bare pc r (image asm low)) = t := by
      rw [addrOf]
      exact (congrArg₂ wordOf h.operand h.high).trans (wordOf_bytes t)
    rw [effect, htarget]
    rfl
  exact .of_step fun p hp => hp.step h (by decide) heffect no_writes fun he => hvalid (Option.some.inj he)

def called (v : Word) (r : ShortRegs) (low : Page) : Page :=
  Function.update (Function.update low (stackAddr r.sp) (hiByte v)) (stackAddr (r.sp - 1#8)) (loByte v)

theorem called_low (v : Word) (r : ShortRegs) (low : Page) :
    called v r low (stackAddr (r.sp - 1#8 - 1#8 + 1#8)) = loByte v := by
  rw [BitVec.sub_add_cancel]
  exact Function.update_self _ _ _

theorem called_high (v : Word) (r : ShortRegs) (low : Page) :
    called v r low (stackAddr (r.sp - 1#8 - 1#8 + 1#8 + 1#8)) = hiByte v := by
  have hne : r.sp ≠ r.sp - 1#8 := by bv_omega
  rw [BitVec.sub_add_cancel, BitVec.sub_add_cancel, called, Function.update_of_ne (stackAddr_injective.ne hne),
    Function.update_self]

theorem jsr_abs {t : Word} (h : Here asm pc (Macro.jsrAbs t).bytes) (hvalid : t ≠ invalidAddress) :
    LeadsTo testCycle (At asm pc r low) (At asm t { r with sp := r.sp - 1#8 - 1#8 } (called (pc + 2#16) r low)) := by
  have hwrites : ∀ w ∈ (pushedWord r (pc + 2#16)).writes, w.1 < 0x200#16 := by
    intro w hw
    obtain rfl | rfl := List.mem_pair.mp hw
    · exact stackAddr_low _
    · exact stackAddr_low _
  have hmem : ((pushedWord r (pc + 2#16)).apply (bare pc r (image asm low))).mem =
      image asm ((pushedWord r (pc + 2#16)).writes.foldl (fun mem w => Function.update mem w.1 w.2) low) :=
    foldl_image hwrites
  have htarget : addrOf .abs ((pushedWord r (pc + 2#16)).apply (bare pc r (image asm low))) = t := by
    rw [addrOf, hmem]
    exact (congrArg₂ wordOf h.operand h.high).trans (wordOf_bytes t)
  have heffect : effect .jsr .abs (bare pc r (image asm low)) =
      { pushedWord r (pc + 2#16) with branch := some t } :=
    congrArg (fun t => { pushedWord r (pc + 2#16) with branch := some t }) htarget
  exact .of_step fun p hp => hp.step h (by decide) heffect hwrites fun he => hvalid (Option.some.inj he)

theorem rts_imp {v : Word} (h : Here asm pc Macro.rtsImp.bytes) (hlow : low (stackAddr (r.sp + 1#8)) = loByte v)
    (hhigh : low (stackAddr (r.sp + 1#8 + 1#8)) = hiByte v) (hvalid : v + 1#16 ≠ invalidAddress) :
    LeadsTo testCycle (At asm pc r low) (At asm (v + 1#16) { r with sp := r.sp + 1#8 + 1#8 } low) := by
  have hread : wordOf (image asm low (stackAddr (r.sp + 1#8))) (image asm low (stackAddr (r.sp + 1#8 + 1#8))) = v := by
    rw [image, if_pos (stackAddr_low _), image, if_pos (stackAddr_low _), hlow, hhigh, wordOf_bytes]
  have heffect : effect .rts .imp (bare pc r (image asm low)) =
      ⟨{ r with sp := r.sp + 1#8 + 1#8 }, [], some (v + 1#16)⟩ :=
    congrArg (fun v => (⟨{ r with sp := r.sp + 1#8 + 1#8 }, [], some (v + 1#16)⟩ : Effect)) hread
  exact .of_step fun p hp => hp.step h (by decide) heffect no_writes fun he => hvalid (Option.some.inj he)

end Rules

section Blocks

variable {asm : List Byte} {k : Nat} {i : Macro} {is rest : List Macro} {s s' : ShortRegs × Page}

/-- The program from its byte `k` on. -/
def Code (asm : List Byte) (k : Nat) (is : List Macro) : Prop := asm.drop k = assemble is

def location (k : Nat) : Word := 0x200#16 + BitVec.ofNat 16 k

theorem Code.append (h : Code asm k (is ++ rest)) : Code asm (k + (assemble is).length) rest := by
  have hdrop : asm.drop k = assemble is ++ assemble rest := h.trans List.flatMap_append
  rw [Code, ← List.drop_drop, hdrop, List.drop_left]

theorem Code.tail (h : Code asm k (i :: is)) : Code asm (k + i.bytes.length) is := by
  have hsingle : assemble [i] = i.bytes := List.append_nil _
  have happ : Code asm k ([i] ++ is) := h
  rw [← hsingle]
  exact happ.append

theorem Code.here (h : Code asm k (i :: is)) (hfit : asm.length ≤ 0xFDFA) : Here asm (location k) i.bytes := by
  have hpos : 0 < i.bytes.length := by cases i <;> exact Nat.succ_pos _
  have hcode : asm.drop k = i.bytes ++ assemble is := h
  have hlen := congrArg List.length hcode
  rw [List.length_drop, List.length_append] at hlen
  have hpc : (location k).toNat = 0x200 + k := by
    rw [location, BitVec.toNat_add, BitVec.toNat_ofNat, BitVec.toNat_ofNat]
    omega
  have hsize : (asmSize asm).toNat = asm.length := Nat.mod_eq_of_lt (by omega)
  have hreserved : cpuAddrReservedStart.toNat = 0xFFFA := rfl
  refine ⟨by omega, BitVec.lt_def.mpr (by omega), fun j hj => ?_⟩
  have hindex : (location k + BitVec.ofNat 16 j - 0x200#16).toNat = k + j := by
    rw [location, BitVec.add_assoc, BitVec.add_comm, BitVec.add_sub_cancel, BitVec.toNat_add, BitVec.toNat_ofNat,
      BitVec.toNat_ofNat]
    omega
  have hbyte : asm[k + j]? = i.bytes[j]? := by
    rw [← List.getElem?_drop, hcode, List.getElem?_append_left hj]
  rw [loaded, hindex, if_pos (by omega), List.getD_eq_getElem?_getD, List.getD_eq_getElem?_getD, hbyte]

theorem location_add (k n : Nat) : location k + BitVec.ofNat 16 n = location (k + n) := by
  rw [location, location, BitVec.ofNat_add, BitVec.add_assoc]

/-- Straight-line code does what its macros do in turn. -/
theorem block_leads (hfit : asm.length ≤ 0xFDFA) (hcode : Code asm k (is ++ rest))
    (hdoes : is.foldlM (fun s i => does i s) s = some s') :
    LeadsTo testCycle (At asm (location k) s.1 s.2) (At asm (location (k + (assemble is).length)) s'.1 s'.2) := by
  induction is generalizing k s with
  | nil =>
      cases hdoes
      exact .of_imp fun _ h => h
  | cons i is ih =>
      rw [List.foldlM_cons] at hdoes
      obtain ⟨s₁, hfirst, hrest⟩ := Option.bind_eq_some_iff.mp hdoes
      have hstep := does_leads hfirst (hcode.here hfit)
      rw [location_add] at hstep
      have hlen : k + (assemble (i :: is)).length = k + i.bytes.length + (assemble is).length := by
        rw [assemble, List.flatMap_cons, List.length_append, Nat.add_assoc]
        rfl
      rw [hlen]
      exact hstep.trans (ih hcode.tail hrest)

theorem Code.after_fail (h : Code asm k (.beqRel 3 :: jmpToFail :: rest)) : Code asm (k + 5) rest := h.tail.tail

theorem beq_fail_leads (hfit : asm.length ≤ 0xFDFA) (hcode : Code asm k (.beqRel 3 :: jmpToFail :: rest)) :
    LeadsTo testCycle (At asm (location k) s.1 s.2)
      (At asm (if flag flagZ s.1 then location (k + 5) else exceptionFailure) s.1 s.2) := by
  have hhere := hcode.here hfit
  have htarget : location k + 2#16 + (3 : Byte).signExtend 16 = location (k + 5) := by
    rw [BitVec.add_assoc, ← location_add]
    rfl
  have hvalid : location k + 2#16 + (3 : Byte).signExtend 16 ≠ invalidAddress := by
    intro he
    have hk := congrArg (· - 5#16) (htarget.symm.trans he)
    rw [← location_add] at hk
    have hlast : location k = 0xFFFA#16 := (BitVec.add_sub_cancel _ _).symm.trans hk
    exact absurd (hlast ▸ hhere.below) (by decide)
  have hbeq : LeadsTo testCycle (At asm (location k) s.1 s.2) _ := beq_rel hhere hvalid
  rw [htarget] at hbeq
  cases hz : flag flagZ s.1 with
  | true =>
      rw [hz] at hbeq
      exact hbeq
  | false =>
      rw [hz] at hbeq
      have hnext : location k + 2#16 = location (k + (Macro.beqRel 3).bytes.length) := location_add k 2
      refine hbeq.trans ?_
      rw [if_neg Bool.false_ne_true, if_neg Bool.false_ne_true, hnext]
      exact jmp_abs (hcode.tail.here hfit) (by decide)

theorem at_booted (hfit : asm.length ≤ 0xFDFA) : At asm (location 0) ⟨0, 0, 0, 0, 0⟩ (loaded asm) (booted asm) := by
  have hsize : (asmSize asm).toNat = asm.length := Nat.mod_eq_of_lt (by omega)
  have hbyte : ∀ v : Word, 0xFFFC ≤ v.toNat → loaded asm v = meant (fun _ => 0#8) cpuAddrReset 0x200#16 v := by
    intro v hv
    have hindex : (v - 0x200#16).toNat = v.toNat - 0x200 := by
      have hlt := v.isLt
      rw [BitVec.toNat_sub, BitVec.toNat_ofNat]
      omega
    rw [loaded, hindex, if_neg (by omega)]
  have hvector : wordAt (loaded asm) cpuAddrReset = 0x200#16 := by
    rw [wordAt, hbyte _ (by decide), hbyte _ (by decide)]
    rfl
  refine ⟨?_, rfl, ?_⟩
  · have hpending : (booted asm).regPcBranched = 0x200#16 := hvector
    rw [nextPc, hpending]
    rfl
  · funext a
    exact (ite_self (loaded asm a)).symm

theorem onBrk_exit {t : Word} {p : Machine Empty Unit} (hfit : asm.length ≤ 0xE00) (ht : 0x1000 ≤ t.toNat)
    (hlt : t < cpuAddrReservedStart) (hp : At asm t s.1 s.2 p) : OnBrk (fetched p) := by
  have hmem : (fetched p).mem (fetched p).regPc = 0#8 := by
    have hpc : (fetched p).regPc = t := hp.next
    have hbelow := BitVec.lt_def.mp hlt
    have hreserved : cpuAddrReservedStart.toNat = 0xFFFA := rfl
    have hindex : (t - 0x200#16).toNat = t.toNat - 0x200 := by
      rw [BitVec.toNat_sub, BitVec.toNat_ofNat]
      omega
    have hsize : (asmSize asm).toNat = asm.length := Nat.mod_eq_of_lt (by omega)
    have hreset : t ≠ cpuAddrReset ∧ t ≠ cpuAddrReset + 1#16 := by
      constructor
      · rintro rfl
        exact absurd hlt (by decide)
      · rintro rfl
        exact absurd hlt (by decide)
    have hfetched : (fetched p).mem = image asm s.2 := hp.mem
    rw [hpc, hfetched, image_above (by omega), loaded, hindex, if_neg (by omega), meant, if_neg hreset.1,
      if_neg hreset.2]
  rw [OnBrk, currentOp, hmem]
  rfl

/-- A program that comes to an exit of the tests reports it, and nothing else. -/
theorem reports_of_leads {t : Word} (hfit : asm.length ≤ 0xE00) (ht : 0x1000 ≤ t.toNat) (hlt : t < cpuAddrReservedStart)
    (hleads : LeadsTo testCycle (At asm (location 0) ⟨0, 0, 0, 0, 0⟩ (loaded asm)) (At asm t s.1 s.2)) (x : Word) :
    Reports asm x ↔ x = t := by
  obtain ⟨k, q, hq, hat⟩ := hleads _ (at_booted (hfit.trans (by decide)))
  have hne : t ≠ 0#16 := by
    rintro rfl
    exact absurd ht (by decide)
  have hcomes : ComesTo t (booted asm) := ⟨k, q, hq, hat.next, hlt, onBrk_exit hfit ht hlt hat⟩
  have hreports : Reports asm t := (reports_iff asm).mpr ((thread_reports hne (ready_atLoop asm)).mpr hcomes)
  constructor
  · exact fun hx => hx.unique hreports
  · rintro rfl
    exact hreports

end Blocks

end Bugnes.MacroAssembler
