import Bugnes.StatelessHooks

namespace Bugnes.AccessLog

open Words Memhooks CpuCore Addr OpcodeTable Opcodes Plain PlainRuns StatelessHooks

variable {F : Type}

inductive Access
  | read (a : Word)
  | write (a : Word)
deriving DecidableEq, Repr

abbrev Log := List Access

abbrev LogM (F : Type) := CpuM F Log

def note (x : Access) : LogM F Unit := modify fun m => { m with world := m.world ++ [x] }

/-- Hooks that note every call and answer with a function of their arguments. -/
def recording (p : PureHooks F) : HookFuns F Log where
  read f a := do
    note (.read a)
    return p.read f a
  write f a v := do
    note (.write a)
    return p.write f a v
  transl f a := return p.transl f a
  exc _ _ _ := return ()

section Calls

variable (t : AllMh F) (a : Word)

def readCalls : Log := if check t .read a = none then [] else [.read a]

def writeCalls : Log := if check t .write a = none then [] else [.write a]

end Calls

def noted (m : Machine F Log) (log : Log) : Machine F Log := { m with world := m.world ++ log }

@[simp] theorem noted_noted (m : Machine F Log) (l l' : Log) : noted (noted m l) l' = noted m (l ++ l') := by
  simp [noted]

@[simp] theorem noted_nil (m : Machine F Log) : noted m [] = m := by
  simp [noted]

@[simp] theorem noted_allMh (m : Machine F Log) (l : Log) : (noted m l).allMh = m.allMh := rfl

@[simp] theorem noted_mem (m : Machine F Log) (l : Log) : (noted m l).mem = m.mem := rfl

@[simp] theorem noted_regPc (m : Machine F Log) (l : Log) : (noted m l).regPc = m.regPc := rfl

@[simp] theorem noted_shortRegs (m : Machine F Log) (l : Log) : (noted m l).shortRegs = m.shortRegs := rfl

/-- The machine with the memory that its reads find. -/
def sight (p : PureHooks F) (m : Machine F Log) : Machine F Log := { m with mem := seen p m.allMh m.mem }

def Untranslated (t : AllMh F) : Prop := ∀ a, check t .transl a = none

section Primitives

variable {p : PureHooks F} {m : Machine F Log} (h : Untranslated m.allMh)

include h

omit h in
theorem note_run (x : Access) (m : Machine F Log) : (note x).run m = .ok ((), noted m [x]) := rfl

theorem translAddr_recording (a : Word) : (translAddr (recording p) a).run m = .ok (a, m) := by
  simp [translAddr, h a]

theorem seen_untranslated (a : Word) :
    seen p m.allMh m.mem a = match check m.allMh .read a with
      | some f => p.read f a
      | none => m.mem a := by
  have ha : translated p m.allMh a = a := by simp [translated, h a]
  cases hc : check m.allMh .read a <;> simp [seen, ha, hc]

theorem memRead_recording (a : Word) :
    (memRead (recording p) a).run m = .ok (seen p m.allMh m.mem a, noted m (readCalls m.allMh a)) := by
  have hread : ∀ f, (recording p).read f a = note (.read a) >>= fun _ => pure (p.read f a) := fun _ => rfl
  rw [seen_untranslated h]
  cases hc : check m.allMh .read a with
  | none => simp [memRead, translAddr_recording h, readCalls, hc]
  | some f => simp [memRead, translAddr_recording h, readCalls, hc, hread, note_run]

theorem memRead16_recording (a : Word) :
    (memRead16 (recording p) a).run m = .ok (wordAt (seen p m.allMh m.mem) a,
      noted m (readCalls m.allMh (a + 1#16) ++ readCalls m.allMh a)) := by
  have hlsb := memRead_recording (p := p) (m := noted m (readCalls m.allMh (a + 1#16))) h a
  simp only [noted_allMh, noted_mem, noted_noted] at hlsb
  simp [memRead16, memRead_recording h, hlsb, wordAt]

theorem memWrite_recording (a : Word) (v : Byte) :
    ∃ mem, (memWrite (recording p) a v).run m = .ok ((), { noted m (writeCalls m.allMh a) with mem := mem }) := by
  have hwrite : ∀ f, (recording p).write f a v = note (.write a) >>= fun _ => pure (p.write f a v) := fun _ => rfl
  cases hc : check m.allMh .write a with
  | none => exact ⟨Function.update m.mem a v, by simp [memWrite, translAddr_recording h, writeCalls, hc]⟩
  | some f =>
      refine ⟨Function.update m.mem a (p.write f a v), ?_⟩
      simp [memWrite, translAddr_recording h, writeCalls, hc, hwrite, note_run]

theorem memInc_recording (a : Word) (d : Int) :
    ∃ mem, (memInc (recording p) a d).run m = .ok ((), { noted m (writeCalls m.allMh a) with mem := mem }) := by
  have hwrite : ∀ f v, (recording p).write f a v = note (.write a) >>= fun _ => pure (p.write f a v) := fun _ _ => rfl
  cases hc : check m.allMh .write a with
  | none =>
      exact ⟨Function.update m.mem a (m.mem a + BitVec.ofInt 8 d),
        by simp [memInc, translAddr_recording h, writeCalls, hc]⟩
  | some f =>
      refine ⟨Function.update m.mem a (p.write f a (m.mem a + BitVec.ofInt 8 d)), ?_⟩
      simp [memInc, translAddr_recording h, writeCalls, hc, hwrite, note_run]

def addrCalls (p : PureHooks F) (mode : AddrMode) (m : Machine F Log) : Log :=
  readCalls m.allMh (m.regPc + 2#16) ++ readCalls m.allMh (m.regPc + 1#16) ++ readCalls m.allMh (m.regPc + 1#16) ++
    readCalls m.allMh (m.regPc + 1#16) ++ (pointerCells mode (sight p m)).reverse.flatMap (readCalls m.allMh)

theorem addr_recording (mode : AddrMode) :
    (addr (recording p) mode).run m = .ok (addrOf mode (sight p m), noted m (addrCalls p mode m)) := by
  have hread : ∀ (l : Log) a, (memRead (recording p) a).run (noted m l) =
      .ok (seen p m.allMh m.mem a, noted m (l ++ readCalls m.allMh a)) := by
    intro l a
    simpa using memRead_recording (p := p) (m := noted m l) h a
  have hread16 : ∀ (l : Log) a, (memRead16 (recording p) a).run (noted m l) =
      .ok (wordAt (seen p m.allMh m.mem) a,
        noted m (l ++ (readCalls m.allMh (a + 1#16) ++ readCalls m.allMh a))) := by
    intro l a
    simpa using memRead16_recording (p := p) (m := noted m l) h a
  have hstart := memRead16_recording (p := p) h (m.regPc + 1#16)
  cases mode <;>
    simp [addr, hstart, hread, hread16, addrOf, addrCalls, pointerCells, sight, add_one_one, ShortRegs.get]

/-- The address is computed once to look whether there is one and once more to
read from it. -/
def operandCalls (p : PureHooks F) (mode : AddrMode) (m : Machine F Log) : Log :=
  addrCalls p mode m ++
    if addrOf mode (sight p m) = invalidAddress then []
    else addrCalls p mode m ++ readCalls m.allMh (addrOf mode (sight p m))

theorem addrModeGetValue_recording (mode : AddrMode) :
    ∃ v, (addrModeGetValue (recording p) mode).run m = .ok (v, noted m (operandCalls p mode m)) := by
  have ha := addr_recording (p := p) h mode
  by_cases hv : addrOf mode (sight p m) = invalidAddress
  · refine ⟨operandOf mode (sight p m), ?_⟩
    cases mode with
    | acc =>
        simp [addrModeGetValue, operandCalls, operandOf, value, addrValid, ha, hv, ShortRegs.get]
        rfl
    | _ => simp [addrModeGetValue, operandCalls, operandOf, value, addrValid, ha, hv]
  · have ha' : (addr (recording p) mode).run (noted m (addrCalls p mode m)) =
        .ok (addrOf mode (sight p m), noted m (addrCalls p mode m ++ addrCalls p mode m)) := by
      have := addr_recording (p := p) (m := noted m (addrCalls p mode m)) h mode
      rwa [noted_noted] at this
    have hr := memRead_recording (p := p) (m := noted m (addrCalls p mode m ++ addrCalls p mode m)) h
      (addrOf mode (sight p m))
    rw [noted_noted] at hr
    refine ⟨seen p m.allMh m.mem (addrOf mode (sight p m)), ?_⟩
    simp [addrModeGetValue, operandCalls, addrValid, ha, ha', hr, hv]

end Primitives

def Logs (x : LogM F Unit) (m : Machine F Log) (log : Log) : Prop :=
  ∃ m', x.run m = .ok ((), m') ∧ m'.world = m.world ++ log

def Quiet (x : LogM F Unit) : Prop := ∀ m, Logs x m []

theorem Logs.after {α : Type} {x : LogM F α} {f : α → LogM F Unit} {m m₁ : Machine F Log} {a : α} {l l' : Log}
    (hx : x.run m = .ok (a, m₁)) (hworld : m₁.world = m.world ++ l) (hf : Logs (f a) m₁ l') :
    Logs (x >>= f) m (l ++ l') := by
  obtain ⟨m', hrun, hm'⟩ := hf
  refine ⟨m', ?_, ?_⟩
  · rw [StateT.run_bind, hx, ok_bind, hrun]
  · rw [hm', hworld, List.append_assoc]

theorem Logs.quietly {α : Type} {x : LogM F α} {f : α → LogM F Unit} {m m₁ : Machine F Log} {a : α} {l : Log}
    (hx : x.run m = .ok (a, m₁)) (hworld : m₁.world = m.world ++ l) (hf : Quiet (f a)) : Logs (x >>= f) m l :=
  List.append_nil l ▸ Logs.after hx hworld (hf m₁)

theorem Logs.of_run {x : LogM F Unit} {m m' : Machine F Log} (h : x.run m = .ok ((), m')) (hworld : m'.world = m.world) :
    Logs x m [] := ⟨m', h, by rw [hworld, List.append_nil]⟩

section Instructions

variable {p : PureHooks F} {m : Machine F Log} (h : Untranslated m.allMh)

theorem quiet_load {dest : ShortReg} (hdest : dest = .acc ∨ dest = .x ∨ dest = .y) (v : Byte) :
    Quiet (F := F) (setSreg dest v >>= fun _ => flagsUpdateBasicByRegister dest) :=
  fun m => .of_run (setSreg_load_run m v hdest) rfl

theorem quiet_flags (v : Byte) : Quiet (F := F) (flagsUpdateBasicByValue v) :=
  fun m => .of_run (flagsUpdateBasicByValue_run m v) rfl

theorem quiet_mem2pc (target : Word) (condition : Bool) : Quiet (F := F) (asmMem2pc target condition) :=
  fun m => .of_run (asmMem2pc_run m target condition) rfl

include h

theorem asmMem2reg_logs {dest : ShortReg} (hdest : dest = .acc ∨ dest = .x ∨ dest = .y) (e : Word) :
    Logs (asmMem2reg (recording p) dest e) m (readCalls m.allMh e) :=
  .quietly (memRead_recording h e) rfl (quiet_load hdest _)

theorem asmReg2mem_logs (e : Word) (source : ShortReg) :
    Logs (asmReg2mem (recording p) e source) m (writeCalls m.allMh e) := by
  obtain ⟨mem, hw⟩ := memWrite_recording (p := p) h e (m.shortRegs.get source)
  exact .after (l := []) (getSreg_run m source) (List.append_nil _).symm ⟨_, hw, rfl⟩

theorem flagsUpdateBasicByMem_logs (e : Word) :
    Logs (flagsUpdateBasicByMem (recording p) e) m (readCalls m.allMh e) :=
  .quietly (memRead_recording h e) rfl (quiet_flags _)

theorem asmIncMem_logs {d : Int} (hd : d.natAbs = 1) (e : Word) :
    Logs (asmIncMem (recording p) e d) m (writeCalls m.allMh e ++ readCalls m.allMh e) := by
  obtain ⟨mem, hw⟩ := memInc_recording (p := p) h e d
  exact .after (l := []) (require_run hd m) (List.append_nil _).symm
    (.after hw rfl (flagsUpdateBasicByMem_logs (m := { noted m _ with mem := mem }) h e))

theorem writeBack_logs (e : Word) (v : Byte) :
    Logs (memWrite (recording p) e v >>= fun _ => flagsUpdateBasicByMem (recording p) e) m
      (writeCalls m.allMh e ++ readCalls m.allMh e) := by
  obtain ⟨mem, hw⟩ := memWrite_recording (p := p) h e v
  exact .after hw rfl (flagsUpdateBasicByMem_logs (m := { noted m _ with mem := mem }) h e)

theorem asmShrot_memory_logs {e : Word} (he : e ≠ invalidAddress) {direction fill : Int}
    (hd : direction = 1 ∨ direction = -1) (hfill : fill = 0 ∨ fill = 1) :
    Logs (asmShrot (recording p) e .acc direction fill) m
      (readCalls m.allMh e ++ (writeCalls m.allMh e ++ readCalls m.allMh e)) := by
  have hread := memRead_recording (p := p) h e
  have hcarry := flagsUpdateShrotCarry_run (noted m (readCalls m.allMh e)) (seen p m.allMh m.mem e) hd hfill
  rw [asmShrot_memory (recording p) he hd hfill]
  refine .after hread rfl (.after (l := []) hcarry (List.append_nil _).symm ?_)
  exact writeBack_logs (m := { noted m _ with shortRegs := _ }) h e _

omit h in
theorem asmShrot_acc_quiet {direction fill : Int} (hd : direction = 1 ∨ direction = -1) (hfill : fill = 0 ∨ fill = 1) :
    Quiet (asmShrot (recording p) invalidAddress .acc direction fill) := by
  intro m
  rw [asmShrot_acc (recording p) hd hfill]
  refine .after (l := []) (getSreg_run m .acc) (List.append_nil _).symm ?_
  exact .quietly (l := []) (flagsUpdateShrotCarry_run m _ hd hfill) (List.append_nil _).symm (quiet_load (.inl rfl) _)

theorem asmShrot_logs (e : Word) {direction fill : Int} (hd : direction = 1 ∨ direction = -1)
    (hfill : fill = 0 ∨ fill = 1) :
    Logs (asmShrot (recording p) e .acc direction fill) m
      (if e = invalidAddress then []
      else readCalls m.allMh e ++ (writeCalls m.allMh e ++ readCalls m.allMh e)) := by
  by_cases he : e = invalidAddress
  · subst he
    exact asmShrot_acc_quiet hd hfill m
  · rw [if_neg he]
    exact asmShrot_memory_logs h he hd hfill

end Instructions

/-- What an instruction does with its effective address. -/
inductive Family
  | load
  | store
  | operand
  | increment
  | shift
  | jump
deriving DecidableEq, Repr

def familyOf : AsmFun → Option Family
  | .lda | .ldx | .ldy => some .load
  | .sta | .stx | .sty => some .store
  | .and | .eor | .ora | .bit | .adc | .sbc | .cmp | .cpx | .cpy => some .operand
  | .inc | .dec => some .increment
  | .asl | .lsr | .rol | .ror => some .shift
  | .jmp | .jsr | .bcc | .bcs | .beq | .bmi | .bne | .bpl | .bvc | .bvs => some .jump
  | _ => none

def furtherCalls (p : PureHooks F) (fam : Family) (mode : AddrMode) (m : Machine F Log) : Log :=
  let e := addrOf mode (sight p m)
  match fam with
  | .load => readCalls m.allMh e
  | .store => writeCalls m.allMh e
  | .operand => if e = invalidAddress then [] else addrCalls p mode m ++ readCalls m.allMh e
  | .increment => writeCalls m.allMh e ++ readCalls m.allMh e
  | .shift => if e = invalidAddress then []
      else readCalls m.allMh e ++ (writeCalls m.allMh e ++ readCalls m.allMh e)
  | .jump => []

section Asm

variable {p : PureHooks F} {m : Machine F Log} (h : Untranslated m.allMh)

include h

theorem asm_logs {f : AsmFun} {fam : Family} (hfam : familyOf f = some fam) (hjump : fam ≠ .jump) (mode : AddrMode) :
    Logs (asm (recording p) f mode) m (addrCalls p mode m ++ furtherCalls p fam mode m) := by
  have ha := addr_recording (p := p) h mode
  obtain ⟨v, hv⟩ := addrModeGetValue_recording (p := p) h mode
  cases f with
  | lda | ldx | ldy =>
      cases hfam
      exact .after ha rfl (asmMem2reg_logs (m := noted m _) h (by decide) _)
  | sta | stx | sty =>
      cases hfam
      exact .after ha rfl (asmReg2mem_logs (m := noted m _) h _ _)
  | inc | dec =>
      cases hfam
      exact .after ha rfl (asmIncMem_logs (m := noted m _) h rfl _)
  | asl | lsr =>
      cases hfam
      exact .after ha rfl (asmShrot_logs (m := noted m _) h _ (by decide) (by decide))
  | rol | ror =>
      cases hfam
      refine .after ha rfl (.after (l := []) (getFlag_run _ flagC) (List.append_nil _).symm ?_)
      have hfill : ∀ c : Bool, c.toInt = 0 ∨ c.toInt = 1 := by decide
      exact asmShrot_logs (m := noted m _) h _ (by decide) (hfill _)
  | and =>
      cases hfam
      exact .quietly hv rfl fun m => .of_run (asmLogicAnd_run m v) rfl
  | bit =>
      cases hfam
      exact .quietly hv rfl fun m => .of_run (asmLogicAnd_invalid_run m v) rfl
  | eor =>
      cases hfam
      exact .quietly hv rfl fun m => .of_run (asmLogicEor_run m v) rfl
  | ora =>
      cases hfam
      exact .quietly hv rfl fun m => .of_run (asmLogicOra_run m v) rfl
  | adc =>
      cases hfam
      exact .quietly hv rfl fun m => .of_run (asmArithAdd_run m v) rfl
  | sbc =>
      cases hfam
      exact .quietly hv rfl fun m => .of_run (asmArithSub_run m v) rfl
  | cmp | cpx | cpy =>
      cases hfam
      exact .quietly hv rfl fun m => .of_run (asmArithSub_invalid_run m _ v (by decide)) rfl
  | jmp | jsr | bcc | bcs | beq | bmi | bne | bpl | bvc | bvs =>
      cases hfam
      exact absurd rfl hjump
  | _ => cases hfam

theorem asm_jump_logs {f : AsmFun} (hfam : familyOf f = some .jump) (mode : AddrMode) :
    ∃ m₁, Logs (asm (recording p) f mode) m (addrCalls p mode m₁) := by
  have ha := addr_recording (p := p) h mode
  cases f with
  | jmp => exact ⟨m, .quietly ha rfl (quiet_mem2pc _ _)⟩
  | jsr =>
      let m₁ := (pushedWord m.shortRegs (m.regPc + 2#16)).apply m
      have ha' := addr_recording (p := p) (m := m₁) h mode
      exact ⟨m₁, .after (l := []) (asmPc2stack_run m) (List.append_nil _).symm (.quietly ha' rfl (quiet_mem2pc _ _))⟩
  | bcc | bcs | beq | bmi | bne | bpl | bvc | bvs =>
      refine ⟨m, .quietly ha rfl fun m => ?_⟩
      exact .quietly (l := []) (getFlag_run m _) (List.append_nil _).symm (quiet_mem2pc _ _)
  | _ => cases hfam

end Asm

end Bugnes.AccessLog
