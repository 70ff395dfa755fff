import Bugnes.StatelessHooks
import Bugnes.Tracing

namespace Bugnes.StepRecord

open Words CpuCore Addr OpcodeTable Opcodes Plain PlainRuns PlainRefinement Disas Sfot StatelessHooks Tracing

def before : AddrMode → List Char
  | .acc => " A".toList
  | .imm => " #".toList
  | .zpa | .zpx | .zpy => " $".toList
  | .rel => " *".toList
  | .inx | .iny => " ($".toList
  | .abs | .abx | .aby => " ".toList
  | .ind => " (".toList
  | .imp | .max => []

def digits (mode : AddrMode) (par : Byte × Byte) : List Char :=
  match mode with
  | .imm | .zpa | .zpx | .zpy | .inx | .iny => hexByte par.1
  | .rel => signed par.1
  | .abs | .abx | .aby | .ind => hexWord (wordOf par.1 par.2)
  | .acc | .imp | .max => []

def behind : AddrMode → List Char
  | .zpx | .abx => ",X".toList
  | .zpy | .aby => ",Y".toList
  | .inx => ",X)".toList
  | .iny => "),Y".toList
  | .ind => ")".toList
  | .acc | .imm | .zpa | .rel | .abs | .imp | .max => []

def operand (mode : AddrMode) (par : Byte × Byte) : List Char := before mode ++ digits mode par ++ behind mode

def operandField (mode : AddrMode) (par : Byte × Byte) : List Char :=
  operand mode par ++ List.replicate (15 - (operand mode par).length) ' '

def headField (op : SfotOpcode) (pc : Word) : List Char := hexWord pc ++ ": ".toList ++ op.name.toList

def registerField (r : ShortRegs) : List Char := [r.sp, r.acc, r.x, r.y, r.cpu].flatMap registerText

/-- The whole line of a step. -/
def traceLine (op : SfotOpcode) (pc : Word) (par : Byte × Byte) (r : ShortRegs) : List Char :=
  headField op pc ++ operandField op.addrMode par ++ registerField r

def nameField (op : SfotOpcode) : List Char := (op.name.toList.take 3).takeD 4 nul

def recordOf (op : SfotOpcode) (pc : Word) (par : Byte × Byte) (r : ShortRegs) : SfotStepInfo where
  totalCycles := 0
  regPc := pc
  registers := r
  opcodeName := nameField op
  addrMode := op.addrMode
  opcodeParN := (lenOf op.addrMode).toNat - 1
  opcodePar := par
  opcodeDecoded := traceLine op pc par r ++ List.replicate 79 nul

section Text

variable {mode : AddrMode} {par : Byte × Byte}

theorem operandText_eq (h : mode ≠ .max) (byte1 byte2 : Byte) :
    operandText ((lenOf mode).toNat - 1) mode byte1 byte2 =
      .ok (if mode = .imp then none else some (operand mode (byte1, byte2))) := by
  cases mode with
  | max => exact absurd rfl h
  | acc => rfl
  | imp => rfl
  | imm | zpa | rel | abs => simp [operandText, operand, before, digits, behind, lenOf]
  | zpx | zpy | inx | iny | abx | aby | ind => rfl

theorem hexDigit_mem (n : Nat) : hexDigit n ∈ "0123456789ABCDEF".toList := by
  rw [hexDigit, List.getD_eq_getElem?_getD]
  cases hget : "0123456789ABCDEF".toList[n]? with
  | none => decide
  | some c => exact List.mem_of_getElem? hget

theorem hexDigit_ne_nul (n : Nat) : hexDigit n ≠ nul := by
  intro h
  exact absurd (h ▸ hexDigit_mem n) (by decide)

theorem nul_notMem_hex (width v : Nat) : nul ∉ hex width v := by
  induction width generalizing v with
  | zero => exact List.not_mem_nil
  | succ width ih =>
      rw [hex, List.mem_append, List.mem_singleton]
      rintro (h | h)
      · exact ih _ h
      · exact hexDigit_ne_nul _ h.symm

theorem nul_notMem_signed (b : Byte) : nul ∉ signed b := by
  have hall : ∀ b : Byte, nul ∉ signed b := by decide +kernel
  exact hall b

theorem nul_notMem_digits (mode : AddrMode) (par : Byte × Byte) : nul ∉ digits mode par := by
  cases mode with
  | imm | zpa | zpx | zpy | inx | iny => exact nul_notMem_hex _ _
  | rel => exact nul_notMem_signed _
  | abs | abx | aby | ind => exact nul_notMem_hex _ _
  | acc | imp | max => exact List.not_mem_nil

theorem nul_notMem_operand (mode : AddrMode) (par : Byte × Byte) : nul ∉ operand mode par := by
  have hbefore : ∀ mode, nul ∉ before mode := by intro mode; cases mode <;> decide
  have hbehind : ∀ mode, nul ∉ behind mode := by intro mode; cases mode <;> decide
  rw [operand, List.mem_append, List.mem_append]
  rintro ((h | h) | h)
  · exact hbefore mode h
  · exact nul_notMem_digits mode par h
  · exact hbehind mode h

theorem length_operand_le (h : mode ≠ .max) (par : Byte × Byte) : (operand mode par).length ≤ 8 := by
  by_cases himp : mode = .imp
  · subst himp
    exact Nat.zero_le 8
  · have htext := operandText_eq h par.1 par.2
    rw [if_neg himp] at htext
    exact length_operandText htext

theorem length_registerText (reg : Byte) : (registerText reg).length = 5 := by
  unfold registerText
  split
  · simp [hexByte, length_hex]
  · decide

theorem length_registerField (r : ShortRegs) : (registerField r).length = 25 := by
  simp [registerField, length_registerText]

theorem nul_notMem_registerField (r : ShortRegs) : nul ∉ registerField r := by
  have hreg : ∀ reg : Byte, nul ∉ registerText reg := by
    intro reg
    unfold registerText
    split
    · have hhex : nul ∉ hexByte reg := nul_notMem_hex _ _
      have hleft : nul ∉ " [".toList := by decide
      have hright : nul ∉ "]".toList := by decide
      simp only [List.mem_append, hhex, hleft, hright, or_self, not_false_eq_true]
    · decide
  rw [registerField, List.mem_flatMap]
  rintro ⟨reg, -, hmem⟩
  exact hreg reg hmem

end Text

section Names

/-- A mnemonic is three characters. -/
structure Named (op : SfotOpcode) : Prop where
  length : op.name.toList.length = 3
  nul : nul ∉ op.name.toList

instance (op : SfotOpcode) : Decidable (Named op) :=
  decidable_of_iff (op.name.toList.length = 3 ∧ nul ∉ op.name.toList)
    ⟨fun h => ⟨h.1, h.2⟩, fun h => ⟨h.length, h.nul⟩⟩

theorem named (b : Byte) : Named (opcodeAt b) := forall_opcode (P := Named) (by decide +kernel) b

variable {op : SfotOpcode} (h : Named op)

include h

theorem nameField_eq : nameField op = op.name.toList ++ [nul] := by
  obtain ⟨a, b, c, habc⟩ := List.length_eq_three.mp h.length
  rw [nameField, habc]
  rfl

theorem takeWhile_nameField : (nameField op).takeWhile (· ≠ nul) = op.name.toList := by
  rw [nameField_eq h, List.takeWhile_append_of_pos]
  · simp
  · intro c hc
    have hne : c ≠ nul := fun he => h.nul (he ▸ hc)
    exact decide_eq_true hne

theorem length_headField (pc : Word) : (headField op pc).length = 9 := by
  have hcolon : ": ".toList.length = 2 := by decide
  rw [headField, List.length_append, List.length_append, hexWord, length_hex, hcolon, h.length]

theorem nul_notMem_headField (pc : Word) : nul ∉ headField op pc := by
  rw [headField, List.mem_append, List.mem_append]
  rintro ((hmem | hmem) | hmem)
  · exact nul_notMem_hex _ _ hmem
  · exact absurd hmem (by decide)
  · exact h.nul hmem

end Names

section Buffer

variable {pos : Nat} {a rest s : List Char}

theorem put_append (ha : a.length = pos) (s : List Char) : put pos s (a ++ rest) = a ++ s ++ rest.drop s.length := by
  subst ha
  rw [put, List.take_left, List.drop_append, List.drop_of_length_le (by omega), Nat.add_sub_cancel_left,
    List.nil_append]

theorem put_zero (s buf : List Char) : put 0 s buf = s ++ buf.drop s.length := put_append (a := []) rfl s

theorem terminator_append (ha : a.length = pos) (hs : nul ∉ s) :
    terminator pos (a ++ s ++ nul :: rest) = pos + s.length := by
  subst ha
  have hne : ∀ c ∈ s, decide (c ≠ nul) = true := fun c hc => decide_eq_true fun he => hs (he ▸ hc)
  rw [terminator, List.append_assoc, List.drop_left, List.takeWhile_append_of_pos hne]
  simp

/-- The buffer before the label `proc_next`: the head, the operand with its
terminator, and blanks. -/
def pending (head text : List Char) : List Char :=
  head ++ text ++ nul :: (List.replicate (14 - text.length) ' ' ++ List.replicate 104 nul)

theorem sprintf_pending {head text : List Char} (hhead : head.length = 9) (htext : text.length ≤ 8) :
    sprintf 9 text (pending head []) = pending head text := by
  have hblanks : (List.replicate 14 ' ' ++ List.replicate 104 nul).drop text.length =
      List.replicate (14 - text.length) ' ' ++ List.replicate 104 nul := by
    rw [List.drop_append_of_le_length (by rw [List.length_replicate]; omega), List.drop_replicate]
  rw [sprintf, pending, List.append_nil, put_append hhead, List.length_append, List.length_singleton,
    List.drop_succ_cons]
  simp only [List.length_nil, Nat.sub_zero, hblanks, pending, List.append_assoc, List.cons_append, List.nil_append]

theorem procNext_pending {head text : List Char} (hhead : head.length = 9) (htext : text.length ≤ 8) (hnul : nul ∉ text)
    (info : SfotStepInfo) :
    procNext info (pending head text) = .ok { info with
      opcodeDecoded := head ++ (text ++ List.replicate (15 - text.length) ' ') ++ registerField info.registers ++
        List.replicate 79 nul } := by
  have hstop : terminator 9 (pending head text) = 9 + text.length := terminator_append hhead hnul
  have hlen : (pending head text).length = 128 := by
    simp only [pending, List.length_append, List.length_cons, List.length_replicate, hhead]
    omega
  have hblank : put (9 + text.length) [' '] (pending head text) =
      (head ++ (text ++ List.replicate (15 - text.length) ' ')) ++ List.replicate 104 nul := by
    have hfill : 15 - text.length = 14 - text.length + 1 := by omega
    rw [pending, put_append (by rw [List.length_append, hhead]), hfill, List.replicate_succ (n := 14 - text.length)]
    simp only [List.length_singleton, List.drop_succ_cons, List.drop_zero, List.append_assoc, List.cons_append,
      List.nil_append]
  have hregs : sprintf 24 (registerField info.registers)
      ((head ++ (text ++ List.replicate (15 - text.length) ' ')) ++ List.replicate 104 nul) =
      head ++ (text ++ List.replicate (15 - text.length) ' ') ++ registerField info.registers ++
        List.replicate 79 nul := by
    have hcolumn : (head ++ (text ++ List.replicate (15 - text.length) ' ')).length = 24 := by
      simp only [List.length_append, List.length_replicate, hhead]
      omega
    have hend : [nul] ++ List.replicate (104 - (25 + 1)) nul = List.replicate 79 nul := rfl
    rw [sprintf, put_append hcolumn, List.length_append, length_registerField, List.length_singleton,
      List.drop_replicate]
    simp only [List.append_assoc, hend]
  rw [procNext, hstop, if_pos (by omega), hblank]
  exact congrArg (fun decoded => Except.ok { info with opcodeDecoded := decoded }) hregs

end Buffer

theorem disassembleOpcode_record {op : SfotOpcode} (h : Named op) (hmode : op.addrMode ≠ .max) (pc : Word)
    (par : Byte × Byte) (r : ShortRegs) :
    disassembleOpcode { recordOf op pc par r with opcodeDecoded := List.replicate 128 nul } =
      .ok (recordOf op pc par r) := by
  have hhead : headText { recordOf op pc par r with opcodeDecoded := List.replicate 128 nul } = headField op pc := by
    rw [headText, recordOf, takeWhile_nameField h]
    rfl
  have hlen := length_headField h pc
  have hstart : sprintf 0 (headField op pc) (put 0 (List.replicate 24 ' ') (List.replicate 128 nul)) =
      pending (headField op pc) [] := by
    rw [sprintf, put_zero, put_zero, List.length_append, hlen, pending, List.append_nil, List.append_assoc]
    rfl
  have hnext : procNext { recordOf op pc par r with opcodeDecoded := List.replicate 128 nul }
      (pending (headField op pc) (operand op.addrMode par)) = .ok (recordOf op pc par r) :=
    procNext_pending hlen (length_operand_le hmode par) (nul_notMem_operand _ _) _
  rw [disassembleOpcode, hhead]
  simp only [recordOf, hstart, operandText_eq hmode, ok_bind]
  by_cases himp : op.addrMode = .imp
  · have hnone : operand op.addrMode par = [] := by rw [himp]; rfl
    rw [hnone] at hnext
    rw [if_pos himp]
    exact hnext
  · rw [if_neg himp]
    simp only [sprintf_pending hlen (length_operand_le hmode par)]
    exact hnext

section View

variable {F σ : Type} (p : PureHooks F) (m : Machine F σ)

def opcodeByte : Byte := seen p m.allMh m.mem m.regPc

def opcodeOf : SfotOpcode := opcodeAt (opcodeByte p m)

def parByte (i : Word) : Byte :=
  if i < lenOf (opcodeOf p m).addrMode then seen p m.allMh m.mem (m.regPc + i) else 0#8

def parBytes : Byte × Byte := (parByte p m 1#16, parByte p m 2#16)

variable {p m} {hf : HookFuns F σ} (h : Stateless hf p m.allMh)

include h

theorem operandByte_stateless (i : Word) : (operandByte hf i).run m = .ok (parByte p m i, m) := by
  rw [operandByte, StateT.run_bind, opcodeLen_of_read hf (memRead_stateless h m.regPc), ok_bind, parByte]
  by_cases hi : i < lenOf (opcodeOf p m).addrMode
  · rw [if_pos hi]
    exact (congrArg (StateT.run · m) (if_pos hi)).trans (memRead_stateless h (m.regPc + i))
  · rw [if_neg hi]
    exact congrArg (StateT.run · m) (if_neg hi)

/-- Without states in its way the record of a step is what is read at the PC. -/
theorem collectStepInfo_stateless :
    (collectStepInfo hf).run m = .ok (recordOf (opcodeOf p m) m.regPc (parBytes p m) m.shortRegs, m) := by
  have hb := memRead_stateless h m.regPc
  have hlen := opcodeLen_of_read hf hb
  have hrecord : disassembleOpcode ⟨0, m.regPc, m.shortRegs, nameField (opcodeOf p m), (opcodeOf p m).addrMode,
      (lenOf (opcodeOf p m).addrMode).toNat - 1, parBytes p m, List.replicate 128 nul⟩ =
      .ok (recordOf (opcodeOf p m) m.regPc (parBytes p m) m.shortRegs) :=
    disassembleOpcode_record (named _) (addrMode_ne_max _) _ _ _
  simp only [nameField, opcodeOf, opcodeByte, parBytes] at hrecord
  simp only [collectStepInfo, opcodeGetName, opcodeGetAddrMode, opcodeGetParams, StateT.run_bind, StateT.run_get,
    StateT.run_pure, getPc_run, hb, operandByte_stateless h, hlen, hrecord, ok_bind, pure_eq_ok, ofExcept]
  rfl

end View

end Bugnes.StepRecord
