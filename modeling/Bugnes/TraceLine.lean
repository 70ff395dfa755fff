import Bugnes.Operands
import Bugnes.StepRecord

namespace Bugnes.TraceLine

open Words CpuCore Addr OpcodeTable Plain PlainRuns Disas Sfot StatelessHooks Operands StepRecord

def cString (buf : List Char) : List Char := buf.takeWhile (· ≠ nul)

def unhex (s : List Char) : Nat := s.foldl (fun n c => 16 * n + "0123456789ABCDEF".toList.idxOf c) 0

/-- The text with all its digits made one. -/
def blur (s : List Char) : List Char := s.map fun c => if c ∈ "0123456789ABCDEF".toList then '0' else c

/-- What tells the modes of operand fields apart: a branch by its star, the
others by where they have digits. -/
def shape (field : List Char) : List Char := if (blur field).take 2 = " *".toList then " *".toList else blur field

def modes : List AddrMode := [.imp, .acc, .imm, .zpa, .zpx, .zpy, .rel, .inx, .iny, .abs, .abx, .aby, .ind]

def modeOf (field : List Char) : Option AddrMode :=
  modes.find? fun mode => shape (operandField mode (0#8, 0#8)) = shape field

def branchByte (field : List Char) : Byte :=
  let n := ((field.drop 3).takeWhile (· ≠ ' ')).foldl (fun n c => 10 * n + "0123456789".toList.idxOf c) 0
  if field.getD 2 ' ' = '-' then -BitVec.ofNat 8 n else BitVec.ofNat 8 n

def registerByte (field : List Char) : Byte :=
  if field.getD 2 ' ' = ' ' then 0#8 else BitVec.ofNat 8 (unhex ((field.drop 2).take 2))

section Digits

theorem idxOf_hexDigit {n : Nat} (h : n < 16) : "0123456789ABCDEF".toList.idxOf (hexDigit n) = n := by
  have hall : ∀ n < 16, "0123456789ABCDEF".toList.idxOf (hexDigit n) = n := by decide
  exact hall n h

theorem unhex_hex (width v : Nat) : unhex (hex width v) = v % 16 ^ width := by
  induction width generalizing v with
  | zero => rw [pow_zero, Nat.mod_one]; rfl
  | succ width ih =>
      have hlast : unhex (hex width (v / 16) ++ [hexDigit (v % 16)]) = 16 * unhex (hex width (v / 16)) + v % 16 := by
        rw [unhex, List.foldl_append, List.foldl_cons, List.foldl_nil, idxOf_hexDigit (Nat.mod_lt _ (by decide)), unhex]
      rw [hex, hlast, ih, pow_succ', Nat.mod_mul, Nat.add_comm]

theorem hexByte_inj {b b' : Byte} (h : hexByte b = hexByte b') : b = b' := by
  have hread : b.toNat % 16 ^ 2 = b'.toNat % 16 ^ 2 := by rw [← unhex_hex, ← unhex_hex, ← hexByte, h, hexByte]
  have hb := b.isLt
  have hb' := b'.isLt
  exact BitVec.eq_of_toNat_eq (by omega)

theorem hexWord_inj {w w' : Word} (h : hexWord w = hexWord w') : w = w' := by
  have hread : w.toNat % 16 ^ 4 = w'.toNat % 16 ^ 4 := by rw [← unhex_hex, ← unhex_hex, ← hexWord, h, hexWord]
  have hw := w.isLt
  have hw' := w'.isLt
  exact BitVec.eq_of_toNat_eq (by omega)

theorem blur_hex (width v : Nat) : blur (hex width v) = List.replicate width '0' := by
  induction width generalizing v with
  | zero => rfl
  | succ width ih =>
      have hlast : blur [hexDigit (v % 16)] = ['0'] := by
        rw [blur, List.map_singleton, if_pos (hexDigit_mem _)]
      have hsplit : blur (hex (width + 1) v) = blur (hex width (v / 16)) ++ blur [hexDigit (v % 16)] :=
        List.map_append
      rw [hsplit, ih, hlast, List.replicate_succ']

end Digits

section Field

variable {mode mode' : AddrMode} {par par' : Byte × Byte}

theorem length_digits (h : mode ≠ .rel) (par par' : Byte × Byte) :
    (digits mode par).length = (digits mode par').length := by
  cases mode with
  | rel => exact absurd rfl h
  | imm | zpa | zpx | zpy | inx | iny => simp only [digits, hexByte, length_hex]
  | abs | abx | aby | ind => simp only [digits, hexWord, length_hex]
  | acc | imp | max => rfl

theorem length_operand (h : mode ≠ .rel) (par par' : Byte × Byte) :
    (operand mode par).length = (operand mode par').length := by
  simp only [operand, List.length_append, length_digits h par par']

theorem blur_digits (h : mode ≠ .rel) (par par' : Byte × Byte) : blur (digits mode par) = blur (digits mode par') := by
  cases mode with
  | rel => exact absurd rfl h
  | imm | zpa | zpx | zpy | inx | iny => simp only [digits, hexByte, blur_hex]
  | abs | abx | aby | ind => simp only [digits, hexWord, blur_hex]
  | acc | imp | max => rfl

theorem shape_operandField (mode : AddrMode) (par par' : Byte × Byte) :
    shape (operandField mode par) = shape (operandField mode par') := by
  by_cases hrel : mode = .rel
  · subst hrel
    rfl
  · have hblur : blur (operandField mode par) = blur (operandField mode par') := by
      have happend : ∀ s t, blur (s ++ t) = blur s ++ blur t := fun _ _ => List.map_append
      rw [operandField, operandField, length_operand hrel par par']
      simp only [operand, happend, blur_digits hrel par par']
    rw [shape, shape, hblur]

theorem modeOf_operandField (h : mode ≠ .max) (par : Byte × Byte) : modeOf (operandField mode par) = some mode := by
  have hzero : modeOf (operandField mode par) = modeOf (operandField mode (0#8, 0#8)) := by
    rw [modeOf, shape_operandField mode par (0#8, 0#8)]
    rfl
  rw [hzero]
  cases mode with
  | max => exact absurd rfl h
  | _ => decide +kernel

theorem branchByte_operandField (par : Byte × Byte) : branchByte (operandField .rel par) = par.1 := by
  have hall : ∀ b : Byte, branchByte (operandField .rel (b, 0#8)) = b := by decide +kernel
  exact hall par.1

theorem digits_inj (h : operandField mode par = operandField mode par') (hrel : mode ≠ .rel) :
    digits mode par = digits mode par' := by
  obtain ⟨hoperand, -⟩ := List.append_inj h (length_operand hrel par par')
  obtain ⟨hfront, -⟩ := List.append_inj' hoperand rfl
  exact List.append_cancel_left hfront

theorem operandField_inj (hmode : mode ≠ .max) (hmode' : mode' ≠ .max)
    (h : operandField mode par = operandField mode' par') :
    mode = mode' ∧ (1 < (lenOf mode).toNat → par.1 = par'.1) ∧ (2 < (lenOf mode).toNat → par.2 = par'.2) := by
  have hsame : mode = mode' := by
    have hread := congrArg modeOf h
    rw [modeOf_operandField hmode, modeOf_operandField hmode'] at hread
    exact Option.some.inj hread
  subst hsame
  refine ⟨rfl, ?_⟩
  cases mode with
  | max => exact absurd rfl hmode
  | imp | acc => exact ⟨fun hlen => absurd hlen (by decide), fun hlen => absurd hlen (by decide)⟩
  | rel =>
      have hbyte := congrArg branchByte h
      rw [branchByte_operandField, branchByte_operandField] at hbyte
      exact ⟨fun _ => hbyte, fun hlen => absurd hlen (by decide)⟩
  | imm | zpa | zpx | zpy | inx | iny =>
      exact ⟨fun _ => hexByte_inj (digits_inj h (by decide)), fun hlen => absurd hlen (by decide)⟩
  | abs | abx | aby | ind =>
      obtain ⟨hlow, hhigh⟩ := wordOf_inj.mp (hexWord_inj (digits_inj h (by decide)))
      exact ⟨fun _ => hlow, fun _ => hhigh⟩

theorem length_operandField (h : mode ≠ .max) (par : Byte × Byte) : (operandField mode par).length = 15 := by
  have hle := length_operand_le h par
  rw [operandField, List.length_append, List.length_replicate]
  omega

end Field

section Registers

theorem registerByte_registerText (reg : Byte) : registerByte (registerText reg) = reg := by
  have hall : ∀ reg : Byte, registerByte (registerText reg) = reg := by decide +kernel
  exact hall reg

theorem registerText_inj {reg reg' : Byte} (h : registerText reg = registerText reg') : reg = reg' := by
  rw [← registerByte_registerText reg, h, registerByte_registerText]

theorem registerTexts_inj {xs ys : List Byte} (hlen : xs.length = ys.length)
    (h : xs.flatMap registerText = ys.flatMap registerText) : xs = ys := by
  induction xs generalizing ys with
  | nil => exact (List.length_eq_zero_iff.mp hlen.symm).symm
  | cons x xs ih =>
      cases ys with
      | nil => cases hlen
      | cons y ys =>
          rw [List.flatMap_cons, List.flatMap_cons] at h
          obtain ⟨hhead, htail⟩ := List.append_inj h (by rw [length_registerText, length_registerText])
          rw [registerText_inj hhead, ih (Nat.succ.inj hlen) htail]

theorem registerField_inj {r r' : ShortRegs} (h : registerField r = registerField r') : r = r' := by
  have hall : [r.sp, r.acc, r.x, r.y, r.cpu] = [r'.sp, r'.acc, r'.x, r'.y, r'.cpu] := registerTexts_inj rfl h
  cases r
  cases r'
  simp only [List.cons.injEq, and_true] at hall
  obtain ⟨rfl, rfl, rfl, rfl, rfl⟩ := hall
  rfl

end Registers

section Line

variable {op op' : SfotOpcode} {pc pc' : Word} {par par' : Byte × Byte} {r r' : ShortRegs}

theorem length_front (h : Named op) (hmode : op.addrMode ≠ .max) (pc : Word) (par : Byte × Byte) :
    (headField op pc ++ operandField op.addrMode par).length = 24 := by
  rw [List.length_append, length_headField h, length_operandField hmode]

theorem nul_notMem_traceLine (h : Named op) : nul ∉ traceLine op pc par r := by
  have hblank : ∀ n, nul ∉ List.replicate n ' ' := fun n hmem => absurd (List.eq_of_mem_replicate hmem) (by decide)
  simp only [traceLine, operandField, List.mem_append, nul_notMem_headField h, nul_notMem_operand, hblank,
    nul_notMem_registerField, or_self, not_false_eq_true]

theorem cString_record (h : Named op) : cString (recordOf op pc par r).opcodeDecoded = traceLine op pc par r := by
  have hne : ∀ c ∈ traceLine op pc par r, decide (c ≠ nul) = true :=
    fun c hc => decide_eq_true fun he => nul_notMem_traceLine h (he ▸ hc)
  rw [cString, recordOf, List.takeWhile_append_of_pos hne]
  simp

theorem headField_inj (h : headField op pc = headField op' pc') : pc = pc' ∧ op.name = op'.name := by
  obtain ⟨hfront, hname⟩ := List.append_inj h (by simp [hexWord, length_hex])
  obtain ⟨hpc, -⟩ := List.append_inj' hfront rfl
  exact ⟨hexWord_inj hpc, String.toList_injective hname⟩

/-- Every part of a line has its columns, and can be read off them. -/
theorem traceLine_inj (h : Named op) (h' : Named op') (hmode : op.addrMode ≠ .max) (hmode' : op'.addrMode ≠ .max)
    (heq : traceLine op pc par r = traceLine op' pc' par' r') :
    pc = pc' ∧ op.name = op'.name ∧ op.addrMode = op'.addrMode ∧
      (1 < (lenOf op.addrMode).toNat → par.1 = par'.1) ∧ (2 < (lenOf op.addrMode).toNat → par.2 = par'.2) ∧ r = r' := by
  obtain ⟨hfront, hregs⟩ := List.append_inj heq (by rw [length_front h hmode, length_front h' hmode'])
  obtain ⟨hhead, hoperand⟩ := List.append_inj hfront (by rw [length_headField h, length_headField h'])
  obtain ⟨hpc, hname⟩ := headField_inj hhead
  obtain ⟨hsame, hlow, hhigh⟩ := operandField_inj hmode hmode' hoperand
  exact ⟨hpc, hname, hsame, hlow, hhigh, registerField_inj hregs⟩

end Line

section Trace

variable {F F' σ σ' : Type} {hf : HookFuns F σ} {hf' : HookFuns F' σ'} {p : PureHooks F} {p' : PureHooks F'}
  {m : Machine F σ} {m' : Machine F' σ'}

def Documented (op : SfotOpcode) : Prop := op.name ≠ "XXX"

/-- The states that a trace line tells apart. -/
structure SameStep (p : PureHooks F) (p' : PureHooks F') (m : Machine F σ) (m' : Machine F' σ') : Prop where
  pc : m.regPc = m'.regPc
  opcode : opcodeByte p m = opcodeByte p' m'
  operand : parBytes p m = parBytes p' m'
  registers : m.shortRegs = m'.shortRegs

theorem parByte_congr {i : Word} (hop : opcodeOf p m = opcodeOf p' m')
    (h : i < lenOf (opcodeOf p m).addrMode → parByte p m i = parByte p' m' i) : parByte p m i = parByte p' m' i := by
  by_cases hi : i < lenOf (opcodeOf p m).addrMode
  · exact h hi
  · rw [parByte, parByte, if_neg hi, if_neg (hop ▸ hi)]

theorem sameStep_of_line (hdoc : Documented (opcodeOf p m))
    (h : traceLine (opcodeOf p m) m.regPc (parBytes p m) m.shortRegs =
      traceLine (opcodeOf p' m') m'.regPc (parBytes p' m') m'.shortRegs) : SameStep p p' m m' := by
  obtain ⟨hpc, hname, hmode, hlow, hhigh, hregs⟩ :=
    traceLine_inj (named _) (named _) (addrMode_ne_max _) (addrMode_ne_max _) h
  have hbyte : opcodeByte p m = opcodeByte p' m' := (opcodeAt_inj hdoc hname.symm hmode.symm).symm
  have hop : opcodeOf p m = opcodeOf p' m' := by rw [opcodeOf, opcodeOf, hbyte]
  refine ⟨hpc, hbyte, Prod.ext ?_ ?_, hregs⟩
  · exact parByte_congr hop fun hi => hlow (BitVec.lt_def.mp hi)
  · exact parByte_congr hop fun hi => hhigh (BitVec.lt_def.mp hi)

/-- The record of a step is taken without a fault, its line has its 49 columns,
and that of a documented instruction is no other's. -/
theorem trace_line_exact (h : Stateless hf p m.allMh) :
    ∃ info, (collectStepInfo hf).run m = .ok (info, m) ∧ (cString info.opcodeDecoded).length = 49 ∧
      (cString info.opcodeDecoded).drop 24 = registerField m.shortRegs ∧
      (Stateless hf' p' m'.allMh → Documented (opcodeOf p m) →
        ∀ info', (collectStepInfo hf').run m' = .ok (info', m') →
          cString info.opcodeDecoded = cString info'.opcodeDecoded → SameStep p p' m m') := by
  have hnamed : Named (opcodeOf p m) := named _
  have hnamed' : Named (opcodeOf p' m') := named _
  have hfront := length_front hnamed (addrMode_ne_max _) m.regPc (parBytes p m)
  refine ⟨_, collectStepInfo_stateless h, ?_, ?_, fun h' hdoc info' hrun heq => ?_⟩
  · rw [cString_record hnamed, traceLine, List.length_append, hfront, length_registerField]
  · rw [cString_record hnamed, traceLine, List.drop_left' hfront]
  · rw [collectStepInfo_stateless h'] at hrun
    cases hrun
    rw [cString_record hnamed, cString_record hnamed'] at heq
    exact sameStep_of_line hdoc heq

end Trace

def loading (pc : Word) : Machine Empty Unit := bare pc ⟨0xFF, 0, 1, 2, 3⟩ (bytesAt pc [0xA9, 0x05])

theorem loading_documented : Documented (opcodeOf unhooked (loading 0x200)) := by
  rw [Documented]
  decide +kernel

def port : PureHooks Unit := ⟨fun _ _ => 5#8, fun _ _ v => v, fun _ a => a⟩

def loadingPort : Machine Unit Unit where
  regPc := 0x200#16
  shortRegs := ⟨0xFF, 0, 1, 2, 3⟩
  mem := bytesAt 0x200#16 [0xA9]
  regPcBranched := invalidAddress
  allMh := Function.update Memhooks.empty .read [⟨0x201#16, 0x202#16, some (), none⟩]
  ehFunV _ := none
  world := ()

theorem loadingPort_stateless : Stateless port.funs port loadingPort.allMh :=
  port.stateless _

theorem trace_line_exact_port :
    ∃ info, (collectStepInfo noHooks).run (loading 0x200) = .ok (info, loading 0x200) ∧
      (cString info.opcodeDecoded).length = 49 ∧
      (cString info.opcodeDecoded).drop 24 = registerField (loading 0x200).shortRegs ∧
      SameStep unhooked port (loading 0x200) loadingPort := by
  have hstateless : Stateless noHooks unhooked (loading 0x200).allMh := unhooked_stateless
  obtain ⟨info, hrun, hlen, hregs, hsame⟩ :=
    @trace_line_exact _ _ _ _ noHooks port.funs unhooked port (loading 0x200) loadingPort hstateless
  obtain ⟨info', hrun', -⟩ :=
    @trace_line_exact _ _ _ _ port.funs port.funs port port loadingPort loadingPort loadingPort_stateless
  have hline : ((collectStepInfo noHooks).run (loading 0x200)).map (fun r => cString r.1.opcodeDecoded) =
      ((collectStepInfo port.funs).run loadingPort).map fun r => cString r.1.opcodeDecoded := by decide +kernel
  rw [hrun, hrun'] at hline
  exact ⟨info, hrun, hlen, hregs,
    hsame loadingPort_stateless loading_documented info' hrun' (Except.ok.inj hline)⟩

end Bugnes.TraceLine
