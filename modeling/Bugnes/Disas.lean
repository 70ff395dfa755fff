import Mathlib.Data.List.TakeWhile
import Bugnes.CpuCore
import Bugnes.Addr

namespace Bugnes.Disas

open Words CpuCore Addr

/-- The record of a step. The mnemonic and the decoded text are character
arrays, kept with the bytes behind their terminators. -/
structure SfotStepInfo where
  totalCycles : Nat
  regPc : Word
  registers : ShortRegs
  opcodeName : List Char
  addrMode : AddrMode
  opcodeParN : Int
  opcodePar : Byte × Byte
  opcodeDecoded : List Char
deriving DecidableEq, Repr

def nul : Char := '\x00'

def hexDigit (n : Nat) : Char := "0123456789ABCDEF".toList.getD n '0'

def hex : Nat → Nat → List Char
  | 0, _ => []
  | width + 1, v => hex width (v / 16) ++ [hexDigit (v % 16)]

def hexByte (b : Byte) : List Char := hex 2 b.toNat

def hexWord (w : Word) : List Char := hex 4 w.toNat

def signed (b : Byte) : List Char :=
  (if b.toInt < 0 then '-' else '+') :: Nat.toDigits 10 b.toInt.natAbs

def put (pos : Nat) (s buf : List Char) : List Char := buf.take pos ++ s ++ buf.drop (pos + s.length)

def sprintf (pos : Nat) (s buf : List Char) : List Char := put pos (s ++ [nul]) buf

def operandText (parN : Int) (mode : AddrMode) (byte1 byte2 : Byte) : Except Fault (Option (List Char)) :=
  if parN = 0 then
    match mode with
    | .acc => .ok (some " A".toList)
    | .imp => .ok none
    | _ => .error .assertion
  else if parN = 1 then
    match mode with
    | .imm => .ok (some (" #".toList ++ hexByte byte1))
    | .zpa => .ok (some (" $".toList ++ hexByte byte1))
    | .zpx => .ok (some (" $".toList ++ hexByte byte1 ++ ",X".toList))
    | .zpy => .ok (some (" $".toList ++ hexByte byte1 ++ ",Y".toList))
    | .rel => .ok (some (" *".toList ++ signed byte1))
    | .inx => .ok (some (" ($".toList ++ hexByte byte1 ++ ",X)".toList))
    | .iny => .ok (some (" ($".toList ++ hexByte byte1 ++ "),Y".toList))
    | _ => .error .assertion
  else
    match mode with
    | .abs => .ok (some (" ".toList ++ hexWord (wordOf byte1 byte2)))
    | .abx => .ok (some (" ".toList ++ hexWord (wordOf byte1 byte2) ++ ",X".toList))
    | .aby => .ok (some (" ".toList ++ hexWord (wordOf byte1 byte2) ++ ",Y".toList))
    | .ind => .ok (some (" (".toList ++ hexWord (wordOf byte1 byte2) ++ ")".toList))
    | _ => .error .assertion

def registerText (reg : Byte) : List Char :=
  if reg ≠ 0#8 then " [".toList ++ hexByte reg ++ "]".toList else " [  ]".toList

/-- `while(*buf) buf++` from `pos` on. -/
def terminator (pos : Nat) (buf : List Char) : Nat := pos + ((buf.drop pos).takeWhile (· ≠ nul)).length

def headText (info : SfotStepInfo) : List Char :=
  hexWord info.regPc ++ ": ".toList ++ info.opcodeName.takeWhile (· ≠ nul)

/-- From the label `proc_next` on. -/
def procNext (info : SfotStepInfo) (decoded : List Char) : Except Fault SfotStepInfo :=
  let stop := terminator 9 decoded
  let r := info.registers
  if stop < decoded.length then
    .ok { info with
      opcodeDecoded := sprintf 24 ([r.sp, r.acc, r.x, r.y, r.cpu].flatMap registerText) (put stop [' '] decoded) }
  else .error .outOfBounds

def disassembleOpcode (info : SfotStepInfo) : Except Fault SfotStepInfo := do
  let decoded := sprintf 0 (headText info) (put 0 (List.replicate 24 ' ') info.opcodeDecoded)
  match ← operandText info.opcodeParN info.addrMode info.opcodePar.1 info.opcodePar.2 with
  | none => procNext info decoded
  | some text => procNext info (sprintf 9 text decoded)

theorem length_hex (width v : Nat) : (hex width v).length = width := by
  induction width generalizing v with
  | zero => rfl
  | succ width ih => rw [hex, List.length_append, ih, List.length_singleton]

theorem length_signed (b : Byte) : (signed b).length ≤ 4 := by
  have hdigits : ∀ n < 129, (Nat.toDigits 10 n).length ≤ 3 := by decide
  have h₁ := b.toInt_lt
  have h₂ := b.le_toInt
  have hb := hdigits b.toInt.natAbs (by omega)
  rw [signed, List.length_cons]
  omega

theorem length_operandText {parN : Int} {mode : AddrMode} {byte1 byte2 : Byte} {text : List Char}
    (h : operandText parN mode byte1 byte2 = .ok (some text)) : text.length ≤ 8 := by
  have hs := length_signed byte1
  unfold operandText at h
  split at h
  · cases mode with
    | acc => cases h; decide
    | _ => cases h
  · split at h <;> cases mode <;> cases h <;> simp [hexByte, hexWord, length_hex]; omega

section Buffer

variable {pos k : Nat} {s buf : List Char}

theorem length_put (h : pos + s.length ≤ buf.length) : (put pos s buf).length = buf.length := by
  simp only [put, List.length_append, List.length_take, List.length_drop]
  omega

theorem drop_put (hpos : pos ≤ buf.length) (h : pos + s.length ≤ k) : (put pos s buf).drop k = buf.drop k := by
  have hlen : (buf.take pos ++ s).length = pos + s.length := by
    rw [List.length_append, List.length_take, min_eq_left hpos]
  rw [put, List.drop_append, List.drop_of_length_le (by omega), hlen, List.drop_drop, List.nil_append]
  congr 1
  omega

structure Roomy (buf : List Char) : Prop where
  length : buf.length = 128
  tail : nul ∈ buf.drop 100

theorem Roomy.put (h : Roomy buf) (hfit : pos + s.length ≤ 100) : Roomy (put pos s buf) where
  length := by
    rw [length_put (by rw [h.length]; omega), h.length]
  tail := by
    rw [drop_put (by rw [h.length]; omega) hfit]
    exact h.tail

theorem Roomy.sprintf (h : Roomy buf) (hfit : pos + s.length < 100) : Roomy (sprintf pos s buf) :=
  h.put (by rw [List.length_append, List.length_singleton]; omega)

theorem Roomy.terminator_lt (h : Roomy buf) (hpos : pos ≤ 100) : terminator pos buf < buf.length := by
  have hmem : nul ∈ buf.drop pos := List.drop_subset_drop_left buf hpos h.tail
  have hrest : (buf.drop pos).dropWhile (· ≠ nul) ≠ [] := by
    intro hnil
    have hall := List.dropWhile_eq_nil_iff.mp hnil nul hmem
    simp at hall
  have hsplit := congrArg List.length (List.takeWhile_append_dropWhile (p := (· ≠ nul)) (l := buf.drop pos))
  have hlen := h.length
  have hpositive := List.length_pos_iff.mpr hrest
  rw [List.length_append, List.length_drop] at hsplit
  rw [terminator]
  omega

end Buffer

theorem length_headText {info : SfotStepInfo} (h : info.opcodeName.length ≤ 4) : (headText info).length ≤ 10 := by
  have hname := (List.takeWhile_prefix (fun c => decide (c ≠ nul)) (l := info.opcodeName)).length_le
  have hcolon : ": ".toList.length = 2 := by decide
  simp only [headText, List.length_append, hexWord, length_hex, hcolon]
  omega

theorem procNext_ok {info : SfotStepInfo} {decoded : List Char} (h : Roomy decoded) :
    ∃ info', procNext info decoded = .ok info' := ⟨_, if_pos (h.terminator_lt (by omega))⟩

theorem disassembleOpcode_ok {info : SfotStepInfo} {text : Option (List Char)} (hbuf : Roomy info.opcodeDecoded)
    (hname : info.opcodeName.length ≤ 4)
    (htext : operandText info.opcodeParN info.addrMode info.opcodePar.1 info.opcodePar.2 = .ok text) :
    ∃ info', disassembleOpcode info = .ok info' := by
  have hlen := length_headText hname
  have hhead : Roomy (sprintf 0 (headText info) (put 0 (List.replicate 24 ' ') info.opcodeDecoded)) :=
    (hbuf.put (by rw [List.length_replicate]; omega)).sprintf (by omega)
  rw [disassembleOpcode, htext, ok_bind]
  cases text with
  | none => exact procNext_ok hhead
  | some t =>
      have ht := length_operandText htext
      exact procNext_ok (hhead.sprintf (by omega))

theorem operandText_fault {parN : Int} {mode : AddrMode} {byte1 byte2 : Byte} {e : Fault}
    (h : operandText parN mode byte1 byte2 = .error e) : e = .assertion := by
  unfold operandText at h
  split_ifs at h <;> cases mode <;> cases h <;> rfl

theorem disassembleOpcode_fault {info : SfotStepInfo} {e : Fault} (hbuf : Roomy info.opcodeDecoded)
    (hname : info.opcodeName.length ≤ 4) (h : disassembleOpcode info = .error e) : e = .assertion := by
  cases htext : operandText info.opcodeParN info.addrMode info.opcodePar.1 info.opcodePar.2 with
  | error e' =>
      rw [disassembleOpcode, htext] at h
      cases h
      exact operandText_fault htext
  | ok text =>
      obtain ⟨info', hok⟩ := disassembleOpcode_ok hbuf hname htext
      rw [hok] at h
      cases h

theorem roomy_cleared : Roomy (List.replicate 128 nul) := ⟨List.length_replicate, by decide⟩

end Bugnes.Disas
