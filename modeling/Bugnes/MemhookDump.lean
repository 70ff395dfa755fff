import Bugnes.Lines
import Bugnes.Simple6502
import Bugnes.TraceLine

namespace Bugnes.MemhookDump

open Words Memhooks Disas StepRecord TraceLine Lines

variable {F : Type}

def mhTypes : List MhType := [.read, .write, .transl]

def typeDigit : MhType → Char
  | .read => '0'
  | .write => '1'
  | .transl => '2'

/-- A name that is NULL is printed in the way of the C library. -/
def nameText (mh : Memhook F) : List Char := (mh.memhookFunName.getD "(null)").toList

def entryHead (e : MhType × Memhook F) : List Char :=
  "MHTYPE ".toList ++ [typeDigit e.1] ++ " [0x".toList ++ hexWord e.2.addrStart ++ "-0x".toList ++
    hexWord e.2.addrEnd ++ "] (".toList

def entryLine (e : MhType × Memhook F) : List Char := entryHead e ++ nameText e.2 ++ [')']

/-- One `sprintf`, and where the next one starts. -/
def dumpEntry (st : Nat × List Char) (e : MhType × Memhook F) : Except Fault (Nat × List Char) :=
  let line := entryLine e ++ ['\n']
  if st.1 + line.length < st.2.length then .ok (st.1 + line.length, sprintf st.1 line st.2)
  else .error .outOfBounds

def sfotMemhookDump (allMh : AllMh F) (buf : List Char) : Except Fault (List Char) := do
  let (_, buf) ← mhTypes.foldlM (fun st ty => (allMh ty).foldlM (fun st mh => dumpEntry st (ty, mh)) st) (0, buf)
  return buf

def entries (allMh : AllMh F) : List (MhType × Memhook F) := mhTypes.flatMap fun ty => (allMh ty).map (ty, ·)

def dumpText (allMh : AllMh F) : List Char := text entryLine '\n' (entries allMh)

def heading (mh : Memhook F) : Word × Word × List Char := (mh.addrStart, mh.addrEnd, nameText mh)

section Buffer

variable {pos : Nat} {s t buf : List Char} {c : Char}

theorem take_put (h : pos + s.length ≤ buf.length) :
    (put pos (s ++ [c]) buf).take (pos + s.length) = buf.take pos ++ s := by
  have hlen : (buf.take pos ++ s).length = pos + s.length := by
    rw [List.length_append, List.length_take, min_eq_left (by omega)]
  rw [put, ← List.append_assoc, List.append_assoc (buf.take pos ++ s), List.take_left' hlen]

theorem put_put (ht : t ≠ []) (h : pos + s.length ≤ buf.length) :
    put (pos + s.length) t (put pos (s ++ [c]) buf) = put pos (s ++ t) buf := by
  have hpos := List.length_pos_iff.mpr ht
  have hdrop : (put pos (s ++ [c]) buf).drop (pos + s.length + t.length) = buf.drop (pos + s.length + t.length) :=
    drop_put (by omega) (by rw [List.length_append, List.length_singleton]; omega)
  rw [put, take_put h, hdrop, put, List.length_append, ← List.append_assoc, Nat.add_assoc]

theorem sprintf_sprintf (h : pos + s.length < buf.length) :
    sprintf (pos + s.length) t (sprintf pos s buf) = sprintf pos (s ++ t) buf := by
  rw [sprintf, sprintf, sprintf, put_put (by simp) h.le, List.append_assoc]

theorem length_sprintf (h : pos + s.length < buf.length) : (sprintf pos s buf).length = buf.length :=
  length_put (by rw [List.length_append, List.length_singleton]; omega)

end Buffer

theorem foldlM_dumpEntry (es : List (MhType × Memhook F)) (pos : Nat) (buf : List Char) :
    es.foldlM dumpEntry (pos, buf) =
      if es = [] then .ok (pos, buf)
      else if pos + (text entryLine '\n' es).length < buf.length then
        .ok (pos + (text entryLine '\n' es).length, sprintf pos (text entryLine '\n' es) buf)
      else .error .outOfBounds := by
  induction es generalizing pos buf with
  | nil => rfl
  | cons e es ih =>
      obtain ⟨line, hline⟩ : ∃ line, line = entryLine e ++ ['\n'] := ⟨_, rfl⟩
      have htext : text entryLine '\n' (e :: es) = line ++ text entryLine '\n' es := by rw [hline]; rfl
      have hentry : dumpEntry (pos, buf) e =
          if pos + line.length < buf.length then .ok (pos + line.length, sprintf pos line buf)
          else .error .outOfBounds := by rw [hline]; rfl
      rw [List.foldlM_cons, hentry, if_neg (List.cons_ne_nil e es), htext, List.length_append]
      by_cases hfit : pos + line.length < buf.length
      · rw [if_pos hfit, ok_bind, ih, length_sprintf hfit]
        by_cases hes : es = []
        · subst hes
          have hnil : text entryLine '\n' ([] : List (MhType × Memhook F)) = [] := rfl
          rw [if_pos rfl, hnil, List.length_nil, Nat.add_zero, if_pos hfit, List.append_nil]
        · rw [if_neg hes, sprintf_sprintf hfit, Nat.add_assoc]
      · rw [if_neg hfit, if_neg (by omega)]
        rfl

theorem sfotMemhookDump_eq (allMh : AllMh F) (buf : List Char) :
    sfotMemhookDump allMh buf =
      if entries allMh = [] then .ok buf
      else if (dumpText allMh).length < buf.length then .ok (sprintf 0 (dumpText allMh) buf)
      else .error .outOfBounds := by
  have hflat : mhTypes.foldlM (fun st ty => (allMh ty).foldlM (fun st mh => dumpEntry st (ty, mh)) st) (0, buf) =
      (entries allMh).foldlM dumpEntry (0, buf) := by
    simp only [entries, mhTypes, List.flatMap_cons, List.flatMap_nil, List.foldlM_append, List.foldlM_map,
      List.foldlM_cons, List.foldlM_nil]
  rw [sfotMemhookDump, hflat, foldlM_dumpEntry, Nat.zero_add]
  by_cases hnone : entries allMh = []
  · rw [if_pos hnone, if_pos hnone]
    rfl
  · rw [if_neg hnone, if_neg hnone]
    by_cases hfit : (text entryLine '\n' (entries allMh)).length < buf.length
    · rw [if_pos hfit, ok_bind, dumpText, if_pos hfit]
      rfl
    · rw [if_neg hfit, dumpText, if_neg hfit]
      rfl

section Reading

variable {e e' : MhType × Memhook F}

theorem length_append_congr {s s' t t' : List Char} (hs : s.length = s'.length) (ht : t.length = t'.length) :
    (s ++ t).length = (s' ++ t').length := by
  rw [List.length_append, List.length_append, hs, ht]

theorem length_hexWord (w w' : Word) : (hexWord w).length = (hexWord w').length := by
  rw [hexWord, hexWord, length_hex, length_hex]

theorem length_entryHead (e e' : MhType × Memhook F) : (entryHead e).length = (entryHead e').length := by
  refine length_append_congr (length_append_congr ?_ (length_hexWord _ _)) rfl
  refine length_append_congr (length_append_congr ?_ (length_hexWord _ _)) rfl
  exact length_append_congr (length_append_congr rfl rfl) rfl

theorem typeDigit_inj {ty ty' : MhType} (h : typeDigit ty = typeDigit ty') : ty = ty' := by
  cases ty <;> cases ty' <;> first | rfl | exact absurd h (by decide)

theorem entryLine_inj (h : entryLine e = entryLine e') : e.1 = e'.1 ∧ heading e.2 = heading e'.2 := by
  obtain ⟨hfront, -⟩ := List.append_inj' h rfl
  obtain ⟨hhead, hname⟩ := List.append_inj hfront (length_entryHead e e')
  obtain ⟨hhead, -⟩ := List.append_inj' hhead rfl
  obtain ⟨hhead, hend⟩ := List.append_inj' hhead (length_hexWord _ _)
  obtain ⟨hhead, -⟩ := List.append_inj' hhead rfl
  obtain ⟨hhead, hstart⟩ := List.append_inj' hhead (length_hexWord _ _)
  obtain ⟨hhead, -⟩ := List.append_inj' hhead rfl
  obtain ⟨-, htype⟩ := List.append_inj' hhead rfl
  refine ⟨typeDigit_inj (List.cons.inj htype).1, ?_⟩
  rw [heading, heading, hexWord_inj hstart, hexWord_inj hend, hname]

theorem newline_notMem_hex (width v : Nat) : '\n' ∉ hex width v := by
  induction width generalizing v with
  | zero => exact List.not_mem_nil
  | succ width ih =>
      rw [hex, List.mem_append, List.mem_singleton]
      rintro (h | h)
      · exact ih _ h
      · exact absurd (h ▸ hexDigit_mem (v % 16)) (by decide)

theorem newline_notMem_entryHead (e : MhType × Memhook F) : '\n' ∉ entryHead e := by
  have hdigit : '\n' ∉ [typeDigit e.1] := by cases e.1 <;> decide
  have hlabel : '\n' ∉ "MHTYPE ".toList := by decide
  have hopen : '\n' ∉ " [0x".toList := by decide
  have hdash : '\n' ∉ "-0x".toList := by decide
  have hclose : '\n' ∉ "] (".toList := by decide
  refine List.not_mem_append (List.not_mem_append ?_ (newline_notMem_hex _ _)) hclose
  refine List.not_mem_append (List.not_mem_append ?_ (newline_notMem_hex _ _)) hdash
  exact List.not_mem_append (List.not_mem_append hlabel hdigit) hopen

theorem newline_notMem_entryLine (h : '\n' ∉ nameText e.2) : '\n' ∉ entryLine e := by
  exact List.not_mem_append (List.not_mem_append (newline_notMem_entryHead e) h) (by decide)

end Reading

def Legible (allMh : AllMh F) : Prop := ∀ ty, ∀ mh ∈ allMh ty, '\n' ∉ nameText mh

theorem headings_eq (allMh : AllMh F) (ty : MhType) :
    (allMh ty).map heading =
      (((entries allMh).map fun e => (e.1, heading e.2)).filter fun e => e.1 = ty).map Prod.snd := by
  cases ty <;> simp [entries, mhTypes, Function.comp_def, List.filter_map]

/-- The dump fills its buffer exactly when the text and its terminator fit, and
what it tells of tables with legible names is all there is to the mappings but
their functions. -/
theorem dump_tells {allMh allMh' : AllMh F} (h : Legible allMh) (h' : Legible allMh') (buf : List Char) :
    (sfotMemhookDump allMh buf = if entries allMh = [] then .ok buf
      else if (dumpText allMh).length < buf.length then .ok (sprintf 0 (dumpText allMh) buf)
      else .error .outOfBounds) ∧
    (dumpText allMh = dumpText allMh' → ∀ ty, (allMh ty).map heading = (allMh' ty).map heading) := by
  have hlines : ∀ t : AllMh F, Legible t → ∀ e ∈ entries t, '\n' ∉ entryLine e := by
    intro t ht e he
    obtain ⟨ty, -, he⟩ := List.mem_flatMap.mp he
    obtain ⟨mh, hmh, rfl⟩ := List.mem_map.mp he
    exact newline_notMem_entryLine (ht ty mh hmh)
  refine ⟨sfotMemhookDump_eq allMh buf, fun heq ty => ?_⟩
  have hmap := text_inj (hlines allMh h) (hlines allMh' h') heq
  have hshown : (entries allMh).map (fun e => (e.1, heading e.2)) = (entries allMh').map fun e => (e.1, heading e.2) := by
    have : Nonempty (MhType × Word × Word × List Char) := ⟨(.read, 0#16, 0#16, [])⟩
    obtain ⟨shown, hfactor⟩ := (Function.factorsThrough_iff fun e : MhType × Memhook F => (e.1, heading e.2)).mp
      fun e e' he => Prod.ext (entryLine_inj he).1 (entryLine_inj he).2
    rw [hfactor, ← List.map_map, hmap, List.map_map]
  rw [headings_eq, headings_eq, hshown]

theorem legible_hookTable : Legible Simple6502.hookTable := by
  intro ty
  cases ty with
  | read => exact List.forall_mem_cons.mpr ⟨by decide, List.forall_mem_singleton.mpr (by decide)⟩
  | write => exact List.forall_mem_singleton.mpr (by decide)
  | transl => exact fun mh hmh => absurd hmh List.not_mem_nil

def sharedKeys : AllMh Simple6502.Hook := Function.update Simple6502.hookTable .read
  ((Simple6502.hookTable .read).map fun mh => { mh with memhookF := some .randomMemhook })

theorem legible_sharedKeys : Legible sharedKeys := by
  intro ty mh hmh
  cases ty with
  | read =>
      obtain ⟨own, hown, rfl⟩ := List.mem_map.mp hmh
      exact legible_hookTable .read own hown
  | write => exact legible_hookTable .write mh hmh
  | transl => exact legible_hookTable .transl mh hmh

theorem dump_tells_sharedKeys :
    let buf := List.replicate 1024 nul
    (sfotMemhookDump Simple6502.hookTable buf = if entries Simple6502.hookTable = [] then .ok buf
      else if (dumpText Simple6502.hookTable).length < buf.length then
        .ok (sprintf 0 (dumpText Simple6502.hookTable) buf)
      else .error .outOfBounds) ∧
    Simple6502.hookTable ≠ sharedKeys ∧
      ∀ ty, (Simple6502.hookTable ty).map heading = (sharedKeys ty).map heading := by
  have hdump := dump_tells legible_hookTable legible_sharedKeys (List.replicate 1024 nul)
  have hother : Simple6502.hookTable ≠ sharedKeys := fun h => absurd (congrFun h .read) (by decide)
  exact ⟨hdump.1, hother, hdump.2 (by decide +kernel)⟩

end Bugnes.MemhookDump
