import Bugnes.CpuTwoRuns
import Bugnes.Loading
import Bugnes.Simple6502

namespace Bugnes.FramebufferShadow

open Words Memhooks CpuCore Sfot Simple6502 TwoRuns CpuTwoRuns Rounds Loading

def pixelAddr (i : Fin 0x400) : Word := 0x200#16 + BitVec.ofNat 16 i

theorem toNat_pixelAddr (i : Fin 0x400) : (pixelAddr i).toNat = 0x200 + i := by
  have hi := i.isLt
  rw [pixelAddr, BitVec.toNat_add, BitVec.toNat_ofNat, BitVec.toNat_ofNat]
  omega

theorem pixelAddr_injective : Function.Injective pixelAddr := by
  intro i j h
  have hn := congrArg BitVec.toNat h
  rw [toNat_pixelAddr, toNat_pixelAddr] at hn
  exact Fin.ext (by omega)

theorem pixelAddr_ne_stackAddr (i : Fin 0x400) (sp : Byte) : pixelAddr i ≠ stackAddr sp :=
  ne_stackAddr (by rw [toNat_pixelAddr]; omega) sp

section Screen

theorem screenMemhook_pixelAddr (w : Screen) (i : Fin 0x400) (color : Byte) :
    (screenMemhook (pixelAddr i) color).run w =
      .ok (color &&& 0xF#8, { w with framebuffer := Function.update w.framebuffer i (color &&& 0xF#8) }) := by
  have hi : 0x200 ≤ (pixelAddr i).toNat ∧ (pixelAddr i).toNat - 0x200 < 0x400 := by
    rw [toNat_pixelAddr]
    omega
  have hfin : (⟨(pixelAddr i).toNat - 0x200, hi.2⟩ : Fin 0x400) = i := by
    apply Fin.ext
    simp [toNat_pixelAddr]
  rw [screenMemhook, dif_pos hi, hfin]
  rfl

/-- The walk leaves in each pixel the low half of its byte, the skipped ones
being black already. -/
theorem walkScreen_run {w : Screen} (hw : w.framebuffer = fun _ => 0#8) (fbMemory : Int → Byte) :
    (walkScreen fbMemory).run w = .ok ((), { w with framebuffer := fun i => fbMemory i &&& 0xF#8 }) := by
  let upTo : Nat → Screen := fun n =>
    { w with framebuffer := fun i => if i.val < n then fbMemory i &&& 0xF#8 else 0#8 }
  have hstep : ∀ i < 0x400, ∀ t, t = upTo i →
      ∃ t', (if fbMemory i = 0#8 then pure ()
        else discard (screenMemhook (screenHookOffset + BitVec.ofNat 16 i) (fbMemory i)) : ScreenM Unit).run t =
          .ok ((), t') ∧ t' = upTo (i + 1) := by
    rintro i hi _ rfl
    have hnext : Function.update (upTo i).framebuffer ⟨i, hi⟩ (fbMemory i &&& 0xF#8) = (upTo (i + 1)).framebuffer := by
      funext j
      by_cases hj : j = ⟨i, hi⟩
      · simp [upTo, hj]
      · have hne : j.val ≠ i := fun h => hj (Fin.ext h)
        have hlt : j.val < i + 1 ↔ j.val < i := by omega
        simp [upTo, hj, hlt]
    refine ⟨_, ?_, rfl⟩
    by_cases hzero : fbMemory i = 0#8
    · have hsame : upTo i = upTo (i + 1) := by
        have hblack : (upTo i).framebuffer ⟨i, hi⟩ = fbMemory i &&& 0xF#8 := by simp [upTo, hzero]
        rw [← hblack, Function.update_eq_self] at hnext
        exact congrArg (fun fb => { w with framebuffer := fb }) hnext
      rw [if_pos hzero, ← hsame]
      rfl
    · rw [if_neg hzero]
      refine (discard_run_ok (screenMemhook_pixelAddr (upTo i) ⟨i, hi⟩ (fbMemory i))).trans ?_
      rw [hnext]
  have hstart : w = upTo 0 := by
    simp [upTo, ← hw]
  obtain ⟨w', hrun, hw'⟩ := forM_range (P := fun n t => t = upTo n) hstart hstep
  have hall : (upTo 0x400).framebuffer = fun i : Fin 0x400 => fbMemory i &&& 0xF#8 := funext fun i => if_pos i.isLt
  rw [hw', show upTo 0x400 = { w with framebuffer := (upTo 0x400).framebuffer } from rfl, hall] at hrun
  exact hrun

theorem colourOf_masked : ∀ v : Byte, (colourOf (v &&& 0xF#8)).isSome := by
  decide +kernel

theorem updateFrom_all {fb : Framebuffer} (h : ∀ i, (colourOf (fb i)).isSome) (rgb : Option Rgb)
    (is : List (Fin 0x400)) :
    updateFrom fb rgb is = is.map fun i => pixel i (colourOf (fb i)) := by
  induction is generalizing rgb with
  | nil => rfl
  | cons i is ih =>
      have hi : (colourOf (fb i)).or rgb = colourOf (fb i) := Option.or_of_isSome (h i)
      rw [updateFrom, ih, hi]
      rfl

end Screen

/-- The framebuffer holds the low half of the screen memory, with the hooks of
`main` in place. -/
structure Shown (m : Machine Hook Screen) : Prop where
  memhooks : m.allMh = hookTable
  excepthooks : m.ehFunV .brk = some .excepthook
  shows : ∀ i, m.world.framebuffer i = m.mem (pixelAddr i) &&& 0xF#8

section Machine

variable {m : Machine Hook Screen}

theorem check_write_pixel (i : Fin 0x400) : check hookTable .write (pixelAddr i) = some .screenMemhook := by
  refine if_pos ⟨?_, ?_⟩
  · rw [BitVec.le_def, toNat_pixelAddr]
    exact Nat.le_add_right _ _
  · rw [BitVec.lt_def, toNat_pixelAddr]
    exact Nat.add_lt_add_left i.isLt 0x200

theorem check_write_other {a : Word} (h : ∀ i, a ≠ pixelAddr i) : check hookTable .write a = none := by
  refine if_neg fun hcovers => ?_
  have hlow : 0x200 ≤ a.toNat := hcovers.1
  have hhigh : a.toNat < 0x600 := hcovers.2
  refine h ⟨a.toNat - 0x200, by omega⟩ (BitVec.eq_of_toNat_eq ?_)
  rw [toNat_pixelAddr]
  change a.toNat = 0x200 + (a.toNat - 0x200)
  omega

theorem Shown.update (hm : Shown m) {a : Word} (h : ∀ i, pixelAddr i ≠ a) (v : Byte) :
    Shown { m with mem := Function.update m.mem a v } := { hm with
  shows := fun i => (hm.shows i).trans (congrArg (· &&& 0xF#8) (Function.update_of_ne (h i) v m.mem).symm) }

theorem onWorld_shown {α : Type} {x : ScreenM α} (hm : Shown m)
    (hx : ∀ w a w', x.run w = .ok (a, w') → w'.framebuffer = w.framebuffer) {a : α} {m' : Machine Hook Screen}
    (hrun : (onWorld x : SimpleM α).run m = .ok (a, m')) : Shown m' := by
  rw [onWorld_run] at hrun
  cases hw : x.run m.world with
  | error e =>
      rw [hw] at hrun
      cases hrun
  | ok r =>
      rw [hw] at hrun
      cases hrun
      have hfb : r.2.framebuffer = m.world.framebuffer := hx _ _ _ hw
      exact { hm with shows := fun i => (congrFun hfb i).trans (hm.shows i) }

theorem translAddr_shown (hm : Shown m) (a : Word) : (translAddr hookFuns a).run m = .ok (a, m) := by
  have hnone : check m.allMh .transl a = none := by simp [hm.memhooks, check, hookTable, checkList]
  simp [translAddr, hnone]

theorem memRead_shown (a : Word) : Keeps Shown (memRead hookFuns a) := by
  intro m hm v m' hrun
  rw [memRead, StateT.run_bind, translAddr_shown hm, ok_bind, StateT.run_bind, StateT.run_get, pure_eq_ok, ok_bind]
    at hrun
  cases hc : check m.allMh .read a with
  | none =>
      rw [hc] at hrun
      cases hrun
      exact hm
  | some f =>
      rw [hc] at hrun
      cases f with
      | randomMemhook | keycodeMemhook =>
          refine onWorld_shown hm (fun w b w' h => ?_) hrun
          cases h
          rfl
      | _ =>
          cases hrun
          exact hm

theorem writeTo_shown (a : Word) (v : Byte) : Keeps Shown (writeTo hookFuns a v) := by
  intro m hm _ m' hrun
  by_cases ha : ∃ i, a = pixelAddr i
  · obtain ⟨i, rfl⟩ := ha
    have hc : check m.allMh .write (pixelAddr i) = some .screenMemhook := hm.memhooks ▸ check_write_pixel i
    have hw : (hookFuns.write .screenMemhook (pixelAddr i) v).run m = _ := onWorld_run (screenMemhook (pixelAddr i) v) m
    rw [screenMemhook_pixelAddr] at hw
    simp only [writeTo, StateT.run_bind, StateT.run_get, pure_eq_ok, ok_bind, hc, hw, Except.map] at hrun
    cases hrun
    refine { hm with shows := fun j => ?_ }
    by_cases hj : j = i
    · subst hj
      simp [BitVec.and_assoc]
    · simp [hj, pixelAddr_injective.ne hj, hm.shows j]
  · have hne : ∀ i, a ≠ pixelAddr i := fun i h => ha ⟨i, h⟩
    have hc : check m.allMh .write a = none := hm.memhooks ▸ check_write_other hne
    simp only [writeTo, StateT.run_bind, StateT.run_get, pure_eq_ok, ok_bind, hc] at hrun
    cases hrun
    exact hm.update (fun i => (hne i).symm) v

theorem shown_invariant : Invariant hookFuns Shown where
  regs _ hm _ := { hm with }
  control _ hm _ _ := { hm with }
  push _ hm sp v := hm.update (fun i => pixelAddr_ne_stackAddr i sp) v
  transl a m hm _ m' hrun := by
    rw [translAddr_shown hm] at hrun
    cases hrun
    exact hm
  read := memRead_shown
  write := writeTo_shown
  exc ty a s m hm _ m' hrun := by
    cases ty
    rw [excepthookCheck, StateT.run_bind, StateT.run_get, pure_eq_ok, ok_bind, hm.excepthooks] at hrun
    cases hrun

end Machine

section Load

variable {F σ : Type}

theorem sfotSetReset_run (val : Word) (m : Machine F σ) :
    ∃ mem, (sfotSetReset val : CpuM F σ Unit).run m = .ok ((), { m with mem := mem }) ∧
      ∀ a < cpuAddrReset, mem a = m.mem a := by
  refine ⟨Function.update (Function.update m.mem cpuAddrReset (loByte val)) (cpuAddrReset + 1#16) (hiByte val), rfl,
    fun a ha => ?_⟩
  have hne : a ≠ cpuAddrReset := BitVec.ne_of_lt ha
  have hne' : a ≠ cpuAddrReset + 1#16 := BitVec.ne_of_lt (BitVec.lt_trans ha (by decide))
  rw [Function.update_of_ne hne', Function.update_of_ne hne]

end Load

section Main

variable {rom : List Byte} {fd : Int}

theorem screen_part (h : 0x600 ≤ rom.length) (fbMemory : Int → Byte) (i : Fin 0x400) :
    readInto (some ((rom.drop 0x200).take 0x400)) fbMemory i = rom.getD (0x200 + i) 0#8 := by
  have hi := i.isLt
  have hlen : i.val < ((rom.drop 0x200).take 0x400).length := by
    rw [List.length_take, List.length_drop]
    omega
  have hat := deliver_at hlen 0 fbMemory
  rw [Int.zero_add] at hat
  rw [readInto, hat, List.getD_eq_getElem?_getD, List.getElem?_take, if_pos hi, List.getElem?_drop,
    ← List.getD_eq_getElem?_getD]

/-- What the loop of the CPU starts with. -/
def booted (rom : List Byte) (random : Nat → BitVec 64) (keycode : Nat → Byte) : Machine Hook Screen := {
  (atStartup (black random keycode) : Machine Hook Screen) with
  mem := Function.update (Function.update (withFile 0#16 rom fun _ => 0#8) cpuAddrReset 0x00#8)
    (cpuAddrReset + 1#16) 0x06#8
  allMh := hookTable
  ehFunV := Function.update (fun _ => none) .brk (some .excepthook)
  world := { black random keycode with framebuffer := fun i => rom.getD (0x200 + i) 0#8 &&& 0xF#8 } }

theorem booted_shown (rom : List Byte) (random : Nat → BitVec 64) (keycode : Nat → Byte) :
    Shown (booted rom random keycode) := by
  refine ⟨rfl, rfl, fun i => ?_⟩
  have hi := i.isLt
  have hindex : (pixelAddr i - 0#16).toNat = 0x200 + i := by rw [BitVec.sub_zero, toNat_pixelAddr]
  have hbelow : pixelAddr i < cpuAddrReset := by
    rw [BitVec.lt_def, toNat_pixelAddr]
    exact Nat.lt_of_lt_of_le (Nat.add_lt_add_left hi 0x200) (by decide)
  have hne : pixelAddr i ≠ cpuAddrReset := BitVec.ne_of_lt hbelow
  have hne' : pixelAddr i ≠ cpuAddrReset + 1#16 := BitVec.ne_of_lt (BitVec.lt_trans hbelow (by decide))
  have hmem : (booted rom random keycode).mem (pixelAddr i) = rom.getD (0x200 + i) 0#8 := by
    refine (Function.update_of_ne hne' _ _).trans ((Function.update_of_ne hne _ _).trans ?_)
    rw [withFile, hindex]
  exact congrArg (· &&& 0xF#8) hmem.symm

theorem runMain_eq (random : Nat → BitVec 64) (keycode : Nat → Byte) (buf fbMemory : Int → Byte) (rounds : Nat)
    (hfd : 0 ≤ fd) (hlow : 0x600 ≤ rom.length) (hhigh : rom.length ≤ 0xFFFF) :
    (runMain fd rom.length buf fbMemory [some rom] (some ((rom.drop 0x200).take 0x400)) rounds).run
      (atStartup (black random keycode)) =
        (do
          fetchReset hookFuns
          discard (cpuThread hookFuns (some stepCb) rounds [])
          return true : SimpleM Bool).run (booted rom random keycode) := by
  have hlen : rom.length = (BitVec.ofNat 16 rom.length).toNat := by
    rw [BitVec.toNat_ofNat]
    omega
  have hsize : (0#16).toNat + (BitVec.ofNat 16 rom.length).toNat ≤ 0x10000 := by
    rw [← hlen]
    exact (Nat.zero_add _).trans_le (hhigh.trans (by decide))
  let start : Machine Hook Screen := atStartup (black random keycode)
  let final : Machine Hook Screen := booted rom random keycode
  let loaded : Machine Hook Screen := { start with mem := withFile 0#16 rom fun _ => 0#8 }
  let reset : Machine Hook Screen := { start with mem := final.mem }
  let drawn : Machine Hook Screen := { reset with world := final.world }
  have hload : (sfotLoad hookFuns fd 0#16 (BitVec.ofNat 16 rom.length) buf [some rom]).run start =
      .ok (some ((BitVec.ofNat 16 rom.length).toNat : Int), loaded) :=
    sfotLoad_once hookFuns (fun _ _ => rfl) hfd hsize hlen buf
  have hreset : (sfotSetReset 0x600#16 : SimpleM Unit).run loaded = .ok ((), reset) := rfl
  have hpixels : (fun i : Fin 0x400 => readInto (some ((rom.drop 0x200).take 0x400)) fbMemory i &&& 0xF#8) =
      final.world.framebuffer := funext fun i => congrArg (· &&& 0xF#8) (screen_part hlow fbMemory i)
  have hwalk := walkScreen_run (w := black random keycode) rfl (readInto (some ((rom.drop 0x200).take 0x400)) fbMemory)
  have hworld : (onWorld (walkScreen (readInto (some ((rom.drop 0x200).take 0x400)) fbMemory)) : SimpleM Unit).run
      reset = .ok ((), drawn) := by
    rw [hpixels] at hwalk
    rw [onWorld_run]
    exact congrArg (Except.map _) hwalk
  have hexc : (sfotExcepthookInsert .brk (some .excepthook) : SimpleM Unit).run drawn =
      .ok ((), { final with allMh := empty }) := rfl
  have hinsert : insertHooks.run { final with allMh := empty } = .ok ((), final) := insertHooks_run rfl
  rw [runMain, if_neg (not_lt.mpr hfd), StateT.run_bind, hload, ok_bind, StateT.run_bind, hreset, ok_bind,
    StateT.run_bind, hworld, ok_bind, StateT.run_bind, hexc, ok_bind, StateT.run_bind, hinsert, ok_bind]

theorem runMain_shown {random : Nat → BitVec 64} {keycode : Nat → Byte} {buf fbMemory : Int → Byte} {rounds : Nat}
    {m : Machine Hook Screen} (hlow : 0x600 ≤ rom.length) (hhigh : rom.length ≤ 0xFFFF)
    (h : (runMain fd rom.length buf fbMemory [some rom] (some ((rom.drop 0x200).take 0x400)) rounds).run
      (atStartup (black random keycode)) = .ok (true, m)) : Shown m := by
  by_cases hfd : fd < 0
  · rw [runMain, if_pos hfd] at h
    cases h
  · rw [runMain_eq random keycode buf fbMemory rounds (not_lt.mp hfd) hlow hhigh] at h
    exact shown_invariant.fromReset (some stepCb) rounds [] _ (booted_shown rom random keycode) true m h

/-- After any number of instructions the framebuffer shows the screen memory,
and every pixel of it has a colour of its own. -/
theorem framebuffer_shows {random : Nat → BitVec 64} {keycode : Nat → Byte} {buf fbMemory : Int → Byte}
    {rounds : Nat} {m : Machine Hook Screen} (hlow : 0x600 ≤ rom.length) (hhigh : rom.length ≤ 0xFFFF)
    (h : (runMain fd rom.length buf fbMemory [some rom] (some ((rom.drop 0x200).take 0x400)) rounds).run
      (atStartup (black random keycode)) = .ok (true, m)) :
    (∀ i : Fin 0x400, m.world.framebuffer i = m.mem (0x200#16 + BitVec.ofNat 16 i) &&& 0x0F#8 ∧
      m.world.framebuffer i ≤ 15#8 ∧ (colourOf (m.world.framebuffer i)).isSome) ∧
      screenUpdate m.world.framebuffer =
        (List.finRange 0x400).map fun i => pixel i (colourOf (m.world.framebuffer i)) := by
  have hm := runMain_shown hlow hhigh h
  have hcolour : ∀ i, (colourOf (m.world.framebuffer i)).isSome := by
    intro i
    rw [hm.shows i]
    exact colourOf_masked _
  refine ⟨fun i => ⟨hm.shows i, ?_, hcolour i⟩, updateFrom_all hcolour none _⟩
  rw [hm.shows i, BitVec.le_def, BitVec.toNat_and]
  exact Nat.and_le_right

/-- A screen of many colours and, behind it, `LDA #$25`, `STA $0200`, `LDA #$37`,
`STA $05FF`. -/
def drawingByte (i : Nat) : Byte :=
  if i < 0x600 then BitVec.ofNat 8 i
  else [0xA9, 0x25, 0x8D, 0x00, 0x02, 0xA9, 0x37, 0x8D, 0xFF, 0x05].getD (i - 0x600) 0#8

def drawingRom : List Byte := (List.range 0x60A).map drawingByte

theorem drawingRom_length : drawingRom.length = 0x60A := by rw [drawingRom, List.length_map, List.length_range]

theorem drawingRom_fits : 0x600 ≤ drawingRom.length ∧ drawingRom.length ≤ 0xFFFF := by
  rw [drawingRom_length]
  decide

def drawing : Machine Hook Screen := { booted drawingRom (fun _ => 0) fun _ => 0 with
  mem := Function.update (Function.update
    (fun a => if (a - 0#16).toNat < 0x60A then drawingByte (a - 0#16).toNat else 0) cpuAddrReset 0x00#8)
    (cpuAddrReset + 1#16) 0x06#8
  world := { black (fun _ => 0) (fun _ => 0) with framebuffer := fun i => drawingByte (0x200 + i) &&& 0xF#8 } }

theorem booted_drawing : booted drawingRom (fun _ => 0) (fun _ => 0) = drawing := by
  have hmem : withFile 0#16 drawingRom (fun _ => 0#8) =
      fun a => if (a - 0#16).toNat < 0x60A then drawingByte (a - 0#16).toNat else 0 := withFile_map_range ..
  have hpixels : (fun i : Fin 0x400 => drawingRom.getD (0x200 + i) 0#8 &&& 0xF#8) =
      fun i : Fin 0x400 => drawingByte (0x200 + i) &&& 0xF#8 := by
    funext i
    have hi : 0x200 + i.val < drawingRom.length := by
      rw [drawingRom_length]
      omega
    rw [List.getD_eq_getElem _ _ hi]
    simp only [drawingRom, List.getElem_map, List.getElem_range]
  rw [drawing, ← hmem, ← hpixels]
  rfl

theorem drawing_runs {α : Type} (rounds : Nat) (view : Machine Hook Screen → α) {v : α}
    (h : ((do
      fetchReset hookFuns
      discard (cpuThread hookFuns (some stepCb) rounds [])
      return true : SimpleM Bool).run drawing).map (fun r => (r.1, view r.2)) = .ok (true, v)) :
    ∃ m, (runMain 3 drawingRom.length (fun _ => 0) (fun _ => 0) [some drawingRom]
      (some ((drawingRom.drop 0x200).take 0x400)) rounds).run (atStartup (black (fun _ => 0) fun _ => 0)) =
        .ok (true, m) ∧ view m = v := by
  rw [runMain_eq _ _ _ _ _ (show (0 : Int) ≤ 3 by decide) drawingRom_fits.1 drawingRom_fits.2, booted_drawing]
  exact run_of_view view h

theorem framebuffer_shows_drawing : ∃ m,
    (runMain 3 drawingRom.length (fun _ => 0) (fun _ => 0) [some drawingRom]
      (some ((drawingRom.drop 0x200).take 0x400)) 2).run (atStartup (black (fun _ => 0) fun _ => 0)) = .ok (true, m) ∧
      m.world.framebuffer 0 = 5 ∧ m.mem 0x200 = 0x05 ∧ m.world.framebuffer 0x3FF = 15 ∧ m.mem 0x5FF = 0xFF ∧
      screenUpdate m.world.framebuffer =
        (List.finRange 0x400).map fun i => pixel i (colourOf (m.world.framebuffer i)) := by
  obtain ⟨m, hrun, hview⟩ := drawing_runs 2
    (fun m => (m.world.framebuffer 0, m.mem 0x200, m.world.framebuffer 0x3FF, m.mem 0x5FF))
    (v := (5, 0x05, 15, 0xFF)) (by decide +kernel)
  obtain ⟨hfirst, hview⟩ := Prod.mk.inj hview
  obtain ⟨hmem, hview⟩ := Prod.mk.inj hview
  obtain ⟨hlast, hmem'⟩ := Prod.mk.inj hview
  exact ⟨m, hrun, hfirst, hmem, hlast, hmem', (framebuffer_shows drawingRom_fits.1 drawingRom_fits.2 hrun).2⟩

end Main

end Bugnes.FramebufferShadow
