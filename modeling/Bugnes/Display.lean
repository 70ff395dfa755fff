import Bugnes.FramebufferShadow
import Bugnes.Tracing

namespace Bugnes.Display

open Words CpuCore Sfot Simple6502 TwoMachines TwoRuns Rounds FramebufferShadow

/-- What is on the screen, point by point; nothing where nobody has painted. -/
abbrev Surface := Fin 256 → Fin 256 → Option Rgb

def Covers (p : Pixel) (x y : Fin 256) : Prop :=
  (p.x ≤ x ∧ x < p.x + pixelSize) ∧ p.y ≤ y ∧ y < p.y + pixelSize

instance (p : Pixel) (x y : Fin 256) : Decidable (Covers p x y) := inferInstanceAs (Decidable (_ ∧ _))

def fillRect (s : Surface) (p : Pixel) : Surface := fun x y => if Covers p x y then p.rgb else s x y

def paint (s : Surface) (pixels : List Pixel) : Surface := pixels.foldl fillRect s

def cellOf (x y : Fin 256) : Fin 0x400 := ⟨y / pixelSize * 32 + x / pixelSize, by
  have hx := x.isLt
  have hy := y.isLt
  simp only [pixelSize]
  omega⟩

theorem covers_pixel (i : Fin 0x400) (rgb : Option Rgb) (x y : Fin 256) :
    Covers (pixel i rgb) x y ↔ i = cellOf x y := by
  have hi := i.isLt
  have hx := x.isLt
  have hy := y.isLt
  have hlow : i.val &&& 0x1F = i.val % 32 := Nat.and_two_pow_sub_one_eq_mod i.val 5
  have hhigh : i.val >>> 5 = i.val / 32 := Nat.shiftRight_eq_div_pow i.val 5
  simp only [Covers, pixel, cellOf, hlow, hhigh, pixelSize, Fin.ext_iff]
  omega

theorem paint_shows {P : Fin 0x400 → Option Rgb → Prop} {is : List (Fin 0x400)} {pixels : List Pixel}
    (h : List.Forall₂ (fun i p => ∃ rgb, p = pixel i rgb ∧ P i rgb) is pixels) (s : Surface) (x y : Fin 256) :
    (cellOf x y ∈ is → P (cellOf x y) (paint s pixels x y)) ∧ (cellOf x y ∉ is → paint s pixels x y = s x y) := by
  induction h generalizing s with
  | nil => exact ⟨nofun, fun _ => rfl⟩
  | @cons i p is pixels hp _ ih =>
      obtain ⟨rgb, rfl, hP⟩ := hp
      obtain ⟨hin, hout⟩ := ih (fillRect s (pixel i rgb))
      rw [paint, List.foldl_cons, ← paint]
      constructor
      · intro hmem
        by_cases hlater : cellOf x y ∈ is
        · exact hin hlater
        · obtain rfl : cellOf x y = i := (List.mem_cons.mp hmem).resolve_right hlater
          rw [hout hlater, fillRect, if_pos ((covers_pixel _ rgb x y).mpr rfl)]
          exact hP
      · intro hmem
        obtain ⟨hne, hlater⟩ := not_or.mp fun h => hmem (List.mem_cons.mpr h)
        rw [hout hlater, fillRect, if_neg fun h => hne ((covers_pixel i rgb x y).mp h).symm]

/-- A refresh by the timer. Before it looks at a cell the thread of the CPU gets
on by so many rounds. -/
def refreshFrom : Option Rgb → List (Fin 0x400 × Nat) → SimpleM (List Pixel)
  | _, [] => return []
  | rgb, (i, meanwhile) :: is => do
      discard (cpuThread hookFuns (some stepCb) meanwhile [])
      let rgb := (colourOf ((← get).world.framebuffer i)).or rgb
      return pixel i rgb :: (← refreshFrom rgb is)

def refresh (schedule : List Nat) : SimpleM (List Pixel) := refreshFrom none ((List.finRange 0x400).zip schedule)

theorem refreshFrom_still (is : List (Fin 0x400)) (rgb : Option Rgb) (m : Machine Hook Screen) :
    (refreshFrom rgb (is.map (·, 0))).run m = .ok (updateFrom m.world.framebuffer rgb is, m) := by
  induction is generalizing rgb with
  | nil => rfl
  | cons i is ih =>
      rw [List.map_cons, refreshFrom, updateFrom]
      simp [cpuThread, discard_eq_bind, ih]

abbrev round : SimpleM Unit := instruction hookFuns >>= fun _ => discard (collectStepInfo hookFuns)

theorem discard_rounds (n : Nat) : discard (cpuThread hookFuns (some stepCb) n []) = rounds round n :=
  Tracing.discard_cpuThread_some (fun _ _ => rfl) n []

/-- The cell shows what it held after some of the rounds. -/
def Held (m : Machine Hook Screen) (bound : Nat) (i : Fin 0x400) (rgb : Option Rgb) : Prop :=
  ∃ n ≤ bound, ∃ m', (rounds round n).run m = .ok ((), m') ∧ rgb = colourOf (m'.mem (pixelAddr i) &&& 0xF#8)

theorem rounds_shown {m m' : Machine Hook Screen} {n : Nat} (hm : Shown m) (h : (rounds round n).run m = .ok ((), m')) :
    Shown m' := by
  rw [← discard_rounds] at h
  obtain ⟨r, hrun⟩ := discard_run_iff.mp h
  exact shown_invariant.cpuThread (some stepCb) n [] m hm r m' hrun

theorem refreshFrom_held {ps : List (Fin 0x400 × Nat)} {rgb : Option Rgb} {m m' : Machine Hook Screen}
    {pixels : List Pixel} (hm : Shown m) (h : (refreshFrom rgb ps).run m = .ok (pixels, m')) :
    List.Forall₂ (fun i p => ∃ rgb, p = pixel i rgb ∧ Held m (ps.map Prod.snd).sum i rgb) (ps.map Prod.fst) pixels := by
  induction ps generalizing rgb m pixels with
  | nil =>
      cases h
      exact .nil
  | cons q ps ih =>
      obtain ⟨i, k⟩ := q
      rw [refreshFrom, discard_rounds] at h
      obtain ⟨_, m₁, hk, h⟩ := bind_run_iff.mp h
      have hm₁ : Shown m₁ := rounds_shown hm hk
      have hcolour : (colourOf (m₁.world.framebuffer i)).or rgb = colourOf (m₁.mem (pixelAddr i) &&& 0xF#8) := by
        rw [hm₁.shows i]
        exact Option.or_of_isSome (colourOf_masked _)
      rw [StateT.run_bind, StateT.run_get, pure_eq_ok, ok_bind, hcolour] at h
      obtain ⟨later, m₂, hrest, hpixels⟩ := bind_run_iff.mp h
      cases hpixels
      refine .cons ⟨_, rfl, k, ?_, m₁, hk, rfl⟩ ((ih hm₁ hrest).imp fun j p => ?_)
      · rw [List.map_cons, List.sum_cons]
        exact Nat.le_add_right _ _
      · rintro ⟨rgb', hp, n, hn, mₙ, hrun, hrgb⟩
        refine ⟨rgb', hp, k + n, ?_, mₙ, run_rounds_add hk hrun, hrgb⟩
        rw [List.map_cons, List.sum_cons]
        exact Nat.add_le_add_left hn k

theorem refreshFrom_total {ps : List (Fin 0x400 × Nat)} (rgb : Option Rgb) {m m' : Machine Hook Screen}
    (h : (rounds round (ps.map Prod.snd).sum).run m = .ok ((), m')) :
    ∃ pixels, (refreshFrom rgb ps).run m = .ok (pixels, m') := by
  induction ps generalizing rgb m with
  | nil =>
      cases h
      exact ⟨[], rfl⟩
  | cons p ps ih =>
      obtain ⟨i, k⟩ := p
      rw [List.map_cons, List.sum_cons] at h
      obtain ⟨m₁, hk, hrest⟩ := run_rounds_split h
      obtain ⟨pixels, hpixels⟩ := ih ((colourOf (m₁.world.framebuffer i)).or rgb) hrest
      rw [refreshFrom, discard_rounds, StateT.run_bind, hk, ok_bind, StateT.run_bind, StateT.run_get, pure_eq_ok,
        ok_bind, StateT.run_bind, hpixels]
      exact ⟨_, rfl⟩

section Main

variable {rom : List Byte} {fd : Int} {random : Nat → BitVec 64} {keycode : Nat → Byte} {buf fbMemory : Int → Byte}
  {rounds : Nat} {m m' : Machine Hook Screen}

/-- Each point of the screen shows the low half of its byte as that stood at some
moment of the refresh, whatever was on the screen and whatever the CPU does
meanwhile. -/
theorem refresh_shows (hlow : 0x600 ≤ rom.length) (hhigh : rom.length ≤ 0xFFFF)
    (h : (runMain fd rom.length buf fbMemory [some rom] (some ((rom.drop 0x200).take 0x400)) rounds).run
      (atStartup (black random keycode)) = .ok (true, m))
    {schedule : List Nat} (hschedule : schedule.length = 0x400) {pixels : List Pixel}
    (hrefresh : (refresh schedule).run m = .ok (pixels, m')) (s : Surface) (x y : Fin 256) :
    ∃ n ≤ schedule.sum, ∃ mₙ, (discard (cpuThread hookFuns (some stepCb) n [])).run m = .ok ((), mₙ) ∧
      paint s pixels x y = colourOf (mₙ.mem (0x200#16 + BitVec.ofNat 16 (y / 8 * 32 + x / 8)) &&& 0x0F#8) := by
  have hlen : (List.finRange 0x400).length = schedule.length := by rw [List.length_finRange, hschedule]
  have hheld := refreshFrom_held (runMain_shown hlow hhigh h) hrefresh
  rw [List.map_fst_zip hlen.le, List.map_snd_zip hlen.ge] at hheld
  obtain ⟨n, hn, mₙ, hrun, hpoint⟩ := (paint_shows hheld s x y).1 (List.mem_finRange _)
  rw [← discard_rounds] at hrun
  exact ⟨n, hn, mₙ, hrun, hpoint⟩

/-- The CPU gets on by a round before three of the cells. -/
def schedule : List Nat := (List.range 0x400).map fun i => if i ∈ [0, 7, 0x300] then 1 else 0

theorem schedule_length : schedule.length = 0x400 := by rw [schedule, List.length_map, List.length_range]

theorem schedule_sum : schedule.sum = 3 := by decide +kernel

theorem refresh_shows_drawing : ∃ m m' pixels,
    (runMain 3 drawingRom.length (fun _ => 0) (fun _ => 0) [some drawingRom]
      (some ((drawingRom.drop 0x200).take 0x400)) 1).run (atStartup (black (fun _ => 0) fun _ => 0)) = .ok (true, m) ∧
      m.mem 0x5FF = 0xFF ∧ (refresh schedule).run m = .ok (pixels, m') ∧ m'.mem 0x5FF = 0x07 ∧
      ∀ (s : Surface) (x y : Fin 256), ∃ n ≤ schedule.sum, ∃ mₙ,
        (discard (cpuThread hookFuns (some stepCb) n [])).run m = .ok ((), mₙ) ∧
          paint s pixels x y = colourOf (mₙ.mem (0x200#16 + BitVec.ofNat 16 (y / 8 * 32 + x / 8)) &&& 0x0F#8) := by
  obtain ⟨m, hm, hview⟩ := drawing_runs 1
    (fun m => (m.mem 0x5FF, ((rounds round 3).run m).map fun r => r.2.mem 0x5FF)) (v := (0xFF, .ok 0x07))
    (by decide +kernel)
  obtain ⟨hbefore, hview⟩ := Prod.mk.inj hview
  cases hrounds : (rounds round 3).run m with
  | error e =>
      rw [hrounds] at hview
      cases hview
  | ok r =>
      rw [hrounds] at hview
      have hlen : (List.finRange 0x400).length = schedule.length := by rw [List.length_finRange, schedule_length]
      have htotal : (rounds round (((List.finRange 0x400).zip schedule).map Prod.snd).sum).run m = .ok ((), r.2) := by
        rw [List.map_snd_zip hlen.ge, schedule_sum, hrounds]
      obtain ⟨pixels, hrefresh⟩ := refreshFrom_total none htotal
      exact ⟨m, r.2, pixels, hm, hbefore, hrefresh, Except.ok.inj hview,
        refresh_shows drawingRom_fits.1 drawingRom_fits.2 hm schedule_length hrefresh⟩

end Main

end Bugnes.Display
