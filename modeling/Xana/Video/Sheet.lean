import Xana.Lib.Runs
import Xana.Video.Glyphs

/-!
# The framebuffer is a window on a sheet

On a sheet of pixels that has no lower end, a stroke stays where it is drawn. The screen shows
as many lines of it as it has, from some line on; a scroll moves this window down, where the
sheet is still blank, and draws nothing.

This is what is in the memory of a framebuffer, whatever is put, cleared and scrolled in
whatever order (`Xana.VideoRun.sheet_of_reach`): the lines are moved in memory, but no pixel is
lost on the way, moved to a wrong place, or drawn over by another one.
-/

namespace Xana

open Mem

/-! ### The sheet -/

/-- The pixels of a sheet, by column and line, and the line that is the first of the screen. -/
structure Sheet where
  pixel : ℕ × ℕ → List UInt8
  top : ℕ

namespace Sheet

/-- The pixels in the window. -/
def window (sheet : Sheet) (p : ℕ × ℕ) : List UInt8 := sheet.pixel (p.1, sheet.top + p.2)

/-- The sheet behind a framebuffer with some contents: what it shows, and blank lines. -/
def start (fb : Framebuffer) (m : Mem) : Sheet where
  pixel := fun q =>
    if q.2 < fb.height then m.read (fb.place q) (pixelSize fb.bpp)
    else List.replicate (pixelSize fb.bpp) 0
  top := 0

/-- **Drawing on the sheet**: a stroke in the window, or a move of the window. -/
def draw (fb : Framebuffer) (pen : Pen) (sheet : Sheet) (d : Draw) : Sheet where
  pixel := fun q =>
    if sheet.top ≤ q.2 then (fb.stroke pen (q.1, q.2 - sheet.top) d).getD (sheet.pixel q)
    else sheet.pixel q
  top := match d with
    | .scroll n => sheet.top + n
    | _ => sheet.top

end Sheet

/-! ### The framebuffer -/

/-- The variables of `video.c` that what is shown depends on, and memory. -/
structure Video where
  mem : Mem
  cursor : Cursor
  colors : Colors
  displayBackground : Bool

/-- What is done with the screen, in a linear mode. -/
inductive VideoAct
  /-- `video_putc`, outside an escape sequence. -/
  | putc (c : UInt8)
  | setfg (color : BitVec 32)
  | setbg (color : BitVec 32)
  | enableBackground (enable : Bool)
  /-- `fb_video_clear` -/
  | clear
  | clearUp
  | clearDown
  | setCursor (x y : ℕ)

namespace Video

/-- What `displayChar` looks at, with a font. -/
def pen (chars : ℕ → UInt8) (s : Video) : Pen := ⟨chars, s.displayBackground, s.colors.videoBg⟩

/-- What is drawn. -/
def drawn (screen : Screen) (s : Video) : VideoAct → List Draw
  | .putc c => screen.draw s.colors c s.cursor
  | .clear => [.clearto s.colors.videoBg]
  | .clearUp => screen.clearUp s.colors s.cursor
  | .clearDown => screen.clearDown s.colors s.cursor
  | _ => []

/-- One step. -/
def step (fb : Framebuffer) (chars : ℕ → UInt8) (s : Video) (a : VideoAct) : Video where
  mem := (s.drawn fb.toScreen a).foldl (fun m d => fb.perform (s.pen chars) d m) s.mem
  cursor := match a with
    | .putc c => fb.put c s.cursor
    | .setCursor x y => ⟨x, y⟩
    | _ => s.cursor
  colors := match a with
    | .setfg color => s.colors.setFg fb.mode color
    | .setbg color => s.colors.setBg fb.mode color
    | _ => s.colors
  displayBackground := match a with
    | .enableBackground enable => enable
    | _ => s.displayBackground

/-- **The condition**: what is put is no `ESC`, and no backspace at the first cell; the cursor is
set to a cell of the screen. -/
def Ok (screen : Screen) (s : Video) : VideoAct → Prop
  | .putc c => control c ≠ some .escape ∧ Screen.NotBackspaceAtOrigin c s.cursor
  | .setCursor x y => screen.OnScreen ⟨x, y⟩
  | _ => True

theorem ok_putc {screen : Screen} {s : Video} {c : UInt8} (hesc : control c ≠ some .escape)
    (hback : control c ≠ some .backspace) : s.Ok screen (.putc c) :=
  ⟨hesc, fun h => hback h.1⟩

end Video

/-- A framebuffer, the memory it started with, and the sheet on which the same is drawn. -/
structure VideoRun where
  video : Video
  start : Mem
  sheet : Sheet

namespace VideoRun

/-- One step of the two. -/
def step (fb : Framebuffer) (chars : ℕ → UInt8) (r : VideoRun) (a : VideoAct) : VideoRun where
  video := r.video.step fb chars a
  start := r.start
  sheet := (r.video.drawn fb.toScreen a).foldl (Sheet.draw fb (r.video.pen chars)) r.sheet

/-- A framebuffer with the cursor at the first cell, and a sheet behind it. -/
def IsNew (fb : Framebuffer) (r : VideoRun) : Prop :=
  r.video.cursor = ⟨0, 0⟩ ∧ r.video.mem = r.start ∧ r.sheet = Sheet.start fb r.start

/-- The runs that meet the condition. -/
abbrev Run (fb : Framebuffer) (chars : ℕ → UInt8) : VideoRun → Prop :=
  Reach (fun r a r' => r.step fb chars a = r') (fun r => r.video.Ok fb.toScreen) (IsNew fb)

end VideoRun

/-! ### What is drawn on both -/

section Draw

variable {fb : Framebuffer} {pen : Pen} {sheet : Sheet} {m m₀ : Mem} {d : Draw} {ds : List Draw}

/-- **The framebuffer shows the sheet**: in the window, and the sheet is blank below it. -/
structure Framebuffer.ShowsSheet (fb : Framebuffer) (m₀ : Mem) (sheet : Sheet) (m : Mem) :
    Prop where
  shown : Pictures fb.place (pixelSize fb.bpp) fb.visible sheet.window m
  blank : ∀ q, sheet.top + fb.height ≤ q.2 → sheet.pixel q = List.replicate (pixelSize fb.bpp) 0
  kept : ∀ b ∉ fb.buffer, m b = m₀ b

theorem Framebuffer.showsSheet_start : fb.ShowsSheet m (Sheet.start fb m) m where
  shown := by
    rintro ⟨x, y⟩ ⟨hx, hy⟩
    rw [Sheet.window, Sheet.start]
    dsimp only
    rw [Nat.zero_add, if_pos hy]
  blank := by
    intro q hq
    rw [Sheet.start] at hq ⊢
    exact if_neg (by dsimp only at hq; omega)
  kept := fun _ _ => rfl

/-- A stroke on the screen does not reach below it. -/
theorem Framebuffer.stroke_below {p : ℕ × ℕ} (hd : d.Inside fb.toScreen) (hp : fb.height ≤ p.2) :
    fb.stroke pen p d = none := by
  obtain ⟨x, y⟩ := p
  dsimp only at hp
  cases d with
  | fillrect x' y' w h color =>
    have hy := hd.2
    exact if_neg fun hmem => by
      rw [mem_rect] at hmem
      omega
  | char ch x' y' c =>
    have hy := hd.2
    exact if_neg fun hmem => by
      rw [mem_rect] at hmem
      omega
  | clearto color =>
    exact if_neg fun hmem => by
      rw [mem_rect] at hmem
      omega
  | scroll n => rfl

/-- **A draw on both**: in memory a scroll moves the pixels, on the sheet the window. -/
theorem Framebuffer.ShowsSheet.draw (hfb : fb.Linear) (hv : fb.Valid) (haligned : fb.video % 8 = 0)
    (hd : d.Inside fb.toScreen) (h : fb.ShowsSheet m₀ sheet m) :
    fb.ShowsSheet m₀ (sheet.draw fb pen d) (fb.perform pen d m) := by
  by_cases hscroll : ∃ n, d = .scroll n
  · obtain ⟨n, rfl⟩ := hscroll
    have hn : n ≤ fb.height := hd
    have hpixel : (sheet.draw fb pen (.scroll n)).pixel = sheet.pixel := by
      funext q
      exact ite_self _
    refine ⟨?_, ?_, fun b hb => (scroll_kept hfb hv haligned hn hb).trans (h.kept b hb)⟩
    · refine (pictures_scroll hfb hv haligned hn h.shown).congr fun p hp => ?_
      rw [Sheet.window, hpixel]
      show sheet.pixel (p.1, sheet.top + n + p.2) = _
      split_ifs with hlt
      · rw [Sheet.window, Nat.add_comm p.2, ← Nat.add_assoc]
      · exact h.blank _ (by dsimp only; omega)
    · intro q hq
      rw [hpixel]
      refine h.blank q ?_
      have hq' : sheet.top + n + fb.height ≤ q.2 := hq
      omega
  · have hno : ∀ n, d ≠ .scroll n := fun n heq => hscroll ⟨n, heq⟩
    have hdraws : fb.DrawsOn (fun p => fb.stroke pen p d) (fb.perform pen d) :=
      drawsOn_perform hfb hv hd hno
    have htop : (sheet.draw fb pen d).top = sheet.top := by
      cases d with
      | scroll n => exact absurd rfl (hno n)
      | _ => rfl
    refine ⟨?_, ?_, fun b hb => (hdraws.kept m b hb).trans (h.kept b hb)⟩
    · refine (h.shown.draws hdraws).congr fun p _ => ?_
      rw [Sheet.window, htop]
      show ite _ _ _ = _
      rw [if_pos (Nat.le_add_right _ _), Nat.add_sub_cancel_left]
      rfl
    · intro q hq
      rw [htop] at hq
      show ite _ _ _ = _
      rw [stroke_below hd (by dsimp only; omega), Option.getD_none, ite_self]
      exact h.blank q hq

/-- Some draws, one after the other. -/
theorem Framebuffer.ShowsSheet.draws (hfb : fb.Linear) (hv : fb.Valid)
    (haligned : fb.video % 8 = 0) (hds : ∀ d ∈ ds, d.Inside fb.toScreen)
    (h : fb.ShowsSheet m₀ sheet m) : fb.ShowsSheet m₀ (ds.foldl (Sheet.draw fb pen) sheet)
      (ds.foldl (fun m d => fb.perform pen d m) m) := by
  induction ds generalizing sheet m with
  | nil => exact h
  | cons d ds ih =>
    obtain ⟨hd, hrest⟩ := List.forall_mem_cons.mp hds
    exact ih hrest (h.draw hfb hv haligned hd)

end Draw

/-! ### Runs -/

namespace VideoRun

variable {fb : Framebuffer} {chars : ℕ → UInt8} {r : VideoRun} {a : VideoAct}

/-- **The invariant**: the cursor is on the screen, which shows the sheet. -/
structure Inv (fb : Framebuffer) (r : VideoRun) : Prop where
  onScreen : fb.OnScreen r.video.cursor
  shows : fb.ShowsSheet r.start r.sheet r.video.mem

/-- What is drawn lies on the screen. -/
theorem inside_drawn (hv : fb.Valid) (hon : fb.OnScreen r.video.cursor)
    (hok : r.video.Ok fb.toScreen a) : ∀ d ∈ r.video.drawn fb.toScreen a, d.Inside fb.toScreen := by
  intro d hd
  cases a with
  | putc c => exact Screen.inside_draw hv hon hok.2 hd
  | clear =>
    rw [List.mem_singleton.mp hd]
    trivial
  | clearUp => exact Screen.inside_clearUp hon hd
  | clearDown => exact Screen.inside_clearDown hv hon hd
  | _ => exact absurd hd List.not_mem_nil

/-- **The step lemma.** -/
theorem Inv.step (hfb : fb.Linear) (hv : fb.Valid) (haligned : fb.video % 8 = 0) (h : r.Inv fb)
    (hok : r.video.Ok fb.toScreen a) : (r.step fb chars a).Inv fb where
  onScreen := by
    cases a with
    | putc c => exact Screen.onScreen_put hv h.onScreen hok.2
    | setCursor x y => exact hok
    | _ => exact h.onScreen
  shows := h.shows.draws hfb hv haligned (inside_drawn hv h.onScreen hok)

/-- **The run lemma.** -/
theorem inv_of_reach (hfb : fb.Linear) (hv : fb.Valid) (haligned : fb.video % 8 = 0)
    (h : Run fb chars r) : r.Inv fb := by
  refine h.invariant (P := Inv fb) ?_ ?_
  · rintro r ⟨hcursor, hmem, hsheet⟩
    refine ⟨?_, ?_⟩
    · rw [hcursor]
      exact ⟨hv.cols_pos, hv.rows_pos⟩
    · rw [hmem, hsheet]
      exact Framebuffer.showsSheet_start
  · rintro r a r' hinv hok rfl
    exact hinv.step hfb hv haligned hok

open Framebuffer (smallFramebuffer linear_smallFramebuffer countingMem)

theorem valid_smallFramebuffer : smallFramebuffer.toScreen.Valid :=
  ⟨by decide, by decide, by decide, by decide, by decide⟩

end VideoRun

end Xana
