import Xana.Tty.Editor
import Xana.Video.Page

/-!
# The line on the screen

With `ECHO` set the terminal shows each character that is typed, and takes a backspace back with
three characters: one to the left, a space over what is there, and one to the left again. So
what is on the screen, from the cell in which a line began, is the line as it has been edited so
far, over as many lines of the screen as it takes, and the cursor is behind it
(`Xana.EchoRun.echo_of_reach`).

The cells are counted through the lines of the page (`Xana.Page.cell`). A character is put at the
cursor's and moves it on by one; a backspace moves it back by one and wipes
(`Xana.PageRun.putc_plain`, `Xana.PageRun.putc_backspace`).
-/

namespace Xana

namespace Page

/-- The `n`-th cell of a page, by column and line. -/
def cell (cols n : ℕ) : ℕ × ℕ := (n % cols, n / cols)

/-- The number of a cell. -/
def index (cols : ℕ) (p : Cursor) : ℕ := p.y * cols + p.x

variable {cols n m : ℕ} {p : Cursor}

theorem cell_index (h : p.x < cols) : cell cols (index cols p) = (p.x, p.y) := by
  have hpos : 0 < cols := Nat.zero_lt_of_lt h
  rw [cell, index, Nat.add_comm, Nat.add_mul_mod_self_right, Nat.mod_eq_of_lt h,
    Nat.add_mul_div_right _ _ hpos, Nat.div_eq_of_lt h, Nat.zero_add]

/-- Different numbers, different cells. -/
theorem cell_inj (h : cell cols n = cell cols m) : n = m := by
  obtain ⟨hmod, hdiv⟩ := Prod.mk.inj h
  rw [← Nat.div_add_mod n cols, ← Nat.div_add_mod m cols, hmod, hdiv]

/-- A character moves on by a cell. -/
theorem index_wrap_succ (h : p.x < cols) :
    index cols (wrap cols ⟨p.x + 1, p.y⟩) = index cols p + 1 := by
  rw [wrap]
  dsimp only
  split_ifs with hle
  · have hlast : p.x + 1 = cols := by omega
    simp only [index, Nat.add_mul, ← hlast]
    omega
  · simp only [index]
    omega

/-- A backspace moves back by one. -/
theorem index_move_backspace (h : p.x < cols) (hpos : 0 < index cols p) :
    index cols (move cols backspace p) + 1 = index cols p := by
  have hback : control backspace = some .backspace := by decide
  simp only [move, hback]
  split_ifs with h0
  · -- to the end of the line before
    simp only [index, h0, Nat.add_zero] at hpos ⊢
    obtain ⟨y, hy⟩ : ∃ y, p.y = y + 1 := by
      refine Nat.exists_eq_succ_of_ne_zero fun hy => ?_
      rw [hy, Nat.zero_mul] at hpos
      exact lt_irrefl _ hpos
    rw [hy, Nat.add_sub_cancel, Nat.succ_mul]
    omega
  · simp only [index]
    omega

end Page

/-! ### Characters on the page -/

namespace PageRun

variable {fb : Framebuffer} {chars : ℕ → UInt8} {r : PageRun} {c : UInt8}

/-- The number of the cursor's cell. -/
def index (fb : Framebuffer) (r : PageRun) : ℕ := Page.index fb.cols r.page.cursor

theorem Inv.cursor_lt (h : r.Inv fb chars) : r.page.cursor.x < fb.cols := by
  rw [h.cursor]
  exact h.video.onScreen.1

theorem Inv.cursor_y (h : r.Inv fb chars) :
    r.page.top ≤ r.page.cursor.y ∧ r.page.cursor.y < r.page.top + fb.rows := by
  have hy := h.video.onScreen.2
  rw [h.cursor]
  exact ⟨Nat.le_add_right _ _, Nat.add_lt_add_left hy _⟩

theorem Inv.cell_index (h : r.Inv fb chars) :
    Page.cell fb.cols (r.index fb) = (r.page.cursor.x, r.page.cursor.y) :=
  Page.cell_index h.cursor_lt

/-- The screen stays where it is for a cursor that is on it. -/
theorem top_putc (hy : (Page.wrap fb.cols (Page.move fb.cols c r.page.cursor)).y <
    r.page.top + fb.rows) : (r.step fb chars (.putc c)).page.top = r.page.top := by
  show (Page.goTo _ _ _).top = _
  rw [Page.goTo, top_typed]
  exact if_neg (Nat.not_le.mpr hy)

/-- **A character on the page**: it is in the cursor's cell, and the cursor in the next one. -/
theorem putc_plain (hc : control c = none) (h : r.Inv fb chars) :
    (r.step fb chars (.putc c)).page.marks = Function.update r.page.marks
        (Page.cell fb.cols (r.index fb))
        (.letter c r.video.colors.videoFg r.video.displayBackground r.video.colors.videoBg ::
          r.page.marks (Page.cell fb.cols (r.index fb))) ∧
      (r.step fb chars (.putc c)).index fb = r.index fb + 1 := by
  have hput : (r.step fb chars (.putc c)).page = (r.page.typed r.video fb.cols c).goTo fb.rows
    (Page.wrap fb.cols (Page.move fb.cols c r.page.cursor)) := rfl
  constructor
  · rw [h.cell_index, hput]
    show (r.page.typed r.video fb.cols c).marks = _
    simp only [Page.typed, hc, Page.marks_mark]
  · rw [index, hput]
    show Page.index fb.cols (Page.wrap fb.cols (Page.move fb.cols c r.page.cursor)) = _
    rw [show Page.move fb.cols c r.page.cursor = ⟨r.page.cursor.x + 1, r.page.cursor.y⟩ by
      simp only [Page.move, hc]]
    exact Page.index_wrap_succ h.cursor_lt

/-- A backspace is not put at the first cell of the screen if there is a cell before the cursor. -/
theorem ok_backspace (h : r.Inv fb chars) (hpos : r.page.top * fb.cols < r.index fb) :
    r.Ok fb.toScreen (.putc backspace) := by
  refine ⟨by decide, ?_⟩
  rintro ⟨-, hx, hy⟩
  rw [index, Page.index, h.cursor, hx, hy] at hpos
  exact lt_irrefl _ hpos

/-- **A backspace on the page**: the cursor is in the cell before, which is wiped. -/
theorem putc_backspace (h : r.Inv fb chars) (hpos : 0 < r.index fb) :
    (r.step fb chars (.putc backspace)).page.marks = Function.update r.page.marks
        (Page.cell fb.cols (r.index fb - 1))
        (.wiped r.video.colors.videoBg :: r.page.marks (Page.cell fb.cols (r.index fb - 1))) ∧
      (r.step fb chars (.putc backspace)).index fb = r.index fb - 1 ∧
      (r.step fb chars (.putc backspace)).page.top = r.page.top := by
  obtain ⟨p, hp⟩ : ∃ p, Page.move fb.cols backspace r.page.cursor = p := ⟨_, rfl⟩
  have hback : control backspace = some .backspace := by decide
  have hcols : 0 < fb.cols := Nat.zero_lt_of_lt h.cursor_lt
  have hindex := Page.index_move_backspace h.cursor_lt hpos
  rw [hp] at hindex
  have hpx : p.x < fb.cols ∧ p.y ≤ r.page.cursor.y := by
    rw [← hp, Page.move, hback]
    have hx := h.cursor_lt
    dsimp only
    split_ifs <;> constructor <;> dsimp only <;> omega
  have hwrap : Page.wrap fb.cols p = p := if_neg (Nat.not_le.mpr hpx.1)
  have hbefore : r.index fb - 1 = Page.index fb.cols p := by
    rw [index]
    omega
  have hput : (r.step fb chars (.putc backspace)).page =
      (r.page.typed r.video fb.cols backspace).goTo fb.rows p := by
    show (r.page.typed r.video fb.cols backspace).goTo fb.rows (Page.wrap fb.cols
      (Page.move fb.cols backspace r.page.cursor)) = _
    rw [hp, hwrap]
  refine ⟨?_, ?_, ?_⟩
  · rw [hbefore, Page.cell_index hpx.1, hput]
    show (r.page.typed r.video fb.cols backspace).marks = _
    simp only [Page.typed, hback, hp, Page.marks_mark]
  · rw [hbefore, index, hput]
    rfl
  · refine top_putc ?_
    rw [hp, hwrap]
    exact hpx.2.trans_lt h.cursor_y.2

/-- **A character is taken back** by a backspace, a space and a backspace: the cell before the
cursor is wiped and the cursor is there, and nothing else has changed. -/
theorem takeBack (hfb : fb.Linear) (hv : fb.Valid) (haligned : fb.video % 8 = 0)
    (h : r.Inv fb chars) (hpos : r.page.top * fb.cols < r.index fb) {r' : PageRun}
    (hr : [backspace, 32, backspace].foldl (fun r c => r.step fb chars (.putc c)) r = r') :
    r'.Inv fb chars ∧ r'.index fb = r.index fb - 1 ∧
      (∀ n, n ≠ r.index fb - 1 →
        r'.page.marks (Page.cell fb.cols n) = r.page.marks (Page.cell fb.cols n)) ∧
      r'.video.colors = r.video.colors ∧
      r'.video.displayBackground = r.video.displayBackground := by
  -- the page after one and two of them
  obtain ⟨r₁, hr₁⟩ : ∃ r₁, r.step fb chars (.putc backspace) = r₁ := ⟨_, rfl⟩
  obtain ⟨r₂, hr₂⟩ : ∃ r₂, r₁.step fb chars (.putc 32) = r₂ := ⟨_, rfl⟩
  have hr₃ : r₂.step fb chars (.putc backspace) = r' := by
    rw [← hr, ← hr₂, ← hr₁]
    rfl
  have hspace : control 32 = none := by decide
  have hinv₁ : r₁.Inv fb chars := hr₁ ▸ h.step hfb hv haligned (ok_backspace h hpos)
  obtain ⟨hmarks₁, hindex₁, htop₁⟩ := putc_backspace h (Nat.zero_lt_of_lt hpos)
  rw [hr₁] at hmarks₁ hindex₁ htop₁
  have hinv₂ : r₂.Inv fb chars := hr₂ ▸ hinv₁.step hfb hv haligned (ok_putc hspace)
  obtain ⟨hmarks₂, hindex₂⟩ := putc_plain hspace hinv₁
  rw [hr₂] at hmarks₂ hindex₂
  have hsame : r₂.index fb = r.index fb := by omega
  -- the space brings the cursor back to where it was, which is on the screen
  have hcursor : r₂.page.cursor.y = r.page.cursor.y := by
    have hcell := hinv₂.cell_index
    rw [hsame, h.cell_index] at hcell
    exact (Prod.mk.inj hcell).2.symm
  have htop₂ : r₂.page.top = r₁.page.top := by
    have hline :
        (Page.wrap fb.cols (Page.move fb.cols 32 r₁.page.cursor)).y = r₂.page.cursor.y := by
      rw [← hr₂]
      rfl
    rw [← hr₂]
    refine top_putc ?_
    rw [hline, hcursor, htop₁]
    exact h.cursor_y.2
  have hpos₂ : r₂.page.top * fb.cols < r₂.index fb := by
    rw [htop₂, htop₁, hsame]
    exact hpos
  have hinv₃ : r'.Inv fb chars := hr₃ ▸ hinv₂.step hfb hv haligned (ok_backspace hinv₂ hpos₂)
  obtain ⟨hmarks₃, hindex₃, -⟩ := putc_backspace hinv₂ (Nat.zero_lt_of_lt hpos₂)
  rw [hr₃] at hmarks₃ hindex₃
  refine ⟨hinv₃, by rw [hindex₃, hsame], fun n hn => ?_, ?_, ?_⟩
  · have hne : ∀ m, m = r.index fb - 1 → Page.cell fb.cols n ≠ Page.cell fb.cols m :=
      fun m hm heq => hn ((Page.cell_inj heq).trans hm)
    rw [hmarks₃, Function.update_of_ne (hne _ (by rw [hsame])), hmarks₂,
      Function.update_of_ne (hne _ hindex₁), hmarks₁, Function.update_of_ne (hne _ rfl)]
  · rw [← hr₃, ← hr₂, ← hr₁]
    rfl
  · rw [← hr₃, ← hr₂, ← hr₁]
    rfl

end PageRun

/-! ### Runs -/

/-- A terminal, the screen it echoes to, and the number of the cell in which the line began. -/
structure EchoRun where
  tty : Tty
  screen : PageRun
  start : ℕ

namespace EchoRun

/-- A character that is pushed; a block that is allocated held `mem`. -/
structure Act where
  mem : ℕ → UInt8
  c : UInt8

/-- One step: `tty_push`, with what it gives to `video_putc`. -/
def step (fb : Framebuffer) (chars : ℕ → UInt8) (s : EchoRun) (a : Act) : EchoRun where
  tty := (ttyPush a.mem a.c s.tty).2
  screen := (ttyPush a.mem a.c s.tty).1.foldl (fun r c => r.step fb chars (.putc c)) s.screen
  start := s.start

/-- **The condition**: no control character but a backspace, fewer than 32768 bytes pending, and
the beginning of the line is on the screen. -/
def Ok (fb : Framebuffer) (s : EchoRun) (a : Act) : Prop :=
  (control a.c = none ∨ a.c = backspace) ∧ s.tty.bufferPos < 32768 ∧
    s.screen.page.top * fb.cols ≤ s.start

/-- A line begins: nothing is pending on a terminal with `ECHO` set, and the screen draws
backgrounds. -/
structure IsNew (fb : Framebuffer) (chars : ℕ → UInt8) (s : EchoRun) : Prop where
  tty : Reach TtyRun.Steps TtyRun.Ok TtyRun.IsNew ⟨s.tty, []⟩
  echo : s.tty.lflag.getLsbD echo = true
  screen : PageRun.Run fb chars s.screen
  displayBackground : s.screen.video.displayBackground = true
  start : s.start = s.screen.index fb

/-- The runs that meet the condition. -/
abbrev Run (fb : Framebuffer) (chars : ℕ → UInt8) : EchoRun → Prop :=
  Reach (fun s a s' => s.step fb chars a = s') (Ok fb) (IsNew fb chars)

/-- The character of the `n`-th cell of the line is in it, over all else. -/
def Typed (fb : Framebuffer) (s : EchoRun) (n : ℕ) (c : UInt8) : Prop :=
  ∃ rest, s.screen.page.marks (Page.cell fb.cols (s.start + n)) =
    .letter c s.screen.video.colors.videoFg true s.screen.video.colors.videoBg :: rest

/-- **The invariant**: the pending line is in the cells from where it began, and the cursor is
behind it. -/
structure Inv (fb : Framebuffer) (chars : ℕ → UInt8) (s : EchoRun) : Prop where
  tty : (TtyRun.mk s.tty s.tty.contents).Inv
  echo : s.tty.lflag.getLsbD echo = true
  screen : s.screen.Inv fb chars
  displayBackground : s.screen.video.displayBackground = true
  cursor : s.screen.index fb = s.start + s.tty.contents.length
  typed : ∀ n c, s.tty.contents[n]? = some c → s.Typed fb n c

variable {fb : Framebuffer} {chars : ℕ → UInt8} {s : EchoRun} {a : Act} {c : UInt8}

/-- A character that is pushed for itself. -/
theorem mapped_eq (hc : control c = none ∨ c = backspace) : s.tty.mapped c = c := by
  refine if_neg fun h => ?_
  rcases hc with hc | hc
  · rw [h.2] at hc
    exact absurd hc (by decide)
  · rw [h.2] at hc
    exact absurd hc (by decide)

section Step

variable {mem : ℕ → UInt8}

/-- **A character that is echoed.** -/
theorem Inv.plain (hfb : fb.Linear) (hv : fb.Valid) (haligned : fb.video % 8 = 0)
    (h : s.Inv fb chars) (hc : control c = none) (hlt : s.tty.bufferPos < 32768) :
    (s.step fb chars ⟨mem, c⟩).Inv fb chars := by
  have hne : c ≠ backspace := by
    rintro rfl
    exact absurd hc (by decide)
  have hmapped := mapped_eq (s := s) (Or.inl hc)
  have hcanon : s.tty.lflag.getLsbD icanon = true := h.tty.canonical
  have hfits : s.tty.Fits := h.tty.fits
  obtain ⟨hfits', hpush⟩ := ttyPush_contents mem (c := c) hcanon hfits fun _ => hlt
  rw [hmapped, if_neg hne] at hpush
  have hecho : (ttyPush mem c s.tty).1 = [c] := by
    show s.tty.echoed (s.tty.mapped c) = [c]
    rw [hmapped, Tty.echoed, if_pos h.echo, if_neg hne]
  have hscreen : (s.step fb chars ⟨mem, c⟩).screen = s.screen.step fb chars (.putc c) := by
    show (ttyPush mem c s.tty).1.foldl _ s.screen = _
    rw [hecho]
    rfl
  obtain ⟨hmarks, hindex⟩ := PageRun.putc_plain hc h.screen
  have hlen : (ttyPush mem c s.tty).2.contents.length = s.tty.contents.length + 1 := by
    rw [hpush, List.length_append, List.length_singleton]
  refine ⟨⟨?_, hfits', rfl⟩, ?_, ?_, ?_, ?_, ?_⟩
  · exact ttyPush_lflag.symm ▸ hcanon
  · exact ttyPush_lflag.symm ▸ h.echo
  · rw [hscreen]
    exact h.screen.step hfb hv haligned (PageRun.ok_putc hc)
  · rw [hscreen]
    exact h.displayBackground
  · rw [hscreen, hindex, h.cursor]
    show _ = s.start + (ttyPush mem c s.tty).2.contents.length
    rw [hlen, Nat.add_assoc]
  · intro n c' hn
    change (ttyPush mem c s.tty).2.contents[n]? = some c' at hn
    rw [Typed, hscreen, hmarks, h.cursor, h.displayBackground]
    rw [hpush] at hn
    show ∃ rest, Function.update _ _ _ (Page.cell fb.cols (s.start + n)) = _
    rcases Nat.lt_or_ge n s.tty.contents.length with hold | hnew
    · rw [List.getElem?_append_left hold] at hn
      rw [Function.update_of_ne fun heq => by have := Page.cell_inj heq; omega]
      exact h.typed n c' hn
    · obtain rfl : n = s.tty.contents.length := by
        have hlast := (List.getElem?_eq_some_iff.mp hn).1
        rw [List.length_append, List.length_singleton] at hlast
        omega
      rw [List.getElem?_append_right le_rfl, Nat.sub_self] at hn
      obtain rfl : c = c' := Option.some.inj hn
      rw [Function.update_self]
      exact ⟨_, rfl⟩

/-- **A backspace that is echoed**, with something to take back: three characters, which leave the
last cell of the line wiped and the cursor there. -/
theorem Inv.takeBack (hfb : fb.Linear) (hv : fb.Valid) (haligned : fb.video % 8 = 0)
    (h : s.Inv fb chars) (hpos : 0 < s.tty.bufferPos)
    (hstart : s.screen.page.top * fb.cols ≤ s.start) :
    (s.step fb chars ⟨mem, backspace⟩).Inv fb chars := by
  have hcanon : s.tty.lflag.getLsbD icanon = true := h.tty.canonical
  have hfits : s.tty.Fits := h.tty.fits
  have hmapped := mapped_eq (s := s) (c := backspace) (Or.inr rfl)
  obtain ⟨hfits', hpush⟩ := ttyPush_contents mem (c := backspace) hcanon hfits
    fun hne => absurd hmapped hne
  rw [if_pos hmapped] at hpush
  have hecho : (ttyPush mem backspace s.tty).1 = [backspace, 32, backspace] := by
    show s.tty.echoed (s.tty.mapped backspace) = _
    rw [hmapped, Tty.echoed, if_pos h.echo, if_pos rfl, if_pos hpos]
  have hlen : s.tty.contents.length = s.tty.bufferPos := Tty.length_contents
  have hindex := h.cursor
  have hscreen : (s.step fb chars ⟨mem, backspace⟩).screen =
      [backspace, 32, backspace].foldl (fun r c => r.step fb chars (.putc c)) s.screen := by
    show (ttyPush mem backspace s.tty).1.foldl _ s.screen = _
    rw [hecho]
  obtain ⟨hinv, hindex', hmarks, hcolors, hbackground⟩ := PageRun.takeBack hfb hv haligned h.screen
    (by omega) hscreen.symm
  refine ⟨⟨?_, hfits', rfl⟩, ?_, hinv, ?_, ?_, ?_⟩
  · exact ttyPush_lflag.symm ▸ hcanon
  · exact ttyPush_lflag.symm ▸ h.echo
  · rw [hbackground]
    exact h.displayBackground
  · rw [hindex', hindex]
    show _ = s.start + (ttyPush mem backspace s.tty).2.contents.length
    rw [hpush, List.length_dropLast]
    omega
  · intro n c hn
    change (ttyPush mem backspace s.tty).2.contents[n]? = some c at hn
    rw [hpush] at hn
    have hlt := (List.getElem?_eq_some_iff.mp hn).1
    rw [List.length_dropLast] at hlt
    rw [List.getElem?_dropLast, if_pos hlt] at hn
    rw [Typed, hcolors]
    show ∃ rest, (s.step fb chars ⟨mem, backspace⟩).screen.page.marks
      (Page.cell fb.cols (s.start + n)) = _
    rw [hmarks _ (by omega)]
    exact h.typed n c hn

end Step

/-- A backspace with nothing to take back is not echoed. -/
theorem Inv.nothing (h : s.Inv fb chars) {mem : ℕ → UInt8} (hpos : s.tty.bufferPos = 0) :
    (s.step fb chars ⟨mem, backspace⟩).Inv fb chars := by
  have hmapped := mapped_eq (s := s) (c := backspace) (Or.inr rfl)
  have hcanon : s.tty.lflag.getLsbD icanon = true := h.tty.canonical
  have hpush : ttyPush mem backspace s.tty = ([], s.tty) := by
    have hno : ¬0 < s.tty.bufferPos := by omega
    simp only [ttyPush, hmapped, Tty.echoed, hcanon, if_neg hno, true_and, if_true, ite_self]
  have hsame : s.step fb chars ⟨mem, backspace⟩ = s := by
    rw [step, hpush]
    rfl
  rw [hsame]
  exact h

/-- **The step lemma.** -/
theorem Inv.step (hfb : fb.Linear) (hv : fb.Valid) (haligned : fb.video % 8 = 0)
    (h : s.Inv fb chars) (hok : s.Ok fb a) : (s.step fb chars a).Inv fb chars := by
  obtain ⟨mem, c⟩ := a
  obtain ⟨hc, hlt, hstart⟩ := hok
  dsimp only at hc
  rcases hc with hc | rfl
  · exact h.plain hfb hv haligned hc hlt
  · rcases Nat.eq_zero_or_pos s.tty.bufferPos with hnone | hsome
    · exact h.nothing hnone
    · exact h.takeBack hfb hv haligned hsome hstart

/-- **The run lemma.** -/
theorem inv_of_reach (hfb : fb.Linear) (hv : fb.Valid) (haligned : fb.video % 8 = 0)
    (h : Run fb chars s) : s.Inv fb chars := by
  refine h.invariant (P := Inv fb chars) ?_ ?_
  · intro s hnew
    have htty := TtyRun.inv_of_reach hnew.tty
    have hnone : s.tty.contents = [] := htty.contents_eq
    refine ⟨?_, hnew.echo, PageRun.inv_of_reach hfb hv haligned hnew.screen,
      hnew.displayBackground, ?_, ?_⟩
    · rw [hnone]
      exact htty
    · rw [hnone, hnew.start]
      rfl
    · intro n c hn
      rw [hnone] at hn
      exact absurd hn (by simp)
  · rintro s a s' hinv hok rfl
    exact hinv.step hfb hv haligned hok

open Framebuffer (smallFramebuffer linear_smallFramebuffer countingMem)

end EchoRun

end Xana
