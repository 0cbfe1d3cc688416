import Xana.Video.Sheet

/-!
# The framebuffer shows a page of text

A page has as many columns as the screen, and no last line. A character that is typed goes to
its cell, over what is there; a backspace wipes a cell; what is behind the last column goes on
in the next line. The page is not moved: the screen shows a number of its lines, and follows
the cursor down.

This is the text that the framebuffer shows (`Xana.PageRun.page_of_reach`): each pixel of a cell
is that of the last thing that was typed there which puts it. A character that is typed with its
background puts all of its pixels (`Xana.Page.look_letter`).
-/

namespace Xana

open Mem

/-! ### The page -/

/-- What has been done with a cell. -/
inductive Mark
  /-- A character, with the colour of the text, `displayBackground` and the background. -/
  | letter (ch : UInt8) (fg : BitVec 32) (displayBackground : Bool) (bg : BitVec 32)
  /-- A backspace. -/
  | wiped (bg : BitVec 32)

/-- The bytes of a pixel of a cell, if it is put. -/
def Mark.pixel (fb : Framebuffer) (chars : ℕ → UInt8) (i j : ℕ) : Mark → Option (List UInt8)
  | .letter ch fg displayBackground bg =>
      let pen := ⟨chars, displayBackground, bg⟩
      (Pen.ink pen fg (fb.glyphRow pen ch j) i).map (pixelBytes fb.bpp)
  | .wiped bg => some (pixelBytes fb.bpp bg)

/-- What has been done with the cells, by column and line, the latest first; the cursor, by
column and line; and the first line of the screen. -/
structure Page where
  marks : ℕ × ℕ → List Mark
  cursor : Cursor
  top : ℕ

namespace Page

/-- An empty page. -/
def blank : Page := ⟨fun _ => [], ⟨0, 0⟩, 0⟩

/-- Where a character moves the cursor, on a page with so many columns. -/
def move (cols : ℕ) (c : UInt8) (p : Cursor) : Cursor :=
  match control c with
  | some .newline => ⟨0, p.y + 1⟩
  | some .carriageReturn => ⟨0, p.y⟩
  | some .tab => ⟨p.x + 4, p.y⟩
  | some .backspace => if p.x = 0 then ⟨cols - 1, p.y - 1⟩ else ⟨p.x - 1, p.y⟩
  | some .escape => p
  | none => ⟨p.x + 1, p.y⟩

/-- The end of a line. -/
def wrap (cols : ℕ) (p : Cursor) : Cursor := if cols ≤ p.x then ⟨0, p.y + 1⟩ else p

/-- Something is done with a cell. -/
def mark (page : Page) (cell : ℕ × ℕ) (mk : Mark) : Page :=
  { page with marks := Function.update page.marks cell (mk :: page.marks cell) }

@[simp] theorem marks_mark (page : Page) (cell : ℕ × ℕ) (mk : Mark) :
    (page.mark cell mk).marks = Function.update page.marks cell (mk :: page.marks cell) := rfl

@[simp] theorem top_mark (page : Page) (cell : ℕ × ℕ) (mk : Mark) :
    (page.mark cell mk).top = page.top := rfl

/-- The cursor goes to a cell, and the screen follows it. -/
def goTo (rows : ℕ) (p : Cursor) (page : Page) : Page :=
  { page with
    cursor := p
    top := if page.top + rows ≤ p.y then page.top + 1 else page.top }

/-- What a character does with a cell. -/
def typed (s : Video) (cols : ℕ) (c : UInt8) (page : Page) : Page :=
  match control c with
  | some .backspace =>
      let p := move cols c page.cursor
      page.mark (p.x, p.y) (.wiped s.colors.videoBg)
  | some _ => page
  | none =>
      page.mark (page.cursor.x, page.cursor.y)
        (.letter c s.colors.videoFg s.displayBackground s.colors.videoBg)

/-- A character. -/
def put (s : Video) (screen : Screen) (c : UInt8) (page : Page) : Page :=
  (page.typed s screen.cols c).goTo screen.rows (wrap screen.cols (move screen.cols c page.cursor))

/-- **How a pixel of a cell looks**, over what was there before the page. -/
def look (fb : Framebuffer) (chars : ℕ → UInt8) (base : List UInt8) (marks : List Mark)
    (i j : ℕ) : List UInt8 := (marks.findSome? (Mark.pixel fb chars i j)).getD base

/-! ### How a cell looks -/

section Look

variable {fb : Framebuffer} {chars : ℕ → UInt8} {base : List UInt8} {marks : List Mark} {mk : Mark}
  {i j : ℕ}

theorem look_cons : look fb chars base (mk :: marks) i j =
    (mk.pixel fb chars i j).getD (look fb chars base marks i j) := by
  rw [look, List.findSome?_cons]
  cases mk.pixel fb chars i j <;> rfl

/-- **A character with its background** hides all that was in the cell: its pixels are those of
the font, in two colours. -/
theorem look_letter {ch : UInt8} {fg bg : BitVec 32} :
    look fb chars base (.letter ch fg true bg :: marks) i j =
      pixelBytes fb.bpp
        (if (fb.glyphRow ⟨chars, true, bg⟩ ch j).toBitVec.getMsbD i then fg else bg) := by
  simp only [look_cons, Mark.pixel, Pen.ink, if_true]
  split_ifs <;> rfl

end Look

end Page

/-! ### Cells in pixels -/

section Cells

variable {fb : Framebuffer} {chars : ℕ → UInt8} {pen : Pen} {sheet : Sheet} {x l i j a b top : ℕ}

/-- A place is in one part of so many only. -/
theorem mem_part_iff {w : ℕ} (hi : i < w) : a * w ≤ x * w + i ∧ x * w + i < a * w + w ↔ x = a := by
  constructor
  · rintro ⟨hle, hlt⟩
    rcases Nat.lt_trichotomy x a with h | h | h
    · have hmul : (x + 1) * w ≤ a * w := Nat.mul_le_mul_right _ h
      rw [Nat.succ_mul] at hmul
      omega
    · exact h
    · have hmul : (a + 1) * w ≤ x * w := Nat.mul_le_mul_right _ h
      rw [Nat.succ_mul] at hmul
      omega
  · rintro rfl
    omega

/-- A pixel of a cell is in the rectangle of that cell only. -/
theorem mem_rect_cell_iff (hi : i < fontWidth) (hj : j < fb.fontHeight) :
    (x * fontWidth + i, l * fb.fontHeight + j) ∈
        Framebuffer.rect (a * fontWidth) (b * fb.fontHeight) fontWidth fb.fontHeight ↔
      x = a ∧ l = b := by
  rw [Framebuffer.mem_rect, ← mem_part_iff (a := a) hi, ← mem_part_iff (a := b) hj, and_assoc]

/-- **A stroke in a cell of the screen**, on the sheet. -/
theorem Sheet.pixel_draw_cell {d : Draw} {stroke : Option (List UInt8)} (hj : j < fb.fontHeight)
    (htop : sheet.top = top * fb.fontHeight)
    (hd : ∀ l, fb.stroke pen (x * fontWidth + i, l * fb.fontHeight + j) d =
      if x = a ∧ l = b then stroke else none) :
    (sheet.draw fb pen d).pixel (x * fontWidth + i, l * fb.fontHeight + j) =
      if x = a ∧ l = top + b then
        stroke.getD (sheet.pixel (x * fontWidth + i, l * fb.fontHeight + j))
      else sheet.pixel (x * fontWidth + i, l * fb.fontHeight + j) := by
  show (if sheet.top ≤ l * fb.fontHeight + j then _ else _) = _
  rw [htop]
  rcases Nat.lt_or_ge l top with hlt | hge
  · -- a line above the screen
    have hmul : (l + 1) * fb.fontHeight ≤ top * fb.fontHeight := Nat.mul_le_mul_right _ hlt
    rw [Nat.succ_mul] at hmul
    rw [if_neg (by omega), if_neg (by omega)]
  · obtain ⟨k, rfl⟩ := Nat.exists_eq_add_of_le hge
    have hsub : (top + k) * fb.fontHeight + j - top * fb.fontHeight = k * fb.fontHeight + j := by
      rw [Nat.add_mul]
      omega
    rw [if_pos (by rw [Nat.add_mul]; omega), hsub, hd]
    by_cases hk : x = a ∧ k = b
    · rw [if_pos hk, if_pos (by omega)]
    · rw [if_neg hk, if_neg (by omega)]
      rfl

end Cells

/-! ### Runs -/

/-- A framebuffer with a sheet behind it, and a page. -/
structure PageRun extends VideoRun where
  page : Page

namespace PageRun

/-- One step of the two. Clearing is left out: it also reaches the pixels that are in no cell. -/
def step (fb : Framebuffer) (chars : ℕ → UInt8) (r : PageRun) (a : VideoAct) : PageRun where
  toVideoRun := r.toVideoRun.step fb chars a
  page := match a with
    | .putc c => r.page.put r.video fb.toScreen c
    | .setCursor x y => { r.page with cursor := ⟨x, r.page.top + y⟩ }
    | _ => r.page

/-- **The condition** of the framebuffer, and that nothing is cleared. -/
def Ok (screen : Screen) (r : PageRun) : VideoAct → Prop
  | .clear | .clearUp | .clearDown => False
  | a => r.video.Ok screen a

/-- A new framebuffer, and an empty page. -/
def IsNew (fb : Framebuffer) (r : PageRun) : Prop :=
  r.toVideoRun.IsNew fb ∧ r.page = Page.blank

/-- The runs that meet the condition. -/
abbrev Run (fb : Framebuffer) (chars : ℕ → UInt8) : PageRun → Prop :=
  Reach (fun r a r' => r.step fb chars a = r') (Ok fb.toScreen) (IsNew fb)

/-- How a pixel of a cell of the page looks. -/
def look (fb : Framebuffer) (chars : ℕ → UInt8) (r : PageRun) (x l i j : ℕ) : List UInt8 :=
  Page.look fb chars ((Sheet.start fb r.start).pixel (x * fontWidth + i, l * fb.fontHeight + j))
    (r.page.marks (x, l)) i j

/-- **The invariant**: the sheet is the page in pixels, and the cursor of the page is that of the
screen. -/
structure Inv (fb : Framebuffer) (chars : ℕ → UInt8) (r : PageRun) : Prop where
  video : r.toVideoRun.Inv fb
  cursor : r.page.cursor = ⟨r.video.cursor.x, r.page.top + r.video.cursor.y⟩
  top : r.sheet.top = r.page.top * fb.fontHeight
  pixel : ∀ x l i j, i < fontWidth → j < fb.fontHeight →
    r.sheet.pixel (x * fontWidth + i, l * fb.fontHeight + j) = r.look fb chars x l i j

variable {fb : Framebuffer} {chars : ℕ → UInt8} {r : PageRun} {a : VideoAct} {c : UInt8}

theorem ok_putc {screen : Screen} (hc : control c = none) : r.Ok screen (.putc c) :=
  show r.video.Ok screen (.putc c) from Video.ok_putc (by simp [hc]) (by simp [hc])

/-! ### The cursor -/

/-- A cell of the screen in pixels. -/
theorem pixelX_eq {p : Cursor} (hv : fb.Valid) (h : fb.OnScreen p) :
    Screen.pixelX p.x = p.x * fontWidth := by
  have hx := Screen.succ_mul_fontWidth_le h.1
  rw [Nat.succ_mul] at hx
  exact Nat.mod_eq_of_lt (by have := hv.width_lt; omega)

theorem pixelY_eq {p : Cursor} (hv : fb.Valid) (h : fb.OnScreen p) :
    fb.pixelY p.y = p.y * fb.fontHeight := by
  have hy := Screen.succ_mul_fontHeight_le h.2
  rw [Nat.succ_mul] at hy
  exact Nat.mod_eq_of_lt (by have := hv.height_lt; omega)

/-- Both cursors are moved alike. -/
theorem move_eq {top : ℕ} {p : Cursor} (hv : fb.Valid) (h : fb.OnScreen p)
    (hb : Screen.NotBackspaceAtOrigin c p) : Page.move fb.cols c ⟨p.x, top + p.y⟩ =
      ⟨(fb.move c p).x, top + (fb.move c p).y⟩ := by
  obtain ⟨hx, hy⟩ := h
  have hx' := Screen.succ_mul_fontWidth_le hx
  rw [fontWidth] at hx'
  have hwidth := hv.width_lt
  have hcols := hv.cols_lt
  have hrows := hv.rows_lt
  have hright : ∀ k ≤ 4, (p.x + k) % 2 ^ 32 = p.x + k := fun k hk => Nat.mod_eq_of_lt (by omega)
  have hdown : (p.y + 1) % 2 ^ 32 = p.y + 1 := Nat.mod_eq_of_lt (by omega)
  rw [Page.move, Screen.move]
  rcases hc : control c with _ | k
  · rw [hright 1 (by omega)]
  · cases k with
    | newline => rw [hdown, Nat.add_assoc]
    | tab => rw [hright 4 le_rfl]
    | backspace =>
      have hne : ¬(p.x = 0 ∧ p.y = 0) := fun h0 => hb ⟨hc, h0⟩
      dsimp only
      split_ifs with h0
      · simp only [Cursor.mk.injEq]
        omega
      · rfl
    | carriageReturn | escape => rfl

/-- Behind the last column the cursor is in its line still. -/
theorem move_y_of_cols_le {p : Cursor} (hv : fb.Valid) (h : fb.OnScreen p)
    (hb : Screen.NotBackspaceAtOrigin c p) (hle : fb.cols ≤ (fb.move c p).x) :
    (fb.move c p).y = p.y := by
  have hcols := hv.cols_pos
  rcases hc : control c with _ | k
  · simp only [Screen.move, hc]
  · cases k with
    | newline | carriageReturn =>
      simp only [Screen.move, hc] at hle
      omega
    | backspace =>
      have hon := Screen.onScreen_move_backspace hv h hc hb
      exact absurd hon.1 (Nat.not_lt.mpr hle)
    | tab | escape => simp only [Screen.move, hc]

/-- Both are wrapped alike. -/
theorem wrap_eq {top : ℕ} {q : Cursor} (hy : fb.cols ≤ q.x → q.y + 1 < 2 ^ 32) :
    Page.wrap fb.cols ⟨q.x, top + q.y⟩ = ⟨(fb.wrapX q).x, top + (fb.wrapX q).y⟩ := by
  rw [Page.wrap, Screen.wrapX]
  split_ifs with hle
  · rw [Nat.mod_eq_of_lt (hy hle), Nat.add_assoc]
  · rfl

/-- **The cursor behind a character**, before the screen follows it. -/
theorem wrap_move_eq {top : ℕ} {p : Cursor} (hv : fb.Valid) (h : fb.OnScreen p)
    (hb : Screen.NotBackspaceAtOrigin c p) :
    Page.wrap fb.cols (Page.move fb.cols c ⟨p.x, top + p.y⟩) =
      ⟨(fb.wrapX (fb.move c p)).x, top + (fb.wrapX (fb.move c p)).y⟩ := by
  rw [move_eq hv h hb]
  refine wrap_eq fun hle => ?_
  rw [move_y_of_cols_le hv h hb hle]
  have hy := h.2
  have hrows := hv.rows_lt
  omega

/-! ### The pixels -/

/-- **A stroke in a cell** is a mark on the page. -/
theorem Inv.mark (h : r.Inv fb chars) {d : Draw} {mk : Mark} {a b x l i j : ℕ} (hi : i < fontWidth)
    (hj : j < fb.fontHeight)
    (hd : ∀ l, fb.stroke (r.video.pen chars) (x * fontWidth + i, l * fb.fontHeight + j) d =
      if x = a ∧ l = b then mk.pixel fb chars i j else none) :
    (r.sheet.draw fb (r.video.pen chars) d).pixel (x * fontWidth + i, l * fb.fontHeight + j) =
      Page.look fb chars ((Sheet.start fb r.start).pixel (x * fontWidth + i, l * fb.fontHeight + j))
        ((r.page.mark (a, r.page.top + b) mk).marks (x, l)) i j := by
  rw [Sheet.pixel_draw_cell hj h.top hd, h.pixel x l i j hi hj, PageRun.look, Page.marks_mark]
  by_cases hcell : x = a ∧ l = r.page.top + b
  · obtain ⟨rfl, rfl⟩ := hcell
    rw [if_pos ⟨rfl, rfl⟩, Function.update_self, Page.look_cons]
  · rw [if_neg hcell, Function.update_of_ne fun heq => hcell (Prod.mk.inj heq)]

/-- **What a character does with its cell**, before the screen follows the cursor. -/
theorem Inv.typed (hv : fb.Valid) (h : r.Inv fb chars)
    (hb : Screen.NotBackspaceAtOrigin c r.video.cursor) {x l i j : ℕ} (hi : i < fontWidth)
    (hj : j < fb.fontHeight) :
    ((fb.drawChar r.video.colors c r.video.cursor).foldl (Sheet.draw fb (r.video.pen chars))
        r.sheet).pixel (x * fontWidth + i, l * fb.fontHeight + j) =
      Page.look fb chars ((Sheet.start fb r.start).pixel (x * fontWidth + i, l * fb.fontHeight + j))
        ((r.page.typed r.video fb.cols c).marks (x, l)) i j := by
  have hon := h.video.onScreen
  rcases hc : control c with _ | k
  · -- a character
    simp only [Screen.drawChar, Page.typed, hc, h.cursor]
    refine h.mark hi hj fun l' => ?_
    rw [Framebuffer.stroke, pixelX_eq hv hon, pixelY_eq hv hon]
    by_cases hcell : x = r.video.cursor.x ∧ l' = r.video.cursor.y
    · rw [if_pos ((mem_rect_cell_iff hi hj).mpr hcell), if_pos hcell]
      obtain ⟨rfl, rfl⟩ := hcell
      rw [Nat.add_sub_cancel_left, Nat.add_sub_cancel_left]
      rfl
    · rw [if_neg fun hmem => hcell ((mem_rect_cell_iff hi hj).mp hmem), if_neg hcell]
  · cases k with
    | backspace =>
      have hback := Screen.onScreen_move_backspace hv hon hc hb
      simp only [Screen.drawChar, Page.typed, hc, h.cursor, move_eq hv hon hb]
      refine h.mark hi hj fun l' => ?_
      rw [Framebuffer.stroke, pixelX_eq hv hback, pixelY_eq hv hback]
      exact if_congr (mem_rect_cell_iff hi hj) rfl rfl
    | _ =>
      simp only [Screen.drawChar, Page.typed, hc]
      exact h.pixel x l i j hi hj

/-- Nothing but a scroll moves the window. -/
theorem top_drawChar : ((fb.drawChar r.video.colors c r.video.cursor).foldl
    (Sheet.draw fb (r.video.pen chars)) r.sheet).top = r.sheet.top := by
  rcases hc : control c with _ | k
  · simp only [Screen.drawChar, hc]
    rfl
  · cases k
    all_goals
      simp only [Screen.drawChar, hc]
      rfl

@[simp] theorem top_typed {page : Page} {s : Video} {cols : ℕ} :
    (page.typed s cols c).top = page.top := by
  rcases hc : control c with _ | k
  · simp only [Page.typed, hc, Page.top_mark]
  · cases k <;> simp only [Page.typed, hc, Page.top_mark]

/-! ### The window -/

theorem wrapX_move_y_lt {p : Cursor} (hp : p.y < 2 ^ 32) : (fb.wrapX (fb.move c p)).y < 2 ^ 32 := by
  have hmove : (fb.move c p).y < 2 ^ 32 := by
    rcases hc : control c with _ | k
    · simpa only [Screen.move, hc] using hp
    · cases k with
      | newline =>
        simp only [Screen.move, hc]
        exact Nat.mod_lt _ (by decide)
      | backspace =>
        simp only [Screen.move, hc]
        split_ifs
        · exact Nat.mod_lt _ (by decide)
        · exact hp
      | _ => simpa only [Screen.move, hc] using hp
  rw [Screen.wrapX]
  split_ifs
  · exact Nat.mod_lt _ (by decide)
  · exact hmove

/-- **The screen follows the cursor** on both sides. -/
theorem scrollAt_eq {q : Cursor} (page : Page) (sheet : Sheet) (hrows : 0 < fb.rows)
    (hq : q.y < 2 ^ 32) (htop : sheet.top = page.top * fb.fontHeight) :
    (page.goTo fb.rows ⟨q.x, page.top + q.y⟩).cursor = ⟨(fb.wrapY q).x,
        (page.goTo fb.rows ⟨q.x, page.top + q.y⟩).top + (fb.wrapY q).y⟩ ∧
      ((fb.scrollAt q).foldl (Sheet.draw fb pen) sheet).top =
        (page.goTo fb.rows ⟨q.x, page.top + q.y⟩).top * fb.fontHeight ∧
      ((fb.scrollAt q).foldl (Sheet.draw fb pen) sheet).pixel = sheet.pixel := by
  rw [Screen.scrollAt, Screen.wrapY, Page.goTo]
  dsimp only
  by_cases hle : fb.rows ≤ q.y
  · have hup : (q.y + 2 ^ 32 - 1) % 2 ^ 32 = q.y - 1 := by omega
    rw [if_pos hle, if_pos hle, if_pos (Nat.add_le_add_left hle _), hup]
    refine ⟨?_, ?_, funext fun _ => ite_self _⟩
    · simp only [Cursor.mk.injEq, true_and]
      omega
    · rw [Nat.succ_mul, ← htop]
      rfl
  · rw [if_neg hle, if_neg hle, if_neg (by omega)]
    exact ⟨rfl, htop, rfl⟩

/-! ### The invariant -/

/-- **The step lemma.** -/
theorem Inv.step (hfb : fb.Linear) (hv : fb.Valid) (haligned : fb.video % 8 = 0)
    (h : r.Inv fb chars) (hok : r.Ok fb.toScreen a) : (r.step fb chars a).Inv fb chars := by
  have hok' : r.video.Ok fb.toScreen a := by
    cases a with
    | clear | clearUp | clearDown => exact absurd hok id
    | _ => exact hok
  have hvideo : (r.toVideoRun.step fb chars a).Inv fb := h.video.step hfb hv haligned hok'
  cases a with
  | clear | clearUp | clearDown => exact absurd hok id
  | putc c =>
    have hon := h.video.onScreen
    have hrows := hv.rows_lt
    have hq : (fb.wrapX (fb.move c r.video.cursor)).y < 2 ^ 32 :=
      wrapX_move_y_lt (by have := hon.2; omega)
    obtain ⟨hcursor, htop, hpixel⟩ := scrollAt_eq (r.page.typed r.video fb.cols c)
      ((fb.drawChar r.video.colors c r.video.cursor).foldl
        (Sheet.draw fb (r.video.pen chars)) r.sheet)
      hv.rows_pos hq (by rw [top_drawChar, top_typed, h.top])
    have hput : (r.step fb chars (.putc c)).page = (r.page.typed r.video fb.cols c).goTo fb.rows
        ⟨(fb.wrapX (fb.move c r.video.cursor)).x,
          (r.page.typed r.video fb.cols c).top + (fb.wrapX (fb.move c r.video.cursor)).y⟩ := by
      rw [top_typed, ← wrap_move_eq hv hon hok'.2, ← h.cursor]
      rfl
    have hsheet : (r.step fb chars (.putc c)).sheet =
        (fb.scrollAt (fb.wrapX (fb.move c r.video.cursor))).foldl
          (Sheet.draw fb (r.video.pen chars)) ((fb.drawChar r.video.colors c r.video.cursor).foldl
            (Sheet.draw fb (r.video.pen chars)) r.sheet) := List.foldl_append
    refine ⟨hvideo, ?_, ?_, ?_⟩
    · rw [hput, hcursor]
      rfl
    · rw [hput, hsheet, htop]
    · intro x l i j hi hj
      rw [hsheet, hpixel, h.typed hv hok'.2 hi hj, PageRun.look, hput]
      rfl
  | setCursor x y => exact ⟨hvideo, rfl, h.top, h.pixel⟩
  | _ => exact ⟨hvideo, h.cursor, h.top, h.pixel⟩

/-- **The run lemma.** -/
theorem inv_of_reach (hfb : fb.Linear) (hv : fb.Valid) (haligned : fb.video % 8 = 0)
    (h : Run fb chars r) : r.Inv fb chars := by
  refine h.invariant (P := Inv fb chars) ?_ ?_
  · rintro r ⟨⟨hcursor, hmem, hsheet⟩, hpage⟩
    have hrun : VideoRun.Run fb chars r.toVideoRun := .init ⟨hcursor, hmem, hsheet⟩
    have hvideo := VideoRun.inv_of_reach hfb hv haligned hrun
    refine ⟨hvideo, ?_, ?_, ?_⟩
    · rw [hpage, hcursor]
      rfl
    · rw [hpage, hsheet]
      exact (Nat.zero_mul _).symm
    · intro x l i j _ _
      rw [PageRun.look, hpage, hsheet]
      rfl
  · rintro r a r' hinv hok rfl
    exact hinv.step hfb hv haligned hok

/-- A pixel of a cell of the screen, in memory. -/
theorem Inv.read_cell (h : r.Inv fb chars) {x y i j : ℕ} (hx : x < fb.cols) (hy : y < fb.rows)
    (hi : i < fontWidth) (hj : j < fb.fontHeight) :
    r.video.mem.read (fb.place (x * fontWidth + i, y * fb.fontHeight + j)) (pixelSize fb.bpp) =
      r.look fb chars x (r.page.top + y) i j := by
  have hx' := Screen.succ_mul_fontWidth_le hx
  have hy' := Screen.succ_mul_fontHeight_le hy
  rw [Nat.succ_mul] at hx' hy'
  have hp : (x * fontWidth + i, y * fb.fontHeight + j) ∈ fb.visible := by
    constructor
    · show x * fontWidth + i < fb.width
      omega
    · show y * fb.fontHeight + j < fb.height
      omega
  rw [h.video.shows.shown _ hp, ← h.pixel x _ i j hi hj, Sheet.window, h.top, Nat.add_mul,
    Nat.add_assoc]

open Framebuffer (smallFramebuffer linear_smallFramebuffer countingMem)

end PageRun

end Xana
