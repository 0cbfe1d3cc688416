import Xana.Video.Colors

/-!
# The screen and its cursor

What `video.c` draws in a linear mode, in pixels, and where the cursor goes, in
characters. The two halves of the cursor are `uint32_t`; they are moved by each character
and put right once, at the end of `video_putc` (`Xana.Screen.put`). A cursor on the screen
stays there, and what is drawn lies on the screen (`Xana.Screen.onScreen_put`,
`Xana.Screen.inside_draw`), unless a backspace is put at the first cell.
-/

namespace Xana

/-- `FONT_WIDTH` -/
def fontWidth : ℕ := 9

/-- A framebuffer in a linear mode, and the height of the font. -/
structure Screen where
  width : ℕ
  height : ℕ
  fontHeight : ℕ
  mode : ColorMode

/-- `char_pos_x` and `char_pos_y`. -/
@[ext] structure Cursor where
  x : ℕ
  y : ℕ
  deriving DecidableEq

/-- What is drawn: a call of `fb_video_fillrect`, `displayChar`, `fb_video_clearto` or
`scroll`. -/
inductive Draw
  | fillrect (x y w h : ℕ) (color : BitVec 32)
  | char (ch : UInt8) (x y : ℕ) (color : BitVec 32)
  | clearto (color : BitVec 32)
  | scroll (n : ℕ)

/-- `'\b'`, `'\t'`, `'\n'`, `'\r'` and `'\033'`, as `video_putc` tells them apart. -/
inductive Control
  | backspace
  | tab
  | newline
  | carriageReturn
  | escape
  deriving DecidableEq

/-- The control character of a byte, if it is one. -/
def control (c : UInt8) : Option Control :=
  if c = 10 then some .newline
  else if c = 13 then some .carriageReturn
  else if c = 9 then some .tab
  else if c = 8 then some .backspace
  else if c = 27 then some .escape
  else none

namespace Screen

variable (screen : Screen)

/-- `framebuffer_width / FONT_WIDTH` -/
def cols : ℕ := screen.width / fontWidth

/-- `framebuffer_height / header->fontheight` -/
def rows : ℕ := screen.height / screen.fontHeight

/-- `char_pos_x * FONT_WIDTH`, as an `uint32_t`. -/
def pixelX (x : ℕ) : ℕ := x * fontWidth % 2 ^ 32

/-- `char_pos_y * header->fontheight`, as an `uint32_t`. -/
def pixelY (y : ℕ) : ℕ := y * screen.fontHeight % 2 ^ 32

/-- Where a character moves the cursor. -/
def move (c : UInt8) (p : Cursor) : Cursor :=
  match control c with
  | some .newline => ⟨0, (p.y + 1) % 2 ^ 32⟩
  | some .carriageReturn => ⟨0, p.y⟩
  | some .tab => ⟨(p.x + 4) % 2 ^ 32, p.y⟩
  | some .backspace =>
      if p.x = 0 then ⟨(screen.cols + 2 ^ 32 - 1) % 2 ^ 32, (p.y + 2 ^ 32 - 1) % 2 ^ 32⟩
      else ⟨p.x - 1, p.y⟩
  | some .escape => p
  | none => ⟨(p.x + 1) % 2 ^ 32, p.y⟩

/-- What is drawn for a character. -/
def drawChar (colors : Colors) (c : UInt8) (p : Cursor) : List Draw :=
  match control c with
  | some .backspace =>
      [.fillrect (pixelX (screen.move c p).x) (screen.pixelY (screen.move c p).y) fontWidth
        screen.fontHeight colors.videoBg]
  | some _ => []
  | none => [.char c (pixelX p.x) (screen.pixelY p.y) colors.videoFg]

/-- The wrap at the right edge. -/
def wrapX (p : Cursor) : Cursor := if screen.cols ≤ p.x then ⟨0, (p.y + 1) % 2 ^ 32⟩ else p

/-- The cursor after the scroll at the lower edge. -/
def wrapY (p : Cursor) : Cursor :=
  if screen.rows ≤ p.y then ⟨p.x, (p.y + 2 ^ 32 - 1) % 2 ^ 32⟩ else p

/-- The scroll at the lower edge. -/
def scrollAt (p : Cursor) : List Draw :=
  if screen.rows ≤ p.y then [.scroll screen.fontHeight] else []

/-- The cursor behind a character. -/
def put (c : UInt8) (p : Cursor) : Cursor := screen.wrapY (screen.wrapX (screen.move c p))

/-- What a character draws. -/
def draw (colors : Colors) (c : UInt8) (p : Cursor) : List Draw :=
  screen.drawChar colors c p ++ screen.scrollAt (screen.wrapX (screen.move c p))

/-- The cursor behind some characters. -/
def putAll : List UInt8 → Cursor → Cursor
  | [], p => p
  | c :: cs, p => putAll cs (screen.put c p)

/-- What they draw. -/
def drawAll (colors : Colors) : List UInt8 → Cursor → List Draw
  | [], _ => []
  | c :: cs, p => screen.draw colors c p ++ drawAll colors cs (screen.put c p)

/-- `fb_video_clear_up` -/
def clearUp (colors : Colors) (p : Cursor) : List Draw :=
  [.fillrect 0 (screen.pixelY p.y) ((p.x + 1) * fontWidth % 2 ^ 32) screen.fontHeight
    colors.videoBg, .fillrect 0 0 screen.width (screen.pixelY p.y) colors.videoBg]

/-- `fb_video_clear_down` -/
def clearDown (colors : Colors) (p : Cursor) : List Draw :=
  [.fillrect (pixelX p.x) (screen.pixelY p.y) ((screen.width + 2 ^ 32 - pixelX p.x) % 2 ^ 32)
      screen.fontHeight colors.videoBg,
    .fillrect 0 ((p.y + 1) * screen.fontHeight % 2 ^ 32) screen.width
      ((screen.height + 2 ^ 32 - (p.y + 1) * screen.fontHeight % 2 ^ 32) % 2 ^ 32) colors.videoBg]

end Screen

/-! ### On the screen -/

/-- What is drawn lies in the framebuffer. -/
def Draw.Inside (screen : Screen) : Draw → Prop
  | .fillrect x y w h _ => x + w ≤ screen.width ∧ y + h ≤ screen.height
  | .char _ x y _ => x + fontWidth ≤ screen.width ∧ y + screen.fontHeight ≤ screen.height
  | .clearto _ => True
  | .scroll n => n ≤ screen.height

/-- **The cursor is on a cell of the screen.** -/
def Screen.OnScreen (screen : Screen) (p : Cursor) : Prop := p.x < screen.cols ∧ p.y < screen.rows

/-- A framebuffer of at least one cell. Its sizes are `uint32_t`, and that of the font an
`uint8_t`. -/
structure Screen.Valid (screen : Screen) : Prop where
  fontWidth_le : fontWidth ≤ screen.width
  fontHeight_le : screen.fontHeight ≤ screen.height
  fontHeight_pos : 0 < screen.fontHeight
  width_lt : screen.width < 2 ^ 32
  height_lt : screen.height < 2 ^ 32

namespace Screen

variable {screen : Screen} {p : Cursor} {c : UInt8} {colors : Colors} {d : Draw}

theorem Valid.cols_pos (h : screen.Valid) : 0 < screen.cols :=
  Nat.div_pos h.fontWidth_le (by decide)

theorem Valid.rows_pos (h : screen.Valid) : 0 < screen.rows :=
  Nat.div_pos h.fontHeight_le h.fontHeight_pos

theorem Valid.cols_lt (h : screen.Valid) : screen.cols < 2 ^ 32 :=
  (Nat.div_le_self _ _).trans_lt h.width_lt

theorem Valid.rows_lt (h : screen.Valid) : screen.rows < 2 ^ 32 :=
  (Nat.div_le_self _ _).trans_lt h.height_lt

/-- The right edge of a column of cells. -/
theorem succ_mul_fontWidth_le {x : ℕ} (h : x < screen.cols) : (x + 1) * fontWidth ≤ screen.width :=
  (Nat.mul_le_mul_right _ h).trans (Nat.div_mul_le_self _ _)

/-- The lower edge of a row of cells. -/
theorem succ_mul_fontHeight_le {y : ℕ} (h : y < screen.rows) :
    (y + 1) * screen.fontHeight ≤ screen.height :=
  (Nat.mul_le_mul_right _ h).trans (Nat.div_mul_le_self _ _)

/-- A cell is in the framebuffer. -/
theorem inside_cell (h : screen.OnScreen p) :
    pixelX p.x + fontWidth ≤ screen.width ∧
      screen.pixelY p.y + screen.fontHeight ≤ screen.height := by
  have hx := succ_mul_fontWidth_le h.1
  have hy := succ_mul_fontHeight_le h.2
  rw [Nat.succ_mul] at hx hy
  have hpx : pixelX p.x ≤ p.x * fontWidth := Nat.mod_le _ _
  have hpy : screen.pixelY p.y ≤ p.y * screen.fontHeight := Nat.mod_le _ _
  omega

/-- A backspace is not put at the first cell. -/
def NotBackspaceAtOrigin (c : UInt8) (p : Cursor) : Prop :=
  ¬(control c = some .backspace ∧ p.x = 0 ∧ p.y = 0)

/-- Where a backspace goes. -/
theorem onScreen_move_backspace (hv : screen.Valid) (h : screen.OnScreen p)
    (hc : control c = some .backspace) (hb : NotBackspaceAtOrigin c p) :
    screen.OnScreen (screen.move c p) := by
  obtain ⟨hx, hy⟩ := h
  have hcols := hv.cols_lt
  have hrows := hv.rows_lt
  have hne : ¬(p.x = 0 ∧ p.y = 0) := fun h0 => hb ⟨hc, h0⟩
  simp only [move, hc]
  split_ifs with h0
  · constructor <;> simp only <;> omega
  · constructor <;> simp only <;> omega

/-- **The cursor stays on the screen.** -/
theorem onScreen_put (hv : screen.Valid) (h : screen.OnScreen p) (hb : NotBackspaceAtOrigin c p) :
    screen.OnScreen (screen.put c p) := by
  have hcols := hv.cols_pos
  have hcols' := hv.cols_lt
  have hrows := hv.rows_pos
  have hrows' := hv.rows_lt
  -- each character but a backspace goes at most past one edge, which a wrap puts right
  have hwrap : ∀ q : Cursor, q.y < screen.rows ∨ (q.y = screen.rows ∧ q.x = 0) →
      screen.OnScreen (screen.wrapY (screen.wrapX q)) := by
    intro q hq
    simp only [wrapX, wrapY, OnScreen]
    split_ifs
    all_goals
      try dsimp only at *
      omega
  obtain ⟨hx, hy⟩ := h
  rw [put]
  refine hwrap _ ?_
  rcases hc : control c with _ | k
  · simp only [move, hc]
    omega
  · cases k with
    | newline =>
      simp only [move, hc, and_true]
      omega
    | backspace => exact Or.inl (onScreen_move_backspace hv ⟨hx, hy⟩ hc hb).2
    | _ =>
      simp only [move, hc]
      omega

/-- **What a character draws lies on the screen.** -/
theorem inside_draw (hv : screen.Valid) (h : screen.OnScreen p) (hb : NotBackspaceAtOrigin c p)
    (hd : d ∈ screen.draw colors c p) : d.Inside screen := by
  rcases List.mem_append.mp hd with hd | hd
  · rcases hc : control c with _ | k
    · simp only [drawChar, hc, List.mem_singleton] at hd
      rw [hd]
      exact inside_cell h
    · cases k with
      | backspace =>
        simp only [drawChar, hc, List.mem_singleton] at hd
        rw [hd]
        exact inside_cell (onScreen_move_backspace hv h hc hb)
      | _ => simp [drawChar, hc] at hd
  · rw [scrollAt] at hd
    split_ifs at hd
    · rw [List.mem_singleton.mp hd]
      exact hv.fontHeight_le
    · simp at hd

/-- What is cleared above the cursor lies on the screen, -/
theorem inside_clearUp (h : screen.OnScreen p)
    (hd : d ∈ screen.clearUp colors p) : d.Inside screen := by
  have hx := succ_mul_fontWidth_le h.1
  obtain ⟨-, hcell⟩ := inside_cell h
  have hmod : (p.x + 1) * fontWidth % 2 ^ 32 ≤ (p.x + 1) * fontWidth := Nat.mod_le _ _
  rcases List.mem_cons.mp hd with rfl | hd
  · exact ⟨by omega, hcell⟩
  · rw [List.mem_singleton.mp hd]
    exact ⟨by omega, by omega⟩

/-- and what is cleared below it. -/
theorem inside_clearDown (hv : screen.Valid) (h : screen.OnScreen p)
    (hd : d ∈ screen.clearDown colors p) : d.Inside screen := by
  have hy := succ_mul_fontHeight_le h.2
  obtain ⟨hcell, hcell'⟩ := inside_cell h
  have hw := hv.width_lt
  have hh := hv.height_lt
  have hmod : (p.y + 1) * screen.fontHeight % 2 ^ 32 = (p.y + 1) * screen.fontHeight :=
    Nat.mod_eq_of_lt (by omega)
  rcases List.mem_cons.mp hd with rfl | hd
  · exact ⟨by omega, hcell'⟩
  · rw [List.mem_singleton.mp hd, hmod]
    exact ⟨by omega, by omega⟩

end Screen

end Xana
