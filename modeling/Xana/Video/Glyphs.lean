import Xana.Video.Scroll

/-!
# Characters in pixels

`displayChar` puts a character pixel by pixel. Each row of it is a byte of the font, with a
bit for each of the first eight columns; the ninth column is empty. A bit that is set is put
in the colour of the text. The other pixels are put in that of the background if
`displayBackground` is set, and else they are left as they are, so that a character goes over
what was there. What this amounts to is a stroke (`Xana.Framebuffer.drawsOn_displayChar`).

With it each thing that is drawn has a meaning in memory (`Xana.Framebuffer.perform`): a
stroke on the pixels of the screen, or a scroll
(`Xana.Framebuffer.drawsOn_perform`, `Xana.Framebuffer.pictures_scroll`).
-/

namespace Xana

open Mem

/-- What `displayChar` looks at: the bytes behind the header of the font, `displayBackground`
and `video_bg`. -/
structure Pen where
  chars : ℕ → UInt8
  displayBackground : Bool
  videoBg : BitVec 32

namespace Framebuffer

/-! ### The function -/

section Function

variable (fb : Framebuffer) (pen : Pen) (c : BitVec 32)

/-- The inner loop of `displayChar`, with `n` columns to go. -/
def displayColumns : ℕ → ℕ → ℕ → UInt8 → Mem → Mem
  | 0, _, _, _, m => m
  | n + 1, x1, y, row, m =>
      if n = 0 then if pen.displayBackground then fb.fbPutpixel x1 y pen.videoBg m else m
      else
        let m :=
          if row &&& 0x80 ≠ 0 then fb.fbPutpixel x1 y c m
          else if pen.displayBackground then fb.fbPutpixel x1 y pen.videoBg m
          else m
        displayColumns n ((x1 + 1) % 2 ^ 32) y (row <<< 1) m

/-- The outer loop, from the `j`-th row of the character, with `n` rows to go. -/
def displayRows (ch x : ℕ) : ℕ → ℕ → ℕ → Mem → Mem
  | 0, _, _, m => m
  | n + 1, j, y, m =>
      displayRows ch x n (j + 1) ((y + 1) % 2 ^ 32)
        (fb.displayColumns pen c fontWidth x y (pen.chars (ch * fb.fontHeight + j)) m)

/-- `displayChar`. A `char` is signed, and negative ones count as 0. -/
def displayChar (ch : UInt8) (x y : ℕ) (m : Mem) : Mem :=
  let ch := if 128 ≤ ch then 0 else ch.toNat
  fb.displayRows pen c ch x fb.fontHeight 0 y m

end Function

/-- What is drawn, on the framebuffer. -/
def perform (fb : Framebuffer) (pen : Pen) : Draw → Mem → Mem
  | .fillrect x y w h color => fb.fbVideoFillrect x y w h color
  | .char ch x y color => fb.displayChar pen color ch x y
  | .clearto color => fb.fbVideoClearto color
  | .scroll n => fb.scroll n

end Framebuffer

/-- The colour of the `i`-th pixel of a row, if it is put. -/
def Pen.ink (pen : Pen) (c : BitVec 32) (row : UInt8) (i : ℕ) : Option (BitVec 32) :=
  if row.toBitVec.getMsbD i then some c
  else if pen.displayBackground then some pen.videoBg
  else none

namespace Framebuffer

instance (x y w h : ℕ) : DecidablePred (· ∈ rect x y w h) := fun p =>
  inferInstanceAs (Decidable (x ≤ p.1 ∧ p.1 < x + w ∧ y ≤ p.2 ∧ p.2 < y + h))

/-! ### The strokes -/

section Strokes

variable (fb : Framebuffer) (pen : Pen)

/-- The row of a character in the font. -/
def glyphRow (ch : UInt8) (j : ℕ) : UInt8 :=
  pen.chars ((if 128 ≤ ch then 0 else ch.toNat) * fb.fontHeight + j)

/-- The bytes that `fb_video_clearto` leaves in a pixel. -/
def clearBytes (bpp : ℕ) (color : BitVec 32) : List UInt8 :=
  if bpp = 32 then List.replicate 4 (UInt8.ofNat color.toNat) else pixelBytes bpp color

/-- **The stroke of what is drawn.** -/
def stroke (p : ℕ × ℕ) : Draw → Option (List UInt8)
  | .fillrect x y w h color => if p ∈ rect x y w h then some (pixelBytes fb.bpp color) else none
  | .char ch x y c =>
      if p ∈ rect x y fontWidth fb.fontHeight then
        (pen.ink c (fb.glyphRow pen ch (p.2 - y)) (p.1 - x)).map (pixelBytes fb.bpp)
      else none
  | .clearto color =>
      if p ∈ rect 0 0 fb.width fb.height then some (clearBytes fb.bpp color) else none
  | .scroll _ => none

/-- The bytes of the lines of the framebuffer. -/
def buffer : Set ℕ := {b | fb.video ≤ b ∧ b < fb.video + fb.pitch * fb.height}

/-- What a function draws on the screen. -/
abbrev DrawsOn (stroke : ℕ × ℕ → Option (List UInt8)) (f : Mem → Mem) : Prop :=
  Draws fb.place (pixelSize fb.bpp) fb.visible fb.buffer stroke f

end Strokes

/-! ### Pixels -/

section Pixels

variable {fb : Framebuffer} {pen : Pen} {x y w h : ℕ} {p : ℕ × ℕ} {c color : BitVec 32}
variable {row : UInt8}

theorem mem_rect {a b : ℕ} :
    (a, b) ∈ rect x y w h ↔ x ≤ a ∧ a < x + w ∧ y ≤ b ∧ b < y + h := by
  constructor
  · exact fun hab => hab
  · exact fun hab => hab

/-- A pixel of the screen is in the buffer. -/
theorem Linear.mem_buffer (hfb : fb.Linear) (hp : p ∈ fb.visible) {k : ℕ}
    (hk : k < pixelSize fb.bpp) : fb.place p + k ∈ fb.buffer := by
  have hcolumn : pixelSize fb.bpp * p.1 + pixelSize fb.bpp ≤ pixelSize fb.bpp * fb.width :=
    Nat.mul_le_mul_left (pixelSize fb.bpp) hp.1
  have hline : fb.pitch * p.2 + fb.pitch ≤ fb.pitch * fb.height := Nat.mul_le_mul_left _ hp.2
  have hrow := hfb.row_le
  simp only [buffer, place, Set.mem_ofPred_eq]
  omega

/-- A painter of one colour. -/
theorem Linear.drawsOn {A : Set (ℕ × ℕ)} [DecidablePred (· ∈ A)] {f : Mem → Mem} (hfb : fb.Linear)
    (hA : A ⊆ fb.visible) (hf : Paints fb.place (pixelBytes fb.bpp color) A f) :
    fb.DrawsOn (fun p => if p ∈ A then some (pixelBytes fb.bpp color) else none) f := by
  have hlen := length_pixelBytes fb.bpp color
  have hV := hfb.cellsApart
  rw [← hlen] at hV
  have hdraws := hf.draws (R := fb.buffer) hV hA fun p hp k hk =>
    hfb.mem_buffer hp (by rwa [hlen] at hk)
  rwa [hlen] at hdraws

/-- The pixel of a stroke that puts one or none. -/
def putStroke (fb : Framebuffer) (x y : ℕ) (ink : Option (BitVec 32)) (p : ℕ × ℕ) :
    Option (List UInt8) :=
  if p = (x, y) then ink.map (pixelBytes fb.bpp) else none

theorem drawsOn_putpixel (hfb : fb.Linear) (hp : (x, y) ∈ fb.visible) (c : BitVec 32) :
    fb.DrawsOn (fb.putStroke x y (some c)) (fb.fbPutpixel x y c) := by
  have hpaints := putpixel_paints c hfb hp
  have hdraws := hfb.drawsOn (A := {(x, y)}) (Set.singleton_subset_iff.mpr hp) hpaints
  exact hdraws.congr fun p _ => rfl

theorem drawsOn_none (ink : Option (BitVec 32)) (h : ink = none) :
    fb.DrawsOn (fb.putStroke x y ink) fun m => m := by
  refine Draws.id.congr fun p _ => ?_
  rw [putStroke, h]
  split_ifs <;> rfl

end Pixels

/-! ### A character -/

section Char

variable {fb : Framebuffer} {pen : Pen} {x y n j : ℕ} {c : BitVec 32} {row ch : UInt8}

/-- The test of a bit in the inner loop. -/
theorem and_0x80_ne_zero : row &&& 0x80 ≠ 0 ↔ row.toBitVec.getMsbD 0 = true := by
  have hmask : (0x80 : UInt8).toBitVec = BitVec.twoPow 8 7 := rfl
  have hbit : row.toBitVec.getMsbD 0 = row.toBitVec.getLsbD 7 := rfl
  rw [ne_eq, ← UInt8.toBitVec_inj, UInt8.toBitVec_and, hmask, BitVec.and_twoPow, hbit]
  split_ifs with h
  · exact iff_of_true (by decide) h
  · exact iff_of_false (fun hne => hne rfl) h

/-- The next bit. -/
theorem getMsbD_shiftLeft_one (i : ℕ) :
    (row <<< 1).toBitVec.getMsbD i = row.toBitVec.getMsbD (i + 1) := by
  rw [UInt8.toBitVec_shiftLeft]
  simp [BitVec.getMsbD_shiftLeft]

/-- The stroke of some columns of a row. -/
def rowStroke (fb : Framebuffer) (pen : Pen) (c : BitVec 32) (x y n : ℕ) (row : UInt8)
    (p : ℕ × ℕ) : Option (List UInt8) :=
  if p.2 = y ∧ x ≤ p.1 ∧ p.1 < x + n then (pen.ink c row (p.1 - x)).map (pixelBytes fb.bpp)
  else none

/-- A pixel that is put, or not. -/
theorem drawsOn_ink (hfb : fb.Linear) (hp : (x, y) ∈ fb.visible) :
    fb.DrawsOn (fb.putStroke x y (pen.ink c row 0)) fun m =>
      if row &&& 0x80 ≠ 0 then fb.fbPutpixel x y c m
      else if pen.displayBackground then fb.fbPutpixel x y pen.videoBg m
      else m := by
  simp only [and_0x80_ne_zero, Pen.ink]
  split_ifs
  · exact drawsOn_putpixel hfb hp c
  · exact drawsOn_putpixel hfb hp pen.videoBg
  · exact drawsOn_none none rfl

/-- **The inner loop** draws the columns of a row. It does not look at the bit of the last one,
which is clear. -/
theorem drawsOn_displayColumns (hfb : fb.Linear) (hwidth : fb.width < 2 ^ 32)
    (hx : x + n ≤ fb.width) (hy : y < fb.height)
    (hrow : ∀ i, n ≤ i + 1 → row.toBitVec.getMsbD i = false) :
    fb.DrawsOn (fb.rowStroke pen c x y n row) (fb.displayColumns pen c n x y row) := by
  induction n generalizing x row with
  | zero =>
    refine Draws.id.congr fun p _ => ?_
    rw [rowStroke, if_neg (by omega)]
  | succ n ih =>
    have hp : (x, y) ∈ fb.visible := ⟨by show x < fb.width; omega, hy⟩
    by_cases hn : n = 0
    · -- the last column
      subst hn
      have hink : pen.ink c row 0 = if pen.displayBackground then some pen.videoBg else none := by
        rw [Pen.ink, hrow 0 (by omega)]
        rfl
      have hlast : fb.DrawsOn (fb.putStroke x y (pen.ink c row 0))
          (fb.displayColumns pen c 1 x y row) := by
        simp only [displayColumns, if_true, hink]
        split_ifs
        · exact drawsOn_putpixel hfb hp pen.videoBg
        · exact drawsOn_none none rfl
      refine hlast.congr ?_
      rintro ⟨a, b⟩ -
      simp only [rowStroke, putStroke, Prod.mk.injEq]
      by_cases hab : a = x ∧ b = y
      · rw [if_pos hab, if_pos (by omega), hab.1, Nat.sub_self]
      · rw [if_neg hab, if_neg (by omega)]
    · have hnext : (x + 1) % 2 ^ 32 = x + 1 := Nat.mod_eq_of_lt (by omega)
      have hrest := ih (x := x + 1) (by omega) fun i hi => by
        rw [getMsbD_shiftLeft_one]
        exact hrow (i + 1) (by omega)
      have hfirst : fb.DrawsOn (fb.putStroke x y (pen.ink c row 0)) fun m =>
          if row &&& 0x80 ≠ 0 then fb.fbPutpixel x y c m
          else if pen.displayBackground then fb.fbPutpixel x y pen.videoBg m
          else m := drawsOn_ink hfb hp
      have hboth := hfirst.comp hrest
      have hloop : fb.displayColumns pen c (n + 1) x y row = fun m =>
          fb.displayColumns pen c n (x + 1) y (row <<< 1)
            (if row &&& 0x80 ≠ 0 then fb.fbPutpixel x y c m
            else if pen.displayBackground then fb.fbPutpixel x y pen.videoBg m
            else m) := by
        funext m
        rw [displayColumns, if_neg hn, hnext]
      rw [hloop]
      refine hboth.congr ?_
      rintro ⟨a, b⟩ -
      simp only [rowStroke, putStroke, Prod.mk.injEq]
      rcases Nat.lt_trichotomy a x with hlt | rfl | hgt
      · rw [if_neg (by omega), if_neg (by omega), if_neg (by omega)]
        rfl
      · by_cases hb : b = y
        · rw [if_pos (by omega), if_neg (by omega), if_pos ⟨rfl, hb⟩, Nat.sub_self, Option.none_or]
        · rw [if_neg (by omega), if_neg (by omega), if_neg (by omega)]
          rfl
      · have hbit : pen.ink c (row <<< 1) (a - (x + 1)) = pen.ink c row (a - x) := by
          rw [Pen.ink, Pen.ink, getMsbD_shiftLeft_one, show a - (x + 1) + 1 = a - x by omega]
        by_cases hab : b = y ∧ a < x + (n + 1)
        · rw [if_pos (by omega), if_pos (by omega), if_neg (by omega), Option.or_none, hbit]
        · rw [if_neg (by omega), if_neg (by omega), if_neg (by omega)]
          rfl

/-- **The outer loop** draws the rows of a character. -/
theorem drawsOn_displayRows {glyph : ℕ} (hfb : fb.Linear) (hwidth : fb.width < 2 ^ 32)
    (hheight : fb.height < 2 ^ 32) (hx : x + fontWidth ≤ fb.width) (hy : y + n ≤ fb.height) :
    fb.DrawsOn (fun p => if p ∈ rect x y fontWidth n then
        (pen.ink c (pen.chars (glyph * fb.fontHeight + (j + (p.2 - y)))) (p.1 - x)).map
          (pixelBytes fb.bpp)
      else none) (fb.displayRows pen c glyph x n j y) := by
  induction n generalizing j y with
  | zero =>
    refine Draws.id.congr fun p _ => if_neg fun hp => ?_
    simp only [rect, Set.mem_ofPred_eq] at hp
    omega
  | succ n ih =>
    have hnext : (y + 1) % 2 ^ 32 = y + 1 := Nat.mod_eq_of_lt (by omega)
    -- a byte has no ninth bit
    have hrow : fb.DrawsOn
        (fb.rowStroke pen c x y fontWidth (pen.chars (glyph * fb.fontHeight + j)))
        (fb.displayColumns pen c fontWidth x y (pen.chars (glyph * fb.fontHeight + j))) :=
      drawsOn_displayColumns hfb hwidth hx (by omega)
        fun i hi => BitVec.getMsbD_of_ge _ _ (by rw [fontWidth] at hi; omega)
    have hboth := hrow.comp (ih (j := j + 1) (y := y + 1) (by omega))
    have hloop : fb.displayRows pen c glyph x (n + 1) j y = fun m =>
        fb.displayRows pen c glyph x n (j + 1) (y + 1) (fb.displayColumns pen c fontWidth x y
          (pen.chars (glyph * fb.fontHeight + j)) m) := by
      funext m
      rw [displayRows, hnext]
    rw [hloop]
    refine hboth.congr ?_
    rintro ⟨a, b⟩ -
    simp only [rowStroke, mem_rect]
    rcases Nat.lt_trichotomy b y with hlt | rfl | hgt
    · rw [if_neg (by omega), if_neg (by omega), if_neg (by omega)]
      rfl
    · rw [if_neg (c := _ ∧ _ ∧ b + 1 ≤ b ∧ _) (by omega), Option.none_or, Nat.sub_self,
        Nat.add_zero]
      exact if_congr (by omega) rfl rfl
    · have hj : j + 1 + (b - (y + 1)) = j + (b - y) := by omega
      rw [if_neg (c := b = y ∧ _) (by omega), Option.or_none, hj]
      exact if_congr (by omega) rfl rfl

/-- **`displayChar`** draws its stroke. -/
theorem drawsOn_displayChar (hfb : fb.Linear) (hwidth : fb.width < 2 ^ 32)
    (hheight : fb.height < 2 ^ 32) (hx : x + fontWidth ≤ fb.width)
    (hy : y + fb.fontHeight ≤ fb.height) :
    fb.DrawsOn (fun p => fb.stroke pen p (.char ch x y c)) (fb.displayChar pen c ch x y) := by
  refine (drawsOn_displayRows (j := 0) hfb hwidth hheight hx hy).congr fun p _ => ?_
  simp only [stroke, glyphRow, Nat.zero_add]

end Char

/-! ### All that is drawn -/

section Perform

variable {fb : Framebuffer} {pen : Pen} {color : BitVec 32} {d : Draw} {n : ℕ} {m : Mem}
  {picture : ℕ × ℕ → List UInt8}

theorem mem_rect_visible {p : ℕ × ℕ} : p ∈ rect 0 0 fb.width fb.height ↔ p ∈ fb.visible := by
  obtain ⟨a, b⟩ := p
  rw [mem_rect]
  show _ ↔ a < fb.width ∧ b < fb.height
  omega

/-- **Clearing** draws one colour, by the bytes that it leaves. -/
theorem drawsOn_clearto (hfb : fb.Linear) :
    fb.DrawsOn (fun p => fb.stroke pen p (.clearto color)) (fb.fbVideoClearto color) := by
  by_cases hbpp : fb.bpp = 32
  · have hsize : pixelSize fb.bpp = 4 := by rw [hbpp]; rfl
    refine ⟨fun m p hp => ?_, fun m b hb => ?_⟩
    · rw [stroke, if_pos (mem_rect_visible.mpr hp), clearBytes, if_pos hbpp, hsize,
        read_clearto_bpp32 hfb hbpp hp]
      rfl
    · have hmod : fb.pitch * fb.height % 2 ^ 32 = fb.pitch * fb.height :=
        Nat.mod_eq_of_lt hfb.size_lt
      simp only [fbVideoClearto, fbVideoCleartoBpp32, hbpp, hmod, memset_eq]
      refine write_of_notMem ?_
      rw [List.length_replicate]
      by_contra hcon
      exact hb ⟨by omega, by omega⟩
  · have hpaints := putPixels_paints color hfb fun p hp => mem_pixels.mp hp
    have hset : {p | p ∈ fb.pixels} = rect 0 0 fb.width fb.height :=
      Set.ext fun p => mem_pixels.trans mem_rect_visible.symm
    rw [hset] at hpaints
    have hsame : fb.fbVideoClearto color = fb.putPixels fb.pixels color :=
      funext fun m => clearto_eq_putpixels hfb hbpp
    rw [hsame]
    refine (hfb.drawsOn (fun p hp => mem_rect_visible.mp hp) hpaints).congr fun p _ => ?_
    rw [stroke, clearBytes, if_neg hbpp]

/-- **What is drawn on the screen is its stroke**, unless it is a scroll. -/
theorem drawsOn_perform (hfb : fb.Linear) (hv : fb.Valid) (hd : d.Inside fb.toScreen)
    (hscroll : ∀ n, d ≠ .scroll n) :
    fb.DrawsOn (fun p => fb.stroke pen p d) (fb.perform pen d) := by
  cases d with
  | fillrect x y w h color =>
    exact hfb.drawsOn (rect_subset_visible hd.1 hd.2) (fillrect_paints color hfb hd.1 hd.2)
  | char ch x y c => exact drawsOn_displayChar hfb hv.width_lt hv.height_lt hd.1 hd.2
  | clearto color => exact drawsOn_clearto hfb
  | scroll n => exact absurd rfl (hscroll n)

/-- The bytes of a part of the buffer behind a scroll. -/
theorem read_scroll {k size : ℕ} (hsize : fb.pitch * fb.height < 2 ^ 32)
    (hheight : fb.height < 2 ^ 32) (haligned : fb.video % 8 = 0) (hn : n ≤ fb.height)
    (hk : k + size ≤ fb.pitch * fb.height) : (fb.scroll n m).read (fb.video + k) size =
      ((m.read (fb.video + n * fb.pitch) ((fb.height - n) * fb.pitch) ++
        List.replicate (n * fb.pitch) 0).drop k).take size := by
  have hsum : (fb.height - n) * fb.pitch + n * fb.pitch = fb.pitch * fb.height := by
    rw [← Nat.add_mul, Nat.sub_add_cancel hn, Nat.mul_comm]
  rw [scroll_eq hsize hheight haligned hn]
  refine (read_write_self m fb.video _).read_drop ?_
  rw [List.length_append, length_read, List.length_replicate, hsum]
  exact hk

/-- **After a scroll** each pixel is what the one so many lines below was, and those of the last
lines are zero. -/
theorem pictures_scroll (hfb : fb.Linear) (hv : fb.Valid) (haligned : fb.video % 8 = 0)
    (hn : n ≤ fb.height) (h : Pictures fb.place (pixelSize fb.bpp) fb.visible picture m) :
    Pictures fb.place (pixelSize fb.bpp) fb.visible (fun p =>
      if p.2 + n < fb.height then picture (p.1, p.2 + n)
      else List.replicate (pixelSize fb.bpp) 0) (fb.scroll n m) := by
  rintro ⟨x, y⟩ ⟨hx, hy⟩
  dsimp only at hx hy ⊢
  have hcolumn : pixelSize fb.bpp * x + pixelSize fb.bpp ≤ pixelSize fb.bpp * fb.width :=
    Nat.mul_le_mul_left (pixelSize fb.bpp) hx
  have hrow := hfb.row_le
  have hline : fb.pitch * y + fb.pitch ≤ fb.pitch * fb.height := Nat.mul_le_mul_left _ hy
  have hplace : fb.place (x, y) = fb.video + (fb.pitch * y + pixelSize fb.bpp * x) :=
    Nat.add_assoc _ _ _
  rw [hplace, read_scroll hfb.size_lt hv.height_lt haligned hn (by omega)]
  split_ifs with hlt
  · -- a line that stays
    have hbelow : fb.pitch * y + fb.pitch ≤ (fb.height - n) * fb.pitch := by
      rw [Nat.mul_comm, ← Nat.succ_mul]
      exact Nat.mul_le_mul_right _ (by omega)
    rw [List.drop_append_of_le_length (by rw [length_read]; omega),
      List.take_append_of_le_length (by rw [List.length_drop, length_read]; omega)]
    have hat : m.At (fb.video + n * fb.pitch)
        (m.read (fb.video + n * fb.pitch) ((fb.height - n) * fb.pitch)) := by
      rw [At, length_read]
    rw [← hat.read_drop (by rw [length_read]; omega), ← h (x, y + n) ⟨hx, hlt⟩]
    congr 1
    simp only [place, Nat.mul_add, Nat.mul_comm n]
    omega
  · -- a line that has been cleared
    have hbelow : (fb.height - n) * fb.pitch ≤ fb.pitch * y := by
      rw [Nat.mul_comm]
      exact Nat.mul_le_mul_left _ (by omega)
    have hsum : (fb.height - n) * fb.pitch + n * fb.pitch = fb.pitch * fb.height := by
      rw [← Nat.add_mul, Nat.sub_add_cancel hn, Nat.mul_comm]
    rw [List.drop_append, List.drop_of_length_le (by rw [length_read]; omega), List.nil_append,
      length_read, List.drop_replicate, List.take_replicate, Nat.min_eq_left (by omega)]

/-- A scroll writes in the buffer only. -/
theorem scroll_kept {b : ℕ} (hfb : fb.Linear) (hv : fb.Valid) (haligned : fb.video % 8 = 0)
    (hn : n ≤ fb.height) (hb : b ∉ fb.buffer) : fb.scroll n m b = m b := by
  have hsum : (fb.height - n) * fb.pitch + n * fb.pitch = fb.pitch * fb.height := by
    rw [← Nat.add_mul, Nat.sub_add_cancel hn, Nat.mul_comm]
  rw [scroll_eq hfb.size_lt hv.height_lt haligned hn]
  refine write_of_notMem ?_
  rw [List.length_append, length_read, List.length_replicate, hsum]
  by_contra hcon
  exact hb ⟨by omega, by omega⟩

end Perform

end Framebuffer

end Xana
