import Xana.String.Basic
import Xana.Video.Pixels

/-!
# Erasing the screen

`fb_video_clearto` has a routine for each depth. Three of them put the pixels one by one; the
one for 32 bits takes `memset`, which knows one byte only. So it clears to the colour it was
given when the four bytes of that are the same (`Xana.Framebuffer.clearto_iff`).

`fb_video_clear_up` and `fb_video_clear_down` fill two rectangles each: of the row of the
cursor the part up to its cell, or from it on, and the rows above, or below. The four
rectangles cover the screen, with what is left of it at the right and at the bottom
(`Xana.Framebuffer.clear_up_down`).
-/

namespace Xana

open Mem

namespace Framebuffer

variable (fb : Framebuffer)

/-! ### The functions -/

/-- The pixels in the order of the two loops, over the rows and the columns. -/
def pixels : List (ℕ × ℕ) :=
  (List.range fb.height).flatMap fun i => (List.range fb.width).map fun j => (j, i)

/-- `fb_video_clearto_bpp32` -/
def fbVideoCleartoBpp32 (color : BitVec 32) (m : Mem) : Mem :=
  memset m fb.video (UInt8.ofNat color.toNat) (fb.pitch * fb.height % 2 ^ 32)

/-- `fb_video_clearto_bpp24` -/
def fbVideoCleartoBpp24 (color : BitVec 32) (m : Mem) : Mem :=
  fb.pixels.foldl (fun m p =>
    let pixel := fb.video + fb.pitch * p.2 % 2 ^ 32 + 3 * p.1 % 2 ^ 32
    let old := BitVec.ofNat 32 (m.load pixel 4)
    m.store pixel 4 (color &&& 0xFFFFFF ||| old &&& 0xFF000000).toNat) m

/-- `fb_video_clearto_bpp16` -/
def fbVideoCleartoBpp16 (color : BitVec 32) (m : Mem) : Mem :=
  fb.pixels.foldl (fun m p =>
    m.store (fb.video + fb.pitch * p.2 % 2 ^ 32 + 2 * p.1 % 2 ^ 32) 2 color.toNat) m

/-- `fb_video_clearto_bpp8` -/
def fbVideoCleartoBpp8 (color : BitVec 32) (m : Mem) : Mem :=
  fb.pixels.foldl (fun m p => m.store (fb.video + fb.pitch * p.2 % 2 ^ 32 + p.1) 1 color.toNat) m

/-- `fb_video_clearto`, in a linear mode. -/
def fbVideoClearto (color : BitVec 32) (m : Mem) : Mem :=
  match fb.bpp with
  | 8 => fb.fbVideoCleartoBpp8 color m
  | 15 | 16 => fb.fbVideoCleartoBpp16 color m
  | 24 => fb.fbVideoCleartoBpp24 color m
  | 32 => fb.fbVideoCleartoBpp32 color m
  | _ => m

/-- `fb_video_clear_up`, in a linear mode, with `video_bg` and the cursor. -/
def fbVideoClearUp (videoBg : BitVec 32) (p : Cursor) (m : Mem) : Mem :=
  let m := fb.fbVideoFillrect 0 (fb.pixelY p.y) ((p.x + 1) * fontWidth % 2 ^ 32)
    fb.fontHeight videoBg m
  fb.fbVideoFillrect 0 0 fb.width (fb.pixelY p.y) videoBg m

/-- `fb_video_clear_down`, in a linear mode. -/
def fbVideoClearDown (videoBg : BitVec 32) (p : Cursor) (m : Mem) : Mem :=
  let m := fb.fbVideoFillrect (Screen.pixelX p.x) (fb.pixelY p.y)
    ((fb.width + 2 ^ 32 - Screen.pixelX p.x) % 2 ^ 32) fb.fontHeight videoBg m
  let below := (p.y + 1) * fb.fontHeight % 2 ^ 32
  fb.fbVideoFillrect 0 below fb.width ((fb.height + 2 ^ 32 - below) % 2 ^ 32) videoBg m

/-! ### Clearing to a colour -/

/-- **Each pixel is as `fb_putpixel` would leave it.** -/
def ClearsTo (color : BitVec 32) (m : Mem) : Prop :=
  ∀ p ∈ fb.visible, (fb.fbVideoClearto color m).read (fb.place p) (pixelSize fb.bpp) =
    (fb.fbPutpixel p.1 p.2 color m).read (fb.place p) (pixelSize fb.bpp)

/-- The four bytes of a colour are the same. -/
def SameBytes (color : BitVec 32) : Prop :=
  pixelBytes 32 color = List.replicate 4 (UInt8.ofNat color.toNat)

variable {fb} {color : BitVec 32} {m : Mem} {p : ℕ × ℕ}

theorem mem_pixels : p ∈ fb.pixels ↔ p ∈ fb.visible := by
  obtain ⟨x, y⟩ := p
  simp only [pixels, visible, List.mem_flatMap, List.mem_map, List.mem_range, Prod.mk.injEq,
    Set.mem_ofPred_eq]
  constructor
  · rintro ⟨i, hi, j, hj, rfl, rfl⟩
    exact ⟨hj, hi⟩
  · rintro ⟨hx, hy⟩
    exact ⟨y, hy, x, hx, rfl, rfl⟩

/-- The routines that go pixel by pixel. -/
theorem clearto_eq_putpixels (h : fb.Linear) (hbpp : fb.bpp ≠ 32) :
    fb.fbVideoClearto color m = fb.putPixels fb.pixels color m := by
  rcases h.bpp with h | h | h | h | h
  · simp only [fbVideoClearto, fbVideoCleartoBpp8, putPixels, fbPutpixel, h]
  · simp only [fbVideoClearto, fbVideoCleartoBpp16, putPixels, fbPutpixel, h]
  · simp only [fbVideoClearto, fbVideoCleartoBpp16, putPixels, fbPutpixel, h]
  · simp only [fbVideoClearto, fbVideoCleartoBpp24, putPixels, fbPutpixel, h]
  · exact absurd h hbpp

/-- What `fb_putpixel` leaves in its pixel. -/
theorem read_putpixel (h : fb.Linear) (hp : p ∈ fb.visible) :
    (fb.fbPutpixel p.1 p.2 color m).read (fb.place p) (pixelSize fb.bpp) =
    pixelBytes fb.bpp color := by
  have hat := (putpixel_paints color h hp).painted m p rfl
  rwa [At, length_pixelBytes] at hat

/-- What `memset` leaves in a pixel. -/
theorem read_clearto_bpp32 (h : fb.Linear) (hbpp : fb.bpp = 32) (hp : p ∈ fb.visible) :
    (fb.fbVideoClearto color m).read (fb.place p) 4 =
    List.replicate 4 (UInt8.ofNat color.toNat) := by
  have hmod : fb.pitch * fb.height % 2 ^ 32 = fb.pitch * fb.height := Nat.mod_eq_of_lt h.size_lt
  have hclear : fb.fbVideoClearto color m =
      m.write fb.video (List.replicate (fb.pitch * fb.height) (UInt8.ofNat color.toNat)) := by
    simp only [fbVideoClearto, fbVideoCleartoBpp32, hbpp, hmod, memset_eq]
  have hrow : 4 * fb.width ≤ fb.pitch := by
    have hle := h.row_le
    rwa [hbpp] at hle
  have hcolumn : 4 * p.1 + 4 ≤ 4 * fb.width := Nat.mul_le_mul_left 4 hp.1
  have hline : fb.pitch * p.2 + fb.pitch ≤ fb.pitch * fb.height := Nat.mul_le_mul_left _ hp.2
  have hplace : fb.place p = fb.video + (fb.pitch * p.2 + 4 * p.1) := by
    rw [place, hbpp, pixelSize, Nat.add_assoc]
  have hpart := (read_write_self m fb.video (List.replicate (fb.pitch * fb.height)
    (UInt8.ofNat color.toNat))).read_drop (n := fb.pitch * p.2 + 4 * p.1) (k := 4)
    (by rw [List.length_replicate]; omega)
  rw [hclear, hplace, hpart, List.drop_replicate, List.take_replicate, Nat.min_eq_left (by omega)]

/-- **When the screen is cleared to a colour**: with 32 bits a pixel, if the bytes of the
colour are the same. -/
theorem clearto_iff (h : fb.Linear) : fb.ClearsTo color m ↔
    fb.bpp ≠ 32 ∨ fb.width = 0 ∨ fb.height = 0 ∨ SameBytes color := by
  constructor
  · intro hclears
    by_contra hcon
    simp only [not_or, not_not] at hcon
    -- the first pixel of the screen shows it
    obtain ⟨hbpp, hwidth, hheight, hbytes⟩ := hcon
    have hp : (0, 0) ∈ fb.visible := ⟨Nat.pos_of_ne_zero hwidth, Nat.pos_of_ne_zero hheight⟩
    have hread := hclears (0, 0) hp
    have hsize : pixelSize fb.bpp = 4 := by rw [hbpp]; rfl
    rw [read_putpixel h hp, hsize, read_clearto_bpp32 h hbpp hp, hbpp] at hread
    exact hbytes hread.symm
  · intro hcond p hp
    rw [read_putpixel h hp]
    by_cases hbpp : fb.bpp = 32
    · have hbytes : SameBytes color := by
        have hwidth := Nat.zero_lt_of_lt hp.1
        have hheight := Nat.zero_lt_of_lt hp.2
        exact ((hcond.resolve_left (not_not.mpr hbpp)).resolve_left hwidth.ne').resolve_left
          hheight.ne'
      have hsize : pixelSize fb.bpp = 4 := by rw [hbpp]; rfl
      rw [hsize, read_clearto_bpp32 h hbpp hp, hbpp]
      exact hbytes.symm
    · -- the other routines put the pixels one by one
      have hpaints := putPixels_paints color h fun p hp => mem_pixels.mp hp
      have hat := hpaints.painted m p (mem_pixels.mpr hp)
      rw [At, length_pixelBytes] at hat
      rwa [clearto_eq_putpixels h hbpp]

theorem clearto_iff_small : smallFramebuffer.ClearsTo 0x0000AA countingMem :=
  (clearto_iff linear_smallFramebuffer).mpr (Or.inl (by decide))

/-- With 32 bits a pixel, dark blue becomes another colour. -/
theorem not_clearsTo : ¬∀ (fb : Framebuffer) (color : BitVec 32) (m : Mem),
    fb.Linear → fb.ClearsTo color m := by
  intro hall
  have hlinear : ({ smallFramebuffer with bpp := 32, pitch := 40 } : Framebuffer).Linear :=
    ⟨by decide, by decide, by decide, by decide, by decide⟩
  have hread := hall _ 0x0000AA (fun _ => 0) hlinear (0, 0) ⟨by decide, by decide⟩
  have hsize : pixelSize 32 = 4 := rfl
  rw [read_putpixel hlinear ⟨by decide, by decide⟩, hsize,
    read_clearto_bpp32 hlinear rfl ⟨by decide, by decide⟩] at hread
  revert hread
  decide

/-! ### Up to the cursor, and from it on -/

section Cursor

variable {q : Cursor} {videoBg : BitVec 32}

/-- The pixels above the row of the cursor, and those of its row up to its cell. -/
def upTo (fb : Framebuffer) (q : Cursor) : Set (ℕ × ℕ) :=
  {p ∈ fb.visible | p.2 < q.y * fb.fontHeight ∨
    p.2 < (q.y + 1) * fb.fontHeight ∧ p.1 < (q.x + 1) * fontWidth}

/-- The pixels of the row of the cursor from its cell on, and those below. -/
def downFrom (fb : Framebuffer) (q : Cursor) : Set (ℕ × ℕ) :=
  {p ∈ fb.visible | q.y * fb.fontHeight ≤ p.2 ∧
    (q.x * fontWidth ≤ p.1 ∨ (q.y + 1) * fb.fontHeight ≤ p.2)}

/-- The cell of the cursor in pixels, which does not overflow. -/
theorem Linear.cell_bounds (h : fb.Linear) (hq : fb.OnScreen q) :
    q.x * fontWidth + fontWidth ≤ fb.width ∧ q.y * fb.fontHeight + fb.fontHeight ≤ fb.height ∧
      fb.width < 2 ^ 32 ∧ fb.height < 2 ^ 32 := by
  have hx := Screen.succ_mul_fontWidth_le hq.1
  have hy := Screen.succ_mul_fontHeight_le hq.2
  rw [Nat.succ_mul] at hx hy
  have hfont : fontWidth = 9 := rfl
  have hrow := h.row_le
  have hpitch := h.pitch_lt
  have hsize := h.size_lt
  have hpos : 1 ≤ pixelSize fb.bpp := by
    rcases h.bpp with h | h | h | h | h <;> rw [h] <;> decide
  have hwidth : fb.width ≤ pixelSize fb.bpp * fb.width := Nat.le_mul_of_pos_left _ hpos
  have hheight : fb.height ≤ fb.pitch * fb.height := Nat.le_mul_of_pos_left _ (by omega)
  exact ⟨hx, hy, by omega, by omega⟩

/-- **`fb_video_clear_up`** paints the pixels up to the cursor. -/
theorem clearUp_paints (videoBg : BitVec 32) (h : fb.Linear) (hq : fb.OnScreen q) :
    Paints fb.place (pixelBytes fb.bpp videoBg) (fb.upTo q) (fb.fbVideoClearUp videoBg q) := by
  obtain ⟨hx, hy, hwidth, hheight⟩ := h.cell_bounds hq
  have hV := h.cellsApart
  rw [← length_pixelBytes fb.bpp videoBg] at hV
  have hpixelY : fb.pixelY q.y = q.y * fb.fontHeight := Nat.mod_eq_of_lt (by omega)
  have hend : (q.x + 1) * fontWidth % 2 ^ 32 = q.x * fontWidth + fontWidth := by
    rw [Nat.succ_mul, Nat.mod_eq_of_lt (by omega)]
  -- the row of the cursor up to its cell, and the rows above
  have hset : fb.upTo q = rect 0 (q.y * fb.fontHeight) (q.x * fontWidth + fontWidth) fb.fontHeight ∪
      rect 0 0 fb.width (q.y * fb.fontHeight) := by
    ext ⟨a, b⟩
    simp only [upTo, rect, visible, Set.mem_union, Set.mem_ofPred_eq, Nat.succ_mul]
    omega
  rw [hset]
  have hrow := fillrect_paints (x := 0) (y := q.y * fb.fontHeight)
    (w := q.x * fontWidth + fontWidth) (h := fb.fontHeight) videoBg h (by omega) hy
  have habove := fillrect_paints (x := 0) (y := 0) (w := fb.width) (h := q.y * fb.fontHeight)
    videoBg h (by omega) (by omega)
  have hboth := hrow.comp hV (rect_subset_visible (by omega) hy)
    (rect_subset_visible (by omega) (by omega)) habove
  have heq : fb.fbVideoClearUp videoBg q = fun m => fb.fbVideoFillrect 0 0 fb.width
      (q.y * fb.fontHeight) videoBg (fb.fbVideoFillrect 0 (q.y * fb.fontHeight)
        (q.x * fontWidth + fontWidth) fb.fontHeight videoBg m) :=
    funext fun m => by simp only [fbVideoClearUp, hpixelY, hend]
  rw [heq]
  exact hboth

/-- **`fb_video_clear_down`** paints the pixels from the cursor on. -/
theorem clearDown_paints (videoBg : BitVec 32) (h : fb.Linear) (hq : fb.OnScreen q) :
    Paints fb.place (pixelBytes fb.bpp videoBg) (fb.downFrom q)
      (fb.fbVideoClearDown videoBg q) := by
  obtain ⟨hx, hy, hwidth, hheight⟩ := h.cell_bounds hq
  have hV := h.cellsApart
  rw [← length_pixelBytes fb.bpp videoBg] at hV
  have hpixelX : Screen.pixelX q.x = q.x * fontWidth := Nat.mod_eq_of_lt (by omega)
  have hpixelY : fb.pixelY q.y = q.y * fb.fontHeight := Nat.mod_eq_of_lt (by omega)
  have hright : (fb.width + 2 ^ 32 - q.x * fontWidth) % 2 ^ 32 = fb.width - q.x * fontWidth := by
    omega
  have hbelow : (q.y + 1) * fb.fontHeight % 2 ^ 32 = q.y * fb.fontHeight + fb.fontHeight := by
    rw [Nat.succ_mul, Nat.mod_eq_of_lt (by omega)]
  have hrest : (fb.height + 2 ^ 32 - (q.y * fb.fontHeight + fb.fontHeight)) % 2 ^ 32 =
      fb.height - (q.y * fb.fontHeight + fb.fontHeight) := by omega
  -- the row of the cursor from its cell on, and the rows below
  have hset : fb.downFrom q = rect (q.x * fontWidth) (q.y * fb.fontHeight)
      (fb.width - q.x * fontWidth) fb.fontHeight ∪ rect 0 (q.y * fb.fontHeight + fb.fontHeight)
      fb.width (fb.height - (q.y * fb.fontHeight + fb.fontHeight)) := by
    ext ⟨a, b⟩
    simp only [downFrom, rect, visible, Set.mem_union, Set.mem_ofPred_eq, Nat.succ_mul]
    omega
  rw [hset]
  have hrow := fillrect_paints (x := q.x * fontWidth) (y := q.y * fb.fontHeight)
    (w := fb.width - q.x * fontWidth) (h := fb.fontHeight) videoBg h (by omega) hy
  have hunder := fillrect_paints (x := 0) (y := q.y * fb.fontHeight + fb.fontHeight) (w := fb.width)
    (h := fb.height - (q.y * fb.fontHeight + fb.fontHeight)) videoBg h (by omega) (by omega)
  have hboth := hrow.comp hV (rect_subset_visible (by omega) hy)
    (rect_subset_visible (by omega) (by omega)) hunder
  have heq : fb.fbVideoClearDown videoBg q = fun m => fb.fbVideoFillrect 0
      (q.y * fb.fontHeight + fb.fontHeight) fb.width
      (fb.height - (q.y * fb.fontHeight + fb.fontHeight)) videoBg
      (fb.fbVideoFillrect (q.x * fontWidth) (q.y * fb.fontHeight) (fb.width - q.x * fontWidth)
        fb.fontHeight videoBg m) :=
    funext fun m => by simp only [fbVideoClearDown, hpixelX, hpixelY, hright, hbelow, hrest]
  rw [heq]
  exact hboth

/-- **Up and down together clear the screen**, and neither changes anything but its pixels. -/
theorem clear_up_down (h : fb.Linear) (hq : fb.OnScreen q) :
    (∀ m b, OutsideCells fb.place (pixelSize fb.bpp) (fb.upTo q) b →
        fb.fbVideoClearUp videoBg q m b = m b) ∧
      (∀ m b, OutsideCells fb.place (pixelSize fb.bpp) (fb.downFrom q) b →
        fb.fbVideoClearDown videoBg q m b = m b) ∧
      ∀ m, ∀ p ∈ fb.visible,
        (fb.fbVideoClearDown videoBg q (fb.fbVideoClearUp videoBg q m)).At (fb.place p)
          (pixelBytes fb.bpp videoBg) ∧
        (fb.fbVideoClearUp videoBg q (fb.fbVideoClearDown videoBg q m)).At (fb.place p)
          (pixelBytes fb.bpp videoBg) := by
  have hV := h.cellsApart
  rw [← length_pixelBytes fb.bpp videoBg] at hV ⊢
  have hup := clearUp_paints videoBg h hq
  have hdown := clearDown_paints videoBg h hq
  have hup' : fb.upTo q ⊆ fb.visible := fun _ hp => hp.1
  have hdown' : fb.downFrom q ⊆ fb.visible := fun _ hp => hp.1
  refine ⟨hup.kept, hdown.kept, fun m p hp => ?_⟩
  have hcover : p ∈ fb.upTo q ∨ p ∈ fb.downFrom q := by
    simp only [upTo, downFrom, Set.mem_ofPred_eq, Nat.succ_mul]
    have hvisible : p ∈ fb.visible := hp
    simp only [hvisible, true_and]
    omega
  exact ⟨(hup.comp hV hup' hdown' hdown).painted m p hcover,
    (hdown.comp hV hdown' hup' hup).painted m p hcover.symm⟩

theorem clear_up_down_small :
    (smallFramebuffer.fbVideoClearDown 0x123456 ⟨0, 1⟩
      (smallFramebuffer.fbVideoClearUp 0x123456 ⟨0, 1⟩ countingMem)).At
        (smallFramebuffer.place (9, 3)) (pixelBytes 24 0x123456) :=
  ((clear_up_down linear_smallFramebuffer ⟨by decide, by decide⟩).2.2 countingMem (9, 3)
    ⟨by decide, by decide⟩).1

end Cursor

end Framebuffer

end Xana
