import Xana.Lib.Paint
import Xana.Memory.Alloc
import Xana.Video.Screen

/-!
# Pixels and rectangles

In a linear mode a pixel is one to four bytes of memory, `Xana.Framebuffer.place` says from
where on. `fb_putpixel` computes its address each time; `fb_video_fillrect` goes through a
rectangle with one pointer, which is moved by the rest of the line after each row. With 24
bits a pixel, `fb_putpixel` stores four bytes, the last of which it has read before, and
`fb_video_fillrect` stores three.

Both paint cells of memory (`Xana.Framebuffer.putpixel_paints`,
`Xana.Framebuffer.fillrect_paints`), so filling a rectangle is putting its pixels, in
whatever order (`Xana.Framebuffer.fillrect_eq_putpixels`).
-/

namespace Xana

open Mem

/-- A screen, and where its pixels are in memory: `video`, `framebuffer_bpp` and
`framebuffer_pitch`. -/
structure Framebuffer extends Screen where
  video : ℕ
  bpp : ℕ
  pitch : ℕ

/-- The bytes of a pixel, by the bits. -/
def pixelSize : ℕ → ℕ
  | 8 => 1
  | 15 | 16 => 2
  | 24 => 3
  | 32 => 4
  | _ => 0

/-- The bytes that a colour is stored as. -/
def pixelBytes (bpp : ℕ) (color : BitVec 32) : List UInt8 := leBytes (pixelSize bpp) color.toNat

/-! ### The functions -/

/-- The three stores of `fb_video_fillrect` with 24 bits a pixel. -/
def storeRgb (color : BitVec 32) (pixel : ℕ) (m : Mem) : Mem :=
  let m := m.write pixel [UInt8.ofNat (color &&& 0xFF).toNat]
  let m := m.write (pixel + 1) [UInt8.ofNat (color >>> 8 &&& 0xFF).toNat]
  m.write (pixel + 2) [UInt8.ofNat (color >>> 16 &&& 0xFF).toNat]

section Loops

variable (put : ℕ → Mem → Mem) (size skip : ℕ)

/-- The inner loop of `fb_video_fillrect`, for `w` pixels of `size` bytes: where the pointer
is behind it, and the memory. -/
def fillColumns : ℕ → ℕ → Mem → ℕ × Mem
  | 0, pixel, m => (pixel, m)
  | w + 1, pixel, m => fillColumns w (pixel + size) (put pixel m)

/-- The outer loop, for `h` rows, with `skip` bytes between two of them. -/
def fillRows (w : ℕ) : ℕ → ℕ → Mem → Mem
  | 0, _, m => m
  | h + 1, pixel, m =>
      let (pixel, m) := fillColumns put size w pixel m
      fillRows w h (pixel + skip) m

end Loops

namespace Framebuffer

variable (fb : Framebuffer)

/-- `fb_putpixel`, in a linear mode. -/
def fbPutpixel (x y : ℕ) (color : BitVec 32) (m : Mem) : Mem :=
  match fb.bpp with
  | 8 => m.store (fb.video + fb.pitch * y % 2 ^ 32 + x) 1 color.toNat
  | 15 | 16 => m.store (fb.video + fb.pitch * y % 2 ^ 32 + 2 * x % 2 ^ 32) 2 color.toNat
  | 24 =>
      let pixel := fb.video + fb.pitch * y % 2 ^ 32 + 3 * x % 2 ^ 32
      let old := BitVec.ofNat 32 (m.load pixel 4)
      m.store pixel 4 (color &&& 0xFFFFFF ||| old &&& 0xFF000000).toNat
  | 32 => m.store (fb.video + fb.pitch * y % 2 ^ 32 + 4 * x % 2 ^ 32) 4 color.toNat
  | _ => m

/-- `fb_video_fillrect`, in a linear mode. -/
def fbVideoFillrect (x y w h : ℕ) (color : BitVec 32) (m : Mem) : Mem :=
  let line := fb.video + fb.pitch * y % 2 ^ 32
  match fb.bpp with
  | 8 =>
      fillRows (fun pixel m => m.store pixel 1 color.toNat) 1 ((fb.pitch + 2 ^ 32 - w) % 2 ^ 32) w h
        (line + x) m
  | 15 | 16 =>
      fillRows (fun pixel m => m.store pixel 2 color.toNat) 2
        (2 * ((fb.pitch / 2 + 2 ^ 32 - w) % 2 ^ 32)) w h (line + 2 * x % 2 ^ 32) m
  | 24 =>
      fillRows (storeRgb color) 3 ((fb.pitch + 2 ^ 32 - 3 * w % 2 ^ 32) % 2 ^ 32) w h
        (line + 3 * x % 2 ^ 32) m
  | 32 =>
      fillRows (fun pixel m => m.store pixel 4 color.toNat) 4
        (4 * ((fb.pitch / 4 + 2 ^ 32 - w) % 2 ^ 32)) w h (line + 4 * x % 2 ^ 32) m
  | _ => m

/-! ### Where the pixels are -/

/-- The first byte of a pixel, given by its column and its row. -/
def place (p : ℕ × ℕ) : ℕ := fb.video + fb.pitch * p.2 + pixelSize fb.bpp * p.1

/-- The pixels of a rectangle. -/
def rect (x y w h : ℕ) : Set (ℕ × ℕ) := {p | x ≤ p.1 ∧ p.1 < x + w ∧ y ≤ p.2 ∧ p.2 < y + h}

/-- The pixels of the screen. -/
def visible : Set (ℕ × ℕ) := {p | p.1 < fb.width ∧ p.2 < fb.height}

/-- **A linear mode.** The pitch holds a row, and is a multiple of the size of a pixel where
the pointer is one to pixels; the buffer is smaller than 4 GiB. -/
structure Linear : Prop where
  bpp : fb.bpp = 8 ∨ fb.bpp = 15 ∨ fb.bpp = 16 ∨ fb.bpp = 24 ∨ fb.bpp = 32
  row_le : pixelSize fb.bpp * fb.width ≤ fb.pitch
  dvd : fb.bpp ≠ 24 → pixelSize fb.bpp ∣ fb.pitch
  size_lt : fb.pitch * fb.height < 2 ^ 32
  pitch_lt : fb.pitch < 2 ^ 32

variable {fb} {x y w h : ℕ} {p : ℕ × ℕ} {color : BitVec 32}

/-- One row more. -/
theorem place_succ_row : fb.place (x, y + 1) = fb.place (x, y) + fb.pitch := by
  simp only [place, Nat.mul_add]
  omega

/-- Some columns more. -/
theorem place_add_column : fb.place (x + w, y) = fb.place (x, y) + pixelSize fb.bpp * w := by
  simp only [place, Nat.mul_add]
  omega

/-- **Pixels do not overlap.** -/
theorem Linear.cellsApart (h : fb.Linear) : CellsApart fb.place (pixelSize fb.bpp) fb.visible := by
  rintro ⟨x, y⟩ ⟨hx, -⟩ ⟨x', y'⟩ ⟨hx', -⟩ hne
  have hrow := h.row_le
  -- the end of a pixel is in its line
  have hend : ∀ {x}, x < fb.width → pixelSize fb.bpp * x + pixelSize fb.bpp ≤ fb.pitch := by
    intro x hx
    exact (Nat.mul_le_mul_left (pixelSize fb.bpp) hx).trans hrow
  have hlines : ∀ {y y'}, y < y' → fb.pitch * y + fb.pitch ≤ fb.pitch * y' := fun hlt =>
    Nat.mul_le_mul_left fb.pitch hlt
  have hcolumns : ∀ {x x'}, x < x' → pixelSize fb.bpp * x + pixelSize fb.bpp ≤
      pixelSize fb.bpp * x' := fun hlt => Nat.mul_le_mul_left _ hlt
  have hx₁ : pixelSize fb.bpp * x + pixelSize fb.bpp ≤ fb.pitch := hend hx
  have hx₂ : pixelSize fb.bpp * x' + pixelSize fb.bpp ≤ fb.pitch := hend hx'
  simp only [place]
  -- pixels of two lines, or of one
  rcases Nat.lt_trichotomy y y' with hlt | rfl | hlt
  · have hline := hlines hlt
    omega
  · rcases Nat.lt_trichotomy x x' with hlt | rfl | hlt
    · have hcolumn := hcolumns hlt
      omega
    · exact absurd rfl hne
    · have hcolumn := hcolumns hlt
      omega
  · have hline := hlines hlt
    omega

/-- A line begins in the first 4 GiB of the buffer. -/
theorem Linear.line_mod (h : fb.Linear) (hy : y ≤ fb.height) :
    fb.pitch * y % 2 ^ 32 = fb.pitch * y :=
  Nat.mod_eq_of_lt ((Nat.mul_le_mul_left _ hy).trans_lt h.size_lt)

theorem Linear.column_mod (h : fb.Linear) (hx : x ≤ fb.width) :
    pixelSize fb.bpp * x % 2 ^ 32 = pixelSize fb.bpp * x :=
  Nat.mod_eq_of_lt (((Nat.mul_le_mul_left _ hx).trans h.row_le).trans_lt h.pitch_lt)

end Framebuffer

/-! ### What is stored for a pixel -/

section Stores

variable {color : BitVec 32} {pixel : ℕ} {m : Mem}

theorem ofNat_byte (i : ℕ) (color : BitVec 32) :
    UInt8.ofNat (color >>> i &&& 0xFF).toNat = UInt8.ofNat (color.toNat / 2 ^ i) := by
  have hbyte : (color >>> i &&& 0xFF).toNat = color.toNat / 2 ^ i % 256 := by
    rw [BitVec.toNat_and, BitVec.toNat_ushiftRight, Nat.shiftRight_eq_div_pow]
    exact Nat.and_two_pow_sub_one_eq_mod _ 8
  refine UInt8.toNat_inj.mp ?_
  rw [hbyte, UInt8.toNat_ofNat', UInt8.toNat_ofNat']
  exact Nat.mod_mod _ _

/-- The three stores together. -/
theorem storeRgb_eq : storeRgb color pixel m = m.write pixel (pixelBytes 24 color) := by
  have h₀ : UInt8.ofNat (color &&& 0xFF).toNat = UInt8.ofNat color.toNat := by
    have h := ofNat_byte 0 color
    rwa [BitVec.ushiftRight_zero, pow_zero, Nat.div_one] at h
  have h₁ := write_write m pixel [UInt8.ofNat color.toNat] [UInt8.ofNat (color.toNat / 2 ^ 8)]
  have h₂ := write_write m pixel [UInt8.ofNat color.toNat, UInt8.ofNat (color.toNat / 2 ^ 8)]
    [UInt8.ofNat (color.toNat / 2 ^ 16)]
  simp only [List.length_cons, List.length_nil, List.cons_append, List.nil_append] at h₁ h₂
  simp only [storeRgb, h₀, ofNat_byte]
  rw [h₁, h₂]
  simp [pixelBytes, pixelSize, leBytes, Nat.div_div_eq_div_mul]

/-- The fourth byte of a number of four. -/
theorem toNat_and_top {v : ℕ} (h : v < 2 ^ 32) :
    (BitVec.ofNat 32 v &&& 0xFF000000).toNat = v / 2 ^ 24 * 2 ^ 24 := by
  have hmask : (0xFF000000 : ℕ) = (2 ^ (64 - 24) - 1) <<< 24 &&& (2 ^ 32 - 1) := by decide
  have hand : (BitVec.ofNat 32 v &&& 0xFF000000).toNat = v &&& 0xFF000000 := by
    rw [BitVec.toNat_and, BitVec.toNat_ofNat, Nat.mod_eq_of_lt h]
    rfl
  rw [hand, hmask, ← Nat.and_assoc, and_highMask (by decide) (by omega),
    Nat.and_two_pow_sub_one_eq_mod]
  omega

/-- **The store of four bytes** puts the fourth one back. -/
theorem store_keep_top : m.store pixel 4 (color &&& 0xFFFFFF |||
    BitVec.ofNat 32 (m.load pixel 4) &&& 0xFF000000).toNat =
    m.write pixel (pixelBytes 24 color) := by
  have hlow : (color &&& 0xFFFFFF).toNat = color.toNat % 2 ^ 24 := by
    rw [BitVec.toNat_and]
    exact Nat.and_two_pow_sub_one_eq_mod _ 24
  have hlt : color.toNat % 2 ^ 24 < 2 ^ 24 := Nat.mod_lt _ (by decide)
  have hload : m.load pixel 4 = m.load pixel 3 + 256 ^ 3 * (m (pixel + 3)).toNat := by
    rw [Mem.load, read_add m pixel 3 1, leNat_append, length_read]
    rfl
  -- the four bytes that are stored: those of the colour, and the fourth that was loaded
  have hlow' : m.load pixel 3 < 2 ^ 24 := m.load_lt pixel 3
  have htop : m.load pixel 4 / 2 ^ 24 * 2 ^ 24 = 2 ^ 24 * (m (pixel + 3)).toNat := by omega
  have hbytes : leBytes 4 (2 ^ 24 * (m (pixel + 3)).toNat + color.toNat % 2 ^ 24) =
      pixelBytes 24 color ++ [m (pixel + 3)] := by
    have hthree : leBytes 3 (2 ^ 24 * (m (pixel + 3)).toNat + color.toNat % 2 ^ 24) =
        leBytes 3 color.toNat := leBytes_congr (by omega)
    have hdiv : (2 ^ 24 * (m (pixel + 3)).toNat + color.toNat % 2 ^ 24) / 256 ^ 3 =
        (m (pixel + 3)).toNat := by omega
    have hone : leBytes 1 (m (pixel + 3)).toNat = [m (pixel + 3)] := by
      rw [leBytes_succ, leBytes_zero, UInt8.ofNat_toNat]
    rw [leBytes_add 3 1, hthree, hdiv, hone]
    rfl
  rw [BitVec.toNat_or, hlow, toNat_and_top (m.load_lt pixel 4), htop, Nat.or_comm,
    ← Nat.two_pow_add_eq_or_of_lt hlt, Mem.store, hbytes, ← write_write]
  -- the fourth byte is what it was
  funext b
  rw [write_singleton]
  by_cases hb : b = pixel + (pixelBytes 24 color).length
  · subst hb
    rw [Function.update_self, write_of_notMem (Or.inr (Nat.le_refl _))]
    rfl
  · rw [Function.update_of_ne hb]

end Stores

/-! ### What the functions paint -/

section Fill

variable {put : ℕ → Mem → Mem} {size skip pitch n : ℕ} {paint : List UInt8} {V : Set (ℕ × ℕ)}
  {place : ℕ × ℕ → ℕ} {x y w h : ℕ}

open Framebuffer

/-- **The inner loop** paints a row. -/
theorem fillColumns_paints (hV : CellsApart place paint.length V)
    (hput : ∀ p ∈ V, Paints place paint {p} (put (place p)))
    (hcolumn : ∀ x y, place (x + 1, y) = place (x, y) + size) (hrect : rect x y w 1 ⊆ V) :
    (∀ m, (fillColumns put size w (place (x, y)) m).1 = place (x + w, y)) ∧
      Paints place paint (rect x y w 1) fun m => (fillColumns put size w (place (x, y)) m).2 := by
  induction w generalizing x with
  | zero =>
    have hempty : rect x y 0 1 = ∅ := Set.eq_empty_of_forall_notMem fun p hp => by
      simp only [rect, Set.mem_ofPred_eq] at hp
      omega
    rw [hempty]
    exact ⟨fun _ => rfl, Paints.id⟩
  | succ w ih =>
    have hsplit : rect x y (w + 1) 1 = {(x, y)} ∪ rect (x + 1) y w 1 := by
      ext ⟨a, b⟩
      simp only [rect, Set.mem_ofPred_eq, Set.mem_union, Set.mem_singleton_iff, Prod.mk.injEq]
      omega
    rw [hsplit, Set.union_subset_iff, Set.singleton_subset_iff] at hrect
    obtain ⟨hend, hpaints⟩ := ih hrect.2
    rw [hcolumn] at hend hpaints
    constructor
    · intro m
      rw [fillColumns, hend, Nat.add_right_comm, Nat.add_assoc]
    · rw [hsplit]
      exact (hput _ hrect.1).comp hV (Set.singleton_subset_iff.mpr hrect.1) hrect.2 hpaints

/-- **The outer loop** paints a rectangle. -/
theorem fillRows_paints (hV : CellsApart place paint.length V)
    (hput : ∀ p ∈ V, Paints place paint {p} (put (place p)))
    (hcolumn : ∀ x y, place (x + 1, y) = place (x, y) + size)
    (hrow : ∀ y, place (x + w, y) + skip = place (x, y + 1)) (hrect : rect x y w h ⊆ V) :
    Paints place paint (rect x y w h) (fillRows put size skip w h (place (x, y))) := by
  induction h generalizing y with
  | zero =>
    have hempty : rect x y w 0 = ∅ := Set.eq_empty_of_forall_notMem fun p hp => by
      simp only [rect, Set.mem_ofPred_eq] at hp
      omega
    rw [hempty]
    exact Paints.id
  | succ h ih =>
    have hsplit : rect x y w (h + 1) = rect x y w 1 ∪ rect x (y + 1) w h := by
      ext ⟨a, b⟩
      simp only [rect, Set.mem_ofPred_eq, Set.mem_union]
      omega
    rw [hsplit, Set.union_subset_iff] at hrect
    obtain ⟨hend, hpaints⟩ := fillColumns_paints hV hput hcolumn hrect.1
    have hrest : fillRows put size skip w (h + 1) (place (x, y)) = fun m =>
        fillRows put size skip w h (place (x, y + 1))
          (fillColumns put size w (place (x, y)) m).2 := by
      funext m
      rw [fillRows, ← hrow, ← hend m]
    rw [hsplit, hrest]
    exact hpaints.comp hV hrect.1 hrect.2 (ih hrect.2)

end Fill

namespace Framebuffer

section Paints

variable {fb : Framebuffer} {x y w h : ℕ} {p : ℕ × ℕ} {color : BitVec 32} {m : Mem}

theorem length_pixelBytes (bpp : ℕ) (color : BitVec 32) :
    (pixelBytes bpp color).length = pixelSize bpp := length_leBytes _ _

/-- **`fb_putpixel`** paints its pixel. -/
theorem putpixel_eq (hfb : fb.Linear) (hp : p ∈ fb.visible) :
    fb.fbPutpixel p.1 p.2 color m = m.write (fb.place p) (pixelBytes fb.bpp color) := by
  have hline := hfb.line_mod (Nat.le_of_lt hp.2)
  have hcolumn := hfb.column_mod (Nat.le_of_lt hp.1)
  rw [place]
  rcases hfb.bpp with h | h | h | h | h
  · rw [fbPutpixel, h, hline, pixelSize, Nat.one_mul]
    rfl
  all_goals rw [h, pixelSize] at hcolumn
  · rw [fbPutpixel, h, hline, hcolumn]
    rfl
  · rw [fbPutpixel, h, hline, hcolumn]
    rfl
  · rw [fbPutpixel, h, hline, hcolumn]
    exact store_keep_top
  · rw [fbPutpixel, h, hline, hcolumn]
    rfl

theorem putpixel_paints (color : BitVec 32) (hfb : fb.Linear) (hp : p ∈ fb.visible) :
    Paints fb.place (pixelBytes fb.bpp color) {p} (fb.fbPutpixel p.1 p.2 color) := by
  have heq : fb.fbPutpixel p.1 p.2 color = fun m =>
      m.write (fb.place p) (pixelBytes fb.bpp color) :=
    funext fun m => putpixel_eq hfb hp
  rw [heq]
  exact Paints.write _ _ _

/-- A rectangle of the screen. -/
theorem rect_subset_visible (hx : x + w ≤ fb.width) (hy : y + h ≤ fb.height) :
    rect x y w h ⊆ fb.visible := by
  rintro ⟨a, b⟩ hab
  simp only [rect, visible, Set.mem_ofPred_eq] at hab ⊢
  omega

/-- What is behind a row of the rectangle, up to its next row. -/
theorem Linear.skip_eq (hfb : fb.Linear) (hx : x + w ≤ fb.width) (y : ℕ) :
    fb.place (x + w, y) + (fb.pitch - pixelSize fb.bpp * w) = fb.place (x, y + 1) := by
  have hrow := (Nat.mul_le_mul_left (pixelSize fb.bpp) hx).trans hfb.row_le
  rw [place_add_column, place_succ_row]
  rw [Nat.mul_add] at hrow
  omega

/-- **The loops of `fb_video_fillrect`**, if what they store is a pixel, the pointer starts at
the first one, and what it skips is the rest of the line. -/
theorem Linear.fillRows_paints {put : ℕ → Mem → Mem} {size skip pixel : ℕ} (hfb : fb.Linear)
    (hx : x + w ≤ fb.width) (hy : y + h ≤ fb.height)
    (hput : ∀ q m, put q m = m.write q (pixelBytes fb.bpp color)) (hsize : size = pixelSize fb.bpp)
    (hskip : skip = fb.pitch - pixelSize fb.bpp * w) (hpixel : pixel = fb.place (x, y)) :
    Paints fb.place (pixelBytes fb.bpp color) (rect x y w h)
      (fillRows put size skip w h pixel) := by
  subst hsize hskip hpixel
  have hV := hfb.cellsApart
  rw [← length_pixelBytes fb.bpp color] at hV
  refine Xana.fillRows_paints hV (fun p _ => ?_) (fun x y => ?_) (hfb.skip_eq hx)
    (rect_subset_visible hx hy)
  · have hwrite : put (fb.place p) = fun m => m.write (fb.place p) (pixelBytes fb.bpp color) :=
      funext fun m => hput _ m
    rw [hwrite]
    exact Paints.write _ _ _
  · rw [place_add_column, Nat.mul_one]

/-- **`fb_video_fillrect`** paints its rectangle. -/
theorem fillrect_paints (color : BitVec 32) (hfb : fb.Linear) (hx : x + w ≤ fb.width)
    (hy : y + h ≤ fb.height) :
    Paints fb.place (pixelBytes fb.bpp color) (rect x y w h)
      (fb.fbVideoFillrect x y w h color) := by
  have hline := hfb.line_mod (y := y) (by omega)
  have hcolumn := hfb.column_mod (x := x) (by omega)
  have hwidth := hfb.column_mod (x := w) (by omega)
  have hpitch := hfb.pitch_lt
  have hrow := (Nat.mul_le_mul_left (pixelSize fb.bpp) (Nat.le_of_add_left_le hx)).trans hfb.row_le
  have hdvd := hfb.dvd
  have hplace : fb.place (x, y) = fb.video + fb.pitch * y + pixelSize fb.bpp * x := rfl
  have hpaints := @Linear.fillRows_paints fb x y w h color
  change Paints _ _ _ fun m => fb.fbVideoFillrect x y w h color m
  -- one branch for each depth: the pointer starts at the first pixel, and `fb.pitch` less a row
  -- of the rectangle does not wrap
  rcases hfb.bpp with hbpp | hbpp | hbpp | hbpp | hbpp
  all_goals
    simp only [fbVideoFillrect, hbpp]
    rw [hbpp] at hpaints hrow hcolumn hwidth hdvd hplace
    simp only [pixelSize] at hpaints hrow hcolumn hwidth hdvd hplace
  · refine hpaints hfb hx hy (fun _ _ => rfl) rfl (by omega) ?_
    rw [hplace, hline, Nat.one_mul]
  · refine hpaints hfb hx hy (fun _ _ => rfl) rfl (by omega) ?_
    rw [hplace, hline, hcolumn]
  · refine hpaints hfb hx hy (fun _ _ => rfl) rfl (by omega) ?_
    rw [hplace, hline, hcolumn]
  · refine hpaints hfb hx hy (fun _ _ => storeRgb_eq) rfl (by omega) ?_
    rw [hplace, hline, hcolumn]
  · refine hpaints hfb hx hy (fun _ _ => rfl) rfl (by omega) ?_
    rw [hplace, hline, hcolumn]

/-- `fb_putpixel` for some pixels, one after the other. -/
def putPixels (fb : Framebuffer) (pixels : List (ℕ × ℕ)) (color : BitVec 32) (m : Mem) : Mem :=
  pixels.foldl (fun m p => fb.fbPutpixel p.1 p.2 color m) m

theorem putPixels_paints (color : BitVec 32) (hfb : fb.Linear) {pixels : List (ℕ × ℕ)}
    (hpixels : ∀ p ∈ pixels, p ∈ fb.visible) :
    Paints fb.place (pixelBytes fb.bpp color) {p | p ∈ pixels} (fb.putPixels pixels color) := by
  have hV := hfb.cellsApart
  rw [← length_pixelBytes fb.bpp color] at hV
  exact Paints.foldl hV (fun p hp => putpixel_paints color hfb (hpixels p hp)) hpixels

/-- **Filling a rectangle is putting its pixels**, in any order, and no byte outside them
changes. -/
theorem fillrect_eq_putpixels (hfb : fb.Linear) (hx : x + w ≤ fb.width) (hy : y + h ≤ fb.height) :
    (∀ pixels : List (ℕ × ℕ), (∀ p, p ∈ pixels ↔ p ∈ rect x y w h) →
      fb.fbVideoFillrect x y w h color m = fb.putPixels pixels color m) ∧
      ∀ b, (∀ p ∈ rect x y w h, b < fb.place p ∨ fb.place p + pixelSize fb.bpp ≤ b) →
        fb.fbVideoFillrect x y w h color m b = m b := by
  have hfill := fillrect_paints color hfb hx hy
  constructor
  · intro pixels hpixels
    have hput := putPixels_paints color hfb fun p hp =>
      rect_subset_visible hx hy ((hpixels p).mp hp)
    have hset : {p | p ∈ pixels} = rect x y w h := Set.ext hpixels
    rw [hset] at hput
    exact congrFun (hfill.eq hput) m
  · intro b hb
    refine hfill.kept m b ?_
    rwa [length_pixelBytes]

/-- A framebuffer of ten by four pixels of 24 bits, whose lines are padded. -/
def smallFramebuffer : Framebuffer :=
  { width := 10, height := 4, fontHeight := 2, mode := .rgb, video := 0x1000,
    bpp := 24, pitch := 35 }

theorem linear_smallFramebuffer : smallFramebuffer.Linear where
  bpp := by decide
  row_le := by decide
  dvd := by decide
  size_lt := by decide
  pitch_lt := by decide

/-- A memory in which no two neighbours are the same byte. -/
def countingMem : Mem := fun b => UInt8.ofNat b

theorem fillrect_eq_putpixels_small :
    smallFramebuffer.fbVideoFillrect 8 1 2 2 0x123456 countingMem =
      smallFramebuffer.putPixels [(8, 1), (9, 1), (8, 2), (9, 2)] 0x123456 countingMem := by
  refine (fillrect_eq_putpixels linear_smallFramebuffer (by decide) (by decide)).1 _ fun p => ?_
  obtain ⟨a, b⟩ := p
  simp only [rect, Set.mem_ofPred_eq, List.mem_cons, Prod.mk.injEq, List.not_mem_nil, or_false]
  omega

end Paints

end Framebuffer

end Xana
