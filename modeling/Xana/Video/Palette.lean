import Mathlib.Tactic.Linarith
import Mathlib.Tactic.Ring
import Xana.Lib.FirstMin
import Xana.Video.Colors

/-!
# The closest colour of a palette

`color_distance` subtracts unsigned numbers, so a difference may wrap; its square does not
show it (`Xana.toNat_sub_mul_sub`). The loop of `framebuffer_get_color` then takes the first
of the closest colours (`Xana.framebufferGetColor_closest`).
-/

namespace Xana

/-- The red, green and blue parts of a colour. -/
def rgbParts (color : BitVec 32) : ℕ × ℕ × ℕ :=
  (color.toNat / 2 ^ 16 % 256, color.toNat / 2 ^ 8 % 256, color.toNat % 256)

/-- **The square of the distance** of two colours. -/
def squaredDistance (c c' : ℕ × ℕ × ℕ) : ℤ :=
  ((c.1 : ℤ) - c'.1) ^ 2 + ((c.2.1 : ℤ) - c'.2.1) ^ 2 + ((c.2.2 : ℤ) - c'.2.2) ^ 2

/-- The parts are bytes. -/
def IsRgb (c : ℕ × ℕ × ℕ) : Prop := c.1 < 256 ∧ c.2.1 < 256 ∧ c.2.2 < 256

section Distance

variable {color color' : BitVec 32} {r g b : ℕ} {c c' : ℕ × ℕ × ℕ}

theorem isRgb_rgbParts (color : BitVec 32) : IsRgb (rgbParts color) :=
  ⟨Nat.mod_lt _ (by decide), Nat.mod_lt _ (by decide), Nat.mod_lt _ (by decide)⟩

/-- The square of a difference of two bytes. -/
theorem sq_sub_le {a b : ℕ} (ha : a < 256) (hb : b < 256) : ((a : ℤ) - b) ^ 2 ≤ 65025 := by
  have hlow : -255 ≤ (a : ℤ) - b := by omega
  have hhigh : (a : ℤ) - b ≤ 255 := by omega
  nlinarith

/-- **The square of a difference does not wrap**, even where the difference does. -/
theorem toNat_sub_mul_sub {x y : BitVec 32} (hx : x.toNat < 256) (hy : y.toNat < 256) :
    (((x - y) * (x - y)).toNat : ℤ) = ((x.toNat : ℤ) - y.toNat) ^ 2 := by
  have hsquare : ∀ {u v : BitVec 32}, v.toNat ≤ u.toNat → u.toNat < 256 →
      (((u - v) * (u - v)).toNat : ℤ) = ((u.toNat : ℤ) - v.toNat) ^ 2 := by
    intro u v hle hu
    have hsub : (u - v).toNat = u.toNat - v.toNat := BitVec.toNat_sub_of_le hle
    have hlt : (u.toNat - v.toNat) * (u.toNat - v.toNat) < 2 ^ 32 :=
      (Nat.mul_le_mul (by omega : _ ≤ 255) (by omega : _ ≤ 255)).trans_lt (by decide)
    rw [BitVec.toNat_mul, hsub, Nat.mod_eq_of_lt hlt, Nat.cast_mul, Nat.cast_sub hle]
    ring
  rcases Nat.le_total y.toNat x.toNat with hle | hle
  · exact hsquare hle hx
  · -- the difference wraps, and its square is that of the one which does not
    have hneg : (x - y) * (x - y) = (y - x) * (y - x) := by
      rw [← neg_sub y x, neg_mul_neg]
    rw [hneg, hsquare hle hy]
    ring

/-- The sum of three squares does not wrap. -/
theorem toNat_add_add {x y z : BitVec 32} {a b c : ℤ} (hx : (x.toNat : ℤ) = a)
    (hy : (y.toNat : ℤ) = b) (hz : (z.toNat : ℤ) = c) (ha : a ≤ 65025) (hb : b ≤ 65025)
    (hc : c ≤ 65025) : ((x + y + z).toNat : ℤ) = a + b + c := by
  rw [BitVec.toNat_add, BitVec.toNat_add]
  omega

/-- A part of a colour. -/
theorem toNat_part (color : BitVec 32) (i : ℕ) :
    (color >>> i &&& 0xFF).toNat = color.toNat / 2 ^ i % 256 := by
  rw [BitVec.toNat_and, BitVec.toNat_ushiftRight, Nat.shiftRight_eq_div_pow]
  exact Nat.and_two_pow_sub_one_eq_mod _ 8

/-- **`color_distance`** is the square of the distance. -/
theorem toNat_colorDistance :
    ((colorDistance color color').toNat : ℤ) =
      squaredDistance (rgbParts color) (rgbParts color') := by
  obtain ⟨hr, hg, hb⟩ := isRgb_rgbParts color
  obtain ⟨hr', hg', hb'⟩ := isRgb_rgbParts color'
  have hlow : ∀ color : BitVec 32, (color &&& 0xFF).toNat = color.toNat % 256 := fun color => by
    have hpart := toNat_part color 0
    rwa [BitVec.ushiftRight_zero, pow_zero, Nat.div_one] at hpart
  have hred := toNat_sub_mul_sub (x := color >>> 16 &&& 0xFF) (y := color' >>> 16 &&& 0xFF)
    (by rw [toNat_part]; exact hr) (by rw [toNat_part]; exact hr')
  have hgreen := toNat_sub_mul_sub (x := color >>> 8 &&& 0xFF) (y := color' >>> 8 &&& 0xFF)
    (by rw [toNat_part]; exact hg) (by rw [toNat_part]; exact hg')
  have hblue := toNat_sub_mul_sub (x := color &&& 0xFF) (y := color' &&& 0xFF)
    (by rw [hlow]; exact hb) (by rw [hlow]; exact hb')
  rw [toNat_part, toNat_part] at hred hgreen
  rw [hlow, hlow] at hblue
  exact toNat_add_add hred hgreen hblue (sq_sub_le hr hr') (sq_sub_le hg hg') (sq_sub_le hb hb')

/-- The parts of a colour that is put together. -/
theorem rgbParts_rgb2color (h : IsRgb (r, g, b)) : rgbParts (rgb2color r g b) = (r, g, b) := by
  obtain ⟨hr, hg, hb⟩ := h
  simp only at hr hg hb
  have hor : r <<< 16 ||| g <<< 8 ||| b = r * 2 ^ 16 + g * 2 ^ 8 + b := by
    have hlow : g <<< 8 ||| b = 2 ^ 8 * g + b := by
      rw [Nat.shiftLeft_eq, Nat.mul_comm, Nat.two_pow_add_eq_or_of_lt hb]
    have hhigh : r <<< 16 ||| (2 ^ 8 * g + b) = 2 ^ 16 * r + (2 ^ 8 * g + b) := by
      rw [Nat.shiftLeft_eq, Nat.mul_comm]
      exact (Nat.two_pow_add_eq_or_of_lt (by omega) r).symm
    rw [Nat.or_assoc, hlow, hhigh]
    omega
  have hnat : (rgb2color r g b).toNat = r * 2 ^ 16 + g * 2 ^ 8 + b := by
    rw [rgb2color, hor, BitVec.toNat_ofNat]
    omega
  rw [rgbParts, hnat]
  simp only [Prod.mk.injEq]
  omega

/-- No two colours are farther from each other than the loop allows for. -/
theorem squaredDistance_lt (h : IsRgb c) (h' : IsRgb c') :
    squaredDistance c c' < 4 * 256 * 256 := by
  have hr := sq_sub_le h.1 h'.1
  have hg := sq_sub_le h.2.1 h'.2.1
  have hb := sq_sub_le h.2.2 h'.2.2
  rw [squaredDistance]
  omega

end Distance

section Palette

variable {desired best : BitVec 32} {palette : List (ℕ × ℕ × ℕ)} {i closest : ℕ}

/-- The loop over the palette is one over the distances. -/
theorem closestColor_eq (hpalette : ∀ c ∈ palette, IsRgb c) :
    closestColor desired palette i best closest =
      scanMin (palette.map (squaredDistance (rgbParts desired))) i (best.toNat : ℤ) closest := by
  induction palette generalizing i best closest with
  | nil => rfl
  | cons c palette ih =>
    obtain ⟨hc, hrest⟩ := List.forall_mem_cons.mp hpalette
    obtain ⟨r, g, b⟩ := c
    have hdistance : ((colorDistance desired (rgb2color r g b)).toNat : ℤ) =
        squaredDistance (rgbParts desired) (r, g, b) := by
      rw [toNat_colorDistance, rgbParts_rgb2color hc]
    rw [closestColor, List.map_cons, scanMin, ← hdistance]
    simp only [BitVec.lt_def, Nat.cast_lt]
    split_ifs
    · exact ih hrest
    · exact ih hrest

/-- **`framebuffer_get_color` takes the first of the closest colours** of a palette. -/
theorem framebufferGetColor_closest (hne : palette ≠ []) (hlength : palette.length ≤ 2 ^ 32)
    (hpalette : ∀ c ∈ palette, IsRgb c) (desired : BitVec 32) : ∃ least,
      IsFirstMin (palette.map (squaredDistance (rgbParts desired)))
        (framebufferGetColor (.indexed palette) desired).toNat least := by
  have hmin : ∃ least, IsFirstMin (palette.map (squaredDistance (rgbParts desired)))
      (scanMin (palette.map (squaredDistance (rgbParts desired))) 0 (4 * 256 * 256) 0) least := by
    refine isFirstMin_scanMin (by simpa using hne) fun w hw => ?_
    obtain ⟨c, hc, rfl⟩ := List.mem_map.mp hw
    exact squaredDistance_lt (isRgb_rgbParts desired) (hpalette c hc)
  obtain ⟨least, hmin⟩ := hmin
  have hloop : closestColor desired palette 0 (4 * 256 * 256) 0 =
      scanMin (palette.map (squaredDistance (rgbParts desired))) 0 (4 * 256 * 256) 0 :=
    closestColor_eq hpalette
  have hlt := hmin.lt_length
  rw [List.length_map] at hlt
  rw [framebufferGetColor, BitVec.toNat_ofNat, hloop, Nat.mod_eq_of_lt (hlt.trans_le hlength)]
  exact ⟨least, hmin⟩

theorem framebufferGetColor_closest_gray : ∃ least,
    IsFirstMin ([(0, 0, 0), (255, 0, 0), (200, 200, 200), (200, 200, 200)].map
      (squaredDistance (rgbParts 0xAAAAAA)))
      (framebufferGetColor (.indexed [(0, 0, 0), (255, 0, 0), (200, 200, 200), (200, 200, 200)])
        0xAAAAAA).toNat least :=
  framebufferGetColor_closest (by decide) (by decide) (by simp [IsRgb]) _

end Palette

end Xana
