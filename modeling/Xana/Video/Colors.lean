import Mathlib.Data.BitVec

/-!
# Colours

The colours that an escape sequence ending in `m` chooses. The numbers between the
semicolons go one by one to `handle_escape_sequence_color`, which is a small machine: the
codes 38 and 48 make the numbers behind them one of 256 colours.

A colour is given by its red, green and blue parts; `framebuffer_get_color` turns it into
what the framebuffer stores for it.
-/

namespace Xana

/-- `RGB2COLOR` -/
def rgb2color (r g b : ℕ) : BitVec 32 := BitVec.ofNat 32 (r <<< 16 ||| g <<< 8 ||| b)

/-- The `framebuffer_type` of a linear mode, with the palette of an indexed one. -/
inductive ColorMode
  | indexed (palette : List (ℕ × ℕ × ℕ))
  | rgb
  /-- A type that `framebuffer_get_color` does not know. -/
  | unknown

/-- `color_distance` -/
def colorDistance (color1 color2 : BitVec 32) : BitVec 32 :=
  let dr := (color1 >>> 16 &&& 0xFF) - (color2 >>> 16 &&& 0xFF)
  let dg := (color1 >>> 8 &&& 0xFF) - (color2 >>> 8 &&& 0xFF)
  let db := (color1 &&& 0xFF) - (color2 &&& 0xFF)
  dr * dr + dg * dg + db * db

/-- The loop over the palette, from the `i`-th colour, with the best one so far. -/
def closestColor (desired : BitVec 32) : List (ℕ × ℕ × ℕ) → ℕ → BitVec 32 → ℕ → ℕ
  | [], _, _, closest => closest
  | (r, g, b) :: palette, i, bestDistance, closest =>
      let distance := colorDistance desired (rgb2color r g b)
      if distance < bestDistance then closestColor desired palette (i + 1) distance i
      else closestColor desired palette (i + 1) bestDistance closest

/-- `framebuffer_get_color`, in a linear mode. -/
def framebufferGetColor (mode : ColorMode) (desired : BitVec 32) : BitVec 32 :=
  match mode with
  | .indexed palette => BitVec.ofNat 32 (closestColor desired palette 0 (4 * 256 * 256) 0)
  | .rgb => desired
  | .unknown => 0xFFFFFFFF

/-- The variable `state` of `ansi.c`. -/
inductive AnsiState
  | none
  | extendedFg
  | extendedBg
  | extendedFg256
  | extendedBg256
  deriving DecidableEq

/-- What the colour codes change. -/
structure Colors where
  state : AnsiState
  videoFg : BitVec 32
  videoBg : BitVec 32

namespace Colors

variable (mode : ColorMode)

/-- `video_setfg` -/
def setFg (color : BitVec 32) (s : Colors) : Colors :=
  { s with videoFg := framebufferGetColor mode color }

/-- `video_setbg` -/
def setBg (color : BitVec 32) (s : Colors) : Colors :=
  { s with videoBg := framebufferGetColor mode color }

end Colors

/-- `low_rgb` -/
def lowRgb : ℕ → BitVec 32
  | 0 => rgb2color 0 0 0
  | 1 => rgb2color 128 0 0
  | 2 => rgb2color 0 128 0
  | 3 => rgb2color 128 128 0
  | 4 => rgb2color 0 0 128
  | 5 => rgb2color 128 0 128
  | 6 => rgb2color 0 128 128
  | 7 => rgb2color 192 192 192
  | 8 => rgb2color 128 128 128
  | 9 => rgb2color 255 0 0
  | 10 => rgb2color 0 255 0
  | 11 => rgb2color 255 255 0
  | 12 => rgb2color 0 0 255
  | 13 => rgb2color 255 0 255
  | 14 => rgb2color 0 255 255
  | _ => rgb2color 255 255 255

/-- One part of a colour of the cube: `v ? v * 40 + 55 : 0`. -/
def cubePart (v : ℕ) : ℕ := if v = 0 then 0 else v * 40 + 55

/-- `ansi_216_to_rgb`, of an `uint8_t`. -/
def ansi216ToRgb (ansi : ℕ) : BitVec 32 :=
  if ansi < 16 then lowRgb ansi
  else if 231 < ansi then
    let s := (ansi - 232) * 10 + 8
    rgb2color s s s
  else
    let n := ansi - 16
    let b := n % 6
    let g := (n - b) / 6 % 6
    let r := (n - b - g * 6) / 36 % 6
    rgb2color (cubePart r) (cubePart g) (cubePart b)

/-- The eight colours of the codes from 30 and from 40 on. -/
def darkColor : ℕ → BitVec 32
  | 0 => rgb2color 0 0 0
  | 1 => rgb2color 0xAA 0 0
  | 2 => rgb2color 0 0xAA 0
  | 3 => rgb2color 0xAA 0x55 0
  | 4 => rgb2color 0 0 0xAA
  | 5 => rgb2color 0xAA 0 0xAA
  | 6 => rgb2color 0 0xAA 0xAA
  | _ => rgb2color 0xAA 0xAA 0xAA

/-- The eight colours of the codes from 90 and from 100 on. -/
def lightColor : ℕ → BitVec 32
  | 0 => rgb2color 0x55 0x55 0x55
  | 1 => rgb2color 0xFF 0x55 0x55
  | 2 => rgb2color 0x55 0xFF 0x55
  | 3 => rgb2color 0xFF 0xFF 0x55
  | 4 => rgb2color 0x55 0x55 0xFF
  | 5 => rgb2color 0xFF 0x55 0xFF
  | 6 => rgb2color 0x55 0xFF 0xFF
  | _ => rgb2color 0xFF 0xFF 0xFF

/-- The `switch` of `handle_escape_sequence_color`. -/
def basicColor (mode : ColorMode) (color : ℕ) (s : Colors) : Colors :=
  if color = 0 then (s.setFg mode (rgb2color 0xAA 0xAA 0xAA)).setBg mode (rgb2color 0 0 0)
  else if 30 ≤ color ∧ color ≤ 37 then s.setFg mode (darkColor (color - 30))
  else if color = 38 then { s with state := .extendedFg }
  else if 40 ≤ color ∧ color ≤ 47 then s.setBg mode (darkColor (color - 40))
  else if color = 48 then { s with state := .extendedBg }
  else if 90 ≤ color ∧ color ≤ 97 then s.setFg mode (lightColor (color - 90))
  else if 100 ≤ color ∧ color ≤ 107 then s.setBg mode (lightColor (color - 100))
  else s

/-- `handle_escape_sequence_color` -/
def handleEscapeSequenceColor (mode : ColorMode) (color : ℕ) (s : Colors) : Colors :=
  match s.state with
  | .none => basicColor mode color s
  | .extendedFg => { s with state := if color = 5 then .extendedFg256 else .none }
  | .extendedBg => { s with state := if color = 5 then .extendedBg256 else .none }
  | .extendedFg256 => { s.setFg mode (ansi216ToRgb (color % 256)) with state := .none }
  | .extendedBg256 => { s.setBg mode (ansi216ToRgb (color % 256)) with state := .none }

/-- `c >= '0' && c <= '9'` -/
def isDigit (c : UInt8) : Bool := 48 ≤ c && c ≤ 57

/-- `value * 10 + (c - '0')`, as an `uint32_t`. -/
def addDigit (value : ℕ) (c : UInt8) : ℕ := (value * 10 + (c.toNat - 48)) % 2 ^ 32

/-- The loop of `parse_escape_sequence` over the colour codes, in at most `n` rounds. -/
def colorCodes (mode : ColorMode) : ℕ → (ℕ → UInt8) → ℕ → Colors → Option Colors
  | 0, _, _, _ => none
  | n + 1, seq, color, s =>
      if seq 0 = 109 then some (handleEscapeSequenceColor mode color s)
      else if isDigit (seq 0) then
        colorCodes mode n (fun i => seq (i + 1)) (addDigit color (seq 0)) s
      else if seq 0 = 59 then
        colorCodes mode n (fun i => seq (i + 1)) 0 (handleEscapeSequenceColor mode color s)
      else colorCodes mode n (fun i => seq (i + 1)) color s

end Xana
