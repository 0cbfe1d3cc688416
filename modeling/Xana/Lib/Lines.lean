import Mathlib.Algebra.Order.Ring.Nat
import Mathlib.Logic.Function.Basic

/-!
# Positions on padded lines

A picture is stored line by line, a line being `width` bytes that are seen and then some
padding, `pitch` bytes together. Who sees only the former counts them from the first line
on: position `p` is the byte at `Xana.lineOffset width pitch p`. Different positions are
different bytes (`Xana.lineOffset_injective`), and along a line the bytes follow each other
(`Xana.lineOffset_add`).

What is moved between a range of positions and something else is moved in pieces, each of
which is along one line. What the pieces do together does not depend on how the range is
cut: `Xana.Piecewise` says what is needed of the relation between before and after.
-/

namespace Xana

/-- The byte at a position. -/
def lineOffset (width pitch p : ℕ) : ℕ := p / width * pitch + p % width

section Offset

variable {width pitch p q x y j : ℕ}

/-- The line and the column can be told from the byte. -/
theorem div_mod_of_lt (hx : x < width) :
    (y * width + x) / width = y ∧ (y * width + x) % width = x := by
  have hpos : 0 < width := Nat.zero_lt_of_lt hx
  rw [mul_comm, Nat.mul_add_div hpos, Nat.mul_add_mod, Nat.div_eq_of_lt hx, Nat.mod_eq_of_lt hx]
  exact ⟨rfl, rfl⟩

/-- **Along a line.** -/
theorem lineOffset_add (hx : x + j < width) :
    lineOffset width pitch (y * width + x + j) = y * pitch + x + j := by
  obtain ⟨hdiv, hmod⟩ := div_mod_of_lt (y := y) hx
  rw [lineOffset, add_assoc, hdiv, hmod, add_assoc]

/-- **Different positions are different bytes.** -/
theorem lineOffset_injective (hpos : 0 < width) (hle : width ≤ pitch) :
    Function.Injective (lineOffset width pitch) := by
  intro p q h
  obtain ⟨hline, hcolumn⟩ := div_mod_of_lt (y := p / width) ((Nat.mod_lt p hpos).trans_le hle)
  obtain ⟨hline', hcolumn'⟩ := div_mod_of_lt (y := q / width) ((Nat.mod_lt q hpos).trans_le hle)
  have hdiv : p / width = q / width := by
    rw [← hline, ← hline']
    exact congrArg (· / pitch) h
  have hmod : p % width = q % width := by
    rw [← hcolumn, ← hcolumn']
    exact congrArg (· % pitch) h
  rw [← Nat.div_add_mod p width, ← Nat.div_add_mod q width, hdiv, hmod]

end Offset

/-- **Moving a range in pieces.** `moved i k s t`: what was in `s` is in `t` after the
elements from the `i`-th to the `k`-th have been moved, the `i`-th to or from `place i`. One
piece is `n` elements whose places follow each other from `a` on. -/
structure Piecewise {σ : Type*} (place : ℕ → ℕ) (piece : ℕ → ℕ → ℕ → σ → σ)
    (moved : ℕ → ℕ → σ → σ → Prop) : Prop where
  /-- Nothing has been moved at first. -/
  refl : ∀ i s, moved i i s s
  /-- Two ranges one behind the other make one. -/
  trans : ∀ i j k s t u, i ≤ j → j ≤ k → moved i j s t → moved j k t u → moved i k s u
  /-- A piece moves its elements. -/
  piece : ∀ a i n s, (∀ j < n, place (i + j) = a + j) → moved i (i + n) s (piece a i n s)

section Copy

variable {α : Type*}

/-- `n` elements of `src`, from the `i`-th on, copied over those of `dst` from the `a`-th on. -/
def copyRange (dst : ℕ → α) (a : ℕ) (src : ℕ → α) (i n : ℕ) : ℕ → α :=
  fun j => if a ≤ j ∧ j < a + n then src (i + (j - a)) else dst j

variable {src dst : ℕ → α} {place : ℕ → ℕ}

/-- **Copying from a range to its places**, when no two elements have the same. -/
theorem piecewise_scatter (hplace : Function.Injective place) (src : ℕ → α) :
    Piecewise place (fun a i n dst => copyRange dst a src i n) fun i k dst dst' =>
      (∀ j, i ≤ j → j < k → dst' (place j) = src j) ∧
        ∀ p, (∀ j, i ≤ j → j < k → place j ≠ p) → dst' p = dst p := by
  refine ⟨fun i s => ⟨fun j hj hlt => by omega, fun _ _ => rfl⟩, ?_, ?_⟩
  · rintro i j k s t u hij hjk ⟨hst, hst'⟩ ⟨htu, htu'⟩
    refine ⟨fun m hm hlt => ?_, fun p hp => ?_⟩
    · rcases Nat.lt_or_ge m j with hlow | hhigh
      · rw [htu' (place m) fun l hl _ heq => ?_]
        · exact hst m hm hlow
        · -- what comes later goes to other places
          have := hplace heq
          omega
      · exact htu m hhigh hlt
    · rw [htu' p fun l hl hlt => hp l (hij.trans hl) hlt]
      exact hst' p fun l hl hlt => hp l hl (hlt.trans_le hjk)
  · intro a i n s ha
    refine ⟨fun j hj hlt => ?_, fun p hp => ?_⟩
    · obtain ⟨d, rfl⟩ := Nat.exists_eq_add_of_le hj
      have hd : d < n := by omega
      rw [copyRange, ha d hd, if_pos ⟨Nat.le_add_right _ _, by omega⟩]
      congr 1
      omega
    · refine if_neg fun hin => ?_
      refine hp (i + (p - a)) (Nat.le_add_right _ _) (by omega) ?_
      rw [ha _ (by omega)]
      omega

/-- **Copying to a range from its places.** -/
theorem piecewise_gather (place : ℕ → ℕ) (src : ℕ → α) :
    Piecewise place (fun a i n dst => copyRange dst i src a n) fun i k dst dst' =>
      ∀ j, dst' j = if i ≤ j ∧ j < k then src (place j) else dst j := by
  refine ⟨fun i s j => (if_neg (by omega)).symm, ?_, ?_⟩
  · intro i j k s t u hij hjk hst htu m
    rw [htu m, hst m]
    split_ifs
    · rfl
    · omega
    · rfl
    · omega
    · omega
    · rfl
  · intro a i n s ha j
    rw [copyRange]
    split_ifs with hin
    · obtain ⟨d, rfl⟩ := Nat.exists_eq_add_of_le hin.1
      rw [ha d (by omega), Nat.add_sub_cancel_left]
    · rfl

end Copy

end Xana
