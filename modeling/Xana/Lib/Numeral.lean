import Mathlib.Data.Nat.Digits.Lemmas

/-!
# Numerals

The canonical numeral of a number in a base: digits below the base, the most significant one
first, that stand for the number, and no zero in front unless the number is `0`, which is
written with one digit (`Xana.IsNumeral`). There is one for each number
(`Xana.isNumeral_numeral`), and no other (`Xana.IsNumeral.eq_numeral`).

A digit is written as `0` to `9`, and then `a` to `z`.
-/

namespace Xana

/-- **The canonical numeral** of a number, the most significant digit first. -/
structure IsNumeral (base num : ℕ) (digits : List ℕ) : Prop where
  lt : ∀ d ∈ digits, d < base
  value : Nat.ofDigits base digits.reverse = num
  ne_nil : digits ≠ []
  leading : digits.head? = some 0 → digits = [0]

/-- The numeral of a number. -/
def numeral (base num : ℕ) : List ℕ := if num = 0 then [0] else (Nat.digits base num).reverse

/-- The character of a digit. -/
def digitByte (d : ℕ) : UInt8 :=
  if d < 10 then UInt8.ofNat (48 + d) else UInt8.ofNat (97 + (d - 10))

variable {base num d k : ℕ} {digits : List ℕ}

theorem numeral_of_ne_zero (h : num ≠ 0) : numeral base num = (Nat.digits base num).reverse :=
  if_neg h

/-- A number has a canonical numeral. -/
theorem isNumeral_numeral (hbase : 1 < base) (num : ℕ) : IsNumeral base num (numeral base num) := by
  by_cases hnum : num = 0
  · subst hnum
    exact ⟨by simp [numeral]; omega, by simp [numeral], by simp [numeral], fun _ => rfl⟩
  · have hne : Nat.digits base num ≠ [] := Nat.digits_ne_nil_iff_ne_zero.mpr hnum
    rw [numeral_of_ne_zero hnum]
    refine ⟨fun d hd => ?_, ?_, by rwa [ne_eq, List.reverse_eq_nil_iff], fun hhead => ?_⟩
    · exact Nat.digits_lt_base hbase (List.mem_reverse.mp hd)
    · rw [List.reverse_reverse, Nat.ofDigits_digits]
    · rw [List.head?_reverse, List.getLast?_eq_some_getLast hne, Option.some_inj] at hhead
      exact absurd hhead (Nat.getLast_digit_ne_zero base hnum)

/-- **A number has only one canonical numeral.** -/
theorem IsNumeral.eq_numeral (hbase : 1 < base) (h : IsNumeral base num digits) :
    digits = numeral base num := by
  obtain ⟨hlt, hvalue, hne, hleading⟩ := h
  by_cases hhead : digits.head? = some 0
  · obtain rfl := hleading hhead
    obtain rfl : num = 0 := by simpa using hvalue.symm
    rfl
  · -- without a zero in front they are the digits of the number
    have hlast : ∀ hrev : digits.reverse ≠ [], digits.reverse.getLast hrev ≠ 0 := by
      intro hrev hzero
      rw [List.getLast_reverse] at hzero
      exact hhead (by rw [List.head?_eq_some_head hne, hzero])
    have hdigits : Nat.digits base num = digits.reverse := by
      rw [← hvalue]
      exact Nat.digits_ofDigits base hbase digits.reverse
        (fun d hd => hlt d (List.mem_reverse.mp hd)) hlast
    have hnum : num ≠ 0 := by
      rw [← Nat.digits_ne_nil_iff_ne_zero (b := base), hdigits]
      simpa using hne
    rw [numeral_of_ne_zero hnum, hdigits, List.reverse_reverse]

theorem length_numeral_le (hbase : 1 < base) (hk : 0 < k) (h : num < base ^ k) :
    (numeral base num).length ≤ k := by
  by_cases hnum : num = 0
  · subst hnum
    exact hk
  · rw [numeral_of_ne_zero hnum, List.length_reverse]
    exact (Nat.digits_length_le_iff hbase num).mpr h

/-- The value of a numeral, read from the left. -/
theorem ofDigits_reverse (base : ℕ) (digits : List ℕ) :
    Nat.ofDigits base digits.reverse = digits.foldl (fun n d => n * base + d) 0 := by
  rw [Nat.ofDigits_eq_foldr, List.foldr_reverse]
  congr
  funext n d
  rw [Nat.cast_id, Nat.add_comm, Nat.mul_comm]

theorem toNat_digitByte_of_lt (h : d < 10) : (digitByte d).toNat = 48 + d := by
  rw [digitByte, if_pos h]
  change (48 + d) % 256 = 48 + d
  omega

theorem digitByte_ne_zero (h : d < 36) : digitByte d ≠ 0 := by
  revert d
  decide

end Xana
