import Xana.Device.Names
import Xana.Lib.Numeral

/-!
# Numbers as text

`itoa`, `uitoa` and their 64-bit forms take the digits off a number from the last to the
first, and exchange the ends of what they have written. For every base from 2 to 36 the
unsigned ones write the canonical numeral (`Xana.uitoa64_numeral`), and `atoi` reads it back.

In base 10 the signed ones write a sign and go on with `-num`. The least number has no
negative in its type: `-num` is it again (the compiler may do anything; this is what the
instruction does), its remainders are negative, and what is written for them is in front of
`0` in the character table. So there, and only there, no numeral is written
(`Xana.itoa_iff`).

The four functions count the digits in `length`, which nothing reads; it is left out.
-/

namespace Xana

open Mem

/-! ### The functions -/

/-- `(rem > 9) ? (rem - 10) + 'a' : rem + '0'`, cut to a `char`. -/
def digitChar (rem : ℤ) : UInt8 := UInt8.ofInt (if 9 < rem then rem - 10 + 97 else rem + 48)

/-- The loop that writes the digits, in at most so many rounds, in a type of `w` bits. Dividing by 0
faults, and so does the quotient that does not fit in the type. -/
def putDigits (w : ℕ) (base : ℤ) : ℕ → ℤ → ℕ → Mem → Option (ℕ × Mem)
  | 0, _, _, _ => none
  | n + 1, num, ptr, m =>
      if num ≠ 0 then
        -- a division that faults
        if base = 0 ∨ base = -1 ∧ num = -2 ^ (w - 1) then none
        else
          let rem := num.tmod base
          putDigits w base n (num.tdiv base) (ptr + 1) (m.write ptr [digitChar rem])
      else some (ptr, m)

/-- The loop that exchanges the ends, in at most so many rounds. -/
def swapEnds : ℕ → ℕ → ℕ → Mem → Option Mem
  | 0, _, _, _ => none
  | n + 1, ptr1, ptr, m =>
      if ptr1 < ptr then
        let tmpChar := m ptr
        swapEnds n (ptr1 + 1) (ptr - 1) ((m.write ptr [m ptr1]).write ptr1 [tmpChar])
      else some m

/-- What the functions do from the first digit on. -/
def putNumber (w n : ℕ) (num : ℤ) (ptr1 : ℕ) (base : ℤ) (m : Mem) : Option Mem := do
  let (ptr, m) ← putDigits w base n num ptr1 m
  swapEnds n ptr1 (ptr - 1) (m.write ptr [0])

/-- `itoa` and `itoa64`, for numbers of `w` bits. -/
def itoaOf (w n : ℕ) (num : ℤ) (str : ℕ) (base : ℤ) (m : Mem) : Option Mem :=
  if num = 0 then some ((m.write str [48]).write (str + 1) [0])
  else if num < 0 ∧ base = 10 then
    putNumber w n (Int.bmod (-num) (2 ^ w)) (str + 1) base (m.write str [45])
  else putNumber w n num str base m

/-- `uitoa` and `uitoa64`, for numbers of `w` bits: the `base`, an `int`, becomes unsigned. -/
def uitoaOf (w n : ℕ) (num str : ℕ) (base : ℤ) (m : Mem) : Option Mem :=
  if num = 0 then some ((m.write str [48]).write (str + 1) [0])
  else putNumber w n num str (base % 2 ^ w) m

/-- `itoa`. -/
def itoa (n : ℕ) (num : ℤ) (str : ℕ) (base : ℤ) (m : Mem) : Option Mem := itoaOf 32 n num str base m

/-- `uitoa`. -/
def uitoa (n num str : ℕ) (base : ℤ) (m : Mem) : Option Mem := uitoaOf 32 n num str base m

/-- `itoa64`. -/
def itoa64 (n : ℕ) (num : ℤ) (str : ℕ) (base : ℤ) (m : Mem) : Option Mem :=
  itoaOf 64 n num str base m

/-- `uitoa64`. -/
def uitoa64 (n num str : ℕ) (base : ℤ) (m : Mem) : Option Mem := uitoaOf 64 n num str base m

/-! ### The two loops -/

section Loops

variable {m : Mem} {base w n num str p q : ℕ} {sign : ℤ} {l : List UInt8}

/-- The digits of a number, each of which the sign is put to, the last one first. -/
def digitChars (sign : ℤ) (base num : ℕ) : List UInt8 :=
  (Nat.digits base num).map fun d : ℕ => digitChar (sign * d)

/-- **The digits** are written from the last to the first. -/
theorem putDigits_eq (hbase : 1 < base) (hsign : sign = 1 ∨ sign = -1) (hn : num < n) :
    putDigits w base n (sign * num) p m =
      some (p + (digitChars sign base num).length, m.write p (digitChars sign base num)) := by
  induction n generalizing num p m with
  | zero => omega
  | succ n ih =>
    rw [putDigits]
    by_cases hnum : num = 0
    · subst hnum
      rw [if_neg (by simp), digitChars, Nat.digits_zero, List.map_nil, write_nil]
      rfl
    · -- the last digit, and the others by induction
      have hne : sign * (num : ℤ) ≠ 0 := by rcases hsign with rfl | rfl <;> omega
      have hfault : ¬((base : ℤ) = 0 ∨ (base : ℤ) = -1 ∧ sign * (num : ℤ) = -2 ^ (w - 1)) := by
        omega
      have hrem : (sign * (num : ℤ)).tmod base = sign * (num % base : ℕ) := by
        rcases hsign with rfl | rfl
        · rw [one_mul, one_mul]
          rfl
        · rw [neg_one_mul, neg_one_mul, Int.neg_tmod]
          rfl
      have hdiv : (sign * (num : ℤ)).tdiv base = sign * (num / base : ℕ) := by
        rcases hsign with rfl | rfl
        · rw [one_mul, one_mul]
          rfl
        · rw [neg_one_mul, neg_one_mul, Int.neg_tdiv]
          rfl
      have hdigits : digitChars sign base num =
          digitChar (sign * (num % base : ℕ)) :: digitChars sign base (num / base) := by
        rw [digitChars, Nat.digits_def' hbase (Nat.pos_of_ne_zero hnum)]
        rfl
      have hlt : num / base < n := by
        have hself := Nat.div_lt_self (Nat.pos_of_ne_zero hnum) hbase
        omega
      have hwrite := write_write m p [digitChar (sign * (num % base : ℕ))]
        (digitChars sign base (num / base))
      rw [if_pos hne, if_neg hfault, hrem, hdiv, ih hlt, hdigits, List.length_cons]
      refine congrArg some (Prod.ext ?_ hwrite)
      change p + 1 + _ = p + (_ + 1)
      omega

/-- A memory whose bytes from `p` to `q` are in the opposite order. -/
def mirrored (m : Mem) (p q : ℕ) : Mem := fun b => if p ≤ b ∧ b ≤ q then m (p + q - b) else m b

theorem mirrored_of_le (h : q ≤ p) : mirrored m p q = m := by
  funext b
  rw [mirrored]
  split_ifs with hb
  · congr
    omega
  · rfl

/-- **One exchange**, and the bytes in between. -/
theorem mirrored_swap (h : p < q) :
    mirrored ((m.write q [m p]).write p [m q]) (p + 1) (q - 1) = mirrored m p q := by
  have hswap : ∀ b, (m.write q [m p]).write p [m q] b =
      if b = p then m q else if b = q then m p else m b := by
    intro b
    rw [write_singleton, write_singleton, Function.update_apply, Function.update_apply]
  funext b
  simp only [mirrored, hswap]
  -- in front of the range, the one end, in between, the other end, behind it
  rcases Nat.lt_trichotomy b p with hlt | rfl | hgt
  · rw [if_neg (by omega), if_neg (by omega), if_neg (by omega), if_neg (by omega)]
  · rw [if_neg (by omega), if_pos rfl, if_pos (by omega), Nat.add_sub_cancel_left]
  · rcases Nat.lt_trichotomy b q with hlt | rfl | hgt'
    · have hat : p + 1 + (q - 1) - b = p + q - b := by omega
      have hinner : p + 1 ≤ b ∧ b ≤ q - 1 := by omega
      rw [if_pos hinner, hat, if_neg (by omega), if_neg (by omega), if_pos (by omega)]
    · rw [if_neg (by omega), if_neg (by omega), if_pos rfl, if_pos (by omega), Nat.add_sub_cancel]
    · rw [if_neg (by omega), if_neg (by omega), if_neg (by omega), if_neg (by omega)]

theorem swapEnds_eq (hn : q ≤ p + n) : swapEnds (n + 1) p q m = some (mirrored m p q) := by
  induction n generalizing p q m with
  | zero => rw [swapEnds, if_neg (by omega), mirrored_of_le (by omega)]
  | succ n ih =>
    rw [swapEnds]
    by_cases h : p < q
    · rw [if_pos h, ih (by omega), mirrored_swap h]
    · rw [if_neg h, mirrored_of_le (Nat.le_of_not_lt h)]

/-- A list with its ends exchanged. -/
theorem mirrored_write (hl : l ≠ []) :
    mirrored (m.write p l) p (p + l.length - 1) = m.write p l.reverse := by
  have hpos := List.length_pos_of_ne_nil hl
  funext b
  rw [mirrored]
  by_cases hb : p ≤ b ∧ b < p + l.length
  · obtain ⟨i, rfl⟩ := Nat.exists_eq_add_of_le hb.1
    have hat : p + (p + l.length - 1) - (p + i) = p + (l.length - 1 - i) := by omega
    rw [if_pos (by omega), hat, write_add (by omega),
      write_add (by rw [List.length_reverse]; omega), List.getElem_reverse]
  · rw [if_neg (by omega), write_of_notMem (by omega),
      write_of_notMem (by rw [List.length_reverse]; omega)]

/-- **What is written for a number that is not 0**: its digits, the first one first, and a
`NUL`. -/
theorem putNumber_returns (hbase : 1 < base) (hsign : sign = 1 ∨ sign = -1) (hnum : num ≠ 0)
    (w p : ℕ) (m : Mem) :
    Returns (fun n => putNumber w n (sign * num) p base m)
      (m.write p ((digitChars sign base num).reverse ++ [0])) := by
  refine ⟨num + (digitChars sign base num).length + 1, fun n hn => ?_⟩
  obtain ⟨n, rfl⟩ := Nat.exists_eq_succ_of_ne_zero (Nat.ne_zero_of_lt hn)
  have hne : digitChars sign base num ≠ [] := by
    rw [digitChars, ne_eq, List.map_eq_nil_iff, Nat.digits_eq_nil_iff_eq_zero]
    exact hnum
  have hpos := List.length_pos_of_ne_nil hne
  have hcomm : ∀ l : List UInt8, l.length = (digitChars sign base num).length →
      (m.write p l).write (p + (digitChars sign base num).length) [0] =
        (m.write (p + (digitChars sign base num).length) [0]).write p l :=
    fun l hl => write_comm (Or.inl (by omega))
  have hwrite := write_write m p (digitChars sign base num).reverse [0]
  rw [List.length_reverse] at hwrite
  change putNumber w (n + 1) (sign * num) p base m = _
  rw [putNumber, putDigits_eq hbase hsign (by omega)]
  change swapEnds (n + 1) p _ _ = _
  rw [swapEnds_eq (by omega), hcomm _ rfl, mirrored_write hne, ← hcomm _ (List.length_reverse ..),
    hwrite]

end Loops

/-! ### The unsigned functions -/

section Numbers

variable {m : Mem} {base w k n str : ℕ} {num : ℤ} {text : List UInt8}

/-- The character of a digit, and of what the least number has for digits. -/
theorem digitChar_of_lt {d : ℕ} (h : d < 36) : digitChar d = digitByte d := by
  revert d
  decide

/-- A numeral as characters. -/
def numeralText (base num : ℕ) : List UInt8 := (numeral base num).map digitByte

theorem zero_notMem_numeralText (hbase : 1 < base) (h36 : base ≤ 36) {num : ℕ} :
    0 ∉ numeralText base num := by
  intro h
  obtain ⟨d, hd, hzero⟩ := List.mem_map.mp h
  have hlt := (isNumeral_numeral hbase num).lt d hd
  exact digitByte_ne_zero (by omega) hzero

theorem digitChars_one (hbase : 1 < base) (h36 : base ≤ 36) {num : ℕ} (hnum : num ≠ 0) :
    (digitChars 1 base num).reverse = numeralText base num := by
  rw [digitChars, numeralText, numeral_of_ne_zero hnum, ← List.map_reverse]
  refine List.map_congr_left fun d hd => ?_
  have hlt := Nat.digits_lt_base hbase (List.mem_reverse.mp hd)
  rw [one_mul, digitChar_of_lt (by omega)]

/-- **The digits of a number**, and a `NUL`. -/
theorem putNumber_numeral (hbase : 1 < base) (h36 : base ≤ 36) {num : ℕ} (hnum : num ≠ 0)
    (w p : ℕ) (m : Mem) :
    Returns (fun n => putNumber w n num p base m) (m.write p (numeralText base num ++ [0])) := by
  have hput := putNumber_returns hbase (Or.inl rfl) hnum w p m
  rwa [digitChars_one hbase h36 hnum, one_mul] at hput

theorem write_zero (m : Mem) (str : ℕ) :
    (m.write str [48]).write (str + 1) [0] = m.write str (numeralText base 0 ++ [0]) :=
  write_write m str [48] [0]

/-- **The unsigned functions** write the canonical numeral. -/
theorem uitoaOf_returns (hbase : 1 < base) (h36 : base ≤ 36) (hw : 6 ≤ w) (num str : ℕ) (m : Mem) :
    Returns (fun n => uitoaOf w n num str base m) (m.write str (numeralText base num ++ [0])) := by
  by_cases hnum : num = 0
  · subst hnum
    exact ⟨0, fun n _ => (if_pos rfl).trans (congrArg some (write_zero m str))⟩
  · have hpow : 2 ^ 6 ≤ 2 ^ w := Nat.pow_le_pow_right (by omega) hw
    have hmod : (base : ℤ) % 2 ^ w = base := by
      have hlt : base < 2 ^ w := by omega
      exact Int.emod_eq_of_lt (Int.natCast_nonneg base) (by exact_mod_cast hlt)
    obtain ⟨r, hr⟩ := putNumber_numeral hbase h36 hnum w str m
    refine ⟨r, fun n hn => ?_⟩
    change uitoaOf w n num str base m = _
    rw [uitoaOf, if_neg hnum, hmod]
    exact hr n hn

theorem isNumber_digitByte {d : ℕ} (h : d < 10) : Names.IsNumber (digitByte d) := by
  revert d
  decide

/-- The value of the characters of a numeral is the value of its digits. -/
theorem numeral_map_digitByte {digits : List ℕ} (h : ∀ d ∈ digits, d < 10) :
    Names.numeral (digits.map digitByte) = Nat.ofDigits 10 digits.reverse := by
  have hfold : ∀ (l : List ℕ) (r : ℕ), (∀ d ∈ l, d < 10) →
      (l.map digitByte).foldl (fun n c => n * 10 + (c.toNat - 48)) r =
        l.foldl (fun n d => n * 10 + d) r := by
    intro l
    induction l with
    | nil => exact fun r _ => rfl
    | cons d l ih =>
      intro r hl
      obtain ⟨hd, hl⟩ := List.forall_mem_cons.mp hl
      rw [List.map_cons, List.foldl_cons, List.foldl_cons, toNat_digitByte_of_lt hd,
        Nat.add_sub_cancel_left, ih _ hl]
  rw [ofDigits_reverse]
  exact hfold digits 0 h

/-- **`atoi`** reads a numeral in base 10 back. -/
theorem atoi_numeral {num : ℕ} (hnum : num < 2 ^ 63) (str : ℕ) (m : Mem) :
    Returns (fun n => (Names.atoi n fun i =>
      m.write str (numeralText 10 num ++ [0]) (str + i)).map fun res => res.bmod (2 ^ 64))
      (num : ℤ) := by
  have hdigits := isNumeral_numeral (by decide : 1 < 10) num
  have hnumber : ∀ c ∈ numeralText 10 num, Names.IsNumber c := by
    intro c hc
    obtain ⟨d, hd, rfl⟩ := List.mem_map.mp hc
    exact isNumber_digitByte (hdigits.lt d hd)
  have hholds : Holds (fun i => m.write str (numeralText 10 num ++ [0]) (str + i))
      (numeralText 10 num) :=
    holds_shift_iff.mpr ⟨zero_notMem_numeralText (by decide) (by decide), read_write_self ..⟩
  have hvalue : Names.numberOf (numeralText 10 num) = (num : ℤ) % 2 ^ 64 := by
    rw [Names.numberOf_digits hnumber, numeralText, numeral_map_digitByte hdigits.lt, hdigits.value]
  have hself : Int.bmod ((num : ℤ) % 2 ^ 64) (2 ^ 64) = num := by
    rw [Int.emod_eq_of_lt (by omega) (by omega)]
    exact Int.bmod_eq_of_le (by omega) (by omega)
  refine ⟨(numeralText 10 num).length + 1, fun n hn => ?_⟩
  change (Names.atoi n _).map _ = some _
  rw [Names.atoi, Names.atoiLoop_eq hholds (by omega)]
  exact congrArg some ((congrArg (Int.bmod · (2 ^ 64)) hvalue).trans hself)

/-- **`uitoa64`** returns, and leaves the canonical numeral of its number and a `NUL`, and nothing
else; and in base 10 `atoi`, which has a sign bit, reads the number back. -/
theorem uitoa64_numeral (hbase : 2 ≤ base) (h36 : base ≤ 36) (num str : ℕ) (m : Mem) :
    ∃ digits, IsNumeral base num digits ∧
      Returns (fun n => uitoa64 n num str base m) (m.write str (digits.map digitByte ++ [0])) ∧
      (base = 10 → num < 2 ^ 63 →
        Returns (fun n => (Names.atoi n fun i =>
          m.write str (digits.map digitByte ++ [0]) (str + i)).map fun res => res.bmod (2 ^ 64))
          (num : ℤ)) := by
  refine ⟨numeral base num, isNumeral_numeral hbase num,
    uitoaOf_returns hbase h36 (by decide) num str m, fun h10 hnum => ?_⟩
  subst h10
  exact atoi_numeral hnum str m

/-- The largest number that `atoi` reads back. -/
theorem uitoa64_numeral_max : ∃ digits, IsNumeral 10 (2 ^ 63 - 1) digits ∧
    Returns (fun n => uitoa64 n (2 ^ 63 - 1) 0x1000 10 fun _ => 7)
      (Mem.write (fun _ => 7) 0x1000 (digits.map digitByte ++ [0])) ∧
    Returns (fun n => (Names.atoi n fun i => Mem.write (fun _ => 7) 0x1000
      (digits.map digitByte ++ [0]) (0x1000 + i)).map fun res => res.bmod (2 ^ 64))
      (2 ^ 63 - 1) := by
  obtain ⟨digits, hdigits, hwrites, hatoi⟩ :=
    uitoa64_numeral (by decide : 2 ≤ 10) (by decide) (2 ^ 63 - 1) 0x1000 fun _ => 7
  exact ⟨digits, hdigits, hwrites, hatoi rfl (by decide)⟩

/-! ### The signed functions -/

/-- What the signed functions write in base 10 for a number of `k + 1` bits. -/
def signedText (k : ℕ) (num : ℤ) : List UInt8 :=
  if num = -2 ^ k then 45 :: (digitChars (-1) 10 (2 ^ k)).reverse
  else if num < 0 then 45 :: numeralText 10 num.natAbs
  else numeralText 10 num.natAbs

/-- The negative in the type. -/
theorem bmod_neg_of_lt (hmin : -2 ^ k < num) (hnum : num < 0) :
    Int.bmod (-num) (2 ^ (k + 1)) = num.natAbs := by
  have hpow : ((2 ^ (k + 1) : ℕ) : ℤ) = 2 * 2 ^ k := by
    rw [pow_succ']
    push_cast
    rfl
  rw [Int.bmod_eq_of_le_mul_two (by omega) (by omega)]
  omega

/-- **The least number** has none. -/
theorem bmod_neg_min (k : ℕ) : Int.bmod (-(-2 ^ k)) (2 ^ (k + 1)) = -1 * (2 ^ k : ℕ) := by
  have hpow : ((2 ^ (k + 1) : ℕ) : ℤ) = 2 * 2 ^ k := by
    rw [pow_succ']
    push_cast
    rfl
  have hpos : (0 : ℤ) < 2 ^ k := by positivity
  have hmod : -(-2 ^ k) % ((2 ^ (k + 1) : ℕ) : ℤ) = 2 ^ k := by
    rw [neg_neg]
    exact Int.emod_eq_of_lt hpos.le (by omega)
  rw [Int.bmod_neg _ _ (by omega), hmod]
  push_cast
  omega

/-- **What the signed functions write** in base 10. -/
theorem itoaOf_returns (hmin : -2 ^ k ≤ num) (hmax : num < 2 ^ k) (str : ℕ) (m : Mem) :
    Returns (fun n => itoaOf (k + 1) n num str 10 m) (m.write str (signedText k num ++ [0])) := by
  have hpos : (0 : ℤ) < 2 ^ k := by positivity
  rcases lt_trichotomy num 0 with hneg | rfl | hpos'
  · -- the sign, and then the digits of `-num`, which for the least number is the number itself
    obtain ⟨r, hr⟩ : Returns
        (fun n => putNumber (k + 1) n (Int.bmod (-num) (2 ^ (k + 1))) (str + 1) 10
          (m.write str [45])) (m.write str (signedText k num ++ [0])) := by
      rw [signedText]
      split_ifs with hleast
      · have hput := putNumber_returns (by decide : 1 < 10) (Or.inr rfl) (Nat.two_pow_pos k).ne'
          (k + 1) (str + 1) (m.write str [45])
        have hwrite := write_write m str [45] ((digitChars (-1) 10 (2 ^ k)).reverse ++ [0])
        rw [List.length_singleton] at hwrite
        rwa [← bmod_neg_min, hwrite, ← hleast] at hput
      · have hput := putNumber_numeral (by decide : 1 < 10) (by decide)
          (Int.natAbs_ne_zero.mpr hneg.ne) (k + 1) (str + 1) (m.write str [45])
        have hwrite := write_write m str [45] (numeralText 10 num.natAbs ++ [0])
        rw [List.length_singleton] at hwrite
        rwa [← bmod_neg_of_lt (k := k) (by omega) hneg, hwrite] at hput
    refine ⟨r, fun n hn => ?_⟩
    change itoaOf (k + 1) n num str 10 m = _
    rw [itoaOf, if_neg hneg.ne, if_pos ⟨hneg, rfl⟩]
    exact hr n hn
  · have htext : signedText k 0 = numeralText 10 0 := by
      rw [signedText, if_neg (by omega), if_neg (by omega)]
      rfl
    rw [htext]
    exact ⟨0, fun n _ => (if_pos rfl).trans (congrArg some (write_zero m str))⟩
  · have htext : signedText k num = numeralText 10 num.natAbs := by
      rw [signedText, if_neg (by omega), if_neg (by omega)]
    obtain ⟨r, hr⟩ := putNumber_numeral (by decide : 1 < 10) (by decide)
      (Int.natAbs_ne_zero.mpr hpos'.ne') (k + 1) str m
    rw [Int.natAbs_of_nonneg hpos'.le] at hr
    rw [htext]
    refine ⟨r, fun n hn => ?_⟩
    change itoaOf (k + 1) n num str 10 m = _
    rw [itoaOf, if_neg hpos'.ne', if_neg (by omega)]
    exact hr n hn

theorem zero_notMem_signedText (k : ℕ) (num : ℤ) : 0 ∉ signedText k num := by
  have hnumeral := @zero_notMem_numeralText 10 (by decide) (by decide) num.natAbs
  rw [signedText]
  split_ifs
  · have hchars : ∀ d < 10, digitChar (-1 * (d : ℕ)) ≠ 0 := by decide
    rw [List.mem_cons, not_or, List.mem_reverse]
    refine ⟨by decide, fun h => ?_⟩
    obtain ⟨d, hd, hzero⟩ := List.mem_map.mp h
    exact hchars d (Nat.digits_lt_base (by decide) hd) hzero
  · rw [List.mem_cons, not_or]
    exact ⟨by decide, hnumeral⟩
  · exact hnumeral

/-- **The decimal text of a number**: a `-` if it is negative, and the numeral of its absolute
value. -/
def IsDecimal (num : ℤ) (text : List UInt8) : Prop :=
  ∃ digits, IsNumeral 10 num.natAbs digits ∧
    text = (if num < 0 then [45] else []) ++ digits.map digitByte

/-- **A conversion writes the decimal text** of its number, and a `NUL`. -/
def WritesDecimal (f : ℕ → Option Mem) (str : ℕ) (num : ℤ) : Prop :=
  ∃ m' text, Returns f m' ∧ IsDecimal num text ∧ m'.At str (text ++ [0])

theorem IsDecimal.eq_signedText (h : IsDecimal num text) (hne : num ≠ -2 ^ k) :
    text = signedText k num := by
  obtain ⟨digits, hdigits, rfl⟩ := h
  obtain rfl := hdigits.eq_numeral (by decide)
  rw [signedText, if_neg hne]
  split_ifs
  · rfl
  · rfl

/-- The decimal text of the least number is not what is written for it. -/
theorem not_isDecimal_signedText (k : ℕ) : ¬IsDecimal (-2 ^ k) (signedText k (-2 ^ k)) := by
  rintro ⟨digits, hdigits, htext⟩
  have hpos : (0 : ℤ) < 2 ^ k := by positivity
  have hne : Nat.digits 10 (2 ^ k) ≠ [] := Nat.digits_ne_nil_iff_ne_zero.mpr (Nat.two_pow_pos k).ne'
  rw [signedText, if_pos rfl, if_pos (by omega), List.singleton_append, List.cons_inj_right,
    digitChars, ← List.map_reverse] at htext
  -- the first character behind the sign is in front of `0` for the one, and a digit for the other
  have hhead := congrArg List.head? htext
  rw [List.head?_map, List.head?_map, List.head?_reverse,
    List.getLast?_eq_some_getLast hne] at hhead
  have hlast := Nat.getLast_digit_ne_zero 10 (Nat.two_pow_pos k).ne'
  have hlt := Nat.digits_lt_base (by decide : 1 < 10) (List.getLast_mem hne)
  obtain ⟨d, rest, rfl⟩ := List.exists_cons_of_ne_nil hdigits.ne_nil
  rw [List.head?_cons, Option.map_some, Option.map_some, Option.some_inj] at hhead
  have hd := hdigits.lt d List.mem_cons_self
  have hchars : ∀ e < 10, e ≠ 0 → ∀ d < 10, digitChar (-1 * (e : ℕ)) ≠ digitByte d := by decide
  exact hchars _ hlt hlast d hd hhead

/-- **When the signed functions write the decimal text**: for every number that has a negative in
its type. -/
theorem itoaOf_iff (hmin : -2 ^ k ≤ num) (hmax : num < 2 ^ k) (str : ℕ) (m : Mem) :
    WritesDecimal (fun n => itoaOf (k + 1) n num str 10 m) str num ↔ num ≠ -2 ^ k := by
  have hreturns := itoaOf_returns hmin hmax str m
  constructor
  · rintro ⟨m', text, hm', htext, hat⟩ rfl
    obtain rfl := hreturns.unique hm'
    have hzero := zero_notMem_signedText k (-2 ^ k)
    have hzero' : 0 ∉ text := by
      have hpos : (0 : ℤ) < 2 ^ k := by positivity
      rw [htext.eq_signedText (k := k + 1) (by rw [pow_succ]; omega)]
      exact zero_notMem_signedText (k + 1) _
    have hholds := holds_shift_iff.mpr ⟨hzero, read_write_self m str (signedText k (-2 ^ k) ++ [0])⟩
    obtain rfl := hholds.unique (holds_shift_iff.mpr ⟨hzero', hat⟩)
    exact not_isDecimal_signedText k htext
  · intro hne
    have htext : IsDecimal num ((if num < 0 then [45] else []) ++ numeralText 10 num.natAbs) :=
      ⟨_, isNumeral_numeral (by decide) num.natAbs, rfl⟩
    refine ⟨_, _, hreturns, htext, ?_⟩
    rw [htext.eq_signedText hne]
    exact read_write_self ..

/-- **`itoa` and `itoa64`** write the decimal text of every number of their type but the least. -/
theorem itoa_iff {num num64 : ℤ} (h : -2 ^ 31 ≤ num ∧ num < 2 ^ 31)
    (h64 : -2 ^ 63 ≤ num64 ∧ num64 < 2 ^ 63) (str : ℕ) (m : Mem) :
    (WritesDecimal (fun n => itoa n num str 10 m) str num ↔ num ≠ -2 ^ 31) ∧
      (WritesDecimal (fun n => itoa64 n num64 str 10 m) str num64 ↔ num64 ≠ -2 ^ 63) :=
  ⟨itoaOf_iff h.1 h.2 str m, itoaOf_iff h64.1 h64.2 str m⟩

theorem itoa_iff_least :
    (WritesDecimal (fun n => itoa n (-2147483647) 0x1000 10 fun _ => 7) 0x1000 (-2147483647) ↔
      (-2147483647 : ℤ) ≠ -2 ^ 31) ∧
    (WritesDecimal (fun n => itoa64 n (-2 ^ 63) 0x1000 10 fun _ => 7) 0x1000 (-2 ^ 63) ↔
      (-2 ^ 63 : ℤ) ≠ -2 ^ 63) :=
  itoa_iff (by decide) (by decide) 0x1000 fun _ => 7

/-- For `-2147483648`, `itoa` writes a `-` and then characters that are no digits. -/
theorem not_writesDecimal : ¬∀ (num : ℤ) (str : ℕ) (m : Mem), -2 ^ 31 ≤ num → num < 2 ^ 31 →
    WritesDecimal (fun n => itoa n num str 10 m) str num := by
  intro h
  exact (itoaOf_iff le_rfl (by decide) 0x1000 fun _ => 7).mp
    (h (-2 ^ 31) 0x1000 (fun _ => 7) le_rfl (by decide)) rfl

/-- What is written: `-./,),(-*,(`. -/
example : (itoa 12 (-2147483648) 0 10 fun _ => 7).map (Mem.read · 0 12) =
    some [45, 46, 47, 44, 41, 44, 40, 45, 42, 44, 40, 0] := by decide

end Numbers

end Xana
