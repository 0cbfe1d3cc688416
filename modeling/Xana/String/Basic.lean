import Xana.Lib.Memory
import Xana.Lib.Runs

/-!
# `string.c`

The copying and comparing functions of the kernel's string library.

`memcpy` copies words after it has copied the bytes up to the next multiple of
eight, but goes on from `d64` and `s64`, which were set before. It copies what it
should when the destination is aligned (`Xana.memcpy_of_aligned`); otherwise it
leaves some bytes out at the end, and `Xana.memcpyLaws_iff` says which.

A string is an array of characters with a `NUL` behind it. An array is a function
from indices, so `str++` is a shift. `Xana.Holds` says which string is in an
array.
-/

namespace Xana

open Mem

/-! ### `memcpy` -/

/-- `while (n--) *d++ = *s++;` -/
def copyBytes : Mem → ℕ → ℕ → ℕ → Mem
  | m, _, _, 0 => m
  | m, d, s, n + 1 => copyBytes (m.write d [m s]) (d + 1) (s + 1) n

/-- The loop that copies the head bytes, with what is left of `n`. -/
def copyHead : Mem → ℕ → ℕ → ℕ → Mem × ℕ
  | m, _, _, 0 => (m, 0)
  | m, d, s, n + 1 =>
      if d % 8 ≠ 0 then copyHead (m.write d [m s]) (d + 1) (s + 1) n else (m, n + 1)

/-- `while (n64--) *d64++ = *s64++;` -/
def copyWords : Mem → ℕ → ℕ → ℕ → Mem
  | m, _, _, 0 => m
  | m, d, s, n + 1 => copyWords (m.store d 8 (m.load s 8)) (d + 8) (s + 8) n

/-- `memcpy`. -/
def memcpy (m : Mem) (dest src n : ℕ) : Mem :=
  let (m, n) := if dest % 8 ≠ 0 then copyHead m dest src n else (m, n)
  let n64 := n / 8
  copyBytes (copyWords m dest src n64) (dest + 8 * n64) (src + 8 * n64) (n % 8)

section Memcpy

variable {m : Mem} {d s n : ℕ}

theorem copyBytes_eq (h : d ≤ s ∨ s + n ≤ d) : copyBytes m d s n = m.write d (m.read s n) := by
  induction n generalizing m d s with
  | zero =>
    funext b
    exact (write_of_notMem (by simp [Mem.read]; omega)).symm
  | succ n ih =>
    have hread : (m.write d [m s]).read (s + 1) n = m.read (s + 1) n :=
      read_write_of_disjoint (by simp; omega)
    rw [copyBytes, ih (by omega), hread]
    exact write_write m d [m s] (m.read (s + 1) n)

theorem copyWords_eq (h : d ≤ s ∨ s + 8 * n ≤ d) :
    copyWords m d s n = m.write d (m.read s (8 * n)) := by
  induction n generalizing m d s with
  | zero =>
    funext b
    exact (write_of_notMem (by simp [Mem.read]; omega)).symm
  | succ n ih =>
    have hword : m.store d 8 (m.load s 8) = m.write d (m.read s 8) := by
      have hle := leBytes_leNat (m.read s 8)
      rw [length_read] at hle
      rw [store, load, hle]
    have hread : (m.write d (m.read s 8)).read (s + 8) (8 * n) = m.read (s + 8) (8 * n) :=
      read_write_of_disjoint (by simp; omega)
    have hwrite := write_write m d (m.read s 8) (m.read (s + 8) (8 * n))
    rw [length_read, ← read_add] at hwrite
    have hlen : 8 * (n + 1) = 8 + 8 * n := by omega
    rw [copyWords, hword, ih (by omega), hread, hwrite, hlen]

/-- The word loop and the tail loop together. -/
theorem copyBytes_copyWords (h : d ≤ s ∨ s + n ≤ d) :
    copyBytes (copyWords m d s (n / 8)) (d + 8 * (n / 8)) (s + 8 * (n / 8)) (n % 8) =
      m.write d (m.read s n) := by
  have hn : n = 8 * (n / 8) + n % 8 := by omega
  have hread : (m.write d (m.read s (8 * (n / 8)))).read (s + 8 * (n / 8)) (n % 8) =
      m.read (s + 8 * (n / 8)) (n % 8) := read_write_of_disjoint (by simp; omega)
  have hwrite := write_write m d (m.read s (8 * (n / 8))) (m.read (s + 8 * (n / 8)) (n % 8))
  rw [length_read, ← read_add, ← hn] at hwrite
  rw [copyWords_eq (by omega), copyBytes_eq (by omega), hread, hwrite]

/-- **`memcpy` to an aligned destination** copies `n` bytes, and changes no
other. -/
theorem memcpy_of_aligned (hd : d % 8 = 0) (h : d ≤ s ∨ s + n ≤ d) :
    memcpy m d s n = m.write d (m.read s n) := by
  simp only [memcpy, hd, ne_eq, not_true_eq_false, if_false]
  exact copyBytes_copyWords h

/-- The number of head bytes: those in front of the next multiple of eight. -/
def headLength (d n : ℕ) : ℕ := min n ((8 - d % 8) % 8)

theorem headLength_le (d n : ℕ) : headLength d n ≤ n := Nat.min_le_left ..

theorem headLength_le_seven (d n : ℕ) : headLength d n ≤ 7 := by
  rw [headLength]
  omega

theorem copyHead_eq (h : d ≤ s ∨ s + n ≤ d) :
    copyHead m d s n = (m.write d (m.read s (headLength d n)), n - headLength d n) := by
  induction n generalizing m d s with
  | zero =>
    refine Prod.ext (funext fun b => ?_) (by simp [copyHead])
    exact (write_of_notMem (by simp [headLength]; omega)).symm
  | succ n ih =>
    rw [copyHead]
    split_ifs with hd
    · have hlen : headLength d (n + 1) = headLength (d + 1) n + 1 := by
        simp only [headLength]
        omega
      have hread : (m.write d [m s]).read (s + 1) (headLength (d + 1) n) =
          m.read (s + 1) (headLength (d + 1) n) :=
        read_write_of_disjoint (by simp [headLength]; omega)
      have hwrite := write_write m d [m s] (m.read (s + 1) (headLength (d + 1) n))
      rw [ih (by omega), hread, hlen, Nat.add_sub_add_right]
      exact congrArg (·, _) hwrite
    · have hlen : headLength d (n + 1) = 0 := by
        simp only [headLength]
        omega
      refine Prod.ext (funext fun b => ?_) (by simp [hlen])
      exact (write_of_notMem (by simp [hlen]; omega)).symm

/-- **What `memcpy` writes**: the head bytes, and then, from the start of the
destination once more, as many bytes as are left. The source may be behind the
destination, and overlap it, if the head bytes do not reach it. -/
theorem memcpy_eq (h : d + headLength d n ≤ s ∨ s + n ≤ d) :
    memcpy m d s n = (m.write d (m.read s (headLength d n))).write d
      (m.read s (n - headLength d n)) := by
  have hlen := headLength_le d n
  have hhead : (if d % 8 ≠ 0 then copyHead m d s n else (m, n)) =
      (m.write d (m.read s (headLength d n)), n - headLength d n) := by
    split_ifs with hd
    · exact copyHead_eq (by omega)
    · have hzero : headLength d n = 0 := by
        simp only [headLength]
        omega
      refine Prod.ext (funext fun b => ?_) (by simp [hzero])
      exact (write_of_notMem (by simp [hzero]; omega)).symm
  have hread : (m.write d (m.read s (headLength d n))).read s (n - headLength d n) =
      m.read s (n - headLength d n) := read_write_of_disjoint (by simp; omega)
  rw [memcpy, hhead]
  change copyBytes (copyWords _ d s ((n - headLength d n) / 8)) _ _ _ = _
  rw [copyBytes_copyWords (by omega), hread]

/-- `memcpy` of the bootstrap's string library. -/
def Bootstrap.memcpy (m : Mem) (dest src n : ℕ) : Mem := copyBytes m dest src n

/-- **What a copy is for**: the destination has the bytes that the source had,
nothing else has changed, and so it is the copy that the bootstrap makes. -/
structure MemcpyLaws (m : Mem) (dest src n : ℕ) : Prop where
  copied : ∀ i < n, memcpy m dest src n (dest + i) = m (src + i)
  kept : ∀ b, b < dest ∨ dest + n ≤ b → memcpy m dest src n b = m b
  bootstrap : memcpy m dest src n = Bootstrap.memcpy m dest src n

/-- A byte of the destination. -/
theorem memcpy_add (h : d + headLength d n ≤ s ∨ s + n ≤ d) (i : ℕ) :
    memcpy m d s n (d + i) =
      if i < max (headLength d n) (n - headLength d n) then m (s + i) else m (d + i) := by
  have hlen := headLength_le d n
  have hbyte : ∀ {k : ℕ} {m₁ : Mem}, i < k →
      m₁.write d (m.read s k) (d + i) = m (s + i) := by
    intro k m₁ hk
    rw [write_add (by simpa using hk)]
    have hget := getElem?_read (m := m) (a := s) hk
    rwa [List.getElem?_eq_getElem (by simpa using hk), Option.some_inj] at hget
  rw [memcpy_eq h]
  by_cases hrest : i < n - headLength d n
  · rw [if_pos (lt_max_of_lt_right hrest), hbyte hrest]
  · rw [write_of_notMem (by rw [length_read]; omega)]
    by_cases hhead : i < headLength d n
    · rw [if_pos (lt_max_of_lt_left hhead), hbyte hhead]
    · rw [if_neg (by omega), write_of_notMem (by rw [length_read]; omega)]

theorem memcpy_of_notMem (h : d + headLength d n ≤ s ∨ s + n ≤ d) {b : ℕ} (hb : b < d ∨ d + n ≤ b) :
    memcpy m d s n b = m b := by
  have hlen := headLength_le d n
  rw [memcpy_eq h, write_of_notMem (by rw [length_read]; omega),
    write_of_notMem (by rw [length_read]; omega)]

/-- **When `memcpy` copies**: the bytes that neither the head loop nor the loops
behind it reach – there are none if the destination is aligned, or ends before
the next multiple of eight – are what they should be before. -/
theorem memcpyLaws_iff (h : d + n ≤ s ∨ s + n ≤ d) :
    MemcpyLaws m d s n ↔
      ∀ i, max (headLength d n) (n - headLength d n) ≤ i → i < n → m (d + i) = m (s + i) := by
  have hlen := headLength_le d n
  constructor
  · intro hlaws i hle hi
    have hcopied := hlaws.copied i hi
    rwa [memcpy_add (by omega) i, if_neg (Nat.not_lt.mpr hle)] at hcopied
  · intro hsame
    have hcopied : ∀ i < n, memcpy m d s n (d + i) = m (s + i) := by
      intro i hi
      rw [memcpy_add (by omega) i]
      split_ifs with hlt
      · rfl
      · exact hsame i (Nat.le_of_not_lt hlt) hi
    refine ⟨hcopied, fun b hb => memcpy_of_notMem (by omega) hb, ?_⟩
    funext b
    rw [Bootstrap.memcpy, copyBytes_eq (by omega)]
    by_cases hb : d ≤ b ∧ b < d + n
    · obtain ⟨i, rfl⟩ := Nat.exists_eq_add_of_le hb.1
      have hi : i < n := by omega
      have hget := getElem?_read (m := m) (a := s) hi
      rw [List.getElem?_eq_getElem (by simpa using hi), Option.some_inj] at hget
      rw [hcopied i hi, write_add (by simpa using hi), hget]
    · rw [memcpy_of_notMem (by omega) (by omega), write_of_notMem (by rw [length_read]; omega)]

/-- An aligned destination: every copy is one. -/
theorem memcpyLaws_of_aligned : MemcpyLaws (fun a => UInt8.ofNat a) 16 64 21 :=
  (memcpyLaws_iff (by decide)).mpr (by decide)

/-- One byte behind a multiple of eight, the last of eight bytes is not copied. -/
theorem not_memcpyLaws : ¬∀ m d s n, d + n ≤ s ∨ s + n ≤ d → MemcpyLaws m d s n := by
  intro hlaws
  have hcopied := (hlaws (fun a => UInt8.ofNat a) 9 64 8 (by decide)).copied 7 (by decide)
  rw [memcpy_add (by decide)] at hcopied
  revert hcopied
  decide

end Memcpy

/-! ### `memset` -/

/-- `memset`, with the byte that `value` becomes. -/
def memset (m : Mem) (p : ℕ) (value : UInt8) : ℕ → Mem
  | 0 => m
  | num + 1 => memset (m.write p [value]) (p + 1) value num

/-- **`memset`** writes the byte as often as it is told. -/
theorem memset_eq (m : Mem) (p : ℕ) (value : UInt8) (num : ℕ) :
    memset m p value num = m.write p (List.replicate num value) := by
  induction num generalizing m p with
  | zero => exact (write_nil m p).symm
  | succ num ih =>
    rw [memset, ih]
    exact write_write m p [value] (List.replicate num value)

/-! ### `memmove` -/

/-- `while (n--) *--d = *--s;`, from behind the last bytes. -/
def copyBytesDown (m : Mem) (d s : ℕ) : ℕ → Mem
  | 0 => m
  | n + 1 => copyBytesDown (m.write (d + n) [m (s + n)]) d s n

/-- `memmove`. -/
def memmove (m : Mem) (dest src n : ℕ) : Mem :=
  if src < dest ∧ src + n > dest then copyBytesDown m dest src n else copyBytes m dest src n

section Memmove

variable {m : Mem} {d s n : ℕ}

theorem copyBytesDown_eq (h : s ≤ d) : copyBytesDown m d s n = m.write d (m.read s n) := by
  induction n generalizing m with
  | zero =>
    funext b
    exact (write_of_notMem (by simp [Mem.read]; omega)).symm
  | succ n ih =>
    have hread : (m.write (d + n) [m (s + n)]).read s n = m.read s n :=
      read_write_of_disjoint (by simp; omega)
    have hlast : m.read (s + n) 1 = [m (s + n)] := rfl
    rw [copyBytesDown, ih, hread, read_add, hlast]
    funext b
    by_cases hb : d ≤ b ∧ b < d + n
    · obtain ⟨i, rfl⟩ := Nat.exists_eq_add_of_le hb.1
      rw [write_add (by rw [length_read]; omega),
        write_add (by rw [List.length_append, length_read]; omega),
        List.getElem_append_left (by rw [length_read]; omega)]
    · rw [write_of_notMem (by rw [length_read]; omega)]
      have hwrite := write_write m d (m.read s n) [m (s + n)]
      rw [length_read] at hwrite
      rw [← hwrite]
      by_cases hbn : b = d + n
      · subst hbn
        exact (write_add (n := 0) (by simp)).trans (write_add (n := 0) (by simp)).symm
      · rw [write_of_notMem (by simp; omega), write_of_notMem (by simp; omega),
          write_of_notMem (by rw [length_read]; omega)]

/-- **`memmove`** copies, however the two ranges lie. -/
theorem memmove_eq (m : Mem) (d s n : ℕ) : memmove m d s n = m.write d (m.read s n) := by
  rw [memmove]
  split_ifs with h
  · exact copyBytesDown_eq h.1.le
  · exact copyBytes_eq (by omega)

/-- A byte after `memmove`. -/
theorem memmove_apply (m : Mem) (d s n i : ℕ) :
    memmove m d s n i = if d ≤ i ∧ i < d + n then m (s + (i - d)) else m i := by
  rw [memmove_eq]
  split_ifs with h
  · obtain ⟨k, rfl⟩ := Nat.exists_eq_add_of_le h.1
    have hk : k < (m.read s n).length := by
      rw [length_read]
      omega
    rw [write_add hk, Nat.add_sub_cancel_left]
    have hget := getElem?_read (m := m) (a := s) (n := k) (k := n) (by omega)
    rw [List.getElem?_eq_getElem hk] at hget
    exact Option.some.inj hget
  · exact write_of_notMem (by rw [length_read]; omega)

end Memmove

/-! ### Strings -/

/-- The characters of a string, and the `NUL` behind them. -/
def chars (l : List UInt8) : ℕ → UInt8 := fun i => l.getD i 0

/-- The string `l` is in the array `s`. -/
def Holds : (ℕ → UInt8) → List UInt8 → Prop
  | s, [] => s 0 = 0
  | s, c :: l => s 0 = c ∧ c ≠ 0 ∧ Holds (fun i => s (i + 1)) l

/-- `strcmp`, in at most `n` rounds. -/
def strcmp : ℕ → (ℕ → UInt8) → (ℕ → UInt8) → Option ℤ
  | 0, _, _ => none
  | n + 1, s, t =>
      if s 0 ≠ 0 ∧ s 0 = t 0 then strcmp n (fun i => s (i + 1)) (fun i => t (i + 1))
      else some ((s 0).toNat - (t 0).toNat)

/-- `strncmp`. -/
def strncmp : ℕ → (ℕ → UInt8) → (ℕ → UInt8) → ℤ
  | 0, _, _ => 0
  | n + 1, s, t =>
      if s 0 ≠ 0 ∧ s 0 = t 0 then strncmp n (fun i => s (i + 1)) (fun i => t (i + 1))
      else (s 0).toNat - (t 0).toNat

/-- `strlen`, in at most `n` rounds. -/
def strlen : ℕ → (ℕ → UInt8) → Option ℕ
  | 0, _ => none
  | n + 1, str => if str 0 ≠ 0 then (strlen n fun i => str (i + 1)).map (· + 1) else some 0

/-- The loop of `strcpy` and `strcat`, from where they are in `dest`. -/
def copyString : ℕ → (ℕ → UInt8) → ℕ → (ℕ → UInt8) → Option (ℕ → UInt8)
  | 0, _, _, _ => none
  | n + 1, dest, i, src =>
      if src 0 ≠ 0 then copyString n (Function.update dest i (src 0)) (i + 1) fun j => src (j + 1)
      else some (Function.update dest i 0)

/-- `strcpy`. -/
def strcpy (n : ℕ) (dest src : ℕ → UInt8) : Option (ℕ → UInt8) := copyString n dest 0 src

/-- `strcat`. -/
def strcat (n : ℕ) (dest src : ℕ → UInt8) : Option (ℕ → UInt8) := do
  let len ← strlen n dest
  copyString n dest len src

section Strings

variable {s t : ℕ → UInt8} {l l' : List UInt8} {n i : ℕ}

theorem holds_chars (h : 0 ∉ l) : Holds (chars l) l := by
  induction l with
  | nil => rfl
  | cons c l ih =>
    rw [List.mem_cons, not_or] at h
    exact ⟨rfl, Ne.symm h.1, ih h.2⟩

/-- What an array holds depends on the string's characters only. -/
theorem Holds.congr (h : Holds s l) (ht : ∀ i ≤ l.length, t i = s i) : Holds t l := by
  induction l generalizing s t with
  | nil => exact (ht 0 le_rfl).trans h
  | cons c l ih =>
    obtain ⟨h0, hc, h⟩ := h
    refine ⟨(ht 0 (Nat.zero_le _)).trans h0, hc, ih h fun i hi => ?_⟩
    exact ht (i + 1) (Nat.succ_le_succ hi)

/-- **`strcmp` of a string**: it returns, and `0` when the other array holds it, too. -/
theorem strcmp_holds (hs : Holds s l) (t : ℕ → UInt8) (hn : l.length < n) :
    ∃ r, strcmp n s t = some r ∧ (r = 0 ↔ Holds t l) := by
  induction l generalizing s t n with
  | nil =>
    obtain ⟨n, rfl⟩ := Nat.exists_eq_succ_of_ne_zero hn.ne'
    have hs0 : s 0 = 0 := hs
    refine ⟨_, if_neg (by simp [hs0]), ?_⟩
    have hnat : (s 0).toNat = 0 := congrArg UInt8.toNat hs0
    rw [Holds, ← UInt8.toNat_inj, UInt8.toNat_zero]
    omega
  | cons c l ih =>
    obtain ⟨n, rfl⟩ := Nat.exists_eq_succ_of_ne_zero (Nat.ne_zero_of_lt hn)
    obtain ⟨hs0, hc, hs⟩ := hs
    by_cases ht : t 0 = c
    · obtain ⟨r, hr, hiff⟩ := ih hs (fun i => t (i + 1)) (Nat.lt_of_succ_lt_succ hn)
      refine ⟨r, ?_, hiff.trans ⟨fun h => ⟨ht, hc, h⟩, fun h => h.2.2⟩⟩
      rw [strcmp, if_pos ⟨hs0 ▸ hc, hs0.trans ht.symm⟩, hr]
    · have hne : s 0 ≠ t 0 := fun heq => ht (heq.symm.trans hs0)
      have hnat : (s 0).toNat ≠ (t 0).toNat := fun h0 => hne (UInt8.toNat_inj.mp h0)
      refine ⟨_, if_neg fun hcon => hne hcon.2, iff_of_false ?_ fun h => ht h.1⟩
      omega

/-- An array holds one string. -/
theorem Holds.unique (h : Holds s l) (h' : Holds s l') : l = l' := by
  induction l generalizing s l' with
  | nil =>
    cases l' with
    | nil => rfl
    | cons c l' => exact absurd (h'.1.symm.trans h) h'.2.1
  | cons c l ih =>
    cases l' with
    | nil => exact absurd (h.1.symm.trans h') h.2.1
    | cons c' l' => rw [h.1.symm.trans h'.1, ih h.2.2 h'.2.2]

/-- **`strcmp` on two strings**: it returns, and `0` when they are one. -/
theorem strcmp_spec (hs : Holds s l) (ht : Holds t l') (hn : l.length < n) :
    ∃ r, strcmp n s t = some r ∧ (r = 0 ↔ l = l') := by
  obtain ⟨r, hr, hiff⟩ := strcmp_holds hs t hn
  exact ⟨r, hr, hiff.trans ⟨fun h => h.unique ht, fun heq => heq ▸ ht⟩⟩

/-- **`strncmp` on two strings** compares their first characters. -/
theorem strncmp_eq_zero_iff (hs : Holds s l) (ht : Holds t l') :
    strncmp n s t = 0 ↔ l.take n = l'.take n := by
  have hsub : ∀ c d : UInt8, ((c.toNat : ℤ) - d.toNat = 0 ↔ c = d) := by
    intro c d
    rw [← UInt8.toNat_inj]
    omega
  induction n generalizing s t l l' with
  | zero => simp [strncmp]
  | succ n ih =>
    rw [strncmp]
    cases l with
    | nil =>
      have hs0 : s 0 = 0 := hs
      rw [if_neg fun h => h.1 hs0, hsub, hs0]
      cases l' with
      | nil => exact iff_of_true (Eq.symm ht) rfl
      | cons d l' => exact iff_of_false (fun h => ht.2.1 (ht.1.symm.trans h.symm)) (by simp)
    | cons c l =>
      obtain ⟨hs0, hc, hs⟩ := hs
      rw [hs0]
      cases l' with
      | nil =>
        have ht0 : t 0 = 0 := ht
        rw [if_neg fun h => h.1 (h.2.trans ht0), hsub, ht0]
        exact iff_of_false hc (by simp)
      | cons d l' =>
        obtain ⟨ht0, hd, ht⟩ := ht
        rw [ht0, List.take_succ_cons, List.take_succ_cons, List.cons_eq_cons]
        by_cases hcd : c = d
        · rw [if_pos ⟨hc, hcd⟩]
          exact (ih hs ht).trans (and_iff_right hcd).symm
        · rw [if_neg fun h => hcd h.2, hsub]
          exact iff_of_false hcd fun h => hcd h.1

/-- One string is where the other begins. -/
theorem strncmp_length_eq_zero_iff (hs : Holds s l) (ht : Holds t l') :
    strncmp l.length s t = 0 ↔ l <+: l' := by
  rw [strncmp_eq_zero_iff hs ht, List.take_length, List.prefix_iff_eq_take]

/-- A string is its characters, and none of them is `NUL`. -/
theorem holds_shift_iff : Holds (fun j => s (i + j)) l ↔ 0 ∉ l ∧ Mem.At s i (l ++ [0]) := by
  induction l generalizing i with
  | nil => simp [Holds, At, Mem.read]
  | cons c l ih =>
    have hshift : (fun j => s (i + (j + 1))) = fun j => s (i + 1 + j) := by
      funext j
      rw [add_assoc, add_comm 1 j]
    rw [Holds, hshift, ih]
    constructor
    · rintro ⟨hc, hne, h0, hat⟩
      refine ⟨by simp [h0, hne.symm], ?_⟩
      rw [At, List.cons_append, List.length_cons, Mem.read, hat]
      exact congrArg (· :: _) hc
    · rintro ⟨h0, hat⟩
      rw [List.mem_cons, not_or] at h0
      obtain ⟨hc, hat⟩ := List.cons.inj hat
      exact ⟨hc, Ne.symm h0.1, h0.2, hat⟩

theorem holds_iff : Holds s l ↔ 0 ∉ l ∧ Mem.At s 0 (l ++ [0]) := by
  have hshift := holds_shift_iff (s := s) (l := l) (i := 0)
  simpa only [Nat.zero_add] using hshift

/-- A character of a string, or the `NUL` behind it. -/
theorem Holds.apply (h : Holds s l) (hi : i ≤ l.length) : s i = l.getD i 0 := by
  have hat := (holds_iff.mp h).2.apply (n := i) (by simp; omega)
  rw [Nat.zero_add] at hat
  rw [hat, List.getD_eq_getElem?_getD]
  rcases Nat.lt_or_eq_of_le hi with hlt | rfl
  · rw [List.getElem_append_left hlt, List.getElem?_eq_getElem hlt, Option.getD_some]
  · simp

/-- What is behind the first characters of a string. -/
theorem Holds.drop (h : Holds s (l ++ l')) : Holds (fun j => s (l.length + j)) l' := by
  rw [holds_iff, List.append_assoc, at_append, Nat.zero_add] at h
  exact holds_shift_iff.mpr ⟨fun hc => h.1 (List.mem_append_right l hc), h.2.2⟩

/-- **`strlen` of a string.** -/
theorem strlen_eq (h : Holds s l) (hn : l.length < n) : strlen n s = some l.length := by
  induction l generalizing s n with
  | nil =>
    obtain ⟨n, rfl⟩ := Nat.exists_eq_succ_of_ne_zero hn.ne'
    have hs : s 0 = 0 := h
    rw [strlen, if_neg (by simp [hs])]
    rfl
  | cons c l ih =>
    obtain ⟨n, rfl⟩ := Nat.exists_eq_succ_of_ne_zero (Nat.ne_zero_of_lt hn)
    obtain ⟨h0, hc, h⟩ := h
    rw [strlen, if_pos (h0 ▸ hc), ih h (Nat.lt_of_succ_lt_succ hn)]
    rfl

theorem strlen_mono (s : ℕ → UInt8) : MonoRounds fun n => strlen n s := by
  intro n
  induction n generalizing s with
  | zero => simp [strlen]
  | succ n ih =>
    intro len h
    change strlen (n + 1) s = some len at h
    change strlen (n + 1 + 1) s = some len
    rw [strlen] at h ⊢
    split_ifs at h ⊢
    · obtain ⟨k, hk, rfl⟩ := Option.map_eq_some_iff.mp h
      exact Option.map_eq_some_iff.mpr ⟨k, ih _ k hk, rfl⟩
    · exact h

theorem copyString_mono (t : ℕ → UInt8) (i : ℕ) (s : ℕ → UInt8) :
    MonoRounds fun n => copyString n t i s := by
  intro n
  induction n generalizing t i s with
  | zero => simp [copyString]
  | succ n ih =>
    intro t' h
    change copyString (n + 1) t i s = some t' at h
    change copyString (n + 1 + 1) t i s = some t'
    rw [copyString] at h ⊢
    split_ifs at h ⊢
    · exact ih _ _ _ t' h
    · exact h

theorem strcpy_mono (t s : ℕ → UInt8) : MonoRounds fun n => strcpy n t s := copyString_mono t 0 s

theorem strcat_mono (t s : ℕ → UInt8) : MonoRounds fun n => strcat n t s :=
  (strlen_mono t).bind fun len => copyString_mono t len s

theorem copyString_eq (h : Holds s l) (hn : l.length < n) :
    copyString n t i s = some (Mem.write t i (l ++ [0])) := by
  induction l generalizing s t n i with
  | nil =>
    obtain ⟨n, rfl⟩ := Nat.exists_eq_succ_of_ne_zero hn.ne'
    have hs : s 0 = 0 := h
    rw [copyString, if_neg (by simp [hs])]
    exact congrArg some (write_singleton t i 0).symm
  | cons c l ih =>
    obtain ⟨n, rfl⟩ := Nat.exists_eq_succ_of_ne_zero (Nat.ne_zero_of_lt hn)
    obtain ⟨h0, hc, h⟩ := h
    rw [copyString, if_pos (h0 ▸ hc), h0, ih h (Nat.lt_of_succ_lt_succ hn),
      ← write_singleton]
    exact congrArg some (write_write t i [c] (l ++ [0]))

/-- A string that is written behind another one. -/
theorem Holds.write (h : 0 ∉ l) (h' : 0 ∉ l') (hat : Mem.At s 0 l) :
    Holds (Mem.write s l.length (l' ++ [0])) (l ++ l') := by
  rw [holds_iff, List.append_assoc, at_append, Nat.zero_add]
  refine ⟨by simp [h, h'], hat.congr fun i hi => write_of_notMem (by omega), ?_⟩
  exact read_write_self ..

/-- **`strcpy`** leaves the string in its destination. -/
theorem strcpy_spec (h : Holds s l) (hn : l.length < n) :
    ∃ t', strcpy n t s = some t' ∧ Holds t' l :=
  ⟨_, copyString_eq h hn, Holds.write (l := []) (by simp) (holds_iff.mp h).1 rfl⟩

/-- **`strcat`** appends. -/
theorem strcat_spec (ht : Holds t l) (hs : Holds s l') (hn : l.length < n) (hn' : l'.length < n) :
    ∃ t', strcat n t s = some t' ∧ Holds t' (l ++ l') := by
  obtain ⟨h0, hat⟩ := holds_iff.mp ht
  rw [at_append] at hat
  refine ⟨_, ?_, Holds.write h0 (holds_iff.mp hs).1 hat.1⟩
  rw [strcat, strlen_eq ht hn]
  exact copyString_eq hs hn'

/-- **`memmove` over a part of a string**, with what is behind it and the `NUL`. -/
theorem holds_memmove {l₁ l₂ l₃ : List UInt8} (h : Holds s (l₁ ++ (l₂ ++ l₃))) :
    Holds (memmove s l₁.length (l₁.length + l₂.length) (l₃.length + 1)) (l₁ ++ l₃) := by
  have htail : Mem.read s (l₁.length + l₂.length) (l₃.length + 1) = l₃ ++ [0] := by
    have h₃ : Holds s (l₁ ++ l₂ ++ l₃) := by rwa [List.append_assoc]
    have hat := (holds_shift_iff.mp h₃.drop).2
    rwa [At, List.length_append, List.length_append] at hat
  obtain ⟨h0, hat⟩ := holds_iff.mp h
  rw [List.append_assoc, at_append] at hat
  rw [memmove_eq, htail]
  refine Holds.write (fun hc => h0 (List.mem_append_left _ hc)) (fun hc => h0 ?_) hat.1
  exact List.mem_append_right _ (List.mem_append_right _ hc)

end Strings

end Xana
