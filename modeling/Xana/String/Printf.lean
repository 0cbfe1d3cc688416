import Xana.String.Numbers

/-!
# The console and the serial log

`kprintf` and `serial_printf` read the same formats, and were written apart. They differ in
how they go past `%l`: `kprintf` looks at the character behind it and goes on to it if it is a
`d` or an `x`, `serial_printf` always goes on to it. And they differ in what they do with a
string: `kputs` puts its characters one by one, `serial_writestring` is handed the string.

What a call shows is said once (`Xana.Prints`), for every format in which each `%l` is followed
by a `d` or an `x`, and the arguments it takes; a `%` at the end shows the `NUL` behind it.
Both functions show it (`Xana.kprintf_serialPrintf`).

`serial_writestring` counts in 32 bits, so that it writes the string that it is handed if
that has fewer than `2 ^ 32` characters (`Xana.serialWritestring_returns`).
-/

namespace Xana

open Mem

/-! ### The functions -/

/-- The characters that `kputs` passes to `video_putc`, in at most so many rounds. -/
def kputs : ℕ → (ℕ → UInt8) → Option (List UInt8)
  | 0, _ => none
  | n + 1, s => if s 0 ≠ 0 then (kputs n fun i => s (i + 1)).map (s 0 :: ·) else some []

/-- The loop of `serial_writestring`, whose index has 32 bits: the characters that it writes to the
port. -/
def writestringLoop (str : ℕ → UInt8) : ℕ → ℕ → Option (List UInt8)
  | 0, _ => none
  | n + 1, i => do
      let len ← strlen n str
      if i < len then (writestringLoop str n ((i + 1) % 2 ^ 32)).map (str i :: ·) else some []

/-- `serial_writestring`. -/
def serialWritestring (n : ℕ) (str : ℕ → UInt8) : Option (List UInt8) := writestringLoop str n 0

/-- The characters of a string that is handed on. -/
def handed (n : ℕ) (str : ℕ → UInt8) : Option (List UInt8) := (strlen n str).map (Mem.read str 0)

/-- `va_arg`: an argument takes 64 bits, whatever its type. There is nothing behind the last. -/
def vaArg : List ℕ → Option (ℕ × List ℕ)
  | [] => none
  | arg :: args => some (arg, args)

@[simp] theorem vaArg_cons (arg : ℕ) (args : List ℕ) : vaArg (arg :: args) = some (arg, args) := rfl

/-- An argument as an `int`. -/
def vaInt (arg : ℕ) : ℤ := Int.bmod arg (2 ^ 32)

/-- An argument as an `int64_t`. -/
def vaLong (arg : ℕ) : ℤ := Int.bmod arg (2 ^ 64)

/-- What a directive has done: the characters it has put, where its last character is, the
arguments behind those it has taken, and `buffer`. -/
structure Put where
  text : List UInt8
  i : ℕ
  args : List ℕ
  buffer : Mem

/-- The loop that `kprintf` and `serial_printf` have in common, in at most so many rounds, with what
they do for a `%`. -/
def formatLoop (directive : ℕ → ℕ → List ℕ → Mem → Option Put) (format : ℕ → UInt8) (len : ℕ) :
    ℕ → ℕ → List ℕ → Mem → Option (List UInt8)
  | 0, _, _, _ => none
  | n + 1, i, args, buffer =>
      if i < len then
        if format i = 37 then do
          -- `++i`: the directive begins behind the `%`
          let put ← directive n (i + 1) args buffer
          (formatLoop directive format len n (put.i + 1) put.args put.buffer).map (put.text ++ ·)
        else (formatLoop directive format len n (i + 1) args buffer).map (format i :: ·)
      else some []

/-- What `kprintf` does for a `%`. Strings are in memory; `buffer` is an array of its own. -/
def kprintfDirective (m : Mem) (format : ℕ → UInt8) (n i : ℕ) (args : List ℕ) (buffer : Mem) :
    Option Put :=
  if format i = 100 then do
    let (arg, args) ← vaArg args
    let buffer ← itoa n (vaInt arg) 0 10 buffer
    (kputs n buffer).map fun text => ⟨text, i, args, buffer⟩
  else if format i = 115 then do
    let (arg, args) ← vaArg args
    (kputs n fun j => m (arg + j)).map fun text => ⟨text, i, args, buffer⟩
  else if format i = 99 then do
    let (arg, args) ← vaArg args
    some ⟨[UInt8.ofInt (vaInt arg)], i, args, buffer⟩
  else if format i = 120 then do
    let (arg, args) ← vaArg args
    let buffer ← uitoa n (arg % 2 ^ 32) 0 16 buffer
    (kputs n buffer).map fun text => ⟨text, i, args, buffer⟩
  else if format i = 108 then
    -- the index goes on only if the letter is known
    if format (i + 1) = 120 then do
      let (arg, args) ← vaArg args
      let buffer ← uitoa64 n (arg % 2 ^ 64) 0 16 buffer
      (kputs n buffer).map fun text => ⟨text, i + 1, args, buffer⟩
    else if format (i + 1) = 100 then do
      let (arg, args) ← vaArg args
      let buffer ← itoa64 n (vaLong arg) 0 10 buffer
      (kputs n buffer).map fun text => ⟨text, i + 1, args, buffer⟩
    else some ⟨[], i, args, buffer⟩
  else if format i = 37 then some ⟨[37], i, args, buffer⟩
  else some ⟨[format i], i, args, buffer⟩

/-- What `serial_printf` does for a `%`; `writestring` says what is seen of a call of
`serial_writestring`. -/
def serialDirective (writestring : ℕ → (ℕ → UInt8) → Option (List UInt8)) (m : Mem)
    (format : ℕ → UInt8) (n i : ℕ) (args : List ℕ) (buffer : Mem) : Option Put :=
  if format i = 100 then do
    let (arg, args) ← vaArg args
    let buffer ← itoa n (vaInt arg) 0 10 buffer
    (writestring n buffer).map fun text => ⟨text, i, args, buffer⟩
  else if format i = 115 then do
    let (arg, args) ← vaArg args
    (writestring n fun j => m (arg + j)).map fun text => ⟨text, i, args, buffer⟩
  else if format i = 99 then do
    let (arg, args) ← vaArg args
    some ⟨[UInt8.ofInt (vaInt arg)], i, args, buffer⟩
  else if format i = 120 then do
    let (arg, args) ← vaArg args
    let buffer ← uitoa n (arg % 2 ^ 32) 0 16 buffer
    (writestring n buffer).map fun text => ⟨text, i, args, buffer⟩
  else if format i = 108 then
    -- `++i`, whatever the letter is
    let i := i + 1
    if format i = 100 then do
      let (arg, args) ← vaArg args
      let buffer ← itoa64 n (vaLong arg) 0 10 buffer
      (writestring n buffer).map fun text => ⟨text, i, args, buffer⟩
    else if format i = 120 then do
      let (arg, args) ← vaArg args
      let buffer ← uitoa64 n (arg % 2 ^ 64) 0 16 buffer
      (writestring n buffer).map fun text => ⟨text, i, args, buffer⟩
    else some ⟨[37, 108, format i], i, args, buffer⟩
  else if format i = 37 then some ⟨[37], i, args, buffer⟩
  else some ⟨[format i], i, args, buffer⟩

/-- `kprintf`: the characters that it passes to `video_putc`, with what is in its `buffer`
before. -/
def kprintf (n : ℕ) (m : Mem) (format : ℕ → UInt8) (args : List ℕ) (buffer : Mem) :
    Option (List UInt8) := do
  let len ← strlen n format
  formatLoop (kprintfDirective m format) format len n 0 args buffer

/-- `serial_printf`: the characters that it passes to `serial_putchar`, and those that are seen of
its calls of `serial_writestring`. -/
def serialPrintf (writestring : ℕ → (ℕ → UInt8) → Option (List UInt8)) (n : ℕ) (m : Mem)
    (format : ℕ → UInt8) (args : List ℕ) (buffer : Mem) : Option (List UInt8) := do
  let len ← strlen n format
  formatLoop (serialDirective writestring m format) format len n 0 args buffer

/-! ### What a call shows -/

/-- **A directive**: what is behind the `%`, the arguments it takes, and what it shows. -/
inductive Directive (m : Mem) : List UInt8 → List ℕ → List UInt8 → Prop
  | decimal (arg : ℕ) : Directive m [100] [arg] (signedText 31 (vaInt arg))
  | string {arg : ℕ} {s : List UInt8} (h : Holds (fun j => m (arg + j)) s) :
      Directive m [115] [arg] s
  | character (arg : ℕ) : Directive m [99] [arg] [UInt8.ofInt (vaInt arg)]
  | hex (arg : ℕ) : Directive m [120] [arg] (numeralText 16 (arg % 2 ^ 32))
  | longHex (arg : ℕ) : Directive m [108, 120] [arg] (numeralText 16 (arg % 2 ^ 64))
  | longDecimal (arg : ℕ) : Directive m [108, 100] [arg] (signedText 63 (vaLong arg))
  | other {c : UInt8} (h : c ∉ ([100, 115, 99, 120, 108] : List UInt8)) : Directive m [c] [] [c]

/-- In a format, each `%l` is followed by a `d` or an `x`. -/
def LongFollowed : List UInt8 → Prop
  | [] => True
  | c :: format =>
      if c = 37 then
        match format with
        | [] => True
        | c :: format =>
            if c = 108 then
              match format with
              | [] => False
              | c :: format => (c = 100 ∨ c = 120) ∧ LongFollowed format
            else LongFollowed format
      else LongFollowed format

/-- What an argument is. -/
inductive ArgKind
  | number
  | string
  deriving DecidableEq

/-- The arguments that a format takes. -/
def takes : List UInt8 → List ArgKind
  | [] => []
  | c :: format =>
      if c = 37 then
        match format with
        | [] => []
        | c :: format =>
            if c = 108 then
              match format with
              | [] => []
              | _ :: format => .number :: takes format
            else if c = 115 then .string :: takes format
            else if c = 100 ∨ c = 99 ∨ c = 120 then .number :: takes format
            else takes format
      else takes format

/-- There are as many arguments as are taken, and those that are to be strings point to some. -/
def Matching (m : Mem) : List ArgKind → List ℕ → Prop
  | [], _ => True
  | _ :: _, [] => False
  | kind :: kinds, arg :: args =>
      (kind = .string → ∃ s, Holds (fun j => m (arg + j)) s) ∧ Matching m kinds args

/-- **What a call shows**: a format in which each `%l` is followed by a `d` or an `x`, arguments
that match it, and the characters. -/
inductive Prints (m : Mem) : List UInt8 → List ℕ → List UInt8 → Prop
  | done (args : List ℕ) : Prints m [] args []
  | percent (args : List ℕ) : Prints m [37] args [0]
  | char {c : UInt8} {format : List UInt8} {args : List ℕ} {text : List UInt8} (hc : c ≠ 37)
      (h : Prints m format args text) : Prints m (c :: format) args (c :: text)
  | directive {spec shown format text : List UInt8} {taken args : List ℕ}
      (hspec : Directive m spec taken shown) (h : Prints m format args text) :
      Prints m (37 :: (spec ++ format)) (taken ++ args) (shown ++ text)

theorem Matching.exists_cons {m : Mem} {kind : ArgKind} {kinds : List ArgKind} {args : List ℕ}
    (h : Matching m (kind :: kinds) args) : ∃ arg rest, args = arg :: rest ∧
      (kind = .string → ∃ s, Holds (fun j => m (arg + j)) s) ∧ Matching m kinds rest := by
  cases args with
  | nil => exact absurd h not_false
  | cons arg rest => exact ⟨arg, rest, rfl, h⟩

/-- **Every such call shows something.** -/
theorem exists_prints {m : Mem} {l : List UInt8} {args : List ℕ} (hlong : LongFollowed l)
    (hargs : Matching m (takes l) args) : ∃ text, Prints m l args text := by
  fun_induction LongFollowed l generalizing args with
  | case1 => exact ⟨[], Prints.done args⟩
  | case2 => exact ⟨[0], Prints.percent args⟩
  | case3 => exact absurd hlong not_false
  | case4 c l ih =>
    -- `%ld` or `%lx`
    have hargs' : Matching m (.number :: takes l) args := hargs
    obtain ⟨arg, rest, rfl, -, hrest⟩ := hargs'.exists_cons
    obtain ⟨text, htext⟩ := ih hlong.2 hrest
    rcases hlong.1 with rfl | rfl
    · exact ⟨_, Prints.directive (Directive.longDecimal arg) htext⟩
    · exact ⟨_, Prints.directive (Directive.longHex arg) htext⟩
  | case5 c l hl ih =>
    -- a directive of one letter, which takes a string, a number or nothing
    have htakes : takes (37 :: c :: l) = if c = 115 then .string :: takes l
        else if c = 100 ∨ c = 99 ∨ c = 120 then .number :: takes l else takes l := by
      rw [takes.eq_def]
      exact if_neg hl
    rw [htakes] at hargs
    by_cases hs : c = 115
    · subst hs
      obtain ⟨arg, rest, rfl, hstring, hrest⟩ := Matching.exists_cons hargs
      obtain ⟨s, hs⟩ := hstring rfl
      obtain ⟨text, htext⟩ := ih hlong hrest
      exact ⟨_, Prints.directive (Directive.string hs) htext⟩
    rw [if_neg hs] at hargs
    by_cases hc : c = 100 ∨ c = 99 ∨ c = 120
    · rw [if_pos hc] at hargs
      obtain ⟨arg, rest, rfl, -, hrest⟩ := hargs.exists_cons
      obtain ⟨text, htext⟩ := ih hlong hrest
      rcases hc with rfl | rfl | rfl
      · exact ⟨_, Prints.directive (Directive.decimal arg) htext⟩
      · exact ⟨_, Prints.directive (Directive.character arg) htext⟩
      · exact ⟨_, Prints.directive (Directive.hex arg) htext⟩
    · rw [if_neg hc] at hargs
      obtain ⟨text, htext⟩ := ih hlong hargs
      have hother : c ∉ ([100, 115, 99, 120, 108] : List UInt8) := by
        rw [not_or, not_or] at hc
        simp [hs, hl, hc]
      exact ⟨_, Prints.directive (Directive.other hother) htext⟩
  | case6 c l hc ih =>
    -- a character of the text
    have htakes : takes (c :: l) = takes l := by
      rw [takes.eq_def]
      exact if_neg hc
    rw [htakes] at hargs
    obtain ⟨text, htext⟩ := ih hlong hargs
    exact ⟨_, Prints.char hc htext⟩

/-- How a function shows strings: those in memory, and what fits in `buffer`. -/
structure PutsStrings (puts : ℕ → (ℕ → UInt8) → Option (List UInt8)) (m : Mem) : Prop where
  string : ∀ p l, Holds (fun j => m (p + j)) l → Returns (fun n => puts n fun j => m (p + j)) l
  buffer : ∀ b l, l.length < 32 → Holds b l → Returns (fun n => puts n b) l

/-- What is done for a `%` is what the directive is for. -/
def Obeys (m : Mem) (format : ℕ → UInt8) (directive : ℕ → ℕ → List ℕ → Mem → Option Put) : Prop :=
  ∀ ⦃spec taken shown⦄, Directive m spec taken shown → ∀ i args buffer, Mem.At format i spec →
    ∃ buffer', Returns (fun n => directive n i (taken ++ args) buffer)
      ⟨shown, i + (spec.length - 1), args, buffer'⟩

section Strings

variable {m : Mem} {s format : ℕ → UInt8} {l text : List UInt8} {args : List ℕ} {n i len k : ℕ}

/-! ### Strings and numbers -/

theorem kputs_eq (h : Holds s l) (hn : l.length < n) : kputs n s = some l := by
  induction l generalizing s n with
  | nil =>
    obtain ⟨n, rfl⟩ := Nat.exists_eq_succ_of_ne_zero hn.ne'
    have h0 : s 0 = 0 := h
    rw [kputs, if_neg (not_not.mpr h0)]
  | cons c l ih =>
    obtain ⟨n, rfl⟩ := Nat.exists_eq_succ_of_ne_zero (Nat.ne_zero_of_lt hn)
    obtain ⟨h0, hc, hrest⟩ := h
    rw [kputs, h0, if_pos hc, ih hrest (Nat.lt_of_succ_lt_succ hn)]
    rfl

theorem kputs_returns (h : Holds s l) : Returns (fun n => kputs n s) l :=
  ⟨l.length + 1, fun _ hn => kputs_eq h hn⟩

theorem handed_returns (h : Holds s l) : Returns (fun n => handed n s) l := by
  have hread : Mem.read s 0 l.length = l := (at_append.mp (holds_iff.mp h).2).1
  refine ⟨l.length + 1, fun n hn => ?_⟩
  change (strlen n s).map _ = _
  rw [strlen_eq h hn, Option.map_some, hread]

theorem writestringLoop_eq (h : Holds s l) (hl : l.length < 2 ^ 32) (hi : i ≤ l.length)
    (hn : l.length + (l.length - i) + 1 < n) : writestringLoop s n i = some (l.drop i) := by
  induction n generalizing i with
  | zero => omega
  | succ n ih =>
    rw [writestringLoop, strlen_eq h (by omega)]
    change (if i < l.length then _ else _) = _
    split_ifs with hlt
    · have hmod : (i + 1) % 2 ^ 32 = i + 1 := Nat.mod_eq_of_lt (by omega)
      have hget : s i = l[i] := by
        rw [h.apply hi, List.getD_eq_getElem _ _ hlt]
      rw [hmod, ih (by omega) (by omega), List.drop_eq_getElem_cons hlt, hget]
      rfl
    · rw [List.drop_eq_nil_of_le (Nat.le_of_not_lt hlt)]

/-- **`serial_writestring`** writes a string of fewer than `2 ^ 32` characters. -/
theorem serialWritestring_returns (h : Holds s l) (hl : l.length < 2 ^ 32) :
    Returns (fun n => serialWritestring n s) l :=
  ⟨l.length + l.length + 2, fun n hn => writestringLoop_eq h hl (Nat.zero_le _) (by omega)⟩

theorem putsStrings_kputs (m : Mem) : PutsStrings kputs m where
  string _ _ h := kputs_returns h
  buffer _ _ _ h := kputs_returns h

theorem putsStrings_handed (m : Mem) : PutsStrings handed m where
  string _ _ h := handed_returns h
  buffer _ _ _ h := handed_returns h

theorem putsStrings_serialWritestring
    (hm : ∀ p l, Holds (fun j => m (p + j)) l → l.length < 2 ^ 32) :
    PutsStrings serialWritestring m where
  string p l h := serialWritestring_returns h (hm p l h)
  buffer _ _ hl h := serialWritestring_returns h (by omega)

theorem length_numeralText_le {num : ℕ} (h : num < 2 ^ 64) :
    (numeralText 16 num).length ≤ 16 := by
  rw [numeralText, List.length_map]
  exact length_numeral_le (by decide) (by decide) (by omega)

theorem length_signedText_le {num : ℤ} (hk : 2 ^ k < 10 ^ 19) (h : num.natAbs ≤ 2 ^ k) :
    (signedText k num).length ≤ 20 := by
  have hnumeral : ∀ r ≤ 2 ^ k, (numeral 10 r).length ≤ 19 :=
    fun r hr => length_numeral_le (by decide) (by decide) (by omega)
  have habs := hnumeral num.natAbs h
  have hleast := hnumeral (2 ^ k) le_rfl
  rw [numeral_of_ne_zero (Nat.two_pow_pos k).ne', List.length_reverse] at hleast
  rw [signedText]
  split_ifs
  · rw [List.length_cons, List.length_reverse, digitChars, List.length_map]
    omega
  · rw [List.length_cons, numeralText, List.length_map]
    omega
  · rw [numeralText, List.length_map]
    omega

/-! ### The directives -/

/-- **A number** is written into `buffer`, which is large enough, and shown. -/
theorem PutsStrings.number {puts : ℕ → (ℕ → UInt8) → Option (List UInt8)} (h : PutsStrings puts m)
    {write : ℕ → Mem → Option Mem} {b : Mem} (hzero : 0 ∉ text) (hlen : text.length ≤ 20)
    (hwrite : Returns (fun n => write n b) (b.write 0 (text ++ [0]))) (i : ℕ) (args : List ℕ) :
    Returns (fun n => (write n b).bind fun b => (puts n b).map fun text => Put.mk text i args b)
      ⟨text, i, args, b.write 0 (text ++ [0])⟩ := by
  have hholds : Holds (b.write 0 (text ++ [0])) text := holds_iff.mpr ⟨hzero, read_write_self ..⟩
  exact hwrite.bind ((h.buffer _ text (by omega) hholds).map fun text => Put.mk text i args _)

theorem PutsStrings.int {puts : ℕ → (ℕ → UInt8) → Option (List UInt8)} (h : PutsStrings puts m)
    (arg i : ℕ) (args : List ℕ) (b : Mem) :
    Returns (fun n => (itoa n (vaInt arg) 0 10 b).bind fun b =>
      (puts n b).map fun text => Put.mk text i args b)
      ⟨signedText 31 (vaInt arg), i, args, b.write 0 (signedText 31 (vaInt arg) ++ [0])⟩ := by
  have hmin : -((2 ^ 32 : ℕ) / 2 : ℤ) ≤ vaInt arg := Int.le_bmod (by decide)
  have hmax : vaInt arg < ((2 ^ 32 : ℕ) + 1 : ℤ) / 2 := Int.bmod_lt (by decide)
  have hlen : (signedText 31 (vaInt arg)).length ≤ 20 :=
    length_signedText_le (by decide) (by omega)
  have hwrite : Returns (fun n => itoa n (vaInt arg) 0 10 b) _ :=
    itoaOf_returns (by omega) (by omega) 0 b
  exact h.number (zero_notMem_signedText 31 _) hlen hwrite i args

theorem PutsStrings.long {puts : ℕ → (ℕ → UInt8) → Option (List UInt8)} (h : PutsStrings puts m)
    (arg i : ℕ) (args : List ℕ) (b : Mem) :
    Returns (fun n => (itoa64 n (vaLong arg) 0 10 b).bind fun b =>
      (puts n b).map fun text => Put.mk text i args b)
      ⟨signedText 63 (vaLong arg), i, args, b.write 0 (signedText 63 (vaLong arg) ++ [0])⟩ := by
  have hmin : -((2 ^ 64 : ℕ) / 2 : ℤ) ≤ vaLong arg := Int.le_bmod (by decide)
  have hmax : vaLong arg < ((2 ^ 64 : ℕ) + 1 : ℤ) / 2 := Int.bmod_lt (by decide)
  have hlen : (signedText 63 (vaLong arg)).length ≤ 20 :=
    length_signedText_le (by decide) (by omega)
  have hwrite : Returns (fun n => itoa64 n (vaLong arg) 0 10 b) _ :=
    itoaOf_returns (by omega) (by omega) 0 b
  exact h.number (zero_notMem_signedText 63 _) hlen hwrite i args

theorem PutsStrings.hex {puts : ℕ → (ℕ → UInt8) → Option (List UInt8)} (h : PutsStrings puts m)
    {write : ℕ → ℕ → ℕ → ℤ → Mem → Option Mem} (hwrite : write = uitoa ∨ write = uitoa64) {r : ℕ}
    (hr : r < 2 ^ 64) (i : ℕ) (args : List ℕ) (b : Mem) :
    Returns (fun n => (write n r 0 16 b).bind fun b =>
      (puts n b).map fun text => Put.mk text i args b)
      ⟨numeralText 16 r, i, args, b.write 0 (numeralText 16 r ++ [0])⟩ := by
  have hlen := length_numeralText_le hr
  have hreturns : Returns (fun n => write n r 0 16 b) (b.write 0 (numeralText 16 r ++ [0])) := by
    rcases hwrite with rfl | rfl
    · exact uitoaOf_returns (by decide) (by decide) (by decide) r 0 b
    · exact uitoaOf_returns (by decide) (by decide) (by decide) r 0 b
  exact h.number (zero_notMem_numeralText (by decide) (by decide)) (hlen.trans (by decide))
    hreturns i args

/-- **`serial_printf`** does what the directives are for. -/
theorem obeys_serialDirective {puts : ℕ → (ℕ → UInt8) → Option (List UInt8)}
    (hputs : PutsStrings puts m) (format : ℕ → UInt8) :
    Obeys m format (serialDirective puts m format) := by
  intro spec taken shown hspec i args buffer hat
  have hi := fun j (hj : j < spec.length) => hat.apply hj
  cases hspec with
  | decimal arg =>
    have h0 : format i = 100 := hi 0 (by decide)
    refine ⟨_, (hputs.int arg i args buffer).congr fun n => ?_⟩
    rw [serialDirective, if_pos h0, List.singleton_append, vaArg_cons, Option.bind_eq_bind,
      Option.bind_some, Option.bind_eq_bind]
  | @string arg s h =>
    have h0 : format i = 115 := hi 0 (by decide)
    have hstring := (hputs.string arg _ h).map fun text => Put.mk text i args buffer
    refine ⟨buffer, hstring.congr fun n => ?_⟩
    rw [serialDirective, if_neg (by rw [h0]; decide), if_pos h0, List.singleton_append, vaArg_cons,
      Option.bind_eq_bind, Option.bind_some]
  | character arg =>
    have h0 : format i = 99 := hi 0 (by decide)
    refine ⟨buffer, (Returns.const _).congr fun n => ?_⟩
    rw [serialDirective, if_neg (by rw [h0]; decide), if_neg (by rw [h0]; decide), if_pos h0,
      List.singleton_append, vaArg_cons, Option.bind_eq_bind, Option.bind_some]
    rfl
  | hex arg =>
    have h0 : format i = 120 := hi 0 (by decide)
    have hhex := hputs.hex (Or.inl rfl) (by omega : arg % 2 ^ 32 < 2 ^ 64) i args buffer
    refine ⟨_, hhex.congr fun n => ?_⟩
    rw [serialDirective, if_neg (by rw [h0]; decide), if_neg (by rw [h0]; decide),
      if_neg (by rw [h0]; decide), if_pos h0, List.singleton_append, vaArg_cons,
      Option.bind_eq_bind, Option.bind_some, Option.bind_eq_bind]
  | longHex arg =>
    have h0 : format i = 108 := hi 0 (by decide)
    have h1 : format (i + 1) = 120 := hi 1 (by decide)
    have hhex := hputs.hex (Or.inr rfl) (by omega : arg % 2 ^ 64 < 2 ^ 64) (i + 1) args buffer
    refine ⟨_, hhex.congr fun n => ?_⟩
    rw [serialDirective, if_neg (by rw [h0]; decide), if_neg (by rw [h0]; decide),
      if_neg (by rw [h0]; decide), if_neg (by rw [h0]; decide), if_pos h0,
      if_neg (by rw [h1]; decide), if_pos h1, List.singleton_append, vaArg_cons,
      Option.bind_eq_bind, Option.bind_some, Option.bind_eq_bind]
  | longDecimal arg =>
    have h0 : format i = 108 := hi 0 (by decide)
    have h1 : format (i + 1) = 100 := hi 1 (by decide)
    refine ⟨_, (hputs.long arg (i + 1) args buffer).congr fun n => ?_⟩
    rw [serialDirective, if_neg (by rw [h0]; decide), if_neg (by rw [h0]; decide),
      if_neg (by rw [h0]; decide), if_neg (by rw [h0]; decide), if_pos h0, if_pos h1,
      List.singleton_append, vaArg_cons, Option.bind_eq_bind, Option.bind_some,
      Option.bind_eq_bind]
  | @other c hc =>
    have h0 : format i = c := hi 0 (by simp)
    simp only [List.mem_cons, List.not_mem_nil, or_false, not_or] at hc
    refine ⟨buffer, (Returns.const _).congr fun n => ?_⟩
    rw [serialDirective, h0, if_neg hc.1, if_neg hc.2.1, if_neg hc.2.2.1, if_neg hc.2.2.2.1,
      if_neg hc.2.2.2.2]
    split_ifs with hpercent
    · rw [hpercent]
      rfl
    · rfl

/-- **The difference**: `kprintf` does what `serial_printf` would do with `kputs`, unless there is
something else behind `%l`. -/
theorem kprintfDirective_eq {args : List ℕ} {buffer : Mem}
    (h : format i = 108 → format (i + 1) = 100 ∨ format (i + 1) = 120) :
    kprintfDirective m format n i args buffer = serialDirective kputs m format n i args buffer := by
  rw [kprintfDirective, serialDirective]
  by_cases h0 : format i = 108
  · have hd : format i ≠ 100 := by rw [h0]; decide
    have hs : format i ≠ 115 := by rw [h0]; decide
    have hc : format i ≠ 99 := by rw [h0]; decide
    have hx : format i ≠ 120 := by rw [h0]; decide
    simp only [if_neg hd, if_neg hs, if_neg hc, if_neg hx, if_pos h0]
    rcases h h0 with h1 | h1
    · have hne : format (i + 1) ≠ 120 := by rw [h1]; decide
      rw [if_neg hne, if_pos h1, if_pos h1]
    · have hne : format (i + 1) ≠ 100 := by rw [h1]; decide
      rw [if_pos h1, if_neg hne, if_pos h1]
  · rw [if_neg h0, if_neg h0]

/-- **`kprintf`** does what the directives are for. -/
theorem obeys_kprintfDirective (m : Mem) (format : ℕ → UInt8) :
    Obeys m format (kprintfDirective m format) := by
  intro spec taken shown hspec i args buffer hat
  obtain ⟨buffer', hserial⟩ :=
    obeys_serialDirective (putsStrings_kputs m) format hspec i args buffer hat
  refine ⟨buffer', hserial.congr fun n => kprintfDirective_eq fun h0 => ?_⟩
  -- only the two long directives have an `l` there, and a letter that is known behind it
  have hi := fun j (hj : j < spec.length) => hat.apply hj
  cases hspec with
  | decimal arg => exact absurd ((hi 0 (by decide)).symm.trans h0) (by decide)
  | string h => exact absurd ((hi 0 (by simp)).symm.trans h0) (by simp)
  | character arg => exact absurd ((hi 0 (by decide)).symm.trans h0) (by decide)
  | hex arg => exact absurd ((hi 0 (by decide)).symm.trans h0) (by decide)
  | longHex arg => exact Or.inr (hi 1 (by decide))
  | longDecimal arg => exact Or.inl (hi 1 (by decide))
  | other hc =>
    refine absurd ?_ hc
    rw [← (hi 0 (by simp)).symm.trans h0]
    simp

/-! ### The loop -/

/-- A round of the loop at a `%`. -/
theorem formatLoop_percent {directive : ℕ → ℕ → List ℕ → Mem → Option Put} {put : Put}
    {buffer : Mem} (hi : i < len) (hpercent : format i = 37)
    (hput : Returns (fun n => directive n (i + 1) args buffer) put)
    (hrest : Returns
      (fun n => formatLoop directive format len n (put.i + 1) put.args put.buffer) text) :
    Returns (fun n => formatLoop directive format len n i args buffer) (put.text ++ text) := by
  let behind : ℕ → Put → Option (List UInt8) := fun n put =>
    (formatLoop directive format len n (put.i + 1) put.args put.buffer).map (put.text ++ ·)
  have hbehind : Returns (fun n => behind n put) (put.text ++ text) := hrest.map (put.text ++ ·)
  refine (hput.bind hbehind).of_succ fun n => ?_
  rw [formatLoop, if_pos hi, if_pos hpercent, Option.bind_eq_bind]

/-- **The loop shows what the call shows**, from any character on and with anything in `buffer`. -/
theorem formatLoop_returns {directive : ℕ → ℕ → List ℕ → Mem → Option Put}
    (hobeys : Obeys m format directive) (h : Prints m l args text)
    (hformat : Holds (fun j => format (i + j)) l) (buffer : Mem) :
    Returns (fun n => formatLoop directive format (i + l.length) n i args buffer) text := by
  induction h generalizing i buffer with
  | done args =>
    refine (Returns.const []).of_succ fun n => ?_
    rw [formatLoop, List.length_nil, if_neg (by omega)]
  | percent args =>
    -- what is behind the `%` is the `NUL`, which the loop passes
    obtain ⟨hpercent, -, hnul⟩ := hformat
    have hat : Mem.At format (i + 1) [0] := congrArg (· :: []) hnul
    obtain ⟨buffer', hput⟩ := hobeys (Directive.other (by decide)) (i + 1) args buffer hat
    have hlen : i < i + [(37 : UInt8)].length := by simp
    refine formatLoop_percent hlen hpercent hput ?_
    refine (Returns.const []).of_succ fun n => ?_
    rw [formatLoop, if_neg (by simp)]
  | @char c l args text hc h ih =>
    obtain ⟨h0, -, hrest⟩ := hformat
    have h0 : format i = c := h0
    have hshift : Holds (fun j => format (i + 1 + j)) l := by
      simpa only [add_assoc, add_comm 1] using hrest
    have hlen : i + (c :: l).length = i + 1 + l.length := by
      rw [List.length_cons]
      omega
    rw [hlen]
    refine ((ih hshift buffer).map (c :: ·)).of_succ fun n => ?_
    rw [formatLoop, if_pos (by omega), h0, if_neg hc]
  | @directive spec shown l text taken args hspec h ih =>
    obtain ⟨h0, -, hrest⟩ := hformat
    have hshift : Holds (fun j => format (i + 1 + j)) (spec ++ l) := by
      simpa only [add_assoc, add_comm 1] using hrest
    have hat : Mem.At format (i + 1) spec := by
      have hall := (holds_shift_iff.mp hshift).2
      rw [List.append_assoc, at_append] at hall
      exact hall.1
    have hpos : 0 < spec.length := by cases hspec <;> simp
    have hlast : i + 1 + (spec.length - 1) + 1 = i + 1 + spec.length := by omega
    have hlen : i + (37 :: (spec ++ l)).length = i + 1 + spec.length + l.length := by
      rw [List.length_cons, List.length_append]
      omega
    obtain ⟨buffer', hput⟩ := hobeys hspec (i + 1) args buffer hat
    rw [hlen]
    refine formatLoop_percent (by omega) h0 hput ?_
    change Returns (fun n => formatLoop directive format _ n (i + 1 + (spec.length - 1) + 1) args
      buffer') text
    rw [hlast]
    refine ih ?_ buffer'
    simpa only [add_assoc] using hshift.drop

/-- The loop from the first character on, behind `strlen`. -/
theorem formatLoop_strlen {directive : ℕ → ℕ → List ℕ → Mem → Option Put}
    (hobeys : Obeys m format directive) (hformat : Holds format l) (h : Prints m l args text)
    (buffer : Mem) :
    Returns (fun n => (strlen n format).bind fun len =>
      formatLoop directive format len n 0 args buffer) text := by
  have hstrlen : Returns (fun n => strlen n format) l.length :=
    ⟨l.length + 1, fun _ hn => strlen_eq hformat hn⟩
  have hshift : Holds (fun j => format (0 + j)) l := by simpa only [Nat.zero_add] using hformat
  have hloop := formatLoop_returns hobeys h hshift buffer
  rw [Nat.zero_add] at hloop
  let behind : ℕ → ℕ → Option (List UInt8) :=
    fun n len => formatLoop directive format len n 0 args buffer
  have hbehind : Returns (fun n => behind n l.length) text := hloop
  exact hstrlen.bind hbehind

/-- **What `serial_printf` shows**, with any way to show strings. -/
theorem serialPrintf_returns {puts : ℕ → (ℕ → UInt8) → Option (List UInt8)}
    (hputs : PutsStrings puts m) (hformat : Holds format l) (h : Prints m l args text)
    (buffer : Mem) : Returns (fun n => serialPrintf puts n m format args buffer) text :=
  formatLoop_strlen (obeys_serialDirective hputs format) hformat h buffer

/-- **What `kprintf` shows.** -/
theorem kprintf_returns (hformat : Holds format l) (h : Prints m l args text) (buffer : Mem) :
    Returns (fun n => kprintf n m format args buffer) text :=
  formatLoop_strlen (obeys_kprintfDirective m format) hformat h buffer

/-- **The console and the serial log**: for a format in which each `%l` is followed by a `d` or an
`x`, and arguments that match it, `kprintf` passes the same characters to `video_putc` as
`serial_printf` passes to `serial_putchar` and `serial_writestring`, whatever is in the two
buffers before. -/
theorem kprintf_serialPrintf (hformat : Holds format l) (hlong : LongFollowed l)
    (hargs : Matching m (takes l) args) (buffer buffer' : Mem) :
    ∃ text, Returns (fun n => kprintf n m format args buffer) text ∧
      Returns (fun n => serialPrintf handed n m format args buffer') text := by
  obtain ⟨text, h⟩ := exists_prints hlong hargs
  exact ⟨text, kprintf_returns hformat h buffer,
    serialPrintf_returns (putsStrings_handed m) hformat h buffer'⟩

/-- The format `%ld%`, and a number. -/
theorem kprintf_serialPrintf_long :
    ∃ text,
      Returns (fun n => kprintf n (fun _ => 0) (chars [37, 108, 100, 37]) [5] fun _ => 7) text ∧
      Returns (fun n => serialPrintf handed n (fun _ => 0) (chars [37, 108, 100, 37]) [5]
        fun _ => 9) text :=
  kprintf_serialPrintf (holds_chars (by decide)) (by simp [LongFollowed])
    (by simp [takes, Matching]) _ _

/-- **The log itself**: what is written to the port is the same, too, if no string in memory has
`2 ^ 32` characters. -/
theorem serialPrintf_log (hm : ∀ p l, Holds (fun j => m (p + j)) l → l.length < 2 ^ 32)
    (hformat : Holds format l) (h : Prints m l args text) (buffer : Mem) :
    Returns (fun n => serialPrintf serialWritestring n m format args buffer) text :=
  serialPrintf_returns (putsStrings_serialWritestring hm) hformat h buffer

/-- Behind `%l`, anything else shows nothing on the console, and is shown in the log. -/
example : (kprintfDirective (fun _ => 0) (chars [37, 108, 122]) 9 1 [] fun _ => 0).map Put.text =
      some [] ∧
    (serialDirective handed (fun _ => 0) (chars [37, 108, 122]) 9 1 [] fun _ => 0).map Put.text =
      some [37, 108, 122] := by
  decide

end Strings

end Xana
