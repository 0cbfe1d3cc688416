import Xana.Video.Cursor
import Xana.Video.Sgr

/-!
# The sequence that sets the cursor

`ESC [ r ; c H` is meant to put the cursor at row `r` and column `c`, counted from 1, where a
number that is missing or zero counts as 1 and one that is too large as the last.
`handleHome` reads the numbers, subtracts 1 from each and passes them on, the row first; the
first argument of `video_set_cursor` is the column. So what is right is `ESC [ H`, which is
treated apart, and otherwise the numbers of which each is what the other one should give:
those of a cell on the diagonal, as far as they fit 32 bits (`Xana.home_iff`).
-/

namespace Xana

open Mem

/-- The number that digits stand for. -/
def number (digits : List UInt8) : ℕ := digits.foldl (fun v c => v * 10 + (c.toNat - 48)) 0

/-- **The sequence for a row and a column**, by their digits, of which there may be none; of the
column the semicolon may be missing too. -/
def homeText (row : List UInt8) (column : Option (List UInt8)) : List UInt8 :=
  91 :: (row ++ (column.elim [] fun digits => 59 :: digits)) ++ [72]

/-- A number from 1 to `n` that is missing or zero counts as 1, one that is too large as `n`. -/
def clampTo (n v : ℕ) : ℕ := min (max v 1) n

/-- Where the cursor should be put. -/
def homeTarget (screen : Screen) (row column : ℕ) : Cursor :=
  ⟨clampTo screen.cols column - 1, clampTo screen.rows row - 1⟩

/-- `parse_escape_sequence` of a text puts the cursor at `q`, whatever the console is like. -/
def PutsCursor (src : FrameSource) (screen : Screen) (text : List UInt8) (q : Cursor) : Prop :=
  ∀ c : Console, Holds c.sequence text →
    Returns (fun n => (parseEscapeSequence screen n (videoPutc src screen n) c).map Console.cursor)
      q

/-- What the loop of `handleHome` computes over the characters before the `H`. -/
def runHome : List UInt8 → ℕ → ℕ → ℕ → ℕ × ℕ
  | [], row, col, _ => (row, col)
  | c :: text, row, col, i =>
      if isDigit c then
        if i = 0 then runHome text (addDigit row c) col i
        else runHome text row (addDigit col c) i
      else if c = 59 then runHome text row col ((i + 1) % 2 ^ 32)
      else runHome text row col i

/-! ### The loop -/

section Loop

variable {seq : ℕ → UInt8} {text digits : List UInt8} {k n row col i v : ℕ} {c : UInt8}
  {column : Option (List UInt8)}

theorem homeNumbers_eq (hseq : Mem.At seq k (text ++ [72])) (hH : 72 ∉ text)
    (hn : text.length < n) :
    homeNumbers n (fun i => seq (k + i)) row col i = some (runHome text row col i) := by
  induction text generalizing k row col i n with
  | nil =>
    obtain ⟨n, rfl⟩ := Nat.exists_eq_succ_of_ne_zero hn.ne'
    have h0 : seq (k + 0) = 72 := by simpa [Mem.At, Mem.read] using hseq
    rw [homeNumbers, if_pos h0]
    rfl
  | cons c text ih =>
    obtain ⟨n, rfl⟩ := Nat.exists_eq_succ_of_ne_zero (Nat.ne_zero_of_lt hn)
    rw [List.mem_cons, not_or] at hH
    obtain ⟨h0, hrest⟩ := List.cons.inj hseq
    have hshift : (fun i => seq (k + (i + 1))) = fun i => seq (k + 1 + i) := by
      funext i
      rw [add_assoc, add_comm 1 i]
    have hnext : ∀ {row col i : ℕ}, homeNumbers n (fun i => seq (k + 1 + i)) row col i =
        some (runHome text row col i) := ih hrest hH.2 (Nat.lt_of_succ_lt_succ hn)
    have h0' : seq (k + 0) = c := h0
    simp only [homeNumbers]
    rw [h0', if_neg fun h => hH.1 h.symm, runHome, hshift]
    split_ifs
    · exact hnext
    · exact hnext
    · exact hnext
    · exact hnext

/-- The digits of a number, read in 32 bits. -/
theorem foldl_addDigit_number (digits : List UInt8) :
    digits.foldl addDigit 0 = number digits % 2 ^ 32 := by
  have hfold : ∀ v, digits.foldl addDigit (v % 2 ^ 32) =
      digits.foldl (fun v c => v * 10 + (c.toNat - 48)) v % 2 ^ 32 := by
    induction digits with
    | nil => exact fun _ => rfl
    | cons c digits ih =>
      intro v
      have hstep : addDigit (v % 2 ^ 32) c = (v * 10 + (c.toNat - 48)) % 2 ^ 32 := by
        rw [addDigit]
        omega
      rw [List.foldl_cons, List.foldl_cons, hstep]
      exact ih _
  exact hfold 0

theorem runHome_digits (hdigits : ∀ c ∈ digits, isDigit c = true) (text : List UInt8)
    (row col i : ℕ) : runHome (digits ++ text) row col i =
    if i = 0 then runHome text (digits.foldl addDigit row) col i
    else runHome text row (digits.foldl addDigit col) i := by
  induction digits generalizing row col with
  | nil => simp
  | cons c digits ih =>
    obtain ⟨hc, hdigits⟩ := List.forall_mem_cons.mp hdigits
    rw [List.cons_append, runHome, if_pos hc, ih hdigits, ih hdigits]
    split_ifs <;> rfl

/-- **The loop reads the two numbers.** -/
theorem runHome_homeText (hrow : ∀ c ∈ digits, isDigit c = true)
    (hcolumn : ∀ l ∈ column, ∀ c ∈ l, isDigit c = true) :
    runHome (91 :: (digits ++ (column.elim [] fun digits => 59 :: digits))) 0 0 0 =
      (number digits % 2 ^ 32, number (column.getD []) % 2 ^ 32) := by
  rw [runHome, if_neg (by decide), if_neg (by decide), runHome_digits hrow, if_pos rfl,
    foldl_addDigit_number]
  cases column with
  | none => rfl
  | some l =>
    have hl := runHome_digits (hcolumn l rfl) [] (number digits % 2 ^ 32) 0 1
    rw [List.append_nil, if_neg (by decide), foldl_addDigit_number] at hl
    rw [Option.elim_some, runHome, if_neg (by decide), if_pos rfl]
    exact hl

end Loop

/-! ### The parser -/

section Parser

variable {src : FrameSource} {screen : Screen} {text row : List UInt8} {c : Console} {d : UInt8}
  {column : Option (List UInt8)} {p q : Cursor}

theorem homeText_digits (hrow : ∀ c ∈ row, isDigit c = true)
    (hcolumn : ∀ l ∈ column, ∀ c ∈ l, isDigit c = true) :
    72 ∉ 91 :: (row ++ (column.elim [] fun digits => 59 :: digits)) := by
  intro hmem
  rcases List.mem_cons.mp hmem with h | h
  · exact absurd h (by decide)
  rcases List.mem_append.mp h with h | h
  · exact absurd (hrow _ h) (by decide)
  cases column with
  | none => simp at h
  | some l =>
    rcases List.mem_cons.mp h with h | h
    · exact absurd h (by decide)
    · exact absurd (hcolumn l rfl _ h) (by decide)

/-- Where `handleHome` puts the cursor. -/
def homeResult (row : List UInt8) (column : Option (List UInt8)) : Cursor :=
  if row = [] ∧ column = none then ⟨0, 0⟩
  else homeCursor (number row % 2 ^ 32) (number (column.getD []) % 2 ^ 32)

theorem handleHome_eq (hrow : ∀ c ∈ row, isDigit c = true)
    (hcolumn : ∀ l ∈ column, ∀ c ∈ l, isDigit c = true) (h : Holds c.sequence (homeText row column))
    {n : ℕ} (hn : (homeText row column).length < n) :
    handleHome n c.sequence = some (homeResult row column) := by
  have hat : Mem.At c.sequence 0 (homeText row column) := by
    have hat := (holds_iff.mp h).2
    rw [at_append] at hat
    exact hat.1
  -- the letter is the second character only if there is nothing in between
  have hsecond : c.sequence 1 = 72 ↔ row = [] ∧ column = none := by
    have hone := hat.apply (n := 1) (by simp [homeText])
    rw [Nat.zero_add] at hone
    rw [hone]
    cases row with
    | nil => cases column <;> simp [homeText]
    | cons d row =>
      have hd := hrow d List.mem_cons_self
      refine iff_of_false (fun hc => ?_) (by simp)
      have hc' : d = 72 := hc
      rw [hc'] at hd
      exact absurd hd (by decide)
  have hnumbers : homeNumbers n (fun i => c.sequence (0 + i)) 0 0 0 = some _ :=
    homeNumbers_eq hat (homeText_digits hrow hcolumn)
      (by rw [homeText, List.length_append] at hn; omega)
  simp only [Nat.zero_add] at hnumbers
  rw [runHome_homeText hrow hcolumn] at hnumbers
  rw [handleHome, homeResult]
  by_cases hempty : row = [] ∧ column = none
  · rw [if_pos hempty, if_pos (hsecond.mpr hempty)]
  · have hnumbers' : homeNumbers n c.sequence 0 0 0 =
        some (number row % 2 ^ 32, number (column.getD []) % 2 ^ 32) := hnumbers
    rw [if_neg hempty, if_neg fun h => hempty (hsecond.mp h), hnumbers']
    rfl

/-- **Where the sequence puts the cursor.** -/
theorem putsCursor_homeResult (hrow : ∀ c ∈ row, isDigit c = true)
    (hcolumn : ∀ l ∈ column, ∀ c ∈ l, isDigit c = true) :
    PutsCursor src screen (homeText row column) (homeResult row column) := by
  intro c hc
  refine ⟨(homeText row column).length + 1, fun n hn => ?_⟩
  have hlength := strlen_eq hc (n := n) (by omega)
  have hcommand := Console.command_eq hc
  have hhome := handleHome_eq hrow hcolumn hc (n := n) (by omega)
  have hcommand' : c.machine.mem (c.escapeSequence + (homeText row column).length - 1) = 72 :=
    hcommand
  simp only [parseEscapeSequence, hlength, hhome, Option.bind_eq_bind, Option.bind_some, hcommand']
  rfl

/-- It puts it there only. -/
theorem PutsCursor.unique (htext : 0 ∉ text) (hp : PutsCursor src screen text p)
    (hq : PutsCursor src screen text q) : p = q := by
  obtain ⟨c, hc⟩ := exists_console htext
  exact (hp c hc).unique (hq c hc)

theorem zero_notMem_homeText (hrow : ∀ c ∈ row, isDigit c = true)
    (hcolumn : ∀ l ∈ column, ∀ c ∈ l, isDigit c = true) : 0 ∉ homeText row column := by
  intro hmem
  rcases List.mem_append.mp hmem with hmem | hmem
  · rcases List.mem_cons.mp hmem with h | h
    · exact absurd h (by decide)
    rcases List.mem_append.mp h with h | h
    · exact absurd (hrow _ h) (by decide)
    cases column with
    | none => simp at h
    | some l =>
      rcases List.mem_cons.mp h with h | h
      · exact absurd h (by decide)
      · exact absurd (hcolumn l rfl _ h) (by decide)
  · exact absurd (List.mem_singleton.mp hmem) (by decide)

/-- **Where the cursor is put.** -/
theorem putsCursor_iff (hrow : ∀ c ∈ row, isDigit c = true)
    (hcolumn : ∀ l ∈ column, ∀ c ∈ l, isDigit c = true) :
    PutsCursor src screen (homeText row column) q ↔ homeResult row column = q := by
  have hresult : PutsCursor src screen (homeText row column) (homeResult row column) :=
    putsCursor_homeResult hrow hcolumn
  constructor
  · exact fun h => hresult.unique (zero_notMem_homeText hrow hcolumn) h
  · rintro rfl
    exact hresult

/-- **When the cursor is put where it should be.** -/
theorem home_iff (hv : screen.Valid) (hrow : ∀ c ∈ row, isDigit c = true)
    (hcolumn : ∀ l ∈ column, ∀ c ∈ l, isDigit c = true) :
    PutsCursor src screen (homeText row column)
        (homeTarget screen (number row) (number (column.getD []))) ↔
      (row = [] ∧ column = none) ∨
        (number row % 2 ^ 32 = clampTo screen.cols (number (column.getD [])) ∧
          number (column.getD []) % 2 ^ 32 = clampTo screen.rows (number row)) := by
  have hcols := hv.cols_pos
  have hcols' := hv.cols_lt
  have hrows := hv.rows_pos
  have hrows' := hv.rows_lt
  rw [putsCursor_iff hrow hcolumn, homeResult]
  split_ifs with hempty
  · refine iff_of_true ?_ (Or.inl hempty)
    rw [hempty.1, hempty.2]
    simp only [homeTarget, number, clampTo, Option.getD_none, List.foldl_nil, Cursor.mk.injEq]
    omega
  · rw [or_iff_right hempty]
    simp only [homeCursor, homeTarget, clampTo, Cursor.mk.injEq]
    omega

/-- For numbers that fit 32 bits: those of a cell on the diagonal. -/
theorem home_iff_diagonal (hv : screen.Valid) (hrow : ∀ c ∈ row, isDigit c = true)
    (hcolumn : ∀ l ∈ column, ∀ c ∈ l, isDigit c = true) (hne : ¬(row = [] ∧ column = none))
    (hlt : number row < 2 ^ 32) (hlt' : number (column.getD []) < 2 ^ 32) :
    PutsCursor src screen (homeText row column)
        (homeTarget screen (number row) (number (column.getD []))) ↔
      number row = number (column.getD []) ∧ 0 < number row ∧ number row ≤ screen.cols ∧
        number row ≤ screen.rows := by
  have hcols := hv.cols_pos
  have hrows := hv.rows_pos
  have hcols' := hv.cols_lt
  have hrows' := hv.rows_lt
  rw [putsCursor_iff hrow hcolumn, homeResult, if_neg hne, Nat.mod_eq_of_lt hlt,
    Nat.mod_eq_of_lt hlt']
  simp only [homeCursor, homeTarget, clampTo, Cursor.mk.injEq]
  omega

theorem home_iff_screen : PutsCursor bootFrames bootScreen (homeText [] none) ⟨0, 0⟩ :=
  (@home_iff bootFrames bootScreen [] none bootScreen_valid (by simp) (by simp)).mpr
    (Or.inl ⟨rfl, rfl⟩)

/-- `ESC [ 1 ; 2 H` puts the cursor in the second row and the first column. -/
theorem not_home : ¬∀ (src : FrameSource) (screen : Screen) (row : List UInt8)
    (column : Option (List UInt8)), screen.Valid → (∀ c ∈ row, isDigit c = true) →
      (∀ l ∈ column, ∀ c ∈ l, isDigit c = true) → PutsCursor src screen (homeText row column)
        (homeTarget screen (number row) (number (column.getD []))) := by
  intro hall
  have hrow : ∀ c ∈ ([49] : List UInt8), isDigit c = true := by simp [isDigit]
  have hcolumn : ∀ l ∈ some ([50] : List UInt8), ∀ c ∈ l, isDigit c = true := by simp [isDigit]
  have hright := hall bootFrames bootScreen [49] (some [50]) bootScreen_valid hrow hcolumn
  have heq := (putsCursor_iff hrow hcolumn).mp hright
  revert heq
  decide

end Parser

end Xana
