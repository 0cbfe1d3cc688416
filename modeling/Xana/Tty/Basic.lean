import Xana.Lib.Stored
import Xana.Pipe.Basic

/-!
# The terminal

The characters that the keyboard delivers wait in the buffer of a `tty_t` until they
are read. With `ICANON` set they are read by the line: `tty_push` lets a backspace
take back the last of them, and `tty_read` waits for a newline and returns no more
than the line. The buffer is a growing array with 16-bit cursors.

Each function gets a lemma about the list of pending bytes: `Xana.ttyPush_contents`,
`Xana.ttyRead_contents`, `Xana.ttySelect_read_iff`.
-/

namespace Xana

/-- The flag `ICRNL` of `c_iflag`. -/
def icrnl : ℕ := 8

/-- The flag `ICANON` of `c_lflag`. -/
def icanon : ℕ := 8

/-- The flag `ECHO` of `c_lflag`. -/
def echo : ℕ := 3

/-- `'\b'` -/
def backspace : UInt8 := 8

/-- `'\n'` -/
def newline : UInt8 := 10

/-- `'\r'` -/
def carriageReturn : UInt8 := 13

/-- `tty_t`, less what neither reading nor pushing looks at. `buffer i` is the byte
at `tty->buffer + i`; the two cursors are `uint16_t`. -/
structure Tty where
  bufferSize : ℕ
  bufferPos : ℕ
  buffer : ℕ → UInt8
  iflag : BitVec 32
  lflag : BitVec 32

namespace Tty

/-- The `tty_t` that `create_tty` makes, with a buffer of `BASE_TTY_LENGTH` bytes in
memory that held `mem`. -/
def create (mem : ℕ → UInt8) : Tty where
  bufferSize := 1024
  bufferPos := 0
  buffer := fun i => if i < 1024 then 0 else mem i
  -- BRKINT, ICRNL, INPCK, ISTRIP and IXON
  iflag := 1#32 <<< 1 ||| 1#32 <<< icrnl ||| 1#32 <<< 4 ||| 1#32 <<< 5 ||| 1#32 <<< 9
  -- ECHO, ICANON, IEXTEN and ISIG
  lflag := 1#32 <<< echo ||| 1#32 <<< icanon ||| 1#32 <<< 10 ||| 1#32 <<< 7

/-- The pending bytes, in the order of their arrival. -/
def contents (tty : Tty) : List UInt8 := stored tty.buffer tty.bufferPos

end Tty

/-! ### The functions -/

/-- The search for a newline, with `n` bytes to look at from the `i`-th. -/
def findNewline (buffer : ℕ → UInt8) : ℕ → ℕ → Bool
  | 0, _ => false
  | n + 1, i => if buffer i = newline then true else findNewline buffer n (i + 1)

/-- `have_nl` -/
def Tty.haveNl (tty : Tty) : Bool := findNewline tty.buffer tty.bufferPos 0

/-- The bytes that `tty_read` copies up to a newline, from the `i`-th, with `n` bytes
pending from there. -/
def copyLine (buffer : ℕ → UInt8) (request : ℕ) : ℕ → ℕ → List UInt8
  | 0, _ => []
  | n + 1, i =>
      if buffer i ≠ newline ∧ i < request then buffer i :: copyLine buffer request n (i + 1)
      else []

/-- The loop that shifts the buffer by `i`, with `n` bytes to go from the `j`-th. -/
def shiftBuffer (i : ℕ) : ℕ → ℕ → (ℕ → UInt8) → ℕ → UInt8
  | 0, _, buffer => buffer
  | n + 1, j, buffer => shiftBuffer i n (j + 1) (Function.update buffer (j - i) (buffer j))

/-- `tty_read`: the bytes stored at `ptr`, what is returned, and the terminal. There
is no result if the call waits. -/
def ttyRead (size nmemb : ℕ) (tty : Tty) : Option (List UInt8 × ℕ × Tty) :=
  if tty.lflag.getLsbD icanon then
    if tty.haveNl then
      let line := copyLine tty.buffer (request size nmemb) tty.bufferPos 0
      -- the newline, if we are there
      let line := if line.length < request size nmemb ∧ tty.buffer line.length = newline then
        line ++ [newline] else line
      let i := line.length % 2 ^ 16
      some (line, i, { tty with
        buffer := shiftBuffer i (tty.bufferPos - i) i tty.buffer
        bufferPos := tty.bufferPos - i })
    else none
  else
    some (stored tty.buffer (min tty.bufferPos (request size nmemb)), tty.bufferPos,
      { tty with bufferPos := 0 })

/-- What `tty_push` makes of a character under `ICRNL`. -/
def Tty.mapped (tty : Tty) (c : UInt8) : UInt8 :=
  if tty.iflag.getLsbD icrnl ∧ c = carriageReturn then newline else c

/-- The characters that `tty_push` gives to `video_putc`. -/
def Tty.echoed (tty : Tty) (c : UInt8) : List UInt8 :=
  if tty.lflag.getLsbD echo then
    if c = backspace then if 0 < tty.bufferPos then [backspace, 32, backspace] else []
    else [c]
  else []

/-- The part of `tty_push` that makes room, in a new block that held `mem`. -/
def Tty.grow (mem : ℕ → UInt8) (tty : Tty) : Tty :=
  if tty.bufferSize ≤ tty.bufferPos then
    { tty with
      buffer := fun i => if i < tty.bufferSize then tty.buffer i else mem i
      bufferSize := tty.bufferSize * 2 % 2 ^ 16 }
  else tty

/-- The part of `tty_push` that stores a character. -/
def Tty.store (tty : Tty) (c : UInt8) : Tty :=
  { tty with
    buffer := Function.update tty.buffer tty.bufferPos c
    bufferPos := (tty.bufferPos + 1) % 2 ^ 16 }

/-- `tty_push`: what it echoes, and the terminal. A block that is allocated held
`mem`. -/
def ttyPush (mem : ℕ → UInt8) (c : UInt8) (tty : Tty) : List UInt8 × Tty :=
  let c := tty.mapped c
  (tty.echoed c,
    if tty.lflag.getLsbD icanon ∧ c = backspace then
      { tty with bufferPos := if 0 < tty.bufferPos then tty.bufferPos - 1 else tty.bufferPos }
    else (tty.grow mem).store c)

/-- `tty_select` -/
def ttySelect (tty : Tty) : SelectType → ℕ
  | .read =>
      if tty.lflag.getLsbD icanon then if tty.haveNl then 1 else 0
      else if 0 < tty.bufferPos then 1 else 0
  | .write => 1
  | .error => 0

/-! ### The loops -/

section Loops

variable {buffer : ℕ → UInt8} {req i j n : ℕ}

/-- **The search finds a newline** if there is one. -/
theorem findNewline_iff : findNewline buffer n i = true ↔ ∃ k < n, buffer (i + k) = newline := by
  induction n generalizing i with
  | zero => simp [findNewline]
  | succ n ih =>
    rw [findNewline]
    split_ifs with hi
    · exact iff_of_true rfl ⟨0, by omega, hi⟩
    · rw [ih]
      constructor
      · rintro ⟨k, hk, hnl⟩
        exact ⟨k + 1, by omega, by rwa [← add_assoc, add_right_comm]⟩
      · rintro ⟨k, hk, hnl⟩
        cases k with
        | zero => exact absurd hnl hi
        | succ k => exact ⟨k, by omega, by rwa [add_right_comm, add_assoc]⟩

theorem Tty.haveNl_iff {tty : Tty} : tty.haveNl = true ↔ newline ∈ tty.contents := by
  simp [Tty.haveNl, Tty.contents, findNewline_iff, mem_stored_iff]

/-- **The copying loop**: what is before the newline, cut at the request. -/
theorem copyLine_eq : copyLine buffer req n i =
    ((stored (fun k => buffer (i + k)) n).takeWhile (· ≠ newline)).take (req - i) := by
  induction n generalizing i with
  | zero => simp [copyLine]
  | succ n ih =>
    have hnext : ∀ k, buffer (i + 1 + k) = buffer (i + (k + 1)) := fun k => by
      rw [add_right_comm, add_assoc]
    rw [copyLine, stored_succ_eq_cons, add_zero]
    by_cases hnl : buffer i = newline
    · simp [hnl]
    · rw [List.takeWhile_cons_of_pos (by simpa using hnl)]
      by_cases hlt : i < req
      · rw [if_pos ⟨hnl, hlt⟩, ih, show req - i = req - (i + 1) + 1 by omega, List.take_succ_cons]
        simp only [hnext]
      · rw [if_neg fun h => hlt h.2, show req - i = 0 by omega, List.take_zero]

/-- **The shifting loop** moves each byte down. -/
theorem shiftBuffer_eq (hij : i ≤ j) (k : ℕ) : shiftBuffer i n j buffer k =
    if j - i ≤ k ∧ k < j - i + n then buffer (i + k) else buffer k := by
  induction n generalizing j buffer with
  | zero => rw [shiftBuffer, if_neg (by omega)]
  | succ n ih =>
    rw [shiftBuffer, ih (by omega)]
    by_cases hk : k = j - i
    · -- the byte of this round, which no later round touches
      rw [if_neg (by omega), if_pos (by omega), hk, Function.update_self]
      congr 1
      omega
    · rw [Function.update_of_ne hk]
      split_ifs with hlate hall
      · exact Function.update_of_ne (by omega) _ _
      · omega
      · omega
      · rfl

end Loops

/-! ### The functions on the pending bytes -/

/-- The length of the first line, its newline included. -/
def lineLength (pending : List UInt8) : ℕ := (pending.takeWhile (· ≠ newline)).length + 1

section Functions

variable {tty : Tty} {size nmemb : ℕ} {mem : ℕ → UInt8} {c : UInt8}

@[simp] theorem Tty.length_contents : tty.contents.length = tty.bufferPos := length_stored

theorem Tty.contents_create : (Tty.create mem).contents = [] := rfl

/-- A new terminal reads by the line. -/
theorem Tty.canonical_create : (Tty.create mem).lflag.getLsbD icanon = true := by
  show (1#32 <<< echo ||| 1#32 <<< icanon ||| 1#32 <<< 10 ||| 1#32 <<< 7).getLsbD icanon = true
  decide

/-- **Selecting for reading** says whether a read would wait. -/
theorem ttySelect_read_iff : ttySelect tty .read = 1 ↔
    if tty.lflag.getLsbD icanon then newline ∈ tty.contents else tty.contents ≠ [] := by
  have hpos : 0 < tty.bufferPos ↔ tty.contents ≠ [] := by
    rw [← Tty.length_contents, List.length_pos_iff]
  rw [← Tty.haveNl_iff, ← hpos, ttySelect]
  split_ifs <;> simp_all

/-- The first line and what is behind it. -/
theorem exists_line {pending : List UInt8} (h : newline ∈ pending) :
    ∃ front rest, pending = front ++ newline :: rest ∧
      pending.takeWhile (· ≠ newline) = front := by
  obtain ⟨front, rest, rfl, hnot⟩ := List.eq_append_cons_of_mem h
  refine ⟨front, rest, rfl, ?_⟩
  have hfront : ∀ c ∈ front, decide (c ≠ newline) = true := by
    intro c hc
    simpa using fun hnl : c = newline => hnot (hnl ▸ hc)
  rw [List.takeWhile_append_of_pos hfront, List.takeWhile_cons_of_neg (by simp), List.append_nil]

/-- **The first line, cut at a request**: the copying loop, and the newline if there is
room for it. -/
theorem take_lineLength {pending : List UInt8} (n : ℕ) (h : newline ∈ pending) :
    (if ((pending.takeWhile (· ≠ newline)).take n).length < n ∧
        pending[((pending.takeWhile (· ≠ newline)).take n).length]? = some newline then
      (pending.takeWhile (· ≠ newline)).take n ++ [newline]
    else (pending.takeWhile (· ≠ newline)).take n) =
      pending.take (min n (lineLength pending)) := by
  rw [lineLength]
  obtain ⟨front, rest, hpending, hfront⟩ := exists_line h
  rw [hfront, hpending, List.length_take]
  rcases Nat.lt_or_ge front.length n with hlt | hge
  · -- there is room for the newline
    have hwhole : front.take n = front := List.take_of_length_le hlt.le
    rw [min_eq_right hlt.le, if_pos ⟨hlt, by simp⟩, min_eq_right (by omega), hwhole,
      List.take_length_add_append]
    rfl
  · rw [min_eq_left hge, if_neg fun hc => lt_irrefl n hc.1, min_eq_left (by omega),
      List.take_append_of_le_length hge]

theorem length_takeWhile_lt {pending : List UInt8} (h : newline ∈ pending) :
    (pending.takeWhile (· ≠ newline)).length < pending.length := by
  obtain ⟨front, rest, hpending, hfront⟩ := exists_line h
  rw [hfront, hpending]
  simp

/-- The bytes that a read stores, by the code. -/
theorem Tty.line_eq {n : ℕ} (hnl : newline ∈ tty.contents) :
    (if (copyLine tty.buffer n tty.bufferPos 0).length < n ∧
        tty.buffer (copyLine tty.buffer n tty.bufferPos 0).length = newline then
      copyLine tty.buffer n tty.bufferPos 0 ++ [newline]
    else copyLine tty.buffer n tty.bufferPos 0) =
      tty.contents.take (min n (lineLength tty.contents)) := by
  have hcopy : copyLine tty.buffer n tty.bufferPos 0 =
      (tty.contents.takeWhile (· ≠ newline)).take n := by
    rw [copyLine_eq]
    simp only [zero_add, Nat.sub_zero, Tty.contents]
  have hlt : (copyLine tty.buffer n tty.bufferPos 0).length < tty.contents.length := by
    rw [hcopy]
    exact (List.length_take_le' _ _).trans_lt (length_takeWhile_lt hnl)
  have hget : tty.buffer (copyLine tty.buffer n tty.bufferPos 0).length = newline ↔
      tty.contents[(copyLine tty.buffer n tty.bufferPos 0).length]? = some newline := by
    rw [List.getElem?_eq_getElem hlt, Option.some.injEq]
    exact Iff.of_eq (congrArg (· = newline) (getElem_stored hlt).symm)
  rw [hcopy] at hget
  simp only [hcopy, hget]
  exact take_lineLength n hnl

/-- **What a read by the line does** to the pending bytes. -/
theorem ttyRead_contents (size nmemb : ℕ) (hcanon : tty.lflag.getLsbD icanon = true)
    (hpos : tty.bufferPos < 2 ^ 16) (hnl : newline ∈ tty.contents) :
    ∃ tty', ttyRead size nmemb tty =
        some (tty.contents.take (min (request size nmemb) (lineLength tty.contents)),
          min (request size nmemb) (lineLength tty.contents), tty') ∧
      tty'.contents = tty.contents.drop (min (request size nmemb) (lineLength tty.contents)) ∧
      tty'.bufferPos ≤ tty.bufferPos ∧ tty'.bufferSize = tty.bufferSize ∧
      tty'.iflag = tty.iflag ∧ tty'.lflag = tty.lflag := by
  have hline := Tty.line_eq (n := request size nmemb) hnl
  have hle : min (request size nmemb) (lineLength tty.contents) ≤ tty.contents.length :=
    (min_le_right _ _).trans (length_takeWhile_lt hnl)
  obtain ⟨i, hi⟩ : ∃ i, min (request size nmemb) (lineLength tty.contents) = i := ⟨_, rfl⟩
  rw [hi] at hline hle ⊢
  have hlength : (tty.contents.take i).length % 2 ^ 16 = i := by
    rw [List.length_take, min_eq_left hle]
    rw [Tty.length_contents] at hle
    omega
  refine ⟨{ tty with
      buffer := shiftBuffer i (tty.bufferPos - i) i tty.buffer
      bufferPos := tty.bufferPos - i }, ?_, ?_, ?_, rfl, rfl, rfl⟩
  · rw [ttyRead, if_pos hcanon, if_pos (Tty.haveNl_iff.mpr hnl)]
    simp only [hline, hlength]
  · refine stored_of_shift fun k hk => ?_
    show shiftBuffer i (tty.bufferPos - i) i tty.buffer k = _
    rw [shiftBuffer_eq le_rfl, if_pos (by omega)]
  · exact Nat.sub_le _ _

/-- A read that finds no newline waits. -/
theorem ttyRead_isSome_iff (hcanon : tty.lflag.getLsbD icanon = true) :
    (ttyRead size nmemb tty).isSome ↔ newline ∈ tty.contents := by
  rw [ttyRead, if_pos hcanon, ← Tty.haveNl_iff]
  split_ifs with hnl <;> simp [hnl]

/-- **The cursors**: what is pending fits the buffer. -/
structure Tty.Fits (tty : Tty) : Prop where
  pos_le : tty.bufferPos ≤ tty.bufferSize
  size_pos : 0 < tty.bufferSize
  size_lt : tty.bufferSize < 2 ^ 16

theorem Tty.fits_create : (Tty.create mem).Fits := by
  refine ⟨Nat.zero_le _, ?_, ?_⟩
  all_goals
    show _ < _
    simp [Tty.create]

/-- **Making room** keeps the pending bytes. -/
theorem Tty.Fits.grow (mem : ℕ → UInt8) (h : tty.Fits) (hlt : tty.bufferPos < 2 ^ 15) :
    (tty.grow mem).Fits ∧ (tty.grow mem).contents = tty.contents ∧
      (tty.grow mem).bufferPos = tty.bufferPos ∧ tty.bufferPos < (tty.grow mem).bufferSize := by
  obtain ⟨hle, hpos, hsize⟩ := h
  rw [Tty.grow]
  split_ifs with hfull
  · have hcopied : ∀ i < tty.bufferPos,
        (if i < tty.bufferSize then tty.buffer i else mem i) = tty.buffer i := by
      intro i hi
      rw [if_pos (by omega)]
    -- a buffer that is full and holds less than half of 65536 bytes can be doubled
    have hdouble : tty.bufferSize * 2 % 2 ^ 16 = tty.bufferSize * 2 := by omega
    rw [hdouble]
    refine ⟨⟨?_, ?_, ?_⟩, stored_congr hcopied, rfl, ?_⟩
    all_goals
      dsimp only
      omega
  · exact ⟨⟨hle, hpos, hsize⟩, rfl, rfl, by omega⟩

/-- **Storing** appends. -/
theorem Tty.Fits.store (h : tty.Fits) (hlt : tty.bufferPos < tty.bufferSize) :
    (tty.store c).Fits ∧ (tty.store c).contents = tty.contents ++ [c] := by
  have hsucc : (tty.bufferPos + 1) % 2 ^ 16 = tty.bufferPos + 1 := by
    have := h.size_lt
    omega
  rw [Tty.store, hsucc]
  exact ⟨⟨hlt, h.size_pos, h.size_lt⟩, stored_push⟩

/-- **What pushing does** to the pending bytes, with `ICANON` set. -/
theorem ttyPush_contents (mem : ℕ → UInt8) (hcanon : tty.lflag.getLsbD icanon = true) (h : tty.Fits)
    (hlt : tty.mapped c ≠ backspace → tty.bufferPos < 2 ^ 15) :
    (ttyPush mem c tty).2.Fits ∧ (ttyPush mem c tty).2.contents =
      if tty.mapped c = backspace then tty.contents.dropLast
      else tty.contents ++ [tty.mapped c] := by
  simp only [ttyPush, hcanon, true_and]
  split_ifs with hback hsome
  · refine ⟨⟨(Nat.sub_le _ _).trans h.pos_le, h.size_pos, h.size_lt⟩, stored_sub_one⟩
  · refine ⟨h, ?_⟩
    have hnone : tty.contents = [] := by
      rw [← List.length_eq_zero_iff, Tty.length_contents]
      omega
    show tty.contents = tty.contents.dropLast
    rw [hnone, List.dropLast_nil]
  · obtain ⟨hfits, hsame, hpos, hroom⟩ := h.grow mem (hlt hback)
    obtain ⟨hfits', hstore⟩ := hfits.store (c := tty.mapped c) (by omega)
    exact ⟨hfits', hstore.trans (by rw [hsame])⟩

@[simp] theorem ttyPush_lflag : (ttyPush mem c tty).2.lflag = tty.lflag := by
  simp only [ttyPush, Tty.store, Tty.grow]
  split_ifs <;> rfl

@[simp] theorem ttyPush_iflag : (ttyPush mem c tty).2.iflag = tty.iflag := by
  simp only [ttyPush, Tty.store, Tty.grow]
  split_ifs <;> rfl

end Functions

end Xana
