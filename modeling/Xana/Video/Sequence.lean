import Xana.Video.Ansi

/-!
# The buffer of an escape sequence

The characters of a sequence are collected in a buffer of 64 bytes, each with a `NUL` behind
it. `handle_escape_sequence_char` makes room for the character; for the `NUL` it does not,
so that of the 64th character is written behind the buffer. And if the first character is
not a `[`, the sequence ends before anything has been stored; `parse_escape_sequence` looks
at the last character all the same, which is the byte before the buffer.

Here the indices are noted that the buffer is written at, with the size that it had been
given then, and those that it is read at. They are in the buffer just for the sequences
that begin with `[` and have at most 63 characters (`Xana.EscapeBuffer.inside_iff`).
-/

namespace Xana

/-- The variables of `ansi.c` that are about the buffer. `bytes i` is the byte at
`escape_sequence + i`; the buffer has been given `allocated` bytes. Each index that has been
`written` comes with what the buffer had been given then. -/
structure EscapeBuffer where
  bytes : ℤ → UInt8
  length : ℕ
  bufferSize : ℕ
  allocated : ℕ
  inEscapeSequence : Bool
  written : List (ℕ × ℕ)

namespace EscapeBuffer

/-- The buffer that `begin_escape_sequence` makes, in a block that held `mem`. -/
def start (mem : ℤ → UInt8) : EscapeBuffer where
  bytes := Function.update mem 0 0
  length := 0
  bufferSize := 64
  allocated := 64
  inEscapeSequence := true
  written := [(0, 64)]

/-- The part of `handle_escape_sequence_char` that stores a character and a `NUL`. -/
def store (c : UInt8) (b : EscapeBuffer) : EscapeBuffer :=
  let length : ℕ := (b.length + 1) % 2 ^ 32
  { b with
    bytes := Function.update (Function.update b.bytes b.length c) length 0
    length := length
    written := b.written ++ [(b.length, b.allocated), (length, b.allocated)] }

section Handle

variable (krealloc : (ℤ → UInt8) → ℕ → ℤ → UInt8)

/-- The part of `handle_escape_sequence_char` that makes room. `krealloc bytes size` is what
is in a block with `bytes` when it has been given `size` bytes. -/
def grow (b : EscapeBuffer) : EscapeBuffer :=
  if b.bufferSize ≤ b.length then
    { b with
      bytes := krealloc b.bytes ((b.length + 64) % 2 ^ 32)
      bufferSize := (b.bufferSize + 64) % 2 ^ 64
      allocated := (b.length + 64) % 2 ^ 32 }
  else b

/-- `handle_escape_sequence_char` -/
def handle (c : UInt8) (b : EscapeBuffer) : EscapeBuffer :=
  if b.length = 0 then
    if c ≠ 91 then { b with inEscapeSequence := false } else (b.grow krealloc).store c
  else if inSequence c then (b.grow krealloc).store c
  else { b.grow krealloc with inEscapeSequence := false }.store c

/-- The characters that `video_putc` passes on, one after the other, while the sequence has
not ended. -/
def feed : EscapeBuffer → List UInt8 → EscapeBuffer
  | b, [] => b
  | b, c :: cs => if b.inEscapeSequence then feed (b.handle krealloc c) cs else b

end Handle

/-! ### The parser's reads -/

/-- A loop over the string that ends at `c`, in at most `n` rounds: the index of `c`. -/
def seek (c : UInt8) : ℕ → (ℕ → UInt8) → Option ℕ
  | 0, _ => none
  | n + 1, seq => if seq 0 ≠ c then (seek c n fun i => seq (i + 1)).map (· + 1) else some 0

/-- The indices that the loop of `parse_escape_sequence` reads that echoes, with `n`
characters to go from the `i`-th. An `ESC` begins a new sequence, in a new buffer, and the
loop ends. -/
def echoIndices (seq : ℕ → UInt8) : ℕ → ℕ → List ℕ
  | 0, _ => []
  | n + 1, i => i :: if control (seq i) = some .escape then [] else echoIndices seq n (i + 1)

/-- The first `n` indices. -/
def indices (n : ℕ) : List ℤ := (List.range n).map fun i : ℕ => (i : ℤ)

/-- The indices that a branch of `parse_escape_sequence` reads, of a sequence of `length`
characters, in at most `n` rounds. -/
def commandReads (n : ℕ) (command : UInt8) (seq : ℕ → UInt8) (length : ℕ) : Option (List ℤ) :=
  if command = 109 then (seek 109 n seq).map fun last => indices (last + 1)
  else if command = 74 then some [1]
  else if command = 72 then
    if seq 1 = 72 then some [1]
    else (seek 72 n seq).map fun last => 1 :: indices (last + 1)
  else some ((echoIndices seq length 0).map fun i : ℕ => (i : ℤ))

/-- The indices of the buffer that `parse_escape_sequence(escape_sequence)` reads. -/
def parseReads (n : ℕ) (b : EscapeBuffer) : Option (List ℤ) := do
  let seq := fun i : ℕ => b.bytes i
  let length ← strlen n seq
  let reads ← commandReads n (b.bytes ((length : ℤ) - 1)) seq b.length
  return indices (length + 1) ++ (length - 1 : ℤ) :: reads

/-! ### The law and its condition -/

/-- **A sequence is collected and parsed inside the buffer.** -/
structure Inside (krealloc : (ℤ → UInt8) → ℕ → ℤ → UInt8) (mem : ℤ → UInt8) (cs : List UInt8) :
    Prop where
  /-- What is written is in the block, -/
  written : ∀ w ∈ (feed krealloc (start mem) cs).written, w.1 < w.2
  /-- and what is read of a sequence that has ended is in the sequence, or its `NUL`. -/
  reads : (feed krealloc (start mem) cs).inEscapeSequence = false →
    ∃ reads, Returns (fun n => parseReads n (feed krealloc (start mem) cs)) reads ∧
      ∀ i ∈ reads, 0 ≤ i ∧ i ≤ ((feed krealloc (start mem) cs).length : ℤ)

/-- The number of characters up to the first that ends a sequence, and with it. -/
def untilEnd : List UInt8 → ℕ
  | [] => 0
  | c :: cs => if inSequence c then untilEnd cs + 1 else 1

/-- **The sequences that are no trouble**: they begin with `[`, and they have 63 characters
at most. -/
def Fits : List UInt8 → Prop
  | [] => True
  | c :: cs => c = 91 ∧ untilEnd cs + 1 ≤ 63

section Reads

variable {seq : ℕ → UInt8} {c : UInt8} {i j k n : ℕ}

/-- **A loop that ends at `c`** ends at the first `c`. -/
theorem exists_seek (seq : ℕ → UInt8) (h : seq k = c) :
    ∃ j ≤ k, seq j = c ∧ ∀ n > k, seek c n seq = some j := by
  induction k generalizing seq with
  | zero =>
    refine ⟨0, le_rfl, h, fun n hn => ?_⟩
    cases n with
    | zero => exact absurd hn (Nat.lt_irrefl 0)
    | succ n => rw [seek, if_neg (not_not.mpr h)]
  | succ k ih =>
    by_cases hhead : seq 0 = c
    · refine ⟨0, Nat.zero_le _, hhead, fun n hn => ?_⟩
      cases n with
      | zero => exact absurd hn (Nat.not_lt_zero _)
      | succ n => rw [seek, if_neg (not_not.mpr hhead)]
    · obtain ⟨j, hj, hc, hseek⟩ := ih (fun i => seq (i + 1)) h
      refine ⟨j + 1, Nat.succ_le_succ hj, hc, fun n hn => ?_⟩
      cases n with
      | zero => exact absurd hn (Nat.not_lt_zero _)
      | succ n => rw [seek, if_pos hhead, hseek n (Nat.lt_of_succ_lt_succ hn), Option.map_some]

theorem strlen_eq_seek : strlen n seq = seek 0 n seq := by
  induction n generalizing seq with
  | zero => rfl
  | succ n ih => rw [strlen, seek, ih]

theorem lt_of_mem_echoIndices (h : j ∈ echoIndices seq n i) : j < i + n := by
  induction n generalizing i with
  | zero => exact absurd h List.not_mem_nil
  | succ n ih =>
    rw [echoIndices] at h
    rcases List.mem_cons.mp h with rfl | h
    · omega
    · split_ifs at h with hescape
      · exact absurd h List.not_mem_nil
      · have := ih h
        omega

theorem of_mem_indices {z : ℤ} (h : z ∈ indices n) : 0 ≤ z ∧ z < n := by
  obtain ⟨i, hi, rfl⟩ := List.mem_map.mp h
  have := List.mem_range.mp hi
  omega

/-- **A branch of the parser reads nothing but the sequence**, if its command is in it: each
of the loops ends there. -/
theorem exists_commandReads (seq : ℕ → UInt8) {length : ℕ} (hk : k < length) (hpos : 1 < length) :
    ∃ reads, (∀ n > k, commandReads n (seq k) seq length = some reads) ∧
      ∀ i ∈ reads, 0 ≤ i ∧ i ≤ (length : ℤ) := by
  obtain ⟨j, hj, -, hseek⟩ := exists_seek seq (Eq.refl (seq k))
  have hindices : ∀ i ∈ indices (j + 1), 0 ≤ i ∧ i ≤ (length : ℤ) := by
    intro i hi
    have := of_mem_indices hi
    omega
  have hone : (0 : ℤ) ≤ 1 ∧ (1 : ℤ) ≤ length := by omega
  by_cases hm : seq k = 109
  · refine ⟨indices (j + 1), fun n hn => ?_, hindices⟩
    rw [commandReads, if_pos hm, ← hm, hseek n hn, Option.map_some]
  by_cases hJ : seq k = 74
  · refine ⟨[1], fun n _ => ?_, fun i hi => List.mem_singleton.mp hi ▸ hone⟩
    rw [commandReads, if_neg hm, if_pos hJ]
  by_cases hH : seq k = 72
  · by_cases hhome : seq 1 = 72
    · refine ⟨[1], fun n _ => ?_, fun i hi => List.mem_singleton.mp hi ▸ hone⟩
      rw [commandReads, if_neg hm, if_neg hJ, if_pos hH, if_pos hhome]
    · refine ⟨1 :: indices (j + 1), fun n hn => ?_, List.forall_mem_cons.mpr ⟨hone, hindices⟩⟩
      rw [commandReads, if_neg hm, if_neg hJ, if_pos hH, if_neg hhome, ← hH, hseek n hn,
        Option.map_some]
  · refine ⟨(echoIndices seq length 0).map fun i : ℕ => (i : ℤ), fun n _ => ?_, fun i hi => ?_⟩
    · rw [commandReads, if_neg hm, if_neg hJ, if_neg hH]
    · obtain ⟨j, hj, rfl⟩ := List.mem_map.mp hi
      have := lt_of_mem_echoIndices hj
      omega

end Reads

section Parse

variable {b : EscapeBuffer} {n : ℕ} {reads : List ℤ}

/-- **The parser reads the byte before the `NUL`**, whatever else it does. -/
theorem mem_parseReads {length : ℕ} (hlen : strlen n (fun i : ℕ => b.bytes i) = some length)
    (h : parseReads n b = some reads) : (length - 1 : ℤ) ∈ reads := by
  simp only [parseReads, hlen, Option.bind_eq_bind, Option.bind_some] at h
  obtain ⟨rest, -, h⟩ := Option.bind_eq_some_iff.mp h
  rw [← Option.some.inj h]
  exact List.mem_append_right _ List.mem_cons_self

/-- **Of a sequence with its `NUL`, the parser reads nothing else.** -/
theorem exists_parseReads (hfirst : b.bytes 0 ≠ 0) (hlast : b.bytes b.length = 0)
    (hpos : 1 < b.length) : ∃ reads, Returns (fun n => parseReads n b) reads ∧
      ∀ i ∈ reads, 0 ≤ i ∧ i ≤ (b.length : ℤ) := by
  obtain ⟨length, hle, hnul, hlen⟩ := exists_seek (fun i : ℕ => b.bytes i) hlast
  have hne : length ≠ 0 := by
    rintro rfl
    exact hfirst hnul
  have hcast : ((length - 1 : ℕ) : ℤ) = length - 1 := by omega
  have hcommand : length - 1 < b.length := by omega
  obtain ⟨reads, hreads, hin⟩ := exists_commandReads (fun i : ℕ => b.bytes i) hcommand hpos
  rw [hcast] at hreads
  refine ⟨indices (length + 1) ++ (length - 1 : ℤ) :: reads, ⟨b.length + 1, fun n hn => ?_⟩,
    fun i hi => ?_⟩
  · simp only [parseReads, strlen_eq_seek, hlen n hn, Option.bind_eq_bind, Option.bind_some,
      hreads n (by omega)]
    rfl
  · rcases List.mem_append.mp hi with hi | hi
    · have := of_mem_indices hi
      omega
    · rcases List.mem_cons.mp hi with rfl | hi
      · omega
      · exact hin i hi

end Parse

/-! ### Collecting -/

section Feed

variable {krealloc : (ℤ → UInt8) → ℕ → ℤ → UInt8} {mem : ℤ → UInt8} {b : EscapeBuffer} {c : UInt8}
  {cs : List UInt8}

/-- **The invariant of a sequence that has begun** and has at most 63 characters. -/
structure Collects (b : EscapeBuffer) : Prop where
  first : b.bytes 0 = 91
  last : b.bytes b.length = 0
  pos : 0 < b.length
  le : b.length ≤ 63
  size_eq : b.bufferSize = 64
  allocated_eq : b.allocated = 64
  written : ∀ w ∈ b.written, w.1 < w.2

theorem grow_eq (hsize : b.bufferSize = 64) (hlen : b.length < 64) : b.grow krealloc = b :=
  if_neg (by omega)

/-- A character in the sequence is stored, and the last one too. -/
theorem handle_eq (hsize : b.bufferSize = 64) (hpos : 0 < b.length) (hlen : b.length < 64) :
    b.handle krealloc c =
      { b with inEscapeSequence := b.inEscapeSequence && inSequence c }.store c := by
  rw [handle, if_neg (Nat.ne_of_gt hpos), grow_eq hsize hlen]
  cases hin : inSequence c
  · rw [if_neg Bool.false_ne_true, Bool.and_false]
  · rw [if_pos rfl, Bool.and_true]

/-- **Storing**, with room for the character and the `NUL`. -/
theorem Collects.store (h : b.Collects) (hlt : b.length < 63) (flag : Bool) :
    ({ b with inEscapeSequence := flag }.store c).Collects ∧
      ({ b with inEscapeSequence := flag }.store c).length = b.length + 1 := by
  have hmod : (b.length + 1) % 2 ^ 32 = b.length + 1 := by omega
  have hlength : ({ b with inEscapeSequence := flag }.store c).length = b.length + 1 := hmod
  have hpos := h.pos
  refine ⟨⟨?_, ?_, ?_, ?_, h.size_eq, h.allocated_eq, ?_⟩, hlength⟩
  · show Function.update (Function.update b.bytes b.length c) ((b.length + 1) % 2 ^ 32 : ℕ) 0 0 = 91
    rw [hmod, Function.update_of_ne (by omega), Function.update_of_ne (by omega), h.first]
  · exact Function.update_self _ _ _
  · rw [hlength]
    exact Nat.succ_pos _
  · omega
  · intro w hw
    have hsize := h.allocated_eq
    rcases List.mem_append.mp hw with hw | hw
    · exact h.written w hw
    · dsimp only at hw
      rw [hmod] at hw
      rcases List.mem_cons.mp hw with rfl | hw
      · dsimp only
        omega
      · rw [List.mem_singleton.mp hw]
        dsimp only
        omega

/-- What has been written stays written. -/
theorem mem_written_handle {w : ℕ × ℕ} (h : w ∈ b.written) : w ∈ (b.handle krealloc c).written := by
  have hgrow : w ∈ (b.grow krealloc).written := by
    rw [grow]
    split_ifs
    · exact h
    · exact h
  rw [handle]
  split_ifs
  · exact h
  · exact List.mem_append_left _ hgrow
  · exact List.mem_append_left _ hgrow
  · exact List.mem_append_left _ hgrow

theorem mem_written_feed {w : ℕ × ℕ} (h : w ∈ b.written) : w ∈ (b.feed krealloc cs).written := by
  induction cs generalizing b with
  | nil => exact h
  | cons c cs ih =>
    rw [feed]
    split_ifs
    · exact ih (mem_written_handle h)
    · exact h

theorem feed_of_ended (h : b.inEscapeSequence = false) : b.feed krealloc cs = b := by
  cases cs with
  | nil => rfl
  | cons c cs => rw [feed, if_neg (by rw [h]; exact Bool.false_ne_true)]

/-- **A sequence with room for all its characters** is collected, and if it has ended, it
has two characters at least. -/
theorem Collects.feed (krealloc : (ℤ → UInt8) → ℕ → ℤ → UInt8) (h : b.Collects)
    (hopen : b.inEscapeSequence = true)
    (hle : b.length + untilEnd cs ≤ 63) : (b.feed krealloc cs).Collects ∧
      ((b.feed krealloc cs).inEscapeSequence = false → 1 < (b.feed krealloc cs).length) := by
  induction cs generalizing b with
  | nil => exact ⟨h, fun hclosed => absurd (hopen.symm.trans hclosed) (by decide)⟩
  | cons c cs ih =>
    have hlt : b.length < 63 := by
      rw [untilEnd] at hle
      split_ifs at hle <;> omega
    obtain ⟨hstore, hlength⟩ := h.store (c := c) hlt (b.inEscapeSequence && inSequence c)
    rw [EscapeBuffer.feed, if_pos hopen, handle_eq h.size_eq h.pos (by omega)]
    cases hin : inSequence c with
    | true =>
      rw [hin] at hstore hlength
      rw [untilEnd, if_pos hin] at hle
      refine ih hstore ?_ ?_
      · exact (Bool.and_true _).trans hopen
      · rw [hlength]
        omega
    | false =>
      rw [hin] at hstore hlength
      rw [feed_of_ended (Bool.and_false _)]
      refine ⟨hstore, fun _ => ?_⟩
      have := h.pos
      omega

/-- **The 64th character**: its `NUL` goes behind the buffer. -/
theorem Collects.mem_written (h : b.Collects) (hopen : b.inEscapeSequence = true)
    (hgt : 63 < b.length + untilEnd cs) : (64, 64) ∈ (b.feed krealloc cs).written := by
  induction cs generalizing b with
  | nil => exact absurd (h.le.trans_lt hgt) (Nat.lt_irrefl _)
  | cons c cs ih =>
    have hle := h.le
    rw [EscapeBuffer.feed, if_pos hopen, handle_eq h.size_eq h.pos (by omega)]
    rcases Nat.lt_or_ge b.length 63 with hlt | hge
    · obtain ⟨hstore, hlength⟩ := h.store (c := c) hlt (b.inEscapeSequence && inSequence c)
      have hin : inSequence c = true := by
        by_contra hno
        rw [untilEnd, if_neg hno] at hgt
        omega
      rw [untilEnd, if_pos hin] at hgt
      rw [hin] at hstore hlength ⊢
      refine ih hstore ((Bool.and_true _).trans hopen) ?_
      rw [hlength]
      omega
    · have hlen : b.length = 63 := le_antisymm hle hge
      refine mem_written_feed (List.mem_append_right _ (List.mem_cons_of_mem _ ?_))
      dsimp only
      rw [hlen, h.allocated_eq]
      exact List.mem_singleton_self _

/-- The `[`. -/
theorem handle_start : (start mem).handle krealloc 91 = (start mem).store 91 := by
  have hgrow : (start mem).grow krealloc = start mem := grow_eq rfl (Nat.succ_pos 63)
  rw [handle, if_pos (by rfl), if_neg (not_not.mpr rfl), hgrow]

/-- What happens first. -/
theorem feed_start :
    feed krealloc (start mem) (c :: cs) = feed krealloc ((start mem).handle krealloc c) cs :=
  if_pos rfl

theorem collects_start : ((start mem).store 91).Collects := by
  refine ⟨rfl, rfl, Nat.one_pos, Nat.succ_pos 62, rfl, rfl, ?_⟩
  show ∀ w ∈ [((0 : ℕ), (64 : ℕ)), (0, 64), (1, 64)], w.1 < w.2
  decide

/-- **A sequence that does not begin with `[`** is parsed although it is empty. -/
theorem not_inside_of_head (hc : c ≠ 91) : ¬Inside krealloc mem (c :: cs) := by
  intro h
  have hfeed : feed krealloc (start mem) (c :: cs) =
      { start mem with inEscapeSequence := false } := by
    rw [feed_start, handle, if_pos (by rfl), if_pos hc, feed_of_ended (by rfl)]
  obtain ⟨reads, hreads, hin⟩ := h.reads (by rw [hfeed])
  obtain ⟨n, hn, hparse⟩ := hreads.exists_ge 1
  rw [hfeed] at hparse
  have hlen : strlen n (fun i : ℕ => (start mem).bytes i) = some 0 := by
    obtain ⟨n, rfl⟩ := Nat.exists_eq_add_of_le' hn
    have hnul : (start mem).bytes (0 : ℕ) = 0 := Function.update_self (0 : ℤ) 0 mem
    rw [strlen, if_neg (not_not.mpr hnul)]
  have hbefore := hin _ (mem_parseReads hlen hparse)
  exact absurd hbefore.1 (by decide)

/-- **A sequence of more than 63 characters** is written over the end of the buffer. -/
theorem not_inside_of_long (h : 63 < untilEnd cs + 1) : ¬Inside krealloc mem (91 :: cs) := by
  intro hinside
  have hmem : (64, 64) ∈ (feed krealloc (start mem) (91 :: cs)).written := by
    rw [feed_start, handle_start]
    refine collects_start.mem_written rfl ?_
    rw [add_comm] at h
    exact h
  exact absurd (hinside.written _ hmem) (Nat.lt_irrefl 64)

/-- **The sequences that are collected and parsed inside the buffer** begin with `[` and have
63 characters at most, and these are. -/
theorem inside_iff (krealloc : (ℤ → UInt8) → ℕ → ℤ → UInt8) (mem : ℤ → UInt8) (cs : List UInt8) :
    Inside krealloc mem cs ↔ Fits cs := by
  cases cs with
  | nil =>
    refine iff_of_true ⟨fun w hw => ?_, fun hclosed =>
      absurd hclosed (nofun : true ≠ false)⟩ trivial
    rw [List.mem_singleton.mp hw]
    decide
  | cons c cs =>
    constructor
    · intro h
      by_contra hno
      by_cases hc : c = 91
      · subst hc
        exact not_inside_of_long (Nat.not_le.mp fun hle => hno ⟨rfl, hle⟩) h
      · exact not_inside_of_head hc h
    · rintro ⟨rfl, hle⟩
      have hfeed :
          feed krealloc (start mem) (91 :: cs) = feed krealloc ((start mem).store 91) cs := by
        rw [feed_start, handle_start]
      rw [add_comm] at hle
      obtain ⟨hcollects, hend⟩ := collects_start.feed krealloc rfl hle
      rw [← hfeed] at hcollects hend
      refine ⟨hcollects.written, fun hclosed => ?_⟩
      refine exists_parseReads ?_ hcollects.last (hend hclosed)
      rw [hcollects.first]
      decide

/-- `[`, 62 zeros and an `m`: the sequence ends with its 64th character. And an `A`, which
no sequence begins with. -/
theorem not_inside :
    ¬Inside (fun bytes _ => bytes) (fun _ => 0) (91 :: (List.replicate 62 48 ++ [109])) ∧
    ¬Inside (fun bytes _ => bytes) (fun _ => 0) [65] :=
  ⟨not_inside_of_long (by decide), not_inside_of_head (by decide)⟩

end Feed

/-! ### The console's buffer

The console that `video_putc` works on has these variables too. It keeps its buffer in the
heap, where nothing is noted; the cursors are the same. -/

section Tracks

variable {src : FrameSource} {screen : Screen} {krealloc : (ℤ → UInt8) → ℕ → ℤ → UInt8}
  {b : EscapeBuffer} {s s' : Console} {c : UInt8} {n : ℕ}

/-- The buffer has the console's cursors. -/
structure Tracks (b : EscapeBuffer) (s : Console) : Prop where
  length_eq : b.length = s.escapeSequenceLength
  size_eq : b.bufferSize = s.sequenceBufferSize
  open_eq : b.inEscapeSequence = s.inEscapeSequence

theorem tracks_begun (mem : ℤ → UInt8) (p : ℕ) (m : Machine) (s : Console) :
    (start mem).Tracks (s.begun p m) := ⟨rfl, rfl, rfl⟩

theorem Tracks.grow (h : b.Tracks s) (hs : growSequence src n s = some s') :
    (b.grow krealloc).Tracks s' := by
  rw [growSequence] at hs
  by_cases hfull : s.sequenceBufferSize ≤ s.escapeSequenceLength
  · rw [if_pos hfull] at hs
    simp only [Option.bind_eq_bind, Option.bind_eq_some_iff, Option.pure_def,
      Option.some.injEq] at hs
    obtain ⟨⟨p, m⟩, -, rfl⟩ := hs
    rw [EscapeBuffer.grow, if_pos (by rwa [h.length_eq, h.size_eq])]
    exact ⟨h.length_eq, congrArg (fun size => (size + 64) % 2 ^ 64) h.size_eq, h.open_eq⟩
  · rw [if_neg hfull] at hs
    obtain rfl := Option.some.inj hs
    rw [EscapeBuffer.grow, if_neg (by rwa [h.length_eq, h.size_eq])]
    exact h

theorem Tracks.store (h : b.Tracks s) : (b.store c).Tracks (s.storeChar c) :=
  ⟨congrArg (fun length => (length + 1) % 2 ^ 32) h.length_eq, h.size_eq, h.open_eq⟩

/-- **A character does the same to the cursors of both.** -/
theorem Tracks.handle (h : b.Tracks s)
    (hs : handleEscapeSequenceChar src n (videoPutc src screen n) c s = some s') :
    (b.handle krealloc c).Tracks s' := by
  rw [handleEscapeSequenceChar] at hs
  rw [EscapeBuffer.handle, h.length_eq]
  by_cases hnone : s.escapeSequenceLength = 0
  · rw [if_pos hnone] at hs ⊢
    by_cases hc : c ≠ 91
    · rw [if_pos hc] at hs ⊢
      have hesc : control 91 ≠ some .escape := by decide
      obtain rfl := eq_display (s := { s with inEscapeSequence := false }) rfl hesc hs
      exact ⟨rfl, h.size_eq, rfl⟩
    · rw [if_neg hc, Option.bind_eq_bind, Option.bind_eq_some_iff] at hs
      obtain ⟨s₁, hgrow, hs⟩ := hs
      obtain rfl := Option.some.inj hs
      rw [if_neg hc]
      exact (h.grow hgrow).store
  · rw [if_neg hnone, Option.bind_eq_bind, Option.bind_eq_some_iff] at hs
    obtain ⟨s₁, hgrow, hs⟩ := hs
    have hgrown : (b.grow krealloc).Tracks s₁ := h.grow hgrow
    rw [if_neg hnone]
    by_cases hin : inSequence c = true
    · rw [if_pos hin] at hs ⊢
      obtain rfl := Option.some.inj hs
      exact hgrown.store
    · rw [if_neg hin] at hs ⊢
      obtain rfl := Option.some.inj hs
      have hclosed : ({ b.grow krealloc with inEscapeSequence := false }).Tracks
          { s₁ with inEscapeSequence := false } := ⟨hgrown.length_eq, hgrown.size_eq, rfl⟩
      exact hclosed.store

end Tracks

end EscapeBuffer

end Xana
