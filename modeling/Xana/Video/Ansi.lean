import Xana.Memory.Realloc
import Xana.Video.Screen

/-!
# Escape sequences

The characters behind an `ESC` are collected in a buffer of the heap until one comes that
is neither a digit nor a semicolon; then the sequence is parsed and the buffer freed. A
sequence that is not known is echoed: `parse_escape_sequence` gives its characters to
`video_putc` again, while the buffer is still held. The last of them may be an `ESC`,
which begins a new sequence, in a new buffer.

Which buffers are allocated, used and freed is noted on the way (`Xana.BufferEvent`), and
what is drawn. `video_putc` calls itself through the parser; it is given a number of
calls, and so are the loops.
-/

namespace Xana

/-- What is done with a buffer for an escape sequence. -/
inductive BufferEvent
  | alloc (ptr : ℕ)
  | use (ptr : ℕ)
  | free (ptr : ℕ)

/-- The variables of `ansi.c` and `video.c`, and the heap. -/
structure Console where
  machine : Machine
  inEscapeSequence : Bool
  escapeSequence : ℕ
  escapeSequenceLength : ℕ
  sequenceBufferSize : ℕ
  colors : Colors
  cursor : Cursor
  /-- All that has been drawn. -/
  drawn : List Draw
  /-- What has been done with the buffers, the latest first. -/
  events : List BufferEvent

/-! ### Characters of a sequence -/

/-- A character that does not end a sequence. -/
def inSequence (c : UInt8) : Bool := isDigit c || c == 59

/-- The loop of `handleHome`, in at most `n` rounds: the row and the column. -/
def homeNumbers : ℕ → (ℕ → UInt8) → ℕ → ℕ → ℕ → Option (ℕ × ℕ)
  | 0, _, _, _, _ => none
  | n + 1, seq, row, col, i =>
      let rest := fun j => seq (j + 1)
      if seq 0 = 72 then some (row, col)
      else if isDigit (seq 0) then
        if i = 0 then homeNumbers n rest (addDigit row (seq 0)) col i
        else homeNumbers n rest row (addDigit col (seq 0)) i
      else if seq 0 = 59 then homeNumbers n rest row col ((i + 1) % 2 ^ 32)
      else homeNumbers n rest row col i

/-- `video_set_cursor(row - 1, col - 1)`: the row goes to `char_pos_x`. -/
def homeCursor (row col : ℕ) : Cursor := ⟨(row + 2 ^ 32 - 1) % 2 ^ 32, (col + 2 ^ 32 - 1) % 2 ^ 32⟩

/-- `handleHome` -/
def handleHome (n : ℕ) (seq : ℕ → UInt8) : Option Cursor :=
  if seq 1 = 72 then some ⟨0, 0⟩
  else (homeNumbers n seq 0 0 0).map fun numbers => homeCursor numbers.1 numbers.2

namespace Console

/-- The characters at `escape_sequence`. -/
def sequence (s : Console) : ℕ → UInt8 := fun i => s.machine.mem (s.escapeSequence + i)

/-- The part of `handle_escape_sequence_char` that stores a character and a `NUL`. -/
def storeChar (c : UInt8) (s : Console) : Console :=
  let length := (s.escapeSequenceLength + 1) % 2 ^ 32
  let mem := s.machine.mem.write (s.escapeSequence + s.escapeSequenceLength) [c]
  { s with
    machine := { s.machine with mem := mem.write (s.escapeSequence + length) [0] }
    escapeSequenceLength := length
    events := .use s.escapeSequence :: s.events }

/-- What a character that is not `ESC` does outside a sequence. -/
def display (screen : Screen) (c : UInt8) (s : Console) : Console :=
  { s with
    cursor := screen.put c s.cursor
    drawn := s.drawn ++ screen.draw s.colors c s.cursor }

/-- The console when a sequence has begun, with its buffer at `p`. -/
def begun (p : ℕ) (m : Machine) (s : Console) : Console :=
  { s with
    machine := { m with mem := m.mem.write p [0] }
    inEscapeSequence := true
    escapeSequence := p
    escapeSequenceLength := 0
    sequenceBufferSize := 64
    colors := { s.colors with state := .none }
    events := .use p :: .alloc p :: s.events }

/-- The console when characters of the sequence have been echoed, none of them `ESC`. -/
def echoed (screen : Screen) (cs : List UInt8) (s : Console) : Console :=
  { s with
    cursor := screen.putAll cs s.cursor
    drawn := s.drawn ++ screen.drawAll s.colors cs s.cursor
    events := List.replicate cs.length (.use s.escapeSequence) ++ s.events }

end Console

/-! ### The functions -/

section Functions

variable (src : FrameSource) (screen : Screen)

/-- `begin_escape_sequence` -/
def beginEscapeSequence (n : ℕ) (s : Console) : Option Console := do
  let (p, m) ← kmalloc src n s.machine 64
  return { s with
    machine := { m with mem := m.mem.write p [0] }
    inEscapeSequence := true
    escapeSequence := p
    escapeSequenceLength := 0
    sequenceBufferSize := 64
    colors := { s.colors with state := .none }
    events := .use p :: .alloc p :: s.events }

/-- `video_putc`, outside a sequence. -/
def putPlain (n : ℕ) (c : UInt8) (s : Console) : Option Console := do
  let s ← if control c = some .escape then beginEscapeSequence src n s else some s
  return s.display screen c

/-- The part of `handle_escape_sequence_char` that gets a longer buffer. -/
def growSequence (n : ℕ) (s : Console) : Option Console :=
  if s.sequenceBufferSize ≤ s.escapeSequenceLength then do
    let (p, m) ← krealloc src n s.machine s.escapeSequence ((s.escapeSequenceLength + 64) % 2 ^ 32)
    return { s with
      machine := m
      escapeSequence := p
      sequenceBufferSize := (s.sequenceBufferSize + 64) % 2 ^ 64
      events := .free s.escapeSequence :: .use p :: .use s.escapeSequence :: .alloc p :: s.events }
  else some s

section Parser

variable (n : ℕ) (videoPutc : UInt8 → Console → Option Console)

/-- `handle_escape_sequence_char` -/
def handleEscapeSequenceChar (c : UInt8) (s : Console) : Option Console :=
  if s.escapeSequenceLength = 0 then
    if c ≠ 91 then videoPutc 91 { s with inEscapeSequence := false }
    else do
      let s ← growSequence src n s
      return s.storeChar c
  else do
    let s ← growSequence src n s
    if inSequence c then return s.storeChar c
    else return { s with inEscapeSequence := false }.storeChar c

/-- The loop of `parse_escape_sequence` that echoes, in at most `k` rounds, from the
`i`-th character. -/
def echoSequence : ℕ → ℕ → Console → Option Console
  | 0, _, _ => none
  | k + 1, i, s =>
      if i < s.escapeSequenceLength then do
        let s ← videoPutc (s.sequence i) { s with events := .use s.escapeSequence :: s.events }
        echoSequence k (i + 1) s
      else some s

/-- The branch for `'J'`. -/
def eraseInDisplay (seq : ℕ → UInt8) (s : Console) : List Draw :=
  if seq 1 = 50 then [.clearto s.colors.videoBg]
  else if seq 1 = 49 then screen.clearUp s.colors s.cursor
  else screen.clearDown s.colors s.cursor

/-- `parse_escape_sequence(escape_sequence)` -/
def parseEscapeSequence (s : Console) : Option Console := do
  let seq := s.sequence
  let length ← strlen n seq
  -- of an empty sequence, the byte before the buffer
  let command := s.machine.mem (s.escapeSequence + length - 1)
  let s := { s with events := .use s.escapeSequence :: s.events }
  if command = 109 then
    let colors ← colorCodes screen.mode n seq 0 s.colors
    return { s with colors := colors }
  else if command = 74 then
    return { s with drawn := s.drawn ++ eraseInDisplay screen seq s }
  else if command = 72 then
    let cursor ← handleHome n seq
    return { s with cursor := cursor }
  else echoSequence videoPutc n 0 s

end Parser

/-- `video_putc`, in a linear mode, with at most `n` calls of itself within each other. -/
def videoPutc : ℕ → UInt8 → Console → Option Console
  | 0, _, _ => none
  | n + 1, c, s =>
      if s.inEscapeSequence then do
        let s ← handleEscapeSequenceChar src n (videoPutc n) c s
        if s.inEscapeSequence then return s
        else
          let s ← parseEscapeSequence screen n (videoPutc n) s
          let m ← kfree s.machine s.escapeSequence
          return { s with machine := m, events := .free s.escapeSequence :: s.events }
      else putPlain src screen n c s

end Functions

/-! ### What the calls do -/

section Calls

variable {src : FrameSource} {screen : Screen} {s s' : Console} {c : UInt8} {n k i : ℕ}

/-- A call outside a sequence. -/
theorem exists_putPlain (hs : s.inEscapeSequence = false)
    (h : videoPutc src screen n c s = some s') : ∃ k, putPlain src screen k c s = some s' := by
  cases n with
  | zero => simp [videoPutc] at h
  | succ n =>
    rw [videoPutc, if_neg (by simp [hs])] at h
    exact ⟨n, h⟩

theorem putPlain_of_ne (hc : control c ≠ some .escape) :
    putPlain src screen n c s = some (s.display screen c) := by
  rw [putPlain, if_neg hc]
  rfl

/-- **What a call does outside a sequence.** -/
theorem putPlain_cases (h : putPlain src screen n c s = some s') :
    (control c = some .escape ∧ ∃ p m, kmalloc src n s.machine 64 = some (p, m) ∧
      s' = (s.begun p m).display screen c) ∨
      (control c ≠ some .escape ∧ s' = s.display screen c) := by
  by_cases hc : control c = some .escape
  · rw [putPlain, if_pos hc, Option.bind_eq_bind, Option.bind_eq_some_iff] at h
    obtain ⟨s₁, h₁, h⟩ := h
    obtain rfl := Option.some.inj h
    simp only [beginEscapeSequence, Option.bind_eq_bind, Option.bind_eq_some_iff, Option.pure_def,
      Option.some.injEq] at h₁
    obtain ⟨⟨p, m⟩, halloc, rfl⟩ := h₁
    exact Or.inl ⟨hc, p, m, halloc, rfl⟩
  · rw [putPlain_of_ne hc] at h
    exact Or.inr ⟨hc, (Option.some.inj h).symm⟩

/-- **A call outside a sequence**, for a character that is not `ESC`. -/
theorem eq_display (hs : s.inEscapeSequence = false) (hc : control c ≠ some .escape)
    (h : videoPutc src screen n c s = some s') : s' = s.display screen c := by
  obtain ⟨k, hk⟩ := exists_putPlain hs h
  rw [putPlain_of_ne hc] at hk
  exact (Option.some.inj hk).symm

/-- **The echo**, up to the first `ESC`. -/
theorem exists_echoSequence {cs : List UInt8} (hs : s.inEscapeSequence = false)
    (hcs : Mem.At s.machine.mem (s.escapeSequence + i) cs)
    (hne : ∀ c ∈ cs, control c ≠ some .escape) (hlen : i + cs.length ≤ s.escapeSequenceLength)
    (h : echoSequence (videoPutc src screen n) k i s = some s') :
    ∃ k', echoSequence (videoPutc src screen n) k' (i + cs.length) (s.echoed screen cs) =
    some s' := by
  induction cs generalizing s i k with
  | nil =>
    refine ⟨k, ?_⟩
    rw [Console.echoed, Screen.putAll, Screen.drawAll, List.append_nil]
    exact h
  | cons c cs ih =>
    obtain ⟨hhead, htail⟩ := List.cons.inj hcs
    rw [List.length_cons] at hlen
    cases k with
    | zero => simp [echoSequence] at h
    | succ k =>
      rw [echoSequence, if_pos (by omega), Option.bind_eq_bind, Option.bind_eq_some_iff] at h
      obtain ⟨s₁, hput, h⟩ := h
      have hseq : s.sequence i = c := hhead
      rw [hseq] at hput
      obtain rfl := eq_display (s := { s with events := .use s.escapeSequence :: s.events }) hs
        (hne c List.mem_cons_self) hput
      have htail' : Mem.At s.machine.mem (s.escapeSequence + (i + 1)) cs := by
        rwa [← add_assoc]
      obtain ⟨k', hk'⟩ := ih (s := ({ s with events := .use s.escapeSequence :: s.events }).display
        screen c) hs htail' (fun d hd => hne d (List.mem_cons_of_mem _ hd))
        (by simp only [Console.display]; omega) h
      refine ⟨k', ?_⟩
      have hindex : i + (cs.length + 1) = i + 1 + cs.length := by omega
      rw [List.length_cons, hindex, ← hk']
      simp only [Console.echoed, Console.display, Screen.putAll, Screen.drawAll, List.append_assoc,
        List.length_cons, List.replicate_succ', List.cons_append, List.nil_append]

/-- The echo of a sequence in which there is no `ESC`. -/
theorem eq_echoed (hs : s.inEscapeSequence = false)
    (hne : ∀ i < s.escapeSequenceLength, control (s.sequence i) ≠ some .escape)
    (h : echoSequence (videoPutc src screen n) k 0 s = some s') :
    s' = s.echoed screen (s.machine.mem.read s.escapeSequence s.escapeSequenceLength) := by
  have hat : Mem.At s.machine.mem (s.escapeSequence + 0)
      (s.machine.mem.read s.escapeSequence s.escapeSequenceLength) := by
    rw [Mem.At, Mem.length_read, add_zero]
  have hne' : ∀ c ∈ s.machine.mem.read s.escapeSequence s.escapeSequenceLength,
      control c ≠ some .escape := by
    intro c hc
    obtain ⟨i, hi, rfl⟩ := List.mem_iff_getElem.mp hc
    rw [Mem.length_read] at hi
    rw [← hat.apply (by rwa [Mem.length_read])]
    exact hne i hi
  obtain ⟨k', hk'⟩ := exists_echoSequence hs hat hne' (by rw [Mem.length_read, zero_add]) h
  cases k' with
  | zero => simp [echoSequence] at hk'
  | succ k' =>
    rw [echoSequence, Mem.length_read, if_neg (by simp [Console.echoed])] at hk'
    exact (Option.some.inj hk').symm

/-- **What a sequence does**, by its last character. -/
theorem parse_cases {putc : UInt8 → Console → Option Console}
    (h : parseEscapeSequence screen n putc s = some s') : ∃ length,
      strlen n s.sequence = some length ∧
      let s₁ := { s with events := .use s.escapeSequence :: s.events }
      let command := s.machine.mem (s.escapeSequence + length - 1)
      (command = 109 ∧ ∃ colors, s' = { s₁ with colors := colors }) ∨
        (command = 74 ∧
          s' = { s₁ with drawn := s.drawn ++ eraseInDisplay screen s.sequence s₁ }) ∨
        (command = 72 ∧ ∃ cursor, handleHome n s.sequence = some cursor ∧
          s' = { s₁ with cursor := cursor }) ∨
        (command ≠ 109 ∧ command ≠ 74 ∧ command ≠ 72 ∧
          echoSequence putc n 0 s₁ = some s') := by
  simp only [parseEscapeSequence, Option.bind_eq_bind, Option.bind_eq_some_iff,
    Option.pure_def] at h
  obtain ⟨length, hlen, h⟩ := h
  refine ⟨length, hlen, ?_⟩
  split_ifs at h with hm hJ hH
  · simp only [Option.bind_eq_some_iff, Option.some.injEq] at h
    obtain ⟨colors, -, rfl⟩ := h
    exact Or.inl ⟨hm, colors, rfl⟩
  · exact Or.inr (Or.inl ⟨hJ, (Option.some.inj h).symm⟩)
  · simp only [Option.bind_eq_some_iff, Option.some.injEq] at h
    obtain ⟨cursor, hcursor, rfl⟩ := h
    exact Or.inr (Or.inr (Or.inl ⟨hH, cursor, hcursor, rfl⟩))
  · exact Or.inr (Or.inr (Or.inr ⟨hm, hJ, hH, h⟩))

/-- A call that ends a sequence. -/
theorem videoPutc_of_end {s₁ s₂ : Console} {m : Machine} (hs : s.inEscapeSequence = true)
    (hhandle : handleEscapeSequenceChar src n (videoPutc src screen n) c s = some s₁)
    (hs₁ : s₁.inEscapeSequence = false)
    (hparse : parseEscapeSequence screen n (videoPutc src screen n) s₁ = some s₂)
    (hfree : kfree s₂.machine s₂.escapeSequence = some m) : videoPutc src screen (n + 1) c s =
      some { s₂ with machine := m, events := .free s₂.escapeSequence :: s₂.events } := by
  simp only [videoPutc, hs, hhandle, hs₁, hparse, hfree, Option.bind_eq_bind, Option.bind_some,
    Option.pure_def, if_true, Bool.false_eq_true, if_false]

end Calls

end Xana
