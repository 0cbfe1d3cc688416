import Xana.Memory.Contents
import Xana.Memory.Room
import Xana.Video.Ansi

/-!
# The buffers of escape sequences

The ledger of the buffers (`Xana.owned`) replays what has been done with them: it fails
where a buffer is used or freed that is not held. While a sequence is collected, its
buffer should be the one that is held, and outside a sequence there should be none
(`Xana.Console.Lawful`).

It is so as long as no `ESC` comes inside a sequence, and no sequence outgrows its
block (`Xana.PlainSequences`). An `ESC` inside a sequence ends it: the sequence is not
known, so it is echoed, and its last character begins another one, whose buffer is then
freed in place of the first (`Xana.not_lawful_buffers`).
-/

namespace Xana

/-! ### The ledger -/

/-- The buffers that are held, if all that has been done with them is lawful. -/
def owned : List BufferEvent → Option (List ℕ)
  | [] => some []
  | .alloc p :: es => (owned es).bind fun ps => if p ∈ ps then none else some (p :: ps)
  | .use p :: es => (owned es).bind fun ps => if p ∈ ps then some ps else none
  | .free p :: es => (owned es).bind fun ps => if p ∈ ps then some (ps.erase p) else none

section Ledger

variable {es : List BufferEvent} {ps : List ℕ} {p : ℕ}

theorem owned_alloc (h : owned es = some ps) (hp : p ∉ ps) :
    owned (.alloc p :: es) = some (p :: ps) := by
  rw [owned, h, Option.bind_some, if_neg hp]

theorem owned_use (h : owned es = some ps) (hp : p ∈ ps) : owned (.use p :: es) = some ps := by
  rw [owned, h, Option.bind_some, if_pos hp]

theorem owned_free (h : owned es = some ps) (hp : p ∈ ps) :
    owned (.free p :: es) = some (ps.erase p) := by
  rw [owned, h, Option.bind_some, if_pos hp]

theorem owned_uses (h : owned es = some ps) (hp : p ∈ ps) (n : ℕ) :
    owned (List.replicate n (.use p) ++ es) = some ps := by
  induction n with
  | zero => exact h
  | succ n ih => exact owned_use ih hp

end Ledger

namespace Console

variable (s : Console)

/-- The buffers that are held. -/
def held : List ℕ := (owned s.events).getD []

/-- How long the block of the buffer is, by its header. -/
def blockLength : ℕ := (header s.machine.mem (s.escapeSequence - heapHeaderSize)).length

/-- **The buffers are used lawfully**: the buffer of a sequence that is collected is live;
it is held, and no other one is. -/
structure Lawful (s : Console) : Prop where
  live : s.inEscapeSequence = true → ∃ u ∈ s.machine.live, u.ptr = s.escapeSequence
  owned : owned s.events = some (if s.inEscapeSequence then [s.escapeSequence] else [])

/-- One more character and a `NUL` fit the block. If the buffer is to grow before that,
the length it will have does not wrap, and none of the characters is among the last
seven bytes of the block, which `memcpy` may leave out. -/
def Fits : Prop :=
  if s.sequenceBufferSize ≤ s.escapeSequenceLength then
    s.escapeSequenceLength + 64 < 2 ^ 32 ∧ s.escapeSequenceLength + 7 ≤ s.blockLength
  else s.escapeSequenceLength + 1 < s.blockLength

end Console

/-! ### Runs -/

/-- What happens to the console. -/
inductive ConsoleAct
  /-- `video_putc(c)`, with at most `n` calls within each other. -/
  | putc (n : ℕ) (c : UInt8)
  /-- The heap is used elsewhere in the kernel. -/
  | heap (c : HeapCall)

/-- **A call that returns.** No address wraps, and no one else frees or writes the buffers
that the console holds. -/
def ConsoleStep (src : FrameSource) (screen : Screen) (s : Console) : ConsoleAct → Console → Prop
  | .putc n c, s' =>
      videoPutc src screen n c s = some s' ∧ s'.machine.kheapEnd + 0xFFF + 2 ^ 32 < 2 ^ 64
  | .heap c, s' =>
      (∀ p ∈ s.held, c.Spares s.machine p) ∧ ∃ m, HeapStep src s.machine c m ∧
        s' = { s with machine := m }

/-- The console when the heap has been built, in the kernel half. -/
structure ConsoleInit (src : FrameSource) (s : Console) : Prop where
  built : HeapBuilt src s.machine
  kheap_le : virtMemOffset ≤ s.machine.kheap
  inEscapeSequence : s.inEscapeSequence = false
  cursor : s.cursor = ⟨0, 0⟩
  drawn : s.drawn = []
  events : s.events = []

/-- **The condition**: inside a sequence there comes no `ESC`, and the character fits. -/
def PlainSequences (s : Console) : ConsoleAct → Prop
  | .putc _ c => s.inEscapeSequence = true → 0 < s.escapeSequenceLength →
      control c ≠ some .escape ∧ s.Fits
  | .heap _ => True

/-! ### Sequences that are collected -/

/-- A character at the `i`-th place of a sequence that has not ended. -/
def seqChar (i : ℕ) (c : UInt8) : Bool := if i = 0 then c == 91 else inSequence c

theorem control_of_inSequence {c : UInt8} (h : inSequence c = true) : control c = none := by
  rw [control]
  split_ifs with h₁ h₂ h₃ h₄ h₅
  all_goals first | rfl | (subst c; simp [inSequence, isDigit] at h)

theorem control_of_seqChar {i : ℕ} {c : UInt8} (h : seqChar i c = true) : control c = none := by
  rw [seqChar] at h
  split_ifs at h with hi
  · rw [beq_iff_eq.mp h]
    rfl
  · exact control_of_inSequence h

namespace Console

/-- **A sequence is collected**: its buffer is the one that is held. -/
structure Holding (s : Console) : Prop where
  owned : Xana.owned s.events = some [s.escapeSequence]
  live : ⟨s.escapeSequence, s.sequenceBufferSize, false⟩ ∈ s.machine.live
  length_le : s.escapeSequenceLength ≤ s.sequenceBufferSize
  size_ge : 64 ≤ s.sequenceBufferSize
  size_lt : s.sequenceBufferSize < 2 ^ 32
  chars : ∀ i < s.escapeSequenceLength, seqChar i (s.sequence i) = true
  nul : s.escapeSequenceLength = 0 → s.sequence 0 = 0

/-- The heap is as it should be, and so is the ledger. -/
structure Inv (s : Console) : Prop where
  heap : SnugHeap s.machine
  kheap_le : virtMemOffset ≤ s.machine.kheap
  outside : s.inEscapeSequence = false → Xana.owned s.events = some []
  inside : s.inEscapeSequence = true → s.Holding

/-- The buffer has room for a character and a `NUL`. -/
structure Roomy (s : Console) : Prop where
  heap : SnugHeap s.machine
  holding : s.Holding
  lt_size : s.escapeSequenceLength < s.sequenceBufferSize
  lt_block : s.escapeSequenceLength + 1 < s.blockLength

/-- Only the buffer may be another one, with the same characters in it. -/
structure SameSequence (s s' : Console) : Prop where
  length_eq : s'.escapeSequenceLength = s.escapeSequenceLength
  sequence_eq : ∀ i < s.escapeSequenceLength, s'.sequence i = s.sequence i
  kheap : s'.machine.kheap = s.machine.kheap
  inEscapeSequence : s'.inEscapeSequence = s.inEscapeSequence
  colors : s'.colors = s.colors
  cursor : s'.cursor = s.cursor
  drawn : s'.drawn = s.drawn

end Console

section Steps

variable {src : FrameSource} {screen : Screen} {s s' : Console} {c : UInt8} {n k : ℕ}

open Console

theorem Console.Inv.lawful (h : s.Inv) : s.Lawful := by
  rcases hs : s.inEscapeSequence with _ | _
  · exact ⟨fun hin => by simp [hs] at hin, by simpa [hs] using h.outside hs⟩
  · obtain ⟨howned, hlive, -⟩ := h.inside hs
    exact ⟨fun _ => ⟨_, hlive, rfl⟩, by simpa [hs] using howned⟩

/-- **The buffer grows** if it has to. -/
theorem growSequence_spec (hheap : SnugHeap s.machine) (h : s.Holding) (hfits : s.Fits)
    (hwrap : s'.machine.kheapEnd + 0xFFF + 2 ^ 32 < 2 ^ 64)
    (hg : growSequence src n s = some s') : s'.Roomy ∧ s.SameSequence s' := by
  obtain ⟨howned, hlive, hle, hge, hlt, hchars, hnul⟩ := h
  rw [growSequence] at hg
  rw [Fits] at hfits
  split_ifs at hg hfits with hfull
  · obtain ⟨hlt', hblock⟩ := hfits
    rw [Nat.mod_eq_of_lt hlt'] at hg
    simp only [Option.bind_eq_bind, Option.bind_eq_some_iff, Option.pure_def,
      Option.some.injEq] at hg
    obtain ⟨⟨p, m⟩, hre, rfl⟩ := hg
    have hsize : s.sequenceBufferSize = s.escapeSequenceLength := le_antisymm hfull hle
    have hhd : heapHeaderSize = 29 := rfl
    simp only at hwrap
    obtain ⟨hheap', hlive', hne, hkheap⟩ :=
      hheap.krealloc hlive (by omega : _ ≤ s.escapeSequenceLength + 64) (by omega) hre
    have hbytes := fun i (hi : i < s.escapeSequenceLength) =>
      hheap.krealloc_byte hlive (by omega : _ ≤ s.escapeSequenceLength + 64) (by omega) hre
        (x := i) (by omega) (by rw [blockLength] at hblock; omega)
    obtain ⟨hlong, -⟩ := hheap'.length_bounds hlive' rfl
    simp only at hlong
    have hsize' : (s.sequenceBufferSize + 64) % 2 ^ 64 = s.escapeSequenceLength + 64 := by omega
    refine ⟨⟨hheap', ⟨?_, ?_, ?_, ?_, ?_, ?_, ?_⟩, ?_, ?_⟩, rfl, hbytes, hkheap, rfl, rfl, rfl, rfl⟩
    · -- the new buffer is allocated before the old one is freed
      have hp : p ∉ [s.escapeSequence] := by simpa using hne
      have halloc := owned_use (owned_alloc howned hp) (p := s.escapeSequence) (by simp)
      have hfree :=
        owned_free (owned_use halloc (p := p) (by simp)) (p := s.escapeSequence) (by simp)
      rw [List.erase_cons_tail (by simpa using hne), List.erase_cons_head] at hfree
      exact hfree
    · simp only [hsize']
      exact hlive'
    · simp only [hsize']
      omega
    · simp only [hsize']
      omega
    · simp only [hsize']
      omega
    · intro i hi
      rw [← hchars i hi]
      exact congrArg (seqChar i) (hbytes i hi)
    · intro h0
      simp only at h0
      omega
    · simp only [hsize']
      omega
    · simp only [blockLength]
      omega
  · obtain rfl := Option.some.inj hg
    exact ⟨⟨hheap, ⟨howned, hlive, hle, hge, hlt, hchars, hnul⟩, by omega, hfits⟩,
      ⟨rfl, fun _ _ => rfl, rfl, rfl, rfl, rfl, rfl⟩⟩

/-- The end of a sequence keeps its buffer. -/
theorem Console.Roomy.leave (h : s.Roomy) : Roomy { s with inEscapeSequence := false } := by
  obtain ⟨hheap, ⟨howned, hlive, hle, hge, hlt, hchars, hnul⟩, hsize, hblock⟩ := h
  exact ⟨hheap, ⟨howned, hlive, hle, hge, hlt, hchars, hnul⟩, hsize, hblock⟩

/-! ### Storing a character -/

section Store

variable (h : s.Roomy)
include h

theorem Console.Roomy.length_storeChar :
    (s.storeChar c).escapeSequenceLength = s.escapeSequenceLength + 1 := by
  have hlt := h.lt_size
  have hsize := h.holding.size_lt
  exact Nat.mod_eq_of_lt (by omega)

/-- The character and the `NUL` are where they should be. -/
theorem Console.Roomy.sequence_storeChar (i : ℕ) : (s.storeChar c).sequence i =
    if i = s.escapeSequenceLength + 1 then 0
    else if i = s.escapeSequenceLength then c else s.sequence i := by
  have hlen : (s.escapeSequenceLength + 1) % 2 ^ 32 = s.escapeSequenceLength + 1 :=
    h.length_storeChar (c := c)
  show Mem.write (Mem.write s.machine.mem (s.escapeSequence + s.escapeSequenceLength) [c])
    (s.escapeSequence + (s.escapeSequenceLength + 1) % 2 ^ 32) [0] (s.escapeSequence + i) = _
  rw [hlen, Mem.write_singleton, Mem.write_singleton]
  simp only [Function.update_apply, add_right_inj]
  rfl

/-- What is stored lies in the block. -/
theorem Console.Roomy.heap_storeChar : SnugHeap (s.storeChar c).machine := by
  have hlen : (s.escapeSequenceLength + 1) % 2 ^ 32 = s.escapeSequenceLength + 1 :=
    h.length_storeChar (c := c)
  have hblock := h.lt_block
  rw [blockLength] at hblock
  refine h.heap.write _ (s.escapeSequence + s.escapeSequenceLength)
    (s.escapeSequence + s.escapeSequenceLength + 2) h.holding.live rfl (by simp only; omega)
    (by simp only; omega) ?_
  intro x hx
  rw [hlen, Mem.write_of_notMem (by simp only [List.length_singleton]; omega),
    Mem.write_of_notMem (by simp only [List.length_singleton]; omega)]

theorem Console.Roomy.owned_storeChar : owned (s.storeChar c).events = some [s.escapeSequence] :=
  owned_use h.holding.owned (by simp)

/-- **A character that does not end the sequence** is stored. -/
theorem Console.Roomy.holding_storeChar (hc : seqChar s.escapeSequenceLength c = true) :
    (s.storeChar c).Holding where
  owned := h.owned_storeChar
  live := h.holding.live
  length_le := by
    rw [h.length_storeChar]
    exact h.lt_size
  size_ge := h.holding.size_ge
  size_lt := h.holding.size_lt
  chars := by
    intro i hi
    rw [h.length_storeChar] at hi
    rw [h.sequence_storeChar]
    split_ifs with h₁ h₂
    · omega
    · rwa [h₂]
    · exact h.holding.chars i (by omega)
  nul := by
    intro h0
    rw [h.length_storeChar] at h0
    omega

end Store

/-! ### The end of a sequence -/

/-- Parsing a sequence without an `ESC` leaves its buffer alone. -/
theorem parse_machine {ps : List ℕ} (hs : s.inEscapeSequence = false)
    (howned : owned s.events = some ps) (hmem : s.escapeSequence ∈ ps)
    (hne : ∀ i < s.escapeSequenceLength, control (s.sequence i) ≠ some .escape)
    (h : parseEscapeSequence screen k (videoPutc src screen n) s = some s') :
    s'.machine = s.machine ∧ s'.inEscapeSequence = false ∧ s'.escapeSequence = s.escapeSequence ∧
      owned s'.events = some ps := by
  have hused := owned_use howned hmem
  obtain ⟨length, -, hcases⟩ := parse_cases h
  rcases hcases with ⟨-, colors, rfl⟩ | ⟨-, rfl⟩ | ⟨-, cursor, -, rfl⟩ | ⟨-, -, -, hecho⟩
  · exact ⟨rfl, hs, rfl, hused⟩
  · exact ⟨rfl, hs, rfl, hused⟩
  · exact ⟨rfl, hs, rfl, hused⟩
  · obtain rfl :=
      eq_echoed (s := { s with events := .use s.escapeSequence :: s.events }) hs hne hecho
    exact ⟨rfl, hs, rfl, owned_uses hused hmem _⟩

/-- **At the end of a sequence** its buffer is freed. -/
theorem inv_of_parse {s₁ : Console} {size : ℕ} {m : Machine} (hheap : SnugHeap s.machine)
    (hkheap : virtMemOffset ≤ s.machine.kheap) (hs : s.inEscapeSequence = false)
    (howned : owned s.events = some [s.escapeSequence])
    (hlive : ⟨s.escapeSequence, size, false⟩ ∈ s.machine.live)
    (hne : ∀ i < s.escapeSequenceLength, control (s.sequence i) ≠ some .escape)
    (hparse : parseEscapeSequence screen k (videoPutc src screen n) s = some s₁)
    (hfree : kfree s₁.machine s₁.escapeSequence = some m) :
    Inv { s₁ with machine := m, events := .free s₁.escapeSequence :: s₁.events } := by
  obtain ⟨hm, hs₁, hesc, howned₁⟩ := parse_machine hs howned (by simp) hne hparse
  rw [hm, hesc] at hfree
  obtain ⟨mem, hfree', hsnug⟩ := hheap.kfree hlive rfl
  have hk := kheap_of_kfree hfree hheap.kheap_pos.ne'
  rw [hfree] at hfree'
  refine ⟨?_, ?_, fun _ => ?_, fun hin => ?_⟩
  · rwa [Option.some.inj hfree']
  · rwa [hk]
  · rw [hesc]
    exact (owned_free howned₁ (by simp)).trans (by simp)
  · simp [hs₁] at hin

/-! ### The heap only grows -/

/-- The heap is where it was, and no shorter. -/
structure HeapGrows (m m' : Machine) : Prop where
  kheap : m'.kheap = m.kheap
  le : m.kheapEnd ≤ m'.kheapEnd

theorem HeapGrows.trans {m m' m'' : Machine} (h : HeapGrows m m') (h' : HeapGrows m' m'') :
    HeapGrows m m'' := ⟨h'.kheap.trans h.kheap, h.le.trans h'.le⟩

theorem heapGrows_putPlain (hk : s.machine.kheap ≠ 0) (h : putPlain src screen n c s = some s') :
    HeapGrows s.machine s'.machine := by
  rcases putPlain_cases h with ⟨-, p, m, halloc, rfl⟩ | ⟨-, rfl⟩
  · have hg := grown_kmallocInt hk halloc
    exact ⟨hg.kheap, hg.le⟩
  · exact ⟨rfl, le_rfl⟩

/-- A character that is echoed begins a sequence, whose length is zero, or none. -/
theorem putPlain_next (hs : s.inEscapeSequence = false) (h : putPlain src screen n c s = some s') :
    s'.inEscapeSequence = false ∨ s'.escapeSequenceLength = 0 := by
  rcases putPlain_cases h with ⟨-, p, m, -, rfl⟩ | ⟨-, rfl⟩
  · exact Or.inr rfl
  · exact Or.inl hs

theorem heapGrows_echo {i : ℕ} (hk : s.machine.kheap ≠ 0)
    (hs : s.inEscapeSequence = false ∨ s.escapeSequenceLength = 0)
    (h : echoSequence (videoPutc src screen n) k i s = some s') :
    HeapGrows s.machine s'.machine := by
  induction k generalizing s i with
  | zero => simp [echoSequence] at h
  | succ k ih =>
    rw [echoSequence] at h
    split_ifs at h with hi
    · rw [Option.bind_eq_bind, Option.bind_eq_some_iff] at h
      obtain ⟨s₁, hput, h⟩ := h
      have hs' : s.inEscapeSequence = false := hs.resolve_right (by omega)
      obtain ⟨k', hput⟩ :=
        exists_putPlain (s := { s with events := .use s.escapeSequence :: s.events })
        hs' hput
      have hg : HeapGrows s.machine s₁.machine :=
        heapGrows_putPlain (s := { s with events := .use s.escapeSequence :: s.events }) hk hput
      have hnext :=
        putPlain_next (s := { s with events := .use s.escapeSequence :: s.events }) hs' hput
      exact hg.trans (ih (by rwa [hg.kheap]) hnext h)
    · obtain rfl := Option.some.inj h
      exact ⟨rfl, le_rfl⟩

theorem heapGrows_parse (hk : s.machine.kheap ≠ 0) (hs : s.inEscapeSequence = false)
    (h : parseEscapeSequence screen k (videoPutc src screen n) s = some s') :
    HeapGrows s.machine s'.machine := by
  obtain ⟨length, -, hcases⟩ := parse_cases h
  rcases hcases with ⟨-, colors, rfl⟩ | ⟨-, rfl⟩ | ⟨-, cursor, -, rfl⟩ | ⟨-, -, -, hecho⟩
  · exact ⟨rfl, le_rfl⟩
  · exact ⟨rfl, le_rfl⟩
  · exact ⟨rfl, le_rfl⟩
  · exact heapGrows_echo (s := { s with events := .use s.escapeSequence :: s.events }) hk
      (Or.inl hs)
      hecho

theorem heapGrows_krealloc {m m' : Machine} {ptr size p : ℕ} (hk : m.kheap ≠ 0)
    (h : krealloc src n m ptr size = some (p, m')) : HeapGrows m m' := by
  simp only [krealloc, Option.bind_eq_bind, Option.bind_eq_some_iff, Option.pure_def,
    Option.some.injEq, Prod.mk.injEq] at h
  obtain ⟨⟨q, m₁⟩, halloc, m₂, hfree, rfl, rfl⟩ := h
  have hg := grown_kmallocInt hk halloc
  have hk₁ : m₁.kheap ≠ 0 := by rwa [hg.kheap]
  have hkheap := kheap_of_kfree hfree hk₁
  have hend := kheapEnd_of_kfree hfree hk₁
  simp only at hkheap hend
  exact ⟨hkheap.trans hg.kheap, hg.le.trans hend.ge⟩

theorem heapGrows_grow (hk : s.machine.kheap ≠ 0) (h : growSequence src n s = some s') :
    HeapGrows s.machine s'.machine := by
  rw [growSequence] at h
  split_ifs at h
  · simp only [Option.bind_eq_bind, Option.bind_eq_some_iff, Option.pure_def,
      Option.some.injEq] at h
    obtain ⟨⟨p, m⟩, hre, rfl⟩ := h
    exact heapGrows_krealloc hk hre
  · obtain rfl := Option.some.inj h
    exact ⟨rfl, le_rfl⟩

theorem heapGrows_handle (hk : s.machine.kheap ≠ 0)
    (h : handleEscapeSequenceChar src k (videoPutc src screen n) c s = some s') :
    HeapGrows s.machine s'.machine := by
  rw [handleEscapeSequenceChar] at h
  split_ifs at h with h0 hc
  · obtain rfl := eq_display (s := { s with inEscapeSequence := false }) rfl (by decide) h
    exact ⟨rfl, le_rfl⟩
  all_goals
    simp only [Option.bind_eq_bind, Option.bind_eq_some_iff, Option.pure_def,
      Option.some.injEq] at h
    obtain ⟨s₁, hgrow, rfl⟩ := h
    have hg := heapGrows_grow hk hgrow
    exact ⟨hg.kheap, hg.le⟩

/-! ### One call -/

/-- **What a character does to a sequence.** -/
inductive SequenceStep (screen : Screen) (c : UInt8) (s : Console) : Console → Prop
  /-- No sequence begins so: the character that should be there is put. -/
  | refused : s.escapeSequenceLength = 0 → c ≠ 91 →
      SequenceStep screen c s ({ s with inEscapeSequence := false }.display screen 91)
  | stored (s₁ : Console) : s₁.Roomy → s.SameSequence s₁ →
      seqChar s.escapeSequenceLength c = true → SequenceStep screen c s (s₁.storeChar c)
  | ended (s₁ : Console) : s₁.Roomy → s.SameSequence s₁ → 0 < s.escapeSequenceLength →
      inSequence c = false →
      SequenceStep screen c s ({ s₁ with inEscapeSequence := false }.storeChar c)

/-- A sequence that has just begun fits. -/
theorem Console.Holding.fits (hheap : SnugHeap s.machine) (h : s.Holding)
    (h0 : s.escapeSequenceLength = 0) : s.Fits := by
  have hge := h.size_ge
  obtain ⟨hle, -⟩ := hheap.length_bounds h.live rfl
  simp only at hle
  rw [Fits, if_neg (by omega), blockLength]
  omega

theorem sequenceStep_of_handle (hinv : s.Inv) (hs : s.inEscapeSequence = true)
    (hfits : 0 < s.escapeSequenceLength → s.Fits)
    (hwrap : s'.machine.kheapEnd + 0xFFF + 2 ^ 32 < 2 ^ 64)
    (h : handleEscapeSequenceChar src k (videoPutc src screen n) c s = some s') :
    SequenceStep screen c s s' := by
  have hhold := hinv.inside hs
  have hfits' : s.Fits := by
    rcases Nat.eq_zero_or_pos s.escapeSequenceLength with h0 | hpos
    · exact hhold.fits hinv.heap h0
    · exact hfits hpos
  have hgrown : ∀ s₁, growSequence src k s = some s₁ →
      s₁.machine.kheapEnd + 0xFFF + 2 ^ 32 < 2 ^ 64 → s₁.Roomy ∧ s.SameSequence s₁ :=
    fun s₁ hgrow hwrap => growSequence_spec hinv.heap hhold hfits' hwrap hgrow
  rw [handleEscapeSequenceChar] at h
  by_cases h0 : s.escapeSequenceLength = 0
  · rw [if_pos h0] at h
    split_ifs at h with hc
    · obtain rfl := eq_display (s := { s with inEscapeSequence := false }) rfl (by decide) h
      exact .refused h0 hc
    · simp only [Option.bind_eq_bind, Option.bind_eq_some_iff, Option.pure_def,
        Option.some.injEq] at h
      obtain ⟨s₁, hgrow, rfl⟩ := h
      obtain ⟨hroomy, hsame⟩ := hgrown s₁ hgrow hwrap
      exact .stored s₁ hroomy hsame (by simpa [seqChar, h0] using hc)
  · rw [if_neg h0, Option.bind_eq_bind, Option.bind_eq_some_iff] at h
    obtain ⟨s₁, hgrow, h⟩ := h
    split_ifs at h with hseq
    · obtain rfl := Option.some.inj h
      obtain ⟨hroomy, hsame⟩ := hgrown s₁ hgrow hwrap
      exact .stored s₁ hroomy hsame (by rwa [seqChar, if_neg h0])
    · obtain rfl := Option.some.inj h
      obtain ⟨hroomy, hsame⟩ := hgrown s₁ hgrow hwrap
      exact .ended s₁ hroomy hsame (Nat.pos_of_ne_zero h0) (by simpa using hseq)

/-- **What a call does inside a sequence.** -/
theorem sequence_cases (hinv : s.Inv) (hs : s.inEscapeSequence = true)
    (hfits : 0 < s.escapeSequenceLength → s.Fits)
    (hwrap : s'.machine.kheapEnd + 0xFFF + 2 ^ 32 < 2 ^ 64)
    (h : videoPutc src screen n c s = some s') : ∃ k s₁, SequenceStep screen c s s₁ ∧
      ((s₁.inEscapeSequence = true ∧ s' = s₁) ∨
        (s₁.inEscapeSequence = false ∧ ∃ s₂ m,
          parseEscapeSequence screen k (videoPutc src screen k) s₁ = some s₂ ∧
          kfree s₂.machine s₂.escapeSequence = some m ∧
          s' = { s₂ with machine := m, events := .free s₂.escapeSequence :: s₂.events })) := by
  cases n with
  | zero => simp [videoPutc] at h
  | succ k =>
    rw [videoPutc, if_pos hs, Option.bind_eq_bind, Option.bind_eq_some_iff] at h
    obtain ⟨s₁, hhandle, h⟩ := h
    refine ⟨k, s₁, ?_⟩
    split_ifs at h with hs₁
    · obtain rfl := Option.some.inj h
      exact ⟨sequenceStep_of_handle hinv hs hfits hwrap hhandle, Or.inl ⟨hs₁, rfl⟩⟩
    · simp only [Option.bind_eq_bind, Option.bind_eq_some_iff, Option.pure_def,
        Option.some.injEq] at h
      obtain ⟨s₂, hparse, m, hfree, rfl⟩ := h
      simp only [Bool.not_eq_true] at hs₁
      have hk : s.machine.kheap ≠ 0 := hinv.heap.kheap_pos.ne'
      have hg := heapGrows_handle hk hhandle
      have hk₁ : s₁.machine.kheap ≠ 0 := by rwa [hg.kheap]
      have hg₂ := heapGrows_parse hk₁ hs₁ hparse
      have hend := kheapEnd_of_kfree hfree (by rwa [hg₂.kheap])
      have hle := hg₂.le
      simp only at hwrap
      exact ⟨sequenceStep_of_handle hinv hs hfits (by omega) hhandle,
        Or.inr ⟨hs₁, s₂, m, hparse, hfree, rfl⟩⟩

/-- The heap when a sequence has begun. -/
theorem SnugHeap.begun {p : ℕ} {m : Machine} (h : SnugHeap s.machine)
    (hwrap : m.kheapEnd + 0xFFF + 2 ^ 32 < 2 ^ 64)
    (halloc : Xana.kmalloc src n s.machine 64 = some (p, m)) :
    SnugHeap (s.begun p m).machine ∧ ⟨p, 64, false⟩ ∈ m.live := by
  obtain ⟨hsnug, hlive, -, -⟩ := h.kmalloc (by omega) halloc
  obtain ⟨hle, -⟩ := hsnug.length_bounds hlive rfl
  simp only at hle
  refine ⟨hsnug.write _ p (p + 1) hlive rfl le_rfl (by simp only; omega) ?_, hlive⟩
  intro x hx
  exact Mem.write_of_notMem (by simpa using hx)

/-- A sequence begins. -/
theorem Console.Inv.begun {p : ℕ} {m : Machine} (h : s.Inv) (hs : s.inEscapeSequence = false)
    (hwrap : m.kheapEnd + 0xFFF + 2 ^ 32 < 2 ^ 64)
    (halloc : kmalloc src n s.machine 64 = some (p, m)) : (s.begun p m).Inv := by
  obtain ⟨hheap, hlive⟩ := h.heap.begun hwrap halloc
  have hkheap : m.kheap = s.machine.kheap := (grown_kmallocInt h.heap.kheap_pos.ne' halloc).kheap
  refine ⟨hheap, ?_, fun hin => ?_, fun _ => ⟨?_, hlive, ?_, ?_, ?_, ?_, ?_⟩⟩
  · show virtMemOffset ≤ m.kheap
    rw [hkheap]
    exact h.kheap_le
  · simp [Console.begun] at hin
  · have halloc' := owned_alloc (p := p) (h.outside hs) (by simp)
    exact owned_use halloc' List.mem_cons_self
  · exact Nat.zero_le _
  · exact le_rfl
  · show 64 < 2 ^ 32
    decide
  · intro i hi
    simp [Console.begun] at hi
  · intro _
    show m.mem.write p [0] (p + 0) = 0
    rw [Mem.write_singleton, add_zero, Function.update_self]

/-- What is displayed concerns no buffer. -/
theorem Console.Inv.display (h : s.Inv) : (s.display screen c).Inv :=
  ⟨h.heap, h.kheap_le, h.outside, fun hin => by
    obtain ⟨howned, hlive, hle, hge, hlt, hchars, hnul⟩ := h.inside hin
    exact ⟨howned, hlive, hle, hge, hlt, hchars, hnul⟩⟩

/-- **`video_putc` keeps the invariant.** -/
theorem Console.Inv.putc (h : s.Inv) (hok : PlainSequences s (.putc n c))
    (hwrap : s'.machine.kheapEnd + 0xFFF + 2 ^ 32 < 2 ^ 64)
    (hput : videoPutc src screen n c s = some s') : s'.Inv := by
  rcases hs : s.inEscapeSequence with _ | _
  · obtain ⟨k, hplain⟩ := exists_putPlain hs hput
    rcases putPlain_cases hplain with ⟨-, p, m, halloc, rfl⟩ | ⟨-, rfl⟩
    · have hwrap' : m.kheapEnd + 0xFFF + 2 ^ 32 < 2 ^ 64 := hwrap
      exact (h.begun hs hwrap' halloc).display
    · exact h.display
  · have hok' := hok hs
    obtain ⟨k, s₁, hstep, ⟨hs₁, rfl⟩ | ⟨hs₁, s₂, m, hparse, hfree, rfl⟩⟩ :=
      sequence_cases h hs (fun hpos => (hok' hpos).2) hwrap hput
    · -- the sequence goes on
      cases hstep with
      | refused => simp [Console.display] at hs₁
      | stored s₂ hroomy hsame hc =>
        refine ⟨hroomy.heap_storeChar, ?_, fun hin => ?_, fun _ => ?_⟩
        · show virtMemOffset ≤ s₂.machine.kheap
          rw [hsame.kheap]
          exact h.kheap_le
        · rw [hs₁] at hin
          simp at hin
        · exact hroomy.holding_storeChar (by rwa [hsame.length_eq])
      | ended => simp [Console.storeChar] at hs₁
    · cases hstep with
      | refused h0 hc =>
        -- no `[` came behind the escape: nothing has been stored
        have hhold := h.inside hs
        refine inv_of_parse (s := ({ s with inEscapeSequence := false }.display screen 91)) h.heap
          h.kheap_le rfl hhold.owned hhold.live ?_ hparse hfree
        intro i hi
        have hi' : i < s.escapeSequenceLength := hi
        omega
      | stored s₃ hroomy hsame hc =>
        have hin : s₃.inEscapeSequence = false := hs₁
        rw [hsame.inEscapeSequence, hs] at hin
        simp at hin
      | ended s₃ hroomy hsame hpos hc =>
        have hroomy' := hroomy.leave
        refine inv_of_parse hroomy'.heap_storeChar ?_ rfl hroomy'.owned_storeChar
          hroomy'.holding.live
          ?_ hparse hfree
        · show virtMemOffset ≤ s₃.machine.kheap
          rw [hsame.kheap]
          exact h.kheap_le
        · intro i hi
          rw [hroomy'.length_storeChar] at hi
          rw [hroomy'.sequence_storeChar]
          split_ifs with h₁ h₂
          · decide
          · exact (hok' hpos).1
          · have hchar := hroomy'.holding.chars i (by omega)
            rw [control_of_seqChar hchar]
            simp

/-- **Others keep the invariant.** -/
theorem Console.Inv.heapCall {m : Machine} {c : HeapCall} (h : s.Inv)
    (hspare : ∀ p ∈ s.held, c.Spares s.machine p) (hs : HeapStep src s.machine c m) :
    Inv { s with machine := m } := by
  refine ⟨h.heap.heapStep hs, ?_, h.outside, fun hin => ?_⟩
  · show virtMemOffset ≤ m.kheap
    rw [HeapStep.kheap hs h.heap.kheap_pos.ne']
    exact h.kheap_le
  · obtain ⟨howned, hlive, hle, hge, hlt, hchars, hnul⟩ := h.inside hin
    have hheld : s.escapeSequence ∈ s.held := by
      rw [held, howned]
      simp
    obtain ⟨hlive', hbytes⟩ := h.heap.spared hs hlive (hspare _ hheld)
    have hseq : ∀ i < s.sequenceBufferSize,
        sequence { s with machine := m } i = s.sequence i := fun i hi =>
      hbytes (s.escapeSequence + i) (Nat.le_add_right _ _) (by simp only; omega)
    refine ⟨howned, hlive', hle, hge, hlt, fun i hi => ?_, fun h0 => ?_⟩
    · rw [hseq i (lt_of_lt_of_le hi hle)]
      exact hchars i hi
    · rw [hseq 0 (by omega)]
      exact hnul h0

theorem ConsoleInit.inv (h : ConsoleInit src s) : s.Inv where
  heap := h.built.snugHeap
  kheap_le := h.kheap_le
  outside := by
    intro _
    rw [h.events]
    rfl
  inside := by
    intro hin
    rw [h.inEscapeSequence] at hin
    simp at hin

theorem consoleInv_of_reach
    (h : Reach (ConsoleStep src screen) PlainSequences (ConsoleInit src) s) : s.Inv := by
  refine h.invariant (P := Inv) (fun _ hi => hi.inv) ?_
  rintro s act s' hinv hok hs
  cases act with
  | putc n c => exact hinv.putc hok hs.2 hs.1
  | heap c =>
    obtain ⟨hspare, m, hstep, rfl⟩ := hs
    exact hinv.heapCall hspare hstep

/-- **The buffers are used lawfully** in every state that is reached. -/
theorem buffers_of_reach (h : Reach (ConsoleStep src screen) PlainSequences (ConsoleInit src) s) :
    s.Lawful :=
  (consoleInv_of_reach h).lawful

end Steps

/-! ### A buffer that is freed too early -/

section Boot

variable {src : FrameSource} {screen : Screen} {m : Machine} {s : Console} {l : List Block} {n : ℕ}

open Console

/-- The heap that `memory_init` has built is all room. -/
theorem FreshHeap.hasRoom (hm : FreshHeap m) (hinv : HeapInv m l) :
    HasRoom m (0x200000 - 1 - heapHeaderSize) := by
  obtain ⟨b, l, rfl⟩ := List.exists_cons_of_ne_nil hinv.ne_nil
  have hheader : header m.mem m.kheap = _ := hinv.listed.1
  rw [hm.header_eq, HeapHeader.mk.injEq] at hheader
  obtain ⟨-, hlen, hfree, hnext, -⟩ := hheader
  cases l with
  | nil => exact ⟨[], b, hinv, hfree.symm, hlen.le⟩
  | cons c l =>
    have hpos := hm.kheap_pos
    rw [headOr_cons] at hnext
    omega

/-- The console of a machine. -/
def bootConsole (m : Machine) : Console where
  machine := m
  inEscapeSequence := false
  escapeSequence := 0
  escapeSequenceLength := 0
  sequenceBufferSize := 0
  colors := ⟨.none, 0xFFFFFF, 0⟩
  cursor := ⟨0, 0⟩
  drawn := []
  events := []

/-- A screen of 800 by 600 pixels. -/
def bootScreen : Screen := ⟨800, 600, 16, .rgb⟩

/-- Outside a sequence, `ESC` begins one, if there is room for its buffer. -/
theorem exists_putc_escape (src : FrameSource) (screen : Screen) (hs : s.inEscapeSequence = false)
    (hroom : HasRoom s.machine n)
    (hn : roomFor 64 < n) (hwrap : s.machine.kheapEnd + 0xFFF + 2 ^ 32 < 2 ^ 64) (k : ℕ) :
    ∃ p m, kmalloc src (k + 1) s.machine 64 = some (p, m) ∧
      videoPutc src screen (k + 2) 27 s = some ((s.begun p m).display screen 27) ∧
      m.kheapEnd = s.machine.kheapEnd ∧
      HasRoom { m with mem := m.mem.write p [0] } (n - roomFor 64) := by
  obtain ⟨p, mem, halloc, hroom'⟩ := hroom.kmallocInt src k false (by decide) hn (by omega)
  refine ⟨p, _, halloc, ?_, rfl, ?_⟩
  · rw [videoPutc, if_neg (by simp [hs]), putPlain, if_pos (by decide),
      beginEscapeSequence, kmalloc, halloc]
    rfl
  · exact hroom'.write (u := ⟨p, 64, false⟩) List.mem_cons_self [0] le_rfl (by simp)

/-- A sequence that has room grows no buffer. -/
theorem growSequence_of_lt (h : s.escapeSequenceLength < s.sequenceBufferSize) :
    growSequence src n s = some s := by
  rw [growSequence, if_neg (by omega)]

theorem Console.Roomy.hasRoom_storeChar {c : UInt8} (h : s.Roomy)
    (hlt : s.escapeSequenceLength + 1 < s.sequenceBufferSize) (hroom : HasRoom s.machine n) :
    HasRoom (s.storeChar c).machine n := by
  have hlen : (s.escapeSequenceLength + 1) % 2 ^ 32 = s.escapeSequenceLength + 1 :=
    h.length_storeChar (c := c)
  have hlive := h.holding.live
  have hfirst := hroom.write hlive [c] (a := s.escapeSequence + s.escapeSequenceLength)
    (Nat.le_add_right _ _) (by simp only [List.length_singleton]; omega)
  have hsecond := hfirst.write hlive [0]
    (a := s.escapeSequence + (s.escapeSequenceLength + 1) % 2 ^ 32) (Nat.le_add_right _ _)
    (by simp only [List.length_singleton]; omega)
  exact hsecond

theorem Console.Inv.roomy (h : s.Inv) (hs : s.inEscapeSequence = true)
    (hlt : s.escapeSequenceLength + 1 < s.sequenceBufferSize) : s.Roomy := by
  have hhold := h.inside hs
  obtain ⟨hle, -⟩ := h.heap.length_bounds hhold.live rfl
  simp only at hle
  refine ⟨h.heap, hhold, by omega, ?_⟩
  rw [blockLength]
  omega

/-- The `[` of a sequence. -/
theorem putc_bracket (h : s.Inv) (hs : s.inEscapeSequence = true) (h0 : s.escapeSequenceLength = 0)
    (k : ℕ) : videoPutc src screen (k + 1) 91 s = some (s.storeChar 91) := by
  have hge := (h.inside hs).size_ge
  rw [videoPutc, if_pos hs, handleEscapeSequenceChar, if_pos h0, if_neg (by decide),
    growSequence_of_lt (by omega)]
  simp only [Option.bind_eq_bind, Option.bind_some, Option.pure_def]
  rw [if_pos (by exact hs)]

/-- **An `ESC` behind the `[`** leaves the console with a buffer that is not live. -/
theorem exists_putc_dangling (h : s.Inv) (hs : s.inEscapeSequence = true)
    (h1 : s.escapeSequenceLength = 1) (hroom : HasRoom s.machine n) (hn : roomFor 64 < n)
    (hwrap : s.machine.kheapEnd + 0xFFF + 2 ^ 32 < 2 ^ 64) :
    ∃ s', videoPutc src screen 5 27 s = some s' ∧ s'.machine.kheapEnd = s.machine.kheapEnd ∧
      s'.inEscapeSequence = true ∧ ∀ u ∈ s'.machine.live, u.ptr ≠ s'.escapeSequence := by
  have hge := (h.inside hs).size_ge
  have hroomy : Roomy { s with inEscapeSequence := false } := (h.roomy hs (by omega)).leave
  obtain ⟨s₁, hs₁⟩ : ∃ s₁, s₁ = { s with inEscapeSequence := false }.storeChar 27 := ⟨_, rfl⟩
  -- the sequence is `[`, `ESC`
  have hlen : s₁.escapeSequenceLength = 2 := by
    rw [hs₁, hroomy.length_storeChar, h1]
  have hseq : ∀ i, s₁.sequence i = if i = 2 then 0 else if i = 1 then 27 else s.sequence i := by
    intro i
    rw [hs₁, hroomy.sequence_storeChar, h1]
    rfl
  have hfirst : s.sequence 0 = 91 := by
    have hchar := (h.inside hs).chars 0 (by omega)
    simpa [seqChar] using hchar
  have hstrlen : strlen 4 s₁.sequence = some 2 := by
    simp [strlen, hseq, hfirst]
  have hcommand : s₁.machine.mem (s₁.escapeSequence + 2 - 1) = 27 := hseq 1
  have hin : s₁.inEscapeSequence = false := by
    rw [hs₁]
    rfl
  have hend : s₁.machine.kheapEnd = s.machine.kheapEnd := by
    rw [hs₁]
    rfl
  have hheap : SnugHeap s₁.machine := by
    rw [hs₁]
    exact hroomy.heap_storeChar
  have hroom₁ : HasRoom s₁.machine n := by
    rw [hs₁]
    exact hroomy.hasRoom_storeChar (by simp only; omega) hroom
  have hhandle : handleEscapeSequenceChar src 4 (videoPutc src screen 4) 27 s = some s₁ := by
    rw [handleEscapeSequenceChar, if_neg (by omega), growSequence_of_lt (by omega), hs₁]
    rfl
  -- the echo puts the `[`, and begins a sequence
  obtain ⟨s₂, hs₂⟩ : ∃ s₂, s₂ = ({ s₁ with
    events := .use s₁.escapeSequence :: .use s₁.escapeSequence :: s₁.events }).display screen 91 :=
    ⟨_, rfl⟩
  have hmachine : s₂.machine = s₁.machine := by
    rw [hs₂]
    rfl
  obtain ⟨s₃, hs₃⟩ : ∃ s₃, s₃ = { s₂ with events := .use s₂.escapeSequence :: s₂.events } :=
    ⟨_, rfl⟩
  have hmachine₃ : s₃.machine = s₁.machine := by
    rw [hs₃]
    exact hmachine
  obtain ⟨p, m, halloc, hput, hend', -⟩ := exists_putc_escape src screen (s := s₃)
    (by rw [hs₃, hs₂]; exact hin) (by rwa [hmachine₃]) hn (by rw [hmachine₃, hend]; exact hwrap) 2
  have hput₀ : videoPutc src screen 4 (s₁.sequence 0) { s₁ with
      events := .use s₁.escapeSequence :: .use s₁.escapeSequence :: s₁.events } = some s₂ := by
    rw [hseq 0, if_neg (by decide), if_neg (by decide), hfirst, hs₂, videoPutc,
      if_neg (by simp [hin]), putPlain_of_ne (by decide)]
  have hput₁ :
      videoPutc src screen 4 (s₂.sequence 1) s₃ = some ((s₃.begun p m).display screen 27) := by
    have hsecond : s₂.sequence 1 = s₁.sequence 1 := by rw [hs₂]; rfl
    rw [hsecond, hseq 1, if_neg (by decide), if_pos rfl, hput]
  have hlen₂ : s₂.escapeSequenceLength = 2 := by
    rw [hs₂]
    exact hlen
  have hecho : echoSequence (videoPutc src screen 4) 4 0
      { s₁ with events := .use s₁.escapeSequence :: s₁.events } =
        some ((s₃.begun p m).display screen 27) := by
    rw [echoSequence, if_pos (by simp only; omega)]
    show (videoPutc src screen 4 (s₁.sequence 0) _).bind (echoSequence _ 3 1) = _
    rw [hput₀, Option.bind_some, echoSequence, if_pos (by omega)]
    show (videoPutc src screen 4 (s₂.sequence 1) { s₂ with
      events := .use s₂.escapeSequence :: s₂.events }).bind (echoSequence _ 2 2) = _
    rw [← hs₃, hput₁, Option.bind_some, echoSequence,
      if_neg (by simp [Console.display, Console.begun])]
  have hparse : parseEscapeSequence screen 4 (videoPutc src screen 4) s₁ =
      some ((s₃.begun p m).display screen 27) := by
    simp only [parseEscapeSequence, hstrlen, hcommand, Option.bind_eq_bind, Option.bind_some]
    rw [if_neg (by decide), if_neg (by decide), if_neg (by decide)]
    exact hecho
  -- the buffer that is freed is the new one
  have hwrap₃ : m.kheapEnd + 0xFFF + 2 ^ 32 < 2 ^ 64 := by
    rw [hend', hmachine₃, hend]
    exact hwrap
  obtain ⟨hsnug, hlive⟩ := SnugHeap.begun (s := s₃) (by rwa [hmachine₃]) hwrap₃ halloc
  obtain ⟨mem, hfree, -⟩ := hsnug.kfree hlive rfl
  refine ⟨_, videoPutc_of_end hs hhandle hin hparse hfree, ?_, rfl, ?_⟩
  · show m.kheapEnd = _
    rw [hend', hmachine₃, hend]
  · intro u hu
    have hne := (List.mem_filter.mp hu).2
    simp only [ne_eq, decide_not, Bool.not_eq_true', decide_eq_false_iff_not] at hne
    exact hne

/-- The console of a machine that boots. -/
theorem exists_consoleInit : ∃ m, ConsoleInit bootFrames (bootConsole m) ∧
    m.kheapEnd + 0xFFF + 2 ^ 32 < 2 ^ 64 := by
  obtain ⟨m, hinit⟩ := initHeap_bootMachine
  have hbuilt : HeapBuilt bootFrames m :=
    ⟨bootMachine, 0xFFFFFF8040000000, by decide, by decide, by decide, hinit⟩
  have hkheap := kheap_of_initHeap hinit
  have hend := hbuilt.freshHeap.kheapEnd_eq
  refine ⟨m, ⟨hbuilt, ?_, rfl, rfl, rfl, rfl⟩, by omega⟩
  show virtMemOffset ≤ m.kheap
  rw [hkheap]
  decide

/-- A console that has been given `ESC [`. -/
theorem exists_sequence (screen : Screen) : ∃ s n,
    Reach (ConsoleStep bootFrames screen) PlainSequences (ConsoleInit bootFrames) s ∧
      s.inEscapeSequence = true ∧ s.escapeSequenceLength = 1 ∧ HasRoom s.machine n ∧
      roomFor 64 < n ∧ s.machine.kheapEnd + 0xFFF + 2 ^ 32 < 2 ^ 64 := by
  obtain ⟨m, hconsole, hwrap⟩ := exists_consoleInit
  have hbuilt : HeapBuilt bootFrames m := hconsole.built
  obtain ⟨l, hinv⟩ := hbuilt.inv
  have hroom : HasRoom m (0x200000 - 1 - heapHeaderSize) := hbuilt.freshHeap.hasRoom hinv
  -- the `ESC`
  obtain ⟨p, m₁, halloc, hput, hend₁, hroom₁⟩ := exists_putc_escape bootFrames screen
    (s := bootConsole m) rfl hroom (by decide) hwrap 0
  obtain ⟨s₁, hs₁⟩ : ∃ s₁, s₁ = ((bootConsole m).begun p m₁).display screen 27 := ⟨_, rfl⟩
  have hend₁' : s₁.machine.kheapEnd = m.kheapEnd := by
    rw [hs₁]
    exact hend₁
  rw [← hs₁] at hput
  have hstep₁ : ConsoleStep bootFrames screen (bootConsole m) (.putc 2 27) s₁ := ⟨hput, by omega⟩
  have hok₁ : PlainSequences (bootConsole m) (.putc 2 27) := by
    intro hin
    simp [bootConsole] at hin
  have hreach₁ : Reach (ConsoleStep bootFrames screen) PlainSequences (ConsoleInit bootFrames) s₁ :=
    (Reach.init hconsole).step hok₁ hstep₁
  have hin₁ : s₁.inEscapeSequence = true := by rw [hs₁]; rfl
  have hlen₁ : s₁.escapeSequenceLength = 0 := by rw [hs₁]; rfl
  have hinv₁ := consoleInv_of_reach hreach₁
  have hsize := (hinv₁.inside hin₁).size_ge
  have hroomy := hinv₁.roomy hin₁ (by omega)
  have hmachine₁ : s₁.machine = { m₁ with mem := m₁.mem.write p [0] } := by rw [hs₁]; rfl
  -- the `[`
  have hput₂ : videoPutc bootFrames screen 1 91 s₁ = some (s₁.storeChar 91) :=
    putc_bracket hinv₁ hin₁ hlen₁ 0
  have hstep₂ : ConsoleStep bootFrames screen s₁ (.putc 1 91) (s₁.storeChar 91) := by
    refine ⟨hput₂, ?_⟩
    show s₁.machine.kheapEnd + 0xFFF + 2 ^ 32 < 2 ^ 64
    omega
  have hok₂ : PlainSequences s₁ (.putc 1 91) := by
    intro _ hpos
    omega
  refine ⟨s₁.storeChar 91, 0x200000 - 1 - heapHeaderSize - roomFor 64,
    hreach₁.step hok₂ hstep₂, hin₁, ?_, ?_, ?_, ?_⟩
  · rw [hroomy.length_storeChar, hlen₁]
  · exact hroomy.hasRoom_storeChar (by omega) (by rwa [hmachine₁])
  · decide
  · show s₁.machine.kheapEnd + 0xFFF + 2 ^ 32 < 2 ^ 64
    omega

theorem buffers_of_reach_sequence : ∃ s : Console, s.inEscapeSequence = true ∧ s.Lawful := by
  obtain ⟨s, -, hreach, hin, -⟩ := exists_sequence bootScreen
  exact ⟨s, hin, buffers_of_reach hreach⟩

/-- Not all that is done with the buffers is lawful. -/
theorem not_lawful_buffers : ¬∀ (src : FrameSource) (screen : Screen) (s : Console),
    Reach (ConsoleStep src screen) anyStep (ConsoleInit src) s → s.Lawful := by
  intro hall
  obtain ⟨s, n, hreach, hin, hlen, hroom, hn, hwrap⟩ := exists_sequence bootScreen
  obtain ⟨s', hput, hend, hin', hlive⟩ :=
    exists_putc_dangling (consoleInv_of_reach hreach) hin hlen hroom hn hwrap
  have hstep : ConsoleStep bootFrames bootScreen s (.putc 5 27) s' := ⟨hput, by rwa [hend]⟩
  have hany : Reach (ConsoleStep bootFrames bootScreen) anyStep (ConsoleInit bootFrames) s :=
    hreach.mono fun _ _ _ => trivial
  have hreach' := hany.step trivial hstep
  obtain ⟨u, hu, hptr⟩ := (hall _ _ _ hreach').live hin'
  exact hlive u hu hptr

end Boot

end Xana
