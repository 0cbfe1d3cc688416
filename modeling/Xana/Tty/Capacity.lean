import Xana.Lib.Runs
import Xana.Tty.Basic

/-!
# The room in the terminal's buffer

`tty_push` doubles the buffer when it is full. The block that it allocates has twice as
many bytes, but the number it keeps of them is 16 bits wide: with 32768 bytes pending it
allocates 65536, and it notes 0. From then on the buffer counts as full whatever is in it,
the next block has no byte at all, and each character is stored behind it.

In a run in which no character is stored behind 32768 others, what is pending fits the
buffer, `buffer_size` is its size, and `tty_push` writes inside it
(`Xana.TtyBlock.room_of_reach`, which also says that the first other character ends this).
-/

namespace Xana

/-- `tty_push` takes the last character back, and stores nothing. -/
def Tty.Erases (tty : Tty) (c : UInt8) : Prop :=
  tty.lflag.getLsbD icanon = true ∧ tty.mapped c = backspace

instance (tty : Tty) (c : UInt8) : Decidable (tty.Erases c) :=
  inferInstanceAs (Decidable (tty.lflag.getLsbD icanon = true ∧ tty.mapped c = backspace))

/-- The indices of `tty->buffer` that `tty_push` writes: those of the bytes it copies to a
new block, and that of the character. -/
def Tty.pushIndices (tty : Tty) (c : UInt8) : List ℕ :=
  if tty.Erases c then []
  else (if tty.bufferSize ≤ tty.bufferPos then List.range tty.bufferSize else []) ++
    [tty.bufferPos]

/-- A terminal, and the number of bytes in the block at `tty->buffer`. -/
structure TtyBlock where
  tty : Tty
  allocated : ℕ

section Functions

variable {tty tty' : Tty} {c : UInt8} {mem : ℕ → UInt8}

/-- The key `a` is stored. -/
theorem Tty.not_erases_key (tty : Tty) : ¬tty.Erases 97 := by
  have hcr : (97 : UInt8) ≠ carriageReturn := by decide
  have hback : (97 : UInt8) ≠ backspace := by decide
  rw [Tty.Erases, Tty.mapped, if_neg fun h => hcr h.2]
  exact fun h => hback h.2

theorem ttyPush_of_erases (h : tty.Erases c) : (ttyPush mem c tty).2 =
    { tty with bufferPos := if 0 < tty.bufferPos then tty.bufferPos - 1 else tty.bufferPos } :=
  if_pos h

theorem ttyPush_of_not_erases (h : ¬tty.Erases c) :
    (ttyPush mem c tty).2 = (tty.grow mem).store (tty.mapped c) := if_neg h

theorem Tty.grow_of_full (h : tty.bufferSize ≤ tty.bufferPos) : tty.grow mem =
    { tty with
      buffer := fun i => if i < tty.bufferSize then tty.buffer i else mem i
      bufferSize := tty.bufferSize * 2 % 2 ^ 16 } := if_pos h

theorem Tty.grow_of_room (h : tty.bufferPos < tty.bufferSize) : tty.grow mem = tty :=
  if_neg (Nat.not_le.mpr h)

@[simp] theorem Tty.grow_bufferPos : (tty.grow mem).bufferPos = tty.bufferPos := by
  rw [Tty.grow]
  split_ifs <;> rfl

/-- A read keeps the flags and the buffer, and no more is pending after it. -/
theorem ttyRead_cursors {size nmemb i : ℕ} {line : List UInt8}
    (h : ttyRead size nmemb tty = some (line, i, tty')) :
    tty'.bufferPos ≤ tty.bufferPos ∧ tty'.bufferSize = tty.bufferSize := by
  simp only [ttyRead] at h
  by_cases hcanon : tty.lflag.getLsbD icanon = true
  · rw [if_pos hcanon] at h
    by_cases hnl : tty.haveNl = true
    · rw [if_pos hnl] at h
      obtain rfl := congrArg (fun r => r.2.2) (Option.some.inj h)
      exact ⟨Nat.sub_le _ _, rfl⟩
    · rw [if_neg hnl] at h
      cases h
  · rw [if_neg hcanon] at h
    obtain rfl := congrArg (fun r => r.2.2) (Option.some.inj h)
    exact ⟨Nat.zero_le _, rfl⟩

end Functions

namespace TtyBlock

/-! ### Runs -/

/-- What happens to a terminal. -/
inductive Act
  /-- A character; a block that is allocated held `mem`. -/
  | push (mem : ℕ → UInt8) (c : UInt8)
  | read (size nmemb : ℕ)
  /-- The request `TCSETS` of `tty_ioctl`. -/
  | setFlags (iflag lflag : BitVec 32)

/-- The terminal and its block after `tty_push`. -/
def push (mem : ℕ → UInt8) (c : UInt8) (s : TtyBlock) : TtyBlock where
  tty := (ttyPush mem c s.tty).2
  allocated :=
    if ¬s.tty.Erases c ∧ s.tty.bufferSize ≤ s.tty.bufferPos then s.tty.bufferSize * 2
    else s.allocated

/-- One step. -/
def step (s : TtyBlock) : Act → Option TtyBlock
  | .push mem c => some (s.push mem c)
  | .read size nmemb => (ttyRead size nmemb s.tty).map fun r => { s with tty := r.2.2 }
  | .setFlags iflag lflag => some { s with tty := { s.tty with iflag, lflag } }

/-- A terminal that `create_tty` has just made. -/
def IsNew (s : TtyBlock) : Prop := ∃ mem, s = ⟨Tty.create mem, 1024⟩

/-- **No character is stored behind 32768 others.** -/
def Ok (s : TtyBlock) : Act → Prop
  | .push _ c => s.tty.Erases c ∨ s.tty.bufferPos < 32768
  | .read _ _ | .setFlags _ _ => True

/-- The runs whose steps all meet `ok`. -/
abbrev Run (ok : TtyBlock → Act → Prop) : TtyBlock → Prop :=
  Reach (fun s a s' => s.step a = some s') ok IsNew

/-- **There is room**: what is pending fits the buffer, and `buffer_size` is its size. -/
structure Room (s : TtyBlock) : Prop where
  pos_le : s.tty.bufferPos ≤ s.tty.bufferSize
  size_eq : s.tty.bufferSize = s.allocated

/-- Pushing `c` leaves room, and it writes inside the buffer. -/
def Keeps (s : TtyBlock) (mem : ℕ → UInt8) (c : UInt8) : Prop :=
  (s.push mem c).Room ∧ ∀ i ∈ s.tty.pushIndices c, i < (s.push mem c).tty.bufferSize

/-- **The invariant**: there is room, and the buffer has been doubled five times at most. -/
structure Sized (s : TtyBlock) : Prop where
  room : s.Room
  doubled : ∃ k ≤ 5, s.tty.bufferSize = 1024 * 2 ^ k

variable {s s' : TtyBlock} {a : Act} {c : UInt8} {mem : ℕ → UInt8}

theorem Sized.size_le (h : s.Sized) : s.tty.bufferSize ≤ 32768 := by
  obtain ⟨k, hk, hsize⟩ := h.doubled
  rw [hsize]
  exact Nat.mul_le_mul_left 1024 (Nat.pow_le_pow_right Nat.two_pos hk)

/-- A size that is not the last is half of another. -/
theorem Sized.double (h : s.Sized) (hlt : s.tty.bufferSize < 32768) :
    ∃ k ≤ 5, s.tty.bufferSize * 2 = 1024 * 2 ^ k := by
  obtain ⟨k, hk, hsize⟩ := h.doubled
  have hne : k ≠ 5 := by
    rintro rfl
    rw [hsize] at hlt
    exact lt_irrefl _ hlt
  refine ⟨k + 1, by omega, ?_⟩
  rw [hsize, pow_succ, mul_assoc]

/-- **Erasing** writes nothing. -/
theorem Sized.push_of_erases (h : s.Sized) (hback : s.tty.Erases c) :
    (s.push mem c).Sized ∧ s.Keeps mem c := by
  have hpos : (if 0 < s.tty.bufferPos then s.tty.bufferPos - 1 else s.tty.bufferPos) ≤
      s.tty.bufferPos := by
    split_ifs
    · exact Nat.sub_le _ _
    · exact le_rfl
  have hroom : (s.push mem c).Room := by
    refine ⟨?_, ?_⟩
    · rw [push, ttyPush_of_erases hback]
      exact hpos.trans h.room.pos_le
    · have hsame : ¬(¬s.tty.Erases c ∧ s.tty.bufferSize ≤ s.tty.bufferPos) := fun hno => hno.1 hback
      rw [push, ttyPush_of_erases hback, if_neg hsame]
      exact h.room.size_eq
  refine ⟨⟨hroom, ?_⟩, hroom, ?_⟩
  · rw [push, ttyPush_of_erases hback]
    exact h.doubled
  · rw [Tty.pushIndices, if_pos hback]
    exact List.forall_mem_nil _

/-- **Storing** into a buffer with room, or one that can be doubled. -/
theorem Sized.push_of_lt (h : s.Sized) (hback : ¬s.tty.Erases c) (hlt : s.tty.bufferPos < 32768) :
    (s.push mem c).Sized ∧ s.Keeps mem c := by
  obtain ⟨hle, heq⟩ := h.room
  have hsucc : (s.tty.bufferPos + 1) % 2 ^ 16 = s.tty.bufferPos + 1 := by omega
  by_cases hfull : s.tty.bufferSize ≤ s.tty.bufferPos
  · -- 32768 is the one size whose double is not a 16-bit number
    have hdouble : s.tty.bufferSize * 2 % 2 ^ 16 = s.tty.bufferSize * 2 := by omega
    have hpush : s.push mem c = ⟨(Tty.grow mem s.tty).store (s.tty.mapped c),
        s.tty.bufferSize * 2⟩ := by
      rw [push, ttyPush_of_not_erases hback, if_pos ⟨hback, hfull⟩]
    have hsize : (s.push mem c).tty.bufferSize = s.tty.bufferSize * 2 := by
      rw [hpush, Tty.grow_of_full hfull, hdouble]
      rfl
    have hroom : (s.push mem c).Room := by
      refine ⟨?_, by rw [hsize, hpush]⟩
      rw [hsize, hpush]
      show ((s.tty.grow mem).bufferPos + 1) % 2 ^ 16 ≤ s.tty.bufferSize * 2
      rw [Tty.grow_bufferPos, hsucc]
      obtain ⟨k, -, hpow⟩ := h.doubled
      have := Nat.two_pow_pos k
      omega
    refine ⟨⟨hroom, ?_⟩, hroom, fun i hi => ?_⟩
    · rw [hsize]
      exact h.double (by omega)
    · rw [Tty.pushIndices, if_neg hback, if_pos hfull] at hi
      rw [hsize]
      obtain ⟨k, -, hpow⟩ := h.doubled
      have := Nat.two_pow_pos k
      rcases List.mem_append.mp hi with hi | hi
      · have := List.mem_range.mp hi
        omega
      · have := List.mem_singleton.mp hi
        omega
  · have hpush : s.push mem c = ⟨s.tty.store (s.tty.mapped c), s.allocated⟩ := by
      rw [push, ttyPush_of_not_erases hback, if_neg fun hno => hfull hno.2,
        Tty.grow_of_room (Nat.not_le.mp hfull)]
    have hroom : (s.push mem c).Room := by
      rw [hpush]
      refine ⟨?_, heq⟩
      show (s.tty.bufferPos + 1) % 2 ^ 16 ≤ s.tty.bufferSize
      omega
    refine ⟨⟨hroom, ?_⟩, hroom, fun i hi => ?_⟩
    · rw [hpush]
      exact h.doubled
    · rw [Tty.pushIndices, if_neg hback, if_neg hfull, List.nil_append] at hi
      rw [List.mem_singleton.mp hi, hpush]
      exact Nat.not_le.mp hfull

/-- **The character behind 32768 others**: the size of the new block is not noted. -/
theorem Sized.push_of_full (h : s.Sized) (mem : ℕ → UInt8) (hback : ¬s.tty.Erases c)
    (hfull : 32768 ≤ s.tty.bufferPos) :
    (s.push mem c).tty.bufferSize = 0 ∧ (s.push mem c).tty.bufferPos = 32769 := by
  have hsize : s.tty.bufferSize = 32768 := le_antisymm h.size_le (hfull.trans h.room.pos_le)
  have hpos : s.tty.bufferPos = 32768 := le_antisymm (h.room.pos_le.trans h.size_le) hfull
  have hpush : (s.push mem c).tty = (s.tty.grow mem).store (s.tty.mapped c) :=
    ttyPush_of_not_erases hback
  rw [hpush, Tty.store, Tty.grow_bufferPos, Tty.grow_of_full (hsize.trans hpos.symm).le]
  dsimp only
  rw [hsize, hpos]
  exact ⟨rfl, rfl⟩

/-- **Pushing a character keeps the room, and only the one behind 32768 others does not.** -/
theorem Sized.keeps_iff (h : s.Sized) : s.Keeps mem c ↔ s.Ok (.push mem c) := by
  constructor
  · rintro ⟨hroom, -⟩
    by_contra hno
    obtain ⟨hback, hfull⟩ := not_or.mp hno
    obtain ⟨hsize, hpos⟩ := h.push_of_full mem hback (Nat.not_lt.mp hfull)
    have := hroom.pos_le
    omega
  · intro hok
    by_cases hback : s.tty.Erases c
    · exact (h.push_of_erases hback).2
    · exact (h.push_of_lt hback (hok.resolve_left hback)).2

/-- A step that is not a character. -/
theorem Sized.other (h : s.Sized) (hs : s.step a = some s') (ha : ∀ mem c, a ≠ .push mem c) :
    s'.Sized := by
  cases a with
  | push mem c => exact absurd rfl (ha mem c)
  | read size nmemb =>
    obtain ⟨⟨line, i, tty⟩, hread, rfl⟩ := Option.map_eq_some_iff.mp hs
    obtain ⟨hpos, hsize⟩ := ttyRead_cursors hread
    refine ⟨⟨hpos.trans (h.room.pos_le.trans hsize.ge), hsize.trans h.room.size_eq⟩, ?_⟩
    show ∃ k ≤ 5, tty.bufferSize = 1024 * 2 ^ k
    rw [hsize]
    exact h.doubled
  | setFlags iflag lflag =>
    obtain rfl := Option.some.inj hs
    exact ⟨⟨h.room.pos_le, h.room.size_eq⟩, h.doubled⟩

/-- **The step lemma.** -/
theorem Sized.step (h : s.Sized) (hok : s.Ok a) (hs : s.step a = some s') : s'.Sized := by
  cases a with
  | push mem c =>
    obtain rfl := Option.some.inj hs
    by_cases hback : s.tty.Erases c
    · exact (h.push_of_erases hback).1
    · exact (h.push_of_lt hback (hok.resolve_left hback)).1
  | read size nmemb => exact h.other hs fun _ _ => nofun
  | setFlags iflag lflag => exact h.other hs fun _ _ => nofun

theorem sized_of_isNew (h : s.IsNew) : s.Sized := by
  obtain ⟨mem, rfl⟩ := h
  exact ⟨⟨Nat.zero_le _, rfl⟩, 0, Nat.zero_le _, rfl⟩

/-- **The run lemma.** -/
theorem sized_of_reach (h : Run Ok s) : s.Sized :=
  Reach.invariant (P := Sized) (fun _ => sized_of_isNew) (fun _ _ _ ht hok hs => ht.step hok hs) h

/-- A new terminal. -/
def start : TtyBlock := ⟨Tty.create fun _ => 0, 1024⟩

/-- The key `a`, up to 32768 times. -/
theorem exists_run_keys {n : ℕ} (hn : n ≤ 32768) : ∃ s, Run Ok s ∧ s.tty.bufferPos = n := by
  induction n with
  | zero => exact ⟨start, .init ⟨_, rfl⟩, rfl⟩
  | succ n ih =>
    obtain ⟨s, hs, hpos⟩ := ih (by omega)
    refine ⟨s.push (fun _ => 0) 97, hs.step (a := Act.push (fun _ => 0) 97) (Or.inr (by omega)) rfl,
      ?_⟩
    show (ttyPush (fun _ => 0) 97 s.tty).2.bufferPos = n + 1
    rw [ttyPush_of_not_erases s.tty.not_erases_key, Tty.store, Tty.grow_bufferPos, hpos]
    show (n + 1) % 2 ^ 16 = n + 1
    omega

/-- **There is room in every state of a run in which no character is stored behind 32768
others**, and the first that is ends it. -/
theorem room_of_reach (h : Run Ok s) :
    s.Room ∧ ∀ mem c, s.Keeps mem c ↔ s.Ok (.push mem c) :=
  ⟨(sized_of_reach h).room, fun _ _ => (sized_of_reach h).keeps_iff⟩

/-- The key `a`, 32768 times. -/
theorem room_of_reach_keys : ∃ s : TtyBlock, s.tty.bufferPos = 32768 ∧ s.Room := by
  obtain ⟨s, hs, hpos⟩ := exists_run_keys le_rfl
  exact ⟨s, hpos, (room_of_reach hs).1⟩

/-- The key `a`, 32769 times: the buffer counts 32769 bytes pending, and none to hold
them. -/
theorem exists_reach_not_room : ∃ s, Run anyStep s ∧ ¬s.Room := by
  obtain ⟨s, hs, hpos⟩ := exists_run_keys le_rfl
  obtain ⟨hsize, hpos'⟩ := (sized_of_reach hs).push_of_full (fun _ => 0)
    s.tty.not_erases_key hpos.ge
  refine ⟨s.push (fun _ => 0) 97, (hs.mono fun _ _ _ => trivial).step
    (a := Act.push (fun _ => 0) 97) trivial rfl, fun hroom => ?_⟩
  have := hroom.pos_le
  omega

end TtyBlock

end Xana
