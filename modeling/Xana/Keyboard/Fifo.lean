import Xana.Lib.Runs
import Xana.Tty.Basic

/-!
# The keyboard's buffer

Each key goes behind the others in a buffer, and `keyboard_popchar` takes the first and
moves the rest down. The buffer should grow with what is in it: `keyboard_addchar` makes
room when it is full, `keyboard_popchar` gives room back.

Neither ever happens. The number of buffered characters is 8 bits wide, and the buffer has
256 bytes from the start; so the character behind 255 others is stored, and then the
buffer counts as empty. Until then it is a queue (`Xana.KeyboardRun.keyboard_fifo`).
-/

namespace Xana

/-- The variables of the keyboard. `keypressBuffer i` is the byte at `keypress_buffer + i`;
`keypressBufferSize` is a `uint8_t`, `allocated` is `allocated_keypress_buffer_size`. -/
structure Keyboard where
  keypressBuffer : ℕ → UInt8
  keypressBufferSize : ℕ
  allocated : ℕ

namespace Keyboard

/-- What `keyboard_install` leaves, in a block that held `mem`. -/
def install (mem : ℕ → UInt8) : Keyboard where
  keypressBuffer := mem
  keypressBufferSize := 0
  allocated := 256

/-- The buffered characters, in the order of their arrival. -/
def contents (k : Keyboard) : List UInt8 := stored k.keypressBuffer k.keypressBufferSize

/-- `allocated_keypress_buffer_size - 256` -/
def reduced (k : Keyboard) : ℕ := (k.allocated + 2 ^ 64 - 256) % 2 ^ 64

end Keyboard

section Functions

variable (krealloc : (ℕ → UInt8) → ℕ → ℕ → UInt8)

/-- The part of `keyboard_addchar` that makes room. `krealloc buffer size` is what is in a
block with `buffer` when it has been given `size` bytes. -/
def Keyboard.grow (k : Keyboard) : Keyboard :=
  if k.allocated ≤ k.keypressBufferSize then
    { k with
      allocated := (k.allocated + 256) % 2 ^ 64
      keypressBuffer := krealloc k.keypressBuffer ((k.allocated + 256) % 2 ^ 64) }
  else k

/-- The part of `keyboard_addchar` that stores a character. -/
def Keyboard.store (k : Keyboard) (c : UInt8) : Keyboard :=
  { k with
    keypressBuffer := Function.update k.keypressBuffer k.keypressBufferSize c
    keypressBufferSize := (k.keypressBufferSize + 1) % 2 ^ 8 }

/-- `keyboard_addchar`, less the copy of the character that the terminal gets. -/
def keyboardAddchar (c : UInt8) (k : Keyboard) : Keyboard := (k.grow krealloc).store c

/-- The part of `keyboard_popchar` that takes the first character. -/
def Keyboard.dropFirst (k : Keyboard) : Keyboard :=
  { k with
    keypressBuffer := shiftBuffer 1 (k.keypressBufferSize - 1) 1 k.keypressBuffer
    keypressBufferSize := k.keypressBufferSize - 1 }

/-- The part of `keyboard_popchar` that frees memory. -/
def Keyboard.shrink (k : Keyboard) : Keyboard :=
  if k.keypressBufferSize < k.reduced ∧ 256 < k.allocated then
    { k with
      allocated := k.reduced
      keypressBuffer := krealloc k.keypressBuffer k.reduced }
  else k

/-- `keyboard_popchar`, which does not wait: the character, or 0 if there is none, and the
keyboard. -/
def keyboardPopchar (k : Keyboard) : UInt8 × Keyboard :=
  if k.keypressBufferSize = 0 then (0, k)
  else (k.keypressBuffer 0, k.dropFirst.shrink krealloc)

variable {krealloc} {k : Keyboard} {c : UInt8}

/-- In a buffer with 256 bytes there is always room. -/
theorem Keyboard.grow_eq (h : k.keypressBufferSize < k.allocated) : k.grow krealloc = k :=
  if_neg (Nat.not_le.mpr h)

/-- A buffer with 256 bytes is never given back. -/
theorem Keyboard.shrink_eq (h : k.allocated ≤ 256) : k.shrink krealloc = k :=
  if_neg fun hmore => absurd hmore.2 (Nat.not_lt.mpr h)

/-- **Storing** appends, behind fewer than 255 characters. -/
theorem Keyboard.contents_store (h : k.keypressBufferSize < 255) :
    (k.store c).contents = k.contents ++ [c] := by
  rw [Keyboard.contents, Keyboard.store, Nat.mod_eq_of_lt (by omega)]
  exact stored_push

/-- **Behind 255 characters**, storing leaves none. -/
theorem Keyboard.contents_store_of_full (h : k.keypressBufferSize = 255) :
    (k.store c).contents = [] := by
  rw [Keyboard.contents, Keyboard.store, h]
  rfl

/-- **Taking the first character** drops it. -/
theorem Keyboard.contents_eq_cons (h : k.keypressBufferSize ≠ 0) :
    k.contents = k.keypressBuffer 0 :: k.dropFirst.contents := by
  obtain ⟨n, hn⟩ := Nat.exists_eq_succ_of_ne_zero h
  have hdrop : k.dropFirst.contents = k.contents.drop 1 := by
    refine stored_of_shift fun i hi => ?_
    show shiftBuffer 1 (k.keypressBufferSize - 1) 1 k.keypressBuffer i = _
    rw [shiftBuffer_eq le_rfl, if_pos ⟨Nat.zero_le _, by omega⟩]
  rw [hdrop, Keyboard.contents, hn, stored_succ_eq_cons, List.drop_succ_cons, List.drop_zero]

end Functions

/-! ### Runs -/

/-- A keyboard, the characters added so far, and those that have been popped. -/
structure KeyboardRun where
  keyboard : Keyboard
  added : List UInt8
  popped : List UInt8

namespace KeyboardRun

/-- What happens to a keyboard. -/
inductive Act
  | add (c : UInt8)
  | pop

/-- One step. Popping takes a character if there is one. -/
def step (krealloc : (ℕ → UInt8) → ℕ → ℕ → UInt8) (s : KeyboardRun) : Act → KeyboardRun
  | .add c => { s with
      keyboard := keyboardAddchar krealloc c s.keyboard
      added := s.added ++ [c] }
  | .pop => { s with
      keyboard := (keyboardPopchar krealloc s.keyboard).2
      popped :=
        if s.keyboard.keypressBufferSize = 0 then s.popped
        else s.popped ++ [(keyboardPopchar krealloc s.keyboard).1] }

/-- The indices that the step uses are in the block: that of the new character, and
those of the buffered characters, which are moved down. -/
def Inside (krealloc : (ℕ → UInt8) → ℕ → ℕ → UInt8) (s : KeyboardRun) : Act → Prop
  | .add _ => s.keyboard.keypressBufferSize < (s.keyboard.grow krealloc).allocated
  | .pop => ∀ i < s.keyboard.keypressBufferSize, i < s.keyboard.allocated

/-- A keyboard that has just been installed. -/
def IsNew (s : KeyboardRun) : Prop := ∃ mem, s = ⟨Keyboard.install mem, [], []⟩

/-- **No character is added to 255 buffered ones.** -/
def Ok (s : KeyboardRun) : Act → Prop
  | .add _ => s.keyboard.keypressBufferSize ≠ 255
  | .pop => True

/-- The runs whose steps all meet `ok`. -/
abbrev Run (krealloc : (ℕ → UInt8) → ℕ → ℕ → UInt8) (ok : KeyboardRun → Act → Prop) :
    KeyboardRun → Prop :=
  Reach (fun s a s' => s.step krealloc a = s') ok IsNew

/-- **The buffer is a queue**: what has been popped, followed by what is buffered, is what
was added. -/
def Fifo (s : KeyboardRun) : Prop := s.popped ++ s.keyboard.contents = s.added

/-- **The invariant**: the block keeps its 256 bytes. -/
structure Inv (s : KeyboardRun) : Prop where
  allocated_eq : s.keyboard.allocated = 256
  size_lt : s.keyboard.keypressBufferSize < 256
  fifo : s.Fifo

variable {krealloc : (ℕ → UInt8) → ℕ → ℕ → UInt8} {s : KeyboardRun} {a : Act} {c : UInt8}

theorem Inv.addchar_eq (h : s.Inv) :
    keyboardAddchar krealloc c s.keyboard = s.keyboard.store c := by
  rw [keyboardAddchar, Keyboard.grow_eq (h.size_lt.trans_le h.allocated_eq.ge)]

theorem Inv.popchar_eq (h : s.Inv) (hne : s.keyboard.keypressBufferSize ≠ 0) :
    keyboardPopchar krealloc s.keyboard =
      (s.keyboard.keypressBuffer 0, s.keyboard.dropFirst) := by
  rw [keyboardPopchar, if_neg hne, Keyboard.shrink_eq (k := s.keyboard.dropFirst) h.allocated_eq.le]

theorem Inv.inside (h : s.Inv) : s.Inside krealloc a := by
  have hlt : s.keyboard.keypressBufferSize < s.keyboard.allocated :=
    h.size_lt.trans_le h.allocated_eq.ge
  cases a with
  | add c =>
    rw [Inside, Keyboard.grow_eq hlt]
    exact hlt
  | pop => exact fun i hi => hi.trans hlt

/-- **Adding a character keeps the queue**, but not behind 255 others. -/
theorem Inv.fifo_add_iff (h : s.Inv) : (s.step krealloc (.add c)).Fifo ↔ s.Ok (.add c) := by
  have hcontents : (s.step krealloc (.add c)).keyboard.contents = (s.keyboard.store c).contents :=
    congrArg Keyboard.contents h.addchar_eq
  rw [Fifo, hcontents]
  show s.popped ++ _ = s.added ++ [c] ↔ s.keyboard.keypressBufferSize ≠ 255
  rw [← h.fifo]
  constructor
  · intro heq hfull
    rw [Keyboard.contents_store_of_full hfull] at heq
    have hlength := congrArg List.length heq
    simp only [List.length_append, List.length_nil, List.length_singleton] at hlength
    omega
  · intro hne
    have hlt := h.size_lt
    rw [Keyboard.contents_store (by omega), List.append_assoc]

/-- **The step lemma.** -/
theorem Inv.step (h : s.Inv) (hok : s.Ok a) : (s.step krealloc a).Inv := by
  cases a with
  | add c =>
    refine ⟨?_, ?_, h.fifo_add_iff.mpr hok⟩
    · exact (congrArg Keyboard.allocated h.addchar_eq).trans h.allocated_eq
    · show (keyboardAddchar krealloc c s.keyboard).keypressBufferSize < 256
      rw [h.addchar_eq]
      exact Nat.mod_lt _ (by decide)
  | pop =>
    by_cases hnone : s.keyboard.keypressBufferSize = 0
    · have hsame : s.step krealloc .pop = s := by
        simp only [KeyboardRun.step, keyboardPopchar, if_pos hnone]
      rwa [hsame]
    · have hstep : s.step krealloc .pop = { s with
          keyboard := s.keyboard.dropFirst
          popped := s.popped ++ [s.keyboard.keypressBuffer 0] } := by
        simp only [KeyboardRun.step, h.popchar_eq hnone, if_neg hnone]
      rw [hstep]
      refine ⟨h.allocated_eq, (Nat.sub_le _ _).trans_lt h.size_lt, ?_⟩
      rw [Fifo, ← h.fifo, Keyboard.contents_eq_cons hnone, List.append_assoc]
      rfl

/-- **The run lemma.** -/
theorem inv_of_reach (h : Run krealloc Ok s) : s.Inv := by
  refine Reach.invariant (P := Inv) ?_ ?_ h
  · rintro t ⟨mem, rfl⟩
    exact ⟨rfl, Nat.succ_pos 255, rfl⟩
  · rintro t a t' ht hok rfl
    exact ht.step hok

/-- The key `a`, up to 255 times. -/
theorem exists_run_keys (krealloc : (ℕ → UInt8) → ℕ → ℕ → UInt8) {n : ℕ} (hn : n ≤ 255) :
    ∃ s, Run krealloc Ok s ∧ s.keyboard.keypressBufferSize = n := by
  induction n with
  | zero => exact ⟨⟨Keyboard.install fun _ => 0, [], []⟩, .init ⟨_, rfl⟩, rfl⟩
  | succ n ih =>
    obtain ⟨s, hs, hsize⟩ := ih (by omega)
    have hok : s.Ok (.add 97) := by
      show s.keyboard.keypressBufferSize ≠ 255
      omega
    refine ⟨_, hs.step hok rfl, ?_⟩
    show (keyboardAddchar krealloc 97 s.keyboard).keypressBufferSize = n + 1
    rw [(inv_of_reach hs).addchar_eq, Keyboard.store, hsize]
    exact Nat.mod_eq_of_lt (by omega)

/-- **The keyboard's buffer is a queue as long as no character is added to 255 buffered
ones**, and the first that is empties it. No step leaves the block. -/
theorem keyboard_fifo (h : Run krealloc Ok s) :
    s.Fifo ∧ (∀ a, s.Inside krealloc a) ∧
      ∀ c, (s.step krealloc (.add c)).Fifo ↔ s.Ok (.add c) :=
  ⟨(inv_of_reach h).fifo, fun _ => (inv_of_reach h).inside, fun _ => (inv_of_reach h).fifo_add_iff⟩

/-- The key `a`, 255 times. -/
theorem keyboard_fifo_keys : ∃ s : KeyboardRun, s.keyboard.keypressBufferSize = 255 ∧ s.Fifo := by
  obtain ⟨s, hs, hsize⟩ := exists_run_keys (fun buffer _ => buffer) le_rfl
  exact ⟨s, hsize, (keyboard_fifo hs).1⟩

/-- The key `a`, 256 times: nothing has been popped, and nothing is buffered. -/
theorem exists_reach_not_fifo : ∃ s, Run (fun buffer _ => buffer) anyStep s ∧ ¬s.Fifo := by
  obtain ⟨s, hs, hsize⟩ := exists_run_keys (fun buffer _ => buffer) le_rfl
  refine ⟨_, (hs.mono fun _ _ _ => trivial).step (a := Act.add 97) trivial rfl, ?_⟩
  rw [(inv_of_reach hs).fifo_add_iff]
  exact not_not.mpr hsize

end KeyboardRun

end Xana
