import Mathlib.Data.Nat.ModEq
import Mathlib.Logic.Function.Basic

/-!
# Ring buffers

A ring buffer of capacity `cap` is a buffer with two cursors that wrap around
and a count of the elements between them. It stands for the queue of its
contents, `Xana.Ring.contents`, read from the read cursor onwards: putting an
element appends it (`Xana.Ring.contents_put`), getting one takes it from the
front (`Xana.Ring.contents_get`), and the two transfer loops, which stop as soon
as the ring is full or empty, are `take` and `drop` on that queue
(`Xana.Ring.getUpTo_spec`, `Xana.Ring.putUpTo_spec`).

The three numbers are redundant, and `Xana.Ring.Valid` is the redundancy: any two
of them determine the third.
-/

namespace Xana

/-- A buffer with a read cursor, a write cursor and a count. -/
structure Ring (α : Type*) where
  buffer : ℕ → α
  readPos : ℕ
  writePos : ℕ
  size : ℕ

namespace Ring

variable {α : Type*} {cap : ℕ} {r : Ring α} {a : α}

/-- The next position on a ring. -/
def next (cap pos : ℕ) : ℕ := if pos + 1 = cap then 0 else pos + 1

/-- Store an element at the write cursor. -/
def put (cap : ℕ) (r : Ring α) (a : α) : Ring α where
  buffer := Function.update r.buffer r.writePos a
  readPos := r.readPos
  writePos := next cap r.writePos
  size := r.size + 1

/-- Drop the element at the read cursor. -/
def get (cap : ℕ) (r : Ring α) : Ring α where
  buffer := r.buffer
  readPos := next cap r.readPos
  writePos := r.writePos
  size := r.size - 1

/-- The elements between the cursors, oldest first. -/
def contents (cap : ℕ) (r : Ring α) : List α :=
  (List.range r.size).map fun i => r.buffer ((r.readPos + i) % cap)

/-- **The ring invariant.** -/
structure Valid (cap : ℕ) (r : Ring α) : Prop where
  /-- No more elements than there is room for. -/
  size_le : r.size ≤ cap
  /-- The read cursor is in range. -/
  readPos_lt : r.readPos < cap
  /-- The write cursor is as far ahead of the read cursor as there are elements. -/
  writePos_eq : r.writePos = (r.readPos + r.size) % cap

@[simp] theorem length_contents : (r.contents cap).length = r.size := by simp [contents]

theorem Valid.writePos_lt (h : r.Valid cap) : r.writePos < cap := by
  rw [h.writePos_eq]
  exact Nat.mod_lt _ (Nat.zero_lt_of_lt h.readPos_lt)

/-- Moving on by one position is moving on modulo the capacity. -/
theorem next_eq {pos : ℕ} (h : pos < cap) : next cap pos = (pos + 1) % cap := by
  rw [next]
  split_ifs with hc
  · rw [hc, Nat.mod_self]
  · exact (Nat.mod_eq_of_lt (by omega)).symm

/-- Two distances below the capacity lead to different positions. -/
theorem add_mod_ne {pos i j : ℕ} (hij : i < j) (hj : j < cap) :
    (pos + i) % cap ≠ (pos + j) % cap := by
  intro hc
  have hmod : i ≡ j [MOD cap] := Nat.ModEq.add_left_cancel' pos hc
  exact hij.ne (hmod.eq_of_lt_of_lt (hij.trans hj) hj)

/-! ### One element -/

theorem Valid.put (h : r.Valid cap) (hlt : r.size < cap) : (r.put cap a).Valid cap where
  size_le := hlt
  readPos_lt := h.readPos_lt
  writePos_eq := by
    change next cap r.writePos = (r.readPos + (r.size + 1)) % cap
    rw [next_eq h.writePos_lt, h.writePos_eq, Nat.mod_add_mod, Nat.add_assoc]

/-- **Putting appends.** -/
theorem contents_put (h : r.Valid cap) (hlt : r.size < cap) :
    (r.put cap a).contents cap = r.contents cap ++ [a] := by
  have hold : ∀ i ∈ List.range r.size,
      Function.update r.buffer r.writePos a ((r.readPos + i) % cap) =
        r.buffer ((r.readPos + i) % cap) := fun i hi => by
    rw [Function.update_of_ne]
    rw [h.writePos_eq]
    exact add_mod_ne (List.mem_range.mp hi) hlt
  simp only [contents, put, List.range_succ, List.map_append, List.map_cons, List.map_nil]
  rw [List.map_congr_left hold, ← h.writePos_eq, Function.update_self]

theorem Valid.get (h : r.Valid cap) (hpos : 0 < r.size) : (r.get cap).Valid cap where
  size_le := (Nat.sub_le _ _).trans h.size_le
  readPos_lt := by
    change next cap r.readPos < cap
    rw [next_eq h.readPos_lt]
    exact Nat.mod_lt _ (Nat.zero_lt_of_lt h.readPos_lt)
  writePos_eq := by
    change r.writePos = (next cap r.readPos + (r.size - 1)) % cap
    rw [next_eq h.readPos_lt, Nat.mod_add_mod, h.writePos_eq]
    congr 1
    omega

/-- **Getting takes from the front.** -/
theorem contents_get (h : r.Valid cap) (hpos : 0 < r.size) :
    r.contents cap = r.buffer r.readPos :: (r.get cap).contents cap := by
  obtain ⟨k, hk⟩ : ∃ k, r.size = k + 1 := ⟨r.size - 1, by omega⟩
  have hstep : ∀ i, (next cap r.readPos + i) % cap = (r.readPos + (i + 1)) % cap := fun i => by
    rw [next_eq h.readPos_lt, Nat.mod_add_mod, Nat.add_right_comm, Nat.add_assoc]
  simp only [contents, get, hk, Nat.add_sub_cancel, List.range_succ_eq_map, List.map_cons,
    List.map_map, Nat.add_zero, Nat.mod_eq_of_lt h.readPos_lt]
  refine congrArg _ (List.map_congr_left fun i _ => ?_)
  rw [hstep]
  rfl

/-! ### The transfer loops -/

/-- Get up to `n` elements: stop when the ring is empty. -/
def getUpTo (cap : ℕ) : ℕ → Ring α → List α × Ring α
  | 0, r => ([], r)
  | n + 1, r =>
      if r.size = 0 then ([], r)
      else
        let t := getUpTo cap n (r.get cap)
        (r.buffer r.readPos :: t.1, t.2)

/-- Put up to `n` elements of `data`, starting at its `i`-th: stop when the ring
is full. The number returned is the index of the first element not put. -/
def putUpTo (cap : ℕ) (data : ℕ → α) : ℕ → ℕ → Ring α → ℕ × Ring α
  | 0, i, r => (i, r)
  | n + 1, i, r =>
      if r.size = cap then (i, r) else putUpTo cap data n (i + 1) (r.put cap (data i))

/-- **The getting loop is `take` and `drop`.** -/
theorem getUpTo_spec : ∀ (n : ℕ) {r : Ring α}, r.Valid cap →
    (getUpTo cap n r).1 = (r.contents cap).take n ∧ (getUpTo cap n r).2.Valid cap ∧
      (getUpTo cap n r).2.contents cap = (r.contents cap).drop n
  | 0, r, h => ⟨rfl, h, rfl⟩
  | n + 1, r, h => by
    rw [getUpTo]
    split_ifs with hz
    · have hnil : r.contents cap = [] := List.eq_nil_of_length_eq_zero (by rw [length_contents, hz])
      simp [h, hnil]
    · have hpos : 0 < r.size := Nat.pos_of_ne_zero hz
      obtain ⟨h1, h2, h3⟩ := getUpTo_spec n (h.get hpos)
      rw [contents_get h hpos]
      exact ⟨congrArg _ h1, h2, h3⟩

/-- **The putting loop appends what there is room for.** -/
theorem putUpTo_spec (data : ℕ → α) : ∀ (n i : ℕ) {r : Ring α}, r.Valid cap →
    (putUpTo cap data n i r).1 = i + min n (cap - r.size) ∧ (putUpTo cap data n i r).2.Valid cap ∧
      (putUpTo cap data n i r).2.contents cap =
        r.contents cap ++ (List.range' i (min n (cap - r.size))).map data
  | 0, i, r, h => by simp [putUpTo, h]
  | n + 1, i, r, h => by
    rw [putUpTo]
    split_ifs with hf
    · simp [h, hf]
    · have hlt : r.size < cap := lt_of_le_of_ne h.size_le hf
      obtain ⟨h1, h2, h3⟩ := putUpTo_spec data n (i + 1) (h.put hlt (a := data i))
      have hroom : min (n + 1) (cap - r.size) = min n (cap - (r.put cap (data i)).size) + 1 := by
        simp only [put]
        omega
      rw [h1, h3, contents_put h hlt, hroom, List.range'_succ]
      exact ⟨by omega, h2, by simp⟩

end Ring

end Xana
