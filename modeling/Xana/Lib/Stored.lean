import Mathlib.Data.List.Basic
import Mathlib.Logic.Function.Basic

/-!
# The first elements of a buffer

A growing array is a buffer with a count of the elements stored in it, from
position 0 on. It stands for the list `Xana.stored` of these: storing behind them
appends (`Xana.stored_push`), counting one less drops the last
(`Xana.stored_sub_one`), and moving all that is behind a position to the front drops
what was before it (`Xana.stored_of_shift`).
-/

namespace Xana

variable {α : Type*} {buffer buffer' : ℕ → α} {a : α} {i n : ℕ}

/-- The first `n` elements of a buffer. -/
def stored (buffer : ℕ → α) (n : ℕ) : List α := (List.range n).map buffer

@[simp] theorem length_stored : (stored buffer n).length = n := by simp [stored]

@[simp] theorem stored_zero : stored buffer 0 = [] := rfl

theorem mem_stored_iff : a ∈ stored buffer n ↔ ∃ i < n, buffer i = a := by simp [stored]

theorem getElem_stored (h : i < (stored buffer n).length) : (stored buffer n)[i] = buffer i := by
  simp [stored]

theorem stored_congr (h : ∀ i < n, buffer i = buffer' i) : stored buffer n = stored buffer' n :=
  List.map_congr_left fun i hi => h i (List.mem_range.mp hi)

/-- The front of a buffer. -/
theorem take_stored (k : ℕ) : (stored buffer n).take k = stored buffer (min k n) := by
  rw [stored, ← List.map_take, List.take_range, stored]

theorem stored_succ : stored buffer (n + 1) = stored buffer n ++ [buffer n] := by
  simp [stored, List.range_succ]

/-- From the front. -/
theorem stored_succ_eq_cons :
    stored buffer (n + 1) = buffer 0 :: stored (fun i => buffer (i + 1)) n := by
  simp [stored, List.range_succ_eq_map, Function.comp_def]

/-- **Storing behind the last element appends.** -/
theorem stored_push : stored (Function.update buffer n a) (n + 1) = stored buffer n ++ [a] := by
  have hold : stored (Function.update buffer n a) n = stored buffer n :=
    stored_congr fun i hi => Function.update_of_ne (Nat.ne_of_lt hi) a buffer
  rw [stored_succ, hold, Function.update_self]

/-- **One element less.** -/
theorem stored_sub_one : stored buffer (n - 1) = (stored buffer n).dropLast := by
  cases n with
  | zero => rfl
  | succ n => rw [stored_succ, List.dropLast_concat, Nat.add_sub_cancel]

/-- **What is behind a position, moved to the front.** -/
theorem stored_of_shift (h : ∀ k < n - i, buffer' k = buffer (i + k)) :
    stored buffer' (n - i) = (stored buffer n).drop i := by
  refine List.ext_getElem (by simp) fun k hk hk' => ?_
  rw [List.getElem_drop, getElem_stored, getElem_stored]
  exact h k (by simpa using hk)

end Xana
