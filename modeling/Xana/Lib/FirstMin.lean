import Mathlib.Order.Lattice
import Mathlib.Data.List.Basic

/-!
# The first of the least

A loop that goes through a list and keeps the index of the best value so far, exchanging it
for a better one only, ends with the first index of the least value (`Xana.isFirstMin_scanMin`),
if every value is better than what it began with.
-/

namespace Xana

variable {α : Type*} [LinearOrder α]

/-- **The first index of the least value** of a list. -/
structure IsFirstMin (l : List α) (i : ℕ) (least : α) : Prop where
  get : l[i]? = some least
  le : ∀ (j : ℕ) (v : α), l[j]? = some v → least ≤ v
  first : ∀ (j : ℕ) (v : α), j < i → l[j]? = some v → least < v

/-- The loop, from the `i`-th value on: the best value so far is `best`, at `closest`. -/
def scanMin : List α → ℕ → α → ℕ → ℕ
  | [], _, _, closest => closest
  | v :: l, i, best, closest =>
      if v < best then scanMin l (i + 1) v i else scanMin l (i + 1) best closest

variable {l seen : List α} {v best : α} {i closest : ℕ}

theorem IsFirstMin.lt_length (h : IsFirstMin l i best) : i < l.length := by
  by_contra hle
  have hget := h.get
  rw [List.getElem?_eq_none (Nat.le_of_not_lt hle)] at hget
  exact absurd hget (by simp)

/-- One more value that is not better. -/
theorem IsFirstMin.append_of_le (h : IsFirstMin l i best) (hle : best ≤ v) :
    IsFirstMin (l ++ [v]) i best where
  get := by
    rw [List.getElem?_append_left h.lt_length]
    exact h.get
  le := by
    intro j w hw
    rcases List.mem_append.mp (List.mem_of_getElem? hw) with hmem | hmem
    · obtain ⟨k, hk⟩ := List.getElem?_of_mem hmem
      exact h.le k w hk
    · exact List.mem_singleton.mp hmem ▸ hle
  first := by
    intro j w hj hw
    have hlt := h.lt_length
    rw [List.getElem?_append_left (by omega)] at hw
    exact h.first j w hj hw

/-- One more value that is better than all. -/
theorem isFirstMin_append_of_lt (h : ∀ w ∈ l, v < w) : IsFirstMin (l ++ [v]) l.length v where
  get := by simp
  le := by
    intro j w hw
    rcases List.mem_append.mp (List.mem_of_getElem? hw) with hmem | hmem
    · exact (h w hmem).le
    · exact (List.mem_singleton.mp hmem).ge
  first := by
    intro j w hj hw
    rw [List.getElem?_append_left hj] at hw
    exact h w (List.mem_of_getElem? hw)

/-- **The loop**, when it has seen some values and there are more to come. -/
theorem scanMin_of_isFirstMin (h : IsFirstMin seen closest best) (hi : i = seen.length) :
    ∃ least, IsFirstMin (seen ++ l) (scanMin l i best closest) least := by
  induction l generalizing seen i best closest with
  | nil =>
    rw [List.append_nil]
    exact ⟨best, h⟩
  | cons v l ih =>
    have hsplit : seen ++ v :: l = seen ++ [v] ++ l := by simp
    rw [scanMin, hsplit]
    split_ifs with hlt
    · -- a value that is better than the best so far is better than all
      have hnew : IsFirstMin (seen ++ [v]) i v := by
        rw [hi]
        refine isFirstMin_append_of_lt fun w hw => ?_
        obtain ⟨j, hj⟩ := List.getElem?_of_mem hw
        exact hlt.trans_le (h.le j w hj)
      exact ih hnew (by simp [hi])
    · exact ih (h.append_of_le (not_lt.mp hlt)) (by simp [hi])

/-- **The loop ends with the first index of the least value.** -/
theorem isFirstMin_scanMin (hne : l ≠ []) (hbest : ∀ w ∈ l, w < best) :
    ∃ least, IsFirstMin l (scanMin l 0 best 0) least := by
  obtain ⟨v, l, rfl⟩ := List.exists_cons_of_ne_nil hne
  rw [scanMin, if_pos (hbest v List.mem_cons_self)]
  have hone : IsFirstMin [v] 0 v := isFirstMin_append_of_lt (l := []) (by simp)
  exact scanMin_of_isFirstMin hone rfl

end Xana
