import Mathlib.Data.List.Basic
import Mathlib.Order.Nat

/-!
# The first gap of an increasing list

Counting up along a list of numbers until it disagrees finds, on a *strictly
increasing* list, the least number that is missing from it
(`Xana.firstGap_notMem`, `Xana.mem_of_lt_firstGap`). Increasing is all that is
needed; what the scan cannot do without is the order itself.

A list is *gapless* from `n` when it is `n, n + 1, …`; the scan then runs to the
end (`Xana.firstGap_of_gapless`), and otherwise it stops in front of a greater
element (`Xana.exists_firstGap_lt`).
-/

namespace Xana

/-- Count up from `n` along the list while it agrees. -/
def firstGap : ℕ → List ℕ → ℕ
  | n, [] => n
  | n, a :: l => if a = n then firstGap (n + 1) l else n

variable {n a : ℕ} {l : List ℕ}

@[simp] theorem firstGap_nil : firstGap n [] = n := rfl

@[simp] theorem firstGap_cons :
    firstGap n (a :: l) = if a = n then firstGap (n + 1) l else n := rfl

theorem le_firstGap : ∀ (n : ℕ) (l : List ℕ), n ≤ firstGap n l
  | n, [] => le_rfl
  | n, a :: l => by
    rw [firstGap_cons]
    split_ifs with h
    · exact (Nat.le_succ n).trans (le_firstGap (n + 1) l)
    · exact le_rfl

/-- The bounds an increasing list hands on to its tail when its head is the
number counted. -/
theorem tail_bounds (hs : (n :: l).Pairwise (· < ·)) :
    l.Pairwise (· < ·) ∧ ∀ b ∈ l, n + 1 ≤ b :=
  ⟨(List.pairwise_cons.mp hs).2, (List.pairwise_cons.mp hs).1⟩

/-- **The number found is missing.** -/
theorem firstGap_notMem : ∀ {n : ℕ} {l : List ℕ}, l.Pairwise (· < ·) → (∀ b ∈ l, n ≤ b) →
    firstGap n l ∉ l
  | n, [], _, _ => by simp
  | n, a :: l, hs, hn => by
    rw [firstGap_cons]
    split_ifs with h
    · subst h
      obtain ⟨hs', hn'⟩ := tail_bounds hs
      have hle := le_firstGap (a + 1) l
      rw [List.mem_cons, not_or]
      exact ⟨by omega, firstGap_notMem hs' hn'⟩
    · have ha : n ≤ a := hn a (by simp)
      rw [List.mem_cons, not_or]
      refine ⟨fun hc => h hc.symm, fun hc => ?_⟩
      have hlt : a < n := (List.pairwise_cons.mp hs).1 n hc
      omega

/-- **Every smaller number is there.** -/
theorem mem_of_lt_firstGap : ∀ {n : ℕ} {l : List ℕ} {b : ℕ}, n ≤ b → b < firstGap n l → b ∈ l
  | n, [], b, hnb, hb => absurd hb (by simpa using hnb)
  | n, a :: l, b, hnb, hb => by
    rw [firstGap_cons] at hb
    split_ifs at hb with h
    · rcases hnb.eq_or_lt with rfl | hlt
      · exact h ▸ List.mem_cons_self
      · exact List.mem_cons_of_mem a (mem_of_lt_firstGap hlt hb)
    · omega

/-- The list counts up from `n` without a gap. -/
def Gapless (n : ℕ) (l : List ℕ) : Prop := l = List.range' n l.length

instance (n : ℕ) (l : List ℕ) : Decidable (Gapless n l) :=
  inferInstanceAs (Decidable (l = List.range' n l.length))

theorem gapless_cons : Gapless n (a :: l) ↔ a = n ∧ Gapless (n + 1) l := by
  simp [Gapless, List.range'_succ]

/-- On a gapless list the scan runs to the end. -/
theorem firstGap_of_gapless : ∀ {n : ℕ} {l : List ℕ}, Gapless n l → firstGap n l = n + l.length
  | n, [], _ => rfl
  | n, a :: l, h => by
    obtain ⟨rfl, hl⟩ := gapless_cons.mp h
    rw [firstGap_cons, if_pos rfl, firstGap_of_gapless hl, List.length_cons]
    omega

theorem Gapless.lt_firstGap (h : Gapless n l) : ∀ b ∈ l, b < firstGap n l := by
  intro b hb
  rw [firstGap_of_gapless h]
  rw [h] at hb
  exact (List.mem_range'_1.mp hb).2

/-- **In front of a gap stands a greater element.** -/
theorem exists_firstGap_lt : ∀ {n : ℕ} {l : List ℕ}, l.Pairwise (· < ·) → (∀ b ∈ l, n ≤ b) →
    ¬Gapless n l → ∃ b ∈ l, firstGap n l < b
  | n, [], _, _, hg => absurd rfl hg
  | n, a :: l, hs, hn, hg => by
    rw [firstGap_cons]
    split_ifs with h
    · subst h
      obtain ⟨hs', hn'⟩ := tail_bounds hs
      obtain ⟨b, hb, hlt⟩ := exists_firstGap_lt hs' hn' fun hl => hg (gapless_cons.mpr ⟨rfl, hl⟩)
      exact ⟨b, List.mem_cons_of_mem a hb, hlt⟩
    · exact ⟨a, by simp, lt_of_le_of_ne (hn a (by simp)) (Ne.symm h)⟩

/-! ### Any list -/

/-- The number at which the list stops counting `n, n + 1, …` does not come later in it. -/
def StopsOutside (n : ℕ) (l : List ℕ) : Prop :=
  ∀ k, (∀ i < k, l[i]? = some (n + i)) → l[k]? ≠ some (n + k) → n + k ∉ l

/-- **Where the scan stops.** -/
theorem firstGap_eq_iff : ∀ {n : ℕ} {l : List ℕ} {k : ℕ},
    firstGap n l = n + k ↔ (∀ i < k, l[i]? = some (n + i)) ∧ l[k]? ≠ some (n + k)
  | n, [], k => by
    rw [firstGap_nil]
    constructor
    · intro h
      obtain rfl : k = 0 := by omega
      simp
    · rintro ⟨h, -⟩
      by_contra hk
      exact absurd (h 0 (by omega)) (by simp)
  | n, a :: l, k => by
    rw [firstGap_cons]
    split_ifs with ha
    · subst ha
      have hle := le_firstGap (a + 1) l
      cases k with
      | zero =>
        refine iff_of_false (by omega) ?_
        rintro ⟨-, h⟩
        simp at h
      | succ k =>
        have hk : a + (k + 1) = a + 1 + k := by omega
        rw [hk, firstGap_eq_iff, List.getElem?_cons_succ]
        refine and_congr_left fun _ => ⟨fun h i hi => ?_, fun h i hi => ?_⟩
        · cases i with
          | zero => simp
          | succ i =>
            have hi' : a + (i + 1) = a + 1 + i := by omega
            rw [hi', List.getElem?_cons_succ]
            exact h i (by omega)
        · have hi' : a + (i + 1) = a + 1 + i := by omega
          rw [← hi', ← List.getElem?_cons_succ (a := a)]
          exact h (i + 1) (by omega)
    · cases k with
      | zero => simp [ha]
      | succ k =>
        refine iff_of_false (by omega) ?_
        rintro ⟨h, -⟩
        exact ha (by simpa using h 0 (by omega))

/-- The scan finds a missing number exactly if it stops outside the list. -/
theorem firstGap_notMem_iff : firstGap n l ∉ l ↔ StopsOutside n l := by
  constructor
  · intro h k hlt hk
    rwa [← firstGap_eq_iff.mpr ⟨hlt, hk⟩]
  · intro h
    obtain ⟨k, hk⟩ : ∃ k, firstGap n l = n + k := Nat.exists_eq_add_of_le (le_firstGap n l)
    obtain ⟨hlt, hne⟩ := firstGap_eq_iff.mp hk
    rw [hk]
    exact h k hlt hne

end Xana
