import Mathlib.Data.BitVec
import Xana.Lib.Memory

/-!
# Words on a stack

A stack grows down, a word at a time (`Mem.push`). What has been pushed lies above the stack
pointer in the opposite order (`Mem.words_pushes`), and nothing else has changed
(`Mem.pushes_of_notMem`). Registers that are popped hold what lay there (`Mem.pops_eq`): with
the same registers in the opposite order, what they held before.
-/

namespace Xana

namespace Mem

/-- The word at an address. -/
def word (m : Mem) (a : ℕ) : BitVec 64 := BitVec.ofNat 64 (m.load a 8)

/-- The `n` words from an address on. -/
def words (m : Mem) (a : ℕ) : ℕ → List (BitVec 64)
  | 0 => []
  | n + 1 => m.word a :: m.words (a + 8) n

/-- A push, on the stack pointer and the memory. -/
def push (s : ℕ × Mem) (v : BitVec 64) : ℕ × Mem := (s.1 - 8, s.2.store (s.1 - 8) 8 v.toNat)

/-- Pops, on the registers and the stack pointer. -/
def pops {ρ : Type*} [DecidableEq ρ] (m : Mem) : List ρ → (ρ → BitVec 64) → ℕ → (ρ → BitVec 64) × ℕ
  | [], g, sp => (g, sp)
  | r :: rs, g, sp => m.pops rs (Function.update g r (m.word sp)) (sp + 8)

variable {m m' : Mem} {a b n : ℕ} {s : ℕ × Mem} {v : BitVec 64} {l : List (BitVec 64)}

theorem word_congr (h : ∀ i < 8, m' (b + i) = m (a + i)) : m'.word b = m.word a := by
  rw [word, load, read_eq_read h, word, load]

/-- Words whose bytes are the same. -/
theorem words_congr (h : ∀ i < 8 * n, m' (b + i) = m (a + i)) : m'.words b n = m.words a n := by
  induction n generalizing a b with
  | zero => rfl
  | succ n ih =>
    rw [words, words, word_congr fun i hi => h i (by omega), ih fun i hi => ?_]
    rw [Nat.add_assoc, Nat.add_assoc]
    exact h (8 + i) (by omega)

theorem length_words (m : Mem) (a n : ℕ) : (m.words a n).length = n := by
  induction n generalizing a with
  | zero => rfl
  | succ n ih => rw [words, List.length_cons, ih]

theorem words_add (m : Mem) (a n k : ℕ) :
    m.words a (n + k) = m.words a n ++ m.words (a + 8 * n) k := by
  induction n generalizing a with
  | zero => simp [words]
  | succ n ih =>
    rw [Nat.add_right_comm, words, words, ih, List.cons_append, Nat.mul_succ, Nat.add_comm (8 * n),
      ← Nat.add_assoc]

theorem word_store_self (m : Mem) (a : ℕ) (v : BitVec 64) : (m.store a 8 v.toNat).word a = v := by
  rw [word, load_store_self (by have := v.isLt; omega), BitVec.ofNat_toNat, BitVec.setWidth_eq]

/-- A copy. -/
theorem write_read_apply {i : ℕ} (hi : i < n) : (m'.write a (m.read b n)) (a + i) = m (b + i) := by
  rw [write_add (by rwa [length_read])]
  exact Option.some.inj ((List.getElem?_eq_getElem _).symm.trans (getElem?_read hi))

/-- What is written is what is there. -/
theorem write_read (h : ∀ i < n, m' (a + i) = m (a + i)) : m'.write a (m.read a n) = m' := by
  funext b
  by_cases hb : b < a ∨ a + n ≤ b
  · exact write_of_notMem (by rwa [length_read])
  · obtain ⟨i, rfl⟩ := Nat.exists_eq_add_of_le (show a ≤ b by omega)
    rw [write_read_apply (by omega), h i (by omega)]

/-! ### Pushes -/

theorem pushes_fst (l : List (BitVec 64)) (s : ℕ × Mem) :
    (l.foldl push s).1 = s.1 - 8 * l.length := by
  induction l generalizing s with
  | nil => rfl
  | cons v l ih =>
    rw [List.foldl_cons, ih, push, List.length_cons]
    omega

/-- Only the words that have been pushed are written. -/
theorem pushes_of_notMem (h : 8 * l.length ≤ s.1) (hb : b < s.1 - 8 * l.length ∨ s.1 ≤ b) :
    (l.foldl push s).2 b = s.2 b := by
  induction l generalizing s with
  | nil => rfl
  | cons v l ih =>
    rw [List.length_cons] at h hb
    rw [List.foldl_cons, ih (by simp only [push]; omega) (by simp only [push]; omega), push]
    exact store_of_notMem (by omega)

/-- **What has been pushed** lies there in the opposite order. -/
theorem words_pushes (h : 8 * l.length ≤ s.1) :
    (l.foldl push s).2.words (s.1 - 8 * l.length) l.length = l.reverse := by
  induction l generalizing s with
  | nil => rfl
  | cons v l ih =>
    rw [List.length_cons] at h ⊢
    have hsp : s.1 - 8 * (l.length + 1) = (push s v).1 - 8 * l.length := by
      simp only [push]
      omega
    have hlast : (push s v).1 - 8 * l.length + 8 * l.length = s.1 - 8 := by
      simp only [push]
      omega
    rw [List.foldl_cons, hsp, words_add, ih (by simp only [push]; omega), List.reverse_cons, hlast,
      words, words, word_congr (m := (push s v).2) fun i hi => ?_, push, word_store_self]
    exact pushes_of_notMem (by simp only [push]; omega) (by simp only [push]; omega)

/-! ### Pops -/

/-- **What has been popped** is what lay there. -/
theorem pops_eq {ρ : Type*} [DecidableEq ρ] {rs : List ρ} {g g' : ρ → BitVec 64} {sp : ℕ}
    (h : m.words sp rs.length = rs.map g') :
    m.pops rs g sp = (fun r => if r ∈ rs then g' r else g r, sp + 8 * rs.length) := by
  induction rs generalizing g sp with
  | nil => simp [pops]
  | cons r rs ih =>
    rw [List.length_cons, words, List.map_cons] at h
    obtain ⟨hr, hrs⟩ := List.cons.inj h
    rw [pops, ih hrs, hr, List.length_cons]
    refine Prod.ext (funext fun q => ?_) (by dsimp only; omega)
    dsimp only
    rw [Function.update_apply]
    by_cases hq : q ∈ rs
    · rw [if_pos hq, if_pos (List.mem_cons_of_mem r hq)]
    · by_cases hqr : q = r
      · rw [if_neg hq, if_pos hqr, if_pos (List.mem_cons.mpr (Or.inl hqr)), hqr]
      · rw [if_neg hq, if_neg hqr, if_neg (List.not_mem_cons_of_ne_of_not_mem hqr hq)]

end Mem

end Xana
