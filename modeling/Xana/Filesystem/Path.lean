import Xana.String.Basic

/-!
# Paths

`get_path_depth` and `get_path_part` of `filesystem.c`. Both run over a path
character by character, and the model follows the rest of the path; the index `i`
is kept where the code uses it for something else.

A path names a list of components (`Xana.components`). For an absolute path,
`get_path_depth` is their number, and `get_path_part` leaves the one asked for in
its buffer (`Xana.getPathDepth_eq`, `Xana.holds_getPathPart`) – whatever it has
written there before: while it looks for a component, it copies the one before to
the index that it has in the path.
-/

namespace Xana

/-- `'/'`. -/
def slash : UInt8 := 47

/-- `get_path_depth`. -/
def getPathDepth : List UInt8 → ℕ
  | [] => 0
  | c :: path =>
      (if c = slash ∧ path.head? ≠ none ∧ path.head? ≠ some slash then 1 else 0) +
        getPathDepth path

/-- The copying loop of `get_path_part`, with the `NUL` it puts behind. -/
def copyPart (part : ℕ → UInt8) (l : List UInt8) : ℕ → UInt8 :=
  fun j => if j < l.length then l.getD j 0 else if j = l.length then 0 else part j

/-- The outer loop of `get_path_part`: at a slash that another one follows, the
`while` loop goes on to that one. -/
def partLoop (partNum : ℕ) : List UInt8 → ℕ → ℕ → (ℕ → UInt8) → (ℕ → UInt8)
  | [], _, _, part => part
  | c :: path, i, currentPart, part =>
      if c = slash then
        if path.head? = some slash then partLoop partNum path (i + 1) currentPart part
        else if currentPart = partNum then copyPart part (path.takeWhile (· ≠ slash))
        else partLoop partNum path (i + 1) (currentPart + 1) part
      else
        partLoop partNum path (i + 1) currentPart
          (if currentPart = partNum then Function.update part i c else part)

/-- `get_path_part`: what is in `part` at the end. -/
def getPathPart (path : List UInt8) (part : ℕ → UInt8) (partNum : ℕ) : ℕ → UInt8 :=
  partLoop partNum path 0 0 part

/-! ### Components -/

/-- The components behind the next slash of a path: what stands between slashes
and is not empty. -/
def componentsFrom : List UInt8 → List (List UInt8)
  | [] => []
  | c :: path =>
      if c = slash ∧ path.head? ≠ none ∧ path.head? ≠ some slash then
        path.takeWhile (· ≠ slash) :: componentsFrom path
      else componentsFrom path

/-- **The components of a path.** -/
def components : List UInt8 → List (List UInt8)
  | [] => []
  | c :: path =>
      if c = slash then componentsFrom (c :: path)
      else (c :: path).takeWhile (· ≠ slash) :: componentsFrom path

/-- The absolute path with the given components. -/
def absPath (comps : List (List UInt8)) : List UInt8 := comps.flatMap (slash :: ·)

/-- A name that can be a component. -/
def IsName (n : List UInt8) : Prop := n ≠ [] ∧ slash ∉ n

instance : DecidablePred IsName := fun n => inferInstanceAs (Decidable (n ≠ [] ∧ slash ∉ n))

section Components

variable {path rest n : List UInt8} {comps : List (List UInt8)}

theorem getPathDepth_eq_length (path : List UInt8) :
    getPathDepth path = (componentsFrom path).length := by
  induction path with
  | nil => rfl
  | cons c path ih =>
    rw [getPathDepth, componentsFrom, ih]
    split_ifs
    · rw [List.length_cons, add_comm]
    · rw [Nat.zero_add]

/-- `get_path_depth` is the number of components. -/
theorem getPathDepth_eq (h : path.head? = some slash) :
    getPathDepth path = (components path).length := by
  cases path with
  | nil => simp at h
  | cons c path =>
    obtain rfl : c = slash := by simpa using h
    rw [components, if_pos rfl, getPathDepth_eq_length]

/-- Inside a component there is none. -/
theorem componentsFrom_append (h : slash ∉ n) :
    componentsFrom (n ++ rest) = componentsFrom rest := by
  induction n with
  | nil => rfl
  | cons c n ih =>
    rw [List.mem_cons, not_or] at h
    rw [List.cons_append, componentsFrom, if_neg fun hc => h.1 hc.1.symm, ih h.2]

theorem takeWhile_append_of_name (h : slash ∉ n) (hrest : rest = [] ∨ rest.head? = some slash) :
    (n ++ rest).takeWhile (· ≠ slash) = n := by
  have hn : ∀ c ∈ n, decide (c ≠ slash) = true := fun c hc =>
    decide_eq_true (ne_of_mem_of_not_mem hc h)
  rw [List.takeWhile_append_of_pos hn]
  cases rest with
  | nil => simp
  | cons c rest =>
    obtain rfl : c = slash := by simpa using hrest
    simp

/-- A component, and the slash in front of it. -/
theorem componentsFrom_slash_append (h : IsName n)
    (hrest : rest = [] ∨ rest.head? = some slash) :
    componentsFrom (slash :: (n ++ rest)) = n :: componentsFrom rest := by
  obtain ⟨hne, hslash⟩ := h
  rw [componentsFrom, if_pos, takeWhile_append_of_name hslash hrest, componentsFrom_append hslash]
  obtain ⟨c, l, rfl⟩ := List.exists_cons_of_ne_nil hne
  have hc : c ≠ slash := fun hc => hslash (hc ▸ List.mem_cons_self ..)
  simp [hc]

theorem absPath_eq_nil_or_head (comps : List (List UInt8)) :
    absPath comps = [] ∨ (absPath comps).head? = some slash := by
  cases comps with
  | nil => exact Or.inl rfl
  | cons n comps => exact Or.inr rfl

/-- An absolute path has the components it was made of. -/
theorem components_absPath (h : ∀ n ∈ comps, IsName n) : components (absPath comps) = comps := by
  have hfrom : componentsFrom (absPath comps) = comps := by
    induction comps with
    | nil => rfl
    | cons n comps ih =>
      have hsplit : absPath (n :: comps) = slash :: (n ++ absPath comps) := by simp [absPath]
      rw [hsplit, componentsFrom_slash_append (h n (List.mem_cons_self ..))
        (absPath_eq_nil_or_head comps), ih fun m hm => h m (List.mem_cons_of_mem n hm)]
  cases comps with
  | nil => rfl
  | cons n comps => exact hfrom

theorem length_componentsFrom_le (path : List UInt8) :
    (componentsFrom path).length ≤ path.length := by
  induction path with
  | nil => exact le_rfl
  | cons c path ih =>
    rw [componentsFrom]
    split_ifs
    · exact Nat.succ_le_succ ih
    · exact ih.trans (Nat.le_succ _)

theorem length_le_of_mem_componentsFrom (h : n ∈ componentsFrom path) : n.length ≤ path.length := by
  induction path with
  | nil => simp [componentsFrom] at h
  | cons d path ih =>
    rw [componentsFrom] at h
    split_ifs at h
    · rcases List.mem_cons.mp h with rfl | h
      · exact (List.takeWhile_sublist _).length_le.trans (Nat.le_succ _)
      · exact (ih h).trans (Nat.le_succ _)
    · exact (ih h).trans (Nat.le_succ _)

/-- The components of an absolute path. -/
theorem components_of_abs (habs : path.head? = some slash) :
    components path = componentsFrom path := by
  cases path with
  | nil => simp at habs
  | cons c path =>
    obtain rfl : c = slash := by simpa using habs
    rw [components, if_pos rfl]

end Components

/-! ### `get_path_part` -/

section Part

variable {path l : List UInt8} {part : ℕ → UInt8} {k : ℕ}

theorem holds_copyPart (part : ℕ → UInt8) (h : 0 ∉ l) : Holds (copyPart part l) l := by
  refine (holds_chars h).congr fun i hi => ?_
  by_cases hlt : i < l.length
  · exact if_pos hlt
  · obtain rfl : i = l.length := by omega
    rw [copyPart, if_neg hlt, if_pos rfl, chars, List.getD_eq_getElem?_getD,
      List.getElem?_eq_none le_rfl]
    rfl

/-- What the outer loop leaves in the buffer when the component is behind. -/
theorem holds_partLoop (hpath : 0 ∉ path) {i current : ℕ} {n : List UInt8}
    (hn : (componentsFrom path)[k]? = some n) :
    Holds (partLoop (current + k) path i current part) n := by
  induction path generalizing i current k part with
  | nil => simp [componentsFrom] at hn
  | cons c path ih =>
    have hpath' : 0 ∉ path := fun hc => hpath (List.mem_cons_of_mem c hc)
    rw [partLoop]
    rw [componentsFrom] at hn
    by_cases hc : c = slash
    · rw [if_pos hc]
      by_cases hnext : path.head? = some slash
      · rw [if_pos hnext]
        rw [if_neg fun hcon => hcon.2.2 hnext] at hn
        exact ih hpath' hn
      · rw [if_neg hnext]
        by_cases hend : path.head? = none
        · -- a slash at the end has nothing behind it
          rw [if_neg fun hcon => hcon.2.1 hend, List.head?_eq_none_iff.mp hend] at hn
          simp [componentsFrom] at hn
        · rw [if_pos ⟨hc, hend, hnext⟩] at hn
          cases k with
          | zero =>
            obtain rfl : path.takeWhile (· ≠ slash) = n := by simpa using hn
            rw [if_pos (Nat.add_zero current).symm]
            exact holds_copyPart _ fun h0 => hpath' ((List.takeWhile_sublist _).subset h0)
          | succ k =>
            rw [if_neg (by omega)]
            have hadd : current + (k + 1) = current + 1 + k := by omega
            rw [hadd]
            exact ih hpath' (by simpa using hn)
    · rw [if_neg hc]
      rw [if_neg fun hcon => hc hcon.1] at hn
      exact ih hpath' hn

/-- **What `get_path_part` leaves in its buffer.** -/
theorem holds_getPathPart (habs : path.head? = some slash) (hpath : 0 ∉ path) {n : List UInt8}
    (hn : (components path)[k]? = some n) : Holds (getPathPart path part k) n := by
  cases path with
  | nil => simp at habs
  | cons c path =>
    obtain rfl : c = slash := by simpa using habs
    rw [components, if_pos rfl] at hn
    have hloop : Holds (partLoop (0 + k) (slash :: path) 0 0 part) n := holds_partLoop hpath hn
    rwa [Nat.zero_add] at hloop

/-- A path without parts is made of slashes. -/
theorem eq_slash_of_depth (habs : path.head? = some slash) (h : getPathDepth path = 0) :
    ∀ c ∈ path, c = slash := by
  induction path with
  | nil => simp
  | cons c path ih =>
    obtain rfl : c = slash := by simpa using habs
    rw [getPathDepth, Nat.add_eq_zero_iff] at h
    obtain ⟨hfirst, hrest⟩ := h
    refine List.forall_mem_cons.mpr ⟨rfl, ?_⟩
    cases path with
    | nil => simp
    | cons d path =>
      have hd : d = slash := by
        by_contra hd
        simp [hd] at hfirst
      exact ih (by simp [hd]) hrest

/-- Of a path without parts, the first one is empty, and the others are not stored. -/
theorem getPathPart_of_slashes (habs : path.head? = some slash) (h : ∀ c ∈ path, c = slash) :
    getPathPart path part k = if k = 0 then copyPart part [] else part := by
  have hloop : ∀ j, partLoop k path j 0 part = if k = 0 then copyPart part [] else part := by
    induction path with
    | nil => simp at habs
    | cons c path ih =>
      intro j
      obtain ⟨rfl, hrest⟩ := List.forall_mem_cons.mp h
      rw [partLoop, if_pos rfl]
      cases path with
      | nil => by_cases hk : k = 0 <;> simp [hk, partLoop, eq_comm]
      | cons d path =>
        obtain rfl : d = slash := hrest d List.mem_cons_self
        rw [if_pos List.head?_cons]
        exact ih rfl hrest (j + 1)
  exact hloop 0

end Part

end Xana
