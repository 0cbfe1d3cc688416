import Xana.Filesystem.Path

/-!
# The parts of a path

The components of an absolute path are what `'/'` splits it into, less what is empty
(`Xana.components_eq_pathParts`): `get_path_depth` counts them by looking ahead at one
character behind each slash, `get_path_part` skips a run of slashes and counts what
follows. So both agree with the split (`Xana.getPathPart_split`).
-/

namespace Xana

/-- **The parts of a path**: what is between its slashes, if it is not empty. -/
def pathParts (path : List UInt8) : List (List UInt8) := (path.splitOn slash).filter (· ≠ [])

section Split

variable {path : List UInt8}

/-- The split begins with what stands in front of the first slash, and behind it come the
components. -/
theorem splitOn_slash (path : List UInt8) : ∃ rest,
    path.splitOn slash = path.takeWhile (· ≠ slash) :: rest ∧
      componentsFrom path = rest.filter (· ≠ []) := by
  induction path with
  | nil => exact ⟨[], List.splitOn_nil slash, rfl⟩
  | cons c path ih =>
    obtain ⟨rest, hsplit, hfrom⟩ := ih
    rw [List.splitOn_cons_eq_if_modifyHead, hsplit, componentsFrom]
    by_cases hc : c = slash
    · subst hc
      refine ⟨path.takeWhile (· ≠ slash) :: rest, by simp, ?_⟩
      by_cases hempty : path.head? = none ∨ path.head? = some slash
      · -- an empty part
        have htake : path.takeWhile (· ≠ slash) = [] := by
          cases path with
          | nil => rfl
          | cons d path =>
            obtain rfl : d = slash := by simpa using hempty
            simp
        rw [if_neg (by tauto), hfrom, htake, List.filter_cons_of_neg (by simp)]
      · rw [not_or] at hempty
        have hcons : path ≠ [] := fun h => hempty.1 (List.head?_eq_none_iff.mpr h)
        obtain ⟨d, path, rfl⟩ := List.exists_cons_of_ne_nil hcons
        have hd : d ≠ slash := by simpa using hempty.2
        have hne : (d :: path).takeWhile (· ≠ slash) ≠ [] := by
          rw [List.takeWhile_cons_of_pos (by simpa using hd)]
          exact List.cons_ne_nil _ _
        rw [if_pos ⟨rfl, hempty⟩, hfrom, List.filter_cons_of_pos (by simpa using hne)]
    · refine ⟨rest, ?_, ?_⟩
      · rw [if_neg (by simpa using hc), List.modifyHead_cons,
          List.takeWhile_cons_of_pos (by simpa using hc)]
      · rw [if_neg fun h => hc h.1, hfrom]

/-- **The components are the parts**, for an absolute path. -/
theorem components_eq_pathParts (habs : path.head? = some slash) :
    components path = pathParts path := by
  cases path with
  | nil => simp at habs
  | cons c path =>
    obtain rfl : c = slash := by simpa using habs
    obtain ⟨rest, hsplit, hfrom⟩ := splitOn_slash (slash :: path)
    rw [components, if_pos rfl, hfrom, pathParts, hsplit, List.takeWhile_cons_of_neg (by simp),
      List.filter_cons_of_neg (by simp)]

/-- **`get_path_depth` and `get_path_part`**: the depth of an absolute path is the number of
its parts, and each part below is what is left in the buffer. -/
theorem getPathPart_split (habs : path.head? = some slash) (hpath : 0 ∉ path) :
    getPathDepth path = (pathParts path).length ∧
      ∀ k < getPathDepth path, ∃ n, (pathParts path)[k]? = some n ∧
        ∀ part, Holds (getPathPart path part k) n := by
  have hdepth : getPathDepth path = (pathParts path).length := by
    rw [getPathDepth_eq habs, components_eq_pathParts habs]
  refine ⟨hdepth, fun k hk => ?_⟩
  rw [hdepth] at hk
  have hget : (pathParts path)[k]? = some (pathParts path)[k] := List.getElem?_eq_getElem hk
  refine ⟨_, hget, fun part => holds_getPathPart habs hpath ?_⟩
  rw [components_eq_pathParts habs, hget]

/-- The two parts of `//a/bc/`. -/
theorem getPathPart_split_twoParts : getPathDepth [47, 47, 97, 47, 98, 99, 47] = 2 ∧
    Holds (getPathPart [47, 47, 97, 47, 98, 99, 47] (fun _ => 7) 1) [98, 99] := by
  have habs : [47, 47, 97, 47, 98, 99, 47].head? = some slash := rfl
  obtain ⟨-, hparts⟩ := getPathPart_split habs (by decide)
  obtain ⟨n, hn, hholds⟩ := hparts 1 (by decide)
  have hsecond : pathParts [47, 47, 97, 47, 98, 99, 47] = [[97], [98, 99]] := by
    rw [← components_eq_pathParts habs]
    decide
  rw [hsecond] at hn
  obtain rfl : [98, 99] = n := by simpa using hn
  exact ⟨by decide, hholds _⟩

end Split

/-! ### What `get_path_part` stores -/

/-- The copying loop from the `j`-th index on, with the `NUL` behind. -/
def copyStores : List UInt8 → ℕ → List (ℕ × UInt8)
  | [], j => [(j, 0)]
  | c :: l, j => (j, c) :: copyStores l (j + 1)

/-- The stores of `get_path_part` to its buffer, each with its index. -/
def partStores (partNum : ℕ) : List UInt8 → ℕ → ℕ → List (ℕ × UInt8)
  | [], _, _ => []
  | c :: path, i, currentPart =>
      if c = slash then
        if path.head? = some slash then partStores partNum path (i + 1) currentPart
        else if currentPart = partNum then copyStores (path.takeWhile (· ≠ slash)) 0
        else partStores partNum path (i + 1) (currentPart + 1)
      else if currentPart = partNum then (i, c) :: partStores partNum path (i + 1) currentPart
      else partStores partNum path (i + 1) currentPart

/-- **Part `k` of a path fits a buffer of `size` bytes**: it is shorter than that, and so is
the path up to the end of the part before it. -/
structure PartFits (path : List UInt8) (size k : ℕ) : Prop where
  length_lt : ∀ n, (componentsFrom path)[k]? = some n → n.length < size
  before_lt : ∀ i c, path[i]? = some c → c ≠ slash → getPathDepth (path.take (i + 1)) = k → i < size

section Stores

variable {path l : List UInt8} {part : ℕ → UInt8} {c : UInt8} {size i j k current : ℕ}

/-- What the copying loop leaves. -/
theorem foldl_copyStores (l : List UInt8) (j : ℕ) (part : ℕ → UInt8) :
    (copyStores l j).foldl (fun part s => Function.update part s.1 s.2) part =
      fun i => if i < j then part i else copyPart (fun i => part (j + i)) l (i - j) := by
  induction l generalizing j part with
  | nil =>
    funext i
    rw [copyStores, List.foldl_cons, List.foldl_nil, Function.update_apply, copyPart]
    simp only [List.length_nil, Nat.not_lt_zero, if_false]
    rcases Nat.lt_trichotomy i j with hlt | rfl | hgt
    · rw [if_neg hlt.ne, if_pos hlt]
    · simp
    · rw [if_neg hgt.ne', if_neg hgt.not_gt, if_neg (by omega), Nat.add_sub_cancel' hgt.le]
  | cons c l ih =>
    funext i
    rw [copyStores, List.foldl_cons, ih]
    simp only [copyPart, List.length_cons]
    rcases Nat.lt_trichotomy i j with hlt | rfl | hgt
    · rw [if_pos (by omega), if_pos hlt, Function.update_of_ne hlt.ne]
    · simp
    · obtain ⟨d, rfl⟩ := Nat.exists_eq_add_of_lt hgt
      have hsub : j + d + 1 - j = d + 1 := by omega
      have hsub' : j + d + 1 - (j + 1) = d := by omega
      have hne : j + 1 + d ≠ j := by omega
      have hadd : j + (d + 1) = j + 1 + d := by omega
      have hlow : ¬j + d + 1 < j + 1 := by omega
      have hlow' : ¬j + d + 1 < j := by omega
      rw [if_neg hlow, if_neg hlow', hsub, hsub', Function.update_of_ne hne, hadd]
      simp only [Nat.add_lt_add_iff_right, Nat.add_right_cancel_iff, List.getD_cons_succ]

/-- **The stores make the buffer** that `get_path_part` leaves. -/
theorem foldl_partStores (path : List UInt8) (i current : ℕ) (part : ℕ → UInt8) :
    (partStores k path i current).foldl (fun part s => Function.update part s.1 s.2) part =
      partLoop k path i current part := by
  induction path generalizing i current part with
  | nil => rfl
  | cons c path ih =>
    rw [partStores, partLoop]
    split_ifs with hc hnext hk hk
    · exact ih _ _ _
    · rw [foldl_copyStores]
      funext j
      simp
    · exact ih _ _ _
    · rw [List.foldl_cons]
      exact ih _ _ _
    · exact ih _ _ _

/-- The copying loop stores up to the length. -/
theorem copyStores_lt (l : List UInt8) (j : ℕ) :
    (∀ s ∈ copyStores l j, s.1 < size) ↔ j + l.length < size := by
  induction l generalizing j with
  | nil => simp [copyStores]
  | cons c l ih =>
    rw [copyStores, List.forall_mem_cons, ih, List.length_cons]
    constructor
    · rintro ⟨-, hlt⟩
      omega
    · intro hlt
      exact ⟨by simp only; omega, by omega⟩

theorem depth_cons_take (h : path.head? ≠ none) (c : UInt8) (j : ℕ) :
    getPathDepth ((c :: path).take (j + 1 + 1)) =
      (if c = slash ∧ path.head? ≠ none ∧ path.head? ≠ some slash then 1 else 0) +
        getPathDepth (path.take (j + 1)) := by
  have hhead : (path.take (j + 1)).head? = path.head? := by
    cases path with
    | nil => rfl
    | cons d path => rfl
  rw [List.take_succ_cons, getPathDepth, hhead]

/-- What the characters ask for, the first one apart. -/
theorem before_cons {d : ℕ} (size i k : ℕ)
    (hd : (if c = slash ∧ path.head? ≠ none ∧ path.head? ≠ some slash then 1 else 0) = d) :
    (∀ j c', (c :: path)[j]? = some c' → c' ≠ slash →
        getPathDepth ((c :: path).take (j + 1)) = d + k → i + j < size) ↔
      (c ≠ slash → d + k = 0 → i < size) ∧ ∀ j c', path[j]? = some c' → c' ≠ slash →
        getPathDepth (path.take (j + 1)) = k → i + 1 + j < size := by
  have hfirst : getPathDepth ((c :: path).take (0 + 1)) = 0 := by
    simp [getPathDepth]
  have hnext : ∀ j c', path[j]? = some c' →
      (getPathDepth ((c :: path).take (j + 1 + 1)) = d + k ↔
        getPathDepth (path.take (j + 1)) = k) := by
    intro j c' hj
    have hne : path.head? ≠ none := by
      rw [ne_eq, List.head?_eq_none_iff]
      rintro rfl
      simp at hj
    rw [depth_cons_take hne, hd, Nat.add_left_cancel_iff]
  constructor
  · intro h
    refine ⟨fun hc hk => h 0 c rfl hc (hfirst.trans hk.symm), fun j c' hj hc' hdepth => ?_⟩
    have hlt := h (j + 1) c' hj hc' ((hnext j c' hj).mpr hdepth)
    omega
  · rintro ⟨hzero, hrest⟩ j c' hj hc' hdepth
    cases j with
    | zero =>
      obtain rfl : c = c' := by simpa using hj
      exact hzero hc' (hdepth.symm.trans hfirst)
    | succ j =>
      have hlt := hrest j c' hj hc' ((hnext j c' hj).mp hdepth)
      omega

/-- What the loop stores is inside, from the rest of a path. `k` is what is left of the
part's number. -/
theorem partStores_lt (hsize : 0 < size) (path : List UInt8) (i current k : ℕ) :
    (∀ s ∈ partStores (current + k) path i current, s.1 < size) ↔
      (∀ n, (componentsFrom path)[k]? = some n → n.length < size) ∧
        ∀ j c, path[j]? = some c → c ≠ slash → getPathDepth (path.take (j + 1)) = k →
          i + j < size := by
  induction path generalizing i current k with
  | nil => simp [partStores, componentsFrom]
  | cons c path ih =>
    rw [partStores, componentsFrom]
    by_cases hc : c = slash
    · rw [if_pos hc]
      by_cases hnext : path.head? = some slash
      · -- of a run of slashes only the last one counts
        have hcond : ¬(c = slash ∧ path.head? ≠ none ∧ path.head? ≠ some slash) :=
          fun h => h.2.2 hnext
        have hiff := before_cons size i k (if_neg hcond)
        rw [Nat.zero_add] at hiff
        rw [if_pos hnext, if_neg hcond, hiff, ih]
        simp [hc]
      · by_cases hend : path.head? = none
        · -- a slash at the end
          obtain rfl := List.head?_eq_none_iff.mp hend
          have hstores : ∀ s ∈ (if ([] : List UInt8).head? = some slash then
              partStores (current + k) [] (i + 1) current
            else if current = current + k then
              copyStores (([] : List UInt8).takeWhile (· ≠ slash)) 0
            else partStores (current + k) [] (i + 1) (current + 1)), s.1 < size := by
            rw [if_neg hnext]
            split_ifs
            · exact (copyStores_lt [] 0).mpr hsize
            · simp [partStores]
          refine iff_of_true hstores ⟨by simp [componentsFrom], ?_⟩
          rintro j c' hj hc' -
          refine absurd ?_ hc'
          cases j with
          | zero =>
            rw [← hc]
            exact (Option.some.inj hj).symm
          | succ j => simp at hj
        · have hcond : c = slash ∧ path.head? ≠ none ∧ path.head? ≠ some slash := ⟨hc, hend, hnext⟩
          rw [if_neg hnext, if_pos hcond]
          cases k with
          | zero =>
            rw [if_pos (Nat.add_zero current).symm, copyStores_lt]
            constructor
            · intro hlt
              refine ⟨fun n hn => ?_, fun j c' hj hc' hdepth => ?_⟩
              · obtain rfl : path.takeWhile (· ≠ slash) = n := by simpa using hn
                omega
              · -- the part has begun in front of each of its characters
                cases j with
                | zero =>
                  rw [← hc] at hc'
                  exact absurd (Option.some.inj hj).symm hc'
                | succ j =>
                  rw [depth_cons_take hend, if_pos hcond] at hdepth
                  omega
            · rintro ⟨hlt, -⟩
              rw [Nat.zero_add]
              exact hlt _ rfl
          | succ k =>
            have hiff := before_cons size i k (if_pos hcond)
            have hcurrent : current + (k + 1) = current + 1 + k := by omega
            rw [if_neg (by omega), hcurrent, ih, List.getElem?_cons_succ, Nat.add_comm k 1, hiff]
            simp [hc]
    · -- a character that is no slash is stored if it is in the part
      have hcond : ¬(c = slash ∧ path.head? ≠ none ∧ path.head? ≠ some slash) := fun h => hc h.1
      have hiff := before_cons size i k (if_neg hcond)
      rw [Nat.zero_add] at hiff
      rw [if_neg hc, if_neg hcond, hiff]
      cases k with
      | zero =>
        rw [if_pos (Nat.add_zero current).symm, List.forall_mem_cons, ih]
        simp only [ne_eq, hc, not_false_eq_true, forall_const]
        tauto
      | succ k =>
        rw [if_neg (by omega), ih]
        simp

/-- **Where `get_path_part` stores**: inside a buffer exactly if the part fits it. -/
theorem partStores_lt_iff (hsize : 0 < size) (path : List UInt8) (k : ℕ) :
    (∀ s ∈ partStores k path 0 0, s.1 < size) ↔ PartFits path size k := by
  have hiff := partStores_lt hsize path 0 0 k
  rw [Nat.zero_add] at hiff
  rw [hiff]
  simp only [Nat.zero_add]
  exact ⟨fun h => ⟨h.1, h.2⟩, fun h => ⟨h.length_lt, h.before_lt⟩⟩

end Stores

end Xana
