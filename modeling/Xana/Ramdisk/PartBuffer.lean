import Xana.Filesystem.Parts
import Xana.Filesystem.WorkingDirectory
import Xana.Ramdisk.Device

/-!
# The buffers for the parts of a path

`ramdisk_get_path_header` asks `get_path_part` for one part after the other, into a buffer
of 64 bytes, and `device_open` for the only part of a path, into one of `NAME_MAX` bytes.
Neither looks at lengths before.

Which parts the first function asks for depends on the ramdisk. But a ramdisk with a
directory for each part, one in the other, makes it ask for all of them
(`Xana.mem_headerParts_nestedDirs`). So the buffers are large enough on every ramdisk
exactly if the path has short parts and, up to the last one, is short itself
(`Xana.partsInside_iff`): `get_path_part` stores the part before the one it is asked for,
at the index that it has in the path.
-/

namespace Xana

/-- `NAME_MAX`. -/
def nameMax : ℕ := 255

/-- The parts that the loop of `ramdisk_get_path_header` asks for, in at most `n` rounds:
`headerLoop` with the calls in place of what it returns. -/
def headerParts (m : Mem) (rd : Ramdisk) (path : List UInt8) : ℕ → ℕ → ℕ → (ℕ → UInt8) → List ℕ
  | 0, _, _, _ => []
  | n + 1, current, i, part =>
      let part := getPathPart path part i
      let next (current i : ℕ) : List ℕ :=
        if rd.data ≤ current then [] else headerParts m rd path n current i part
      let differ := strcmp (path.length + 1) part (fileName m current)
      i :: (if magic m current = fileEntry then
          differ.elim [] fun differ => if differ = 0 then [] else next (advance current 1) i
        else if magic m current = dirEntry then
          differ.elim [] fun differ =>
            if differ = 0 then
              if i = (getPathDepth path + (2 ^ 32 - 1)) % 2 ^ 32 then []
              else next (advance current 1) (i + 1)
            else next (advance current ((fileSize m current + 1) % 2 ^ 32)) i
        else next current i)

/-- The parts that `ramdisk_get_path_header` asks for. -/
def ramdiskParts (m : Mem) (rd : Ramdisk) (path : List UInt8) (part : ℕ → UInt8) (n : ℕ) : List ℕ :=
  if chars path 0 ≠ slash then [] else headerParts m rd path n rd.files 0 part

/-- The parts that `device_open` asks for. -/
def deviceParts (path : List UInt8) : List ℕ :=
  if chars path 0 ≠ slash then [] else if getPathDepth path = 1 then [0] else []

/-- **All calls store inside their buffers**, whatever the ramdisk. -/
structure PartsInside (path : List UInt8) : Prop where
  ramdisk : ∀ m rd part n, ∀ k ∈ ramdiskParts m rd path part n,
    ∀ s ∈ partStores k path 0 0, s.1 < 64
  device : ∀ k ∈ deviceParts path, ∀ s ∈ partStores k path 0 0, s.1 < nameMax

/-- **A path for which the buffers are large enough**: no part has 64 characters, and only
the last one goes on behind the 64th character of the path. -/
structure ShortParts (path : List UInt8) : Prop where
  length_lt : ∀ n ∈ pathParts path, n.length < 64
  before_lt : ∀ i c, path[i]? = some c → c ≠ slash →
    getPathDepth (path.take (i + 1)) < getPathDepth path → i < 64

section Asked

variable {m : Mem} {rd : Ramdisk} {path : List UInt8} {part : ℕ → UInt8} {n i k current : ℕ}

variable (m rd path n current i part) in
/-- What follows a round: nothing, or the rounds from another header, with the same part or,
unless it was the last one, with the next. -/
theorem headerParts_succ : ∃ l, headerParts m rd path (n + 1) current i part = i :: l ∧
    (l = [] ∨ ∃ c j, l = headerParts m rd path n c j (getPathPart path part i) ∧
      (j = i ∨ j = i + 1 ∧ i ≠ (getPathDepth path + (2 ^ 32 - 1)) % 2 ^ 32)) := by
  have hnext : ∀ c j, (j = i ∨ j = i + 1 ∧ i ≠ (getPathDepth path + (2 ^ 32 - 1)) % 2 ^ 32) →
      (if rd.data ≤ c then [] else headerParts m rd path n c j (getPathPart path part i)) = [] ∨
        ∃ c' j', (if rd.data ≤ c then []
          else headerParts m rd path n c j (getPathPart path part i)) =
            headerParts m rd path n c' j' (getPathPart path part i) ∧
          (j' = i ∨ j' = i + 1 ∧ i ≠ (getPathDepth path + (2 ^ 32 - 1)) % 2 ^ 32) := by
    intro c j hj
    by_cases hdata : rd.data ≤ c
    · exact Or.inl (if_pos hdata)
    · exact Or.inr ⟨c, j, if_neg hdata, hj⟩
  rw [headerParts]
  refine ⟨_, rfl, ?_⟩
  by_cases hfile : magic m current = fileEntry
  · rw [if_pos hfile]
    cases strcmp (path.length + 1) (getPathPart path part i) (fileName m current) with
    | none => exact Or.inl rfl
    | some differ =>
      rw [Option.elim_some]
      by_cases h0 : differ = 0
      · exact Or.inl (if_pos h0)
      · rw [if_neg h0]
        exact hnext _ _ (Or.inl rfl)
  · rw [if_neg hfile]
    by_cases hdir : magic m current = dirEntry
    · rw [if_pos hdir]
      cases strcmp (path.length + 1) (getPathPart path part i) (fileName m current) with
      | none => exact Or.inl rfl
      | some differ =>
        rw [Option.elim_some]
        by_cases h0 : differ = 0
        · rw [if_pos h0]
          by_cases hlast : i = (getPathDepth path + (2 ^ 32 - 1)) % 2 ^ 32
          · exact Or.inl (if_pos hlast)
          · rw [if_neg hlast]
            exact hnext _ _ (Or.inr ⟨rfl, hlast⟩)
        · rw [if_neg h0]
          exact hnext _ _ (Or.inl rfl)
    · rw [if_neg hdir]
      exact hnext _ _ (Or.inl rfl)

/-- **The loop asks for no part behind the last one**, if there is one. -/
theorem lt_of_mem_headerParts (hdepth : getPathDepth path < 2 ^ 32) (hi : i < getPathDepth path)
    (hk : k ∈ headerParts m rd path n current i part) : k < getPathDepth path := by
  induction n generalizing current i part with
  | zero => simp [headerParts] at hk
  | succ n ih =>
    obtain ⟨l, hparts, hl⟩ := headerParts_succ m rd path part n i current
    rw [hparts, List.mem_cons] at hk
    rcases hk with rfl | hk
    · exact hi
    · rcases hl with rfl | ⟨c, j, rfl, hj⟩
      · simp at hk
      · exact ih (by omega) hk

/-! ### A directory for each part -/

/-- A ramdisk at address 0 with a directory for each name, one in the other. -/
def nestedDirs (names : List (List UInt8)) : Mem := fun a =>
  if a % 80 = 0 then 0xAB
  else if a % 80 = 1 then 0x7E
  else if 6 ≤ a % 80 ∧ a % 80 < 70 then (names.getD (a / 80) []).getD (a % 80 - 6) 0
  else 0

theorem magic_nestedDirs (names : List (List UInt8)) (j : ℕ) :
    magic (nestedDirs names) (80 * j) = dirEntry := by
  have hfirst : nestedDirs names (80 * j) = 0xAB := if_pos (by omega)
  have hsecond : nestedDirs names (80 * j + 1) = 0x7E :=
    (if_neg (by omega)).trans (if_pos (by omega))
  simp only [magic, Mem.load, Mem.read, hfirst, hsecond]
  rfl

theorem holds_fileName_nestedDirs {names : List (List UInt8)} {name : List UInt8} {j : ℕ}
    (hname : names[j]? = some name) (h0 : 0 ∉ name) (hlt : name.length < 64) :
    Holds (fileName (nestedDirs names) (80 * j)) name := by
  refine (holds_chars h0).congr fun i hi => ?_
  have hdiv : (80 * j + 6 + i) / 80 = j := by omega
  have hmod : (80 * j + 6 + i) % 80 = 6 + i := by omega
  have hget : names.getD j [] = name := by
    rw [List.getD_eq_getElem?_getD, hname]
    rfl
  rw [fileName, nestedDirs, hdiv, hmod, if_neg (by omega), if_neg (by omega), if_pos (by omega),
    Nat.add_sub_cancel_left, hget]
  rfl

/-- **On this ramdisk the loop asks for part `k`** if the names in front of it are short. -/
theorem mem_headerParts_nestedDirs (habs : path.head? = some slash) (hpath : 0 ∉ path)
    (hdepth : getPathDepth path < 2 ^ 32) (hk : k < getPathDepth path)
    (hshort : ∀ j < k, ∀ name, (components path)[j]? = some name → name.length < 64)
    (d j : ℕ) (part : ℕ → UInt8) (hj : j + d = k) :
    k ∈ headerParts (nestedDirs (components path)) ⟨0, 0, 80 * (getPathDepth path + 1)⟩ path
      (d + 1) (80 * j) j part := by
  induction d generalizing j part with
  | zero =>
    obtain rfl : j = k := hj
    rw [headerParts]
    exact List.mem_cons_self
  | succ d ih =>
    have hlt : j < (components path).length := by
      rw [← getPathDepth_eq habs]
      omega
    have hname : (components path)[j]? = some (components path)[j] := List.getElem?_eq_getElem hlt
    have hpart : Holds (getPathPart path part j) (components path)[j] :=
      holds_getPathPart habs hpath hname
    have hnonzero : 0 ∉ (components path)[j] := (holds_iff.mp hpart).1
    have hfile := holds_fileName_nestedDirs hname hnonzero (hshort j (by omega) _ hname)
    have hle : (components path)[j].length ≤ path.length := by
      refine length_le_of_mem_componentsFrom ?_
      rw [← components_of_abs habs]
      exact List.getElem_mem hlt
    obtain ⟨differ, hdiffer, hiff⟩ := strcmp_spec hpart hfile (Nat.lt_succ_of_le hle)
    obtain rfl : differ = 0 := hiff.mpr rfl
    have hmagic := magic_nestedDirs (components path) j
    have hne : magic (nestedDirs (components path)) (80 * j) ≠ fileEntry := by
      rw [hmagic]
      decide
    have hlast : j ≠ (getPathDepth path + (2 ^ 32 - 1)) % 2 ^ 32 := by omega
    have hadvance : advance (80 * j) 1 = 80 * (j + 1) := by
      rw [advance, headerSize]
      omega
    have hdata : ¬80 * (getPathDepth path + 1) ≤ 80 * (j + 1) := by omega
    rw [headerParts, List.mem_cons]
    simp only [hdiffer, Option.elim_some, if_neg hne, if_pos hmagic, if_neg hlast, hadvance,
      if_neg hdata, if_true]
    exact Or.inr (ih (j + 1) _ (by omega))

end Asked

/-! ### Both functions -/

section Inside

variable {path : List UInt8}

theorem chars_zero_of_abs (habs : path.head? = some slash) : chars path 0 = slash := by
  cases path with
  | nil => simp at habs
  | cons c path => simpa [chars] using habs

/-- The parts that are asked for fit. -/
theorem ShortParts.partFits (h : ShortParts path) (habs : path.head? = some slash) {k : ℕ}
    (hk : k < getPathDepth path) : PartFits path 64 k where
  length_lt := by
    intro n hn
    refine h.length_lt n ?_
    rw [← components_eq_pathParts habs, components_of_abs habs]
    exact List.mem_of_getElem? hn
  before_lt := by
    rintro i c hget hc rfl
    exact h.before_lt i c hget hc hk

/-- A path without parts fits any buffer. -/
theorem partFits_of_depth (habs : path.head? = some slash) (h : getPathDepth path = 0)
    (size k : ℕ) :
    PartFits path size k where
  length_lt := by
    intro n hn
    rw [getPathDepth_eq_length, List.length_eq_zero_iff] at h
    rw [h] at hn
    simp at hn
  before_lt := by
    intro i c hget hc
    exact absurd (eq_slash_of_depth habs h c (List.mem_of_getElem? hget)) hc

/-- **The part buffers of `ramdisk_get_path_header` and `device_open` are large enough**
exactly if the path has short parts. -/
theorem partsInside_iff (habs : path.head? = some slash) (hpath : 0 ∉ path)
    (hlen : path.length < pathMax) : PartsInside path ↔ ShortParts path := by
  have hmax : pathMax = 4096 := rfl
  have hcharz : ¬chars path 0 ≠ slash := not_not.mpr (chars_zero_of_abs habs)
  have hle : getPathDepth path ≤ path.length := by
    rw [getPathDepth_eq_length]
    exact length_componentsFrom_le path
  have hdepth : getPathDepth path < 2 ^ 32 := by omega
  constructor
  · intro h
    -- one part after the other, since those in front have to be names of a ramdisk
    have hfits : ∀ k < getPathDepth path, PartFits path 64 k := by
      intro k
      induction k using Nat.strong_induction_on with
      | _ k ih =>
        intro hk
        rw [← partStores_lt_iff (by decide)]
        refine h.ramdisk (nestedDirs (components path)) ⟨0, 0, 80 * (getPathDepth path + 1)⟩
          (fun _ => 0) (k + 1) k ?_
        rw [ramdiskParts, if_neg hcharz]
        refine mem_headerParts_nestedDirs habs hpath hdepth hk (fun j hj name hname => ?_) k 0 _
          (Nat.zero_add k)
        rw [components_of_abs habs] at hname
        exact (ih j hj (by omega)).length_lt name hname
    constructor
    · intro n hn
      rw [← components_eq_pathParts habs, components_of_abs habs] at hn
      obtain ⟨k, hk, hget⟩ := List.getElem_of_mem hn
      refine (hfits k ?_).length_lt n ?_
      · rwa [getPathDepth_eq_length]
      · rw [← hget]
        exact List.getElem?_eq_getElem hk
    · intro i c hget hc hlt
      exact (hfits _ hlt).before_lt i c hget hc rfl
  · intro h
    constructor
    · intro m rd part n k hk
      rw [partStores_lt_iff (by decide)]
      rw [ramdiskParts, if_neg hcharz] at hk
      rcases Nat.eq_zero_or_pos (getPathDepth path) with hzero | hpos
      · exact partFits_of_depth habs hzero 64 k
      · exact h.partFits habs (lt_of_mem_headerParts hdepth hpos hk)
    · intro k hk
      rw [deviceParts, if_neg hcharz] at hk
      split_ifs at hk with hone
      · obtain rfl : k = 0 := by simpa using hk
        have hfits := h.partFits habs (k := 0) (by omega)
        rw [partStores_lt_iff (by decide)]
        exact ⟨fun n hn => (hfits.length_lt n hn).trans (by decide),
          fun i c hget hc hdepth => (hfits.before_lt i c hget hc hdepth).trans (by decide)⟩
      · simp at hk

/-- `/bin/sh` fits. -/
theorem partsInside_iff_sh : PartsInside [47, 98, 105, 110, 47, 115, 104] := by
  refine (partsInside_iff rfl (by decide) (by decide)).mpr ⟨?_, ?_⟩
  · rw [← components_eq_pathParts rfl]
    decide
  · intro i c hget _ _
    have hlt := (List.getElem?_eq_some_iff.mp hget).1
    simp only [List.length_cons, List.length_nil] at hlt
    omega

/-- A path with one name, of 64 letters. -/
def longName : List UInt8 := slash :: List.replicate 64 97

/-- The `NUL` behind the name is stored behind the buffer. -/
theorem not_partsInside : ¬∀ path : List UInt8, path.head? = some slash → 0 ∉ path →
    path.length < pathMax → PartsInside path := by
  intro hall
  have hinside := hall longName rfl (by decide) (by decide)
  have hfits := hinside.ramdisk (fun _ => 0) ⟨0, 0, 0⟩ (fun _ => 0) 1 0 List.mem_cons_self
  rw [partStores_lt_iff (by decide)] at hfits
  exact absurd (hfits.length_lt (List.replicate 64 97) (by decide)) (by decide)

end Inside

end Xana
