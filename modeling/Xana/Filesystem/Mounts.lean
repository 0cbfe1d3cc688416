import Xana.Filesystem.Cleanup

/-!
# Mounts

`mount_at`, `get_path_device` and `device_to_path` of `filesystem.c`. A mount is put in front
of the list of mounts, and `get_path_device` takes the first one whose path the path begins
with, if what comes behind it there is a slash or the end.

For paths that have been cleaned up this is the question whether the components of one path
are a prefix of those of the other (`Xana.qualifies_iff`): the character behind the mount's
path is what keeps `/mnt/ram` from being found for `/mnt/ramdisk`.
-/

namespace Xana

/-- `mount_t`, without the pointer to the next one. -/
structure Mount where
  filesystemtype : List UInt8
  path : List UInt8
  mountflags : ℕ
  filesystem : ℕ
  deriving DecidableEq, Repr

/-- `mount_at`: the mounts after it. -/
def mountAt (path : List UInt8) (device : ℕ) (filesystemtype : List UInt8) (mountflags : ℕ)
    (mounts : List Mount) : List Mount :=
  ⟨filesystemtype, path, mountflags, device⟩ :: mounts

/-- `get_path_device`: the device, which may be `NULL`, and the length of the path of its
mount. -/
def getPathDevice (rootFilesystem : Option ℕ) (path : List UInt8) : List Mount → Option ℕ × ℕ
  | [] => (rootFilesystem, 0)
  | mount :: mounts =>
      if strncmp mount.path.length (chars mount.path) (chars path) = 0 ∧
          (chars path mount.path.length = slash ∨ chars path mount.path.length = 0) then
        (some mount.filesystem, mount.path.length)
      else getPathDevice rootFilesystem path mounts

/-- `device_to_path`. -/
def deviceToPath (device : ℕ) : List Mount → Option (List UInt8)
  | [] => none
  | mount :: mounts =>
      if mount.filesystem = device then some mount.path else deviceToPath device mounts

/-- The mounts after a list of calls of `mount_at`, each given by what it mounts. -/
def mountAll (calls : List Mount) : List Mount :=
  calls.foldl (fun mounts c => mountAt c.path c.filesystem c.filesystemtype c.mountflags mounts) []

/-! ### One mount -/

/-- A path goes on behind another one, or ends there. -/
def GoesOn (mount path : List UInt8) : Prop :=
  ∃ rest, path = mount ++ rest ∧ (rest = [] ∨ rest.head? = some slash)

/-- Components of a path that has been cleaned up. -/
def CleanNames (comps : List (List UInt8)) : Prop := ∀ n ∈ comps, IsClean n ∧ 0 ∉ n

instance : DecidablePred CleanNames := fun comps =>
  inferInstanceAs (Decidable (∀ n ∈ comps, (IsName n ∧ n ≠ [dot] ∧ n ≠ [dot, dot]) ∧ 0 ∉ n))

section Mount

variable {l p n n' r r' trail : List UInt8} {a b : List (List UInt8)}

/-- **What `get_path_device` tests.** -/
theorem tests_iff (hl : 0 ∉ l) (hp : 0 ∉ p) :
    (strncmp l.length (chars l) (chars p) = 0 ∧
      (chars p l.length = slash ∨ chars p l.length = 0)) ↔ GoesOn l p := by
  rw [strncmp_length_eq_zero_iff (holds_chars hl) (holds_chars hp)]
  constructor
  · rintro ⟨⟨rest, rfl⟩, hnext⟩
    refine ⟨rest, rfl, ?_⟩
    cases rest with
    | nil => exact Or.inl rfl
    | cons d rest =>
      have hd : chars (l ++ d :: rest) l.length = d := by simp [chars]
      rw [hd] at hnext
      rcases hnext with rfl | rfl
      · exact Or.inr rfl
      · exact absurd (List.mem_append_right l (List.mem_cons_self ..)) hp
  · rintro ⟨rest, rfl, hrest⟩
    refine ⟨List.prefix_append l rest, ?_⟩
    rcases hrest with rfl | hrest
    · exact Or.inr (by simp [chars])
    · refine Or.inl ?_
      cases rest with
      | nil => simp at hrest
      | cons d rest => simpa [chars] using hrest

theorem append_name_inj (hn : slash ∉ n) (hn' : slash ∉ n') (hr : r = [] ∨ r.head? = some slash)
    (hr' : r' = [] ∨ r'.head? = some slash) (h : n ++ r = n' ++ r') : n = n' ∧ r = r' := by
  have heq := congrArg (List.takeWhile (· ≠ slash)) h
  rw [takeWhile_append_of_name hn hr, takeWhile_append_of_name hn' hr'] at heq
  obtain rfl := heq
  exact ⟨rfl, List.append_cancel_left h⟩

/-- **The components of the one path are a prefix of those of the other.** -/
theorem qualifies_iff (ha : ∀ n ∈ a, IsName n) (hb : ∀ n ∈ b, IsName n)
    (ht : trail = [] ∨ trail = [slash]) : GoesOn (absPath a) (absPath b ++ trail) ↔ a <+: b := by
  have hnext : ∀ b : List (List UInt8), absPath b ++ trail = [] ∨
      (absPath b ++ trail).head? = some slash := by
    intro b
    rcases absPath_eq_nil_or_head b with h | h
    · rw [h, List.nil_append]
      exact ht.imp id fun h => by rw [h]; rfl
    · exact Or.inr (by simp [h])
  induction a generalizing b with
  | nil => exact iff_of_true ⟨_, rfl, hnext b⟩ List.nil_prefix
  | cons n a ih =>
    obtain ⟨⟨hn, hslash⟩, ha⟩ := List.forall_mem_cons.mp ha
    have hcons : ∀ (n : List UInt8) (a : List (List UInt8)) (r : List UInt8),
        absPath (n :: a) ++ r = slash :: (n ++ (absPath a ++ r)) := by
      intro n a r
      simp [absPath]
    cases b with
    | nil =>
      refine iff_of_false ?_ (by simp)
      rintro ⟨rest, heq, -⟩
      rw [hcons] at heq
      have hlen := congrArg List.length heq
      have htrail : trail.length ≤ 1 := by rcases ht with rfl | rfl <;> simp
      have hpos : 0 < n.length := List.length_pos_iff.mpr hn
      simp only [absPath, List.flatMap_nil, List.nil_append, List.length_cons,
        List.length_append] at hlen
      omega
    | cons m b =>
      obtain ⟨⟨-, hslash'⟩, hb⟩ := List.forall_mem_cons.mp hb
      have hih : GoesOn (absPath a) (absPath b ++ trail) ↔ a <+: b := ih ha hb
      rw [List.cons_prefix_cons, ← hih]
      constructor
      · rintro ⟨rest, heq, hrest⟩
        rw [hcons, hcons] at heq
        have hrest' : absPath a ++ rest = [] ∨ (absPath a ++ rest).head? = some slash := by
          rcases absPath_eq_nil_or_head a with h | h
          · rwa [h, List.nil_append]
          · exact Or.inr (by simp [h])
        obtain ⟨rfl, hbehind⟩ :=
          append_name_inj hslash' hslash (hnext b) hrest' (List.cons.inj heq).2
        exact ⟨rfl, rest, hbehind, hrest⟩
      · rintro ⟨rfl, rest, heq, hrest⟩
        refine ⟨rest, ?_, hrest⟩
        rw [hcons, hcons, heq]

/-- What is left of a path behind its first components. -/
theorem drop_absPath (h : a <+: b) :
    (absPath b ++ trail).drop (absPath a).length = absPath (b.drop a.length) ++ trail := by
  obtain ⟨c, rfl⟩ := h
  rw [List.drop_left]
  have happ : absPath (a ++ c) = absPath a ++ absPath c := List.flatMap_append
  rw [happ, List.append_assoc, List.drop_left]

theorem notMem_absPath_append (hb : CleanNames b) (ht : trail = [] ∨ trail = [slash]) :
    0 ∉ absPath b ++ trail := by
  have h0 : (0 : UInt8) ≠ slash := by decide
  rw [List.mem_append, not_or]
  constructor
  · intro h
    obtain ⟨n, hn, h⟩ := List.mem_flatMap.mp h
    exact (List.mem_cons.mp h).elim h0 (hb n hn).2
  · rcases ht with rfl | rfl
    · simp
    · simpa using h0

end Mount

/-! ### All mounts -/

section Mounts

variable {root : Option ℕ} {mounts calls : List Mount} {b : List (List UInt8)}
  {trail : List UInt8}

/-- The path of a mount has been cleaned up, and has no slash at the end. -/
def CleanMount (m : Mount) : Prop := ∃ comps, comps ≠ [] ∧ CleanNames comps ∧ m.path = absPath comps

theorem mountAll_eq (calls : List Mount) : mountAll calls = calls.reverse := by
  induction calls using List.reverseRecOn with
  | nil => rfl
  | append_singleton calls c ih =>
    rw [mountAll, List.foldl_append, List.reverse_append]
    exact congrArg (c :: ·) ih

theorem CleanMount.path_eq {m : Mount} (hm : CleanMount m) :
    CleanNames (components m.path) ∧ m.path = absPath (components m.path) := by
  obtain ⟨comps, -, hclean, hpath⟩ := hm
  have hcomps : components m.path = comps := by
    rw [hpath]
    exact components_absPath fun n hn => (hclean n hn).1.1
  rw [hcomps]
  exact ⟨hclean, hpath⟩

/-- **A mount is chosen** or it is not. -/
theorem getPathDevice_cons {m : Mount} (hm : CleanMount m) (hb : CleanNames b)
    (ht : trail = [] ∨ trail = [slash]) :
    getPathDevice root (absPath b ++ trail) (m :: mounts) =
      if components m.path <+: b then (some m.filesystem, m.path.length)
      else getPathDevice root (absPath b ++ trail) mounts := by
  obtain ⟨hclean, hpath⟩ := hm.path_eq
  have hzero : 0 ∉ m.path := by
    have h := notMem_absPath_append hclean (Or.inl rfl)
    rwa [List.append_nil, ← hpath] at h
  have htest := tests_iff hzero (notMem_absPath_append hb ht)
  have hqual := qualifies_iff (fun n hn => (hclean n hn).1.1) (fun n hn => (hb n hn).1.1) ht
  rw [← hpath] at hqual
  rw [getPathDevice]
  simp only [htest, hqual]

theorem getPathDevice_append (hmounts : ∀ m ∈ mounts, CleanMount m) (hb : CleanNames b)
    (ht : trail = [] ∨ trail = [slash]) (hnot : ∀ m ∈ mounts, ¬components m.path <+: b)
    (rest : List Mount) : getPathDevice root (absPath b ++ trail) (mounts ++ rest) =
      getPathDevice root (absPath b ++ trail) rest := by
  induction mounts with
  | nil => rfl
  | cons m mounts ih =>
    obtain ⟨hm, hmounts⟩ := List.forall_mem_cons.mp hmounts
    obtain ⟨hm', hnot⟩ := List.forall_mem_cons.mp hnot
    rw [List.cons_append, getPathDevice_cons hm hb ht, if_neg hm', ih hmounts hnot]

/-- **The last of the mounts that fit is chosen.** -/
theorem getPathDevice_eq (hcalls : ∀ m ∈ calls, CleanMount m) (hb : CleanNames b)
    (ht : trail = [] ∨ trail = [slash]) {before after : List Mount} {m : Mount}
    (heq : calls = before ++ m :: after) (hm : components m.path <+: b)
    (hafter : ∀ m' ∈ after, ¬components m'.path <+: b) :
    getPathDevice root (absPath b ++ trail) (mountAll calls) =
      (some m.filesystem, m.path.length) := by
  rw [heq] at hcalls
  have hclean : CleanMount m := hcalls m (by simp)
  rw [mountAll_eq, heq, List.reverse_append, List.reverse_cons, List.append_assoc,
    getPathDevice_append (fun m' hm' => hcalls m' (by simp_all)) hb ht (by simpa using hafter)]
  exact (getPathDevice_cons hclean hb ht).trans (if_pos hm)

/-- No mount fits. -/
theorem getPathDevice_root (hcalls : ∀ m ∈ calls, CleanMount m) (hb : CleanNames b)
    (ht : trail = [] ∨ trail = [slash]) (hnot : ∀ m ∈ calls, ¬components m.path <+: b) :
    getPathDevice root (absPath b ++ trail) (mountAll calls) = (root, 0) := by
  have happ : getPathDevice root (absPath b ++ trail) (calls.reverse ++ []) =
      getPathDevice root (absPath b ++ trail) [] :=
    getPathDevice_append (by simpa using hcalls) hb ht (by simpa using hnot) []
  rw [List.append_nil] at happ
  rw [mountAll_eq, happ]
  rfl

/-- Some mount that fits is the last one. -/
theorem exists_last (hfits : ∃ m ∈ calls, components m.path <+: b) :
    ∃ before m after, calls = before ++ m :: after ∧ components m.path <+: b ∧
      ∀ m' ∈ after, ¬components m'.path <+: b := by
  induction calls with
  | nil => simp at hfits
  | cons c calls ih =>
    by_cases hlater : ∃ m ∈ calls, components m.path <+: b
    · obtain ⟨before, m, after, rfl, hm, hafter⟩ := ih hlater
      exact ⟨c :: before, m, after, rfl, hm, hafter⟩
    · obtain ⟨m, hmem, hm⟩ := hfits
      push Not at hlater
      rcases List.mem_cons.mp hmem with rfl | hmem
      · exact ⟨[], m, calls, rfl, hm, hlater⟩
      · exact absurd hm (hlater m hmem)

/-- **`get_path_device` finds the last mount whose components the path begins with**, leaves
what is behind them, and never takes a mount whose path is no more than the first characters of
the path. -/
theorem getPathDevice_spec (hcalls : ∀ m ∈ calls, CleanMount m) (hb : CleanNames b)
    (ht : trail = [] ∨ trail = [slash]) :
    (∀ before m after, calls = before ++ m :: after → components m.path <+: b →
      (∀ m' ∈ after, ¬components m'.path <+: b) →
        getPathDevice root (absPath b ++ trail) (mountAll calls) =
            (some m.filesystem, m.path.length) ∧
          (absPath b ++ trail).drop m.path.length =
            absPath (b.drop (components m.path).length) ++ trail) ∧
    ((∀ m ∈ calls, ¬components m.path <+: b) →
      getPathDevice root (absPath b ++ trail) (mountAll calls) = (root, 0)) ∧
    ∀ m ∈ calls, m.path <+: absPath b ++ trail → ¬components m.path <+: b →
      (getPathDevice root (absPath b ++ trail) (mountAll calls)).2 ≠ m.path.length := by
  refine ⟨?_, getPathDevice_root hcalls hb ht, ?_⟩
  · intro before m after heq hm hafter
    refine ⟨getPathDevice_eq hcalls hb ht heq hm hafter, ?_⟩
    have hclean : CleanMount m := hcalls m (by simp [heq])
    have hdrop : (absPath b ++ trail).drop (absPath (components m.path)).length =
        absPath (b.drop (components m.path).length) ++ trail := drop_absPath hm
    rwa [← hclean.path_eq.2] at hdrop
  · intro m hmem hprefix hm hlen
    obtain ⟨comps, hne, hclean, hpath⟩ := hcalls m hmem
    by_cases hfits : ∃ m ∈ calls, components m.path <+: b
    · obtain ⟨before, m', after, heq, hm', hafter⟩ := exists_last hfits
      rw [getPathDevice_eq hcalls hb ht heq hm' hafter] at hlen
      -- two first parts of the path with one length are one
      obtain ⟨rest, hrest⟩ := hprefix
      have hclean' : CleanMount m' := hcalls m' (by simp [heq])
      obtain ⟨rest', hrest'⟩ : m'.path <+: absPath b ++ trail := by
        have hqual := (qualifies_iff (fun n hn => (hclean'.path_eq.1 n hn).1.1)
          (fun n hn => (hb n hn).1.1) ht).mpr hm'
        rw [← hclean'.path_eq.2] at hqual
        obtain ⟨rest', hrest', -⟩ := hqual
        exact ⟨rest', hrest'.symm⟩
      have hsame : m'.path = m.path := (List.append_inj (hrest'.trans hrest.symm) hlen).1
      exact hm (hsame ▸ hm')
    · push Not at hfits
      rw [getPathDevice_root hcalls hb ht hfits] at hlen
      obtain ⟨n, comps, rfl⟩ := List.exists_cons_of_ne_nil hne
      simp [hpath, absPath] at hlen

theorem getPathDevice_spec_dev :
    getPathDevice none (absPath [[100], [120]] ++ []) (mountAll [⟨[], [47, 100], 0, 3⟩]) =
        (some 3, 2) ∧
      (absPath [[100], [120]] ++ []).drop 2 = absPath [[120]] ++ [] :=
  (@getPathDevice_spec none [⟨[], [47, 100], 0, 3⟩] [[100], [120]] []
    (List.forall_mem_singleton.mpr ⟨[[100]], by decide, by decide, rfl⟩) (by decide)
    (Or.inl rfl)).1 [] ⟨[], [47, 100], 0, 3⟩ [] rfl (by decide) (by simp)

end Mounts

end Xana
