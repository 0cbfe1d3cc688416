import Xana.Filesystem.Parts
import Xana.Filesystem.WorkingDirectory

/-!
# Cleaning up in place

`abs_path_cleanup` works in the buffer that holds the path. It stays inside the string and
its `NUL`: whatever stands behind them is neither read nor written, which is to say that
the loop does the same with anything put there (`Xana.cleanupLoop_patch`). Each round keeps
the cursor in the string, and what it removes is in the string too.

What is left is no longer, has no empty component, no `.` and no `..`, and there is nothing
more to clean up in it (`Xana.absPathCleanup_inPlace`).
-/

namespace Xana

/-- The bytes of `s` up to index `L`, and those of `g` behind. -/
def patch (L : ℕ) (s g : ℕ → UInt8) : ℕ → UInt8 := fun i => if i ≤ L then s i else g i

section Patch

variable {s g : ℕ → UInt8} {l t : List UInt8} {i k p q L path : ℕ}

theorem patch_of_le (h : i ≤ L) : patch L s g i = s i := if_pos h

theorem patch_self (L : ℕ) (s : ℕ → UInt8) : patch L s s = s := by
  funext i
  exact ite_self _

theorem Holds.patch (h : Holds s l) (hL : l.length ≤ L) : Holds (patch L s g) l :=
  h.congr fun _ hi => patch_of_le (hi.trans hL)

/-- A byte of a string that is not its `NUL`. -/
theorem Holds.lt_of_ne_zero (h : Holds s l) (hi : i ≤ l.length) (hne : s i ≠ 0) : i < l.length := by
  refine lt_of_le_of_ne hi ?_
  rintro rfl
  rw [h.apply le_rfl, List.getD_eq_default _ _ le_rfl] at hne
  exact hne rfl

/-- `strlen` reads up to the `NUL`. -/
theorem strlen_congr (h : Holds s t) (hg : ∀ i ≤ t.length, g i = s i) :
    strlen k g = strlen k s := by
  induction k generalizing s g t with
  | zero => rfl
  | succ k ih =>
    rw [strlen, strlen, hg 0 (Nat.zero_le _)]
    cases t with
    | nil =>
      have hs : s 0 = 0 := h
      rw [if_neg (not_not.mpr hs), if_neg (not_not.mpr hs)]
    | cons c t =>
      rw [ih h.2.2 fun i hi => hg (i + 1) (Nat.succ_le_succ hi)]

theorem prevSlash_congr (h : ∀ i ≤ p, g i = s i) : prevSlash g p = prevSlash s p := by
  induction p with
  | zero => rfl
  | succ p ih =>
    rw [prevSlash, prevSlash, h (p + 1) le_rfl, ih fun i hi => h i (hi.trans (Nat.le_succ p))]

theorem prevSlash_le (s : ℕ → UInt8) (p : ℕ) : prevSlash s p ≤ p := by
  induction p with
  | zero => exact le_rfl
  | succ p ih =>
    rw [prevSlash]
    split_ifs
    · exact ih.trans (Nat.le_succ p)
    · exact le_rfl

/-- **A part of the string is removed**, from `p` to `q`: what is moved is in the string. -/
theorem Holds.remove (h : Holds s l) (hpq : p ≤ q) (hq : q ≤ l.length) :
    Holds (fun i => s (q + i)) (l.drop q) ∧
      Holds (memmove s p q ((l.drop q).length + 1)) (l.take p ++ l.drop q) ∧
      ∀ g, l.length ≤ L → memmove (Xana.patch L s g) p q ((l.drop q).length + 1) =
        Xana.patch L (memmove s p q ((l.drop q).length + 1)) g := by
  have hsplit : l = l.take p ++ ((l.take q).drop p ++ l.drop q) := by
    rw [← List.append_assoc]
    have htake : l.take p = (l.take q).take p := by
      rw [List.take_take, min_eq_left hpq]
    rw [htake, List.take_append_drop, List.take_append_drop]
  have hlp : (l.take p).length = p := by
    rw [List.length_take]
    omega
  have hlq : (l.take p).length + ((l.take q).drop p).length = q := by
    simp only [List.length_take, List.length_drop]
    omega
  have hholds := h
  rw [hsplit] at hholds
  have hmove := holds_memmove hholds
  rw [hlq, hlp] at hmove
  refine ⟨?_, hmove, fun g hL => ?_⟩
  · have htail : Holds s (l.take q ++ l.drop q) := by rwa [List.take_append_drop]
    have hdrop := htail.drop
    rwa [List.length_take, min_eq_left hq] at hdrop
  · funext i
    have hlen : (l.drop q).length = l.length - q := List.length_drop
    have hright : Xana.patch L (memmove s p q ((l.drop q).length + 1)) g i =
        if i ≤ L then memmove s p q ((l.drop q).length + 1) i else g i := rfl
    rw [hright, memmove_apply, memmove_apply, hlen]
    by_cases hin : p ≤ i ∧ i < p + (l.length - q + 1)
    · rw [if_pos hin, if_pos hin, if_pos (by omega), patch_of_le (by omega)]
    · rw [if_neg hin, if_neg hin]
      rfl

/-- A round that removes something, with anything behind the string. -/
theorem remove_patch (h : Holds s l) (hpq : p ≤ q) (hq : q ≤ l.length) (hL : l.length ≤ L)
    (ih : ∀ {s : ℕ → UInt8} {l : List UInt8} {path : ℕ}, Holds s l → path ≤ l.length →
      l.length ≤ L → cleanupLoop k (patch L s g) path = (cleanupLoop k s path).map (patch L · g)) :
    ((strlen k fun i => patch L s g (q + i)).bind fun len =>
        cleanupLoop k (memmove (patch L s g) p q (len + 1)) p) =
      ((strlen k fun i => s (q + i)).bind fun len =>
        cleanupLoop k (memmove s p q (len + 1)) p).map (patch L · g) := by
  obtain ⟨htail, hmove, hpatch⟩ := h.remove (L := L) hpq hq
  have hlen : (l.drop q).length = l.length - q := List.length_drop
  have hstrlen : (strlen k fun i => patch L s g (q + i)) = strlen k fun i => s (q + i) :=
    strlen_congr htail fun i hi => patch_of_le (by omega)
  rw [hstrlen]
  cases hres : strlen k fun i => s (q + i) with
  | none => rfl
  | some len =>
    have hmore :=
      (strlen_mono fun i => s (q + i)).of_ge hres (le_max_left k ((l.drop q).length + 1))
    have heq := strlen_eq htail (n := max k ((l.drop q).length + 1)) (by omega)
    obtain rfl : len = (l.drop q).length := Option.some.inj (hmore.symm.trans heq)
    rw [Option.bind_some, Option.bind_some, hpatch g hL]
    have hlp : (l.take p ++ l.drop q).length = p + (l.length - q) := by
      rw [List.length_append, List.length_take, hlen]
      omega
    exact ih hmove (by omega) (by omega)

/-- **The loop does the same whatever stands behind the string.** -/
theorem cleanupLoop_patch (h : Holds s l) (hpath : path ≤ l.length) (hL : l.length ≤ L) :
    cleanupLoop k (patch L s g) path = (cleanupLoop k s path).map (patch L · g) := by
  induction k generalizing s l path with
  | zero => rfl
  | succ k ih =>
    rw [cleanupLoop, cleanupLoop, patch_of_le (hpath.trans hL)]
    by_cases h0 : s path = 0
    · rw [if_neg (not_not.mpr h0), if_neg (not_not.mpr h0)]
      rfl
    rw [if_pos h0, if_pos h0]
    have h1 := h.lt_of_ne_zero hpath h0
    have hnext : ∀ j ≤ l.length, patch L s g j = s j := fun j hj => patch_of_le (hj.trans hL)
    rw [hnext (path + 1) h1]
    -- the tests look at one byte more only if the byte before it is not the `NUL`
    have hdot : s (path + 1) = dot → path + 2 ≤ l.length := fun hd =>
      h.lt_of_ne_zero h1 (by rw [hd]; decide)
    have hdotdot : (s path = slash ∧ s (path + 1) = dot ∧ patch L s g (path + 2) = dot ∧
        (patch L s g (path + 3) = slash ∨ patch L s g (path + 3) = 0)) ↔
        s path = slash ∧ s (path + 1) = dot ∧ s (path + 2) = dot ∧
          (s (path + 3) = slash ∨ s (path + 3) = 0) := by
      refine and_congr_right fun _ => and_congr_right fun hd => ?_
      rw [hnext (path + 2) (hdot hd)]
      refine and_congr_right fun hd' => ?_
      rw [hnext (path + 3) (h.lt_of_ne_zero (hdot hd) (by rw [hd']; decide))]
    have hdot' : (s path = slash ∧ s (path + 1) = dot ∧
        (patch L s g (path + 2) = slash ∨ patch L s g (path + 2) = 0)) ↔
        s path = slash ∧ s (path + 1) = dot ∧ (s (path + 2) = slash ∨ s (path + 2) = 0) := by
      refine and_congr_right fun _ => and_congr_right fun hd => ?_
      rw [hnext (path + 2) (hdot hd)]
    by_cases hdouble : s path = slash ∧ s (path + 1) = slash
    · rw [if_pos hdouble, if_pos hdouble]
      exact remove_patch h (Nat.le_add_right path 1) h1 hL ih
    rw [if_neg hdouble, if_neg hdouble]
    by_cases hparent : s path = slash ∧ s (path + 1) = dot ∧ s (path + 2) = dot ∧
        (s (path + 3) = slash ∨ s (path + 3) = 0)
    · rw [if_pos (hdotdot.mpr hparent), if_pos hparent]
      have h3 : path + 3 ≤ l.length :=
        h.lt_of_ne_zero (hdot hparent.2.1) (by rw [hparent.2.2.1]; decide)
      have hprev : prevSlash (patch L s g) (path - 1) = prevSlash s (path - 1) :=
        prevSlash_congr fun i hi => hnext i (by omega)
      have hle := prevSlash_le s (path - 1)
      rw [hprev]
      by_cases hroot : path = 0
      · simp only [if_pos hroot]
        exact remove_patch h (Nat.le_add_right path 3) h3 hL ih
      simp only [if_neg hroot]
      by_cases hfirst : prevSlash s (path - 1) = 0
      · simp only [if_pos hfirst]
        exact remove_patch h (Nat.le_add_right path 3) h3 hL ih
      · simp only [if_neg hfirst]
        exact remove_patch h (by omega) h3 hL ih
    rw [if_neg fun hc => hparent (hdotdot.mp hc), if_neg hparent]
    by_cases hself : s path = slash ∧ s (path + 1) = dot ∧ (s (path + 2) = slash ∨ s (path + 2) = 0)
    · rw [if_pos (hdot'.mpr hself), if_pos hself]
      exact remove_patch h (Nat.le_add_right path 2) (hdot hself.2.1) hL ih
    · rw [if_neg fun hc => hself (hdot'.mp hc), if_neg hself]
      exact ih h h1 hL

end Patch

/-! ### A path that is clean -/

section Clean

variable {s : ℕ → UInt8} {path r : List UInt8} {st : List (List UInt8)} {k : ℕ}

/-- **In a path that has been cleaned up** the cursor goes through to the end. -/
theorem cleanupLoop_clean (done : List (List UInt8)) (h : Holds s (absPath (done ++ st) ++ r))
    (hst : ∀ n ∈ st, IsClean n) (hr : r = [] ∨ r = [slash])
    (hk : (absPath st ++ r).length < k) : cleanupLoop k s (absPath done).length = some s := by
  induction st generalizing done k with
  | nil =>
    rw [List.append_nil] at h
    rcases hr with rfl | rfl
    · rw [List.append_nil] at h
      obtain ⟨k, rfl⟩ := Nat.exists_eq_succ_of_ne_zero (Nat.ne_zero_of_lt hk)
      exact cleanupLoop_end h
    · have hat : AtSlash s (absPath done) [] [] := ⟨h, by simp, Or.inl rfl⟩
      obtain ⟨k, rfl⟩ : ∃ k', k = k' + 1 + 1 := ⟨k - 2, by simp [absPath] at hk; omega⟩
      have hround := cleanupLoop_name (k := k + 1) hat (Or.inr rfl) (by simp) (by simp)
      exact hround.trans (cleanupLoop_end h)
  | cons n st ih =>
    obtain ⟨⟨hne, hn⟩, h1, h2⟩ := hst n List.mem_cons_self
    have hsplit : absPath (done ++ n :: st) ++ r =
        absPath done ++ slash :: (n ++ (absPath st ++ r)) := by
      simp [absPath]
    rw [hsplit] at h
    have hat : AtSlash s (absPath done) n (absPath st ++ r) := by
      refine ⟨h, hn, ?_⟩
      cases st with
      | nil =>
        rcases hr with rfl | rfl
        · exact Or.inl rfl
        · exact Or.inr rfl
      | cons m st => exact Or.inr rfl
    have hlen : (absPath (n :: st) ++ r).length = n.length + 1 + (absPath st ++ r).length := by
      simp [absPath]
      omega
    rw [hlen] at hk
    obtain ⟨k, rfl⟩ : ∃ k', k = k' + n.length + 1 := ⟨k - n.length - 1, by omega⟩
    rw [cleanupLoop_name hat (Or.inl hne) h1 h2, ← absPath_concat]
    refine ih (done ++ [n]) ?_ (fun m hm => hst m (List.mem_cons_of_mem n hm)) (by omega)
    rw [← hsplit] at h
    simpa using h

/-- What there is between the slashes of a clean path. -/
theorem splitOn_clean (hst : ∀ n ∈ st, IsClean n) (hr : r = [] ∨ r = [slash]) :
    ∀ n ∈ (absPath st ++ r).splitOn slash, n ≠ [dot] ∧ n ≠ [dot, dot] := by
  intro n hn
  by_cases hempty : n = []
  · subst hempty
    simp
  by_cases hnil : absPath st ++ r = []
  · rw [hnil, List.splitOn_nil, List.mem_singleton] at hn
    exact absurd hn hempty
  · have habs : (absPath st ++ r).head? = some slash := by
      cases st with
      | nil =>
        rcases hr with rfl | rfl
        · exact absurd rfl hnil
        · rfl
      | cons m st => rfl
    have hmem : n ∈ pathParts (absPath st ++ r) := by
      rw [pathParts, List.mem_filter]
      exact ⟨hn, by simpa using hempty⟩
    rw [← components_eq_pathParts habs, components_absPath_append (fun m hm => (hst m hm).1)
      hr] at hmem
    exact (hst n hmem).2

theorem not_infix_clean (hst : ∀ n ∈ st, IsClean n) (hr : r = [] ∨ r = [slash]) :
    ¬[slash, slash] <:+: absPath st ++ r := by
  have hwith := not_infix_absPath fun n hn => (hst n hn).1
  rcases hr with rfl | rfl
  · rw [List.append_nil]
    exact fun hc => hwith (hc.trans (List.prefix_append _ _).isInfix)
  · exact hwith

/-- **What `abs_path_cleanup` leaves** of a path, in a buffer that was `s` and is `s'`. -/
structure CleanInPlace (s s' : ℕ → UInt8) (path l : List UInt8) : Prop where
  holds : Holds s' l
  length_le : l.length ≤ path.length
  noDouble : ¬[slash, slash] <:+: l
  noDots : ∀ n ∈ l.splitOn slash, n ≠ [dot] ∧ n ≠ [dot, dot]
  /-- Nothing is written behind the path and its `NUL`, -/
  frame : ∀ i, path.length < i → s' i = s i
  /-- and nothing is read there. -/
  inside : ∀ g, Returns (fun n => absPathCleanup n (patch path.length s g)) (patch path.length s' g)
  /-- A second time there is nothing to do. -/
  again : Returns (fun n => absPathCleanup n s') s'

/-- **`abs_path_cleanup` cleans up every absolute path in place.** -/
theorem absPathCleanup_inPlace (h : Holds s path) (habs : path.head? = some slash) :
    ∃ s' l, Returns (fun n => absPathCleanup n s) s' ∧ CleanInPlace s s' path l := by
  obtain ⟨s', hrun, hs'⟩ := absPathCleanup_spec h habs (Nat.lt_succ_self path.length)
  have hst : ∀ n ∈ (components path).foldl cleanupStep [], IsClean n :=
    isClean_foldl_cleanupStep (List.forall_mem_nil IsClean) (isName_components habs)
  have hpatch : ∀ g, absPathCleanup (path.length + 1) (patch path.length s g) =
      some (patch path.length s' g) := by
    intro g
    rw [absPathCleanup, cleanupLoop_patch h (Nat.zero_le _) le_rfl]
    exact congrArg (Option.map (patch path.length · g)) hrun
  refine ⟨s', _, (absPathCleanup_mono s).returns hrun, hs', length_cleanedUp habs,
    not_infix_clean hst (trail_eq_or path), splitOn_clean hst (trail_eq_or path), ?_,
    fun g => (absPathCleanup_mono _).returns (hpatch g), ?_⟩
  · intro i hi
    have hself := hpatch s
    rw [patch_self, hrun] at hself
    have hbehind : patch path.length s' s i = s i := if_neg (Nat.not_le.mpr hi)
    rw [← hbehind]
    exact congrFun (Option.some.inj hself) i
  · exact (absPathCleanup_mono s').returns
      (cleanupLoop_clean [] hs' hst (trail_eq_or path) (Nat.lt_succ_self _))

/-- `/usr//.` becomes `/usr`, in a buffer that goes on. -/
theorem absPathCleanup_inPlace_usr : ∃ s' l,
    CleanInPlace (chars [47, 117, 115, 114, 47, 47, 46]) s' [47, 117, 115, 114, 47, 47, 46] l := by
  have hholds : Holds (chars [47, 117, 115, 114, 47, 47, 46]) [47, 117, 115, 114, 47, 47, 46] :=
    holds_chars (by decide)
  obtain ⟨s', l, -, hclean⟩ := absPathCleanup_inPlace hholds rfl
  exact ⟨s', l, hclean⟩

end Clean

end Xana
