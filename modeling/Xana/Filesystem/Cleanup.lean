import Mathlib.Data.List.GetD
import Mathlib.Data.List.Induction
import Mathlib.Data.List.TakeWhile
import Xana.Filesystem.Path

/-!
# Cleaning up a path

`abs_path_cleanup` of `filesystem.c`. It works in the given buffer: the cursor
`path` is an index, and what is removed is moved over by `memmove`.

At a slash, or at the end of the string, the characters in front of the cursor are
the absolute path of the components that have been kept (`Xana.absPath`), and one
round deals with the component behind the slash (`Xana.cleanupLoop_spec`). So the
loop is a fold over the components. It is not quite the one that it should be: a
`..` that meets one component only does not remove it (`Xana.cleanupStep`).
-/

namespace Xana

/-- `'.'`. -/
def dot : UInt8 := 46

/-- The search for the previous slash, from `prev_slash` on: it stops at the start
of the path. -/
def prevSlash (s : ℕ → UInt8) : ℕ → ℕ
  | 0 => 0
  | p + 1 => if s (p + 1) ≠ slash then prevSlash s p else p + 1

/-- The loop of `abs_path_cleanup`, in at most `n` rounds. -/
def cleanupLoop : ℕ → (ℕ → UInt8) → ℕ → Option (ℕ → UInt8)
  | 0, _, _ => none
  | n + 1, s, path =>
      if s path ≠ 0 then
        if s path = slash ∧ s (path + 1) = slash then do
          let len ← strlen n fun i => s (path + 1 + i)
          cleanupLoop n (memmove s path (path + 1) (len + 1)) path
        else if s path = slash ∧ s (path + 1) = dot ∧ s (path + 2) = dot ∧
            (s (path + 3) = slash ∨ s (path + 3) = 0) then do
          let len ← strlen n fun i => s (path + 3 + i)
          if path = 0 then cleanupLoop n (memmove s path (path + 3) (len + 1)) path
          else
            let prev := prevSlash s (path - 1)
            if prev = 0 then cleanupLoop n (memmove s path (path + 3) (len + 1)) path
            else cleanupLoop n (memmove s prev (path + 3) (len + 1)) prev
        else if s path = slash ∧ s (path + 1) = dot ∧
            (s (path + 2) = slash ∨ s (path + 2) = 0) then do
          let len ← strlen n fun i => s (path + 2 + i)
          cleanupLoop n (memmove s path (path + 2) (len + 1)) path
        else cleanupLoop n s (path + 1)
      else some s

theorem cleanupLoop_of_eq_zero {n path : ℕ} {s : ℕ → UInt8} (h : s path = 0) :
    cleanupLoop (n + 1) s path = some s := by
  rw [cleanupLoop, if_neg (not_not.mpr h)]

/-- `abs_path_cleanup`. -/
def absPathCleanup (n : ℕ) (path : ℕ → UInt8) : Option (ℕ → UInt8) := cleanupLoop n path 0

/-! ### The lexical normal form -/

/-- One component, as it should be dealt with: an empty one and `.` are dropped,
and `..` removes the component before it, if there is one. -/
def lexicalStep (comps : List (List UInt8)) (n : List UInt8) : List (List UInt8) :=
  if n = [] ∨ n = [dot] then comps else if n = [dot, dot] then comps.dropLast else comps ++ [n]

/-- **The lexical normal form** of a list of components. -/
def normalForm (comps : List (List UInt8)) : List (List UInt8) := comps.foldl lexicalStep []

/-- One component, as `abs_path_cleanup` deals with it: `..` does not remove the
first component. -/
def cleanupStep (comps : List (List UInt8)) (n : List UInt8) : List (List UInt8) :=
  if n = [dot] then comps
  else if n = [dot, dot] then (if comps.length ≤ 1 then comps else comps.dropLast)
  else comps ++ [n]

/-- No `..` meets exactly one component. -/
def NoLoneParent (comps : List (List UInt8)) : Prop :=
  ∀ l, l ++ [[dot, dot]] <+: comps → (normalForm l).length ≠ 1

section NormalForm

variable {comps l : List (List UInt8)} {n : List UInt8}

theorem normalForm_concat (l : List (List UInt8)) (n : List UInt8) :
    normalForm (l ++ [n]) = lexicalStep (normalForm l) n := by
  rw [normalForm, List.foldl_append]
  rfl

theorem noLoneParent_nil : NoLoneParent [] := by
  rintro l h
  simp at h

theorem noLoneParent_concat :
    NoLoneParent (l ++ [n]) ↔ NoLoneParent l ∧ (n = [dot, dot] → (normalForm l).length ≠ 1) := by
  constructor
  · intro h
    refine ⟨fun a ha => h a (ha.trans (List.prefix_append ..)), ?_⟩
    rintro rfl
    exact h l (List.prefix_refl _)
  · rintro ⟨h, hn⟩ a ha
    rcases List.prefix_concat_iff.mp ha with heq | hpre
    · obtain ⟨rfl, hlast⟩ := List.append_inj' heq rfl
      exact hn (List.singleton_inj.mp hlast).symm
    · exact h a hpre

/-- **The two folds**: they agree as long as no `..` meets exactly one component;
then the first component stays in front for ever. -/
theorem foldl_cleanupStep (hl : ∀ n ∈ l, n ≠ []) :
    (NoLoneParent l → l.foldl cleanupStep [] = normalForm l) ∧
      (¬NoLoneParent l → ∃ c, l.foldl cleanupStep [] = c :: normalForm l) := by
  induction l using List.reverseRecOn with
  | nil => exact ⟨fun _ => rfl, fun h => absurd noLoneParent_nil h⟩
  | append_singleton l n ih =>
    obtain ⟨ihgood, ihbad⟩ := ih fun m hm => hl m (List.mem_append_left _ hm)
    have hn : n ≠ [] := hl n (by simp)
    rw [noLoneParent_concat, List.foldl_append, normalForm_concat]
    change (_ → cleanupStep (l.foldl cleanupStep []) n = _) ∧
      (_ → ∃ c, cleanupStep (l.foldl cleanupStep []) n = _)
    by_cases hgood : NoLoneParent l
    · rw [ihgood hgood]
      simp only [cleanupStep, lexicalStep, hn, false_or]
      split_ifs with h1 h2 h3
      · simp [hgood, h1, dot]
      · -- nothing to remove, or the one component that stays
        subst h2
        constructor
        · rintro ⟨-, hne⟩
          have hzero : (normalForm l).length = 0 := by
            have hne' := hne rfl
            omega
          rw [List.length_eq_zero_iff.mp hzero]
          rfl
        · intro hbad
          have hone : (normalForm l).length = 1 := by
            by_contra hc
            exact hbad ⟨hgood, fun _ => hc⟩
          obtain ⟨c, hc⟩ := List.length_eq_one_iff.mp hone
          exact ⟨c, by simp [hc]⟩
      · exact ⟨fun _ => rfl, fun hbad => absurd ⟨hgood, fun _ => by omega⟩ hbad⟩
      · exact ⟨fun _ => rfl, fun hbad => absurd ⟨hgood, fun hc => absurd hc h2⟩ hbad⟩
    · obtain ⟨c, hc⟩ := ihbad hgood
      refine ⟨fun h => absurd h.1 hgood, fun _ => ⟨c, ?_⟩⟩
      rw [hc]
      simp only [cleanupStep, lexicalStep, hn, false_or]
      split_ifs with h1 h2 h3
      · rfl
      · have hzero : (normalForm l).length = 0 := by
          rw [List.length_cons] at h3
          omega
        rw [List.length_eq_zero_iff.mp hzero]
        rfl
      · have hne : normalForm l ≠ [] := by
          intro hnil
          simp [hnil] at h3
        exact List.dropLast_cons_of_ne_nil hne
      · rfl

theorem foldl_cleanupStep_eq_iff (hl : ∀ n ∈ l, n ≠ []) :
    l.foldl cleanupStep [] = normalForm l ↔ NoLoneParent l := by
  obtain ⟨hgood, hbad⟩ := foldl_cleanupStep hl
  refine ⟨fun heq => ?_, hgood⟩
  by_contra hc
  obtain ⟨c, hcons⟩ := hbad hc
  exact List.cons_ne_self c (normalForm l) (hcons.symm.trans heq)

end NormalForm

/-! ### One round -/

/-- A name that stays in a path that has been cleaned up. -/
def IsClean (n : List UInt8) : Prop := IsName n ∧ n ≠ [dot] ∧ n ≠ [dot, dot]

section Round

variable {s : ℕ → UInt8} {a n r : List UInt8} {k d : ℕ}

theorem prevSlash_eq (hd : d = 0 ∨ s d = slash) (hk : ∀ j < k, s (d + 1 + j) ≠ slash) :
    prevSlash s (d + k) = d := by
  induction k with
  | zero =>
    cases d with
    | zero => rfl
    | succ d => exact if_neg (not_not.mpr (hd.resolve_left (Nat.succ_ne_zero d)))
  | succ k ih =>
    have hlast : s (d + k + 1) ≠ slash := by
      have hk' := hk k (Nat.lt_succ_self k)
      rwa [add_right_comm] at hk'
    rw [← add_assoc, prevSlash, if_pos hlast, ih fun j hj => hk j (Nat.lt_succ_of_lt hj)]

/-- The characters behind a slash, as the loop looks at them. -/
structure AtSlash (s : ℕ → UInt8) (a n r : List UInt8) : Prop where
  holds : Holds s (a ++ slash :: (n ++ r))
  slash_notMem : slash ∉ n
  rest : r = [] ∨ r.head? = some slash

theorem AtSlash.apply (h : AtSlash s a n r) (hk : k ≤ n.length + r.length) :
    s (a.length + (k + 1)) = (n ++ r).getD k 0 := by
  have hs := h.holds.drop.apply (i := k + 1) (by simpa using hk)
  rwa [List.getD_cons_succ] at hs

theorem AtSlash.slash (h : AtSlash s a n r) : s a.length = Xana.slash :=
  h.holds.drop.apply (Nat.zero_le _)

theorem AtSlash.ne_zero (h : AtSlash s a n r) : s a.length ≠ 0 := by
  rw [h.slash]
  decide

/-- What stands behind the component. -/
theorem AtSlash.behind (h : AtSlash s a n r) :
    s (a.length + (n.length + 1)) = if r = [] then 0 else Xana.slash := by
  rw [h.apply (Nat.le_add_right ..), List.getD_append_right _ _ _ _ le_rfl, Nat.sub_self]
  rcases h.rest with rfl | hr
  · rfl
  · cases r with
    | nil => simp at hr
    | cons c r => simpa using hr

theorem AtSlash.nonzero (h : AtSlash s a n r) : 0 ∉ n := by
  intro hc
  exact (holds_iff.mp h.holds).1 (by simp [hc])

/-- The test for two slashes. -/
theorem AtSlash.double_iff (h : AtSlash s a n r) :
    s (a.length + 1) = Xana.slash ↔ n = [] ∧ r ≠ [] := by
  cases n with
  | nil =>
    have hbehind := h.behind
    rw [List.length_nil, zero_add] at hbehind
    rw [hbehind]
    by_cases hr : r = []
    · simp [hr, Xana.slash]
    · simp [hr]
  | cons c n =>
    have hc : s (a.length + 1) = c := h.apply (k := 0) (Nat.zero_le _)
    refine iff_of_false (fun heq => h.slash_notMem ?_) (by simp)
    rw [← heq, hc]
    exact List.mem_cons_self

theorem AtSlash.name_apply (h : AtSlash s a n r) (hk : k < n.length) :
    s (a.length + (k + 1)) = n[k] := by
  rw [h.apply (by omega), List.getD_append _ _ _ _ hk, List.getD_eq_getElem _ _ hk]

/-- A character of the name is no slash, and the string goes on. -/
theorem AtSlash.name_ne (h : AtSlash s a n r) (hk : k < n.length) :
    ¬(s (a.length + (k + 1)) = Xana.slash ∨ s (a.length + (k + 1)) = 0) := by
  rw [h.name_apply hk]
  rintro (hc | hc)
  · exact h.slash_notMem (hc ▸ List.getElem_mem hk)
  · exact h.nonzero (hc ▸ List.getElem_mem hk)

theorem AtSlash.behind_eq (h : AtSlash s a n r) :
    s (a.length + (n.length + 1)) = Xana.slash ∨ s (a.length + (n.length + 1)) = 0 := by
  rw [h.behind]
  split_ifs
  · exact Or.inr rfl
  · exact Or.inl rfl

theorem AtSlash.behind_ne (h : AtSlash s a n r) : s (a.length + (n.length + 1)) ≠ dot := by
  rcases h.behind_eq with hc | hc <;> rw [hc] <;> decide

/-- The test for `..`. -/
theorem AtSlash.dotdot_iff (h : AtSlash s a n r) :
    (s (a.length + 1) = dot ∧ s (a.length + 2) = dot ∧
      (s (a.length + 3) = Xana.slash ∨ s (a.length + 3) = 0)) ↔ n = [dot, dot] := by
  constructor
  · rintro ⟨h1, h2, h3⟩
    rcases n with _ | ⟨c, _ | ⟨c', _ | ⟨c'', n⟩⟩⟩
    · exact absurd h1 h.behind_ne
    · exact absurd h2 h.behind_ne
    · have hc : s (a.length + 1) = c := h.name_apply (k := 0) (by simp)
      have hc' : s (a.length + 2) = c' := h.name_apply (k := 1) (by simp)
      rw [← hc, ← hc', h1, h2]
    · -- a third character of the name
      exact absurd h3 (h.name_ne (k := 2) (by simp))
  · rintro rfl
    exact ⟨h.name_apply (k := 0) (by simp), h.name_apply (k := 1) (by simp), h.behind_eq⟩

/-- The test for `.`. -/
theorem AtSlash.dot_iff (h : AtSlash s a n r) :
    (s (a.length + 1) = dot ∧ (s (a.length + 2) = Xana.slash ∨ s (a.length + 2) = 0)) ↔
      n = [dot] := by
  constructor
  · rintro ⟨h1, h2⟩
    rcases n with _ | ⟨c, _ | ⟨c', n⟩⟩
    · exact absurd h1 h.behind_ne
    · have hc : s (a.length + 1) = c := h.name_apply (k := 0) (by simp)
      rw [← hc, h1]
    · exact absurd h2 (h.name_ne (k := 1) (by simp))
  · rintro rfl
    exact ⟨h.name_apply (k := 0) (by simp), h.behind_eq⟩

/-- A part of the string is moved over: what `strlen` counts, and what `memmove`
leaves. -/
theorem remove_spec {b : List UInt8} (h : Holds s (a ++ (b ++ r))) (hk : r.length < k) :
    strlen k (fun i => s (a.length + b.length + i)) = some r.length ∧
      Holds (memmove s a.length (a.length + b.length) (r.length + 1)) (a ++ r) := by
  refine ⟨?_, holds_memmove h⟩
  rw [← List.append_assoc] at h
  have hdrop := h.drop
  rw [List.length_append] at hdrop
  exact strlen_eq hdrop hk

/-- The cursor goes through a name. -/
theorem cleanupLoop_skip (h : Holds s (a ++ (n ++ r))) (hn : slash ∉ n) :
    cleanupLoop (k + n.length) s a.length = cleanupLoop k s (a.length + n.length) := by
  induction n generalizing a with
  | nil => rfl
  | cons c n ih =>
    rw [List.mem_cons, not_or] at hn
    have hc : s a.length = c := h.drop.apply (Nat.zero_le _)
    have h0 : c ≠ 0 := fun h0 => (holds_iff.mp h).1 (by simp [h0])
    have hne : s a.length ≠ slash := hc ▸ Ne.symm hn.1
    have hrest : Holds s (a ++ [c] ++ (n ++ r)) := by simpa using h
    have hlen : (a ++ [c]).length = a.length + 1 := by simp
    have hnext := ih hrest hn.2
    rw [hlen] at hnext
    rw [List.length_cons, ← add_assoc, cleanupLoop, if_pos (hc ▸ h0),
      if_neg fun hcon => hne hcon.1, if_neg fun hcon => hne hcon.1, if_neg fun hcon => hne hcon.1,
      hnext, add_assoc, add_comm 1]

/-- The end of the string. -/
theorem cleanupLoop_end (h : Holds s a) : cleanupLoop (k + 1) s a.length = some s := by
  have hs := h.apply le_rfl
  rw [List.getD_eq_default _ _ le_rfl] at hs
  exact cleanupLoop_of_eq_zero hs

/-- Two slashes: the first is removed. -/
theorem cleanupLoop_double (h : AtSlash s a [] r) (hr : r ≠ []) (hk : r.length < k) :
    ∃ s', cleanupLoop (k + 1) s a.length = cleanupLoop k s' a.length ∧ Holds s' (a ++ r) := by
  obtain ⟨hlen, hmove⟩ := remove_spec (b := [slash]) h.holds hk
  refine ⟨_, ?_, hmove⟩
  rw [cleanupLoop, if_pos h.ne_zero, if_pos ⟨h.slash, h.double_iff.mpr ⟨rfl, hr⟩⟩]
  rw [List.length_singleton] at hlen
  rw [hlen]
  rfl

/-- `.`: it is removed, with the slash in front. -/
theorem cleanupLoop_dot (h : AtSlash s a [dot] r) (hk : r.length < k) :
    ∃ s', cleanupLoop (k + 1) s a.length = cleanupLoop k s' a.length ∧ Holds s' (a ++ r) := by
  obtain ⟨hlen, hmove⟩ := remove_spec (b := [slash, dot]) h.holds hk
  refine ⟨_, ?_, hmove⟩
  have h1 : ¬(s a.length = slash ∧ s (a.length + 1) = slash) := by
    rw [h.double_iff]
    simp
  have h2 : ¬(s a.length = slash ∧ s (a.length + 1) = dot ∧ s (a.length + 2) = dot ∧
      (s (a.length + 3) = slash ∨ s (a.length + 3) = 0)) := by
    rw [h.dotdot_iff]
    simp
  rw [cleanupLoop, if_pos h.ne_zero, if_neg h1, if_neg h2, if_pos ⟨h.slash, h.dot_iff.mpr rfl⟩]
  change (strlen k fun i => s (a.length + [slash, dot].length + i)).bind _ = _
  rw [hlen]
  rfl

/-- `..` when at most one component has been kept: it is removed itself. -/
theorem cleanupLoop_dotdot_root (h : AtSlash s a [dot, dot] r) (hk : r.length < k)
    (ha : a.length = 0 ∨ prevSlash s (a.length - 1) = 0) :
    ∃ s', cleanupLoop (k + 1) s a.length = cleanupLoop k s' a.length ∧ Holds s' (a ++ r) := by
  obtain ⟨hlen, hmove⟩ := remove_spec (b := [slash, dot, dot]) h.holds hk
  refine ⟨_, ?_, hmove⟩
  have h1 : ¬(s a.length = slash ∧ s (a.length + 1) = slash) := by
    rw [h.double_iff]
    simp
  rw [cleanupLoop, if_pos h.ne_zero, if_neg h1, if_pos ⟨h.slash, h.dotdot_iff.mpr rfl⟩]
  change (strlen k fun i => s (a.length + [slash, dot, dot].length + i)).bind _ = _
  rw [hlen, Option.bind_some]
  by_cases h0 : a.length = 0
  · rw [if_pos h0]
    rfl
  · rw [if_neg h0]
    exact if_pos (ha.resolve_left h0)

/-- `..` when there are more: the cursor goes back to the slash in front of the
last one. -/
theorem cleanupLoop_dotdot {b m : List UInt8} (h : AtSlash s (b ++ slash :: m) [dot, dot] r)
    (hb : b ≠ []) (hm : IsName m) (hk : r.length < k) :
    ∃ s', cleanupLoop (k + 1) s (b ++ slash :: m).length = cleanupLoop k s' b.length ∧
      Holds s' (b ++ r) := by
  have hholds : Holds s (b ++ (slash :: m ++ [slash, dot, dot] ++ r)) := by
    simpa using h.holds
  obtain ⟨hlen, hmove⟩ := remove_spec hholds hk
  refine ⟨_, ?_, hmove⟩
  have hpath :
      (b ++ slash :: m).length + 3 = b.length + (slash :: m ++ [slash, dot, dot]).length := by
    simp
    omega
  have hprev : prevSlash s ((b ++ slash :: m).length - 1) = b.length := by
    have hsub : (b ++ slash :: m).length - 1 = b.length + m.length := by simp
    have hat : AtSlash s b m (slash :: ([dot, dot] ++ r)) := by
      refine ⟨by simpa using hholds, hm.2, Or.inr rfl⟩
    rw [hsub]
    refine prevSlash_eq (Or.inr hat.slash) fun j hj heq => hat.name_ne hj (Or.inl ?_)
    rwa [add_assoc, add_comm 1 j] at heq
  have h1 : ¬(s (b ++ slash :: m).length = slash ∧ s ((b ++ slash :: m).length + 1) = slash) := by
    rw [h.double_iff]
    simp
  have hb0 : b.length ≠ 0 := fun hc => hb (List.length_eq_zero_iff.mp hc)
  rw [cleanupLoop, if_pos h.ne_zero, if_neg h1, if_pos ⟨h.slash, h.dotdot_iff.mpr rfl⟩, hpath, hlen]
  simp only [Option.bind_eq_bind, Option.bind_some]
  rw [if_neg (by simp), hprev, if_neg hb0]

/-- Any other name: the cursor goes on. -/
theorem cleanupLoop_name (h : AtSlash s a n r) (hn : n ≠ [] ∨ r = []) (h1 : n ≠ [dot])
    (h2 : n ≠ [dot, dot]) :
    cleanupLoop (k + n.length + 1) s a.length = cleanupLoop k s (a ++ slash :: n).length := by
  have hdouble : ¬(s a.length = slash ∧ s (a.length + 1) = slash) := by
    rw [h.double_iff]
    tauto
  have hdotdot : ¬(s a.length = slash ∧ s (a.length + 1) = dot ∧ s (a.length + 2) = dot ∧
      (s (a.length + 3) = slash ∨ s (a.length + 3) = 0)) := by
    rw [h.dotdot_iff]
    exact fun hc => h2 hc.2
  have hdot : ¬(s a.length = slash ∧ s (a.length + 1) = dot ∧
      (s (a.length + 2) = slash ∨ s (a.length + 2) = 0)) := by
    rw [h.dot_iff]
    exact fun hc => h1 hc.2
  have hrest : Holds s (a ++ [slash] ++ (n ++ r)) := by simpa using h.holds
  have hskip := cleanupLoop_skip (k := k) hrest h.slash_notMem
  have hlen : (a ++ [slash]).length = a.length + 1 := by simp
  have hlen' : (a ++ slash :: n).length = a.length + 1 + n.length := by
    simp
    omega
  rw [hlen] at hskip
  rw [cleanupLoop, if_pos h.ne_zero, if_neg hdouble, if_neg hdotdot, if_neg hdot, hskip, hlen']

theorem cleanupLoop_mono (s : ℕ → UInt8) (path : ℕ) : MonoRounds fun n => cleanupLoop n s path := by
  intro n
  induction n generalizing s path with
  | zero => simp [cleanupLoop]
  | succ n ih =>
    intro s' h
    change cleanupLoop (n + 1) s path = some s' at h
    change cleanupLoop (n + 1 + 1) s path = some s'
    have hbind : ∀ {f : ℕ → UInt8} {g : ℕ → ℕ → UInt8} {p : ℕ},
        ((strlen n f).bind fun len => cleanupLoop n (g len) p) = some s' →
          ((strlen (n + 1) f).bind fun len => cleanupLoop (n + 1) (g len) p) = some s' := by
      intro f g p hf
      obtain ⟨len, hlen, hf⟩ := Option.bind_eq_some_iff.mp hf
      exact Option.bind_eq_some_iff.mpr ⟨len, strlen_mono f n len hlen, ih _ _ s' hf⟩
    rw [cleanupLoop] at h ⊢
    simp only [Option.bind_eq_bind] at h ⊢
    split_ifs at h ⊢ with h0 h1 h2 h3 h4
    · exact hbind h
    · exact hbind h
    · exact hbind h
    · exact hbind h
    · exact hbind h
    · exact ih s (path + 1) s' h
    · exact h

theorem absPathCleanup_mono (path : ℕ → UInt8) : MonoRounds fun n => absPathCleanup n path :=
  cleanupLoop_mono path 0

end Round

/-! ### The whole loop -/

/-- The slash at the end, if there is one. -/
def trail (path : List UInt8) : List UInt8 :=
  if path.getLast? = some slash then [slash] else []

section Loop

variable {s : ℕ → UInt8} {n r path : List UInt8} {st : List (List UInt8)} {k : ℕ}

/-- What stands behind a slash: a name, which may be empty, and the next slash. -/
theorem exists_name (path : List UInt8) :
    ∃ n r, path = n ++ r ∧ slash ∉ n ∧ (r = [] ∨ r.head? = some slash) := by
  induction path with
  | nil => exact ⟨[], [], rfl, by simp, Or.inl rfl⟩
  | cons c path ih =>
    by_cases hc : c = slash
    · exact ⟨[], c :: path, rfl, by simp, Or.inr (by simp [hc])⟩
    · obtain ⟨n, r, rfl, hn, hr⟩ := ih
      exact ⟨c :: n, r, rfl, by simp [hn, Ne.symm hc], hr⟩

theorem componentsFrom_slash (hr : r = [] ∨ r.head? = some slash) :
    componentsFrom (slash :: r) = componentsFrom r := by
  rw [componentsFrom, if_neg]
  rintro ⟨-, hne, hhead⟩
  rcases hr with rfl | hr
  · exact hne rfl
  · exact hhead hr

theorem trail_append (hr : r ≠ []) : trail (n ++ r) = trail r := by
  rw [trail, trail, List.getLast?_append_of_ne_nil _ hr]

theorem trail_of_notMem (hn : slash ∉ n) : trail n = [] := by
  refine if_neg fun hc => hn ?_
  exact List.mem_of_getLast? hc

theorem trail_name (hne : n ≠ []) (hn : slash ∉ n) : trail (slash :: (n ++ r)) = trail r := by
  by_cases hr : r = []
  · subst hr
    have hcons : slash :: (n ++ []) = [slash] ++ n := by simp
    rw [hcons, trail_append hne, trail_of_notMem hn]
    rfl
  · have hcons : slash :: (n ++ r) = slash :: n ++ r := rfl
    rw [hcons, trail_append hr]

theorem absPath_concat (st : List (List UInt8)) (n : List UInt8) :
    absPath (st ++ [n]) = absPath st ++ slash :: n := by
  simp [absPath]

/-- `..`, whatever has been kept. -/
theorem cleanupLoop_parent (h : AtSlash s (absPath st) [dot, dot] r) (hst : ∀ n ∈ st, IsName n)
    (hk : r.length < k) :
    ∃ s', cleanupLoop (k + 1) s (absPath st).length =
        cleanupLoop k s' (absPath (cleanupStep st [dot, dot])).length ∧
      Holds s' (absPath (cleanupStep st [dot, dot]) ++ r) := by
  have hstep : cleanupStep st [dot, dot] = if st.length ≤ 1 then st else st.dropLast :=
    (if_neg (by simp)).trans (if_pos rfl)
  rw [hstep]
  rcases List.eq_nil_or_concat' st with rfl | ⟨st, m, rfl⟩
  · exact cleanupLoop_dotdot_root h hk (Or.inl rfl)
  · have hm : IsName m := hst m (by simp)
    by_cases hone : st = []
    · -- one component: it stays
      subst hone
      rw [if_pos (by simp)]
      refine cleanupLoop_dotdot_root h hk (Or.inr ?_)
      have hsub : (absPath ([] ++ [m])).length - 1 = 0 + m.length := by simp [absPath]
      have hat : AtSlash s [] m (slash :: ([dot, dot] ++ r)) :=
        ⟨by simpa [absPath] using h.holds, hm.2, Or.inr rfl⟩
      rw [hsub]
      refine prevSlash_eq (Or.inl rfl) fun j hj heq => hat.name_ne hj (Or.inl ?_)
      rwa [add_assoc, add_comm 1 j] at heq
    · have hne : absPath st ≠ [] := by
        obtain ⟨c, st, rfl⟩ := List.exists_cons_of_ne_nil hone
        simp [absPath]
      have hlong : ¬(st ++ [m]).length ≤ 1 := by
        have hpos := List.length_pos_iff.mpr hone
        rw [List.length_append, List.length_singleton]
        omega
      rw [absPath_concat] at h ⊢
      rw [if_neg hlong, List.dropLast_concat]
      exact cleanupLoop_dotdot h hne hm hk

/-- **One round at a name**: the component behind the slash is dealt with, and the
cursor is behind what has been kept. -/
theorem cleanupLoop_round (h : AtSlash s (absPath st) n r) (hst : ∀ n ∈ st, IsName n)
    (hn : n ≠ []) (hk : n.length + r.length < k) :
    ∃ s' k', cleanupLoop (k + 1) s (absPath st).length =
        cleanupLoop k' s' (absPath (cleanupStep st n)).length ∧
      Holds s' (absPath (cleanupStep st n) ++ r) ∧ r.length < k' := by
  by_cases h1 : n = [dot]
  · subst h1
    have hstep : cleanupStep st [dot] = st := if_pos rfl
    obtain ⟨s₁, hround, hs₁⟩ := cleanupLoop_dot (k := k) h (by omega)
    rw [hstep]
    exact ⟨s₁, k, hround, hs₁, by omega⟩
  · by_cases h2 : n = [dot, dot]
    · subst h2
      obtain ⟨s₁, hround, hs₁⟩ := cleanupLoop_parent (k := k) h hst (by omega)
      exact ⟨s₁, k, hround, hs₁, by omega⟩
    · obtain ⟨k, rfl⟩ := Nat.exists_eq_add_of_le' (show n.length ≤ k by omega)
      have hstep : cleanupStep st n = st ++ [n] := (if_neg h1).trans (if_neg h2)
      have hround := cleanupLoop_name (k := k) h (Or.inl hn) h1 h2
      rw [hstep, absPath_concat]
      exact ⟨s, k, hround, by simpa using h.holds, by omega⟩

theorem isName_cleanupStep (hst : ∀ c ∈ st, IsName c) (hn : IsName n) :
    ∀ c ∈ cleanupStep st n, IsName c := by
  intro c hc
  rw [cleanupStep] at hc
  split_ifs at hc
  · exact hst c hc
  · exact hst c hc
  · exact hst c ((List.dropLast_sublist st).subset hc)
  · rcases List.mem_append.mp hc with hc | hc
    · exact hst c hc
    · rwa [List.mem_singleton.mp hc]

/-- **The loop of `abs_path_cleanup`**, from behind the components that have been
kept: it is the fold over the others. -/
theorem cleanupLoop_spec (h : Holds s (absPath st ++ path))
    (hpath : path = [] ∨ path.head? = some slash) (hst : ∀ n ∈ st, IsName n)
    (hk : path.length < k) :
    ∃ s', cleanupLoop k s (absPath st).length = some s' ∧
      Holds s' (absPath ((componentsFrom path).foldl cleanupStep st) ++ trail path) := by
  induction hlen : path.length using Nat.strong_induction_on generalizing path st s k with
  | _ len ih =>
    obtain ⟨k, rfl⟩ := Nat.exists_eq_succ_of_ne_zero (Nat.ne_zero_of_lt hk)
    rcases hpath with rfl | hhead
    · rw [List.append_nil] at h
      exact ⟨s, cleanupLoop_end h, by simpa [componentsFrom, trail] using h⟩
    · obtain ⟨path, rfl⟩ : ∃ path', path = slash :: path' := by
        cases path with
        | nil => simp at hhead
        | cons c path => exact ⟨path, by simpa using hhead⟩
      obtain ⟨n, r, rfl, hn, hr⟩ := exists_name path
      have hat : AtSlash s (absPath st) n r := ⟨h, hn, hr⟩
      simp only [List.length_cons, List.length_append] at hk hlen
      by_cases hempty : n = []
      · subst hempty
        rw [List.nil_append, componentsFrom_slash hr]
        by_cases hend : r = []
        · -- the slash at the end
          subst hend
          obtain ⟨k, rfl⟩ := Nat.exists_eq_succ_of_ne_zero (n := k) (by omega)
          have hround := cleanupLoop_name (k := k + 1) hat (Or.inr rfl) (by simp) (by simp)
          exact ⟨s, hround.trans (cleanupLoop_end h), h⟩
        · obtain ⟨s₁, hround, hs₁⟩ := cleanupLoop_double (k := k) hat hend (by omega)
          rw [hround, ← List.singleton_append, trail_append hend]
          exact ih r.length (by omega) hs₁ hr hst (by omega) rfl
      · have hname : IsName n := ⟨hempty, hn⟩
        obtain ⟨s₁, k₁, hround, hs₁, hk₁⟩ := cleanupLoop_round (k := k) hat hst hempty (by omega)
        rw [componentsFrom_slash_append hname hr, trail_name hempty hn, List.foldl_cons, hround]
        exact ih r.length (by omega) hs₁ hr (isName_cleanupStep hst hname) hk₁ rfl

theorem isName_componentsFrom (path : List UInt8) : ∀ n ∈ componentsFrom path, IsName n := by
  induction path with
  | nil => simp [componentsFrom]
  | cons c path ih =>
    rw [componentsFrom]
    split_ifs with hc
    · obtain ⟨-, hne, hhead⟩ := hc
      rintro n hn
      rcases List.mem_cons.mp hn with rfl | hn
      · cases path with
        | nil => exact absurd rfl hne
        | cons c' path =>
          have hc' : c' ≠ slash := by simpa using hhead
          refine ⟨by simp [hc'], fun hmem => ?_⟩
          simpa using List.mem_takeWhile_imp hmem
      · exact ih n hn
    · exact ih

theorem isName_components (h : path.head? = some slash) : ∀ n ∈ components path, IsName n := by
  rw [components_of_abs h]
  exact isName_componentsFrom path

/-- A path with the components it was made of, and perhaps a slash at the end. -/
theorem components_absPath_append (hst : ∀ n ∈ st, IsName n) (hr : r = [] ∨ r = [slash]) :
    components (absPath st ++ r) = st := by
  have hr' : r = [] ∨ r.head? = some slash := by
    rcases hr with rfl | rfl
    · exact Or.inl rfl
    · exact Or.inr rfl
  have hfrom : ∀ st : List (List UInt8), (∀ n ∈ st, IsName n) →
      componentsFrom (absPath st ++ r) = st := by
    intro st hst
    induction st with
    | nil =>
      rcases hr with rfl | rfl
      · rfl
      · simp [absPath, componentsFrom]
    | cons n st ih =>
      have hsplit : absPath (n :: st) ++ r = slash :: (n ++ (absPath st ++ r)) := by simp [absPath]
      rw [hsplit, componentsFrom_slash_append (hst n List.mem_cons_self) ?_,
        ih fun m hm => hst m (List.mem_cons_of_mem n hm)]
      cases st with
      | nil => exact hr'
      | cons m st => exact Or.inr rfl
  cases st with
  | nil =>
    rcases hr with rfl | rfl
    · rfl
    · simp [absPath, components, componentsFrom]
  | cons n st => exact (components_of_abs rfl).trans (hfrom _ hst)

theorem isName_foldl_cleanupStep {l : List (List UInt8)} (hst : ∀ n ∈ st, IsName n)
    (hl : ∀ n ∈ l, IsName n) : ∀ n ∈ l.foldl cleanupStep st, IsName n := by
  induction l generalizing st with
  | nil => exact hst
  | cons m l ih =>
    exact ih (isName_cleanupStep hst (hl m List.mem_cons_self))
      fun n hn => hl n (List.mem_cons_of_mem m hn)

theorem trail_eq_or (path : List UInt8) : trail path = [] ∨ trail path = [slash] := by
  rw [trail]
  split_ifs
  · exact Or.inr rfl
  · exact Or.inl rfl

theorem length_absPath_cleanupStep (st : List (List UInt8)) (n : List UInt8) :
    (absPath (cleanupStep st n)).length ≤ (absPath st).length + (n.length + 1) := by
  rw [cleanupStep]
  split_ifs
  · exact Nat.le_add_right ..
  · exact Nat.le_add_right ..
  · rcases List.eq_nil_or_concat' st with rfl | ⟨st, m, rfl⟩
    · exact Nat.zero_le _
    · rw [List.dropLast_concat, absPath_concat, List.length_append]
      omega
  · rw [absPath_concat, List.length_append, List.length_cons]

theorem length_absPath_foldl (st l : List (List UInt8)) :
    (absPath (l.foldl cleanupStep st)).length ≤ (absPath st).length + (absPath l).length := by
  induction l generalizing st with
  | nil => exact Nat.le_add_right ..
  | cons n l ih =>
    have hstep := length_absPath_cleanupStep st n
    have hl := ih (cleanupStep st n)
    have hcons : (absPath (n :: l)).length = n.length + 1 + (absPath l).length := by
      simp [absPath]
      omega
    rw [List.foldl_cons]
    omega

theorem length_absPath_componentsFrom (path : List UInt8) :
    (absPath (componentsFrom path)).length + (trail path).length +
      (path.takeWhile (· ≠ slash)).length ≤ path.length := by
  induction path with
  | nil => simp [componentsFrom, absPath, trail]
  | cons c path ih =>
    by_cases hnil : path = []
    · subst hnil
      by_cases hc : c = slash <;> simp [componentsFrom, absPath, trail, hc]
    · have htrail : trail (c :: path) = trail path := trail_append (n := [c]) hnil
      rw [componentsFrom, htrail, List.length_cons]
      by_cases hc : c = slash
      · have htake : (c :: path).takeWhile (· ≠ slash) = [] := by simp [hc]
        rw [htake]
        split_ifs
        · simp only [absPath, List.flatMap_cons, List.length_append, List.length_cons,
            List.length_nil] at ih ⊢
          omega
        · simp only [List.length_nil]
          omega
      · have htake : (c :: path).takeWhile (· ≠ slash) = c :: path.takeWhile (· ≠ slash) := by
          simp [hc]
        rw [if_neg fun hcon => hc hcon.1, htake, List.length_cons]
        omega

/-- A path that has been cleaned up is not longer than before. -/
theorem length_cleanedUp (habs : path.head? = some slash) :
    (absPath ((components path).foldl cleanupStep []) ++ trail path).length ≤ path.length := by
  have hfold := length_absPath_foldl [] (components path)
  have hcomps := length_absPath_componentsFrom path
  have hnil : (absPath []).length = 0 := rfl
  rw [components_of_abs habs] at hfold ⊢
  rw [List.length_append]
  omega

/-- **`abs_path_cleanup` of an absolute path**: it returns, and leaves the
components that its fold keeps. -/
theorem absPathCleanup_spec (h : Holds s path) (habs : path.head? = some slash)
    (hk : path.length < k) :
    ∃ s', absPathCleanup k s = some s' ∧
      Holds s' (absPath ((components path).foldl cleanupStep []) ++ trail path) := by
  rw [components_of_abs habs]
  have hroot : Holds s (absPath [] ++ path) := h
  exact cleanupLoop_spec hroot (Or.inr habs) (by simp) hk

end Loop

/-- **What cleaning up is for**: `abs_path_cleanup` returns, and what it leaves is a
string with the components of the lexical normal form. -/
def CleanedUp (path : ℕ → UInt8) (l : List UInt8) : Prop :=
  ∃ path' l', Returns (fun n => absPathCleanup n path) path' ∧ Holds path' l' ∧
    components l' = normalForm (components l)

section CleanedUp

variable {path : ℕ → UInt8} {l : List UInt8}

/-- It does so when its fold gives the normal form. -/
theorem cleanedUp_iff_foldl (h : Holds path l) (habs : l.head? = some slash) :
    CleanedUp path l ↔ (components l).foldl cleanupStep [] = normalForm (components l) := by
  have hnames : ∀ n ∈ (components l).foldl cleanupStep [], IsName n := by
    exact isName_foldl_cleanupStep (by simp) (isName_components habs)
  have hcomps := components_absPath_append hnames (trail_eq_or l)
  obtain ⟨path₁, hrun, hholds⟩ := absPathCleanup_spec h habs (Nat.lt_succ_self _)
  have hreturns := (absPathCleanup_mono path).returns hrun
  constructor
  · rintro ⟨path', l', hreturns', hl', hnormal⟩
    obtain rfl : path' = path₁ := hreturns'.unique hreturns
    rw [← hnormal, hl'.unique hholds, hcomps]
  · intro hfold
    exact ⟨path₁, _, hreturns, hholds, hcomps.trans hfold⟩

/-- **When a path is cleaned up**: as long as no `..` meets exactly one component. -/
theorem cleanedUp_iff (h : Holds path l) (habs : l.head? = some slash) :
    CleanedUp path l ↔ NoLoneParent (components l) := by
  rw [cleanedUp_iff_foldl h habs]
  exact foldl_cleanupStep_eq_iff fun n hn => (isName_components habs n hn).1

/-- `/a/b/../c/`. -/
theorem cleanedUp_deep : CleanedUp (chars [47, 97, 47, 98, 47, 46, 46, 47, 99, 47])
    [47, 97, 47, 98, 47, 46, 46, 47, 99, 47] := by
  refine (cleanedUp_iff (holds_chars (by decide)) rfl).mpr ?_
  exact (foldl_cleanupStep_eq_iff (by decide)).mp (by decide)

/-- `/a/../b`: the first component stays. -/
theorem not_cleanedUp : ¬∀ path l, Holds path l → l.head? = some slash → CleanedUp path l := by
  intro hall
  have hholds : Holds (chars [47, 97, 47, 46, 46, 47, 98]) [47, 97, 47, 46, 46, 47, 98] :=
    holds_chars (by decide)
  have hfold := (cleanedUp_iff_foldl hholds rfl).mp (hall _ _ hholds rfl)
  revert hfold
  decide

end CleanedUp

end Xana
