import Xana.Syscall.Select

/-!
# What `kselect` counts

A pass of `kselect` should count the pairs of a descriptor and a class – reading, writing
or errors – such that the descriptor is in the set of the class and ready for it. The
pass goes along the table and counts the places; it tests a descriptor only at the place
that is its number, and there it tests the bits of `1 << i`, an `int`.

So a descriptor behind a gap of the table is never tested: `Xana.Syscalls.below` is its
place in a table whose numbers increase. And a test of the descriptors from 31 on looks
at other bits than theirs (`Xana.Syscalls.hit_iff`). `Xana.Syscalls.countsExactly_iff`
says that these two, and a callback that answers with an error, are all that keeps a pass
from counting what it should.
-/

namespace Xana

namespace Syscalls

/-! ### The pairs that a pass counts -/

/-- The sets of a `kselect`, by `SELECT_READ`, `SELECT_WRITE` and `SELECT_ERROR`. -/
def classes (readfds writefds errorfds : Option Words) : List (ℕ × Option Words) :=
  [(0, readfds), (1, writefds), (2, errorfds)]

/-- `selectSets`, with the classes that are counted in place of their number. -/
def countedSets (callback : ℕ → ℤ) (i : ℕ) : List (ℕ × Option Words) → Except ℤ (List ℕ)
  | [] => .ok []
  | (_, none) :: sets => countedSets callback i sets
  | (kind, some words) :: sets =>
      if words (i / 64) &&& fdMask i = 0 then countedSets callback i sets
      else if callback kind < 0 then .error (callback kind)
      else if callback kind = 1 then (countedSets callback i sets).map (kind :: ·)
      else countedSets callback i sets

/-- `selectPass`, with the pairs that are counted in place of their number. -/
def countedPass (nfds : ℤ) (sets : List (ℕ × Option Words)) :
    List SelectFd → ℕ → Except ℤ (List (ℤ × ℕ))
  | [], _ => .ok []
  | fd :: fds, i =>
      if i < nfds then
        match fd.select with
        | none => countedPass nfds sets fds (i + 1)
        | some callback =>
            if fd.descriptorId = i then
              match countedSets callback i sets with
              | .error status => .error status
              | .ok kinds =>
                  (countedPass nfds sets fds (i + 1)).map (kinds.map (fd.descriptorId, ·) ++ ·)
            else countedPass nfds sets fds (i + 1)
      else .ok []

/-- The bit of a descriptor. -/
def inSet (words : Words) (d : ℕ) : Bool := (words (d / 64)).getLsbD (d % 64)

/-- The test that the pass makes. -/
def Hit (words : Words) (i : ℕ) : Prop := words (i / 64) &&& fdMask i ≠ 0

instance (words : Words) (i : ℕ) : Decidable (Hit words i) :=
  inferInstanceAs (Decidable (_ ≠ _))

/-- The pairs that a pass should count. -/
def Wanted (nfds : ℤ) (sets : List (ℕ × Option Words)) (fds : List SelectFd) (d : ℤ) (kind : ℕ) :
    Prop :=
  0 ≤ d ∧ d < nfds ∧ ∃ fd ∈ fds, fd.descriptorId = d ∧ ∃ callback words,
    fd.select = some callback ∧ (kind, some words) ∈ sets ∧ inSet words d.toNat ∧
      callback kind = 1

/-- **A pass counts the pairs that it should**, each once. -/
def CountsExactly (nfds : ℤ) (sets : List (ℕ × Option Words)) (fds : List SelectFd) : Prop :=
  ∃ pairs : List (ℤ × ℕ), countedPass nfds sets fds 0 = .ok pairs ∧ pairs.Nodup ∧
    (∀ d kind, (d, kind) ∈ pairs ↔ Wanted nfds sets fds d kind) ∧
    (selectPass nfds sets fds 0 0).2 = .ok (pairs.length : ℤ)

/-- The number of descriptors with a smaller number. -/
def below (fds : List SelectFd) (d : ℤ) : ℕ := fds.countP fun fd => fd.descriptorId < d

/-- **When a pass counts what it should.** -/
structure ScanRight (nfds : ℤ) (sets : List (ℕ × Option Words)) (fds : List SelectFd) : Prop where
  /-- No descriptor that is tested answers with an error. -/
  answers : ∀ fd ∈ fds, ∀ callback, fd.select = some callback → ∀ kind words,
    (kind, some words) ∈ sets → fd.descriptorId = below fds fd.descriptorId →
    fd.descriptorId < nfds → Hit words fd.descriptorId.toNat → 0 ≤ callback kind
  /-- A descriptor that is ready is in a set if and only if there is no gap below it and
  the test hits. -/
  ready : ∀ fd ∈ fds, ∀ callback, fd.select = some callback → ∀ kind words,
    (kind, some words) ∈ sets → callback kind = 1 →
    0 ≤ fd.descriptorId → fd.descriptorId < nfds →
      (inSet words fd.descriptorId.toNat ↔
        fd.descriptorId = below fds fd.descriptorId ∧ Hit words fd.descriptorId.toNat)

section Masks

variable {words : Words} {i k : ℕ}

/-- The bits of the mask: one, or all from 31 on. -/
theorem getLsbD_fdMask_iff (hk : k < 64) : (fdMask i).getLsbD k = true ↔
    if i % 32 = 31 then 31 ≤ k else k = i % 32 := by
  have hlt : i % 32 < 32 := Nat.mod_lt _ (by omega)
  obtain ⟨j, hj⟩ : ∃ j, i % 32 = j := ⟨_, rfl⟩
  rw [hj] at hlt
  simp only [fdMask, hj, BitVec.getLsbD_signExtend, hk, BitVec.msb_eq_getLsbD_last,
    BitVec.getLsbD_shiftLeft]
  split_ifs <;> simp <;> omega

theorem inSet_eq (hk : k < 64) : inSet words k = (words 0).getLsbD k := by
  rw [inSet, Nat.div_eq_of_lt hk, Nat.mod_eq_of_lt hk]

theorem and_ne_zero_iff {x y : BitVec 64} :
    x &&& y ≠ 0 ↔ ∃ k < 64, x.getLsbD k = true ∧ y.getLsbD k = true := by
  constructor
  · intro h
    by_contra hnone
    refine h (BitVec.eq_of_getLsbD_eq fun k hk => ?_)
    have hboth : ¬(x.getLsbD k = true ∧ y.getLsbD k = true) := fun hc => hnone ⟨k, hk, hc⟩
    simpa using hboth
  · rintro ⟨k, -, hx, hy⟩ h
    have hbit := congrArg (·.getLsbD k) h
    simp [hx, hy] at hbit

/-- **The bits that are tested** for a descriptor below 64. -/
theorem hit_iff (hi : i < 64) : Hit words i ↔
    if i % 32 = 31 then ∃ k, 31 ≤ k ∧ k < 64 ∧ inSet words k else inSet words (i % 32) := by
  have hword : words (i / 64) = words 0 := by rw [Nat.div_eq_of_lt hi]
  rw [Hit, hword, and_ne_zero_iff]
  split_ifs with h31
  · constructor
    · rintro ⟨k, hk, hbit, hmask⟩
      rw [getLsbD_fdMask_iff hk, if_pos h31] at hmask
      exact ⟨k, hmask, hk, by rwa [inSet_eq hk]⟩
    · rintro ⟨k, hle, hk, hbit⟩
      rw [inSet_eq hk] at hbit
      exact ⟨k, hk, hbit, by rwa [getLsbD_fdMask_iff hk, if_pos h31]⟩
  · have hlt : i % 32 < 64 := by omega
    constructor
    · rintro ⟨k, hk, hbit, hmask⟩
      rw [getLsbD_fdMask_iff hk, if_neg h31] at hmask
      rwa [inSet_eq hlt, ← hmask]
    · intro hbit
      rw [inSet_eq hlt] at hbit
      exact ⟨i % 32, hlt, hbit, by rw [getLsbD_fdMask_iff hlt, if_neg h31]⟩

end Masks

/-! ### The pass -/

section Pass

variable {nfds ready : ℤ} {sets : List (ℕ × Option Words)} {fd : SelectFd} {fds : List SelectFd}
variable {callback : ℕ → ℤ} {i d : ℕ}

/-- The code keeps the number of the classes. -/
theorem selectSets_snd : (selectSets callback i sets ready).2 =
    (countedSets callback i sets).map fun kinds => ready + kinds.length := by
  induction sets generalizing ready with
  | nil => simp [selectSets, countedSets, Except.map]
  | cons x sets ih =>
    obtain ⟨kind, _ | words⟩ := x
    · rw [selectSets, countedSets, ih]
    · simp only [selectSets, countedSets]
      split_ifs with hbit herr hready
      · exact ih
      · rfl
      · rw [ih]
        cases countedSets callback i sets with
        | error status => rfl
        | ok kinds =>
          simp only [Except.map, List.length_cons, Nat.cast_add, Nat.cast_one]
          congr 1
          omega
      · exact ih

/-- **The code keeps the number of the pairs.** -/
theorem selectPass_snd : (selectPass nfds sets fds i ready).2 =
    (countedPass nfds sets fds i).map fun pairs => ready + pairs.length := by
  induction fds generalizing i ready with
  | nil => simp [selectPass, countedPass, Except.map]
  | cons fd fds ih =>
    by_cases hlt : (i : ℤ) < nfds
    · rw [selectPass, countedPass, if_pos hlt, if_pos hlt]
      cases fd.select with
      | none => exact ih
      | some callback =>
        by_cases hid : fd.descriptorId = i
        · simp only [if_pos hid, selectSets_snd]
          cases countedSets callback i sets with
          | error status => rfl
          | ok kinds =>
            simp only [Except.map, ih]
            cases countedPass nfds sets fds (i + 1) with
            | error status => rfl
            | ok pairs =>
              simp only [List.length_append, List.length_map, Nat.cast_add]
              congr 1
              omega
        · simp only [if_neg hid]
          exact ih
    · rw [selectPass, countedPass, if_neg hlt, if_neg hlt]
      simp [Except.map]

variable (callback i sets) in
/-- **The classes that are counted**, unless one of them answers with an error. -/
theorem countedSets_cases :
    (∃ status, countedSets callback i sets = .error status ∧ SetErrs callback i sets) ∨
      ∃ kinds, countedSets callback i sets = .ok kinds ∧ ¬SetErrs callback i sets ∧
        kinds.Sublist (sets.map Prod.fst) ∧ ∀ kind, kind ∈ kinds ↔
          ∃ words, (kind, some words) ∈ sets ∧ Hit words i ∧ callback kind = 1 := by
  induction sets with
  | nil => exact Or.inr ⟨[], rfl, by simp [SetErrs], List.Sublist.refl _, by simp⟩
  | cons x sets ih =>
    obtain ⟨kind, _ | words⟩ := x
    · have herrs : SetErrs callback i ((kind, none) :: sets) ↔ SetErrs callback i sets := by
        simp [SetErrs]
      rw [countedSets, herrs]
      refine ih.imp_right ?_
      rintro ⟨kinds, hok, hno, hsub, hmem⟩
      exact ⟨kinds, hok, hno, hsub.cons kind, fun k => by simp [hmem]⟩
    · rw [countedSets, setErrs_cons]
      by_cases hbit : words (i / 64) &&& fdMask i = 0
      · -- the set does not ask for this descriptor
        rw [if_pos hbit]
        refine ih.imp ?_ ?_
        · rintro ⟨status, herr, hset⟩
          exact ⟨status, herr, Or.inr hset⟩
        · rintro ⟨kinds, hok, hno, hsub, hmem⟩
          refine ⟨kinds, hok, by simp [hbit, hno], hsub.cons kind, fun k => ?_⟩
          have hhit : ¬Hit words i := fun hc => hc hbit
          simp only [hmem, List.mem_cons, Prod.mk.injEq, Option.some.injEq]
          constructor
          · rintro ⟨w, hw, hrest⟩
            exact ⟨w, Or.inr hw, hrest⟩
          · rintro ⟨w, ⟨rfl, rfl⟩ | hw, hrest⟩
            · exact absurd hrest.1 hhit
            · exact ⟨w, hw, hrest⟩
      · rw [if_neg hbit]
        by_cases herr : callback kind < 0
        · rw [if_pos herr]
          exact Or.inl ⟨_, rfl, Or.inl ⟨hbit, herr⟩⟩
        · -- it is counted if it is ready, and the other sets may still fail
          rw [if_neg herr]
          rcases ih with ⟨status, hstatus, hset⟩ | ⟨kinds, hok, hno, hsub, hmem⟩
          · refine Or.inl ⟨status, ?_, Or.inr hset⟩
            rw [hstatus]
            split_ifs <;> rfl
          · right
            have hnone : ¬((words (i / 64) &&& fdMask i ≠ 0 ∧ callback kind < 0) ∨
                SetErrs callback i sets) := by simp [herr, hno]
            by_cases hready : callback kind = 1
            · refine ⟨kind :: kinds, by rw [if_pos hready, hok]; rfl, hnone,
                hsub.cons_cons kind, fun k => ?_⟩
              simp only [hmem, List.mem_cons, Prod.mk.injEq, Option.some.injEq]
              constructor
              · rintro (rfl | ⟨w, hw, hrest⟩)
                · exact ⟨words, Or.inl ⟨rfl, rfl⟩, hbit, hready⟩
                · exact ⟨w, Or.inr hw, hrest⟩
              · rintro ⟨w, ⟨rfl, rfl⟩ | hw, hrest⟩
                · exact Or.inl rfl
                · exact Or.inr ⟨w, hw, hrest⟩
            · refine ⟨kinds, by rw [if_neg hready, hok], hnone, hsub.cons kind, fun k => ?_⟩
              simp only [hmem, List.mem_cons, Prod.mk.injEq, Option.some.injEq]
              constructor
              · rintro ⟨w, hw, hrest⟩
                exact ⟨w, Or.inr hw, hrest⟩
              · rintro ⟨w, ⟨rfl, rfl⟩ | hw, hrest⟩
                · exact absurd hrest.2 hready
                · exact ⟨w, hw, hrest⟩

/-- The pass tests the descriptor with the number `d`: it stands in the place of its
number, the places being counted from `i` on. -/
def Reached (nfds : ℤ) (fds : List SelectFd) (i d : ℕ) (callback : ℕ → ℤ) : Prop :=
  ∃ j, d = i + j ∧ (d : ℤ) < nfds ∧ Selected fds j d callback

theorem reached_cons : Reached nfds (fd :: fds) i d callback ↔
    (d = i ∧ (i : ℤ) < nfds ∧ fd.descriptorId = (i : ℤ) ∧ fd.select = some callback) ∨
      Reached nfds fds (i + 1) d callback := by
  constructor
  · rintro ⟨j, rfl, hlt, fd', hget, hid, hsel⟩
    cases j with
    | zero =>
      obtain rfl := Option.some.inj hget
      exact Or.inl ⟨rfl, hlt, hid, hsel⟩
    | succ j => exact Or.inr ⟨j, by omega, hlt, fd', hget, hid, hsel⟩
  · rintro (⟨rfl, hlt, hid, hsel⟩ | ⟨j, rfl, hlt, hsel⟩)
    · exact ⟨0, rfl, hlt, fd, rfl, hid, hsel⟩
    · obtain ⟨fd', hget, hid, hsel⟩ := hsel
      exact ⟨j + 1, by omega, hlt, fd', hget, hid, hsel⟩

theorem Reached.le (h : Reached nfds fds i d callback) : i ≤ d := by
  obtain ⟨j, rfl, -⟩ := h
  exact Nat.le_add_right i j

/-- The pairs that are counted, the places being counted from `i` on. -/
def Counted (nfds : ℤ) (sets : List (ℕ × Option Words)) (fds : List SelectFd) (i : ℕ) (D : ℤ)
    (kind : ℕ) : Prop :=
  ∃ (d : ℕ) (callback : ℕ → ℤ), D = d ∧ Reached nfds fds i d callback ∧
    ∃ words, (kind, some words) ∈ sets ∧ Hit words d ∧ callback kind = 1

/-- A pass that ends in an error. -/
def PassErrs (nfds : ℤ) (sets : List (ℕ × Option Words)) (fds : List SelectFd) (i : ℕ) : Prop :=
  ∃ d callback, Reached nfds fds i d callback ∧ SetErrs callback d sets

/-- A descriptor that is not tested is not among those that are. -/
theorem reached_cons_of_not
    (h : ∀ callback, (i : ℤ) < nfds → fd.descriptorId = (i : ℤ) → fd.select ≠ some callback)
    (d : ℕ) (callback : ℕ → ℤ) :
    Reached nfds (fd :: fds) i d callback ↔ Reached nfds fds (i + 1) d callback := by
  rw [reached_cons]
  refine or_iff_right ?_
  rintro ⟨-, hlt, hid, hsel⟩
  exact h callback hlt hid hsel

/-- The pass has ended. -/
theorem countedPass_of_le (h : ¬(i : ℤ) < nfds) : countedPass nfds sets fds i = .ok [] := by
  cases fds with
  | nil => rfl
  | cons fd fds => rw [countedPass, if_neg h]

/-- A descriptor that is not tested is passed over. -/
theorem countedPass_cons_of_not
    (h : ∀ callback, (i : ℤ) < nfds → fd.descriptorId = (i : ℤ) → fd.select ≠ some callback) :
    countedPass nfds sets (fd :: fds) i = countedPass nfds sets fds (i + 1) := by
  by_cases hlt : (i : ℤ) < nfds
  · rw [countedPass, if_pos hlt]
    cases hsel : fd.select with
    | none => rfl
    | some callback =>
      simp only
      rw [if_neg fun hid => h callback hlt hid hsel]
  · rw [countedPass_of_le hlt, countedPass_of_le (by omega)]

variable (nfds fds i) in
/-- **The pairs that are counted**, unless a descriptor that is tested answers with an
error. -/
theorem countedPass_cases (hkinds : (sets.map Prod.fst).Nodup) :
    (∃ status, countedPass nfds sets fds i = .error status ∧ PassErrs nfds sets fds i) ∨
      ∃ pairs, countedPass nfds sets fds i = .ok pairs ∧ ¬PassErrs nfds sets fds i ∧
        pairs.Nodup ∧ ∀ D kind, (D, kind) ∈ pairs ↔ Counted nfds sets fds i D kind := by
  induction fds generalizing i with
  | nil =>
    have hreached : ∀ d callback, ¬Reached nfds [] i d callback := by
      rintro d callback ⟨j, -, -, fd, hget, -⟩
      simp at hget
    exact Or.inr ⟨[], rfl, by simp [PassErrs, hreached], List.nodup_nil,
      by simp [Counted, hreached]⟩
  | cons fd fds ih =>
    by_cases htested : ∃ callback, (i : ℤ) < nfds ∧ fd.descriptorId = (i : ℤ) ∧
        fd.select = some callback
    · obtain ⟨callback, hlt, hid, hsel⟩ := htested
      have hfirst : Reached nfds (fd :: fds) i i callback :=
        reached_cons.mpr (Or.inl ⟨rfl, hlt, hid, hsel⟩)
      rw [countedPass, if_pos hlt]
      simp only [hsel, if_pos hid]
      rcases countedSets_cases sets callback i with
        ⟨status, herr, hset⟩ | ⟨kinds, hok, hno, hsub, hmem⟩
      · rw [herr]
        exact Or.inl ⟨status, rfl, i, callback, hfirst, hset⟩
      · rw [hok]
        rcases ih (i + 1) with
          ⟨status, herr, d, c, hreach, hset⟩ | ⟨pairs, hpairs, hnone, hnodup, hmem'⟩
        · rw [herr]
          exact Or.inl ⟨status, rfl, d, c, reached_cons.mpr (Or.inr hreach), hset⟩
        · rw [hpairs]
          refine Or.inr ⟨_, rfl, ?_, ?_, fun D kind => ?_⟩
          · rintro ⟨d, c, hreach, hset⟩
            rcases reached_cons.mp hreach with ⟨rfl, -, -, hc⟩ | hreach
            · obtain rfl := Option.some.inj (hsel.symm.trans hc)
              exact hno hset
            · exact hnone ⟨d, c, hreach, hset⟩
          · -- what the rest counts has greater numbers
            refine List.Nodup.append ?_ hnodup ?_
            · refine (hsub.nodup hkinds).map fun k k' h => ?_
              exact (Prod.mk.inj h).2
            · intro x hx hx'
              obtain ⟨kind, -, rfl⟩ := List.mem_map.mp hx
              obtain ⟨d, c, hd, hreach, -⟩ := (hmem' _ _).mp hx'
              have hle := hreach.le
              omega
          · rw [List.mem_append, hmem', List.mem_map]
            constructor
            · rintro (⟨k, hk, hD⟩ | ⟨d, c, hd, hreach, hrest⟩)
              · obtain ⟨rfl, rfl⟩ := Prod.mk.inj hD
                obtain ⟨words, hwords, hhit, hone⟩ := (hmem k).mp hk
                exact ⟨i, callback, hid, hfirst, words, hwords, hhit, hone⟩
              · exact ⟨d, c, hd, reached_cons.mpr (Or.inr hreach), hrest⟩
            · rintro ⟨d, c, hd, hreach, words, hwords, hhit, hone⟩
              rcases reached_cons.mp hreach with ⟨rfl, -, -, hc⟩ | hreach
              · obtain rfl := Option.some.inj (hsel.symm.trans hc)
                exact Or.inl ⟨kind, (hmem kind).mpr ⟨words, hwords, hhit, hone⟩,
                  by rw [hid, hd]⟩
              · exact Or.inr ⟨d, c, hd, hreach, words, hwords, hhit, hone⟩
    · -- a descriptor that is out of place or cannot be asked is passed over
      have hnot : ∀ callback, (i : ℤ) < nfds → fd.descriptorId = (i : ℤ) →
          fd.select ≠ some callback := fun c hlt hid hsel => htested ⟨c, hlt, hid, hsel⟩
      rw [countedPass_cons_of_not hnot]
      simp only [Counted, PassErrs, reached_cons_of_not hnot]
      exact ih (i + 1)

/-- The place of a descriptor in a table whose numbers increase. -/
theorem below_eq (hs : (fds.map (·.descriptorId)).Pairwise (· < ·)) {j : ℕ}
    (hget : fds[j]? = some fd) : below fds fd.descriptorId = j := by
  induction fds generalizing j with
  | nil => simp at hget
  | cons a fds ih =>
    rw [List.map_cons, List.pairwise_cons] at hs
    obtain ⟨hfirst, hrest⟩ := hs
    cases j with
    | zero =>
      obtain rfl := Option.some.inj hget
      refine List.countP_eq_zero.mpr fun b hb => ?_
      rcases List.mem_cons.mp hb with rfl | hb
      · simp
      · have hlt := hfirst _ (List.mem_map_of_mem hb)
        simp only [decide_eq_true_eq]
        omega
    | succ j =>
      rw [List.getElem?_cons_succ] at hget
      have hlt := hfirst _ (List.mem_map_of_mem (List.mem_of_getElem? hget))
      rw [below, List.countP_cons_of_pos (by simpa using hlt)]
      exact congrArg (· + 1) (ih hrest hget)

/-- **The descriptors that are tested**: those with no gap below them. -/
theorem reached_iff (hs : (fds.map (·.descriptorId)).Pairwise (· < ·)) :
    Reached nfds fds 0 d callback ↔ (d : ℤ) < nfds ∧ ∃ fd ∈ fds, fd.descriptorId = (d : ℤ) ∧
      (d : ℤ) = below fds d ∧ fd.select = some callback := by
  constructor
  · rintro ⟨j, hd, hlt, fd, hget, hid, hsel⟩
    have hplace := below_eq hs hget
    rw [hid] at hplace
    refine ⟨hlt, fd, List.mem_of_getElem? hget, hid, ?_, hsel⟩
    rw [hplace]
    omega
  · rintro ⟨hlt, fd, hmem, hid, hbelow, hsel⟩
    obtain ⟨j, hget⟩ := List.mem_iff_getElem?.mp hmem
    have hplace := below_eq hs hget
    rw [hid] at hplace
    exact ⟨j, by omega, hlt, fd, hget, hid, hsel⟩

theorem nodup_classes {r w e : Option Words} : ((classes r w e).map Prod.fst).Nodup := by
  simp [classes]

/-- One set for each class. -/
theorem eq_of_mem_classes {r w e : Option Words} {kind : ℕ} {words words' : Words}
    (h : (kind, some words) ∈ classes r w e) (h' : (kind, some words') ∈ classes r w e) :
    words = words' := by
  simp only [classes, List.mem_cons, List.not_mem_nil, or_false, Prod.mk.injEq] at h h'
  rcases h with ⟨rfl, h⟩ | ⟨rfl, h⟩ | ⟨rfl, h⟩
  all_goals
    simp only [false_and, true_and, or_false, false_or, OfNat.ofNat_ne_zero,
      OfNat.ofNat_ne_one, one_ne_zero, zero_ne_one, OfNat.one_ne_ofNat, OfNat.zero_ne_ofNat] at h'
    exact Option.some.inj (h.trans h'.symm)

/-- In a table whose numbers increase, a number stands for one descriptor. -/
theorem eq_of_descriptorId (hs : (fds.map (·.descriptorId)).Pairwise (· < ·)) {fd' : SelectFd}
    (h : fd ∈ fds) (h' : fd' ∈ fds) (hid : fd.descriptorId = fd'.descriptorId) : fd = fd' := by
  obtain ⟨j, hj⟩ := List.mem_iff_getElem?.mp h
  obtain ⟨j', hj'⟩ := List.mem_iff_getElem?.mp h'
  have hplace : j = j' := by rw [← below_eq hs hj, ← below_eq hs hj', hid]
  rw [hplace] at hj
  exact Option.some.inj (hj.symm.trans hj')

/-- A pass without an error counts exactly the pairs that it should, in terms of what is
tested. -/
theorem counted_iff_wanted {r w e : Option Words}
    (hs : (fds.map (·.descriptorId)).Pairwise (· < ·))
    (hno : ¬PassErrs nfds (classes r w e) fds 0) :
    (∀ D kind, Counted nfds (classes r w e) fds 0 D kind ↔
      Wanted nfds (classes r w e) fds D kind) ↔ ScanRight nfds (classes r w e) fds := by
  constructor
  · intro hiff
    constructor
    · intro fd hfd callback hsel kind words hwords hbelow hlt hhit
      by_contra hneg
      have hid : fd.descriptorId = (fd.descriptorId.toNat : ℤ) := by omega
      refine hno ⟨fd.descriptorId.toNat, callback, (reached_iff hs).mpr ?_, kind, words, hwords,
        hhit, by omega⟩
      rw [← hid]
      exact ⟨hlt, fd, hfd, rfl, hbelow, hsel⟩
    · intro fd hfd callback hsel kind words hwords hone hpos hlt
      have hid : fd.descriptorId = (fd.descriptorId.toNat : ℤ) := by omega
      constructor
      · intro hin
        obtain ⟨d, c, hd, hreach, words', hwords', hhit, -⟩ := (hiff fd.descriptorId kind).mpr
          ⟨hpos, hlt, fd, hfd, rfl, callback, words, hsel, hwords, hin, hone⟩
        obtain ⟨-, fd', -, -, hbelow, -⟩ := (reached_iff hs).mp hreach
        rw [hd, Int.toNat_natCast, eq_of_mem_classes hwords hwords']
        exact ⟨hbelow, hhit⟩
      · rintro ⟨hbelow, hhit⟩
        have hreach : Reached nfds fds 0 fd.descriptorId.toNat callback := by
          rw [reached_iff hs, ← hid]
          exact ⟨hlt, fd, hfd, rfl, hbelow, hsel⟩
        obtain ⟨-, -, fd', hfd', -, c, words', -, hwords', hin, -⟩ :=
          (hiff fd.descriptorId kind).mp ⟨_, callback, hid, hreach, words, hwords, hhit, hone⟩
        rwa [eq_of_mem_classes hwords hwords']
  · rintro ⟨-, hready⟩ D kind
    constructor
    · rintro ⟨d, c, rfl, hreach, words, hwords, hhit, hone⟩
      obtain ⟨hlt, fd, hfd, hid, hbelow, hsel⟩ := (reached_iff hs).mp hreach
      have hin := hready fd hfd c hsel kind words hwords hone (by omega) (by omega)
      rw [hid, Int.toNat_natCast] at hin
      refine ⟨by omega, hlt, fd, hfd, hid, c, words, hsel, hwords, ?_, hone⟩
      rw [Int.toNat_natCast]
      exact hin.mpr ⟨hbelow, hhit⟩
    · rintro ⟨hpos, hlt, fd, hfd, rfl, c, words, hsel, hwords, hin, hone⟩
      obtain ⟨hbelow, hhit⟩ := (hready fd hfd c hsel kind words hwords hone hpos hlt).mp hin
      have hid : fd.descriptorId = (fd.descriptorId.toNat : ℤ) := by omega
      refine ⟨fd.descriptorId.toNat, c, hid, (reached_iff hs).mpr ?_, words, hwords, hhit, hone⟩
      rw [← hid]
      exact ⟨hlt, fd, hfd, rfl, hbelow, hsel⟩

/-- **When a pass of `kselect` counts what it should**: no descriptor that is tested
answers with an error, and the descriptors that are ready are in their sets if and only if
there is no gap below them and the test of their place hits. Such a pass ends the call if
and only if there is a pair to count. -/
theorem countsExactly_iff (r w e : Option Words)
    (hs : (fds.map (·.descriptorId)).Pairwise (· < ·)) :
    (CountsExactly nfds (classes r w e) fds ↔ ScanRight nfds (classes r w e) fds) ∧
      (CountsExactly nfds (classes r w e) fds →
        ((selectPass nfds (classes r w e) fds 0 0).2 ≠ .ok 0 ↔
          ∃ d kind, Wanted nfds (classes r w e) fds d kind)) := by
  constructor
  · rcases countedPass_cases nfds fds 0 (nodup_classes (r := r) (w := w)
        (e := e)) with ⟨status, herr, d, c, hreach, kind, words, hwords, hhit, hneg⟩ |
      ⟨pairs, hok, hno, hnodup, hmem⟩
    · -- a descriptor that is tested answers with an error
      obtain ⟨hlt, fd, hfd, hid, hbelow, hsel⟩ := (reached_iff hs).mp hreach
      refine iff_of_false ?_ fun hright => ?_
      · rintro ⟨pairs, hok, -⟩
        rw [herr] at hok
        simp at hok
      · have hpos := hright.answers fd hfd c hsel kind words hwords (by rw [hid]; exact hbelow)
          (by rw [hid]; exact hlt) (by rw [hid, Int.toNat_natCast]; exact hhit)
        omega
    · rw [← counted_iff_wanted hs hno]
      constructor
      · rintro ⟨pairs', hok', -, hmem', -⟩ D kind
        obtain rfl : pairs = pairs' := Except.ok.inj (hok.symm.trans hok')
        rw [← hmem, hmem']
      · intro hiff
        refine ⟨pairs, hok, hnodup, fun D kind => (hmem D kind).trans (hiff D kind), ?_⟩
        rw [selectPass_snd, hok, Except.map, zero_add]
  · rintro ⟨pairs, -, -, hmem, hpass⟩
    rw [hpass]
    constructor
    · intro hne
      obtain ⟨⟨d, kind⟩, hpair⟩ : ∃ p, p ∈ pairs :=
        List.exists_mem_of_ne_nil pairs fun hnil => hne (by rw [hnil]; rfl)
      exact ⟨d, kind, (hmem d kind).mp hpair⟩
    · rintro ⟨d, kind, hwanted⟩ hzero
      have hlength : (pairs.length : ℤ) = 0 := Except.ok.inj hzero
      have hnil : pairs = [] := List.length_eq_zero_iff.mp (by omega)
      have hpair := (hmem d kind).mpr hwanted
      rw [hnil] at hpair
      simp at hpair

end Pass

/-- The descriptor 0, and a set of it for reading. -/
theorem countsExactly_iff_zero :
    ∃ pairs, countedPass 1 (classes (some fun _ => 1#64) none none) [⟨0, some fun _ => 1⟩] 0 =
      .ok pairs ∧ pairs.length = 1 := by
  have hright : ScanRight 1 (classes (some fun _ => 1#64) none none) [⟨0, some fun _ => 1⟩] := by
    constructor
    · rintro fd hfd callback hsel kind words - - - -
      obtain rfl := List.mem_singleton.mp hfd
      obtain rfl := Option.some.inj hsel
      exact Int.one_nonneg
    · rintro fd hfd callback hsel kind words hwords - - -
      obtain rfl := List.mem_singleton.mp hfd
      simp only [classes, List.mem_cons, Prod.mk.injEq, Option.some.injEq, reduceCtorEq,
        and_false, List.not_mem_nil, or_false] at hwords
      rw [hwords.2]
      decide
  obtain ⟨pairs, hok, -, -, hpass⟩ := ((countsExactly_iff (some fun _ => 1#64) none none
    (by simp)).1).mpr hright
  refine ⟨pairs, hok, ?_⟩
  have hone : (selectPass 1 (classes (some fun _ => 1#64) none none) [⟨0, some fun _ => 1⟩] 0 0).2 =
      .ok 1 := by decide
  have hlength : (1 : ℤ) = pairs.length := Except.ok.inj (hone.symm.trans hpass)
  omega

/-- The descriptors 0 and 2, and a set of the second, which is ready for reading: it is
not counted. -/
theorem not_countsExactly :
    ¬CountsExactly 3 (classes (some fun _ => 4#64) none none)
        [⟨0, some fun _ => 0⟩, ⟨2, some fun _ => 1⟩] ∧
      Wanted 3 (classes (some fun _ => 4#64) none none)
        [⟨0, some fun _ => 0⟩, ⟨2, some fun _ => 1⟩] 2 0 ∧
      (selectPass 3 (classes (some fun _ => 4#64) none none)
        [⟨0, some fun _ => 0⟩, ⟨2, some fun _ => 1⟩] 0 0).2 = .ok 0 := by
  have hwanted : Wanted 3 (classes (some fun _ => 4#64) none none)
      [⟨0, some fun _ => 0⟩, ⟨2, some fun _ => 1⟩] 2 0 :=
    ⟨by decide, by decide, ⟨2, some fun _ => 1⟩, by simp, rfl, fun _ => 1, fun _ => 4#64, rfl,
      by simp [classes], by decide, rfl⟩
  have hpass : (selectPass 3 (classes (some fun _ => 4#64) none none)
      [⟨0, some fun _ => 0⟩, ⟨2, some fun _ => 1⟩] 0 0).2 = .ok 0 := by decide
  refine ⟨?_, hwanted, hpass⟩
  rintro ⟨pairs, -, -, hmem, hcount⟩
  have hlength : (0 : ℤ) = pairs.length := Except.ok.inj (hpass.symm.trans hcount)
  have hnil : pairs = [] := List.length_eq_zero_iff.mp (by omega)
  have hpair := (hmem 2 0).mpr hwanted
  rw [hnil] at hpair
  simp at hpair

end Syscalls

end Xana
