import Mathlib.Data.BitVec
import Xana.Signal.Basic

/-!
# What a user register indexes: `kselect`

Three tables of the kernel are indexed by numbers that a process chooses: the
`syscall_table` by `rax` in `syscall_handler`, the `signal_handlers` of a process
by a signal number in `krt_sigaction` and in `check_signals`, and the words of an
`fd_set` by the loop counter of `kselect`, which `nfds` bounds. The model notes
every such access with its index (`Xana.Syscalls.Access`).

This file is about the last of them. `kselect` goes through the descriptors of the
process and counts along; it looks at a descriptor if its place is its number. An
`fd_set` has `FD_SETSIZE`, that is 64, bits, and nothing compares `nfds` with it.
-/

namespace Xana

namespace Syscalls

/-- The tables, `fd_bits` of any `fd_set` being one. -/
inductive Table
  | syscallTable
  | signalHandlers
  | fdBits
  deriving DecidableEq

/-- The number of elements: `512`, `SIG_MAX`, and `FD_SETSIZE / NFDBITS`. -/
def Table.size : Table → ℤ
  | .syscallTable => 512
  | .signalHandlers => Signals.sigMax
  | .fdBits => 1

/-- An access to an element of a table. -/
structure Access where
  table : Table
  index : ℤ
  deriving DecidableEq

/-- The element is one of the table's. -/
def Access.InBounds (a : Access) : Prop := 0 ≤ a.index ∧ a.index < a.table.size

instance : DecidablePred Access.InBounds := fun a =>
  inferInstanceAs (Decidable (0 ≤ a.index ∧ a.index < a.table.size))

/-! ### `kselect` -/

/-- What `kselect` reads of a descriptor: its number, and what the `select`
callback of its device answers, by `SELECT_READ`, `SELECT_WRITE` and
`SELECT_ERROR`. The callback may be `NULL`. -/
structure SelectFd where
  descriptorId : ℤ
  select : Option (ℕ → ℤ)

/-- The words of an `fd_set`, and of what stands behind it. -/
abbrev Words := ℕ → BitVec 64

/-- `1 << (i % NFDBITS)`: an `int`, which the processor shifts modulo 32. -/
def fdMask (i : ℕ) : BitVec 64 := ((1#32) <<< (i % 32)).signExtend 64

/-- The tests of one descriptor against the sets that are not `NULL`, one after the
other: the accesses, and the status that is returned or the number ready. -/
def selectSets (callback : ℕ → ℤ) (i : ℕ) : List (ℕ × Option Words) → ℤ → List Access × Except ℤ ℤ
  | [], ready => ([], .ok ready)
  | (_, none) :: sets, ready => selectSets callback i sets ready
  | (kind, some words) :: sets, ready =>
      if words (i / 64) &&& fdMask i = 0 then
        let r := selectSets callback i sets ready
        (⟨.fdBits, i / 64⟩ :: r.1, r.2)
      else if callback kind < 0 then ([⟨.fdBits, i / 64⟩], .error (callback kind))
      else
        let r := selectSets callback i sets (if callback kind = 1 then ready + 1 else ready)
        (⟨.fdBits, i / 64⟩ :: r.1, r.2)

/-- One pass of `kselect` over the descriptors, from the `i`-th. -/
def selectPass (nfds : ℤ) (sets : List (ℕ × Option Words)) :
    List SelectFd → ℕ → ℤ → List Access × Except ℤ ℤ
  | [], _, ready => ([], .ok ready)
  | fd :: fds, i, ready =>
      if i < nfds then
        match fd.select with
        | none => selectPass nfds sets fds (i + 1) ready
        | some callback =>
            if fd.descriptorId = i then
              let r := selectSets callback i sets ready
              match r.2 with
              | .error status => (r.1, .error status)
              | .ok ready =>
                  let r' := selectPass nfds sets fds (i + 1) ready
                  (r.1 ++ r'.1, r'.2)
            else selectPass nfds sets fds (i + 1) ready
      else ([], .ok ready)

/-- One of the sets that the descriptor is in makes its callback answer with an
error. -/
def SetErrs (callback : ℕ → ℤ) (i : ℕ) (sets : List (ℕ × Option Words)) : Prop :=
  ∃ kind words, (kind, some words) ∈ sets ∧ words (i / 64) &&& fdMask i ≠ 0 ∧ callback kind < 0

/-- The descriptor in place `i` has the number `i`, and a `select` callback. -/
def Selected (fds : List SelectFd) (i k : ℕ) (callback : ℕ → ℤ) : Prop :=
  ∃ fd, fds[i]? = some fd ∧ fd.descriptorId = (k : ℤ) ∧ fd.select = some callback

/-- **A pass stays inside the sets**: every selected descriptor below `nfds` has a
number below 64, or no set is given, or the pass ends in an error before it. The
descriptors are numbered from `k` on. -/
def SelectOk (nfds : ℤ) (sets : List (ℕ × Option Words)) (fds : List SelectFd) (k : ℕ) : Prop :=
  ∀ i callback, Selected fds i (k + i) callback → 64 ≤ k + i → (k + i : ℕ) < nfds →
    (∃ kind words, (kind, some words) ∈ sets) →
      ∃ j < i, ∃ callback', Selected fds j (k + j) callback' ∧ SetErrs callback' (k + j) sets

section Select

variable {nfds ready : ℤ} {sets : List (ℕ × Option Words)} {fd : SelectFd} {fds : List SelectFd}
variable {callback : ℕ → ℤ} {i k : ℕ}

/-- The accesses of one descriptor: there are some if a set is given. -/
theorem mem_selectSets_iff {a : Access} : a ∈ (selectSets callback i sets ready).1 ↔
    a = ⟨.fdBits, i / 64⟩ ∧ ((∃ kind words, (kind, some words) ∈ sets)) := by
  induction sets generalizing ready with
  | nil => simp [selectSets]
  | cons x sets ih =>
    obtain ⟨kind, _ | words⟩ := x
    · rw [selectSets, ih]
      simp
    · have hset : ∃ k w, (k, some w) ∈ (kind, some words) :: sets :=
        ⟨kind, words, List.mem_cons_self⟩
      simp only [selectSets]
      split_ifs <;> simp only [List.mem_cons, List.not_mem_nil, or_false, ih] <;> tauto

theorem setErrs_cons {kind : ℕ} {words : Words} : SetErrs callback i ((kind, some words) :: sets) ↔
    (words (i / 64) &&& fdMask i ≠ 0 ∧ callback kind < 0) ∨ SetErrs callback i sets := by
  constructor
  · rintro ⟨kind', words', hmem, herr⟩
    rcases List.mem_cons.mp hmem with heq | hmem
    · obtain ⟨rfl, hwords⟩ := Prod.mk.inj heq
      obtain rfl := Option.some.inj hwords
      exact Or.inl herr
    · exact Or.inr ⟨kind', words', hmem, herr⟩
  · rintro (herr | ⟨kind', words', hmem, herr⟩)
    · exact ⟨kind, words, List.mem_cons_self, herr⟩
    · exact ⟨kind', words', List.mem_cons_of_mem _ hmem, herr⟩

/-- The pass ends in an error. -/
theorem selectSets_error_iff :
    (∃ status, (selectSets callback i sets ready).2 = .error status) ↔
      SetErrs callback i sets := by
  induction sets generalizing ready with
  | nil => simp [selectSets, SetErrs]
  | cons x sets ih =>
    obtain ⟨kind, _ | words⟩ := x
    · rw [selectSets, ih]
      simp [SetErrs]
    · rw [setErrs_cons]
      simp only [selectSets]
      split_ifs with hbit herr
      · simp [ih, hbit]
      · exact iff_of_true ⟨_, rfl⟩ (Or.inl ⟨hbit, herr⟩)
      · simp [ih, herr]
      · simp [ih, herr]

/-- Behind a descriptor that does not end the pass. -/
theorem selectOk_cons_of_not
    (h : ∀ c, fd.descriptorId = (k : ℤ) → fd.select = some c → k < 64 ∧ ¬SetErrs c k sets) :
    SelectOk nfds sets (fd :: fds) k ↔ SelectOk nfds sets fds (k + 1) := by
  have hshift : ∀ j c, Selected (fd :: fds) (j + 1) (k + (j + 1)) c ↔
      Selected fds j (k + 1 + j) c := by
    intro j c
    rw [Selected, Selected, List.getElem?_cons_succ, add_right_comm, add_assoc]
  have hzero : ∀ {c}, Selected (fd :: fds) 0 (k + 0) c → k < 64 ∧ ¬SetErrs c k sets := by
    rintro c ⟨fd', hget, hid, hsel⟩
    obtain rfl := Option.some.inj hget
    exact h c hid hsel
  constructor
  · intro hok i c hsel h64 hlt hset
    obtain ⟨j, hj, c', hsel', herr⟩ :=
      hok (i + 1) c ((hshift i c).mpr hsel) (by omega) (by omega) hset
    cases j with
    | zero => exact absurd herr (hzero hsel').2
    | succ j =>
      have hadd : k + (j + 1) = k + 1 + j := by omega
      exact ⟨j, by omega, c', (hshift j c').mp hsel', hadd ▸ herr⟩
  · intro hok i c hsel h64 hlt hset
    cases i with
    | zero => exact absurd (hzero hsel).1 (by omega)
    | succ i =>
      obtain ⟨j, hj, c', hsel', herr⟩ :=
        hok i c ((hshift i c).mp hsel) (by omega) (by omega) hset
      have hadd : k + 1 + j = k + (j + 1) := by omega
      exact ⟨j + 1, by omega, c', (hshift j c').mpr hsel', hadd ▸ herr⟩

/-- At a selected descriptor, when the rest of the pass stays inside if `P` holds. -/
theorem selectPass_selected {P : Prop} (hlt : (k : ℤ) < nfds) (hsel : fd.select = some callback)
    (hid : fd.descriptorId = k)
    (hrest : ∀ {ready'}, (∀ a ∈ (selectPass nfds sets fds (k + 1) ready').1, a.InBounds) ↔ P) :
    (∀ a ∈ (selectPass nfds sets (fd :: fds) k ready).1, a.InBounds) ↔
      ((∃ kind words, (kind, some words) ∈ sets) → k < 64) ∧ (¬SetErrs callback k sets → P) := by
  have hlog : (∀ a ∈ (selectSets callback k sets ready).1, a.InBounds) ↔
      ((∃ kind words, (kind, some words) ∈ sets) → k < 64) := by
    simp only [mem_selectSets_iff, and_imp, forall_eq, Access.InBounds, Table.size]
    refine forall_congr' fun _ => ?_
    omega
  rw [← hlog, selectPass, if_pos hlt]
  simp only [hsel, hid, if_true]
  cases hr : (selectSets callback k sets ready).2 with
  | error status =>
    have herr : SetErrs callback k sets := selectSets_error_iff.mp ⟨status, hr⟩
    simp [herr]
  | ok ready' =>
    have herr : ¬SetErrs callback k sets := by
      intro herr
      have herror : ∃ status, (selectSets callback k sets ready).2 = .error status :=
        selectSets_error_iff.mpr herr
      rw [hr] at herror
      simp at herror
    simp only [herr, not_false_eq_true, true_implies, List.mem_append, or_imp, forall_and, hrest]

/-- **When a pass stays inside the sets.** -/
theorem selectPass_inBounds_iff :
    (∀ a ∈ (selectPass nfds sets fds k ready).1, a.InBounds) ↔ SelectOk nfds sets fds k := by
  induction fds generalizing k ready with
  | nil =>
    refine iff_of_true (by simp [selectPass]) ?_
    rintro i c ⟨fd, hget, -⟩
    simp at hget
  | cons fd fds ih =>
    by_cases hlt : (k : ℤ) < nfds
    · by_cases hselected : ∃ callback, fd.select = some callback ∧ fd.descriptorId = k
      · obtain ⟨callback, hsel, hid⟩ := hselected
        rw [selectPass_selected hlt hsel hid ih]
        have hzero : Selected (fd :: fds) 0 (k + 0) callback := ⟨fd, rfl, hid, hsel⟩
        by_cases herr : SetErrs callback k sets
        · -- nothing behind this descriptor is looked at
          simp only [herr, not_true_eq_false, false_implies, and_true]
          constructor
          · intro h64 i c hsel' hge hlt' hset
            have hk := h64 hset
            exact ⟨0, by omega, callback, hzero, herr⟩
          · intro hok hset
            by_contra hge
            obtain ⟨j, hj, -⟩ := hok 0 callback hzero (by omega) (by omega) hset
            omega
        · simp only [herr, not_false_eq_true, true_implies]
          by_cases hset : ∃ kind words, (kind, some words) ∈ sets
          · by_cases h64 : k < 64
            · rw [selectOk_cons_of_not]
              · exact and_iff_right fun _ => h64
              · intro c _ hc
                obtain rfl := Option.some.inj (hsel.symm.trans hc)
                exact ⟨h64, herr⟩
            · refine iff_of_false (fun hc => h64 (hc.1 hset)) fun hok => ?_
              obtain ⟨j, hj, -⟩ := hok 0 callback hzero (by omega) (by omega) hset
              omega
          · exact iff_of_true ⟨fun hc => absurd hc hset, fun i c _ _ _ hc => absurd hc hset⟩
              fun i c _ _ _ hc => absurd hc hset
      · rw [selectOk_cons_of_not fun c hid hc => absurd ⟨c, hc, hid⟩ hselected]
        refine Iff.trans ?_ (ih : (∀ a ∈ (selectPass nfds sets fds (k + 1) ready).1, _) ↔ _)
        rw [selectPass, if_pos hlt]
        cases hsel : fd.select with
        | none => rfl
        | some callback =>
          have hid : fd.descriptorId ≠ k := fun hid => hselected ⟨callback, hsel, hid⟩
          simp only [hid, if_false]
    · -- the loop has ended
      rw [selectPass, if_neg hlt]
      refine iff_of_true (by simp) fun i c hsel h64 hlt' => ?_
      omega

end Select

end Syscalls

end Xana
