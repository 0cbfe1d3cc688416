import Mathlib.Data.Finset.Fold
import Xana.Filesystem.Tables
import Xana.Lib.Runs

/-!
# What the descriptor calls promise

In every state that a run of `kfopen`, `kpipe`, `kstat`, `kdup2`, `kfclose` and
`kfork` reaches, each process's table is a finite list in strictly increasing
order of descriptor numbers, and each of the calls does to the tables what it is
for and nothing else: `Xana.Fs.DescriptorLaws`. The tables are compared as lists
of entries (`Xana.Fs.table`), whatever nodes they stand in.

A call has no result when a callback panics or a missing `clone` is called. The
last law says that there is no other reason: no loop over a table runs forever.
-/

namespace Xana

namespace Fs

open Chain

variable {σ : Type} {v : Vfs σ} {s s' : Fs σ} {L : ℕ → List Addr} {lo : ℤ} {p q : ℕ}

/-! ### Tables as lists of entries -/

/-- The descriptors of a table but for number `i`. -/
def without (i : ℤ) (l : List Entry) : List Entry := l.filter fun e => e.descriptorId ≠ i

theorem Tables.table_eq (h : s.Tables L lo) (q : ℕ) : s.table q = (L q).map s.entry := by
  rw [table, h.chain_eq]

theorem Tables.ids_eq (h : s.Tables L lo) (q : ℕ) : s.ids q = (L q).map s.id := by
  rw [ids, h.table_eq, List.map_map]
  rfl

theorem Tables.mem_ids (h : s.Tables L lo) {i : ℤ} : i ∈ s.ids q ↔ ∃ a ∈ L q, s.id a = i := by
  rw [h.ids_eq, List.mem_map]

/-- Leaving out a descriptor leaves the nodes around its own. -/
theorem without_map {f : Addr → Entry} {l₁ l₂ : List Addr} {a : Addr}
    (h : ∀ b ∈ l₁ ++ l₂, (f b).descriptorId ≠ (f a).descriptorId) :
    without (f a).descriptorId ((l₁ ++ a :: l₂).map f) = (l₁ ++ l₂).map f := by
  have hsplit : without (f a).descriptorId ((l₁ ++ a :: l₂).map f) =
      without (f a).descriptorId ((l₁ ++ l₂).map f) := by simp [without]
  rw [hsplit]
  exact List.filter_eq_self.mpr (List.forall_mem_map.mpr fun b hb => decide_eq_true (h b hb))

theorem Tables.without_table (h : s.Tables L lo) {l₁ l₂ : List Addr} {a : Addr}
    (hL : L p = l₁ ++ a :: l₂) : without (s.id a) (s.table p) = (l₁ ++ l₂).map s.entry := by
  obtain ⟨hlt₁, hlt₂⟩ := h.sorted_mid hL
  rw [h.table_eq, hL]
  refine without_map fun b hb => ?_
  rcases List.mem_append.mp hb with hb | hb
  · exact (hlt₁ b hb).ne
  · exact (hlt₂ b hb).ne'

/-- Leaving out a number that is not there leaves the table. -/
theorem Tables.without_of_free (h : s.Tables L lo) {i : ℤ} (hi : ∀ a ∈ L p, s.id a ≠ i) :
    without i (s.table p) = s.table p := by
  rw [h.table_eq]
  exact List.filter_eq_self.mpr (List.forall_mem_map.mpr fun b hb => decide_eq_true (hi b hb))

section Spliced

variable {k₁ k₂ : List Addr} {fd : Addr} {e : Entry}

/-- The nodes on the tables are filled in as before. -/
theorem Spliced.entry_of_mem (h : Spliced s s' L p k₁ k₂ fd e lo) {a : Addr} (ha : a ∈ L q) :
    s'.entry a = s.entry a := by
  rw [h.entry, Function.update_of_ne]
  exact ne_of_mem_of_not_mem ha (h.fresh q)

theorem Spliced.entry_self (h : Spliced s s' L p k₁ k₂ fd e lo) : s'.entry fd = e := by
  rw [h.entry, Function.update_self]

/-- The new descriptor is on the table. -/
theorem Spliced.mem_table (h : Spliced s s' L p k₁ k₂ fd e lo) : e ∈ s'.table p := by
  rw [h.tables.table_eq, Function.update_self, ← h.entry_self]
  exact List.mem_map_of_mem (by simp)

/-- What is on the table but for the new descriptor. -/
theorem Spliced.without_table (h : Spliced s s' L p k₁ k₂ fd e lo) (hk : ∀ a ∈ k₁ ++ k₂, a ∈ L p) :
    without e.descriptorId (s'.table p) = (k₁ ++ k₂).map s.entry := by
  have hid : s'.id fd = e.descriptorId := congrArg Entry.descriptorId h.entry_self
  rw [← hid, h.tables.without_table (Function.update_self ..)]
  exact List.map_congr_left fun a ha => h.entry_of_mem (hk a ha)

/-- Every other table is as it was. -/
theorem Spliced.table_of_ne (h : Spliced s s' L p k₁ k₂ fd e lo) (hs : s.Tables L lo) (hq : q ≠ p) :
    s'.table q = s.table q := by
  rw [h.tables.table_eq, Function.update_of_ne hq, hs.table_eq]
  exact List.map_congr_left fun a ha => h.entry_of_mem ha

end Spliced

/-! ### The laws -/

/-- Every callback there is returns, and every device can clone. -/
structure Returns (v : Vfs σ) : Prop where
  getPathDevice : ∀ path p dev, (v.getPathDevice path p dev).isSome
  openFunc : ∀ d f, (v.device d).openFunc = some f → ∀ rest flags dev, (f rest flags dev).isSome
  closeFunc : ∀ d f, (v.device d).closeFunc = some f → ∀ data dev, (f data dev).isSome
  dupFunc : ∀ d f, (v.device d).dupFunc = some f → ∀ data dev, (f data dev).isSome
  statFunc : ∀ d f, (v.device d).statFunc = some f → ∀ data dev, (f data dev).isSome
  cloneFunc : ∀ d, ∃ f, (v.device d).cloneFunc = some f ∧ ∀ data dev, (f data dev).isSome

/-- What a call needs: a caller, a number that is not negative for `kdup2` to use,
and for `kfork` a process that does not exist yet. -/
def Act.Allowed (s : Fs σ) (a : Act) : Prop :=
  a.caller ∈ s.procs ∧
    match a with
    | .kdup2 _ _ newfd _ => 0 ≤ newfd
    | .kfork _ c _ => c ∉ s.procs
    | _ => True

/-- Every table but that of `p` is as it was. -/
def KeepsOthers (s s' : Fs σ) (p : ℕ) : Prop := ∀ q, q ≠ p → s'.table q = s.table q

/-- **What the descriptor calls promise** in a state. -/
structure DescriptorLaws (v : Vfs σ) (s : Fs σ) : Prop where
  /-- The nodes of a table are a list that ends in `NULL`. -/
  finite : ∀ p, Seg s.next (s.heads p) (s.chain p) none
  /-- Its numbers are strictly increasing. -/
  increasing : ∀ p, (s.ids p).Pairwise (· < ·)
  /-- `kfopen` adds a descriptor under a number that was free, or does nothing. -/
  kfopen : ∀ m, ∀ p ∈ s.procs, ∀ path flags r s', s.kfopen v m p path flags = some (r, s') →
    if 0 ≤ r then r ∉ s.ids p ∧ r ∈ s'.ids p ∧ without r (s'.table p) = s.table p ∧
      KeepsOthers s s' p
    else s'.table = s.table
  /-- `kpipe` adds two. -/
  kpipe : ∀ m mp, ∀ p ∈ s.procs, ∀ i j s', s.kpipe v m p mp = some ((i, j), s') →
    i ∉ s.ids p ∧ j ∉ s.ids p ∧ i ≠ j ∧ i ∈ s'.ids p ∧ j ∈ s'.ids p ∧
      without i (without j (s'.table p)) = s.table p ∧ KeepsOthers s s' p
  /-- `kstat` leaves all tables as they were. -/
  kstat : ∀ m, ∀ p ∈ s.procs, ∀ path r s', s.kstat v m p path = some (r, s') →
    s'.table = s.table
  /-- `kdup2` makes `newfd` a descriptor of the device of `oldfd`, or does
  nothing. -/
  kdup2 : ∀ m p oldfd newfd r s', 0 ≤ newfd → s.kdup2 v m p oldfd newfd = some (r, s') →
    if 0 ≤ r then r = newfd ∧
      (∃ old ∈ s.table p, ∃ new ∈ s'.table p, old.descriptorId = oldfd ∧
        new.descriptorId = newfd ∧ new.device = old.device) ∧
      without newfd (s'.table p) = without newfd (s.table p) ∧ KeepsOthers s s' p
    else s'.table = s.table
  /-- `kfclose` removes the one descriptor, or does nothing when there is none. -/
  kfclose : ∀ p fd r s', s.kfclose v p fd = some (r, s') →
    if 0 ≤ r then fd ∈ s.ids p ∧ s'.table p = without fd (s.table p) ∧ KeepsOthers s s' p
    else fd ∉ s.ids p ∧ s'.table = s.table
  /-- `kfork` gives the child the numbers and the devices of the parent. -/
  kfork : ∀ m p c s', c ∉ s.procs → s.kfork v m p c = some s' →
    (s'.table c).map (fun e => (e.descriptorId, e.device)) =
      (s.table p).map (fun e => (e.descriptorId, e.device)) ∧ KeepsOthers s s' c
  /-- Every call returns, if the callbacks do. -/
  returns : Returns v → ∀ a : Act, a.Allowed s → (s.step v a).isSome

/-! ### The calls that change one table -/

theorem kfopen_law (h : s.Tables L) (v : Vfs σ) (m : Kmalloc) (hp : p ∈ s.procs)
    {path : List UInt8} {flags : ℕ} {r : ℤ} (hs : s.kfopen v m p path flags = some (r, s')) :
    if 0 ≤ r then r ∉ s.ids p ∧ r ∈ s'.ids p ∧ without r (s'.table p) = s.table p ∧
      KeepsOthers s s' p
    else s'.table = s.table := by
  obtain ⟨hr, rfl⟩ | ⟨device, rest, openFunc, returned, dev, -, -, herr | hok⟩ :=
    kfopen_cases h v m hp hs
  · rw [if_neg (by omega)]
  · obtain ⟨hr, rfl⟩ := herr
    rw [if_neg (by omega)]
    rfl
  · obtain ⟨k₁, k₂, -, hr, hL, hfree, -, hspl⟩ := hok
    have hwithout := hspl.without_table fun a ha => hL ▸ ha
    rw [← hL, ← h.table_eq] at hwithout
    refine (if_pos hr).mpr ⟨fun hc => ?_, List.mem_map_of_mem hspl.mem_table, hwithout,
      fun q hq => hspl.table_of_ne h hq⟩
    obtain ⟨a, ha, hi⟩ := h.mem_ids.mp hc
    exact hfree a ha hi

theorem kfclose_law (h : s.Tables L) (v : Vfs σ) {fd r : ℤ}
    (hs : s.kfclose v p fd = some (r, s')) :
    if 0 ≤ r then fd ∈ s.ids p ∧ s'.table p = without fd (s.table p) ∧ KeepsOthers s s' p
    else fd ∉ s.ids p ∧ s'.table = s.table := by
  rcases Tables.split_or L s p fd with ⟨l₁, a, l₂, hL, rfl⟩ | hfree
  · rw [kfclose_of_mem h v hL] at hs
    obtain ⟨dev, -, heq⟩ := Option.map_eq_some_iff.mp hs
    obtain ⟨rfl, rfl⟩ := Prod.mk.inj heq
    have htab := (h.setDev dev).spliceOut hL
    refine (if_pos le_rfl).mpr ⟨h.mem_ids.mpr ⟨a, by simp [hL], rfl⟩, ?_, fun q hq => ?_⟩
    · rw [htab.table_eq, Function.update_self, h.without_table hL]
      simp
    · rw [htab.table_eq, Function.update_of_ne hq, h.table_eq]
      simp
  · rw [kfclose_of_notMem h v hfree] at hs
    obtain ⟨rfl, rfl⟩ := Prod.mk.inj (Option.some.inj hs)
    refine (if_neg (by decide)).mpr ⟨fun hc => ?_, rfl⟩
    obtain ⟨a, ha, hi⟩ := h.mem_ids.mp hc
    exact hfree a ha hi

theorem kdup2_law (h : s.Tables L) (v : Vfs σ) (m : Kmalloc) {oldfd newfd r : ℤ}
    (hnew : 0 ≤ newfd) (hs : s.kdup2 v m p oldfd newfd = some (r, s')) :
    if 0 ≤ r then r = newfd ∧
      (∃ old ∈ s.table p, ∃ new ∈ s'.table p, old.descriptorId = oldfd ∧
        new.descriptorId = newfd ∧ new.device = old.device) ∧
      without newfd (s'.table p) = without newfd (s.table p) ∧ KeepsOthers s s' p
    else s'.table = s.table := by
  obtain ⟨hr, hs', -⟩ | ⟨a, dupFunc, data, dev, k₁, k₂, rfl, ha, hi, -, -, hspl, hrest⟩ :=
    kdup2_cases h v m hnew hs
  · rw [if_neg (by omega)]
    rcases hs' with rfl | rfl
    · rfl
    · funext q
      rw [h.table_eq, (h.kmalloc m).1.table_eq]
      rfl
  · -- `k₁` and `k₂` are the nodes that do not have the number
    have hkeep : (∀ b ∈ k₁ ++ k₂, b ∈ L p) ∧ without r (s.table p) = (k₁ ++ k₂).map s.entry := by
      rcases hrest with ⟨hL, hfree, -⟩ | ⟨c, hL, rfl, -⟩
      · refine ⟨fun b hb => hL ▸ hb, ?_⟩
        rw [h.without_of_free hfree, h.table_eq, hL]
      · refine ⟨fun b hb => ?_, h.without_table hL⟩
        rw [hL]
        exact List.mem_append.mpr ((List.mem_append.mp hb).imp_right (List.mem_cons_of_mem c))
    obtain ⟨hmem, hwithout⟩ := hkeep
    have hold : s.entry a ∈ s.table p := by
      rw [h.table_eq]
      exact List.mem_map_of_mem ha
    exact (if_pos hnew).mpr ⟨rfl, ⟨_, hold, _, hspl.mem_table, hi, rfl, rfl⟩,
      (hspl.without_table hmem).trans hwithout.symm, fun q hq => hspl.table_of_ne h hq⟩

/-- A number stands for one descriptor of a table. -/
theorem Tables.eq_of_descriptorId (h : s.Tables L lo) {e e' : Entry} (he : e ∈ s.table p)
    (he' : e' ∈ s.table p) (hid : e.descriptorId = e'.descriptorId) : e = e' := by
  rw [h.table_eq] at he he'
  obtain ⟨a, ha, rfl⟩ := List.mem_map.mp he
  obtain ⟨b, hb, rfl⟩ := List.mem_map.mp he'
  rw [h.eq_of_id ha hb hid]

/-- **What `kdup2` comes to** when the `dup` callback returns: the new descriptor is what
the callback returned, and the one that had the number `newfd` has been closed. -/
theorem kdup2_result (h : s.Tables L lo) (v : Vfs σ) (m : Kmalloc) {a : Addr} (ha : a ∈ L p)
    {newfd r : ℤ} {dupFunc : ℕ → σ → Option (ℕ × σ)} {data : ℕ} {dev : σ}
    (hdup : (v.device (s.entry a).device).dupFunc = some dupFunc)
    (hret : dupFunc (s.entry a).data s.dev = some (data, dev))
    (hs : s.kdup2 v m p (s.id a) newfd = some (r, s')) :
    r = newfd ∧ s' ≠ s ∧
      (∃ new ∈ s'.table p,
        new = ⟨newfd, dropCloexec (s.entry a).flags, (s.entry a).device, data⟩ ∧
          ∀ e ∈ s'.table p, e.descriptorId = newfd → e = new) ∧
      ((s'.dev = dev ∧ ∀ c ∈ s.table p, c.descriptorId ≠ newfd) ∨
        ∃ c ∈ s.table p, c.descriptorId = newfd ∧ callClose v c dev = some s'.dev) := by
  obtain ⟨-, -, hnone⟩ | ⟨b, f, data', dev', k₁, k₂, rfl, hb, hid, hf, hr, hspl, hrest⟩ :=
    kdup2_cases (h.mono (min_le_left lo newfd)) v m (min_le_right lo newfd) hs
  · rw [hnone a ha rfl] at hdup
    simp at hdup
  obtain rfl := h.eq_of_id hb ha hid
  obtain rfl := Option.some.inj (hf.symm.trans hdup)
  obtain ⟨rfl, rfl⟩ := Prod.mk.inj (Option.some.inj (hr.symm.trans hret))
  refine ⟨rfl, ?_, ⟨_, hspl.mem_table, rfl, fun e he hid => ?_⟩, ?_⟩
  · rintro rfl
    -- the new node is on no table of the old state
    have hL := h.chain_eq.symm.trans hspl.tables.chain_eq
    refine hspl.fresh p ?_
    rw [hL, Function.update_self]
    simp
  · exact hspl.tables.eq_of_descriptorId he hspl.mem_table hid
  · rw [h.table_eq]
    rcases hrest with ⟨-, hfree, hdev⟩ | ⟨c, hL, hid, hclose⟩
    · exact Or.inl ⟨hdev, List.forall_mem_map.mpr hfree⟩
    · exact Or.inr ⟨_, List.mem_map_of_mem (by simp [hL]), hid, hclose⟩

/-- `kdup2` does not return when the `dup` callback does not. -/
theorem kdup2_of_dup_none (h : s.Tables L lo) (v : Vfs σ) (m : Kmalloc) {a : Addr} (ha : a ∈ L p)
    {newfd : ℤ} {dupFunc : ℕ → σ → Option (ℕ × σ)}
    (hdup : (v.device (s.entry a).device).dupFunc = some dupFunc)
    (hret : dupFunc (s.entry a).data s.dev = none) : s.kdup2 v m p (s.id a) newfd = none := by
  obtain ⟨l₁, l₂, hL⟩ := List.append_of_mem ha
  simp only [Fs.kdup2, findDescriptor_of_mem h hL, Option.bind_eq_bind, Option.bind_some,
    kmalloc_entry, kmalloc_dev, hdup, hret, Option.bind_none]

theorem kpipe_law (h : s.Tables L) (v : Vfs σ) (m mp : Kmalloc) (hp : p ∈ s.procs) {i j : ℤ}
    (hs : s.kpipe v m p mp = some ((i, j), s')) :
    i ∉ s.ids p ∧ j ∉ s.ids p ∧ i ≠ j ∧ i ∈ s'.ids p ∧ j ∈ s'.ids p ∧
      without i (without j (s'.table p)) = s.table p ∧ KeepsOthers s s' p := by
  obtain ⟨i', j', t, fd₁, fd₂, k₁, k₂, l₁, l₂, hpipe, -, -, hij, hfree, hL, hl, hne, hfresh, htab,
    hentry, -, -⟩ := kpipe_spec h v m mp hp
  obtain ⟨heq, rfl⟩ := Prod.mk.inj (Option.some.inj (hpipe.symm.trans hs))
  obtain ⟨rfl, rfl⟩ := Prod.mk.inj heq
  have hold : ∀ q, ∀ a ∈ L q, t.entry a = s.entry a := fun q a ha => by
    have h₁ : a ≠ fd₁ := ne_of_mem_of_not_mem ha (hfresh q).1
    have h₂ : a ≠ fd₂ := ne_of_mem_of_not_mem ha (hfresh q).2
    rw [hentry, Function.update_of_ne h₂, Function.update_of_ne h₁]
  have hi : (t.entry fd₁).descriptorId = i' := by
    rw [hentry, Function.update_of_ne hne, Function.update_self]
  have hj : (t.entry fd₂).descriptorId = j' := by rw [hentry, Function.update_self]
  have htable : t.table p = (l₁ ++ fd₂ :: l₂).map t.entry := by
    rw [htab.table_eq, Function.update_self]
  have hmem : ∀ a ∈ l₁ ++ fd₂ :: l₂, (t.entry a).descriptorId ∈ t.ids p := fun a ha => by
    rw [ids, htable, List.map_map]
    exact List.mem_map_of_mem ha
  -- leaving out the second end leaves the first, and leaving that out what there was
  have hleft : without j' (t.table p) = (k₁ ++ fd₁ :: k₂).map t.entry := by
    rw [hl, ← hj]
    exact htab.without_table (Function.update_self ..)
  have hnot : ∀ i, (∀ a ∈ L p, s.id a ≠ i) → i ∉ s.ids p := fun i hi hc => by
    obtain ⟨a, ha, hai⟩ := h.mem_ids.mp hc
    exact hi a ha hai
  refine ⟨hnot i' fun a ha => (hfree a ha).1, hnot j' fun a ha => (hfree a ha).2, hij,
    hi ▸ hmem fd₁ ?_, hj ▸ hmem fd₂ (by simp), ?_, fun q hq => ?_⟩
  · have hfd : fd₁ ∈ l₁ ++ l₂ := hl ▸ List.mem_append_right _ (List.mem_cons_self ..)
    exact List.mem_append.mpr ((List.mem_append.mp hfd).imp_right (List.mem_cons_of_mem fd₂))
  · rw [hleft, ← hi, without_map, ← hL, h.table_eq]
    · exact List.map_congr_left (hold p)
    · intro b hb
      rw [← hL] at hb
      rw [hold p b hb, hi]
      exact (hfree b hb).1
  · rw [htab.table_eq, Function.update_of_ne hq, h.table_eq]
    exact List.map_congr_left (hold q)

theorem kfork_law (h : s.Tables L) (v : Vfs σ) (m : Kmalloc) {c : ℕ} (hc : c ∉ s.procs)
    (hs : s.kfork v m p c = some s') :
    (s'.table c).map (fun e => (e.descriptorId, e.device)) =
      (s.table p).map (fun e => (e.descriptorId, e.device)) ∧ KeepsOthers s s' c := by
  obtain ⟨M, htab, hentry, -, hclone⟩ := kfork_spec h v m hc hs
  constructor
  · rw [htab.table_eq, Function.update_self, cloneAll_map v hclone, h.table_eq]
  · intro q hq
    rw [htab.table_eq, Function.update_of_ne hq, h.table_eq]
    exact List.map_congr_left (hentry q)

/-! ### The calls keep the shape -/

theorem kfopen_tables (h : s.Tables L lo) (v : Vfs σ) (m : Kmalloc) (hp : p ∈ s.procs)
    {path : List UInt8} {flags : ℕ} {r : ℤ} (hs : s.kfopen v m p path flags = some (r, s')) :
    ∃ L', s'.Tables L' lo := by
  obtain ⟨-, rfl⟩ | ⟨_, _, _, _, dev, -, -, ⟨-, rfl⟩ | ⟨k₁, k₂, -, -, -, -, -, hspl⟩⟩ :=
    kfopen_cases h v m hp hs
  · exact ⟨L, h⟩
  · exact ⟨L, h.setDev dev⟩
  · exact ⟨_, hspl.tables⟩

theorem kfclose_tables (h : s.Tables L lo) (v : Vfs σ) {fd r : ℤ}
    (hs : s.kfclose v p fd = some (r, s')) : ∃ L', s'.Tables L' lo := by
  rcases Tables.split_or L s p fd with ⟨l₁, a, l₂, hL, rfl⟩ | hfree
  · rw [kfclose_of_mem h v hL] at hs
    obtain ⟨dev, -, heq⟩ := Option.map_eq_some_iff.mp hs
    obtain ⟨-, rfl⟩ := Prod.mk.inj heq
    exact ⟨_, (h.setDev dev).spliceOut hL⟩
  · rw [kfclose_of_notMem h v hfree] at hs
    obtain ⟨-, rfl⟩ := Prod.mk.inj (Option.some.inj hs)
    exact ⟨L, h⟩

theorem kfstat_dev {fd r : ℤ} (hs : s.kfstat v p fd = some (r, s')) :
    ∃ dev, s' = s.setDev dev := by
  obtain ⟨⟨prev, current⟩, -, hs⟩ := Option.bind_eq_some_iff.mp hs
  cases current with
  | none =>
    obtain ⟨-, rfl⟩ := Prod.mk.inj (Option.some.inj hs)
    exact ⟨s.dev, rfl⟩
  | some current =>
    cases hstat : (v.device (s.entry current).device).statFunc with
    | none =>
      simp only [hstat] at hs
      obtain ⟨-, rfl⟩ := Prod.mk.inj (Option.some.inj hs)
      exact ⟨s.dev, rfl⟩
    | some statFunc =>
      simp only [hstat] at hs
      obtain ⟨⟨ret, dev⟩, -, hs⟩ := Option.bind_eq_some_iff.mp hs
      obtain ⟨-, rfl⟩ := Prod.mk.inj (Option.some.inj hs)
      exact ⟨dev, rfl⟩

/-- **What `kstat` does**: it opens a descriptor, and closes it again. -/
theorem kstat_law (h : s.Tables L) (v : Vfs σ) (m : Kmalloc) (hp : p ∈ s.procs)
    {path : List UInt8} {r : ℤ} (hs : s.kstat v m p path = some (r, s')) :
    (∃ L', s'.Tables L') ∧ s'.table = s.table := by
  obtain ⟨⟨fd, s₁⟩, hopen, hs⟩ := Option.bind_eq_some_iff.mp hs
  obtain ⟨L₁, h₁⟩ := kfopen_tables h v m hp hopen
  have hlaw := kfopen_law h v m hp hopen
  simp only at hs
  split_ifs at hs with hfd
  · obtain ⟨-, rfl⟩ := Prod.mk.inj (Option.some.inj hs)
    rw [if_neg (by omega)] at hlaw
    exact ⟨⟨L₁, h₁⟩, hlaw⟩
  · rw [if_pos (by omega)] at hlaw
    obtain ⟨-, hmem, hwithout, hothers⟩ := hlaw
    obtain ⟨⟨ret, s₂⟩, hstat, hs⟩ := Option.bind_eq_some_iff.mp hs
    obtain ⟨⟨r', s₃⟩, hclose, hs⟩ := Option.bind_eq_some_iff.mp hs
    obtain ⟨-, rfl⟩ := Prod.mk.inj (Option.some.inj hs)
    obtain ⟨dev, rfl⟩ := kfstat_dev hstat
    have h₂ := h₁.setDev dev
    refine ⟨kfclose_tables h₂ v hclose, ?_⟩
    have hlaw' := kfclose_law h₂ v hclose
    split_ifs at hlaw'
    · obtain ⟨-, htable, hothers'⟩ := hlaw'
      funext q
      by_cases hq : q = p
      · rw [hq, htable]
        exact hwithout
      · exact (hothers' q hq).trans (hothers q hq)
    · exact absurd hmem hlaw'.1

/-- **The step lemma.** -/
theorem Tables.step (h : s.Tables L) {a : Act} (hs : Steps v s a s') : ∃ L', s'.Tables L' := by
  rw [Steps, Fs.step] at hs
  split_ifs at hs with hp
  cases a with
  | kfopen p path flags m =>
    obtain ⟨⟨r, t⟩, hcall, rfl⟩ := Option.map_eq_some_iff.mp hs
    exact kfopen_tables h v m hp hcall
  | kpipe p mp m =>
    obtain ⟨⟨r, t⟩, hcall, rfl⟩ := Option.map_eq_some_iff.mp hs
    obtain ⟨i, j, t', fd₁, fd₂, k₁, k₂, l₁, l₂, hpipe, -, -, -, -, -, -, -, -, htab, -⟩ :=
      kpipe_spec h v m mp hp
    obtain ⟨-, rfl⟩ := Prod.mk.inj (Option.some.inj (hpipe.symm.trans hcall))
    exact ⟨_, htab⟩
  | kstat p path m =>
    obtain ⟨⟨r, t⟩, hcall, rfl⟩ := Option.map_eq_some_iff.mp hs
    exact (kstat_law h v m hp hcall).1
  | kdup2 p oldfd newfd m =>
    rw [Fs.call] at hs
    split_ifs at hs with hnew
    obtain ⟨⟨r, t⟩, hcall, rfl⟩ := Option.map_eq_some_iff.mp hs
    obtain ⟨-, rfl | rfl, -⟩ | ⟨_, _, _, _, _, _, -, -, -, -, -, hspl, -⟩ :=
      kdup2_cases h v m hnew hcall
    · exact ⟨L, h⟩
    · exact ⟨L, (h.kmalloc m).1⟩
    · exact ⟨_, hspl.tables⟩
  | kfclose p fd =>
    obtain ⟨⟨r, t⟩, hcall, rfl⟩ := Option.map_eq_some_iff.mp hs
    exact kfclose_tables h v hcall
  | kfork p c m =>
    rw [Fs.call] at hs
    split_ifs at hs with hc
    obtain ⟨M, htab, -⟩ := kfork_spec h v m hc hs
    exact ⟨_, htab⟩

/-! ### The calls return -/

theorem Returns.callClose (hv : Returns v) (e : Entry) (dev : σ) :
    (callClose v e dev).isSome := by
  rw [Fs.callClose]
  cases hclose : (v.device e.device).closeFunc with
  | none => rfl
  | some closeFunc => exact hv.closeFunc _ _ hclose _ _

theorem Returns.kfclose (hv : Returns v) (h : s.Tables L) (fd : ℤ) :
    (s.kfclose v p fd).isSome := by
  rcases Tables.split_or L s p fd with ⟨l₁, a, l₂, hL, rfl⟩ | hfree
  · rw [kfclose_of_mem h v hL, Option.isSome_map]
    exact hv.callClose _ _
  · rw [kfclose_of_notMem h v hfree]
    rfl

theorem Returns.kfopen (hv : Returns v) (h : s.Tables L) (m : Kmalloc) (hp : p ∈ s.procs)
    (path : List UInt8) (flags : ℕ) : (s.kfopen v m p path flags).isSome := by
  obtain ⟨resolution, hpath⟩ := Option.isSome_iff_exists.mp (hv.getPathDevice path p s.dev)
  simp only [Fs.kfopen, hpath, Option.bind_eq_bind, Option.bind_some]
  rcases resolution with _ | ⟨device, rest⟩
  · rfl
  cases hopen : (v.device device).openFunc with
  | none => simp [hopen]
  | some openFunc =>
    obtain ⟨⟨returned, dev⟩, hret⟩ :=
      Option.isSome_iff_exists.mp (hv.openFunc _ _ hopen rest flags s.dev)
    simp only [hopen, hret, Option.bind_some]
    split_ifs
    · rfl
    · obtain ⟨htab, hal, hfresh⟩ := (h.setDev dev).kmalloc m
      obtain ⟨i, k₁, k₂, t, hadd, -⟩ := addDescriptor_spec
        (htab.setEntry hfresh ⟨0, flags, device, returned.pointer⟩) (p := p) hp hal hfresh
      exact Option.isSome_iff_exists.mpr ⟨_, hadd⟩

theorem Returns.kfstat (hv : Returns v) (h : s.Tables L) (fd : ℤ) :
    (s.kfstat v p fd).isSome := by
  rcases Tables.split_or L s p fd with ⟨l₁, a, l₂, hL, rfl⟩ | hfree
  · simp only [Fs.kfstat, findDescriptor_of_mem h hL, Option.bind_eq_bind, Option.bind_some]
    cases hstat : (v.device (s.entry a).device).statFunc with
    | none => simp
    | some statFunc =>
      obtain ⟨⟨ret, dev⟩, hret⟩ :=
        Option.isSome_iff_exists.mp (hv.statFunc _ _ hstat (s.entry a).data s.dev)
      simp [hret]
  · simp [Fs.kfstat, findDescriptor_of_notMem h hfree]

theorem Returns.kstat (hv : Returns v) (h : s.Tables L) (m : Kmalloc) (hp : p ∈ s.procs)
    (path : List UInt8) : (s.kstat v m p path).isSome := by
  obtain ⟨⟨fd, s₁⟩, hopen⟩ := Option.isSome_iff_exists.mp (hv.kfopen h m hp path 0)
  obtain ⟨L₁, h₁⟩ := kfopen_tables h v m hp hopen
  simp only [Fs.kstat, hopen, Option.bind_eq_bind, Option.bind_some]
  split_ifs
  · rfl
  · obtain ⟨⟨ret, s₂⟩, hstat⟩ := Option.isSome_iff_exists.mp (hv.kfstat h₁ (p := p) fd)
    obtain ⟨dev, rfl⟩ := kfstat_dev hstat
    obtain ⟨⟨r', s₃⟩, hclose⟩ :=
      Option.isSome_iff_exists.mp (hv.kfclose (h₁.setDev dev) (p := p) fd)
    simp [hstat, hclose]

/-- `kdup2` returns when the callbacks that it makes do: that of `oldfd`, and then the
`close` of what has the number `newfd`. -/
theorem kdup2_isSome (h : s.Tables L lo) (v : Vfs σ) (m : Kmalloc) {a : Addr} (ha : a ∈ L p)
    {newfd : ℤ} {dupFunc : ℕ → σ → Option (ℕ × σ)} {data : ℕ} {dev : σ}
    (hdup : (v.device (s.entry a).device).dupFunc = some dupFunc)
    (hret : dupFunc (s.entry a).data s.dev = some (data, dev))
    (hclose : ∀ c ∈ L p, s.id c = newfd → (callClose v (s.entry c) dev).isSome) :
    (s.kdup2 v m p (s.id a) newfd).isSome := by
  obtain ⟨l₁, l₂, hL⟩ := List.append_of_mem ha
  obtain ⟨hk, -, hfresh⟩ := h.kmalloc m
  simp only [Fs.kdup2, findDescriptor_of_mem h hL, Option.bind_eq_bind, Option.bind_some,
    kmalloc_entry, kmalloc_dev, hdup, hret]
  set e : Entry := ⟨newfd, dropCloexec (s.entry a).flags, (s.entry a).device, data⟩
  obtain ⟨t, ht⟩ : ∃ t, t = ((s.kmalloc m).2.setDev dev).setEntry (s.kmalloc m).1 e := ⟨_, rfl⟩
  have htab : t.Tables L lo := ht ▸ (hk.setDev dev).setEntry hfresh e
  have hold : ∀ c ∈ L p, t.entry c = s.entry c := by
    intro c hc
    have hne : c ≠ (s.kmalloc m).1 := ne_of_mem_of_not_mem hc (hfresh p)
    simp [ht, Fs.setEntry, hne]
  rw [← ht]
  rcases Tables.split_or L t p newfd with ⟨k₁, c, k₂, hL', hc⟩ | hfree
  · have hmem : c ∈ L p := by simp [hL']
    have hid : s.id c = newfd := by
      rw [← hc]
      exact congrArg Entry.descriptorId (hold c hmem).symm
    have hdev : t.dev = dev := by simp [ht]
    rw [← hc, placeDescriptor_of_mem htab v hL', Option.isSome_map, hold c hmem, hdev]
    exact hclose c hmem hid
  · obtain ⟨k₁, k₂, -, -, -, hplace⟩ :=
      placeDescriptor_of_notMem htab v (List.ne_nil_of_mem ha) hfree
    rw [hplace]
    rfl

theorem Returns.kdup2 (hv : Returns v) (h : s.Tables L) (m : Kmalloc) (oldfd newfd : ℤ) :
    (s.kdup2 v m p oldfd newfd).isSome := by
  rcases Tables.split_or L s p oldfd with ⟨l₁, a, l₂, hL, rfl⟩ | hfree
  · cases hdup : (v.device (s.entry a).device).dupFunc with
    | none =>
      simp only [Fs.kdup2, findDescriptor_of_mem h hL, Option.bind_eq_bind, Option.bind_some,
        kmalloc_entry, hdup]
      rfl
    | some dupFunc =>
      obtain ⟨⟨data, dev⟩, hret⟩ :=
        Option.isSome_iff_exists.mp (hv.dupFunc _ _ hdup (s.entry a).data s.dev)
      exact kdup2_isSome h v m (by simp [hL]) hdup hret fun _ _ _ => hv.callClose _ _
  · rw [kdup2_of_notMem h v m hfree]
    rfl

theorem Returns.kfork (hv : Returns v) (h : s.Tables L) (m : Kmalloc) (c : ℕ) :
    (s.kfork v m p c).isSome := by
  have hloop : (s.cloneFileDescriptors v m (s.heads p)).isSome :=
    cloneLoop_isSome (p := p) (M := []) m hv.cloneFunc ⟨h, rfl, by simp, by simp⟩ (h.seg p)
      (fun _ ha => ha) (Nat.lt_succ_of_le (h.length_le p))
  obtain ⟨⟨new, t⟩, hloop⟩ := Option.isSome_iff_exists.mp hloop
  simp [Fs.kfork, hloop]

/-- No call runs forever. -/
theorem Returns.call (hv : Returns v) (h : s.Tables L) (a : Act) (ha : a.Allowed s) :
    (s.call v a).isSome := by
  cases a with
  | kfopen p path flags m =>
    rw [Fs.call, Option.isSome_map]
    exact hv.kfopen h m ha.1 path flags
  | kpipe p mp m =>
    obtain ⟨i, j, t, fd₁, fd₂, k₁, k₂, l₁, l₂, hpipe, -⟩ := kpipe_spec (p := p) h v m mp ha.1
    rw [Fs.call, hpipe]
    rfl
  | kstat p path m =>
    rw [Fs.call, Option.isSome_map]
    exact hv.kstat h m ha.1 path
  | kdup2 p oldfd newfd m =>
    rw [Fs.call, if_pos ha.2, Option.isSome_map]
    exact hv.kdup2 h m oldfd newfd
  | kfclose p fd =>
    rw [Fs.call, Option.isSome_map]
    exact hv.kfclose h fd
  | kfork p c m =>
    rw [Fs.call, if_neg ha.2]
    exact hv.kfork h m c

/-! ### Runs -/

theorem IsInit.tables (h : s.IsInit) : s.Tables fun _ => [] where
  seg := h
  alloc := by simp
  disjoint := by simp
  sorted := by simp
  lo_le := by simp
  lo_nonpos := le_rfl
  absent := by simp

/-- **The run lemma.** -/
theorem exists_tables_of_reach (h : Reach (Steps v) anyStep IsInit s) : ∃ L, s.Tables L := by
  refine Reach.invariant (P := fun s => ∃ L, s.Tables L) (fun t ht => ⟨_, ht.tables⟩)
    (fun t a t' ht _ hs => ?_) h
  obtain ⟨L, ht⟩ := ht
  exact ht.step hs

/-- Everything the calls promise follows from the shape of the tables. -/
theorem Tables.laws (h : s.Tables L) (v : Vfs σ) : DescriptorLaws v s where
  finite := fun p => by
    rw [h.chain_eq]
    exact h.seg p
  increasing := fun p => by
    rw [h.ids_eq]
    exact h.sorted p
  kfopen := fun m _ hp _ _ _ _ hs => kfopen_law h v m hp hs
  kpipe := fun m mp _ hp _ _ _ hs => kpipe_law h v m mp hp hs
  kstat := fun m _ hp _ _ _ hs => (kstat_law h v m hp hs).2
  kdup2 := fun m _ _ _ _ _ hnew hs => kdup2_law h v m hnew hs
  kfclose := fun _ _ _ _ hs => kfclose_law h v hs
  kfork := fun m _ _ _ hc hs => kfork_law h v m hc hs
  returns := fun hv a ha => by
    rw [Fs.step, if_pos ha.1]
    exact hv.call h a ha

/-- **The descriptor calls keep their promises** in every state a run of them
reaches. -/
theorem descriptorLaws_of_reach (h : Reach (Steps v) anyStep IsInit s) : DescriptorLaws v s := by
  obtain ⟨L, ht⟩ := exists_tables_of_reach h
  exact ht.laws v

/-- Devices all of whose callbacks do nothing. -/
def idleVfs : Vfs Unit where
  device _ := ⟨some fun _ _ _ => some (⟨0, 0, le_rfl⟩, ()), some fun _ _ => some (),
    some fun data _ => some (data, ()), some fun data _ => some (data, ()),
    some fun _ _ => some (0, ())⟩
  pipeDeviceIn := 1
  pipeDeviceOut := 2
  getPathDevice path _ _ := some (some (0, path))
  newPipe _ _ := (0, ())

/-- An allocator that never hands out a block twice. -/
def bump : Kmalloc where
  addr blocks := blocks.fold max 0 (fun b => b) + 1
  fresh blocks hb := by
    have hle : blocks.fold max 0 (fun b => b) + 1 ≤ blocks.fold max 0 fun b => b :=
      (Finset.le_fold_max _).mpr (Or.inr ⟨_, hb, le_rfl⟩)
    exact Nat.not_succ_le_self _ hle

/-- One process, and no descriptor. -/
def bootFs : Fs Unit := ⟨fun _ => ⟨0, 0, 0, 0⟩, fun _ => none, ∅, {0}, fun _ => none, ()⟩

/-- Two files, a duplicate, a pipe, a hole and a child. -/
theorem descriptorLaws_of_reach_fork : ∃ s : Fs Unit, DescriptorLaws idleVfs s ∧
    s.ids 0 = [1, 2, 3, 5] ∧ s.ids 1 = [1, 2, 3, 5] := by
  have hrun : ((exec (step idleVfs) bootFs [.kfopen 0 [] 0 bump, .kfopen 0 [] 0 bump,
      .kdup2 0 1 5 bump, .kpipe 0 bump bump, .kfclose 0 0, .kfork 0 1 bump]).map
        fun s => (s.ids 0, s.ids 1)) = some ([1, 2, 3, 5], [1, 2, 3, 5]) := by decide +kernel
  obtain ⟨s, hs, hids⟩ := Option.map_eq_some_iff.mp hrun
  obtain ⟨h0, h1⟩ := Prod.mk.inj hids
  exact ⟨s, descriptorLaws_of_reach (Reach.of_exec (.init fun _ => rfl) hs), h0, h1⟩

end Fs

end Xana
