import Mathlib.Algebra.BigOperators.Group.Finset.Basic
import Mathlib.Algebra.Order.Group.Multiset
import Xana.Filesystem.Descriptors

/-!
# The descriptors of all processes

What is counted is counted over the tables of all processes, so this is about the multiset of
all descriptors (`Xana.Fs.descriptors`). A call changes it as it changes the table of its
caller; and what it does to it, and which callbacks it makes on the way, is one statement for
each of `kfopen`, `kdup2`, `kfclose` and `kfork`, whatever the lower bound of the numbers is.
-/

namespace Xana

namespace Fs

variable {σ : Type} {s s' : Fs σ} {L : ℕ → List Addr} {lo : ℤ} {p : ℕ}

/-- The descriptors in the tables of all processes. -/
def descriptors (s : Fs σ) : Multiset Entry := ∑ p ∈ s.procs, (s.table p : Multiset Entry)

theorem mem_descriptors {e : Entry} (hp : p ∈ s.procs) (he : e ∈ s.table p) :
    e ∈ s.descriptors :=
  Multiset.mem_sum.mpr ⟨p, hp, he⟩

/-- A call that changes one table changes all descriptors as it changes that
table. -/
theorem descriptors_of_keepsOthers (hk : KeepsOthers s s' p) (hp : p ∈ s.procs)
    (hprocs : s'.procs = s.procs) : s'.descriptors + s.table p = s.descriptors + s'.table p := by
  have hrest : ∑ q ∈ s.procs.erase p, (s'.table q : Multiset Entry) =
      ∑ q ∈ s.procs.erase p, (s.table q : Multiset Entry) :=
    Finset.sum_congr rfl fun q hq => by rw [hk q (Finset.ne_of_mem_erase hq)]
  rw [descriptors, descriptors, hprocs, ← Finset.add_sum_erase _ _ hp,
    ← Finset.add_sum_erase _ _ hp, hrest, add_right_comm, add_comm (s'.table p : Multiset Entry),
    add_right_comm]

/-- A call that leaves the tables leaves all descriptors. -/
theorem descriptors_congr (h : s'.table = s.table) (hprocs : s'.procs = s.procs) :
    s'.descriptors = s.descriptors := by rw [descriptors, descriptors, h, hprocs]

variable {k₁ k₂ : List Addr} {fd : Addr} {e : Entry}

/-- The table a node has been put on, in some order. -/
theorem Spliced.coe_table (h : Spliced s s' L p k₁ k₂ fd e lo) (hk : ∀ a ∈ k₁ ++ k₂, a ∈ L p) :
    (s'.table p : Multiset Entry) = e ::ₘ ((k₁ ++ k₂).map s.entry : Multiset Entry) := by
  have hrest : (k₁ ++ k₂).map s'.entry = (k₁ ++ k₂).map s.entry :=
    List.map_congr_left fun a ha => h.entry_of_mem (hk a ha)
  rw [h.tables.table_eq, Function.update_self, Multiset.cons_coe, Multiset.coe_eq_coe, ← hrest]
  refine (List.perm_middle.map s'.entry).trans ?_
  rw [List.map_cons, h.entry_self]

/-- Splicing a descriptor in adds it. -/
theorem Spliced.descriptors (h : Spliced s s' L p k₁ k₂ fd e lo) (hs : s.Tables L lo)
    (hp : p ∈ s.procs) (hL : L p = k₁ ++ k₂) : s'.descriptors = e ::ₘ s.descriptors := by
  have hsum := descriptors_of_keepsOthers (fun q hq => h.table_of_ne hs hq) hp h.procs
  rw [h.coe_table fun a ha => hL ▸ ha, hs.table_eq, hL, Multiset.add_cons,
    ← Multiset.cons_add] at hsum
  exact add_right_cancel hsum

/-- Splicing a descriptor in for another exchanges the two. -/
theorem Spliced.descriptors_exchange (h : Spliced s s' L p k₁ k₂ fd e lo) (hs : s.Tables L lo)
    {c : Addr} (hL : L p = k₁ ++ c :: k₂) :
    s.entry c ::ₘ s'.descriptors = e ::ₘ s.descriptors := by
  have hp : p ∈ s.procs := hs.of_mem (a := c) (by simp [hL])
  have hmem : ∀ a ∈ k₁ ++ k₂, a ∈ L p := fun a ha => by
    rw [hL]
    exact List.mem_append.mpr ((List.mem_append.mp ha).imp_right (List.mem_cons_of_mem c))
  have hold : (s.table p : Multiset Entry) =
      s.entry c ::ₘ ((k₁ ++ k₂).map s.entry : Multiset Entry) := by
    rw [hs.table_eq, hL, Multiset.cons_coe, Multiset.coe_eq_coe]
    exact List.perm_middle.map s.entry
  have hsum := descriptors_of_keepsOthers (fun q hq => h.table_of_ne hs hq) hp h.procs
  rw [h.coe_table hmem, hold, Multiset.add_cons, Multiset.add_cons, ← Multiset.cons_add,
    ← Multiset.cons_add] at hsum
  exact add_right_cancel hsum

/-- Splicing a descriptor out takes it away. -/
theorem Tables.descriptors_spliceOut (hs : s.Tables L lo) {a : Addr} {l₁ l₂ : List Addr}
    (hL : L p = l₁ ++ a :: l₂) : s.entry a ::ₘ (s.spliceOut p l₁ l₂ a).descriptors =
      s.descriptors := by
  have hp : p ∈ s.procs := hs.of_mem (a := a) (by simp [hL])
  have htab := hs.spliceOut hL
  have hk : KeepsOthers s (s.spliceOut p l₁ l₂ a) p := fun q hq => by
    rw [htab.table_eq, Function.update_of_ne hq, hs.table_eq, spliceOut_entry]
  have hold : (s.table p : Multiset Entry) =
      s.entry a ::ₘ ((s.spliceOut p l₁ l₂ a).table p : Multiset Entry) := by
    rw [hs.table_eq, hL, htab.table_eq, Function.update_self, spliceOut_entry, Multiset.cons_coe,
      Multiset.coe_eq_coe]
    exact List.perm_middle.map s.entry
  have hsum := descriptors_of_keepsOthers hk hp (by simp)
  rw [hold, Multiset.add_cons, ← Multiset.cons_add] at hsum
  exact add_right_cancel hsum

/-! ### One call -/

variable {r : ℤ}

theorem Tables.mem_procs (h : s.Tables L lo) {e : Entry} (he : e ∈ s.table p) :
    p ∈ s.procs := by
  rw [h.table_eq] at he
  obtain ⟨a, ha, -⟩ := List.mem_map.mp he
  exact h.of_mem ha

theorem Tables.entry_mem_table (h : s.Tables L lo) {a : Addr} (ha : a ∈ L p) :
    s.entry a ∈ s.table p := by
  rw [h.table_eq]
  exact List.mem_map_of_mem ha

/-- **`kfopen`** makes a descriptor of what it has opened. -/
theorem kfopen_descriptors (h : s.Tables L lo) (v : Vfs σ) (m : Kmalloc) (hp : p ∈ s.procs)
    {path : List UInt8} {flags : ℕ} (hs : s.kfopen v m p path flags = some (r, s')) :
    (∃ L', s'.Tables L' lo) ∧ ((s'.descriptors = s.descriptors ∧ s'.dev = s.dev) ∨
      ∃ device rest openFunc returned,
        v.getPathDevice path p s.dev = some (some (device, rest)) ∧
        (v.device device).openFunc = some openFunc ∧
        openFunc rest flags s.dev = some (returned, s'.dev) ∧
        ((returned.value ≠ 0 ∧ s'.descriptors = s.descriptors) ∨
          (returned.value = 0 ∧
            s'.descriptors = ⟨r, flags, device, returned.pointer⟩ ::ₘ s.descriptors))) := by
  obtain ⟨-, rfl⟩ | ⟨device, rest, f, returned, dev, hpath, hf, hr, ⟨hval, -, rfl⟩ | hok⟩ :=
    kfopen_resolved h v m hp hs
  · exact ⟨⟨L, h⟩, Or.inl ⟨rfl, rfl⟩⟩
  · exact ⟨⟨L, h.setDev dev⟩, Or.inr ⟨device, rest, f, returned, hpath, hf, hr,
      Or.inl ⟨hval, rfl⟩⟩⟩
  · obtain ⟨k₁, k₂, hval, -, hL, -, rfl, hspl⟩ := hok
    exact ⟨⟨_, hspl.tables⟩, Or.inr ⟨device, rest, f, returned, hpath, hf, hr,
      Or.inr ⟨hval, hspl.descriptors h hp hL⟩⟩⟩

/-- **`kfclose`** takes a descriptor away and tells its device. -/
theorem kfclose_descriptors (h : s.Tables L lo) (v : Vfs σ) {fd : ℤ}
    (hs : s.kfclose v p fd = some (r, s')) :
    (∃ L', s'.Tables L' lo) ∧ (s' = s ∨ ∃ e ∈ s.table p, e.descriptorId = fd ∧
      callClose v e s.dev = some s'.dev ∧ e ::ₘ s'.descriptors = s.descriptors) := by
  rcases Tables.split_or L s p fd with ⟨l₁, a, l₂, hL, rfl⟩ | hfree
  · rw [kfclose_of_mem h v hL] at hs
    obtain ⟨dev, hclose, heq⟩ := Option.map_eq_some_iff.mp hs
    obtain ⟨-, rfl⟩ := Prod.mk.inj heq
    have ht' := h.setDev dev
    refine ⟨⟨_, ht'.spliceOut hL⟩, Or.inr ⟨s.entry a, h.entry_mem_table (by simp [hL]), rfl, ?_,
      ht'.descriptors_spliceOut hL⟩⟩
    simpa using hclose
  · rw [kfclose_of_notMem h v hfree] at hs
    obtain ⟨-, rfl⟩ := Prod.mk.inj (Option.some.inj hs)
    exact ⟨⟨L, h⟩, Or.inl rfl⟩

/-- **`kdup2`** makes a descriptor of what the device says is a duplicate, and closes the one
that had its number. -/
theorem kdup2_descriptors (h : s.Tables L lo) (v : Vfs σ) (m : Kmalloc) {oldfd newfd : ℤ}
    (hs : s.kdup2 v m p oldfd newfd = some (r, s')) :
    (∃ L', s'.Tables L' (min lo newfd)) ∧ ((s'.descriptors = s.descriptors ∧ s'.dev = s.dev) ∨
      ∃ e ∈ s.table p, ∃ dupFunc data dev, e.descriptorId = oldfd ∧
        (v.device e.device).dupFunc = some dupFunc ∧ dupFunc e.data s.dev = some (data, dev) ∧
        ((s'.dev = dev ∧
            s'.descriptors = ⟨newfd, dropCloexec e.flags, e.device, data⟩ ::ₘ s.descriptors) ∨
          ∃ c ∈ s.table p, callClose v c dev = some s'.dev ∧ c ::ₘ s'.descriptors =
            ⟨newfd, dropCloexec e.flags, e.device, data⟩ ::ₘ s.descriptors)) := by
  have hmin := h.mono (min_le_left lo newfd)
  obtain ⟨-, rfl | rfl, -⟩ | ⟨a, f, data, dev, k₁, k₂, -, ha, hid, hf, hr, hspl, hrest⟩ :=
    kdup2_cases hmin v m (min_le_right lo newfd) hs
  · exact ⟨⟨L, hmin⟩, Or.inl ⟨rfl, rfl⟩⟩
  · have hk := (h.kmalloc m).1
    have htable : (s.kmalloc m).2.table = s.table := funext fun q => by
      rw [h.table_eq, hk.table_eq]
      rfl
    exact ⟨⟨L, (hmin.kmalloc m).1⟩, Or.inl ⟨descriptors_congr htable rfl, rfl⟩⟩
  · refine ⟨⟨_, hspl.tables⟩, Or.inr ⟨s.entry a, h.entry_mem_table ha, f, data, dev, hid, hf, hr,
      ?_⟩⟩
    rcases hrest with ⟨hL, -, hdev⟩ | ⟨c, hL, -, hclose⟩
    · exact Or.inl ⟨hdev, hspl.descriptors hmin (h.of_mem ha) hL⟩
    · exact Or.inr ⟨s.entry c, h.entry_mem_table (by simp [hL]), hclose,
        hspl.descriptors_exchange hmin hL⟩

/-- **`kfork`** makes a clone of every descriptor of the caller. -/
theorem kfork_descriptors (h : s.Tables L lo) (v : Vfs σ) (m : Kmalloc) {c : ℕ} (hc : c ∉ s.procs)
    (hs : s.kfork v m p c = some s') :
    (∃ L', s'.Tables L' lo) ∧ ∃ es : List Entry, cloneAll v (s.table p) s.dev = some (es, s'.dev) ∧
      s'.descriptors = es + s.descriptors := by
  obtain ⟨M, htab, hentry, hprocs, hclone⟩ := kfork_spec h v m hc hs
  refine ⟨⟨_, htab⟩, M.map s'.entry, by rwa [h.table_eq], ?_⟩
  have hold : ∑ q ∈ s.procs, (s'.table q : Multiset Entry) = s.descriptors :=
    Finset.sum_congr rfl fun q hq => by
      rw [htab.table_eq, Function.update_of_ne (ne_of_mem_of_not_mem hq hc), h.table_eq,
        List.map_congr_left (hentry q)]
  rw [descriptors, hprocs, Finset.sum_insert hc, hold, htab.table_eq, Function.update_self]

end Fs

end Xana
