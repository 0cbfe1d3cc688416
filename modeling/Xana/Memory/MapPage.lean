import Xana.Memory.Tables

/-!
# What `map_page_kmalloc` does

An allocator of tables returns a fresh chunk and leaves the tables in use alone
(`NewTable`). With such an allocator the first three `if`s of
`map_page_kmalloc` add tables and change no entry (`Grew`), and what is left is
one entry that is written, unless there is one
(`TreeInv.mapPageKmalloc`).
-/

namespace Xana

open Forest

/-- **What a call that allocates a table does**: it returns a fresh chunk, and the
tables in use are as they were. -/
structure NewTable (key : ℕ → List ℕ → Prop) (m : Machine) (size p : ℕ) (m' : Machine) : Prop where
  fresh : Fresh m m.live ⟨p, size, true⟩
  live : m.live ⊆ m'.live
  mem_live : ⟨p, size, true⟩ ∈ m'.live
  kheap : m'.kheap = m.kheap
  dirs : ∀ {r q t}, key r q → walk m.kid r q = some t → q.length < 3 → m'.dirs t = m.dirs t
  tabs : ∀ {r q t}, key r q → walk m.kid r q = some t → q.length = 3 → m'.tabs t = m.tabs t

/-- In page directories on the given keys there are no 2 MiB pages. -/
def SmallPages (m : Machine) (key : ℕ → List ℕ → Prop) : Prop :=
  ∀ {r q t i}, key r (q ++ [i]) → q.length = 2 → walk m.kid r q = some t → m.kid t i = none →
    (m.dirs t).entries i &&& 1 = 0

/-- **Tables have been added.** -/
structure Grew (key : ℕ → List ℕ → Prop) (m m' : Machine) : Prop where
  tree : TreeInv m' m'.live key
  kheap : m'.kheap = m.kheap
  live : m.live ⊆ m'.live
  entry : ∀ {r v}, key r (slots v) → m'.entry r v = m.entry r v
  walk : ∀ {r p t}, key r p → walk m.kid r p = some t → walk m'.kid r p = some t
  /-- A table was there, or it is a new chunk. -/
  table : ∀ {r p t}, key r p → Forest.walk m'.kid r p = some t → Forest.walk m.kid r p = some t ∨
    ∃ n, ⟨t, n, true⟩ ∈ m'.live ∧ Fresh m m.live ⟨t, n, true⟩
  small : SmallPages m key → SmallPages m' key

section Put

variable {m m' m'' : Machine} {key : ℕ → List ℕ → Prop} {r d i p e n t v : ℕ} {q : List ℕ}

/-- A page directory is put in a slot, as `map_page_kmalloc` does it. -/
theorem tablePut_dir (hp : 0 < p) (hd : p ≠ d) (hn : n < 3) :
    TablePut m ((((m.setVirt d i p).clearDir p).setFull d i false).setEntry d i e) d i p n where
  grafted := by
    constructor
    · rw [Machine.kid_setEntry, Machine.kid_setFull, Machine.kid_clearDir, if_neg hd.symm,
        Machine.kid_setVirt, if_pos ⟨rfl, rfl⟩, pointer_of_pos hp]
    · intro a j ha haj
      rw [Machine.kid_setEntry, Machine.kid_setFull, Machine.kid_clearDir, if_neg ha,
        Machine.kid_setVirt, if_neg haj]
  rest := rfl
  dirs := by
    intro a hap had
    simp [Machine.setVirt, Machine.clearDir, Machine.setFull, Machine.setEntry, hap, had]
  entries := by
    intro _ j hj
    simp [Machine.setVirt, Machine.clearDir, Machine.setFull, Machine.setEntry, hd.symm, hj]
  tabs := fun _ _ => rfl
  newDir := by
    intro _ _
    simp [Machine.setVirt, Machine.clearDir, Machine.setFull, Machine.setEntry, hd]
  newTab := fun h => absurd h hn.ne

/-- A page table is put in a slot, as `map_page_kmalloc` does it. -/
theorem tablePut_tab (hp : 0 < p) :
    TablePut m ((((m.setVirt d i p).clearTab p).setFull d i false).setEntry d i e) d i p 3 where
  grafted := by
    constructor
    · rw [Machine.kid_setEntry, Machine.kid_setFull, Machine.kid_clearTab, Machine.kid_setVirt,
        if_pos ⟨rfl, rfl⟩, pointer_of_pos hp]
    · intro a j _ haj
      rw [Machine.kid_setEntry, Machine.kid_setFull, Machine.kid_clearTab, Machine.kid_setVirt,
        if_neg haj]
  rest := rfl
  dirs := by
    intro a _ had
    simp [Machine.setVirt, Machine.clearTab, Machine.setFull, Machine.setEntry, had]
  entries := by
    intro _ j hj
    simp [Machine.setVirt, Machine.clearTab, Machine.setFull, Machine.setEntry, hj]
  tabs := by
    intro a ha
    exact Function.update_of_ne ha _ _
  newDir := fun h _ => absurd h (by omega)
  newTab := by
    intro _ j
    show Function.update m.tabs p (fun _ => 0) p j = 0
    rw [Function.update_self]

namespace Grew

theorem refl (h : TreeInv m m.live key) : Grew key m m where
  tree := h
  kheap := rfl
  live := fun _ hu => hu
  entry := fun _ => rfl
  walk := fun _ hw => hw
  table := fun _ hw => Or.inl hw
  small := fun h => h

theorem trans (h : Grew key m m') (h' : Grew key m' m'') : Grew key m m'' where
  tree := h'.tree
  kheap := h'.kheap.trans h.kheap
  live := fun _ hu => h'.live (h.live hu)
  entry := fun hv => (h'.entry hv).trans (h.entry hv)
  walk := fun hp hw => h'.walk hp (h.walk hp hw)
  table := by
    intro r p t hp hw
    rcases h'.table hp hw with hw' | ⟨n, hn, hf⟩
    · exact (h.table hp hw').imp id fun ⟨n, hn, hf⟩ => ⟨n, h'.live hn, hf⟩
    · refine Or.inr ⟨n, hn, hf.pos, ?_, hf.size_pos, fun v hv => hf.apart v (h.live hv)⟩
      have hle := hf.le_ptr
      rwa [h.kheap] at hle
  small := fun hs => h'.small (h.small hs)

end Grew

/-- The allocation of a table leaves the trees alone. -/
theorem NewTable.walk_eq {size : ℕ} (h : NewTable key m size p m')
    (hinit : ∀ {r p i}, key r (p ++ [i]) → key r p) (hlen : ∀ {r p}, key r p → p.length ≤ 3)
    (hq : key r q) : walk m'.kid r q = walk m.kid r q := by
  refine walk_congr hinit (fun q i d hqi hw => ?_) hq
  have hle := hlen hqi
  rw [List.length_append, List.length_singleton] at hle
  rw [Machine.kid, Machine.kid, h.dirs (hinit hqi) hw (by omega)]

theorem NewTable.tree {size : ℕ} (h : NewTable key m size p m') (ht : TreeInv m m.live key) :
    TreeInv m' m.live key :=
  ht.congr (fun _ _ hq => h.walk_eq ht.unshared.init ht.length_le hq) h.kheap

/-- **A new table in an empty slot.** -/
theorem NewTable.grew {m₁ : Machine} (ht : TreeInv m m.live key)
    (h : NewTable key m (tableSize (q.length + 1)) p m₁) (hq : key r q)
    (hd : walk m.kid r q = some d) (hnone : m.kid d i = none)
    (hput : TablePut m₁ m' d i p (q.length + 1)) (hqi : key r (q ++ [i])) :
    Grew key m m' ∧ walk m'.kid r (q ++ [i]) = some p := by
  have htree := h.tree ht
  have hwalk : ∀ {r q}, key r q → walk m₁.kid r q = walk m.kid r q := fun hq =>
    h.walk_eq ht.unshared.init ht.length_le hq
  have hlen := ht.length_le hqi
  rw [List.length_append, List.length_singleton] at hlen
  have hdirs := h.dirs hq hd (by omega)
  have hfresh : Fresh m₁ m.live ⟨p, tableSize (q.length + 1), true⟩ :=
    ⟨h.fresh.pos, by rw [h.kheap]; exact h.fresh.le_ptr, h.fresh.size_pos, h.fresh.apart⟩
  have hd₁ : walk m₁.kid r q = some d := (hwalk hq).trans hd
  have hnone₁ : m₁.kid d i = none := by rwa [Machine.kid, hdirs]
  have hne := htree.ne_of_fresh hfresh
  have hlive : m'.live = m₁.live := by rw [hput.rest]
  have hwp : ∀ {r' q'}, key r' q' →
      walk m'.kid r' q' = if r' = r ∧ q' = q ++ [i] then some p else walk m.kid r' q' := by
    intro r' q' hq'
    rw [htree.walk_put hne hq hd₁ hnone₁ hput hq', hwalk hq']
  have hpd : p ≠ d := fun heq => hne r q hq (heq ▸ hd₁)
  refine ⟨⟨?_, ?_, ?_, ?_, ?_, ?_, ?_⟩, ?_⟩
  · -- the tree
    rw [hlive]
    exact htree.put hne hq hd₁ hnone₁ hput (Or.inl h.mem_live) h.live
  · rw [hput.rest]
    exact h.kheap
  · intro u hu
    rw [hlive]
    exact h.live hu
  · -- the entries
    intro r' v hv
    rw [htree.entry_put hne hq hd₁ hnone₁ hput hv]
    cases hw : walk m.kid r' (slots v) with
    | none => rw [entry_of_none hw, entry_of_none ((hwalk hv).trans hw)]
    | some a =>
      rw [entry_of_walk hw, entry_of_walk ((hwalk hv).trans hw), h.tabs hv hw rfl]
  · -- a walk that went through still does, since the slot was empty
    intro r' q' a hq' hw
    rw [hwp hq', if_neg, hw]
    rintro ⟨rfl, rfl⟩
    rw [walk_concat, hd, Option.bind_some, hnone] at hw
    exact absurd hw (by simp)
  · intro r' q' a hq' hw
    rw [hwp hq'] at hw
    split_ifs at hw with hc
    · obtain rfl := Option.some.inj hw
      exact Or.inr ⟨_, by rw [hlive]; exact h.mem_live, h.fresh⟩
    · exact Or.inl hw
  · -- the page directories
    intro hs r' q' a j hqj hlen' hw hnone'
    rw [hwp (ht.unshared.init hqj)] at hw
    split_ifs at hw with hc
    · obtain rfl := Option.some.inj hw
      obtain ⟨rfl, rfl⟩ := hc
      rw [List.length_append, List.length_singleton] at hlen'
      rw [hput.newDir (by omega) hpd]
      exact Nat.zero_and 1
    · have hap : a ≠ p := by
        rintro rfl
        exact ht.ne_of_fresh h.fresh r' q' (ht.unshared.init hqj) hw
      have hold := h.dirs (ht.unshared.init hqj) hw (by omega)
      have hslot : ¬(a = d ∧ j = i) := by
        rintro ⟨rfl, rfl⟩
        rw [hput.grafted.slot] at hnone'
        exact absurd hnone' (by simp)
      have hkid : m.kid a j = none := by
        rw [hput.grafted.other a j hap hslot, Machine.kid, hold] at hnone'
        exact hnone'
      have hent : (m'.dirs a).entries j = (m₁.dirs a).entries j := by
        by_cases had : a = d
        · subst had
          exact hput.entries hpd j fun hj => hslot ⟨rfl, hj⟩
        · rw [hput.dirs a hap had]
      rw [hent, hold]
      exact hs hqj hlen' hw hkid
  · rw [hwp hqi, if_pos ⟨rfl, rfl⟩]

end Put

/-! ### Reading -/

section Reading

variable {m : Machine} {key : ℕ → List ℕ → Prop} {r v : ℕ}

theorem and_pageOffset (n : ℕ) : n &&& 0xFFF = n % 0x1000 := Nat.and_two_pow_sub_one_eq_mod n 12

/-- **`virt_to_phys`** reads the entry, where there are no 2 MiB pages. -/
theorem virtToPhys_eq (hs : SmallPages m key) (hv : key r (slots v)) :
    virtToPhys m v r = if m.entry r v = 0 then 2 ^ 64 - 1 else
      frameAddr (m.entry r v) + v % 0x1000 := by
  rw [virtToPhys]
  cases h₁ : m.kid r (pml4Index v) with
  | none =>
    have hw : walk m.kid r (slots v) = none := by rw [slots, walk_cons, h₁]; rfl
    rw [if_pos (Machine.virt_of_kid_none h₁), entry_of_none hw, if_pos rfl]
  | some pdpt =>
    obtain ⟨h₁', h₁0⟩ := Machine.virt_of_kid h₁
    simp only [h₁', if_neg h₁0]
    cases h₂ : m.kid pdpt (pdptIndex v) with
    | none =>
      have hw : walk m.kid r (slots v) = none := by
        rw [slots, walk_cons, h₁, Option.bind_some, walk_cons, h₂]
        rfl
      rw [if_pos (Machine.virt_of_kid_none h₂), entry_of_none hw, if_pos rfl]
    | some pd =>
      obtain ⟨h₂', h₂0⟩ := Machine.virt_of_kid h₂
      simp only [h₂', if_neg h₂0]
      have hw₂ : walk m.kid r [pml4Index v, pdptIndex v] = some pd := by
        rw [walk_cons, h₁, Option.bind_some, walk_cons, h₂]
        rfl
      have hw : walk m.kid r (slots v) = m.kid pd (pdIndex v) := by
        have hslots : slots v = [pml4Index v, pdptIndex v] ++ [pdIndex v] := rfl
        rw [hslots, walk_concat, hw₂]
        rfl
      cases h₃ : m.kid pd (pdIndex v) with
      | none =>
        have hbig := hs (q := [pml4Index v, pdptIndex v]) hv rfl hw₂ h₃
        rw [if_pos (Machine.virt_of_kid_none h₃), entry_of_none (hw.trans h₃), if_pos rfl,
          if_neg (not_not.mpr hbig)]
      | some pt =>
        obtain ⟨h₃', h₃0⟩ := Machine.virt_of_kid h₃
        simp only [h₃', if_neg h₃0, entry_of_walk (hw.trans h₃), and_pageOffset]

/-- What the functions test that look for a page. -/
theorem noPage_iff {pdpt pd pt : ℕ} (h₁ : (m.dirs r).virt (pml4Index v) = pdpt)
    (h₂ : (m.dirs pdpt).virt (pdptIndex v) = pd) (h₃ : (m.dirs pd).virt (pdIndex v) = pt) :
    (pdpt = 0 ∨ pd = 0 ∨ pt = 0 ∨ m.tabs pt (ptIndex v) = 0) ↔ m.entry r v = 0 := by
  by_cases h₁0 : pdpt = 0
  · have hkid : m.kid r (pml4Index v) = none := pointer_eq_none.mpr (h₁.trans h₁0)
    have hw : walk m.kid r (slots v) = none := by rw [slots, walk_cons, hkid]; rfl
    exact iff_of_true (Or.inl h₁0) (entry_of_none hw)
  have hkid₁ : m.kid r (pml4Index v) = some pdpt := pointer_eq_some.mpr ⟨h₁, by rwa [h₁]⟩
  by_cases h₂0 : pd = 0
  · have hkid : m.kid pdpt (pdptIndex v) = none := pointer_eq_none.mpr (h₂.trans h₂0)
    have hw : walk m.kid r (slots v) = none := by
      rw [slots, walk_cons, hkid₁, Option.bind_some, walk_cons, hkid]
      rfl
    exact iff_of_true (Or.inr (Or.inl h₂0)) (entry_of_none hw)
  have hkid₂ : m.kid pdpt (pdptIndex v) = some pd := pointer_eq_some.mpr ⟨h₂, by rwa [h₂]⟩
  by_cases h₃0 : pt = 0
  · have hkid : m.kid pd (pdIndex v) = none := pointer_eq_none.mpr (h₃.trans h₃0)
    have hw : walk m.kid r (slots v) = none := by
      rw [slots, walk_cons, hkid₁, Option.bind_some, walk_cons, hkid₂, Option.bind_some, walk_cons,
        hkid]
      rfl
    exact iff_of_true (Or.inr (Or.inr (Or.inl h₃0))) (entry_of_none hw)
  have hkid₃ : m.kid pd (pdIndex v) = some pt := pointer_eq_some.mpr ⟨h₃, by rwa [h₃]⟩
  rw [entry_of_walk (walk_slots.mpr ⟨pdpt, pd, hkid₁, hkid₂, hkid₃⟩)]
  simp [h₁0, h₂0, h₃0]

/-- **`is_page_free`** reads the entry. -/
theorem isPageFree_eq : isPageFree m v r = decide (m.entry r v = 0) := by
  rw [isPageFree, Bool.eq_iff_iff, decide_eq_true_eq, ← noPage_iff rfl rfl rfl]
  simp only [Bool.or_eq_true, beq_iff_eq, or_assoc]

/-- `free_page` where there is no page. -/
theorem freePage_of_none (h : m.entry r v = 0) : freePage m v r = m :=
  if_pos ((noPage_iff rfl rfl rfl).mpr h)

/-- **`free_page`** clears the entry, and the bit of its frame. -/
theorem freePage_of_entry {pt : ℕ} (hw : walk m.kid r (slots v) = some pt) (h : m.entry r v ≠ 0) :
    freePage m v r =
      (m.markFrame (frameAddr (m.entry r v)) false).setPtEntry pt (ptIndex v) 0 := by
  have hno := (noPage_iff (m := m) (r := r) (v := v) rfl rfl rfl).not.mpr h
  obtain ⟨pdpt, pd, h₁, h₂, h₃⟩ := walk_slots.mp hw
  obtain ⟨h₁, -⟩ := Machine.virt_of_kid h₁
  obtain ⟨h₂, -⟩ := Machine.virt_of_kid h₂
  obtain ⟨h₃, -⟩ := Machine.virt_of_kid h₃
  rw [h₁, h₂, h₃] at hno
  rw [entry_of_walk hw, freePage]
  simp only [h₁, h₂, h₃, if_neg hno]

end Reading

/-! ### The function -/

section Map

variable {alloc : Machine → ℕ → Option (ℕ × ℕ × Machine)} {key : ℕ → List ℕ → Prop}
variable {m m' : Machine} {r d i virt phys flags : ℕ} {q : List ℕ}

/-- The allocations of a call. `P` is what else they keep, and assignments to tables
keep it. -/
structure Allocator (alloc : Machine → ℕ → Option (ℕ × ℕ × Machine)) (key : ℕ → List ℕ → Prop)
    (P : Machine → Prop) : Prop where
  new : ∀ {m size p phys m'}, 0 < size → P m → TreeInv m m.live key →
    alloc m size = some (p, phys, m') → NewTable key m size p m' ∧ P m'
  tables : ∀ {m : Machine} (dirs tabs), P m → P { m with dirs := dirs, tabs := tabs }

variable {P : Machine → Prop}

/-- **One of the first three `if`s**, for a page directory. -/
theorem TreeInv.growDir (ht : TreeInv m m.live key) (hP : P m) (ha : Allocator alloc key P)
    (hq : key r q) (hqi : key r (q ++ [i])) (hlen : q.length < 2) (hd : walk m.kid r q = some d)
    (h : growTable alloc m pageDirectorySize Machine.clearDir d i flags = some m') :
    Grew key m m' ∧ P m' ∧ walk m'.kid r (q ++ [i]) = some ((m'.dirs d).virt i) := by
  rw [growTable] at h
  split_ifs at h with hvirt
  · obtain rfl := Option.some.inj h
    refine ⟨Grew.refl ht, hP, ?_⟩
    rw [walk_concat, hd]
    exact pointer_of_pos (Nat.pos_of_ne_zero hvirt)
  · simp only [Option.bind_eq_bind, Option.bind_eq_some_iff, Option.pure_def,
      Option.some.injEq] at h
    obtain ⟨⟨p, ph, m₁⟩, hp, rfl⟩ := h
    have hsize : tableSize (q.length + 1) = pageDirectorySize := if_pos (by omega)
    obtain ⟨hnew, hP₁⟩ := ha.new (by decide) hP ht hp
    rw [← hsize] at hnew
    have hpd : p ≠ d := fun heq => ht.ne_of_fresh hnew.fresh r q hq (heq ▸ hd)
    have hput := tablePut_dir (m := m₁) (i := i) (e := ph ||| flags) (n := q.length + 1)
      hnew.fresh.pos hpd (by omega)
    have hnone : m.kid d i = none := pointer_eq_none.mpr (not_not.mp hvirt)
    obtain ⟨hg, hw⟩ := NewTable.grew ht hnew hq hd hnone hput hqi
    refine ⟨hg, ?_, ?_⟩
    · rw [hput.rest]
      exact ha.tables _ _ hP₁
    · rw [hw, (Machine.virt_of_kid hput.grafted.slot).1]

/-- **One of the first three `if`s**, for a page table. -/
theorem TreeInv.growTab (ht : TreeInv m m.live key) (hP : P m) (ha : Allocator alloc key P)
    (hq : key r q) (hqi : key r (q ++ [i])) (hlen : q.length = 2) (hd : walk m.kid r q = some d)
    (h : growTable alloc m pageTableSize Machine.clearTab d i flags = some m') :
    Grew key m m' ∧ P m' ∧ walk m'.kid r (q ++ [i]) = some ((m'.dirs d).virt i) := by
  rw [growTable] at h
  split_ifs at h with hvirt
  · obtain rfl := Option.some.inj h
    refine ⟨Grew.refl ht, hP, ?_⟩
    rw [walk_concat, hd]
    exact pointer_of_pos (Nat.pos_of_ne_zero hvirt)
  · simp only [Option.bind_eq_bind, Option.bind_eq_some_iff, Option.pure_def,
      Option.some.injEq] at h
    obtain ⟨⟨p, ph, m₁⟩, hp, rfl⟩ := h
    have hsize : tableSize (q.length + 1) = pageTableSize := if_neg (by omega)
    obtain ⟨hnew, hP₁⟩ := ha.new (by decide) hP ht hp
    rw [← hsize] at hnew
    have hput := tablePut_tab (m := m₁) (d := d) (i := i) (e := ph ||| flags) hnew.fresh.pos
    have hnone : m.kid d i = none := pointer_eq_none.mpr (not_not.mp hvirt)
    have hlen' : 3 = q.length + 1 := by omega
    rw [hlen'] at hput
    obtain ⟨hg, hw⟩ := NewTable.grew ht hnew hq hd hnone hput hqi
    refine ⟨hg, ?_, ?_⟩
    · rw [hput.rest]
      exact ha.tables _ _ hP₁
    · rw [hw, (Machine.virt_of_kid hput.grafted.slot).1]

section Page

variable {isKernel isWriteable : Bool}

/-- The keys of the tables on the way to an address. -/
structure OnPath (key : ℕ → List ℕ → Prop) (r virt : ℕ) : Prop where
  root : key r []
  pdpt : key r [pml4Index virt]
  pd : key r [pml4Index virt, pdptIndex virt]
  pt : key r (slots virt)

/-- **The tables of `map_page_kmalloc`**: those on the way to the address are there, when
the entry is looked at. -/
theorem TreeInv.mapPageKmalloc (ht : TreeInv m m.live key) (hP : P m) (ha : Allocator alloc key P)
    (hpath : OnPath key r virt) {ok : Bool}
    (h : mapPageKmalloc alloc m virt phys isKernel isWriteable r = some (ok, m')) :
    ∃ m₁ pt, Grew key m m₁ ∧ P m₁ ∧ walk m₁.kid r (slots virt) = some pt ∧
      setPage m₁ pt virt phys isKernel isWriteable = (ok, m') := by
  rw [Xana.mapPageKmalloc] at h
  split_ifs at h
  simp only [Option.bind_eq_bind, Option.bind_eq_some_iff, Option.pure_def, Option.some.injEq] at h
  obtain ⟨m₁, h₁, m₂, h₂, m₃, h₃, hset⟩ := h
  obtain ⟨hg₁, hP₁, hw₁⟩ := ht.growDir hP ha hpath.root hpath.pdpt (by simp) rfl h₁
  obtain ⟨hg₂, hP₂, hw₂⟩ := hg₁.tree.growDir hP₁ ha hpath.pdpt hpath.pd (by simp) hw₁ h₂
  obtain ⟨hg₃, hP₃, hw₃⟩ := hg₂.tree.growTab hP₂ ha hpath.pd hpath.pt rfl hw₂ h₃
  exact ⟨m₃, _, (hg₁.trans hg₂).trans hg₃, hP₃, hw₃, hset⟩

/-- **Where there is a page already**, nothing is done. -/
theorem mapPageKmalloc_of_entry (hfree : m.frameUsed phys = false) (he : m.entry r virt ≠ 0) :
    mapPageKmalloc alloc m virt phys isKernel isWriteable r = some (false, m) := by
  obtain ⟨pt, hw, hpt⟩ := exists_walk_of_entry he
  obtain ⟨pdpt, pd, h₁, h₂, h₃⟩ := walk_slots.mp hw
  obtain ⟨h₁, h₁0⟩ := Machine.virt_of_kid h₁
  obtain ⟨h₂, h₂0⟩ := Machine.virt_of_kid h₂
  obtain ⟨h₃, h₃0⟩ := Machine.virt_of_kid h₃
  rw [← hpt] at he
  simp only [Xana.mapPageKmalloc, hfree, Bool.false_eq_true, if_false, growTable, h₁, h₁0, h₂, h₂0,
    h₃, h₃0, ne_eq, not_false_eq_true, if_true, Option.bind_eq_bind, Option.bind_some,
    Option.pure_def, setPage, he]

/-- `map_page_kmalloc` returns, where the allocator does and the frame is free. -/
theorem exists_mapPageKmalloc (ha : ∀ m size, 0 < size → ∃ r, alloc m size = some r)
    (hfree : m.frameUsed phys = false) :
    ∃ ok m', mapPageKmalloc alloc m virt phys isKernel isWriteable r = some (ok, m') := by
  have hgrow : ∀ (m : Machine) size memset d i flags, 0 < size →
      ∃ m', growTable alloc m size memset d i flags = some m' := by
    intro m size memset d i flags hsize
    rw [growTable]
    split_ifs
    · exact ⟨m, rfl⟩
    · obtain ⟨⟨p, ph, m₁⟩, hp⟩ := ha m size hsize
      rw [hp]
      exact ⟨_, rfl⟩
  rw [Xana.mapPageKmalloc, hfree]
  obtain ⟨m₁, h₁⟩ := hgrow m pageDirectorySize Machine.clearDir r (pml4Index virt)
    (entryFlags isKernel isWriteable) (by decide)
  obtain ⟨m₂, h₂⟩ := hgrow m₁ pageDirectorySize Machine.clearDir ((m₁.dirs r).virt (pml4Index virt))
    (pdptIndex virt) (entryFlags isKernel isWriteable) (by decide)
  obtain ⟨m₃, h₃⟩ := hgrow m₂ pageTableSize Machine.clearTab
    ((m₂.dirs ((m₁.dirs r).virt (pml4Index virt))).virt (pdptIndex virt)) (pdIndex virt)
    (entryFlags isKernel isWriteable) (by decide)
  simp only [Bool.false_eq_true, if_false, h₁, h₂, h₃, Option.bind_eq_bind, Option.bind_some,
    Option.pure_def]
  exact ⟨_, _, rfl⟩

end Page

end Map

end Xana
