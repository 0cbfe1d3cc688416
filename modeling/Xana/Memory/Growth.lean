import Mathlib.Logic.Relation
import Xana.Memory.HeapInv
import Xana.Memory.PageMap

/-!
# The heap grows

`kmalloc_int` may call `heap_expand`, which maps pages behind the heap with
`map_page_prealloc`: it uses the preallocated tables up, and allocates new ones at its end.
`KernelInv` says that the kernel's tables, those of the address spaces and the
preallocated ones are all apart.

What a call of `kmalloc_int` does to page tables is a sequence of two kinds of
events (`GrowEvent`): nothing that an entry shows (`Unseen`), or one more page
behind the heap (`HeapPage`). Neither touches the tables of user addresses. That the
call is such a sequence is `HeapInv.kmallocInt_growth`; all else is by induction
over the events.
-/

namespace Xana

open Forest

/-- The paths into the address spaces at `roots`, user half only, and into the kernel's. -/
def SpaceKey (kernelPml4 : ℕ) (roots : List ℕ) (r : ℕ) (p : List ℕ) : Prop :=
  (r = kernelPml4 ∨ r ∈ roots ∧ ∀ i ∈ p.head?, i < 511) ∧ p.length ≤ 3

/-- The preallocated tables, with their sizes. -/
def preallocs (m : Machine) : List (ℕ × ℕ) :=
  [(m.preallocPdpt, pageDirectorySize), (m.preallocPd, pageDirectorySize),
    (m.preallocPt, pageTableSize)]

/-- **The invariant of the tables of all address spaces.** -/
structure KernelInv (m : Machine) (live : List Chunk) (roots : List ℕ) : Prop where
  tree : TreeInv m live (SpaceKey m.kernelPml4 roots)
  /-- A preallocated table is in use, but not yet in a tree. -/
  prealloc : ∀ x ∈ preallocs m, x.1 ≠ 0 → Held m live x.1 x.2 ∧
    ∀ r p, SpaceKey m.kernelPml4 roots r p → walk m.kid r p ≠ some x.1
  distinct : (preallocs m).Pairwise fun x y => x.1 ≠ 0 → x.1 ≠ y.1
  kheap_le : virtMemOffset ≤ m.kheap
  kernelHalf : m.kid m.kernelPml4 511 ≠ none

/-- The paths into the user halves, the kernel's included. -/
def UserHalf (kernelPml4 : ℕ) (roots : List ℕ) (r : ℕ) (p : List ℕ) : Prop :=
  SpaceKey kernelPml4 roots r p ∧ p.head? ≠ some 511

/-- The tables of user addresses, and the roots, are as they were. -/
def SameTables (roots : List ℕ) (m m' : Machine) : Prop :=
  KeptTables (UserHalf m.kernelPml4 roots) m m'

/-- **Nothing that an entry shows.** -/
structure Unseen (roots : List ℕ) (m m' : Machine) : Prop where
  tables : SameTables roots m m'
  entry : ∀ {v}, pml4Index v = 511 → m'.entry m.kernelPml4 v = m.entry m.kernelPml4 v
  kernelPml4 : m'.kernelPml4 = m.kernelPml4
  bitmap : m'.bitmap = m.bitmap
  ram : m'.ram = m.ram
  kheap : m'.kheap = m.kheap
  kheapEnd : m'.kheapEnd = m.kheapEnd

/-- **One more page behind the heap**, on the frame at `phys`. -/
structure HeapPage (roots : List ℕ) (phys : ℕ) (m m' : Machine) : Prop where
  tables : SameTables roots m m'
  kernel : pml4Index (m.kheapEnd + 1) = 511
  absent : m.entry m.kernelPml4 (m.kheapEnd + 1) = 0
  entry : ∀ {v}, pml4Index v = 511 → m'.entry m.kernelPml4 v =
    if pageOf v = pageOf (m.kheapEnd + 1) then phys ||| 3 else m.entry m.kernelPml4 v
  aligned : phys % 0x1000 = 0
  lt : phys < 2 ^ 52
  clear : m.frameUsed phys = false
  bitmap : m'.bitmap = m.bitmap.map fun b => Function.update b (phys / 0x1000) true
  kernelPml4 : m'.kernelPml4 = m.kernelPml4
  ram : m'.ram = m.ram
  kheap : m'.kheap = m.kheap
  kheapEnd : m'.kheapEnd = m.kheapEnd + 0x1000

/-- What happens to page tables when the heap grows. -/
def GrowEvent (roots : List ℕ) (m m' : Machine) : Prop :=
  Unseen roots m m' ∨ ∃ phys, HeapPage roots phys m m'

/-- **Growth of the heap**, event by event. -/
abbrev Growth (roots : List ℕ) : Machine → Machine → Prop := Relation.ReflTransGen (GrowEvent roots)

theorem preallocPdpt_mem (m : Machine) : (m.preallocPdpt, pageDirectorySize) ∈ preallocs m := by
  simp [preallocs]

theorem preallocPd_mem (m : Machine) : (m.preallocPd, pageDirectorySize) ∈ preallocs m := by
  simp [preallocs]

theorem preallocPt_mem (m : Machine) : (m.preallocPt, pageTableSize) ∈ preallocs m := by
  simp [preallocs]

theorem forall_preallocs {m : Machine} {P : ℕ × ℕ → Prop} : (∀ x ∈ preallocs m, P x) ↔
    P (m.preallocPdpt, pageDirectorySize) ∧ P (m.preallocPd, pageDirectorySize) ∧
      P (m.preallocPt, pageTableSize) := by
  simp [preallocs]

theorem pairwise_preallocs {m : Machine} :
    ((preallocs m).Pairwise fun x y => x.1 ≠ 0 → x.1 ≠ y.1) ↔
      ((m.preallocPdpt ≠ 0 → m.preallocPdpt ≠ m.preallocPd) ∧
        (m.preallocPdpt ≠ 0 → m.preallocPdpt ≠ m.preallocPt)) ∧
        (m.preallocPd ≠ 0 → m.preallocPd ≠ m.preallocPt) := by
  simp [preallocs]

section Kernel

variable {m m₁ m' : Machine} {live live' : List Chunk} {roots : List ℕ} {r d i t v n size p : ℕ}
variable {q : List ℕ}

theorem spaceKey_kernel (k : ℕ) (roots : List ℕ) (h : q.length ≤ 3) : SpaceKey k roots k q :=
  ⟨Or.inl rfl, h⟩

theorem KernelInv.mono (h : KernelInv m live roots) (hsub : live ⊆ live') :
    KernelInv m live' roots where
  tree := h.tree.mono hsub
  prealloc := by
    intro x hx h0
    obtain ⟨hheld, hne⟩ := h.prealloc x hx h0
    exact ⟨hheld.imp (fun hu => hsub hu) id, hne⟩
  distinct := h.distinct
  kheap_le := h.kheap_le
  kernelHalf := h.kernelHalf

/-- The invariant sees walks, preallocated tables and the beginning of the heap only. -/
theorem KernelInv.congr_walk (h : KernelInv m live roots)
    (hwalk : ∀ r q, SpaceKey m.kernelPml4 roots r q → walk m'.kid r q = walk m.kid r q)
    (hpre : preallocs m' = preallocs m) (hk : m'.kheap = m.kheap)
    (hp : m'.kernelPml4 = m.kernelPml4) : KernelInv m' live roots where
  tree := by
    rw [hp]
    exact h.tree.congr hwalk hk
  prealloc := by
    rw [hpre, hp]
    intro x hx h0
    obtain ⟨hheld, hne⟩ := h.prealloc x hx h0
    refine ⟨hheld.imp id fun hle => by rwa [hk], fun r q hq => ?_⟩
    rw [hwalk r q hq]
    exact hne r q hq
  distinct := by rw [hpre]; exact h.distinct
  kheap_le := by rw [hk]; exact h.kheap_le
  kernelHalf := by
    have hone : ∀ kid : ℕ → ℕ → Option ℕ, walk kid m.kernelPml4 [511] = kid m.kernelPml4 511 :=
      fun kid => walk_concat (p := [])
    rw [hp, ← hone m'.kid, hwalk _ _ (spaceKey_kernel _ _ (by simp)), hone]
    exact h.kernelHalf

/-- Where no slot of a table has changed. -/
theorem KernelInv.congr (h : KernelInv m live roots) (hkid : m'.kid = m.kid)
    (hpre : preallocs m' = preallocs m) (hk : m'.kheap = m.kheap)
    (hp : m'.kernelPml4 = m.kernelPml4) : KernelInv m' live roots :=
  h.congr_walk (fun _ _ _ => by rw [hkid]) hpre hk hp

/-- A preallocated table put in a slot of the kernel half. `m'` is the machine after that, in
which it is no longer a preallocated one. -/
theorem KernelInv.putPrealloc (h : KernelInv m live roots) (hq : q.head? = some 511)
    (hlen : q.length < 3) (hd : walk m.kid m.kernelPml4 q = some d) (hnone : m.kid d i = none)
    (ht : (t, tableSize (q.length + 1)) ∈ preallocs m) (h0 : t ≠ 0)
    (hput : TablePut m m₁ d i t (q.length + 1)) (hdirs : m'.dirs = m₁.dirs)
    (htabs : m'.tabs = m₁.tabs)
    (hrest : m' = { m with
      dirs := m'.dirs, tabs := m'.tabs, preallocPdpt := m'.preallocPdpt, preallocPd := m'.preallocPd
      preallocPt := m'.preallocPt })
    (hpre : ∀ x ∈ preallocs m', x.1 ≠ 0 → x ∈ preallocs m ∧ x.1 ≠ t)
    (hdist : (preallocs m').Pairwise fun x y => x.1 ≠ 0 → x.1 ≠ y.1) :
    KernelInv m' live roots ∧ Unseen roots m m' ∧
      walk m'.kid m.kernelPml4 (q ++ [i]) = some t := by
  obtain ⟨hheld, hne⟩ := h.prealloc _ ht h0
  have hkey : SpaceKey m.kernelPml4 roots m.kernelPml4 q := spaceKey_kernel _ _ hlen.le
  have hkid : m'.kid = m₁.kid := by
    funext a j
    rw [Machine.kid, Machine.kid, hdirs]
  have hk : m'.kheap = m.kheap := by rw [hrest]
  have hk₁ : m₁.kheap = m.kheap := by rw [hput.rest]
  have hp : m'.kernelPml4 = m.kernelPml4 := by rw [hrest]
  have hwalk : ∀ {r p}, SpaceKey m.kernelPml4 roots r p → walk m'.kid r p =
      if r = m.kernelPml4 ∧ p = q ++ [i] then some t else walk m.kid r p := by
    intro r p hrp
    rw [hkid]
    exact h.tree.walk_put hne hkey hd hnone hput hrp
  have hne' : ∀ {r p s}, SpaceKey m.kernelPml4 roots r p → walk m.kid r p = some s → s ≠ t := by
    rintro r p s hrp hw rfl
    exact hne r p hrp hw
  refine ⟨⟨?_, ?_, hdist, by rw [hk]; exact h.kheap_le, ?_⟩, ⟨?_, ?_, hp, ?_, ?_, hk, ?_⟩, ?_⟩
  · -- the trees
    rw [hp]
    refine (h.tree.put hne hkey hd hnone hput hheld (List.Subset.refl live)).congr ?_ ?_
    · intro r p _
      rw [hkid]
    · rw [hk, hk₁]
  · -- the other preallocated tables
    intro x hx hx0
    obtain ⟨hxm, hxt⟩ := hpre x hx hx0
    obtain ⟨hheldx, hnex⟩ := h.prealloc x hxm hx0
    refine ⟨hheldx.imp id fun hle => by rwa [hk], ?_⟩
    intro r p hrp
    rw [hp] at hrp
    rw [hwalk hrp]
    split_ifs
    · exact fun heq => hxt (Option.some.inj heq).symm
    · exact hnex r p hrp
  · -- the slot is below the one of the kernel half, which stays
    have hroot : SpaceKey m.kernelPml4 roots m.kernelPml4 [511] := spaceKey_kernel _ _ (by simp)
    have hsame : walk m'.kid m.kernelPml4 [511] = walk m.kid m.kernelPml4 [511] := by
      rw [hwalk hroot, if_neg]
      rintro ⟨-, hnil⟩
      cases q with
      | nil => exact absurd hq (by simp)
      | cons j q => simp at hnil
    have hone : ∀ kid : ℕ → ℕ → Option ℕ, walk kid m.kernelPml4 [511] = kid m.kernelPml4 511 :=
      fun kid => walk_concat (p := [])
    rw [hp, ← hone m'.kid, hsame, hone m.kid]
    exact h.kernelHalf
  · -- the tables of user addresses
    rintro r p s ⟨hrp, hhead⟩ hw
    have hst := hne' hrp hw
    have hsd : s ≠ d := by
      rintro rfl
      obtain ⟨-, rfl⟩ := h.tree.inj hrp hkey hw hd
      exact hhead hq
    rw [hdirs, htabs]
    exact ⟨fun _ => hput.dirs s hst hsd, fun _ => hput.tabs s hst⟩
  · intro v _
    have hv : SpaceKey m.kernelPml4 roots m.kernelPml4 (slots v) :=
      spaceKey_kernel _ _ (by simp [slots])
    rw [← h.tree.entry_put hne hkey hd hnone hput hv, Machine.entry, Machine.entry, hkid, htabs]
  · rw [hrest]
  · rw [hrest]
  · rw [hrest]
  · rw [hwalk (spaceKey_kernel _ _ (by simp; omega)), if_pos ⟨rfl, rfl⟩]

/-! ### Using preallocated tables -/

theorem Unseen.refl (m : Machine) : Unseen roots m m :=
  ⟨KeptTables.refl m, fun _ => rfl, rfl, rfl, rfl, rfl, rfl⟩

theorem UserHalf.init {k : ℕ} (h : UserHalf k roots r (q ++ [i])) : UserHalf k roots r q := by
  obtain ⟨⟨hr, hlen⟩, hhead⟩ := h
  rw [List.length_append] at hlen
  cases q with
  | nil => exact ⟨⟨hr.imp id fun hr => ⟨hr.1, by simp⟩, by simp⟩, by simp⟩
  | cons j q => exact ⟨⟨hr, by omega⟩, hhead⟩

theorem UserHalf.length_le {k : ℕ} (h : UserHalf k roots r q) : q.length ≤ 3 := h.1.2

/-- Tables of user addresses are found where they were. -/
theorem SameTables.walk_eq (h : SameTables roots m m') (hq : UserHalf m.kernelPml4 roots r q) :
    walk m'.kid r q = walk m.kid r q :=
  KeptTables.walk_eq h UserHalf.init UserHalf.length_le hq

theorem SameTables.trans {m'' : Machine} (h : SameTables roots m m')
    (hp : m'.kernelPml4 = m.kernelPml4)
    (h' : SameTables roots m' m'') : SameTables roots m m'' := by
  rw [SameTables, hp] at h'
  exact KeptTables.trans h UserHalf.init UserHalf.length_le h'

theorem Unseen.trans {m'' : Machine} (h : Unseen roots m m') (h' : Unseen roots m' m'') :
    Unseen roots m m'' := by
  obtain ⟨ht, he, hp, hb, hr, hk, hke⟩ := h
  obtain ⟨ht', he', hp', hb', hr', hk', hke'⟩ := h'
  refine ⟨ht.trans hp ht', ?_, hp'.trans hp, hb'.trans hb, hr'.trans hr, hk'.trans hk,
    hke'.trans hke⟩
  intro v hv
  rw [hp] at he'
  exact (he' hv).trans (he hv)

/-- The `if` for the page directory pointer table does nothing in the kernel half. -/
theorem KernelInv.usePreallocPdpt (h : KernelInv m live roots)
    (huse : usePreallocPdpt m m.kernelPml4 511 = some m') : m' = m := by
  have hvirt : (m.dirs m.kernelPml4).virt 511 ≠ 0 := fun h0 => h.kernelHalf (pointer_eq_none.mpr h0)
  rw [Xana.usePreallocPdpt, usePrealloc, if_pos hvirt] at huse
  exact (Option.some.inj huse).symm

/-- **The `if` for the page directory**, in the kernel half. -/
theorem KernelInv.usePreallocPd (h : KernelInv m live roots)
    (hd : walk m.kid m.kernelPml4 [511] = some d)
    (huse : usePreallocPd m m.kernelPml4 d i = some m') :
    KernelInv m' live roots ∧ Unseen roots m m' ∧
      walk m'.kid m.kernelPml4 [511, i] = some ((m'.dirs d).virt i) := by
  rw [Xana.usePreallocPd, usePrealloc] at huse
  split_ifs at huse with hvirt h0
  · obtain rfl := Option.some.inj huse
    refine ⟨h, Unseen.refl m, ?_⟩
    have hconcat : ([511, i] : List ℕ) = [511] ++ [i] := rfl
    rw [hconcat, walk_concat, hd]
    exact pointer_of_pos (Nat.pos_of_ne_zero hvirt)
  · have hm' := Option.some.inj huse
    have hmem := preallocPd_mem m
    have hpd : m.preallocPd ≠ d := by
      rintro heq
      exact (h.prealloc _ hmem h0).2 _ [511] (spaceKey_kernel _ _ (by simp)) (heq ▸ hd)
    have hput := tablePut_dir (m := m) (i := i) (n := 2) (e := virtToPhys (((m.setVirt d i
      m.preallocPd).clearDir m.preallocPd).setFull d i false) m.preallocPd m.kernelPml4 ||| 0x3)
      (Nat.pos_of_ne_zero h0) hpd (by omega)
    have hnone : m.kid d i = none := pointer_eq_none.mpr (not_not.mp hvirt)
    obtain ⟨⟨h₁, h₂⟩, h₃⟩ := pairwise_preallocs.mp h.distinct
    have hres : KernelInv m' live roots ∧ Unseen roots m m' ∧
        walk m'.kid m.kernelPml4 ([511] ++ [i]) = some m.preallocPd := by
      subst hm'
      refine h.putPrealloc rfl (by simp) hd hnone hmem h0 hput rfl rfl rfl
        (forall_preallocs.mpr ⟨?_, ?_, ?_⟩) (pairwise_preallocs.mpr ⟨⟨id, h₂⟩, ?_⟩)
      · exact fun hx => ⟨preallocPdpt_mem m, h₁ hx⟩
      · exact fun hx => absurd rfl hx
      · exact fun _ => ⟨preallocPt_mem m, (h₃ h0).symm⟩
      · exact fun hx => absurd rfl hx
    obtain ⟨hinv, hquiet, hw⟩ := hres
    have hslot : (m'.dirs d).virt i = m.preallocPd := by
      rw [← hm']
      exact (Machine.virt_of_kid hput.grafted.slot).1
    rw [hslot]
    exact ⟨hinv, hquiet, hw⟩

/-- **The `if` for the page table**, in the kernel half. -/
theorem KernelInv.usePreallocPt {j : ℕ} (h : KernelInv m live roots)
    (hd : walk m.kid m.kernelPml4 [511, j] = some d)
    (huse : usePreallocPt m m.kernelPml4 d i = some m') :
    KernelInv m' live roots ∧ Unseen roots m m' ∧
      walk m'.kid m.kernelPml4 [511, j, i] = some ((m'.dirs d).virt i) := by
  rw [Xana.usePreallocPt, usePrealloc] at huse
  split_ifs at huse with hvirt h0
  · obtain rfl := Option.some.inj huse
    refine ⟨h, Unseen.refl m, ?_⟩
    have hconcat : ([511, j, i] : List ℕ) = [511, j] ++ [i] := rfl
    rw [hconcat, walk_concat, hd]
    exact pointer_of_pos (Nat.pos_of_ne_zero hvirt)
  · have hm' := Option.some.inj huse
    have hmem := preallocPt_mem m
    have hput := tablePut_tab (m := m) (d := d) (i := i) (e := virtToPhys (((m.setVirt d i
      m.preallocPt).clearTab m.preallocPt).setFull d i false) m.preallocPt m.kernelPml4 ||| 0x3)
      (Nat.pos_of_ne_zero h0)
    have hnone : m.kid d i = none := pointer_eq_none.mpr (not_not.mp hvirt)
    obtain ⟨⟨h₁, h₂⟩, h₃⟩ := pairwise_preallocs.mp h.distinct
    have hres : KernelInv m' live roots ∧ Unseen roots m m' ∧
        walk m'.kid m.kernelPml4 ([511, j] ++ [i]) = some m.preallocPt := by
      subst hm'
      refine h.putPrealloc rfl (by simp) hd hnone hmem h0 hput rfl rfl rfl
        (forall_preallocs.mpr ⟨?_, ?_, ?_⟩) (pairwise_preallocs.mpr ⟨⟨h₁, id⟩, id⟩)
      · exact fun hx => ⟨preallocPdpt_mem m, h₂ hx⟩
      · exact fun hx => ⟨preallocPd_mem m, h₃ hx⟩
      · exact fun hx => absurd rfl hx
    obtain ⟨hinv, hquiet, hw⟩ := hres
    have hslot : (m'.dirs d).virt i = m.preallocPt := by
      rw [← hm']
      exact (Machine.virt_of_kid hput.grafted.slot).1
    rw [hslot]
    exact ⟨hinv, hquiet, hw⟩

/-- What `map_page_prealloc` ends with, behind the heap. -/
theorem KernelInv.setHeapPage {phys pt : ℕ} (h : KernelInv m live roots)
    (hv : pml4Index (m.kheapEnd + 1) = 511)
    (hw : walk m.kid m.kernelPml4 (slots (m.kheapEnd + 1)) = some pt)
    (hclear : m.frameUsed phys = false) (hal : phys % 0x1000 = 0) (hlt : phys < 2 ^ 52)
    (hset : setPage m pt (m.kheapEnd + 1) phys true true = (true, m')) :
    KernelInv { m' with kheapEnd := m'.kheapEnd + 0x1000 } live roots ∧
      HeapPage roots phys m { m' with kheapEnd := m'.kheapEnd + 0x1000 } := by
  rw [setPage] at hset
  split_ifs at hset with he
  · exact absurd (congrArg Prod.fst hset) (by simp)
  obtain ⟨-, rfl⟩ := Prod.mk.inj hset
  have hkey : ∀ v, SpaceKey m.kernelPml4 roots m.kernelPml4 (slots v) := fun v =>
    spaceKey_kernel _ _ (by simp [slots])
  refine ⟨h.congr rfl rfl rfl rfl, ?_, hv, ?_, ?_, hal, hlt, hclear, rfl, rfl, rfl, rfl, rfl⟩
  · rintro r p t ⟨hrp, hhead⟩ ht
    refine ⟨fun _ => rfl, fun _ => Function.update_of_ne ?_ _ _⟩
    rintro rfl
    obtain ⟨-, rfl⟩ := h.tree.inj hrp (hkey _) ht hw
    exact hhead (congrArg some hv)
  · rw [entry_of_walk hw]
    exact not_not.mp he
  · intro v _
    have hset := h.tree.entry_setPtEntry (e := frameAddr phys ||| entryFlags true true) (hkey _) hw
      (hkey v)
    refine hset.trans ?_
    rw [frameAddr_of_aligned hal hlt]
    by_cases hpage : pageOf v = pageOf (m.kheapEnd + 1)
    · rw [if_pos ⟨rfl, hpage⟩, if_pos hpage]
      rfl
    · rw [if_neg fun hc => hpage hc.2, if_neg hpage]

/-- **`map_page_prealloc` behind the heap** is one event. -/
theorem KernelInv.mapPagePrealloc {phys : ℕ} {b : ℕ → Bool} {src : FrameSource}
    (h : KernelInv m live roots) (hv : pml4Index (m.kheapEnd + 1) = 511)
    (hb : m.bitmap = some b) (hphys : src.next b = some phys)
    (hmap : mapPagePrealloc m (m.kheapEnd + 1) phys true true m.kernelPml4 = some (true, m')) :
    KernelInv { m' with kheapEnd := m'.kheapEnd + 0x1000 } live roots ∧
      Growth roots m { m' with kheapEnd := m'.kheapEnd + 0x1000 } := by
  rw [Xana.mapPagePrealloc] at hmap
  split_ifs at hmap with hused
  simp only [Option.bind_eq_bind, Option.bind_eq_some_iff, Option.pure_def,
    Option.some.injEq] at hmap
  obtain ⟨m₁, h₁, m₂, h₂, m₃, h₃, hset⟩ := hmap
  rw [hv] at h₁ h₂ h₃ hset
  obtain rfl := h.usePreallocPdpt h₁
  have hroot : walk m₁.kid m₁.kernelPml4 [511] = some ((m₁.dirs m₁.kernelPml4).virt 511) := by
    have hkid : m₁.kid m₁.kernelPml4 511 = some ((m₁.dirs m₁.kernelPml4).virt 511) :=
      pointer_of_pos (Nat.pos_of_ne_zero fun h0 => h.kernelHalf (pointer_eq_none.mpr h0))
    rw [walk_cons, hkid]
    rfl
  obtain ⟨hinv₂, hquiet₂, hw₂⟩ := h.usePreallocPd hroot h₂
  rw [← hquiet₂.kernelPml4] at h₃ hw₂
  obtain ⟨hinv₃, hquiet₃, hw₃⟩ := hinv₂.usePreallocPt hw₂ h₃
  have hquiet := hquiet₂.trans hquiet₃
  have hk : m₃.kernelPml4 = m₁.kernelPml4 := hquiet.kernelPml4
  rw [← hquiet₃.kernelPml4, hk] at hw₃
  have hv₃ : pml4Index (m₃.kheapEnd + 1) = 511 := by rwa [hquiet.kheapEnd]
  have hend : m₃.kheapEnd = m₁.kheapEnd := hquiet.kheapEnd
  rw [← hend] at hset hw₃
  obtain ⟨pt, hpt⟩ : ∃ pt, (m₃.dirs ((m₂.dirs ((m₁.dirs m₁.kernelPml4).virt 511)).virt
      (pdptIndex (m₃.kheapEnd + 1)))).virt (pdIndex (m₃.kheapEnd + 1)) = pt := ⟨_, rfl⟩
  rw [hpt] at hset hw₃
  have hw : walk m₃.kid m₃.kernelPml4 (slots (m₃.kheapEnd + 1)) = some pt := by
    rw [slots, hv₃, hk]
    exact hw₃
  have hclear : m₃.frameUsed phys = false := by
    rw [Machine.frameUsed_congr hquiet.bitmap]
    simpa using hused
  obtain ⟨hinv', hpage⟩ := hinv₃.setHeapPage hv₃ hw hclear (src.aligned hphys) (src.lt hphys) hset
  exact ⟨hinv', .tail (.single (Or.inl hquiet)) (Or.inr ⟨phys, hpage⟩)⟩

/-! ### Allocating -/

section Allocating

variable {l : List Block} {src : FrameSource} {align : Bool}

/-- A change of bytes and of what is live is quiet. -/
theorem Unseen.of_heap (mem : Mem) (live : List Chunk) :
    Unseen roots m { m with mem := mem, live := live } :=
  ⟨KeptTables.refl m, fun _ => rfl, rfl, rfl, rfl, rfl, rfl⟩

/-- Addresses behind the heap are the kernel's. -/
theorem KernelInv.pml4Index_end (h : KernelInv m live roots) (hle : m.kheap ≤ v)
    (hlt : v < 2 ^ 64) :
    pml4Index v = 511 := by
  have hk := h.kheap_le
  have hoff : virtMemOffset = 0xFFFFFF8000000000 := rfl
  rw [pml4Index_eq]
  omega

/-- **The loop that maps pages behind the heap.** -/
theorem KernelInv.expandPages (h : KernelInv m live roots) (hle : m.kheap ≤ m.kheapEnd + 1)
    (hlt : m'.kheapEnd < 2 ^ 64) (hexp : expandPages src n m = some m') :
    KernelInv m' live roots ∧ Growth roots m m' := by
  induction n generalizing m with
  | zero =>
    obtain rfl := Option.some.inj hexp
    exact ⟨h, .refl⟩
  | succ n ih =>
    obtain ⟨-, -, -, -, hend⟩ := expandPages_eq hexp
    simp only [Xana.expandPages, Option.bind_eq_bind, Option.bind_eq_some_iff] at hexp
    obtain ⟨b, hb, phys, hphys, ⟨ok, m₁⟩, hmap, hexp⟩ := hexp
    split_ifs at hexp with hok
    simp only at hok
    subst hok
    have hv := h.pml4Index_end (v := m.kheapEnd + 1) (by omega) (by omega)
    obtain ⟨hinv₁, hgrow₁⟩ := h.mapPagePrealloc hv hb hphys hmap
    have hs := sameHeap_mapPagePrealloc hmap
    have hle₁ : m₁.kheap ≤ m₁.kheapEnd + 0x1000 + 1 := by
      rw [hs.kheap, hs.kheapEnd]
      omega
    obtain ⟨hinv, hgrow⟩ := ih hinv₁ hle₁ hexp
    exact ⟨hinv, hgrow₁.trans hgrow⟩

/-- The chunk that was allocated last. -/
theorem HeapInv.fresh {u : Chunk} {L : List Chunk} (h : HeapInv m l) (hlive : m.live = u :: L)
    (hsize : 0 < u.size) : Fresh m L u := by
  have hmem : u ∈ m.live := by rw [hlive]; exact List.mem_cons_self
  have hbounds := h.placed.bounds (h.live.mem_iff.mpr hmem)
  have hpos := h.kheap_pos
  obtain ⟨l₁, b, l₂, -, -, hin⟩ := h.exists_block hmem
  have hapart := h.pairwise_apart
  rw [hlive, List.pairwise_cons] at hapart
  exact ⟨by omega, by omega, hsize, hapart.1⟩

/-- A preallocated table is not a chunk that is new. -/
theorem KernelInv.prealloc_ne {u : Chunk} (h : KernelInv m live roots) (hf : Fresh m live u)
    {x : ℕ × ℕ} (hx : x ∈ preallocs m) (h0 : x.1 ≠ 0) : x.1 ≠ u.ptr := by
  refine hf.ne_of_held (h.prealloc x hx h0).1 ?_
  revert x
  rw [forall_preallocs]
  have hpd : 0 < pageDirectorySize := by decide
  have hpt : 0 < pageTableSize := by decide
  exact ⟨fun _ => hpd, fun _ => hpd, fun _ => hpt⟩

/-- **A new chunk becomes a preallocated table.** -/
theorem KernelInv.refill (h : KernelInv m live roots) (hf : Fresh m live ⟨p, size, true⟩)
    (hdirs : ∀ a, a ≠ p → m'.dirs a = m.dirs a) (htabs : ∀ a, a ≠ p → m'.tabs a = m.tabs a)
    (hrest : m' = { m with
      dirs := m'.dirs, tabs := m'.tabs, preallocPdpt := m'.preallocPdpt, preallocPd := m'.preallocPd
      preallocPt := m'.preallocPt })
    (hpre : ∀ x ∈ preallocs m', x.1 ≠ 0 → x ∈ preallocs m ∨ x = (p, size))
    (hdist : (preallocs m').Pairwise fun x y => x.1 ≠ 0 → x.1 ≠ y.1) :
    KernelInv m' (⟨p, size, true⟩ :: live) roots ∧ Unseen roots m m' := by
  have hk : m'.kheap = m.kheap := by rw [hrest]
  have hp : m'.kernelPml4 = m.kernelPml4 := by rw [hrest]
  have hne := h.tree.ne_of_fresh hf
  have hinit :
      ∀ {r q i}, SpaceKey m.kernelPml4 roots r (q ++ [i]) → SpaceKey m.kernelPml4 roots r q :=
    h.tree.unshared.init
  -- no walk comes through the new chunk
  have hwalk : ∀ {r q}, SpaceKey m.kernelPml4 roots r q → walk m'.kid r q = walk m.kid r q := by
    intro r q hq
    refine walk_congr hinit (fun q i d hqi hw => ?_) hq
    rw [Machine.kid, Machine.kid, hdirs d]
    rintro rfl
    exact hne _ _ (hinit hqi) hw
  have htree : TreeInv m' live (SpaceKey m.kernelPml4 roots) := h.tree.congr (fun _ _ => hwalk) hk
  refine ⟨⟨?_, ?_, hdist, by rw [hk]; exact h.kheap_le, ?_⟩, ⟨?_, ?_, hp, ?_, ?_, hk, ?_⟩⟩
  · rw [hp]
    exact htree.mono (List.subset_cons_self _ _)
  · intro x hx hx0
    rw [hp]
    rcases hpre x hx hx0 with hxm | rfl
    · obtain ⟨hheld, hnex⟩ := h.prealloc x hxm hx0
      refine ⟨hheld.imp (List.mem_cons_of_mem _) fun hle => by rwa [hk], ?_⟩
      intro r q hq
      rw [hwalk hq]
      exact hnex r q hq
    · refine ⟨Or.inl List.mem_cons_self, ?_⟩
      intro r q hq
      rw [hwalk hq]
      exact hne r q hq
  · have hroot : m.kernelPml4 ≠ p := by
      rintro heq
      exact hne m.kernelPml4 [] (spaceKey_kernel _ _ (by simp)) (congrArg some heq)
    rw [hp, Machine.kid, hdirs _ hroot]
    exact h.kernelHalf
  · rintro r q t ⟨hq, -⟩ hw
    have htp : t ≠ p := by
      rintro rfl
      exact hne r q hq hw
    exact ⟨fun _ => hdirs t htp, fun _ => htabs t htp⟩
  · intro v _
    have hv : SpaceKey m.kernelPml4 roots m.kernelPml4 (slots v) :=
      spaceKey_kernel _ _ (by simp [slots])
    cases hw : walk m.kid m.kernelPml4 (slots v) with
    | none => rw [entry_of_none hw, entry_of_none ((hwalk hv).trans hw)]
    | some t =>
      rw [entry_of_walk hw, entry_of_walk ((hwalk hv).trans hw), htabs t]
      rintro rfl
      exact hne _ _ hv hw
  · rw [hrest]
  · rw [hrest]
  · rw [hrest]

/-- **What a call of `kmalloc_int` does**: it allocates a chunk, and the heap may grow. -/
structure Grows (roots : List ℕ) (m m' : Machine) (u : Chunk) : Prop where
  live : ∃ L, m'.live = u :: L ∧ m.live ⊆ L ∧ KernelInv m' L roots
  growth : Growth roots m m'

/-- A call of `kmalloc_a`, and its chunk becomes a preallocated table. -/
theorem Grows.refilled (hinv : ∃ l, HeapInv m₁ l) (hg : Grows roots m m₁ ⟨p, size, true⟩)
    (hsize : 0 < size)
    (hdirs : ∀ a, a ≠ p → m'.dirs a = m₁.dirs a) (htabs : ∀ a, a ≠ p → m'.tabs a = m₁.tabs a)
    (hrest : m' = { m₁ with
      dirs := m'.dirs, tabs := m'.tabs, preallocPdpt := m'.preallocPdpt, preallocPd := m'.preallocPd
      preallocPt := m'.preallocPt })
    (hpre : ∀ x ∈ preallocs m', x.1 ≠ 0 → x ∈ preallocs m₁ ∨ x = (p, size))
    (hdist : (∀ x ∈ preallocs m₁, x.1 ≠ 0 → x.1 ≠ p) →
      ((preallocs m₁).Pairwise fun x y => x.1 ≠ 0 → x.1 ≠ y.1) →
      (preallocs m').Pairwise fun x y => x.1 ≠ 0 → x.1 ≠ y.1) :
    KernelInv m' m'.live roots ∧ Growth roots m m' ∧ m.live ⊆ m'.live := by
  obtain ⟨⟨L, hlive, hsub, hk⟩, hgrow⟩ := hg
  obtain ⟨l, hinv⟩ := hinv
  have hf := hinv.fresh hlive hsize
  have hlive' : m'.live = ⟨p, size, true⟩ :: L := by
    rw [hrest]
    exact hlive
  have hne : ∀ x ∈ preallocs m₁, x.1 ≠ 0 → x.1 ≠ p := fun x hx h0 => hk.prealloc_ne hf hx h0
  obtain ⟨hk', hquiet⟩ := hk.refill hf hdirs htabs hrest hpre (hdist hne hk.distinct)
  rw [hlive']
  exact ⟨hk', hgrow.tail (Or.inl hquiet), fun u hu => List.mem_cons_of_mem _ (hsub hu)⟩

/-- **The three ways to fill a prealloc.** -/
theorem KernelInv.refills {kmallocA : Machine → ℕ → Option (ℕ × Machine)}
    (h : KernelInv m m.live roots)
    (hnew : ∀ size p m₁, (size = pageTableSize ∨ size = pageDirectorySize) →
      m₁.kheapEnd = m'.kheapEnd →
      kmallocA m size = some (p, m₁) → (∃ l, HeapInv m₁ l) ∧ Grows roots m m₁ ⟨p, size, true⟩)
    (hfill : refillPt kmallocA m = some m' ∨ refillPd kmallocA m = some m' ∨
      refillPdpt kmallocA m = some m') :
    KernelInv m' m'.live roots ∧ Growth roots m m' ∧ m.live ⊆ m'.live := by
  rcases hfill with hfill | hfill | hfill
  -- each is a call of `kmalloc_a`, or nothing when the table is still there
  · rw [refillPt] at hfill
    split_ifs at hfill with h0
    · simp only [Option.bind_eq_bind, Option.bind_eq_some_iff, Option.pure_def,
        Option.some.injEq] at hfill
      obtain ⟨⟨p, m₁⟩, hp, hm'⟩ := hfill
      obtain ⟨hinv, hg⟩ := hnew _ p m₁ (Or.inl rfl) (by rw [← hm']; rfl) hp
      subst hm'
      refine hg.refilled hinv (by decide) (fun _ _ => rfl)
        (fun a ha => Function.update_of_ne ha _ _) rfl ?_ ?_
      · refine forall_preallocs.mpr ⟨fun _ => ?_, fun _ => ?_, fun _ => Or.inr rfl⟩
        · exact Or.inl (preallocPdpt_mem m₁)
        · exact Or.inl (preallocPd_mem m₁)
      · intro hne hdist
        obtain ⟨⟨h₁, -⟩, -⟩ := pairwise_preallocs.mp hdist
        exact pairwise_preallocs.mpr
          ⟨⟨h₁, hne _ (preallocPdpt_mem m₁)⟩, hne _ (preallocPd_mem m₁)⟩
    · obtain rfl := Option.some.inj hfill
      exact ⟨h, .refl, fun _ hu => hu⟩
  · rw [refillPd] at hfill
    split_ifs at hfill with h0
    · simp only [Option.bind_eq_bind, Option.bind_eq_some_iff, Option.pure_def,
        Option.some.injEq] at hfill
      obtain ⟨⟨p, m₁⟩, hp, hm'⟩ := hfill
      obtain ⟨hinv, hg⟩ := hnew _ p m₁ (Or.inr rfl) (by rw [← hm']; rfl) hp
      subst hm'
      refine hg.refilled hinv (by decide) (fun a ha => Function.update_of_ne ha _ _)
        (fun _ _ => rfl) rfl ?_ ?_
      · refine forall_preallocs.mpr ⟨fun _ => ?_, fun _ => Or.inr rfl, fun _ => ?_⟩
        · exact Or.inl (preallocPdpt_mem m₁)
        · exact Or.inl (preallocPt_mem m₁)
      · intro hne hdist
        obtain ⟨⟨-, h₂⟩, -⟩ := pairwise_preallocs.mp hdist
        refine pairwise_preallocs.mpr ⟨⟨hne _ (preallocPdpt_mem m₁), h₂⟩, fun hp0 heq => ?_⟩
        exact hne _ (preallocPt_mem m₁) (fun h0 => hp0 (heq.trans h0)) heq.symm
    · obtain rfl := Option.some.inj hfill
      exact ⟨h, .refl, fun _ hu => hu⟩
  · rw [refillPdpt] at hfill
    split_ifs at hfill with h0
    · simp only [Option.bind_eq_bind, Option.bind_eq_some_iff, Option.pure_def,
        Option.some.injEq] at hfill
      obtain ⟨⟨p, m₁⟩, hp, hm'⟩ := hfill
      obtain ⟨hinv, hg⟩ := hnew _ p m₁ (Or.inr rfl) (by rw [← hm']; rfl) hp
      subst hm'
      refine hg.refilled hinv (by decide) (fun a ha => Function.update_of_ne ha _ _)
        (fun _ _ => rfl) rfl ?_ ?_
      · refine forall_preallocs.mpr ⟨fun _ => Or.inr rfl, fun _ => ?_, fun _ => ?_⟩
        · exact Or.inl (preallocPd_mem m₁)
        · exact Or.inl (preallocPt_mem m₁)
      · intro hne hdist
        obtain ⟨-, h₃⟩ := pairwise_preallocs.mp hdist
        refine pairwise_preallocs.mpr ⟨⟨fun hp0 heq => ?_, fun hp0 heq => ?_⟩, h₃⟩
        · exact hne _ (preallocPd_mem m₁) (fun h0 => hp0 (heq.trans h0)) heq.symm
        · exact hne _ (preallocPt_mem m₁) (fun h0 => hp0 (heq.trans h0)) heq.symm
    · obtain rfl := Option.some.inj hfill
      exact ⟨h, .refl, fun _ hu => hu⟩

/-- One search, when it finds a block. -/
theorem HeapInv.tryAlloc_grows (h : HeapInv m l) (hk : KernelInv m m.live roots)
    (hwrap : m'.kheapEnd + 0xFFF + size < 2 ^ 64)
    (hcall : m.tryAlloc size align = some (some (p, m'))) :
    (∃ l, HeapInv m' l) ∧ Grows roots m m' ⟨p, size, align⟩ := by
  have hle := (grown_tryAlloc hcall).le
  obtain ⟨mem, l', rfl, hinv, -⟩ := h.tryAlloc (by omega) hcall
  refine ⟨⟨l', hinv⟩, ⟨m.live, rfl, fun _ hu => hu, hk.congr rfl rfl rfl rfl⟩, .single (Or.inl ?_)⟩
  exact Unseen.of_heap mem _

/-- What is asked of `kmalloc_a`: its calls only let the heap grow, and are sequences of
events. -/
structure AllocGrows (roots : List ℕ) (kmallocA : Machine → ℕ → Option (ℕ × Machine)) : Prop where
  grown : ∀ m size p m', m.kheap ≠ 0 → kmallocA m size = some (p, m') → Grown m m'
  grows : ∀ {m m' l size p}, HeapInv m l → KernelInv m m.live roots →
    m'.kheapEnd + 0xFFF + size < 2 ^ 64 → kmallocA m size = some (p, m') →
    (∃ l, HeapInv m' l) ∧ Grows roots m m' ⟨p, size, true⟩

/-- Making a preallocated table again is a sequence of events, if `kmalloc_a` is. -/
theorem HeapInv.refill_grows {kmallocA : Machine → ℕ → Option (ℕ × Machine)}
    (h : HeapInv m l) (hk : KernelInv m m.live roots) (ha : AllocGrows roots kmallocA)
    (hlt : m'.kheapEnd + 1 < 2 ^ 64)
    (hfill : refillPt kmallocA m = some m' ∨ refillPd kmallocA m = some m' ∨
      refillPdpt kmallocA m = some m') :
    (∃ l, HeapInv m' l) ∧ KernelInv m' m'.live roots ∧ Growth roots m m' ∧ m.live ⊆ m'.live := by
  have hnew : ∀ size p m₁, (size = pageTableSize ∨ size = pageDirectorySize) →
      m₁.kheapEnd = m'.kheapEnd → kmallocA m size = some (p, m₁) →
      (∃ l, HeapInv m₁ l) ∧ Grows roots m m₁ ⟨p, size, true⟩ := by
    intro size p m₁ hsize hend hcall
    have hg := ha.grown m size p m₁ h.kheap_pos.ne' hcall
    obtain ⟨-, hroom⟩ := h.room hg (by rwa [hend]) hsize
    exact ha.grows h hk hroom hcall
  obtain ⟨hkern, hgrow, hsub⟩ := hk.refills hnew hfill
  refine ⟨?_, hkern, hgrow, hsub⟩
  rcases refilled_of_refill hfill with rfl | ⟨size, p, m₁, hsize, hp, hs⟩
  · exact ⟨l, h⟩
  · obtain ⟨⟨l, hinv⟩, -⟩ := hnew size p m₁ hsize hs.kheapEnd.symm hp
    exact ⟨l, hinv.congr hs⟩

/-- **`heap_expand` is a sequence of events**, if `kmalloc_a` is. -/
theorem HeapInv.heapExpand_grows {kmallocA : Machine → ℕ → Option (ℕ × Machine)}
    (h : HeapInv m l) (hk : KernelInv m m.live roots) (ha : AllocGrows roots kmallocA)
    (hlt : m'.kheapEnd + 1 < 2 ^ 64) (hexp : Xana.heapExpand src kmallocA m = some m') :
    (∃ l, HeapInv m' l) ∧ KernelInv m' m'.live roots ∧ Growth roots m m' ∧ m.live ⊆ m'.live := by
  refine h.heapExpand_rule (P := fun x => KernelInv x x.live roots ∧ Growth roots m x ∧
    m.live ⊆ x.live) ha.grown ?_ ?_ hlt hexp
  · -- the pages, and the last header
    intro m₂ m₃ l₃ hexp hlast hinv₃
    obtain ⟨-, -, hl₂, -, -⟩ := expandPages_eq hexp
    obtain ⟨mem, rfl⟩ := exists_growLast hlast
    have hle₀ : m.kheap ≤ m.kheapEnd + 1 := by
      rw [← h.end_eq]
      exact le_endOf.trans (Nat.le_succ _)
    have hlt₂ : m₂.kheapEnd < 2 ^ 64 := hinv₃.lt
    obtain ⟨hkern₂, hgrow₂⟩ := hk.expandPages hle₀ hlt₂ hexp
    have hlive : { m₂ with mem := mem }.live = m.live := hl₂
    rw [hlive]
    refine ⟨hkern₂.congr rfl rfl rfl rfl, hgrow₂.tail (Or.inl ?_), fun _ hu => hu⟩
    rw [← hl₂]
    exact Unseen.of_heap mem m₂.live
  · -- a prealloc is filled
    intro m₂ m₃ l₂ hinv₂ hP hlt hfill
    obtain ⟨hkern₂, hgrow₂, hsub₂⟩ := hP
    obtain ⟨hinv₃, hkern₃, hgrow₃, hsub₃⟩ := hinv₂.refill_grows hkern₂ ha hlt hfill
    exact ⟨hinv₃, hkern₃, hgrow₂.trans hgrow₃, List.Subset.trans hsub₂ hsub₃⟩

/-- **`kmalloc_int` is a sequence of events**, and keeps the tables apart. -/
theorem HeapInv.kmallocInt_grows (h : HeapInv m l) (hk : KernelInv m m.live roots)
    (hwrap : m'.kheapEnd + 0xFFF + size < 2 ^ 64)
    (hcall : Xana.kmallocInt src n m size align = some (p, m')) :
    Grows roots m m' ⟨p, size, align⟩ := by
  induction n generalizing m l size align p m' with
  | zero => simp [Xana.kmallocInt] at hcall
  | succ n ih =>
    simp only [Xana.kmallocInt, if_neg h.kheap_pos.ne', Option.bind_eq_bind,
      Option.bind_eq_some_iff] at hcall
    obtain ⟨r, hr, hcall⟩ := hcall
    cases r with
    | some r =>
      obtain rfl := Option.some.inj hcall
      exact (h.tryAlloc_grows hk hwrap hr).2
    | none =>
      simp only [Option.bind_eq_some_iff] at hcall
      obtain ⟨m₁, h₁, h₂⟩ := hcall
      have hg₁ : Grown m m₁ :=
        grown_heapExpand (fun m size p m' hk h => grown_kmallocInt hk h) h.kheap_pos.ne' h₁
      have hk₁ : m₁.kheap ≠ 0 := by rw [hg₁.kheap]; exact h.kheap_pos.ne'
      have hle := (grown_kmallocInt hk₁ h₂).le
      have halloc : AllocGrows roots fun m size => Xana.kmallocInt src n m size true := by
        refine ⟨fun m size p m' hk h => grown_kmallocInt hk h, fun hinv hkern hroom hcall => ?_⟩
        obtain ⟨-, -, hinv', -⟩ := hinv.kmallocInt hroom hcall
        exact ⟨hinv', ih hinv hkern hroom hcall⟩
      obtain ⟨⟨l₁, hinv₁⟩, hkern₁, hgrow₁, hsub₁⟩ := h.heapExpand_grows hk halloc (by omega) h₁
      obtain ⟨⟨L, hlive, hsub, hkern⟩, hgrow⟩ := ih hinv₁ hkern₁ hwrap h₂
      exact ⟨⟨L, hlive, List.Subset.trans hsub₁ hsub, hkern⟩, hgrow₁.trans hgrow⟩

end Allocating

end Kernel

end Xana
