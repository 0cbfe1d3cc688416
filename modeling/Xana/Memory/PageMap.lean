import Xana.Lib.Runs
import Xana.Memory.Alloc
import Xana.Memory.MapPage

/-!
# The page tables refine a finite map

The user half of an address space, seen from outside, is a partial map from page
numbers to frames. `map_page_kmalloc` and `free_page` do to the page tables what
`PageCall.describes` does to such a map, and `virt_to_phys` and `is_page_free`
read it (`pageLaws_of_reach`).

Tables come from `kmalloc_ap`, of which only this is used: it returns, and its
tables are fresh (`FreshTables`).
-/

namespace Xana

open Forest

/-- A user address: PML4 slots 0 to 510. -/
def UserAddr (virt : ℕ) : Prop := virt < 2 ^ 64 ∧ pml4Index virt ≠ 511

/-- The paths into the user half of the address space at `root`. -/
def UserKey (root r : ℕ) (p : List ℕ) : Prop :=
  r = root ∧ p.length ≤ 3 ∧ ∀ i ∈ p.head?, i < 511

/-- **What is used of `kmalloc_ap`**: it returns a table that overlaps nothing, and leaves
the tables of the address space alone. -/
def FreshTables (alloc : Machine → ℕ → Option (ℕ × ℕ × Machine)) (root : ℕ) : Prop :=
  ∀ m size, 0 < size → ∃ p phys m', alloc m size = some (p, phys, m') ∧
    NewTable (UserKey root) m size p m' ∧ (m.bitmap.isSome → m'.bitmap.isSome)

/-- The calls that change an address space. -/
inductive PageCall where
  | map (virt phys : ℕ) (isKernel isWriteable : Bool)
  | free (virt : ℕ)
  deriving DecidableEq, Repr

namespace PageCall

/-- The call is on a user address, and maps a page-aligned frame below 2^52 whose bit
is clear. -/
def Allowed (m : Machine) : PageCall → Prop
  | map virt phys _ _ =>
      UserAddr virt ∧ phys % 0x1000 = 0 ∧ phys < 2 ^ 52 ∧
        ∃ b, m.bitmap = some b ∧ b (phys / 0x1000) = false
  | free virt => UserAddr virt

/-- What the code does. -/
def run (alloc : Machine → ℕ → Option (ℕ × ℕ × Machine)) (root : ℕ) (m : Machine) :
    PageCall → Option Machine
  | map virt phys isKernel isWriteable =>
      (mapPageKmalloc alloc m virt phys isKernel isWriteable root).map Prod.snd
  | free virt => some (freePage m virt root)

/-- What the call describes: `map` adds a page that is absent, `free` removes one. -/
def describes (pages : ℕ → Option ℕ) : PageCall → ℕ → Option ℕ
  | map virt phys _ _ =>
      if pages (pageOf virt) = none then Function.update pages (pageOf virt) (some phys) else pages
  | free virt => Function.update pages (pageOf virt) none

end PageCall

/-- Where an address is, by a finite map. -/
def translation (pages : ℕ → Option ℕ) (virt : ℕ) : ℕ :=
  match pages (pageOf virt) with
  | none => 2 ^ 64 - 1
  | some phys => phys + virt % 0x1000

/-- `virt_to_phys` is what the map says, for every user address. -/
def Translates (m : Machine) (root : ℕ) (pages : ℕ → Option ℕ) : Prop :=
  ∀ virt, UserAddr virt → virtToPhys m virt root = translation pages virt

/-- **The laws of an address space**, with the map that the calls describe. -/
structure PageLaws (alloc : Machine → ℕ → Option (ℕ × ℕ × Machine)) (root : ℕ) (m : Machine)
    (pages : ℕ → Option ℕ) : Prop where
  translates : Translates m root pages
  isFree : ∀ virt, UserAddr virt → isPageFree m virt root = (pages (pageOf virt)).isNone
  /-- `map_page_kmalloc` returns, and whether it returns `true`. -/
  map : ∀ virt phys k w, (PageCall.map virt phys k w).Allowed m → ∃ ok m',
    mapPageKmalloc alloc m virt phys k w root = some (ok, m') ∧
      (ok = true ↔ pages (pageOf virt) = none) ∧
      (ok = true → Translates m' root (Function.update pages (pageOf virt) (some phys)) ∧
        m'.frameUsed phys = true) ∧
      (ok = false → Translates m' root pages ∧ m'.bitmap = m.bitmap)
  /-- `free_page` removes the page, and clears the bit of its frame and no other. -/
  free : ∀ virt, UserAddr virt →
    Translates (freePage m virt root) root (Function.update pages (pageOf virt) none) ∧
      ∀ phys, (freePage m virt root).frameUsed phys =
        (m.frameUsed phys && (pages (pageOf virt)).all fun q => q / 0x1000 != phys / 0x1000)

/-- A step: the code and the map. -/
def PageStep (alloc : Machine → ℕ → Option (ℕ × ℕ × Machine)) (root : ℕ)
    (s : Machine × (ℕ → Option ℕ)) (c : PageCall) (s' : Machine × (ℕ → Option ℕ)) : Prop :=
  c.run alloc root s.1 = some s'.1 ∧ s'.2 = c.describes s.2

/-- **An address space whose user half is empty.** -/
def EmptySpace (root : ℕ) (s : Machine × (ℕ → Option ℕ)) : Prop :=
  Held s.1 s.1.live root pageDirectorySize ∧ (∀ i < 511, (s.1.dirs root).virt i = 0) ∧
    s.1.bitmap.isSome ∧ s.2 = fun _ => none

/-! ### Entries and frames -/

section Entries

variable {phys flags v : ℕ} {k w : Bool}

theorem entryFlags_bounds (k w : Bool) : 0 < entryFlags k w ∧ entryFlags k w < 0x1000 := by
  cases k <;> cases w <;> decide

/-- The bits of a page-aligned address and flags do not meet. -/
theorem or_flags (ha : phys % 0x1000 = 0) (hf : flags < 0x1000) :
    phys ||| flags = phys + flags := by
  have hphys : phys = 2 ^ 12 * (phys / 0x1000) := by omega
  rw [hphys]
  exact (Nat.two_pow_add_eq_or_of_lt hf _).symm

theorem frameAddr_eq {e : ℕ} (h : e < 2 ^ 64) : frameAddr e = e / 0x1000 * 0x1000 := and_pageMask h

/-- A page-aligned address is its own frame's. -/
theorem frameAddr_of_aligned (ha : phys % 0x1000 = 0) (hlt : phys < 2 ^ 52) :
    frameAddr phys = phys := by
  rw [frameAddr_eq (by omega)]
  omega

/-- **An entry holds its frame**, with flags that are not `0`. -/
theorem frameAddr_or (ha : phys % 0x1000 = 0) (hlt : phys < 2 ^ 52) (hf : flags < 0x1000) :
    frameAddr (phys ||| flags) = phys := by
  rw [or_flags ha hf, frameAddr_eq (by omega)]
  omega

end Entries

/-! ### The invariant -/

/-- What an entry says about a page. -/
def EntryOf (e : ℕ) : Option ℕ → Prop
  | none => e = 0
  | some phys => e ≠ 0 ∧ frameAddr e = phys ∧ phys % 0x1000 = 0

/-- **The invariant**: the tables are a tree, and its entries are those of the map. -/
structure Refines (root : ℕ) (m : Machine) (pages : ℕ → Option ℕ) : Prop where
  tree : TreeInv m m.live (UserKey root)
  small : SmallPages m (UserKey root)
  bitmap : m.bitmap.isSome
  entry : ∀ virt, UserAddr virt → EntryOf (m.entry root virt) (pages (pageOf virt))

theorem isSome_bitmap_markFrame {m : Machine} {phys : ℕ} {used : Bool} :
    (m.markFrame phys used).bitmap.isSome ↔ m.bitmap.isSome := by
  rw [Machine.markFrame, Option.isSome_map]

section Refinement

variable {alloc : Machine → ℕ → Option (ℕ × ℕ × Machine)} {root virt phys : ℕ} {k w : Bool}
variable {m m' : Machine} {pages : ℕ → Option ℕ}

/-- The way to a user address. -/
theorem onPath_userKey (h : UserAddr virt) : OnPath (UserKey root) root virt := by
  have hlt : pml4Index virt < 511 := by
    have hne := h.2
    rw [pml4Index_eq] at hne ⊢
    omega
  constructor <;> exact ⟨rfl, by simp [slots], by simp [slots, hlt]⟩

/-- An address of a user page is a user address. -/
theorem pml4Index_of_pageOf {v v' : ℕ} (h : pageOf v = pageOf v') : pml4Index v = pml4Index v' :=
  List.head_eq_of_cons_eq (pageOf_eq_iff.mp h).1

namespace Refines

theorem translates (h : Refines root m pages) : Translates m root pages := by
  intro v hv
  have hentry := h.entry v hv
  rw [virtToPhys_eq h.small (onPath_userKey hv).pt, translation]
  cases hp : pages (pageOf v) with
  | none =>
    rw [hp] at hentry
    exact if_pos hentry
  | some phys =>
    rw [hp] at hentry
    obtain ⟨hne, rfl, -⟩ := hentry
    exact if_neg hne

theorem entry_eq_zero_iff (h : Refines root m pages) (hv : UserAddr virt) :
    m.entry root virt = 0 ↔ pages (pageOf virt) = none := by
  have hentry := h.entry virt hv
  cases hp : pages (pageOf virt) with
  | none =>
    rw [hp] at hentry
    exact iff_of_true hentry rfl
  | some phys =>
    rw [hp] at hentry
    exact iff_of_false hentry.1 (by simp)

theorem isPageFree_eq (h : Refines root m pages) (hv : UserAddr virt) :
    isPageFree m virt root = (pages (pageOf virt)).isNone := by
  rw [Xana.isPageFree_eq, Bool.eq_iff_iff, decide_eq_true_eq, h.entry_eq_zero_iff hv,
    Option.isNone_iff_eq_none]

/-- Writing the entry of a page. -/
theorem setPtEntry {pt e : ℕ} {q : Option ℕ} (h : Refines root m pages) (hv : UserAddr virt)
    (hw : walk m.kid root (slots virt) = some pt) (he : EntryOf e q) {b : Option (ℕ → Bool)}
    (hb : b.isSome) :
    Refines root { m.setPtEntry pt (ptIndex virt) e with bitmap := b }
      (Function.update pages (pageOf virt) q) where
  tree := h.tree.congr (fun _ _ _ => rfl) rfl
  small := h.small
  bitmap := hb
  entry := by
    intro v hv'
    have hset := h.tree.entry_setPtEntry (e := e) (onPath_userKey hv).pt hw (onPath_userKey hv').pt
    show EntryOf ((m.setPtEntry pt (ptIndex virt) e).entry root v) _
    rw [hset]
    by_cases hpage : pageOf v = pageOf virt
    · rw [if_pos ⟨rfl, hpage⟩, hpage, Function.update_self]
      exact he
    · rw [if_neg fun hc => hpage hc.2, Function.update_of_ne hpage]
      exact h.entry v hv'

/-- Adding tables. -/
theorem grew (h : Refines root m pages) (hg : Grew (UserKey root) m m') (hb : m'.bitmap.isSome) :
    Refines root m' pages where
  tree := hg.tree
  small := hg.small h.small
  bitmap := hb
  entry := by
    intro v hv
    rw [hg.entry (onPath_userKey hv).pt]
    exact h.entry v hv

end Refines

/-- An allocator with fresh tables keeps the bitmap. -/
theorem FreshTables.allocator (h : FreshTables alloc root) :
    Allocator alloc (UserKey root) fun m => m.bitmap.isSome where
  new := by
    intro m size p phys m' hsize hb _ hp
    obtain ⟨p', phys', m₁, hp', hnew, hb'⟩ := h m size hsize
    obtain ⟨rfl, rfl, rfl⟩ : p' = p ∧ phys' = phys ∧ m₁ = m' := by
      rw [hp] at hp'
      simpa using hp'.symm
    exact ⟨hnew, hb' hb⟩
  tables := fun _ _ h => h

/-- **`map_page_kmalloc` refines adding a page.** -/
theorem Refines.map (h : Refines root m pages) (ha : FreshTables alloc root)
    (hok : (PageCall.map virt phys k w).Allowed m) :
    ∃ ok m', mapPageKmalloc alloc m virt phys k w root = some (ok, m') ∧
      ((ok = true ∧ pages (pageOf virt) = none ∧
          Refines root m' (Function.update pages (pageOf virt) (some phys)) ∧
          m'.frameUsed phys = true) ∨
        (ok = false ∧ pages (pageOf virt) ≠ none ∧ m' = m)) := by
  obtain ⟨hv, hal, hlt, b, hb, hclear⟩ := hok
  have hfree : m.frameUsed phys = false := by rw [Machine.frameUsed, hb]; exact hclear
  by_cases he : m.entry root virt = 0
  · -- there is no page: the tables are added, and the entry is written
    have hret : ∀ m size, 0 < size → ∃ r, alloc m size = some r := by
      intro m size hsize
      obtain ⟨p, ph, m', hp, -⟩ := ha m size hsize
      exact ⟨_, hp⟩
    obtain ⟨ok, m', hmap⟩ : ∃ ok m', mapPageKmalloc alloc m virt phys k w root = some (ok, m') :=
      exists_mapPageKmalloc hret hfree
    obtain ⟨m₁, pt, hg, hb₁, hw, hset⟩ :=
      h.tree.mapPageKmalloc h.bitmap ha.allocator (onPath_userKey hv) hmap
    have h₁ := h.grew hg hb₁
    have he₁ : m₁.tabs pt (ptIndex virt) = 0 := by
      rw [← entry_of_walk hw, hg.entry (onPath_userKey hv).pt]
      exact he
    rw [setPage, if_neg (not_not.mpr he₁), Prod.mk.injEq] at hset
    obtain ⟨rfl, rfl⟩ := hset
    obtain ⟨b₁, hb₁⟩ := Option.isSome_iff_exists.mp hb₁
    obtain ⟨hpos, hflags⟩ := entryFlags_bounds k w
    have hentry : EntryOf (frameAddr phys ||| entryFlags k w) (some phys) := by
      rw [frameAddr_of_aligned hal hlt]
      refine ⟨?_, frameAddr_or hal hlt hflags, hal⟩
      rw [or_flags hal hflags]
      omega
    refine ⟨true, _, hmap, Or.inl ⟨rfl, (h.entry_eq_zero_iff hv).mp he, ?_, ?_⟩⟩
    · refine h₁.setPtEntry hv hw hentry ?_
      exact isSome_bitmap_markFrame.mpr h₁.bitmap
    · simp [Machine.frameUsed, Machine.markFrame, Machine.setPtEntry, hb₁]
  · refine ⟨false, m, mapPageKmalloc_of_entry hfree he, Or.inr ⟨rfl, ?_, rfl⟩⟩
    exact mt (h.entry_eq_zero_iff hv).mpr he

/-- **`free_page` refines removing a page.** -/
theorem Refines.free (h : Refines root m pages) (hv : UserAddr virt) :
    Refines root (freePage m virt root) (Function.update pages (pageOf virt) none) := by
  by_cases he : m.entry root virt = 0
  · have hnone := (h.entry_eq_zero_iff hv).mp he
    rw [freePage_of_none he, ← hnone, Function.update_eq_self]
    exact h
  · obtain ⟨pt, hw, -⟩ := exists_walk_of_entry he
    rw [freePage_of_entry hw he]
    refine h.setPtEntry (q := none) hv hw rfl ?_
    exact isSome_bitmap_markFrame.mpr h.bitmap

/-- The bits after `free_page`. -/
theorem Refines.frameUsed_freePage (h : Refines root m pages) (hv : UserAddr virt) :
    (freePage m virt root).frameUsed phys =
      (m.frameUsed phys && (pages (pageOf virt)).all fun q => q / 0x1000 != phys / 0x1000) := by
  have hentry := h.entry virt hv
  obtain ⟨b, hb⟩ := Option.isSome_iff_exists.mp h.bitmap
  cases hp : pages (pageOf virt) with
  | none =>
    rw [hp] at hentry
    rw [freePage_of_none hentry]
    simp
  | some q =>
    rw [hp] at hentry
    obtain ⟨hne, hq, -⟩ := hentry
    obtain ⟨pt, hw, -⟩ := exists_walk_of_entry hne
    rw [freePage_of_entry hw hne, hq]
    by_cases hframe : phys / 0x1000 = q / 0x1000
    · simp [Machine.frameUsed, Machine.markFrame, Machine.setPtEntry, hb, hframe]
    · have hframe' : ¬q / 0x1000 = phys / 0x1000 := fun heq => hframe heq.symm
      simp [Machine.frameUsed, Machine.markFrame, Machine.setPtEntry, hb, hframe, hframe']

/-- **The laws follow from the invariant.** -/
theorem Refines.laws (h : Refines root m pages) (ha : FreshTables alloc root) :
    PageLaws alloc root m pages where
  translates := h.translates
  isFree := fun _ hv => h.isPageFree_eq hv
  map := by
    intro virt phys k w hok
    obtain ⟨ok, m', hmap, ⟨rfl, hnone, h', hused⟩ | ⟨rfl, hsome, rfl⟩⟩ := h.map ha hok
    · exact ⟨true, m', hmap, by simp [hnone], fun _ => ⟨h'.translates, hused⟩, by simp⟩
    · exact ⟨false, m', hmap, by simp [hsome], by simp, fun _ => ⟨h.translates, rfl⟩⟩
  free := fun _ hv => ⟨(h.free hv).translates, fun _ => h.frameUsed_freePage hv⟩

/-- **Every call keeps the invariant.** -/
theorem Refines.step {s s' : Machine × (ℕ → Option ℕ)} {c : PageCall} (h : Refines root s.1 s.2)
    (ha : FreshTables alloc root) (hok : c.Allowed s.1) (hs : PageStep alloc root s c s') :
    Refines root s'.1 s'.2 := by
  obtain ⟨hrun, hpages⟩ := hs
  rw [hpages]
  cases c with
  | map virt phys k w =>
    obtain ⟨ok, m', hmap, hcase⟩ := h.map ha hok
    obtain rfl : m' = s'.1 := by simpa [PageCall.run, hmap] using hrun
    rw [PageCall.describes]
    rcases hcase with ⟨-, hnone, h', -⟩ | ⟨-, hsome, hsame⟩
    · rwa [if_pos hnone]
    · rw [if_neg hsome, hsame]
      exact h
  | free virt =>
    rw [← Option.some.inj hrun]
    exact h.free hok

/-- An empty user half has no tables but its root. -/
theorem EmptySpace.refines {s : Machine × (ℕ → Option ℕ)} (h : EmptySpace root s) :
    Refines root s.1 s.2 := by
  obtain ⟨hheld, hempty, hbitmap, hpages⟩ := h
  have hinit : ∀ {r p i}, UserKey root r (p ++ [i]) → UserKey root r p := by
    intro r p i hkey
    obtain ⟨rfl, hlen, hhead⟩ := hkey
    rw [List.length_append] at hlen
    refine ⟨rfl, by omega, ?_⟩
    cases p with
    | nil => simp
    | cons j p => exact hhead
  have hnil : ∀ {r p t}, UserKey root r p → walk s.1.kid r p = some t → p = [] ∧ t = root := by
    intro r p t hkey hw
    obtain ⟨rfl, -, hhead⟩ := hkey
    cases p with
    | nil => exact ⟨rfl, (Option.some.inj hw).symm⟩
    | cons i p =>
      have hi : i < 511 := hhead i rfl
      have hkid : s.1.kid r i = none := pointer_eq_none.mpr (hempty i hi)
      rw [walk_cons, hkid] at hw
      exact absurd hw (by simp)
  refine ⟨⟨⟨hinit, ?_⟩, fun hkey => hkey.2.1, ?_⟩, ?_, hbitmap, ?_⟩
  · intro r r' t p p' hp hp' hw hw'
    exact ⟨hp.1.trans hp'.1.symm, (hnil hp hw).1.trans (hnil hp' hw').1.symm⟩
  · intro r p t hp hw
    obtain ⟨rfl, rfl⟩ := hnil hp hw
    exact hheld
  · intro r q t i hkey hlen hw _
    rw [(hnil (hinit hkey) hw).1] at hlen
    exact absurd hlen (by simp)
  · intro v hv
    rw [hpages]
    refine entry_of_none ?_
    cases hw : walk s.1.kid root (slots v) with
    | none => rfl
    | some t => exact absurd (hnil (onPath_userKey hv).pt hw).1 (by simp [slots])

end Refinement

/-! ### An allocator -/

section Bump

/-- The address behind all chunks. -/
def behind (a : ℕ) : List Chunk → ℕ
  | [] => a
  | u :: l => max (u.ptr + u.size) (behind a l)

theorem le_behind (a : ℕ) (l : List Chunk) : a ≤ behind a l := by
  induction l with
  | nil => exact le_rfl
  | cons u l ih => exact ih.trans (le_max_right _ _)

theorem end_le_behind {a : ℕ} {l : List Chunk} {u : Chunk} (hu : u ∈ l) :
    u.ptr + u.size ≤ behind a l := by
  induction l with
  | nil => simp at hu
  | cons v l ih =>
    rcases List.mem_cons.mp hu with rfl | hu
    · exact le_max_left _ _
    · exact (ih hu).trans (le_max_right _ _)

/-- Tables one behind the other. -/
def bumpTable (m : Machine) (size : ℕ) : Option (ℕ × ℕ × Machine) :=
  let p := behind (m.kheap + 1) m.live
  some (p, p, { m with live := ⟨p, size, true⟩ :: m.live })

theorem freshTables_bumpTable (root : ℕ) : FreshTables bumpTable root := by
  intro m size hsize
  have hle := le_behind (m.kheap + 1) m.live
  refine ⟨_, _, _, rfl, ⟨⟨?_, ?_, hsize, ?_⟩, ?_, ?_, rfl, ?_, ?_⟩, id⟩
  · exact (Nat.zero_lt_succ _).trans_le hle
  · exact (Nat.le_succ _).trans hle
  · exact fun u hu => Or.inr (end_le_behind hu)
  · exact fun u hu => List.mem_cons_of_mem _ hu
  · exact List.mem_cons_self
  · exact fun _ _ _ => rfl
  · exact fun _ _ _ => rfl

/-- A machine with an empty address space at `0x1000`, below a heap at `0x200000`. -/
def emptyMachine : Machine where
  mem := fun _ => 0
  ram := fun _ => 0
  kheap := 0x200000
  kheapEnd := 0x400000 - 1
  live := []
  dirs := fun _ => PageDirectory.zero
  tabs := fun _ _ => 0
  kernelPml4 := 0x1000
  preallocPdpt := 0
  preallocPd := 0
  preallocPt := 0
  bitmap := some fun _ => false

end Bump

end Xana
