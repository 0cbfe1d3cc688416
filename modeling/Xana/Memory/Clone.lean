import Xana.Memory.Frames

/-!
# Copying an address space

What `clone_page_directory` does, table by table. `Copies` is about frames: the pages
copied so far are on frames that were not marked when the call began, one each; so are
the pages that the heap has grown by since. `CloneInv` adds the tables: those there
were are as they were, and those of the new address space are apart.

The loops are nested, and so is the argument: a body that copies what is behind one slot
(`Copied`) gives a loop that copies what is behind a table.
-/

namespace Xana

open Forest

/-- The entries that a call adds: those of user pages in the new address space, once there is
one, and those of the pages behind the heap, up to `e`. -/
def NewLeaf (m : Machine) (new : Option ℕ) (e r v : ℕ) : Prop :=
  r ∈ new ∧ UserAddr v ∨ r = m.kernelPml4 ∧ m.kheapEnd < v ∧ v ≤ e

/-- The page of the entry `e'` is a copy of the page of `e`. -/
structure PageCopy (m x : Machine) (e e' : ℕ) : Prop where
  ne : e ≠ 0
  lt : e' < 2 ^ 52
  flags : e' &&& 0xFFF = e &&& 0xFFF
  bytes : ∀ k < 0x1000, x.ram (frameAddr e' + k) = m.ram (frameAddr e + k)

/-- **What is asked of a directory that is copied**: the entries of its user half are for 4 KiB
pages, with bits 52 to 63 clear, on frames that are marked. -/
structure UserPages (m : Machine) (directory : ℕ) : Prop where
  present : ∀ v, UserAddr v → m.entry directory v ≠ 0 → m.entry directory v &&& 1 = 1
  lt : ∀ v, UserAddr v → m.entry directory v < 2 ^ 52
  used : ∀ v, UserAddr v → m.entry directory v ≠ 0 →
    m.frameUsed (frameAddr (m.entry directory v)) = true

/-- **Pages during a call** that began at `m` and has come to `x`. -/
structure Copies (m : Machine) (directory : ℕ) (new : Option ℕ) (x : Machine) : Prop where
  frames : NewFrames (NewLeaf m new x.kheapEnd) m x
  heap : ∀ v, m.kheapEnd < v → v ≤ x.kheapEnd → pml4Index v = 511 ∧ x.entry m.kernelPml4 v ≠ 0
  kernel : ∀ v, pml4Index v = 511 → m.entry m.kernelPml4 v ≠ 0 →
    x.entry m.kernelPml4 v = m.entry m.kernelPml4 v
  ram : ∀ a, m.frameUsed a = true → x.ram a = m.ram a
  page : ∀ r ∈ new, ∀ v, UserAddr v → x.entry r v ≠ 0 →
    PageCopy m x (m.entry directory v) (x.entry r v)
  kernelPml4 : x.kernelPml4 = m.kernelPml4
  kheapEnd_le : m.kheapEnd ≤ x.kheapEnd
  end_mod : (x.kheapEnd + 1) % 0x1000 = 0

section Frames

variable {m x x' : Machine} {directory r v e phys : ℕ} {new : Option ℕ} {roots : List ℕ}

/-- At the beginning of the call there are no new leaves. -/
theorem copies_refl (hb : m.bitmap.isSome) (hmod : (m.kheapEnd + 1) % 0x1000 = 0) :
    Copies m directory none m := by
  have hnone : ∀ {r v}, ¬NewLeaf m none m.kheapEnd r v := by
    rintro r v (⟨h, -⟩ | ⟨-, h⟩)
    · exact absurd h (by simp)
    · omega
  refine ⟨⟨⟨?_, ?_⟩, hb, fun _ h => h, ?_, fun _ h => Or.inl h⟩, fun v h h' => by omega,
    fun _ _ _ => rfl, fun _ _ => rfl, fun _ h => absurd h (by simp), rfl, le_rfl, hmod⟩
  · exact fun hl => absurd hl hnone
  · exact fun hl => absurd hl hnone
  · exact fun hl => absurd hl hnone

/-- Nothing of it has changed. -/
theorem Copies.congr (h : Copies m directory new x)
    (huser : ∀ r ∈ new, ∀ v, UserAddr v → x'.entry r v = x.entry r v)
    (hkernel : ∀ v, pml4Index v = 511 → x'.entry m.kernelPml4 v = x.entry m.kernelPml4 v)
    (hbitmap : x'.bitmap = x.bitmap) (hram : x'.ram = x.ram) (hend : x'.kheapEnd = x.kheapEnd)
    (hp : x'.kernelPml4 = x.kernelPml4) : Copies m directory new x' := by
  refine ⟨?_, ?_, ?_, by rw [hram]; exact h.ram, ?_, hp.trans h.kernelPml4,
    by rw [hend]; exact h.kheapEnd_le, by rw [hend]; exact h.end_mod⟩
  · rw [hend]
    refine h.frames.congr hbitmap ?_
    rintro r v (⟨hr, hv⟩ | ⟨rfl, hlt, hle⟩)
    · exact huser r hr v hv
    · exact hkernel v (h.heap v hlt hle).1
  · rw [hend]
    intro v hlt hle
    obtain ⟨hv, hne⟩ := h.heap v hlt hle
    exact ⟨hv, by rwa [hkernel v hv]⟩
  · intro v hv hne
    rw [hkernel v hv]
    exact h.kernel v hv hne
  · intro r hr v hv hne
    rw [huser r hr v hv] at hne ⊢
    obtain ⟨h₁, h₂, h₃, h₄⟩ := h.page r hr v hv hne
    exact ⟨h₁, h₂, h₃, by rwa [hram]⟩

/-- **The heap grows by a page.** -/
theorem Copies.heapPage (h : Copies m directory new x) (hroots : ∀ r ∈ new, r ∈ roots)
    (hpage : HeapPage roots phys x x') : Copies m directory new x' := by
  have hmod := h.end_mod
  have hend := hpage.kheapEnd
  have hp := h.kernelPml4
  have hentry : ∀ {v}, pml4Index v = 511 → x'.entry x.kernelPml4 v =
      if pageOf v = pageOf (x.kheapEnd + 1) then phys ||| 3 else x.entry x.kernelPml4 v :=
        hpage.entry
  have habsent := hpage.absent
  rw [hp] at hentry habsent
  have huser : ∀ r ∈ new, ∀ v, UserAddr v → x'.entry r v = x.entry r v := fun r hr v hv =>
    SameTables.entry_eq hpage.tables (Or.inr (hroots r hr)) hv
  -- an address of the new page, or one that the heap had
  have hcase : ∀ {v}, m.kheapEnd < v → v ≤ x'.kheapEnd →
      pageOf v = pageOf (x.kheapEnd + 1) ∧ pml4Index v = 511 ∨
        v ≤ x.kheapEnd ∧ pml4Index v = 511 ∧ pageOf v ≠ pageOf (x.kheapEnd + 1) := by
    intro v hlt hle
    by_cases hv : v ≤ x.kheapEnd
    · obtain ⟨h511, hne⟩ := h.heap v hlt hv
      refine Or.inr ⟨hv, h511, fun heq => hne ?_⟩
      rw [entry_congr heq]
      exact habsent
    · have hdiv : v / 0x1000 = (x.kheapEnd + 1) / 0x1000 := by omega
      have heq : pageOf v = pageOf (x.kheapEnd + 1) := by rw [pageOf, pageOf, hdiv]
      exact Or.inl ⟨heq, by rw [pml4Index_of_pageOf heq]; exact hpage.kernel⟩
  have he0 : phys ||| 3 ≠ 0 := by
    rw [or_flags hpage.aligned (by decide)]
    omega
  refine ⟨?_, ?_, ?_, by rw [hpage.ram]; exact h.ram, ?_, hpage.kernelPml4.trans hp, ?_, by omega⟩
  · refine h.frames.add m.kernelPml4 (x.kheapEnd + 1) hpage.clear
      (frameAddr_or hpage.aligned hpage.lt (by decide)) he0 hpage.bitmap ?_ habsent ?_ ?_ ?_
    · have hle := h.kheapEnd_le
      exact Or.inr ⟨rfl, by omega, by omega⟩
    · rintro r v (hl | ⟨rfl, hlt, hle⟩)
      · exact Or.inl hl
      · exact Or.inr ⟨rfl, hlt, by omega⟩
    · rintro r v (hl | ⟨rfl, hlt, hle⟩)
      · exact Or.inr (Or.inl hl)
      · exact (hcase hlt hle).imp (fun hc => ⟨rfl, hc.1⟩) fun hc => Or.inr ⟨rfl, hlt, hc.1⟩
    · rintro r v (⟨hr, hv⟩ | ⟨rfl, hlt, hle⟩)
      · rw [huser r hr v hv, if_neg]
        rintro ⟨-, heq⟩
        exact hv.2 (by rw [pml4Index_of_pageOf heq]; exact hpage.kernel)
      · have h511 : pml4Index v = 511 := by
          rcases hcase hlt hle with hc | hc
          · exact hc.2
          · exact hc.2.1
        rw [hentry h511]
        simp
  · intro v hlt hle
    rcases hcase hlt hle with ⟨heq, h511⟩ | ⟨hv, h511, hpne⟩
    · exact ⟨h511, by rw [hentry h511, if_pos heq]; exact he0⟩
    · exact ⟨h511, by rw [hentry h511, if_neg hpne]; exact (h.heap v hlt hv).2⟩
  · intro v h511 hne
    have hx := h.kernel v h511 hne
    rw [hentry h511, if_neg, hx]
    intro heq
    rw [← hx, entry_congr heq] at hne
    exact hne habsent
  · intro r hr v hv hne
    rw [huser r hr v hv] at hne ⊢
    obtain ⟨h₁, h₂, h₃, h₄⟩ := h.page r hr v hv hne
    exact ⟨h₁, h₂, h₃, by rwa [hpage.ram]⟩
  · have hle := h.kheapEnd_le
    omega

/-- **The heap grows.** -/
theorem Copies.growth (h : Copies m directory new x) (hroots : ∀ r ∈ new, r ∈ roots)
    (hg : Growth roots x x') : Copies m directory new x' := by
  induction hg with
  | refl => exact h
  | tail _ hev ih =>
    rcases hev with hq | ⟨phys, hpage⟩
    · refine ih.congr ?_ ?_ hq.bitmap hq.ram hq.kheapEnd hq.kernelPml4
      · exact fun r hr v hv => SameTables.entry_eq hq.tables (Or.inr (hroots r hr)) hv
      · intro v hv
        have he := hq.entry hv
        rwa [ih.kernelPml4] at he
    · exact ih.heapPage hroots hpage

/-- **A page is copied**, to a frame that was not marked. -/
theorem Copies.copyPage {c t : ℕ} {live : List Chunk} (h : Copies m directory (some c) x)
    (hpages : UserPages m directory) (htree : TreeInv x live (SpaceKey x.kernelPml4 roots))
    (hc : c ∈ roots) (hck : x.kernelPml4 ≠ c) (hv : UserAddr v)
    (hw : walk x.kid c (slots v) = some t) (habsent : x.tabs t (ptIndex v) = 0)
    (hne : m.entry directory v ≠ 0) (hclear : x.frameUsed phys = false) (hal : phys % 0x1000 = 0)
    (hlt : phys < 2 ^ 52)
    (hx' : { x.setPtEntry t (ptIndex v) (phys ||| (m.entry directory v &&& 0xFFF)) with
      ram := memcpy x.ram phys (frameAddr (m.entry directory v)) 0x1000 }.markFrame
        phys true = x') :
    Copies m directory (some c) x' ∧ ∀ v', UserAddr v' →
      pageOf v' = pageOf v ∨ x.entry c v' ≠ 0 → x'.entry c v' ≠ 0 := by
  obtain ⟨e, he⟩ : ∃ e, m.entry directory v = e := ⟨_, rfl⟩
  have hused := hpages.used v hv hne
  have hpresent := hpages.present v hv hne
  rw [he] at hne hused hpresent hx'
  obtain ⟨src, hsrc⟩ : ∃ src, frameAddr e = src := ⟨_, rfl⟩
  rw [hsrc] at hused hx'
  have hsrcmod : src % 0x1000 = 0 := by rw [← hsrc]; exact frameAddr_mod e
  have hkey : ∀ {v}, UserAddr v → SpaceKey x.kernelPml4 roots c (slots v) := fun hv =>
    (userHalf_slots (Or.inr hc) hv).1
  have hflags : e &&& 0xFFF < 0x1000 := by
    rw [and_pageOffset]
    omega
  have hflags0 : e &&& 0xFFF ≠ 0 := by
    rw [and_pageOffset]
    rw [Nat.and_one_is_mod] at hpresent
    omega
  have hor := or_flags hal hflags
  -- what is in memory afterwards
  have hdiff : ∀ a, x.frameUsed a = true → a / 0x1000 ≠ phys / 0x1000 := fun a ha =>
    div_ne_of_clear ha hclear
  have hapart := hdiff src (h.frames.marked src hused)
  have hram : memcpy x.ram phys src 0x1000 = x.ram.write phys (x.ram.read src 0x1000) :=
    memcpy_of_aligned (by omega) (by omega)
  have hsame : ∀ a, x.frameUsed a = true → memcpy x.ram phys src 0x1000 a = x.ram a := by
    intro a ha
    have hne := hdiff a ha
    rw [hram]
    exact Mem.write_of_notMem (by rw [Mem.length_read]; omega)
  have hcopy : ∀ k < 0x1000, memcpy x.ram phys src 0x1000 (phys + k) = m.ram (src + k) := by
    intro k hk
    have hlen : k < (x.ram.read src 0x1000).length := by rwa [Mem.length_read]
    have hget : (x.ram.read src 0x1000)[k]? = some (x.ram (src + k)) := Mem.getElem?_read hk
    rw [List.getElem?_eq_getElem hlen, Option.some.injEq] at hget
    rw [hram, Mem.write_add hlen, hget]
    refine h.ram _ ?_
    rwa [frameUsed_of_div (f := src) (by omega)]
  -- the entries
  have hentry : ∀ {r v'}, SpaceKey x.kernelPml4 roots r (slots v') → x'.entry r v' =
      if r = c ∧ pageOf v' = pageOf v then phys ||| (e &&& 0xFFF) else x.entry r v' := by
    intro r v' hv'
    rw [← htree.entry_setPtEntry (hkey hv) hw hv', ← hx']
    rfl
  have hkernel : ∀ v', x'.entry m.kernelPml4 v' = x.entry m.kernelPml4 v' := by
    intro v'
    rw [← h.kernelPml4, hentry (spaceKey_kernel _ _ (by simp [slots])), if_neg]
    exact fun hcon => hck hcon.1
  have hend : x'.kheapEnd = x.kheapEnd := by rw [← hx']; rfl
  have hp : x'.kernelPml4 = x.kernelPml4 := by rw [← hx']; rfl
  have hx'ram : x'.ram = memcpy x.ram phys src 0x1000 := by rw [← hx']; rfl
  refine ⟨⟨?_, ?_, ?_, ?_, ?_, hp.trans h.kernelPml4, by rw [hend]; exact h.kheapEnd_le,
    by rw [hend]; exact h.end_mod⟩, ?_⟩
  · rw [hend]
    refine h.frames.add c v hclear (frameAddr_or hal hlt hflags) (by omega) (by rw [← hx']; rfl)
      (Or.inl ⟨rfl, hv⟩) ?_ id Or.inr ?_
    · rw [entry_of_walk hw, habsent]
    · rintro r v' (⟨hr, hv'⟩ | ⟨rfl, -⟩)
      · obtain rfl : c = r := by simpa using hr
        exact hentry (hkey hv')
      · rw [hkernel, if_neg]
        rw [← h.kernelPml4]
        exact fun hcon => hck hcon.1
  · rw [hend]
    intro v' hlt' hle
    rw [hkernel]
    exact h.heap v' hlt' hle
  · intro v' h511 hne'
    rw [hkernel]
    exact h.kernel v' h511 hne'
  · intro a ha
    rw [hx'ram, hsame a (h.frames.marked a ha)]
    exact h.ram a ha
  · intro r hr v' hv' hne'
    obtain rfl : c = r := by simpa using hr
    rw [hentry (hkey hv')] at hne' ⊢
    by_cases hpage : pageOf v' = pageOf v
    · rw [if_pos ⟨rfl, hpage⟩, entry_congr hpage, he]
      refine ⟨hne, by omega, ?_, ?_⟩
      · rw [hor, and_pageOffset, and_pageOffset]
        rw [and_pageOffset] at hflags
        omega
      · rw [frameAddr_or hal hlt hflags, hsrc, hx'ram]
        exact hcopy
    · rw [if_neg fun hcon => hpage hcon.2] at hne' ⊢
      obtain ⟨h₁, h₂, h₃, h₄⟩ := h.page c rfl v' hv' hne'
      refine ⟨h₁, h₂, h₃, fun k hk => ?_⟩
      rw [hx'ram, hsame, h₄ k hk]
      have hmod := frameAddr_mod (x.entry c v')
      rw [frameUsed_of_div (f := frameAddr (x.entry c v')) (by omega)]
      exact h.frames.frames.used (Or.inl ⟨rfl, hv'⟩) hne'
  · intro v' hv' hor'
    rw [hentry (hkey hv')]
    split_ifs with hpage
    · omega
    · exact hor'.resolve_left fun heq => hpage ⟨rfl, heq⟩

end Frames

/-! ### Tables -/

/-- The four slots on the way to the entry for an address. -/
def pathOf (virt : ℕ) : List ℕ := slots virt ++ [ptIndex virt]

/-- A path into a user half. -/
structure UserPath (q : List ℕ) : Prop where
  length_le : q.length ≤ 3
  lt : ∀ i ∈ q, i < 512
  head : ∀ i ∈ q.head?, i < 511

/-- The paths of user halves that do not lead through the table behind `q` of `c`. -/
def Outside (k : ℕ) (roots : List ℕ) (c : ℕ) (q : List ℕ) (r : ℕ) (p : List ℕ) : Prop :=
  UserHalf k roots r p ∧ ¬(r = c ∧ q <+: p)

/-- **The state of a call** that began at `m`, copies `directory` to `c` and has come
to `x`. -/
structure CloneInv (m : Machine) (directory c : ℕ) (roots : List ℕ) (x : Machine) : Prop where
  heap : ∃ l, HeapInv x l
  kernel : KernelInv x x.live (c :: roots)
  /-- The copy is none of the address spaces there were, and those are as they were. -/
  ne_kernel : c ≠ m.kernelPml4
  notMem : c ∉ roots
  same : SameTables roots m x
  /-- The tables of the copy are chunks of the heap. -/
  tables : ∀ {q t}, UserPath q → walk x.kid c q = some t → ⟨t, tableSize q.length, true⟩ ∈ x.live
  copies : Copies m directory (some c) x

/-- **What is behind the path `q` has been copied**, between `x` and `x'`. -/
structure Copied (m : Machine) (directory c : ℕ) (roots : List ℕ) (q : List ℕ) (x x' : Machine) :
    Prop where
  inv : CloneInv m directory c roots x'
  kept : KeptTables (Outside m.kernelPml4 (c :: roots) c q) x x'
  pages : ∀ v, UserAddr v → q <+: pathOf v → m.entry directory v ≠ 0 → x'.entry c v ≠ 0

section Paths

variable {m x x' : Machine} {r c k v i : ℕ} {p q : List ℕ} {roots : List ℕ}

theorem UserPath.init (h : UserPath (q ++ [i])) : UserPath q where
  length_le := by
    have hle := h.length_le
    rw [List.length_append] at hle
    omega
  lt := fun j hj => h.lt j (List.mem_append_left _ hj)
  head := by
    intro j hj
    cases q with
    | nil => exact absurd hj (by simp)
    | cons a q => exact h.head j hj

theorem UserPath.concat (h : UserPath q) (hlen : q.length < 3) (hi : i < 512)
    (hroot : q = [] → i < 511) :
    UserPath (q ++ [i]) where
  length_le := by
    rw [List.length_append, List.length_singleton]
    omega
  lt := by
    intro j hj
    rcases List.mem_append.mp hj with hj | hj
    · exact h.lt j hj
    · rw [List.mem_singleton.mp hj]
      exact hi
  head := by
    intro j hj
    cases q with
    | nil =>
      obtain rfl : i = j := by simpa using hj
      exact hroot rfl
    | cons a q => exact h.head j hj

theorem UserPath.userHalf (h : UserPath q) (hr : r = k ∨ r ∈ roots) : UserHalf k roots r q := by
  refine ⟨⟨hr.imp id fun hr => ⟨hr, h.head⟩, h.length_le⟩, fun hc => ?_⟩
  have hlt := h.head 511 hc
  omega

theorem pathOf_lt : ∀ i ∈ pathOf v, i < 512 := by
  intro i hi
  simp only [pathOf, slots, List.cons_append, List.nil_append, List.mem_cons, List.not_mem_nil,
    or_false, pml4Index_eq, pdptIndex_eq, pdIndex_eq, ptIndex_eq] at hi
  omega

/-- The next slot on the way to an address. -/
theorem exists_next_slot (h : q <+: pathOf v) (hlen : q.length ≤ 3) :
    ∃ i, q ++ [i] <+: pathOf v ∧ i < 512 ∧ (UserAddr v → q = [] → i < 511) := by
  obtain ⟨s, hs⟩ := h
  cases s with
  | nil =>
    have hl := congrArg List.length hs
    simp [pathOf, slots] at hl
    omega
  | cons i s =>
    have hmem : i ∈ pathOf v := by
      rw [← hs]
      simp
    refine ⟨i, ⟨s, by rw [← hs]; simp⟩, pathOf_lt i hmem, ?_⟩
    rintro hv rfl
    have hi := List.head_eq_of_cons_eq hs
    have hlt := pathOf_lt i hmem
    have hne := hv.2
    rw [← hi] at hne
    omega

/-- A path to a table does not see the last slot. -/
theorem le_slots_of_le_pathOf (h : q <+: pathOf v) (hlen : q.length ≤ 3) : q <+: slots v := by
  rcases List.prefix_concat_iff.mp h with rfl | h
  · simp [slots] at hlen
  · exact h

theorem slots_le_pathOf (v : ℕ) : slots v <+: pathOf v := List.prefix_append _ _

/-- Two slots on one way are one. -/
theorem next_slot_unique {j : ℕ} {l : List ℕ} (h : q ++ [i] <+: l) (h' : q ++ [j] <+: l) :
    i = j := by
  have heq := (List.prefix_of_prefix_length_le h h' (by simp)).eq_of_length (by simp)
  exact List.head_eq_of_cons_eq (List.append_cancel_left heq)

/-- Where there is no table on the way, there is no entry. -/
theorem entry_of_no_table (h : q <+: slots v) (hw : walk m.kid r q = none) : m.entry r v = 0 := by
  obtain ⟨s, hs⟩ := h
  refine entry_of_none ?_
  rw [← hs, walk_append, hw]
  rfl

theorem Outside.init (h : Outside k roots c q r (p ++ [i])) : Outside k roots c q r p := by
  refine ⟨h.1.init, fun hc => h.2 ⟨hc.1, ?_⟩⟩
  exact hc.2.trans (List.prefix_append _ _)

theorem Outside.length_le (h : Outside k roots c q r p) : p.length ≤ 3 := h.1.length_le

/-- Fewer paths lead through a table farther behind. -/
theorem Outside.concat (h : Outside k roots c q r p) : Outside k roots c (q ++ [i]) r p :=
  ⟨h.1, fun hc => h.2 ⟨hc.1, (List.prefix_append _ _).trans hc.2⟩⟩

theorem KeptTables.outside_walk (h : KeptTables (Outside k roots c q) x x')
    (hp : Outside k roots c q r p) : walk x'.kid r p = walk x.kid r p :=
  h.walk_eq Outside.init Outside.length_le hp

theorem KeptTables.outside_trans {x'' : Machine} (h : KeptTables (Outside k roots c q) x x')
    (h' : KeptTables (Outside k roots c q) x' x'') : KeptTables (Outside k roots c q) x x'' :=
  h.trans Outside.init Outside.length_le h'

end Paths

section Tables

variable {m x x' y y₁ y₂ : Machine} {directory c d e i j n p t v : ℕ} {q roots : List ℕ} {f : Bool}
variable {src : FrameSource} {s : ℕ}

/-- A page directory is put in a slot, as `clone_page_directory` does it. -/
theorem tablePut_cloneDir (hp : 0 < p) (hd : p ≠ d) (hn : n < 3) :
    TablePut m ((((m.clearDir p).setVirt d i p).setEntry d i e).setFull d i f) d i p n where
  grafted := by
    constructor
    · rw [Machine.kid_setFull, Machine.kid_setEntry, Machine.kid_setVirt, if_pos ⟨rfl, rfl⟩,
        pointer_of_pos hp]
    · intro a j ha haj
      rw [Machine.kid_setFull, Machine.kid_setEntry, Machine.kid_setVirt, if_neg haj,
        Machine.kid_clearDir, if_neg ha]
  rest := rfl
  dirs := by
    intro a hap had
    simp [Machine.setVirt, Machine.clearDir, Machine.setFull, Machine.setEntry, hap, had]
  entries := by
    intro _ j hj
    simp [Machine.setVirt, Machine.clearDir, Machine.setFull, Machine.setEntry, hd.symm, hj]
  tabs := fun _ _ => rfl
  newDir := by
    intro _ _
    simp [Machine.setVirt, Machine.clearDir, Machine.setFull, Machine.setEntry, hd]
  newTab := fun h => absurd h hn.ne

/-- A page table is put in a slot, as `clone_page_directory` does it. -/
theorem tablePut_cloneTab (hp : 0 < p) :
    TablePut m ((((m.clearTab p).setVirt d i p).setEntry d i e).setFull d i f) d i p 3 where
  grafted := by
    constructor
    · rw [Machine.kid_setFull, Machine.kid_setEntry, Machine.kid_setVirt, if_pos ⟨rfl, rfl⟩,
        pointer_of_pos hp]
    · intro a j _ haj
      rw [Machine.kid_setFull, Machine.kid_setEntry, Machine.kid_setVirt, if_neg haj,
        Machine.kid_clearTab]
  rest := rfl
  dirs := by
    intro a _ had
    simp [Machine.setVirt, Machine.clearTab, Machine.setFull, Machine.setEntry, had]
  entries := by
    intro _ j hj
    simp [Machine.setVirt, Machine.clearTab, Machine.setFull, Machine.setEntry, hj]
  tabs := fun a ha => Function.update_of_ne ha _ _
  newDir := fun h _ => absurd h (by omega)
  newTab := by
    intro _ j
    show Function.update m.tabs p (fun _ => 0) p j = 0
    rw [Function.update_self]

/-- **A new table for the copy.** -/
theorem CloneInv.newTable (h : CloneInv m directory c roots y) (hpath : UserPath (q ++ [n]))
    (hw : walk y.kid c q = some t) (hnone : y.kid t n = none)
    (hcall : kmallocA src s y (tableSize (q.length + 1)) = some (p, y₁))
    (hwrap : y₁.kheapEnd + 0xFFF + tableSize (q.length + 1) < 2 ^ 64)
    (hput : 0 < p → p ≠ t → TablePut y₁ y₂ t n p (q.length + 1)) :
    CloneInv m directory c roots y₂ ∧ KeptTables (Outside m.kernelPml4 (c :: roots) c q) y y₂ ∧
      walk y₂.kid c (q ++ [n]) = some p ∧ walk y₂.kid c q = some t ∧
      (∀ j, j ≠ n → y₂.kid t j = y.kid t j) ∧ (∀ v, UserAddr v → y₂.entry c v = y.entry c v) ∧
      TablePut y₁ y₂ t n p (q.length + 1) ∧ p ≠ t := by
  obtain ⟨l, hheap⟩ := h.heap
  have hc : c ∈ c :: roots := List.mem_cons_self
  have hp := h.copies.kernelPml4
  have hsize := tableSize_pos (q.length + 1)
  obtain ⟨-, -, ⟨l₁, hheap₁⟩, -⟩ := hheap.kmallocInt hwrap hcall
  obtain ⟨⟨L, hlive, hsub, hkern₁⟩, hgrow⟩ := hheap.kmallocInt_grows h.kernel hwrap hcall
  have hfresh := hheap₁.fresh hlive hsize
  obtain ⟨hsame₁, hp₁, -, -, -⟩ := hgrow.same
  have hkey : UserHalf y.kernelPml4 (c :: roots) c q := hpath.init.userHalf (Or.inr hc)
  have hw₁ : walk y₁.kid c q = some t := (hsame₁.walk_eq hkey).trans hw
  have hlen : q.length < 3 := by
    have hle := hpath.length_le
    rw [List.length_append, List.length_singleton] at hle
    omega
  have hdirs₁ : y₁.dirs t = y.dirs t := (hsame₁ c q t hkey hw).1 hlen
  have hnone₁ : y₁.kid t n = none := by rwa [Machine.kid, hdirs₁]
  have hpt : p ≠ t := by
    rintro rfl
    rw [hp₁.symm] at hkey
    exact hkern₁.tree.ne_of_fresh hfresh c q hkey.1 hw₁
  have hput := hput hfresh.pos hpt
  have hqi : UserHalf y₁.kernelPml4 (c :: roots) c (q ++ [n]) := hpath.userHalf (Or.inr hc)
  obtain ⟨hkern₂, hentry, hwalk, hkept⟩ := hkern₁.putTable hfresh hqi hw₁ hnone₁ hput
  have hlive₂ : y₂.live = ⟨p, tableSize (q.length + 1), true⟩ :: L := by
    rw [hput.rest]
    exact hlive
  have hp₂ : y₂.kernelPml4 = y₁.kernelPml4 := by rw [hput.rest]
  rw [hp₁, hp] at hwalk hkept
  rw [hp] at hkey
  -- the tables that are kept
  have hkept₁ : KeptTables (UserHalf m.kernelPml4 (c :: roots)) y y₁ := by
    rw [← hp]
    exact hsame₁
  have hkept₂ : KeptTables (Outside m.kernelPml4 (c :: roots) c q) y y₂ := by
    have hout₁ : KeptTables (Outside m.kernelPml4 (c :: roots) c q) y y₁ :=
      hkept₁.mono fun _ _ ho => ho.1
    refine KeptTables.outside_trans hout₁ (hkept.mono fun r' p' ho => ⟨ho.1, ?_⟩)
    rintro ⟨rfl, rfl⟩
    exact ho.2 ⟨rfl, List.prefix_refl _⟩
  have hwq : walk y₂.kid c q = some t := by
    rw [hwalk hkey.1, if_neg, hw₁]
    rintro ⟨-, heq⟩
    simpa using congrArg List.length heq
  have hwn : walk y₂.kid c (q ++ [n]) = some p := by
    rw [hp₁, hp] at hqi
    rw [hwalk hqi.1, if_pos ⟨rfl, rfl⟩]
  have huser : ∀ v, UserAddr v → y₂.entry c v = y₁.entry c v := fun v hv =>
    hentry (userHalf_slots (Or.inr hc) hv).1
  have hcopies₁ : Copies m directory (some c) y₁ := by
    have hmem : ∀ r ∈ some c, r ∈ c :: roots := by
      intro r hr
      obtain rfl : c = r := by simpa using hr
      exact hc
    exact h.copies.growth hmem hgrow
  refine ⟨⟨⟨l₁, ?_⟩, ?_, h.ne_kernel, h.notMem, ?_, ?_, ?_⟩, hkept₂, hwn, hwq, ?_, ?_, hput, hpt⟩
  · refine hheap₁.congr ?_
    rw [hput.rest]
    exact ⟨rfl, rfl, rfl, rfl, rfl⟩
  · rw [hlive₂]
    exact hkern₂
  · -- the other address spaces
    refine SameTables.trans h.same hp ?_
    rw [SameTables, hp]
    refine hkept₂.mono fun r' p' hu => ⟨hu.insert, ?_⟩
    rintro ⟨rfl, -⟩
    rcases hu.1.1 with hk | hk
    · exact h.ne_kernel hk
    · exact h.notMem hk.1
  · -- the tables of the copy
    intro q' t' hq' hw'
    rw [hwalk (hq'.userHalf (Or.inr hc)).1] at hw'
    rw [hlive₂]
    split_ifs at hw' with hnew
    · obtain rfl := Option.some.inj hw'
      obtain ⟨-, rfl⟩ := hnew
      rw [List.length_append]
      exact List.mem_cons_self
    · have hkey' : UserHalf y.kernelPml4 (c :: roots) c q' := hq'.userHalf (Or.inr hc)
      rw [hsame₁.walk_eq hkey'] at hw'
      exact List.mem_cons_of_mem _ (hsub (h.tables hq' hw'))
  · -- no entry has changed
    refine hcopies₁.congr ?_ ?_ (by rw [hput.rest]) (by rw [hput.rest]) (by rw [hput.rest]) hp₂
    · intro r hr v hv
      obtain rfl : c = r := by simpa using hr
      exact huser v hv
    · intro v _
      rw [← hcopies₁.kernelPml4]
      exact hentry (spaceKey_kernel _ _ (by simp [slots]))
  · intro j hj
    have hslot : ¬(t = t ∧ j = n) := fun hcon => hj hcon.2
    rw [hput.grafted.other t j hpt.symm hslot, Machine.kid, Machine.kid, hdirs₁]
  · intro v hv
    rw [huser v hv]
    exact hsame₁.entry_eq (Or.inr hc) hv

end Tables

/-! ### Loops -/

/-- The heap may grow during a call, and keeps its beginning. -/
def GrowsHeap (f : Machine → Option Machine) : Prop :=
  ∀ x x', f x = some x' → x.kheap ≠ 0 → Grown x x'

/-- **A body copies what is behind a slot**: from the table at `old` to the one at `t`, both
of them behind a path of `k` slots. -/
def CopiesTable (m : Machine) (directory c : ℕ) (roots : List ℕ) (k : ℕ)
    (copy : ℕ → ℕ → Machine → Option Machine) : Prop :=
  ∀ q old t x x', q.length = k → UserPath q → walk m.kid directory q = some old →
    walk x.kid c q = some t → CloneInv m directory c roots x → (k < 3 → ∀ i, x.kid t i = none) →
    (k = 3 → ∀ i, x.tabs t i = 0) → x'.kheapEnd + 0xFFF + pageDirectorySize < 2 ^ 64 →
    copy old t x = some x' → Copied m directory c roots q x x'

section Loops

variable {f : ℕ → Machine → Option Machine} {x x' : Machine} {n : ℕ}

theorem growsHeap_forSlots (hf : ∀ i, GrowsHeap (f i)) : GrowsHeap (forSlots f n) := by
  induction n with
  | zero =>
    intro x x' h _
    obtain rfl := Option.some.inj h
    exact Grown.refl x
  | succ n ih =>
    intro x x' h hk
    simp only [forSlots, Option.bind_eq_bind, Option.bind_eq_some_iff] at h
    obtain ⟨y, hy, h⟩ := h
    have hg := ih x y hy hk
    exact hg.trans (hf n y x' h (by rwa [hg.kheap]))

/-- **The rule for a loop**: what holds at the beginning and is kept by each round. -/
theorem forSlots_rule {P : ℕ → Machine → Prop} (hf : ∀ i, GrowsHeap (f i)) (h0 : P 0 x)
    (hk : x.kheap ≠ 0) (hstep : ∀ i y y', i < n → P i y → f i y = some y' →
      y'.kheapEnd ≤ x'.kheapEnd → P (i + 1) y') (h : forSlots f n x = some x') : P n x' := by
  induction n generalizing x' with
  | zero =>
    obtain rfl := Option.some.inj h
    exact h0
  | succ n ih =>
    simp only [forSlots, Option.bind_eq_bind, Option.bind_eq_some_iff] at h
    obtain ⟨y, hy, h⟩ := h
    have hgy := growsHeap_forSlots hf x y hy hk
    have hle := (hf n y x' h (by rwa [hgy.kheap])).le
    refine hstep n y x' (Nat.lt_succ_self n) ?_ h le_rfl
    exact ih (fun i z z' hi hP hz hz' => hstep i z z' (by omega) hP hz (hz'.trans hle)) hy

/-- A loop whose body does the same where it returns. -/
theorem forSlots_mono {g : ℕ → Machine → Option Machine}
    (hfg : ∀ i y y', f i y = some y' → g i y = some y') (h : forSlots f n x = some x') :
    forSlots g n x = some x' := by
  induction n generalizing x' with
  | zero => exact h
  | succ n ih =>
    simp only [forSlots, Option.bind_eq_bind, Option.bind_eq_some_iff] at h ⊢
    obtain ⟨y, hy, h⟩ := h
    exact ⟨y, ih hy, hfg n y x' h⟩

end Loops

section Slots

variable {m x x' : Machine} {directory c k n s old t size : ℕ} {q roots : List ℕ}
variable {src : FrameSource} {memset : Machine → ℕ → Machine}
variable {copy : ℕ → ℕ → Machine → Option Machine}

theorem growsHeap_clonePage (pt new l : ℕ) : GrowsHeap (clonePage src pt new l) := by
  intro x x' h _
  rw [clonePage] at h
  split_ifs at h
  · obtain rfl := Option.some.inj h
    exact Grown.refl x
  · simp only [Option.bind_eq_bind, Option.bind_eq_some_iff, Option.pure_def,
      Option.some.injEq] at h
    obtain ⟨b, -, phys, -, rfl⟩ := h
    exact ⟨rfl, rfl, ⟨0, rfl⟩, fun _ hu => hu⟩

/-- **What the body of the outer loops does.** -/
theorem cloneSlot_cases {kmallocA : Machine → ℕ → Option (ℕ × Machine)} {d new i : ℕ}
    (h : cloneSlot kmallocA size memset copy d new i x = some x') :
    (x.dirs d).virt i = 0 ∧ x' = x ∨ (x.dirs d).virt i ≠ 0 ∧ ∃ p y e f,
      kmallocA x size = some (p, y) ∧ copy ((x.dirs d).virt i) p
        ((((memset y p).setVirt new i p).setEntry new i e).setFull new i f) = some x' := by
  rw [cloneSlot] at h
  split_ifs at h with h0
  · exact Or.inl ⟨h0, (Option.some.inj h).symm⟩
  · simp only [Option.bind_eq_bind, Option.bind_eq_some_iff] at h
    obtain ⟨⟨p, y⟩, hy, h⟩ := h
    exact Or.inr ⟨h0, p, y, _, _, hy, h⟩

theorem growsHeap_cloneSlot (hmemset : ∀ y p, SameHeap y (memset y p))
    (hcopy : ∀ a b, GrowsHeap (copy a b)) (d new i : ℕ) :
    GrowsHeap (cloneSlot (kmallocA src s) size memset copy d new i) := by
  intro x x' h hk
  rcases cloneSlot_cases h with ⟨-, rfl⟩ | ⟨-, p, y, e, f, hy, h⟩
  · exact Grown.refl x'
  · have hg : Grown x y := grown_kmallocInt hk hy
    have hm := (hmemset y p).grown
    have hm' : Grown y ((((memset y p).setVirt new i p).setEntry new i e).setFull new i f) :=
      ⟨hm.kheap, hm.kernelPml4, hm.kheapEnd, hm.live⟩
    have hk' : y.kheap ≠ 0 := by rwa [hg.kheap]
    exact hg.trans (hm'.trans (hcopy _ _ _ _ h (by rwa [hm'.kheap])))

/-- **A loop over the slots of a directory copies what is behind it.** -/
theorem CopiesTable.forSlots (hk : k < 3) (hsize : size = tableSize (k + 1)) (hn : n ≤ 512)
    (hroot : k = 0 → n = 511) (hnext : k ≠ 0 → n = 512)
    (hdirectory : directory = m.kernelPml4 ∨ directory ∈ roots)
    (hmemset : ∀ y p, SameHeap y (memset y p)) (hgrows : ∀ a b, GrowsHeap (copy a b))
    (hput : ∀ (y : Machine) p d i e f, 0 < p → p ≠ d →
      TablePut y ((((memset y p).setVirt d i p).setEntry d i e).setFull d i f) d i p (k + 1))
    (hcopy : CopiesTable m directory c roots (k + 1) copy) :
    CopiesTable m directory c roots k fun old t =>
      Xana.forSlots (cloneSlot (kmallocA src s) size memset copy old t) n := by
  subst hsize
  intro q old t x x' hlen hpath hold hw hinv hempty _ hwrap hrun
  obtain ⟨l, hheap⟩ := hinv.heap
  -- the slots below `i` have been copied, and the others of the new table are empty
  let P : ℕ → Machine → Prop := fun i y => CloneInv m directory c roots y ∧
    KeptTables (Outside m.kernelPml4 (c :: roots) c q) x y ∧ walk y.kid c q = some t ∧
    (∀ j, i ≤ j → y.kid t j = none) ∧ ∀ j < i, ∀ v, UserAddr v → q ++ [j] <+: pathOf v →
      m.entry directory v ≠ 0 → y.entry c v ≠ 0
  have hP : P n x' := by
    refine forSlots_rule (P := P) (growsHeap_cloneSlot hmemset hgrows old t) ?_ hheap.kheap_pos.ne'
      ?_ hrun
    · exact ⟨hinv, KeptTables.refl x, hw, fun j _ => hempty hk j, fun j hj => by omega⟩
    · intro i y y' hi hPi hbody hend
      obtain ⟨hinv, hkept, hw, hrest, hpages⟩ := hPi
      have hpathi : UserPath (q ++ [i]) := by
        refine hpath.concat (by omega) (by omega) ?_
        rintro rfl
        have := hroot hlen.symm
        omega
      have hkey : UserHalf m.kernelPml4 roots directory q := hpath.userHalf hdirectory
      have holdeq : y.dirs old = m.dirs old := (hinv.same directory q old hkey hold).1 (by omega)
      rcases cloneSlot_cases hbody with ⟨h0, rfl⟩ | ⟨h0, p, y₁, e, f, hcall, hbody⟩
      · -- there is nothing behind the slot
        refine ⟨hinv, hkept, hw, fun j hj => hrest j (by omega), ?_⟩
        intro j hj v hv hpre hne
        rcases Nat.lt_succ_iff_lt_or_eq.mp hj with hj | rfl
        · exact hpages j hj v hv hpre hne
        · refine absurd (entry_of_no_table (le_slots_of_le_pathOf hpre hpathi.length_le) ?_) hne
          rw [walk_concat, hold]
          exact pointer_eq_none.mpr (by rwa [← holdeq])
      · -- a new table, and what is behind it
        obtain ⟨y₂, hy₂⟩ :
            ∃ y₂, (((memset y₁ p).setVirt t i p).setEntry t i e).setFull t i f = y₂ :=
          ⟨_, rfl⟩
        rw [hy₂] at hbody
        have hk₁ : y.kheap ≠ 0 := by
          obtain ⟨l, hheap⟩ := hinv.heap
          exact hheap.kheap_pos.ne'
        have hg₁ : Grown y y₁ := grown_kmallocInt hk₁ hcall
        have hm := (hmemset y₁ p).grown
        have hg₂ : Grown y₁ y₂ := by
          rw [← hy₂]
          exact ⟨hm.kheap, hm.kernelPml4, hm.kheapEnd, hm.live⟩
        have hg₃ := hgrows _ _ _ _ hbody (by rw [hg₂.kheap, hg₁.kheap]; exact hk₁)
        have hle₂ := hg₂.le
        have hle₃ := hg₃.le
        have hsize : tableSize (k + 1) ≤ pageDirectorySize := by
          rw [tableSize]
          split_ifs <;> decide
        rw [← hlen] at hcall hsize hput hcopy
        have hres : CloneInv m directory c roots y₂ ∧
            KeptTables (Outside m.kernelPml4 (c :: roots) c q) y y₂ ∧
            walk y₂.kid c (q ++ [i]) = some p ∧ walk y₂.kid c q = some t ∧
            (∀ j, j ≠ i → y₂.kid t j = y.kid t j) ∧
            (∀ v, UserAddr v → y₂.entry c v = y.entry c v) ∧
            TablePut y₁ y₂ t i p (q.length + 1) ∧ p ≠ t := by
          refine hinv.newTable hpathi hw (hrest i le_rfl) hcall (by omega) fun hp hpt => ?_
          rw [← hy₂]
          exact hput y₁ p t i e f hp hpt
        obtain ⟨hinv₂, hkept₂, hwp, hwt, hother, hentry, hputp, hpt⟩ := hres
        have holdw : walk m.kid directory (q ++ [i]) = some ((y.dirs old).virt i) := by
          rw [walk_concat, hold, holdeq]
          exact pointer_of_pos (Nat.pos_of_ne_zero (by rwa [← holdeq]))
        have hcopied : Copied m directory c roots (q ++ [i]) y₂ y' := by
          refine hcopy (q ++ [i]) _ p y₂ y' (by simp) hpathi holdw hwp hinv₂ ?_ ?_ (by omega) hbody
          · intro hlt j
            rw [Machine.kid, hputp.newDir hlt hpt]
            rfl
          · exact fun heq => hputp.newTab heq
        have hkept₃ : KeptTables (Outside m.kernelPml4 (c :: roots) c q) y₂ y' :=
          hcopied.kept.mono fun _ _ ho => ho.concat
        -- the table at `t` is kept
        have hout : Outside m.kernelPml4 (c :: roots) c (q ++ [i]) c q := by
          refine ⟨hpath.userHalf (Or.inr List.mem_cons_self), fun hcon => ?_⟩
          have hle := hcon.2.length_le
          rw [List.length_append, List.length_singleton] at hle
          omega
        have hdirs : y'.dirs t = y₂.dirs t := (hcopied.kept c q t hout hwt).1 (by omega)
        refine ⟨hcopied.inv, (KeptTables.outside_trans hkept hkept₂).outside_trans hkept₃,
          ?_, ?_, ?_⟩
        · rw [hcopied.kept.outside_walk hout, hwt]
        · intro j hj
          rw [Machine.kid, hdirs]
          exact (hother j (by omega)).trans (hrest j (by omega))
        · intro j hj v hv hpre hne
          rcases Nat.lt_succ_iff_lt_or_eq.mp hj with hj | rfl
          · have hvout : Outside m.kernelPml4 (c :: roots) c (q ++ [i]) c (slots v) := by
              refine ⟨userHalf_slots (Or.inr List.mem_cons_self) hv, fun hcon => ?_⟩
              have heq := next_slot_unique hpre (hcon.2.trans (slots_le_pathOf v))
              omega
            rw [hcopied.kept.entry_eq hvout (hcopied.kept.outside_walk hvout), hentry v hv]
            exact hpages j hj v hv hpre hne
          · exact hcopied.pages v hv hpre hne
  obtain ⟨hinv', hkept', -, -, hpages'⟩ := hP
  refine ⟨hinv', hkept', fun v hv hpre hne => ?_⟩
  obtain ⟨i, hi, hlt, hlt'⟩ := exists_next_slot hpre (by omega)
  refine hpages' i ?_ v hv hi hne
  by_cases h0 : k = 0
  · rw [hroot h0]
    exact hlt' hv (List.length_eq_zero_iff.mp (hlen.trans h0))
  · rw [hnext h0]
    exact hlt

/-- The address of a page in a page table. -/
theorem exists_userAddr (hq : UserPath q) (hlen : q.length = 3) {i : ℕ} (hi : i < 512) :
    ∃ v, UserAddr v ∧ slots v = q ∧ ptIndex v = i := by
  obtain ⟨a, b, d, rfl⟩ := List.length_eq_three.mp hlen
  have ha : a < 511 := hq.head a rfl
  have hb : b < 512 := hq.lt b (by simp)
  have hd : d < 512 := hq.lt d (by simp)
  refine ⟨a * 2 ^ 39 + b * 2 ^ 30 + d * 2 ^ 21 + i * 2 ^ 12, ⟨by omega, ?_⟩, ?_, ?_⟩
  · rw [pml4Index_eq]
    omega
  · simp only [slots, pml4Index_eq, pdptIndex_eq, pdIndex_eq, List.cons.injEq, and_true]
    omega
  · rw [ptIndex_eq]
    omega

/-- **A page table is copied.** -/
theorem copiesTable_cloneTab (hpages : UserPages m directory)
    (hdirectory : directory = m.kernelPml4 ∨ directory ∈ roots) :
    CopiesTable m directory c roots 3 (cloneTab src) := by
  intro q old t x x' hlen hpath hold hw hinv _ hempty _ hrun
  obtain ⟨l, hheap⟩ := hinv.heap
  -- the entries below `i` have been copied, and the others of the new table are `0`
  let P : ℕ → Machine → Prop := fun i y => CloneInv m directory c roots y ∧
    KeptTables (Outside m.kernelPml4 (c :: roots) c q) x y ∧ walk y.kid c q = some t ∧
    (∀ j, i ≤ j → y.tabs t j = 0) ∧ ∀ j < i, ∀ v, UserAddr v → q ++ [j] <+: pathOf v →
      m.entry directory v ≠ 0 → y.entry c v ≠ 0
  have hP : P 512 x' := by
    refine forSlots_rule (P := P) (growsHeap_clonePage old t) ?_ hheap.kheap_pos.ne' ?_ hrun
    · exact ⟨hinv, KeptTables.refl x, hw, fun j _ => hempty rfl j, fun j hj => by omega⟩
    · intro i y y' hi hPi hbody hend
      obtain ⟨hinv, hkept, hw, hrest, hdone⟩ := hPi
      have hp := hinv.copies.kernelPml4
      have hkey : UserHalf m.kernelPml4 roots directory q := hpath.userHalf hdirectory
      have holdy : walk y.kid directory q = some old := by
        rw [hinv.same.walk_eq hkey]
        exact hold
      have holdeq : y.tabs old = m.tabs old := (hinv.same directory q old hkey hold).2 hlen
      -- the address of the page, and of all that have its slots
      obtain ⟨v, hv, hslots, hpt⟩ := exists_userAddr hpath hlen hi
      have hsame : ∀ {v'}, q ++ [i] <+: pathOf v' → pageOf v' = pageOf v := by
        intro v' hpre
        have heq := hpre.eq_of_length (by simp [pathOf, slots, hlen])
        rw [pathOf] at heq
        obtain ⟨h₁, h₂⟩ := List.append_inj' heq rfl
        exact pageOf_eq_iff.mpr ⟨h₁.symm.trans hslots.symm, by rw [hpt]; simpa using h₂.symm⟩
      have hentry : m.entry directory v = y.tabs old i := by
        rw [entry_of_walk (hslots.symm ▸ hold), holdeq, hpt]
      rw [clonePage] at hbody
      split_ifs at hbody with h0
      · obtain rfl := Option.some.inj hbody
        refine ⟨hinv, hkept, hw, fun j hj => hrest j (by omega), ?_⟩
        intro j hj v' hv' hpre hne
        rcases Nat.lt_succ_iff_lt_or_eq.mp hj with hj | rfl
        · exact hdone j hj v' hv' hpre hne
        · rw [entry_congr (hsame hpre), hentry] at hne
          exact absurd h0 hne
      · simp only [Option.bind_eq_bind, Option.bind_eq_some_iff, Option.pure_def, Option.some.injEq]
          at hbody
        obtain ⟨b, hb, phys, hphys, hy'⟩ := hbody
        have hne : m.entry directory v ≠ 0 := by rwa [hentry]
        have hclear : y.frameUsed phys = false := by
          rw [Machine.frameUsed, hb]
          exact src.clear hphys
        have hto : old ≠ t := by
          rintro rfl
          obtain ⟨rfl, -⟩ := hinv.kernel.tree.inj (hp ▸ hkey.insert.1)
            (hpath.userHalf (Or.inr List.mem_cons_self)).1 holdy hw
          rcases hdirectory with hk | hk
          · exact hinv.ne_kernel hk
          · exact hinv.notMem hk
        have htabs : (y.setPtEntry t i (phys ||| (y.tabs old i &&& 0xFFF))).tabs old = y.tabs old :=
          Function.update_of_ne hto _ _
        rw [htabs, ← hentry, ← hpt] at hy'
        obtain ⟨hcopies, hleaf⟩ := hinv.copies.copyPage hpages hinv.kernel.tree List.mem_cons_self
          (by rw [hp]; exact hinv.ne_kernel.symm) hv (hslots.symm ▸ hw) (hrest _ hpt.ge) hne hclear
          (src.aligned hphys) (src.lt hphys) hy'
        have hkid : y'.kid = y.kid := by rw [← hy']; rfl
        have hothers : ∀ a, a ≠ t → y'.tabs a = y.tabs a := by
          intro a ha
          rw [← hy']
          exact Function.update_of_ne ha _ _
        have hstep : KeptTables (Outside m.kernelPml4 (c :: roots) c q) y y' := by
          intro r p s hout hws
          refine ⟨fun _ => by rw [← hy']; rfl, fun _ => hothers s ?_⟩
          rintro rfl
          obtain ⟨rfl, rfl⟩ := hinv.kernel.tree.inj (hp ▸ hout.1.1)
            (hpath.userHalf (Or.inr List.mem_cons_self)).1 hws hw
          exact hout.2 ⟨rfl, List.prefix_refl _⟩
        refine ⟨⟨?_, ?_, hinv.ne_kernel, hinv.notMem, ?_, ?_, hcopies⟩, hkept.outside_trans hstep,
          by rw [hkid]; exact hw, ?_, ?_⟩
        · obtain ⟨l, hheap⟩ := hinv.heap
          refine ⟨l, hheap.congr ?_⟩
          rw [← hy']
          exact ⟨rfl, rfl, rfl, rfl, rfl⟩
        · have hlive : y'.live = y.live := by rw [← hy']; rfl
          rw [hlive]
          refine hinv.kernel.congr hkid ?_ ?_ ?_ <;> (rw [← hy']; rfl)
        · refine SameTables.trans hinv.same hp ?_
          rw [SameTables, hp]
          refine hstep.mono fun r p hu => ⟨hu.insert, ?_⟩
          rintro ⟨rfl, -⟩
          rcases hu.1.1 with hk | hk
          · exact hinv.ne_kernel hk
          · exact hinv.notMem hk.1
        · intro q' t' hq' hw'
          rw [hkid] at hw'
          have hlive : y'.live = y.live := by rw [← hy']; rfl
          rw [hlive]
          exact hinv.tables hq' hw'
        · intro j hj
          rw [← hy']
          show Function.update y.tabs t (Function.update (y.tabs t) (ptIndex v) _) t j = 0
          rw [Function.update_self, Function.update_of_ne (by omega)]
          exact hrest j (by omega)
        · intro j hj v' hv' hpre hne'
          rcases Nat.lt_succ_iff_lt_or_eq.mp hj with hj | rfl
          · exact hleaf v' hv' (Or.inr (hdone j hj v' hv' hpre hne'))
          · exact hleaf v' hv' (Or.inl (hsame hpre))
  obtain ⟨hinv', hkept', -, -, hdone'⟩ := hP
  refine ⟨hinv', hkept', fun v hv hpre hne => ?_⟩
  obtain ⟨i, hi, hlt, -⟩ := exists_next_slot hpre (by omega)
  exact hdone' i hlt v hv hi hne

/-! ### The call -/

/-- A loop that does the same where it returns. -/
theorem CopiesTable.mono {copy' : ℕ → ℕ → Machine → Option Machine}
    (h : CopiesTable m directory c roots k copy')
    (hcopy : ∀ a b y y', copy a b y = some y' → copy' a b y = some y') :
    CopiesTable m directory c roots k copy :=
  fun q old t x x' hlen hpath hold hw hinv hdir htab hwrap hrun =>
    h q old t x x' hlen hpath hold hw hinv hdir htab hwrap (hcopy old t x x' hrun)

theorem sameHeap_clearDir (y : Machine) (p : ℕ) : SameHeap y (y.clearDir p) :=
  ⟨rfl, rfl, rfl, rfl, rfl⟩

theorem sameHeap_clearTab (y : Machine) (p : ℕ) : SameHeap y (y.clearTab p) :=
  ⟨rfl, rfl, rfl, rfl, rfl⟩

/-- Where it returns, the loop over a page directory is like the others. -/
theorem clonePdSlot_eq {d new i : ℕ} (h : clonePdSlot src (kmallocA src s) d new i x = some x') :
    cloneSlot (kmallocA src s) pageTableSize Machine.clearTab (cloneTab src) d new i x =
    some x' := by
  rw [clonePdSlot] at h
  split_ifs at h
  exact h

theorem growsHeap_cloneTab (a b : ℕ) : GrowsHeap (cloneTab src a b) :=
  growsHeap_forSlots (growsHeap_clonePage a b)

theorem growsHeap_clonePd (a b : ℕ) : GrowsHeap (clonePd src (kmallocA src s) a b) :=
  growsHeap_forSlots fun i x x' h =>
    growsHeap_cloneSlot sameHeap_clearTab growsHeap_cloneTab a b i x x' (clonePdSlot_eq h)

theorem growsHeap_clonePdpt (a b : ℕ) : GrowsHeap (clonePdpt src (kmallocA src s) a b) :=
  growsHeap_forSlots (growsHeap_cloneSlot sameHeap_clearDir growsHeap_clonePd a b)

section Levels

variable (hpages : UserPages m directory)
  (hdirectory : directory = m.kernelPml4 ∨ directory ∈ roots)
include hpages hdirectory

/-- **A page directory is copied.** -/
theorem copiesTable_clonePd :
    CopiesTable m directory c roots 2 (clonePd src (kmallocA src s)) := by
  have htab : CopiesTable m directory c roots 3 (cloneTab src) :=
    copiesTable_cloneTab hpages hdirectory
  have hloop : CopiesTable m directory c roots 2 fun old t => forSlots
      (cloneSlot (kmallocA src s) pageTableSize Machine.clearTab (cloneTab src) old t) 512 := by
    refine htab.forSlots (by omega) rfl le_rfl (by omega) (fun _ => rfl) hdirectory
      sameHeap_clearTab growsHeap_cloneTab ?_
    intro y p d i e f hp hpd
    exact tablePut_cloneTab hp
  exact hloop.mono fun a b y y' h => forSlots_mono (fun i z z' hz => clonePdSlot_eq hz) h

/-- **A page directory pointer table is copied.** -/
theorem copiesTable_clonePdpt :
    CopiesTable m directory c roots 1 (clonePdpt src (kmallocA src s)) := by
  have hpd : CopiesTable m directory c roots 2 (clonePd src (kmallocA src s)) :=
    copiesTable_clonePd hpages hdirectory
  refine hpd.forSlots (by omega) rfl le_rfl (by omega) (fun _ => rfl) hdirectory sameHeap_clearDir
    growsHeap_clonePd ?_
  intro y p d i e f hp hpd
  exact tablePut_cloneDir hp hpd (by omega)

/-- **The user half is copied.** -/
theorem copiesTable_user : CopiesTable m directory c roots 0 fun old t => forSlots
    (cloneSlot (kmallocA src s) pageDirectorySize Machine.clearDir (clonePdpt src (kmallocA src s))
      old t) 511 := by
  have hpdpt : CopiesTable m directory c roots 1 (clonePdpt src (kmallocA src s)) :=
    copiesTable_clonePdpt hpages hdirectory
  refine hpdpt.forSlots (by omega) rfl (by omega) (fun _ => rfl) (by omega) hdirectory
    sameHeap_clearDir growsHeap_clonePdpt ?_
  intro y p d i e f hp hpd
  exact tablePut_cloneDir hp hpd (by omega)

end Levels

end Slots

end Xana
