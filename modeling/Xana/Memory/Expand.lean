import Xana.Memory.CloneLaws
import Xana.Memory.FreeAligned
import Xana.Memory.Room

/-!
# The heap can always grow

A request for which there is no block makes `kmalloc_int` call `heap_expand`, which maps
512 pages behind the heap, and search again. The pages need page tables, which come from the
preallocated ones; new ones are allocated from the heap that has just grown. So the two
functions call each other, and what stops them is this:

* A heap that ends on a 2 MiB boundary needs one page table for the next 512 pages, and at
  most one page directory above it: the preallocated ones (`KernelInv.expandPages_isSome`).
* After that the last block is free, and has 2 MiB more. The three tables fit in it: the
  calls of `kmalloc_a` find a block at once (`HasRoom.refills`).
* What they take is less than 2 MiB. So the last block is longer before the next search
  (`GrowInv.heapExpand`), and in the end the request fits.

Two things are outside of the memory manager's reach: that there are frames, and that the
addresses do not run beyond the last one there is.
-/

namespace Xana

open Forest Mem

/-- Behind the heap, which ends where a page ends in the kernel half, nothing is mapped. -/
structure OpenEnd (m : Machine) : Prop where
  aligned : (m.kheapEnd + 1) % 0x1000 = 0
  high : virtMemOffset ≤ m.kheapEnd + 1
  absent : ∀ v, m.kheapEnd < v → v < 2 ^ 64 → m.entry m.kernelPml4 v = 0

/-- **What `heap_expand` finds** in the variables of `memory.c`. -/
structure ReadyToGrow (m : Machine) : Prop where
  aligned : (m.kheapEnd + 1) % 0x200000 = 0
  preallocPt : m.preallocPt ≠ 0
  preallocPd : m.preallocPd ≠ 0
  preallocPdpt : m.preallocPdpt ≠ 0

/-- **The invariant of the kernel's memory**, as the heap may grow. -/
structure GrowInv (m : Machine) : Prop where
  heap : ∃ l, HeapInv m l
  kernel : KernelInv m m.live []
  openEnd : OpenEnd m
  ready : ReadyToGrow m

/-- **What `heap_expand` relies on**: the address behind the new pages does not wrap, and
`first_free_page_addr` returns each time. -/
structure MayExpand (src : FrameSource) (m : Machine) : Prop where
  lt : m.kheapEnd + 0x200000 + 1 < 2 ^ 64
  frames : ∀ k < 512, ∀ m', expandPages src k m = some m' →
    ∃ b phys, m'.bitmap = some b ∧ src.next b = some phys

/-- `kmalloc_a`, unless it has to call `heap_expand`. -/
def allocNow (m : Machine) (size : ℕ) : Option (ℕ × Machine) := (m.tryAlloc size true).join

section OpenEnds

variable {m m' : Machine} {roots live : List ℕ} {v : ℕ}

theorem virtMemOffset_le_iff : virtMemOffset ≤ v ↔ 0xFFFFFF8000000000 ≤ v := Iff.rfl

/-- Addresses behind the heap are the kernel's. -/
theorem OpenEnd.pml4Index (h : OpenEnd m) (hv : m.kheapEnd < v) (hlt : v < 2 ^ 64) :
    pml4Index v = 511 := by
  have hhigh := virtMemOffset_le_iff.mp h.high
  rw [pml4Index_eq]
  omega

theorem pageOf_ne_of_lt {a : ℕ} (ha : a % 0x1000 = 0) (hva : a + 0x1000 ≤ v) (hlt : v < 2 ^ 64)
    (hhigh : virtMemOffset ≤ a) : pageOf v ≠ pageOf a := by
  rw [virtMemOffset_le_iff] at hhigh
  rw [pageOf, pageOf]
  omega

/-- What is seen of the page tables behind the heap. -/
theorem GrowEvent.openEnd (h : GrowEvent roots m m') (ho : OpenEnd m) : OpenEnd m' := by
  obtain ⟨hal, hhigh, habsent⟩ := ho
  have ho : OpenEnd m := ⟨hal, hhigh, habsent⟩
  rcases h with hev | ⟨phys, hev⟩
  · refine ⟨by rwa [hev.kheapEnd], by rwa [hev.kheapEnd], fun v hv hlt => ?_⟩
    rw [hev.kheapEnd] at hv
    rw [hev.kernelPml4, hev.entry (ho.pml4Index hv hlt)]
    exact habsent v hv hlt
  · have hend := hev.kheapEnd
    refine ⟨by omega, by omega, fun v hv hlt => ?_⟩
    have hlt' : m.kheapEnd < v := by omega
    rw [hev.kernelPml4, hev.entry (ho.pml4Index hlt' hlt), if_neg]
    · exact habsent v hlt' hlt
    · exact pageOf_ne_of_lt hal (by omega) hlt (by omega)

theorem Growth.openEnd (h : Growth roots m m') (ho : OpenEnd m) : OpenEnd m' := by
  induction h with
  | refl => exact ho
  | tail _ hev ih => exact hev.openEnd ih

/-- Nothing but the end of the heap and the kernel's tables count. -/
theorem OpenEnd.congr (h : OpenEnd m) (hend : m'.kheapEnd = m.kheapEnd)
    (hentry : ∀ v, m'.entry m'.kernelPml4 v = m.entry m.kernelPml4 v) : OpenEnd m' :=
  ⟨by rw [hend]; exact h.aligned, by rw [hend]; exact h.high, fun v hv hlt => by
    rw [hend] at hv
    rw [hentry]
    exact h.absent v hv hlt⟩

end OpenEnds

/-! ### Mapping pages -/

section Pages

variable {src : FrameSource} {m m' : Machine} {live : List Chunk} {roots : List ℕ}
variable {b : ℕ → Bool} {n phys p root d i : ℕ}

/-- An `if` for a table goes through if the table is there, or a preallocated one is. -/
theorem usePrealloc_isSome {memset drop : Machine → Machine}
    (h : (m.dirs d).virt i ≠ 0 ∨ p ≠ 0) : ∃ m', usePrealloc m p memset drop root d i = some m' := by
  rw [usePrealloc]
  split_ifs with hv hp
  · exact ⟨_, rfl⟩
  · exact absurd hp (h.resolve_left (fun hc => hv hc))
  · exact ⟨_, rfl⟩

/-- The `if` for the page directory keeps the preallocated page table, and does nothing
where the page directory is there. -/
theorem usePreallocPd_keeps (h : usePreallocPd m root d i = some m') :
    m'.preallocPt = m.preallocPt ∧ ((m.dirs d).virt i ≠ 0 → m' = m) := by
  rw [usePreallocPd, usePrealloc] at h
  split_ifs at h with hv
  · obtain rfl := Option.some.inj h
    exact ⟨rfl, fun _ => rfl⟩
  · obtain rfl := Option.some.inj h
    exact ⟨rfl, fun hc => absurd hc hv⟩

/-- **A page can be mapped behind the heap**, if its page table is there or can be made; and
then it is there. -/
theorem KernelInv.mapPagePrealloc_isSome (h : KernelInv m live roots)
    (hv : pml4Index (m.kheapEnd + 1) = 511) (hb : m.bitmap = some b)
    (hphys : src.next b = some phys)
    (habsent : m.entry m.kernelPml4 (m.kheapEnd + 1) = 0)
    (htab : walk m.kid m.kernelPml4 (slots (m.kheapEnd + 1)) ≠ none ∨
      m.preallocPd ≠ 0 ∧ m.preallocPt ≠ 0) :
    ∃ m', Xana.mapPagePrealloc m (m.kheapEnd + 1) phys true true m.kernelPml4 = some (true, m') ∧
      walk m'.kid m.kernelPml4 (slots (m.kheapEnd + 1)) ≠ none := by
  have hused : m.frameUsed phys = false := by
    rw [Machine.frameUsed, hb]
    exact src.clear hphys
  have hroot : (m.dirs m.kernelPml4).virt 511 ≠ 0 := fun h0 => h.kernelHalf (pointer_eq_none.mpr h0)
  have hkid : m.kid m.kernelPml4 511 = some ((m.dirs m.kernelPml4).virt 511) :=
    pointer_of_pos (Nat.pos_of_ne_zero hroot)
  have hroot' : walk m.kid m.kernelPml4 [511] = some ((m.dirs m.kernelPml4).virt 511) := by
    rw [walk_cons, hkid]
    rfl
  have h₁ : Xana.usePreallocPdpt m m.kernelPml4 511 = some m := by
    rw [Xana.usePreallocPdpt, usePrealloc, if_pos hroot]
  obtain ⟨d, hd⟩ : ∃ d, (m.dirs m.kernelPml4).virt 511 = d := ⟨_, rfl⟩
  obtain ⟨i, hi⟩ : ∃ i, pdptIndex (m.kheapEnd + 1) = i := ⟨_, rfl⟩
  obtain ⟨j, hj⟩ : ∃ j, pdIndex (m.kheapEnd + 1) = j := ⟨_, rfl⟩
  have hslots : slots (m.kheapEnd + 1) = [511, i, j] := by rw [slots, hv, hi, hj]
  rw [hd] at hkid hroot'
  rw [hslots] at htab ⊢
  have hpd : (m.dirs d).virt i ≠ 0 ∨ m.preallocPd ≠ 0 := by
    refine htab.imp (fun hw h0 => hw ?_) And.left
    rw [walk_cons, hkid, Option.bind_some, walk_cons, Machine.kid, h0]
    rfl
  obtain ⟨m₂, h₂⟩ : ∃ m₂, Xana.usePreallocPd m m.kernelPml4 d i = some m₂ :=
    usePrealloc_isSome hpd
  obtain ⟨hinv₂, hquiet₂, hw₂⟩ := h.usePreallocPd hroot' h₂
  obtain ⟨hpt₂, hsame₂⟩ := usePreallocPd_keeps h₂
  have hpt : (m₂.dirs ((m₂.dirs d).virt i)).virt j ≠ 0 ∨ m₂.preallocPt ≠ 0 := by
    rcases htab with hw | ⟨-, hp⟩
    · have hvirt : (m.dirs d).virt i ≠ 0 := by
        rintro h0
        refine hw ?_
        rw [walk_cons, hkid, Option.bind_some, walk_cons, Machine.kid, h0]
        rfl
      obtain rfl := hsame₂ hvirt
      refine Or.inl fun h0 => hw ?_
      have hthird : m₂.kid ((m₂.dirs d).virt i) j = none := pointer_eq_none.mpr h0
      have hconcat : ([511, i, j] : List ℕ) = [511, i] ++ [j] := rfl
      rw [hconcat, walk_concat, hw₂, Option.bind_some, hthird]
    · exact Or.inr (by rwa [hpt₂])
  obtain ⟨m₃, h₃⟩ : ∃ m₃, Xana.usePreallocPt m₂ m.kernelPml4 ((m₂.dirs d).virt i) j = some m₃ :=
    usePrealloc_isSome hpt
  have h₃' := h₃
  rw [← hquiet₂.kernelPml4] at h₃' hw₂
  obtain ⟨hinv₃, hquiet₃, hw₃⟩ := hinv₂.usePreallocPt hw₂ h₃'
  have hquiet := hquiet₂.trans hquiet₃
  rw [hquiet₂.kernelPml4] at hw₃
  -- the entry is empty, as it was
  have hentry : m₃.tabs ((m₃.dirs ((m₂.dirs d).virt i)).virt j) (ptIndex (m.kheapEnd + 1)) = 0 := by
    rw [← hslots] at hw₃
    rw [← entry_of_walk hw₃, hquiet.entry hv, habsent]
  obtain ⟨m', hset⟩ : ∃ m', setPage m₃ ((m₃.dirs ((m₂.dirs d).virt i)).virt j) (m.kheapEnd + 1) phys
      true true = (true, m') ∧ m'.kid = m₃.kid := by
    rw [setPage, if_neg (by rw [hentry]; exact fun hc => hc rfl)]
    exact ⟨_, rfl, rfl⟩
  obtain ⟨hset, hkid'⟩ := hset
  refine ⟨m', ?_, ?_⟩
  · rw [Xana.mapPagePrealloc, hused, hv, hi, hj]
    simp only [Bool.false_eq_true, if_false, h₁, hd, h₂, Option.bind_eq_bind, Option.bind_some]
    rw [h₃]
    exact congrArg some hset
  · rw [hkid', hw₃]
    simp

theorem slots_add (v k : ℕ) (h : v % 0x200000 + k < 0x200000) : slots (v + k) = slots v := by
  have hdiv : (v + k) / 2 ^ 21 = v / 2 ^ 21 := by omega
  have hdiv₂ : ∀ {n : ℕ}, (v + k) / 2 ^ (21 + n) = v / 2 ^ (21 + n) := by
    intro n
    rw [pow_add, ← Nat.div_div_eq_div_mul, ← Nat.div_div_eq_div_mul, hdiv]
  rw [slots, slots, pml4Index_eq, pml4Index_eq, pdptIndex_eq, pdptIndex_eq, pdIndex_eq, pdIndex_eq,
    hdiv, hdiv₂ (n := 18), hdiv₂ (n := 9)]

variable (src) in
/-- **The loop of `heap_expand` goes through**, up to the next 2 MiB boundary. -/
theorem KernelInv.expandPages_isSome (h : KernelInv m live roots) (ho : OpenEnd m)
    (hle : m.kheap ≤ m.kheapEnd + 1) (hlt : m.kheapEnd + 0x1000 * n < 2 ^ 64)
    (hroom : (m.kheapEnd + 1) % 0x200000 + 0x1000 * n ≤ 0x200000)
    (hframes : ∀ k < n, ∀ m', Xana.expandPages src k m = some m' →
      ∃ b phys, m'.bitmap = some b ∧ src.next b = some phys)
    (htab : 0 < n → walk m.kid m.kernelPml4 (slots (m.kheapEnd + 1)) ≠ none ∨
      m.preallocPd ≠ 0 ∧ m.preallocPt ≠ 0) :
    ∃ m', Xana.expandPages src n m = some m' := by
  induction n generalizing m with
  | zero => exact ⟨m, rfl⟩
  | succ n ih =>
    obtain ⟨b, phys, hb, hphys⟩ := hframes 0 (Nat.succ_pos n) m rfl
    have hv := ho.pml4Index (v := m.kheapEnd + 1) (by omega) (by omega)
    have habsent := ho.absent (m.kheapEnd + 1) (by omega) (by omega)
    obtain ⟨m₁, hmap, hw⟩ :=
      h.mapPagePrealloc_isSome hv hb hphys habsent (htab (Nat.succ_pos n))
    obtain ⟨hinv₁, hgrow₁⟩ := h.mapPagePrealloc hv hb hphys hmap
    have hs := sameHeap_mapPagePrealloc hmap
    have hround : ∀ k, Xana.expandPages src (k + 1) m =
        Xana.expandPages src k { m₁ with kheapEnd := m₁.kheapEnd + 0x1000 } := by
      intro k
      simp only [Xana.expandPages, hb, hphys, hmap, Option.bind_eq_bind, Option.bind_some, if_true]
    have hend : m₁.kheapEnd + 0x1000 = m.kheapEnd + 0x1000 := by rw [hs.kheapEnd]
    have hnext : m₁.kheapEnd + 0x1000 + 1 = m.kheapEnd + 1 + 0x1000 := by omega
    rw [hround]
    refine ih hinv₁ (hgrow₁.openEnd ho) ?_ ?_ ?_ ?_ ?_
    · show m₁.kheap ≤ m₁.kheapEnd + 0x1000 + 1
      rw [hs.kheap, hend]
      omega
    · show m₁.kheapEnd + 0x1000 + 0x1000 * n < 2 ^ 64
      omega
    · show (m₁.kheapEnd + 0x1000 + 1) % 0x200000 + 0x1000 * n ≤ 0x200000
      omega
    · intro k hk m' hexp
      exact hframes (k + 1) (Nat.succ_lt_succ hk) m' (by rw [hround]; exact hexp)
    · -- the next page has the same page table
      intro hn
      have hin : (m.kheapEnd + 1) % 0x200000 + 0x1000 < 0x200000 := by
        clear hlt hnext
        omega
      refine Or.inl ?_
      show walk m₁.kid m₁.kernelPml4 (slots (m₁.kheapEnd + 0x1000 + 1)) ≠ none
      rw [hnext, slots_add (m.kheapEnd + 1) 0x1000 hin, hs.kernelPml4]
      exact hw

end Pages

/-! ### Searching -/

section Searching

variable {m m₁ : Machine} {mem : Mem} {a prev n k size : ℕ} {b : Block} {l : List Block}

/-- The search comes to an end. -/
theorem Listed.findHeader_isSome (fits : ℕ → Bool) (h : Listed mem a prev l 0) (ha : 0 < a)
    (hn : l.length < n) : ∃ r, Xana.findHeader mem fits n (headOr a l 0) = some r := by
  induction l generalizing a prev n with
  | nil =>
    obtain ⟨n, rfl⟩ : ∃ k, n = k + 1 := ⟨n - 1, by simp at hn; omega⟩
    exact ⟨none, by simp [Xana.findHeader]⟩
  | cons c l ih =>
    obtain ⟨n, rfl⟩ : ∃ k, n = k + 1 := ⟨n - 1, by simp at hn; omega⟩
    rw [headOr_cons, Xana.findHeader, if_neg ha.ne']
    by_cases hc : fits a = true
    · exact ⟨_, by rw [if_pos hc]⟩
    · rw [if_neg hc, h.1]
      exact ih h.2 (by omega) (by simpa using hn)

/-- So does the walk to the last header. -/
theorem Listed.exists_lastHeader (h : Listed mem a prev l 0) (hne : l ≠ []) (ha : 0 < a)
    (hn : l.length ≤ n) : ∃ x, Xana.lastHeader mem n a = some x := by
  induction l generalizing a prev n with
  | nil => exact absurd rfl hne
  | cons c l ih =>
    obtain ⟨n, rfl⟩ : ∃ k, n = k + 1 := ⟨n - 1, by simp at hn; omega⟩
    rw [Xana.lastHeader, h.1]
    cases l with
    | nil => exact ⟨a, if_pos rfl⟩
    | cons d l =>
      have hnext :
          headOr (a + heapHeaderSize + c.length) (d :: l) 0 = a + heapHeaderSize + c.length :=
        headOr_of_ne_nil _ _ (by simp)
      simp only [hnext]
      rw [if_neg (by omega)]
      exact ih h.2 (by simp) (by omega) (by simpa using hn)

/-- There are rounds enough to walk over the list. -/
theorem HeapInv.length_lt_heapBytes (h : HeapInv m l) : l.length < m.heapBytes := by
  have hmul : m.kheap + 29 * l.length ≤ endOf heapHeaderSize m.kheap l := length_mul_le_endOf
  rw [h.end_eq] at hmul
  rw [Machine.heapBytes]
  omega

/-- **A search comes to an end**, and no `kassert` stops it. -/
theorem HeapInv.tryAlloc_isSome (h : HeapInv m l) (align : Bool) (hpos : 0 < size)
    (hwrap : m.kheapEnd + 0xFFF + size < 2 ^ 64) : ∃ r, m.tryAlloc size align = some r := by
  obtain ⟨fits, hfits⟩ :
      ∃ fits, (if align then fitsAligned m.mem size else fitsUnaligned m.mem size) =
      fits := ⟨_, rfl⟩
  obtain ⟨r, hr⟩ := h.listed.findHeader_isSome fits h.kheap_pos h.length_lt_heapBytes
  have hfound := hr
  rw [h.headOr_eq] at hfound
  cases r with
  | none =>
    refine ⟨none, ?_⟩
    simp only [Machine.tryAlloc, hfits, hfound, Option.bind_eq_bind, Option.bind_some,
      Option.pure_def]
  | some x =>
    obtain ⟨l₁, b, l₂, rfl, rfl, hb⟩ := h.listed.findHeader h.kheap_pos hr
    have hheader := (h.listed.header_eq : header m.mem (endOf heapHeaderSize m.kheap l₁) = _)
    have hle : endOf heapHeaderSize m.kheap l₁ + heapHeaderSize + b.length ≤ m.kheapEnd := by
      rw [← h.end_eq, endOf_append, endOf_cons]
      exact le_endOf
    have hup : endOf heapHeaderSize m.kheap l₁ + heapHeaderSize + 0xFFF < 2 ^ 64 := by omega
    have htake :
        ∃ mem', takeBlock m.mem size (endOf heapHeaderSize m.kheap l₁) align = some mem' := by
      cases align with
      | true =>
        have hal := alignUp_eq hup
        rw [← hfits] at hb
        simp only [if_true, fitsAligned, hheader, Bool.and_eq_true, decide_eq_true_eq] at hb
        rw [Nat.mod_eq_of_lt (by omega)] at hb
        exact h.listed.exists_takeAligned hpos hup hb.1
      | false => exact ⟨_, rfl⟩
    obtain ⟨mem', hmem'⟩ := htake
    obtain ⟨p, hp⟩ : ∃ p, (if align then alignUp (endOf heapHeaderSize m.kheap l₁ + heapHeaderSize)
      else endOf heapHeaderSize m.kheap l₁ + heapHeaderSize) = p := ⟨_, rfl⟩
    refine ⟨some (p, { m with mem := mem', live := ⟨p, size, align⟩ :: m.live }), ?_⟩
    simp only [Machine.tryAlloc, hfits, hfound, hmem', hp, Option.bind_eq_bind, Option.bind_some,
      Option.pure_def]

/-- **The last block after the heap has grown**: it is free, and has 2 MiB, or 2 MiB more. -/
theorem HeapInv.hasRoom_growLast {m₂ : Machine} (h : HeapInv m l) (hmem : m₁.mem = m.mem)
    (hkheap : m₁.kheap = m.kheap) (hlive : m₁.live = m.live)
    (hend : m₁.kheapEnd = m.kheapEnd + 0x200000) (hlt : m₁.kheapEnd < 2 ^ 64)
    (hgrow : Xana.growLast m₁ m.kheapEnd = some m₂) :
    HasRoom m₂ (0x200000 - heapHeaderSize) ∧
      ∀ l₀ c, l = l₀ ++ [c] → c.free = true → HasRoom m₂ (c.length + 0x200000) := by
  obtain ⟨mem, l', -, hinv, -, l₀, b, rfl, hb, hlen, hmore⟩ :=
    h.growLast hmem hkheap hlive hend hlt hgrow
  refine ⟨⟨l₀, b, hinv, hb, hlen⟩, ?_⟩
  intro l₁ c hl hc
  exact ⟨l₀, b, hinv, hb, hmore l₁ c hl hc⟩

theorem HeapInv.growLast_isSome (oldEnd : ℕ) (h : HeapInv m l) (hmem : m₁.mem = m.mem)
    (hkheap : m₁.kheap = m.kheap) (hle : m.kheapEnd ≤ m₁.kheapEnd) :
    ∃ m₂, Xana.growLast m₁ oldEnd = some m₂ := by
  have hrounds : l.length ≤ m₁.heapBytes := by
    have hlt := h.length_lt_heapBytes
    rw [Machine.heapBytes] at hlt ⊢
    rw [hkheap]
    omega
  have hlisted := h.listed
  rw [← hmem, ← hkheap] at hlisted
  obtain ⟨x, hx⟩ := hlisted.exists_lastHeader h.ne_nil (by rw [hkheap]; exact h.kheap_pos) hrounds
  simp only [Xana.growLast, hx, Option.bind_eq_bind, Option.bind_some]
  split_ifs
  all_goals exact ⟨_, rfl⟩

end Searching

/-! ### The preallocated tables -/

/-- What the three tables take from the heap, at most. -/
def roomForTables : ℕ :=
  roomFor pageTableSize + roomFor pageDirectorySize + roomFor pageDirectorySize

section Tables

variable {src : FrameSource} {m m' : Machine} {n k size : ℕ}

/-- As long as there is room, `kmalloc_a` does not call `heap_expand`. -/
theorem HasRoom.allocNow (h : HasRoom m n) (hpos : 0 < size) (hn : roomFor size < n)
    (hwrap : m.kheapEnd + 0xFFF + size < 2 ^ 64) :
    ∃ p mem, Xana.allocNow m size =
        some (p, { m with mem := mem, live := ⟨p, size, true⟩ :: m.live }) ∧ p ≠ 0 ∧
      HasRoom { m with mem := mem, live := ⟨p, size, true⟩ :: m.live } (n - roomFor size) := by
  obtain ⟨p, mem, htry, hroom⟩ := h.tryAlloc size true hpos hn hwrap
  refine ⟨p, mem, by rw [Xana.allocNow, htry]; rfl, ?_, hroom⟩
  obtain ⟨l, hinv⟩ := hroom.heap
  exact (hinv.fresh rfl hpos).pos.ne'

theorem HasRoom.kmallocA_eq (h : HasRoom m n) (hpos : 0 < size) (hn : roomFor size < n)
    (hwrap : m.kheapEnd + 0xFFF + size < 2 ^ 64) :
    kmallocA src (k + 1) m size = Xana.allocNow m size := by
  obtain ⟨p, mem, htry, -⟩ := h.tryAlloc size true hpos hn hwrap
  obtain ⟨l, hinv⟩ := h.heap
  rw [kmallocA, Xana.kmallocInt, if_neg hinv.kheap_pos.ne', htry, Xana.allocNow, htry]
  rfl

theorem HasRoom.mono {n' : ℕ} (h : HasRoom m n) (hn : n' ≤ n) : HasRoom m n' := by
  obtain ⟨l, b, hinv, hb, hle⟩ := h
  exact ⟨l, b, hinv, hb, hn.trans hle⟩

/-- What stands for `kmalloc_a` as long as there is room. -/
def AllocatesNow (f : Machine → ℕ → Option (ℕ × Machine)) : Prop :=
  ∀ {m n size}, HasRoom m n → 0 < size → roomFor size < n → m.kheapEnd + 0xFFF + size < 2 ^ 64 →
    f m size = Xana.allocNow m size

theorem allocatesNow_allocNow : AllocatesNow Xana.allocNow := fun _ _ _ _ => rfl

theorem allocatesNow_kmallocA : AllocatesNow (kmallocA src (k + 1)) := fun h => h.kmallocA_eq

theorem allocGrows_allocNow {roots : List ℕ} : AllocGrows roots Xana.allocNow where
  grown _ _ _ _ _ hcall := grown_tryAlloc (Option.join_eq_some_iff.mp hcall)
  grows hinv hk hwrap hcall :=
    hinv.tryAlloc_grows hk hwrap (Option.join_eq_some_iff.mp hcall)

/-- **A preallocated table is made again**, in the room there is. `get` is the variable that
points to it, and `fill` what sets the variable. -/
theorem HasRoom.refill (size : ℕ) (get : Machine → ℕ) (fill : Machine → ℕ → Machine)
    (refill : (Machine → ℕ → Option (ℕ × Machine)) → Option Machine)
    (h : HasRoom m n) (hpos : 0 < size) (hn : roomFor size < n)
    (hwrap : m.kheapEnd + 0xFFF + size < 2 ^ 64) (hfill : ∀ m p, SameHeap m (fill m p))
    (hr : ∀ f, refill f =
      if get m = 0 then (f m size).bind fun r => some (fill r.2 r.1) else some m) :
    ∃ m', (∀ f, AllocatesNow f → refill f = some m') ∧ m'.kheapEnd = m.kheapEnd ∧
      HasRoom m' (n - roomFor size) ∧ (m' = m ∧ get m ≠ 0 ∨
        ∃ p mem live, p ≠ 0 ∧ m' = fill { m with mem := mem, live := live } p) := by
  by_cases h0 : get m = 0
  · obtain ⟨p, mem, hp, hp0, hroom⟩ := h.allocNow hpos hn hwrap
    refine ⟨fill { m with mem := mem, live := ⟨p, size, true⟩ :: m.live } p, fun f hf => ?_,
      (hfill _ p).kheapEnd, hroom.congr (hfill _ p), Or.inr ⟨p, mem, _, hp0, rfl⟩⟩
    rw [hr, if_pos h0, hf h hpos hn hwrap, hp]
    rfl
  · exact ⟨m, fun f _ => by rw [hr, if_neg h0], rfl, h.mono (Nat.sub_le ..), Or.inl ⟨rfl, h0⟩⟩

theorem HasRoom.refillPt (h : HasRoom m n) (hn : roomFor pageTableSize < n)
    (hwrap : m.kheapEnd + 0xFFF + pageDirectorySize < 2 ^ 64) :
    ∃ m', (∀ f, AllocatesNow f → Xana.refillPt f m = some m') ∧ m'.kheapEnd = m.kheapEnd ∧
      HasRoom m' (n - roomFor pageTableSize) ∧ m'.preallocPt ≠ 0 ∧
      m'.preallocPd = m.preallocPd ∧ m'.preallocPdpt = m.preallocPdpt := by
  have hsize : pageDirectorySize = 8712 := rfl
  have hsize' : pageTableSize = 4096 := rfl
  obtain ⟨m', hrun, hend, hroom, hset⟩ := h.refill pageTableSize Machine.preallocPt
    (fun m p => { m with preallocPt := p }.clearTab p) (Xana.refillPt · m)
    (by decide) hn (by omega) (fun _ _ => ⟨rfl, rfl, rfl, rfl, rfl⟩) fun _ => rfl
  refine ⟨m', hrun, hend, hroom, ?_⟩
  rcases hset with ⟨rfl, hne⟩ | ⟨p, mem, live, hp, rfl⟩
  · exact ⟨hne, rfl, rfl⟩
  · exact ⟨hp, rfl, rfl⟩

theorem HasRoom.refillPd (h : HasRoom m n) (hn : roomFor pageDirectorySize < n)
    (hwrap : m.kheapEnd + 0xFFF + pageDirectorySize < 2 ^ 64) :
    ∃ m', (∀ f, AllocatesNow f → Xana.refillPd f m = some m') ∧ m'.kheapEnd = m.kheapEnd ∧
      HasRoom m' (n - roomFor pageDirectorySize) ∧ m'.preallocPd ≠ 0 ∧
      m'.preallocPt = m.preallocPt ∧ m'.preallocPdpt = m.preallocPdpt := by
  obtain ⟨m', hrun, hend, hroom, hset⟩ := h.refill pageDirectorySize
    Machine.preallocPd (fun m p => { m with preallocPd := p }.clearDir p)
    (Xana.refillPd · m) (by decide) hn hwrap (fun _ _ => ⟨rfl, rfl, rfl, rfl, rfl⟩)
    fun _ => rfl
  refine ⟨m', hrun, hend, hroom, ?_⟩
  rcases hset with ⟨rfl, hne⟩ | ⟨p, mem, live, hp, rfl⟩
  · exact ⟨hne, rfl, rfl⟩
  · exact ⟨hp, rfl, rfl⟩

theorem HasRoom.refillPdpt (h : HasRoom m n) (hn : roomFor pageDirectorySize < n)
    (hwrap : m.kheapEnd + 0xFFF + pageDirectorySize < 2 ^ 64) :
    ∃ m', (∀ f, AllocatesNow f → Xana.refillPdpt f m = some m') ∧ m'.kheapEnd = m.kheapEnd ∧
      HasRoom m' (n - roomFor pageDirectorySize) ∧ m'.preallocPdpt ≠ 0 ∧
      m'.preallocPt = m.preallocPt ∧ m'.preallocPd = m.preallocPd := by
  obtain ⟨m', hrun, hend, hroom, hset⟩ := h.refill pageDirectorySize
    Machine.preallocPdpt (fun m p => { m with preallocPdpt := p }.clearDir p)
    (Xana.refillPdpt · m) (by decide) hn hwrap (fun _ _ => ⟨rfl, rfl, rfl, rfl, rfl⟩)
    fun _ => rfl
  refine ⟨m', hrun, hend, hroom, ?_⟩
  rcases hset with ⟨rfl, hne⟩ | ⟨p, mem, live, hp, rfl⟩
  · exact ⟨hne, rfl, rfl⟩
  · exact ⟨hp, rfl, rfl⟩

/-- **The preallocated tables are made again.** -/
theorem HasRoom.refills (h : HasRoom m n) (hn : roomForTables < n)
    (hwrap : m.kheapEnd + 0xFFF + pageDirectorySize < 2 ^ 64) :
    ∃ m₁ m₂ m₃, (∀ f, AllocatesNow f → Xana.refillPt f m = some m₁ ∧ Xana.refillPd f m₁ = some m₂ ∧
        Xana.refillPdpt f m₂ = some m₃) ∧
      m₃.preallocPt ≠ 0 ∧ m₃.preallocPd ≠ 0 ∧ m₃.preallocPdpt ≠ 0 ∧ m₃.kheapEnd = m.kheapEnd ∧
      HasRoom m₃ (n - roomForTables) := by
  have hpt : roomFor pageTableSize = 8250 := rfl
  have hpd : roomFor pageDirectorySize = 12866 := rfl
  have hall : roomForTables = 33982 := rfl
  obtain ⟨m₁, h₁, hend₁, hroom₁, hpt₁, -, -⟩ := h.refillPt (by omega) hwrap
  obtain ⟨m₂, h₂, hend₂, hroom₂, hpd₂, hpt₂, -⟩ := hroom₁.refillPd (by omega) (by omega)
  obtain ⟨m₃, h₃, hend₃, hroom₃, hpdpt₃, hpt₃, hpd₃⟩ := hroom₂.refillPdpt (by omega) (by omega)
  refine ⟨m₁, m₂, m₃, fun f hf => ⟨h₁ f hf, h₂ f hf, h₃ f hf⟩, by rwa [hpt₃, hpt₂], by rwa [hpd₃],
    hpdpt₃, hend₃.trans (hend₂.trans hend₁), hroom₃.mono ?_⟩
  omega

/-- **`heap_expand` succeeds**, and does not call itself: there are 2 MiB more behind the
heap, less what the preallocated tables take. -/
theorem GrowInv.heapExpand (h : GrowInv m) (hmay : MayExpand src m) :
    ∃ m', Xana.heapExpand src Xana.allocNow m = some m' ∧ GrowInv m' ∧
      (∀ k, Xana.heapExpand src (kmallocA src (k + 1)) m = some m') ∧
      m'.kheapEnd = m.kheapEnd + 0x200000 ∧
      ∀ n, n = 0 ∨ HasRoom m n → HasRoom m' (n + 0x1F7000) := by
  obtain ⟨⟨l, hheap⟩, hkernel, hopen, hready⟩ := h
  have hall : roomForTables = 33982 := rfl
  have hheader : heapHeaderSize = 29 := rfl
  have hsize : pageDirectorySize = 8712 := rfl
  have hlt := hmay.lt
  have halign := hready.aligned
  have hle : m.kheap ≤ m.kheapEnd + 1 := by
    rw [← hheap.end_eq]
    exact le_endOf.trans (Nat.le_succ _)
  -- the pages
  obtain ⟨m₁, h₁⟩ := hkernel.expandPages_isSome src (n := 512) hopen hle (by omega) (by omega)
    hmay.frames fun _ => Or.inr ⟨hready.preallocPd, hready.preallocPt⟩
  obtain ⟨hmem₁, hk₁, hl₁, -, hend₁⟩ := expandPages_eq h₁
  -- the last header
  obtain ⟨m₂, h₂⟩ := hheap.growLast_isSome m.kheapEnd hmem₁ hk₁ (by omega)
  obtain ⟨hroom, hmore⟩ := hheap.hasRoom_growLast hmem₁ hk₁ hl₁ (by omega) (by omega) h₂
  have hend₂ : m₂.kheapEnd = m₁.kheapEnd := by
    obtain ⟨mem, rfl⟩ := exists_growLast h₂
    rfl
  -- the preallocated tables
  have hwrap : m₂.kheapEnd + 0xFFF + pageDirectorySize < 2 ^ 64 := by
    omega
  have hrefills : ∀ {n}, HasRoom m₂ n → roomForTables < n →
      ∃ m', (∀ f, AllocatesNow f → Xana.heapExpand src f m = some m') ∧ m'.preallocPt ≠ 0 ∧
        m'.preallocPd ≠ 0 ∧ m'.preallocPdpt ≠ 0 ∧ m'.kheapEnd = m₂.kheapEnd ∧
        HasRoom m' (n - roomForTables) := by
    intro n hroom hn
    obtain ⟨m₃, m₄, m₅, hrun, hset⟩ := hroom.refills hn hwrap
    refine ⟨m₅, fun f hf => ?_, hset⟩
    obtain ⟨h₃, h₄, h₅⟩ := hrun f hf
    simp only [Xana.heapExpand, h₁, h₂, h₃, h₄, h₅, Option.bind_eq_bind, Option.bind_some]
  obtain ⟨m', hall', hpt, hpd, hpdpt, hend', hroom'⟩ := hrefills hroom (by omega)
  have hexp := hall' _ allocatesNow_allocNow
  obtain ⟨hheap', hkernel', hgrow, -⟩ :=
    hheap.heapExpand_grows hkernel allocGrows_allocNow (by omega) hexp
  refine ⟨m', hexp, ⟨hheap', hkernel', hgrow.openEnd hopen, by omega, hpt, hpd, hpdpt⟩,
    fun k => hall' _ allocatesNow_kmallocA, by omega, ?_⟩
  rintro n (rfl | hn)
  · exact hroom'.mono (by omega)
  · obtain ⟨l₀, c, hinv, hc, hle⟩ := hn
    obtain ⟨hroom₀, hmore₀⟩ := hinv.hasRoom_growLast hmem₁ hk₁ hl₁ (by omega) (by omega) h₂
    obtain ⟨m'', hall'', -, -, -, -, hroom''⟩ := hrefills (hmore₀ l₀ c rfl hc) (by omega)
    obtain rfl := Option.some.inj (hexp.symm.trans (hall'' _ allocatesNow_allocNow))
    exact hroom''.mono (by omega)

/-- One search keeps what the heap needs to grow. -/
theorem GrowInv.tryAlloc {align : Bool} {p : ℕ} (h : GrowInv m)
    (hwrap : m'.kheapEnd + 0xFFF + size < 2 ^ 64)
    (hcall : m.tryAlloc size align = some (some (p, m'))) : GrowInv m' := by
  obtain ⟨⟨l, hheap⟩, hkernel, hopen, hready⟩ := h
  have hle := (grown_tryAlloc hcall).le
  obtain ⟨hheap', ⟨⟨L, hlive, -, hkernel'⟩, hgrow⟩⟩ := hheap.tryAlloc_grows hkernel hwrap hcall
  have hL : L ⊆ m'.live := by
    rw [hlive]
    exact List.subset_cons_self _ _
  obtain ⟨mem, l', hm', -⟩ := hheap.tryAlloc (by omega) hcall
  have hready' : ReadyToGrow m' := by
    rw [hm']
    exact ⟨hready.aligned, hready.preallocPt, hready.preallocPd, hready.preallocPdpt⟩
  exact ⟨hheap', hkernel'.mono hL, hgrow.openEnd hopen, hready'⟩

/-- A loop that has mapped its pages has got frames for them. -/
theorem frames_of_expandPages (h : expandPages src n m = some m') :
    ∀ k < n, ∀ m₁, expandPages src k m = some m₁ →
      ∃ b phys, m₁.bitmap = some b ∧ src.next b = some phys := by
  induction n generalizing m with
  | zero => exact fun k hk => absurd hk (Nat.not_lt_zero k)
  | succ n ih =>
    simp only [expandPages, Option.bind_eq_bind, Option.bind_eq_some_iff] at h
    obtain ⟨b, hb, phys, hphys, ⟨ok, m₂⟩, hmap, h⟩ := h
    split_ifs at h with hok
    simp only at hok
    subst hok
    intro k hk m₁ hrun
    cases k with
    | zero =>
      obtain rfl := Option.some.inj hrun
      exact ⟨b, phys, hb, hphys⟩
    | succ k =>
      simp only [expandPages, hb, hphys, hmap, Option.bind_eq_bind, Option.bind_some,
        if_true] at hrun
      exact ih h k (Nat.lt_of_succ_lt_succ hk) m₁ hrun

/-- **A call of `kmalloc_int` keeps what the heap needs to grow.** -/
theorem GrowInv.kmallocInt {align : Bool} {p : ℕ} (h : GrowInv m)
    (hwrap : m'.kheapEnd + 0xFFF + size < 2 ^ 64)
    (hcall : Xana.kmallocInt src n m size align = some (p, m')) : GrowInv m' := by
  induction n generalizing m with
  | zero => simp [Xana.kmallocInt] at hcall
  | succ n ih =>
    obtain ⟨l, hheap⟩ := h.heap
    simp only [Xana.kmallocInt, if_neg hheap.kheap_pos.ne', Option.bind_eq_bind,
      Option.bind_eq_some_iff] at hcall
    obtain ⟨r, hr, hcall⟩ := hcall
    cases r with
    | some r =>
      obtain rfl := Option.some.inj hcall
      exact h.tryAlloc hwrap hr
    | none =>
      simp only [Option.bind_eq_some_iff] at hcall
      obtain ⟨m₁, h₁, h₂⟩ := hcall
      cases n with
      | zero => simp [Xana.kmallocInt] at h₂
      | succ n =>
        -- the frames were there, and the addresses have not wrapped
        obtain ⟨x, y, hx, hy, hg⟩ := exists_of_heapExpand
          (fun m size p m' hk h => grown_kmallocInt hk h) hheap.kheap_pos.ne' h₁
        obtain ⟨-, hkx, -, -, hendx⟩ := expandPages_eq hx
        have hgy := grown_growLast hy
        have hk₁ : m₁.kheap ≠ 0 := by
          rw [hg.kheap, hgy.kheap, hkx]
          exact hheap.kheap_pos.ne'
        have hle₁ := hgy.le
        have hle₂ := hg.le
        have hle₃ := (grown_kmallocInt hk₁ h₂).le
        have hmay : MayExpand src m := ⟨by omega, frames_of_expandPages hx⟩
        obtain ⟨z, -, hinv, hexp, -⟩ := h.heapExpand hmay
        obtain rfl := Option.some.inj (h₁.symm.trans (hexp n))
        exact ih hinv h₂

end Tables

/-! ### A request is met -/

/-- The machine at which `kmalloc_int` begins to search for the `k`-th time, `0` being the
first, where no call of `kmalloc_a` in between calls `heap_expand`. -/
def searchAt (src : FrameSource) (size : ℕ) (align : Bool) : ℕ → Machine → Option Machine
  | 0, m => some m
  | k + 1, m =>
      match m.tryAlloc size align with
      | some none => (heapExpand src allocNow m).bind (searchAt src size align k)
      | _ => none

/-- **What a request relies on**: no address wraps in a search, and whenever the heap has to
grow, it may. -/
structure MayServe (src : FrameSource) (size : ℕ) (align : Bool) (m : Machine) : Prop where
  pos : 0 < size
  lt : ∀ k m₁, searchAt src size align k m = some m₁ → m₁.kheapEnd + 0xFFF + size < 2 ^ 64
  expand : ∀ k m₁, searchAt src size align k m = some m₁ → m₁.tryAlloc size align = some none →
    MayExpand src m₁

/-- **How a request is served**, in any number of nested calls that is not too small: when
`heap_expand` is called, it finds what it needs, no `kassert` stops it, and it does not call
itself; and after so many calls of it a search finds a block. -/
structure Served (src : FrameSource) (size : ℕ) (align : Bool) (m : Machine) : Prop where
  expands : ∀ k m₁, searchAt src size align k m = some m₁ → m₁.tryAlloc size align = some none →
    ReadyToGrow m₁ ∧ ∃ m₂, heapExpand src allocNow m₁ = some m₂ ∧
      ∀ n, heapExpand src (kmallocA src (n + 1)) m₁ = some m₂
  returns : ∃ k m₁ p m', searchAt src size align k m = some m₁ ∧
    m₁.tryAlloc size align = some (some (p, m')) ∧
    ∀ n > k, kmallocInt src n m size align = some (p, m')

section Serving

variable {src : FrameSource} {m m₁ m' : Machine} {k n d size : ℕ} {align : Bool}

theorem searchAt_succ (hnone : m.tryAlloc size align = some none)
    (hexp : heapExpand src allocNow m = some m') :
    searchAt src size align (k + 1) m = searchAt src size align k m' := by
  rw [searchAt, hnone, hexp]
  rfl

theorem MayServe.of_expand (h : MayServe src size align m)
    (hnone : m.tryAlloc size align = some none)
    (hexp : heapExpand src allocNow m = some m') : MayServe src size align m' where
  pos := h.pos
  lt k m₁ hm := h.lt (k + 1) m₁ (by rw [searchAt_succ hnone hexp]; exact hm)
  expand k m₁ hm := h.expand (k + 1) m₁ (by rw [searchAt_succ hnone hexp]; exact hm)

/-- Every search begins at a machine from which the heap can grow. -/
theorem GrowInv.searchAt (h : GrowInv m) (hs : MayServe src size align m)
    (hm : Xana.searchAt src size align k m = some m₁) : GrowInv m₁ := by
  induction k generalizing m with
  | zero =>
    obtain rfl := Option.some.inj hm
    exact h
  | succ k ih =>
    cases hr : m.tryAlloc size align with
    | none => simp [Xana.searchAt, hr] at hm
    | some r =>
      cases r with
      | some r => simp [Xana.searchAt, hr] at hm
      | none =>
        obtain ⟨m₂, hexp, hinv, -⟩ := h.heapExpand (hs.expand 0 m rfl hr)
        rw [searchAt_succ hr hexp] at hm
        exact ih hinv (hs.of_expand hr hexp) hm

/-- **The searches come to an end**, since the last block is longer each time. `d` is what
it lacks. -/
theorem GrowInv.returns (h : GrowInv m) (hs : MayServe src size align m)
    (hroom : n = 0 ∨ HasRoom m n)
    (hd : roomFor size < n + d) :
    ∃ k m₁ p m', Xana.searchAt src size align k m = some m₁ ∧
      m₁.tryAlloc size align = some (some (p, m')) ∧
      ∀ j > k, Xana.kmallocInt src j m size align = some (p, m') := by
  induction d generalizing m n with
  | zero =>
    have hn : HasRoom m n := hroom.resolve_left (by omega)
    obtain ⟨p, mem, htry, -⟩ := hn.tryAlloc size align hs.pos hd (hs.lt 0 m rfl)
    obtain ⟨l, hheap⟩ := h.heap
    refine ⟨0, m, p, _, rfl, htry, fun j hj => ?_⟩
    obtain ⟨j, rfl⟩ : ∃ i, j = i + 1 := ⟨j - 1, by omega⟩
    rw [Xana.kmallocInt, if_neg hheap.kheap_pos.ne', htry]
    rfl
  | succ d ih =>
    obtain ⟨l, hheap⟩ := h.heap
    obtain ⟨r, hr⟩ := hheap.tryAlloc_isSome align hs.pos (hs.lt 0 m rfl)
    cases r with
    | some r =>
      obtain ⟨p, m'⟩ := r
      refine ⟨0, m, p, m', rfl, hr, fun j hj => ?_⟩
      obtain ⟨j, rfl⟩ : ∃ i, j = i + 1 := ⟨j - 1, by omega⟩
      rw [Xana.kmallocInt, if_neg hheap.kheap_pos.ne', hr]
      rfl
    | none =>
      obtain ⟨m₂, hexp, hinv, hall, -, hmore⟩ := h.heapExpand (hs.expand 0 m rfl hr)
      obtain ⟨k, m₁, p, m', hsearch, htry, hrun⟩ :=
        ih hinv (hs.of_expand hr hexp) (Or.inr (hmore n hroom)) (by omega)
      refine ⟨k + 1, m₁, p, m', by rw [searchAt_succ hr hexp]; exact hsearch, htry, fun j hj => ?_⟩
      obtain ⟨j, rfl⟩ : ∃ i, j = i + 2 := ⟨j - 2, by omega⟩
      rw [Xana.kmallocInt, if_neg hheap.kheap_pos.ne', hr]
      have hcall : Xana.heapExpand src (fun m size => Xana.kmallocInt src (j + 1) m size true) m =
          some m₂ := hall j
      simp only [Option.bind_eq_bind, Option.bind_some, hcall]
      exact hrun (j + 1) (by omega)

/-- **Every request is served**, where the heap can grow. -/
theorem GrowInv.served (h : GrowInv m) (hs : MayServe src size align m) :
    Served src size align m where
  expands k m₁ hm hnone := by
    have hinv := h.searchAt hs hm
    obtain ⟨m₂, hexp, -, hall, -⟩ := hinv.heapExpand (hs.expand k m₁ hm hnone)
    exact ⟨hinv.ready, m₂, hexp, hall⟩
  returns := h.returns hs (n := 0) (d := roomFor size + 1) (Or.inl rfl) (by omega)

end Serving

/-! ### Runs -/

/-- **Before the heap is built**, at `kheap`: the tables of the kernel are apart, with those
that are preallocated, and before `kheap`; and no address from there on is mapped. -/
structure BeforeHeap (m : Machine) (kheap : ℕ) : Prop where
  kheap_mod : kheap % 0x200000 = 0
  kheap_lt : kheap + 0x200000 < 2 ^ 64
  kernel : KernelInv { m with kheap := kheap } [] []
  absent : ∀ v, kheap ≤ v → v < 2 ^ 64 → m.entry m.kernelPml4 v = 0

/-- **The state that `memory_init` leaves**: 512 pages have been mapped on a 2 MiB boundary,
and the preallocated tables made again. -/
def MemoryInit (src : FrameSource) (m : Machine) : Prop :=
  ∃ m₀ kheap m₁ n, BeforeHeap m₀ kheap ∧ initHeap src m₀ kheap = some m₁ ∧
    initPreallocs src (n + 1) m₁ = some m

section Runs

variable {src : FrameSource} {m m' : Machine} {live live' : List Chunk} {roots : List ℕ}
variable {e i n size : ℕ} {align : Bool}

/-- Chunks that are not aligned are no tables. -/
theorem KernelInv.of_aligned (h : KernelInv m live roots)
    (hlive : ∀ u ∈ live, u.aligned = true → u ∈ live') : KernelInv m live' roots where
  tree := ⟨h.tree.unshared, h.tree.length_le, fun hq hw =>
    (h.tree.held hq hw).imp_left fun hu => hlive _ hu rfl⟩
  prealloc x hx h0 := by
    obtain ⟨hheld, hne⟩ := h.prealloc x hx h0
    exact ⟨hheld.imp_left fun hu => hlive _ hu rfl, hne⟩
  distinct := h.distinct
  kheap_le := h.kheap_le
  kernelHalf := h.kernelHalf

/-- What `kfree` changes: bytes, and what is live. -/
theorem exists_kfree {ptr : ℕ} (h : kfree m ptr = some m') :
    ∃ mem, m' = { m with mem := mem, live := without m.live ptr } := by
  rw [kfree, kfreeInt] at h
  simp only [Bool.false_eq_true, if_false, Option.bind_eq_bind, Option.pure_def] at h
  split_ifs at h
  · obtain rfl := Option.some.inj h
    exact ⟨_, rfl⟩
  · simp at h

/-- **Every call keeps what the heap needs to grow.** -/
theorem GrowInv.step {c : HeapCall} (h : GrowInv m) (hs : HeapStep src m c m') : GrowInv m' := by
  obtain ⟨l, hheap⟩ := h.heap
  cases c with
  | kmalloc size =>
    obtain ⟨-, hwrap, n, p, hcall⟩ := hs
    exact h.kmallocInt hwrap hcall
  | kmallocA size =>
    obtain ⟨-, hwrap, n, p, hcall⟩ := hs
    exact h.kmallocInt hwrap hcall
  | kfree ptr =>
    have hheap' := hheap.step hs
    obtain ⟨⟨u, hu, rfl, hal⟩, hfree⟩ := hs
    obtain ⟨mem, rfl⟩ := exists_kfree hfree
    have hlive : ∀ v ∈ m.live, v.aligned = true → v ∈ without m.live u.ptr := by
      intro v hv hval
      refine List.mem_filter.mpr ⟨hv, decide_eq_true fun hptr => ?_⟩
      rw [hheap.eq_of_ptr_eq hu hv hptr] at hval
      simp [hal] at hval
    refine ⟨hheap', (h.kernel.of_aligned hlive).congr rfl rfl rfl rfl,
      h.openEnd.congr rfl fun _ => rfl, ?_⟩
    exact ⟨h.ready.aligned, h.ready.preallocPt, h.ready.preallocPd, h.ready.preallocPdpt⟩
  | write a bytes =>
    have hheap' := hheap.step hs
    obtain ⟨-, rfl⟩ := hs
    refine ⟨hheap', h.kernel.congr rfl rfl rfl rfl, h.openEnd.congr rfl fun _ => rfl, ?_⟩
    exact ⟨h.ready.aligned, h.ready.preallocPt, h.ready.preallocPd, h.ready.preallocPdpt⟩

/-! ### Setting up -/

/-- `kheap_end = e` -/
def Machine.setEnd (m : Machine) (e : ℕ) : Machine := { m with kheapEnd := e }

/-- `map_page_prealloc` does not look where the heap ends. -/
theorem usePrealloc_setEnd {memset drop : Machine → Machine} {p root d : ℕ}
    (hset : ∀ m : Machine, memset (m.setEnd e) = (memset m).setEnd e)
    (hdrop : ∀ m : Machine, drop (m.setEnd e) = (drop m).setEnd e) :
    usePrealloc (m.setEnd e) p memset drop root d i =
      (usePrealloc m p memset drop root d i).map (·.setEnd e) := by
  have hdirs : (m.setEnd e).dirs = m.dirs := rfl
  have hvirt : (m.setEnd e).setVirt d i p = (m.setVirt d i p).setEnd e := rfl
  rw [usePrealloc, usePrealloc]
  simp only [hdirs, hvirt, hset]
  split_ifs
  · rfl
  · rfl
  · exact congrArg some (hdrop (((memset (m.setVirt d i p)).setFull d i false).setEntry d i _))

theorem mapPagePrealloc_setEnd {virt phys root : ℕ} {kernel write : Bool} :
    mapPagePrealloc (m.setEnd e) virt phys kernel write root =
      (mapPagePrealloc m virt phys kernel write root).map fun r => (r.1, r.2.setEnd e) := by
  have hpdpt : ∀ {m : Machine} {i}, usePreallocPdpt (m.setEnd e) root i =
      (usePreallocPdpt m root i).map (·.setEnd e) :=
    usePrealloc_setEnd (fun _ => rfl) fun _ => rfl
  have hpd : ∀ {m : Machine} {d i}, usePreallocPd (m.setEnd e) root d i =
      (usePreallocPd m root d i).map (·.setEnd e) :=
    usePrealloc_setEnd (fun _ => rfl) fun _ => rfl
  have hpt : ∀ {m : Machine} {d i}, usePreallocPt (m.setEnd e) root d i =
      (usePreallocPt m root d i).map (·.setEnd e) :=
    usePrealloc_setEnd (fun _ => rfl) fun _ => rfl
  have hpage : ∀ {m : Machine} {pt}, setPage (m.setEnd e) pt virt phys kernel write =
      ((setPage m pt virt phys kernel write).1,
        (setPage m pt virt phys kernel write).2.setEnd e) := by
    intro m pt
    have htabs : (m.setEnd e).tabs = m.tabs := rfl
    rw [setPage, setPage, htabs]
    split_ifs
    · rfl
    · rfl
  have hused : (m.setEnd e).frameUsed phys = m.frameUsed phys := rfl
  rw [mapPagePrealloc, mapPagePrealloc, hused]
  split_ifs
  · rfl
  · simp only [Option.bind_eq_bind, hpdpt, hpd, hpt, hpage, Option.bind_map, Option.map_bind,
      Function.comp_def, Option.pure_def, Option.map_some]
    rfl

/-- **The first pages are mapped as those behind a heap** that ends before them. -/
theorem expandPages_setEnd (hi : 0 < i) :
    expandPages src n (m.setEnd (i - 1)) =
      (initPages src n i m).map (·.setEnd (i - 1 + 0x1000 * n)) := by
  induction n generalizing m i with
  | zero => rfl
  | succ n ih =>
    have hstart : (m.setEnd (i - 1)).kheapEnd + 1 = i := Nat.sub_add_cancel hi
    have hbitmap : (m.setEnd (i - 1)).bitmap = m.bitmap := rfl
    have hroot : (m.setEnd (i - 1)).kernelPml4 = m.kernelPml4 := rfl
    have hend : i + 0x1000 - 1 = i - 1 + 0x1000 := by omega
    have hend' : i - 1 + 0x1000 + 0x1000 * n = i - 1 + 0x1000 * (n + 1) := by omega
    rw [expandPages, initPages, hbitmap]
    cases m.bitmap with
    | none => rfl
    | some b =>
      simp only [Option.bind_eq_bind, Option.bind_some]
      cases src.next b with
      | none => rfl
      | some phys =>
        simp only [Option.bind_some, hstart, hroot, mapPagePrealloc_setEnd]
        cases mapPagePrealloc m i phys true true m.kernelPml4 with
        | none => rfl
        | some r =>
          obtain ⟨ok, m₁⟩ := r
          cases ok with
          | false => rfl
          | true =>
            have hnext := ih (m := m₁) (Nat.add_pos_left hi 0x1000)
            rw [hend, hend'] at hnext
            exact hnext

/-- The machine with a heap of no bytes at `kheap`. -/
def Machine.emptyHeap (m : Machine) (kheap : ℕ) : Machine :=
  { m with kheap := kheap, kheapEnd := kheap - 1, live := [] }

theorem BeforeHeap.emptyHeap {kheap : ℕ} (h : BeforeHeap m kheap) :
    KernelInv (m.emptyHeap kheap) [] [] ∧ OpenEnd (m.emptyHeap kheap) ∧ 0 < kheap ∧
      (m.emptyHeap kheap).kheap ≤ (m.emptyHeap kheap).kheapEnd + 1 := by
  obtain ⟨hmod, hlt, hkernel, habsent⟩ := h
  have hk : virtMemOffset ≤ kheap := hkernel.kheap_le
  have hoff := virtMemOffset_le_iff.mp hk
  refine ⟨hkernel.congr rfl rfl rfl rfl, ⟨?_, ?_, fun v hv hvlt => habsent v ?_ hvlt⟩, by omega, ?_⟩
  · show (kheap - 1 + 1) % 0x1000 = 0
    omega
  · show virtMemOffset ≤ kheap - 1 + 1
    omega
  · have hv' : kheap - 1 < v := hv
    omega
  · show kheap ≤ kheap - 1 + 1
    omega

/-- A header at `kheap`, of a free block that is the only one. -/
def firstHeader (kheap length : ℕ) (mem : Mem) : Mem :=
  setPrev
    (setNext (setFree (setLength (setMagic mem kheap heapMagic) kheap length) kheap true) kheap 0)
    kheap 0

/-- **The heap is built as one that grows** from no bytes, and gets its first header. -/
theorem initHeap_eq {kheap : ℕ} (hpos : 0 < kheap) : initHeap src m kheap =
    (expandPages src 512 (m.emptyHeap kheap)).map fun m =>
      { m with
        mem := firstHeader kheap (kheap + 512 * 0x1000 - 1 - kheap - heapHeaderSize) m.mem } := by
  obtain ⟨x, hx⟩ : ∃ x : Machine, x = { m with
    kheap := kheap, kheapEnd := kheap + 512 * 0x1000 - 1, live := [] } := ⟨_, rfl⟩
  have hempty : m.emptyHeap kheap = x.setEnd (kheap - 1) := by rw [hx]; rfl
  have hend : kheap - 1 + 0x1000 * 512 = kheap + 512 * 0x1000 - 1 := by omega
  rw [hempty, expandPages_setEnd hpos, hend, initHeap, ← hx]
  cases hpages : initPages src 512 kheap x with
  | none => rfl
  | some mp =>
    have hself : mp.setEnd (kheap + 512 * 0x1000 - 1) = mp := by
      have hmp : mp.kheapEnd = kheap + 512 * 0x1000 - 1 := by
        rw [(initPages_eq hpages).kheapEnd, hx]
      rw [Machine.setEnd, ← hmp]
    rw [Option.map_some, Option.map_some, hself]
    rfl

/-- Where the heap has not grown, no frame has been taken. -/
theorem Growth.bitmap_eq (h : Growth roots m m') (hend : m'.kheapEnd = m.kheapEnd) :
    m'.bitmap = m.bitmap := by
  induction h with
  | refl => rfl
  | tail hgrow hev ih =>
    obtain ⟨-, -, -, hle, -⟩ := Growth.same hgrow
    rcases hev with hev | ⟨phys, hev⟩
    · rw [hev.bitmap]
      exact ih (hev.kheapEnd.symm.trans hend)
    · have hpage := hev.kheapEnd
      omega

/-- **The rest of `memory_init` succeeds**, and the heap that it leaves can grow. -/
theorem BeforeHeap.initPreallocs {m₁ : Machine} {kheap : ℕ} (h : BeforeHeap m kheap)
    (hbuild : initHeap src m kheap = some m₁) :
    ∃ m', (∀ n, Xana.initPreallocs src (n + 1) m₁ = some m') ∧ GrowInv m' ∧ HasRoom m' 0x1F7000 ∧
      m'.kheapEnd = kheap - 1 + 0x200000 ∧ m'.bitmap = m₁.bitmap := by
  obtain ⟨hkernel₀, hopen₀, hpos, hle₀⟩ := h.emptyHeap
  have hlt := h.kheap_lt
  have hmod := h.kheap_mod
  obtain ⟨k, hk₁, hheap₁⟩ := HeapBuilt.inv_singleton ⟨m, kheap, hpos, hmod, hlt.le, hbuild⟩
  -- the first pages
  rw [initHeap_eq hpos] at hbuild
  obtain ⟨mp, hexp, hm₁⟩ := Option.map_eq_some_iff.mp hbuild
  obtain ⟨-, -, hlive, -, hend⟩ := expandPages_eq hexp
  have hendp : mp.kheapEnd = kheap - 1 + 0x1000 * 512 := hend
  have hend₁ : m₁.kheapEnd = kheap - 1 + 0x1000 * 512 := by
    rw [← hm₁]
    exact hend
  obtain ⟨hkernelp, hgrow⟩ := hkernel₀.expandPages hle₀ (by omega) hexp
  have hopen₁ : OpenEnd m₁ := by
    rw [← hm₁]
    exact (hgrow.openEnd hopen₀).congr rfl fun _ => rfl
  have hkernel₁ : KernelInv m₁ m₁.live [] := by
    have hlive₁ : m₁.live = [] := by
      rw [← hm₁]
      exact hlive
    rw [hlive₁, ← hm₁]
    exact hkernelp.congr rfl rfl rfl rfl
  -- the preallocated tables
  have hpt : roomFor pageTableSize = 8250 := rfl
  have hpd : roomFor pageDirectorySize = 12866 := rfl
  have hsize : pageDirectorySize = 8712 := rfl
  have hroom₁ : HasRoom m₁ k := ⟨[], _, hheap₁, rfl, le_rfl⟩
  obtain ⟨m₂, h₂, hend₂, hroom₂, hpd₂, -, -⟩ := hroom₁.refillPd (by omega) (by omega)
  obtain ⟨m₃, h₃, hend₃, hroom₃, hpdpt₃, -, hpd₃⟩ := hroom₂.refillPdpt (by omega) (by omega)
  obtain ⟨m₄, h₄, hend₄, hroom₄, hpt₄, hpd₄, hpdpt₄⟩ := hroom₃.refillPt (by omega) (by omega)
  obtain ⟨⟨l₂, hheap₂⟩, hkernel₂, hgrow₂, -⟩ := hheap₁.refill_grows hkernel₁ allocGrows_allocNow
    (by omega) (Or.inr (Or.inl (h₂ _ allocatesNow_allocNow)))
  obtain ⟨⟨l₃, hheap₃⟩, hkernel₃, hgrow₃, -⟩ := hheap₂.refill_grows hkernel₂ allocGrows_allocNow
    (by omega) (Or.inr (Or.inr (h₃ _ allocatesNow_allocNow)))
  obtain ⟨⟨l₄, hheap₄⟩, hkernel₄, hgrow₄, -⟩ := hheap₃.refill_grows hkernel₃ allocGrows_allocNow
    (by omega) (Or.inl (h₄ _ allocatesNow_allocNow))
  have hgrow : Growth [] m₁ m₄ := hgrow₂.trans (hgrow₃.trans hgrow₄)
  refine ⟨m₄, fun n => ?_,
    ⟨⟨l₄, hheap₄⟩, hkernel₄, hgrow.openEnd hopen₁, hheap₄.end_mod, hpt₄, ?_, ?_⟩,
    hroom₄.mono (by omega), by omega, hgrow.bitmap_eq (by omega)⟩
  · simp only [Xana.initPreallocs, h₂ _ allocatesNow_kmallocA, h₃ _ allocatesNow_kmallocA,
      h₄ _ allocatesNow_kmallocA, Option.bind_eq_bind, Option.bind_some]
  · rwa [hpd₄, hpd₃]
  · rwa [hpdpt₄]

theorem MemoryInit.growInv (h : MemoryInit src m) : GrowInv m := by
  obtain ⟨m₀, kheap, m₁, n, hbefore, hbuild, hrefill⟩ := h
  obtain ⟨m', hrun, hinv, -⟩ := hbefore.initPreallocs hbuild
  obtain rfl := Option.some.inj ((hrun n).symm.trans hrefill)
  exact hinv

theorem growInv_of_reach (h : Reach (HeapStep src) anyStep (MemoryInit src) m) : GrowInv m :=
  h.invariant (fun _ hs => hs.growInv) fun _ _ _ hinv _ hs => hinv.step hs

end Runs

/-! ### A heap that grows once -/

section Boot

variable {src : FrameSource} {m m' : Machine} {c k n p root d i : ℕ}

theorem bitmap_usePrealloc {memset drop : Machine → Machine}
    (hset : ∀ m, (memset m).bitmap = m.bitmap) (hdrop : ∀ m, (drop m).bitmap = m.bitmap)
    (h : usePrealloc m p memset drop root d i = some m') : m'.bitmap = m.bitmap := by
  rw [usePrealloc] at h
  split_ifs at h
  · obtain rfl := Option.some.inj h
    rfl
  · obtain rfl := Option.some.inj h
    rw [hdrop]
    exact hset _

theorem bitmap_mapPagePrealloc {virt phys : ℕ} {kernel write : Bool}
    (h : mapPagePrealloc m virt phys kernel write root = some (true, m')) :
    m'.bitmap = m.bitmap.map fun b => Function.update b (phys / 0x1000) true := by
  rw [mapPagePrealloc] at h
  split_ifs at h
  simp only [Option.bind_eq_bind, Option.pure_def, Option.bind_eq_some_iff, Option.some.injEq] at h
  obtain ⟨m₁, h₁, m₂, h₂, m₃, h₃, h₄⟩ := h
  rw [usePreallocPdpt] at h₁
  rw [usePreallocPd] at h₂
  rw [usePreallocPt] at h₃
  have hb₁ : m₁.bitmap = m.bitmap := by
    refine bitmap_usePrealloc ?_ ?_ h₁
    all_goals exact fun _ => rfl
  have hb₂ : m₂.bitmap = m₁.bitmap := by
    refine bitmap_usePrealloc ?_ ?_ h₂
    all_goals exact fun _ => rfl
  have hb₃ : m₃.bitmap = m₂.bitmap := by
    refine bitmap_usePrealloc ?_ ?_ h₃
    all_goals exact fun _ => rfl
  rw [setPage] at h₄
  split_ifs at h₄
  · exact absurd (congrArg Prod.fst h₄) (by simp)
  · obtain ⟨-, rfl⟩ := Prod.mk.inj h₄
    rw [← hb₁, ← hb₂, ← hb₃]
    rfl

/-- **The frames of a heap that grows** are the next ones. -/
theorem bitmap_expandPages (hc : c ≤ 2 ^ 40) (h : expandPages (firstOf c hc) n m = some m')
    (hb : m.bitmap = some (usedBelow k)) (hle : k + n ≤ c) :
    m'.bitmap = some (usedBelow (k + n)) := by
  induction n generalizing m k with
  | zero =>
    obtain rfl := Option.some.inj h
    exact hb
  | succ n ih =>
    have hnext := firstOf_usedBelow hc (k := k) (by omega)
    simp only [expandPages, hb, hnext, Option.bind_eq_bind, Option.bind_some,
      Option.bind_eq_some_iff] at h
    obtain ⟨⟨ok, m₁⟩, hmap, h⟩ := h
    split_ifs at h with hok
    simp only at hok
    subst hok
    have hb₁ := bitmap_mapPagePrealloc hmap
    rw [hb, Option.map_some, Nat.mul_div_cancel _ (by decide), update_usedBelow] at hb₁
    have hrest := ih (k := k + 1) h hb₁ (by omega)
    rw [hrest]
    congr 2
    omega

/-- There are frames for a heap that grows. -/
theorem frames_firstOf (hc : c ≤ 2 ^ 40) (hb : m.bitmap = some (usedBelow k)) (hle : k + n ≤ c) :
    ∀ j < n, ∀ m', expandPages (firstOf c hc) j m = some m' →
      ∃ b phys, m'.bitmap = some b ∧ (firstOf c hc).next b = some phys := by
  intro j hj m' hexp
  exact ⟨_, _, bitmap_expandPages hc hexp hb (by omega), firstOf_usedBelow hc (by omega)⟩

/-- The machine of `copyMachine`, with preallocated tables. -/
def growMachine : Machine :=
  { copyMachine with preallocPdpt := 0x8000, preallocPd := 0xC000, preallocPt := 0x10000 }

/-- The first of 4096 frames. -/
def growFrames : FrameSource := firstOf 4096 (by decide)

theorem beforeHeap_growMachine : BeforeHeap growMachine copyHeap where
  kheap_mod := by decide
  kheap_lt := by decide
  kernel := by
    have hk := kernelInv_copyMachine
    have hkey : ∀ {r q}, SpaceKey growMachine.kernelPml4 [] r q →
        SpaceKey copyMachine.kernelPml4 [0x10000] r q ∧ r = 0x1000 := by
      rintro r q ⟨hr | hr, hlen⟩
      · exact ⟨⟨Or.inl hr, hlen⟩, hr⟩
      · simp at hr
    -- no table of the kernel is a preallocated one
    have hwalk : ∀ {r q t}, SpaceKey growMachine.kernelPml4 [] r q → t ≠ 0x1000 → t ≠ 0x4000 →
        walk growMachine.kid r q ≠ some t := by
      intro r q t hq h₁ h₄ hw
      obtain ⟨-, hr⟩ := hkey hq
      rcases walk_copyMachine hw with ⟨-, rfl⟩ | ⟨-, -, rfl⟩
      · exact h₁ hr
      · exact h₄ rfl
    refine ⟨⟨⟨SpaceKey.init, ?_⟩, fun hq => hq.2, ?_⟩, ?_, ?_, hk.kheap_le, hk.kernelHalf⟩
    · intro r r' t q q' hq hq' hw hw'
      exact hk.tree.unshared.inj (hkey hq).1 (hkey hq').1 hw hw'
    · intro r q t hq hw
      exact hk.tree.held (hkey hq).1 hw
    · rw [forall_preallocs]
      exact ⟨fun _ => ⟨Or.inr (by decide), fun r q hq => hwalk hq (by decide) (by decide)⟩,
        fun _ => ⟨Or.inr (by decide), fun r q hq => hwalk hq (by decide) (by decide)⟩,
        fun _ => ⟨Or.inr (by decide), fun r q hq => hwalk hq (by decide) (by decide)⟩⟩
    · rw [pairwise_preallocs]
      decide
  absent := by
    intro v _ _
    refine entry_of_none ?_
    cases hw : walk growMachine.kid growMachine.kernelPml4 (slots v) with
    | none => rfl
    | some t =>
      rcases walk_copyMachine hw with ⟨hq, -⟩ | ⟨hq, -⟩
      all_goals exact absurd (congrArg List.length hq) (by simp [slots])

theorem exists_memoryInit : ∃ m, MemoryInit growFrames m ∧ HasRoom m 0x1F7000 ∧
    m.kheapEnd = 0xFFFFFF80401FFFFF ∧ m.bitmap = some (usedBelow 528) := by
  have hbefore := beforeHeap_growMachine
  obtain ⟨hkernel, hopen, hpos, hle⟩ := hbefore.emptyHeap
  have hbitmap : (growMachine.emptyHeap copyHeap).bitmap = some (usedBelow 16) := rfl
  obtain ⟨mp, hexp⟩ := hkernel.expandPages_isSome growFrames (n := 512) hopen hle (by decide)
    (by decide) (frames_firstOf _ hbitmap (by decide)) fun _ => Or.inr ⟨by decide, by decide⟩
  have hmp := bitmap_expandPages _ hexp hbitmap (by decide)
  obtain ⟨m₁, hbuild, hb₁⟩ : ∃ m₁, initHeap growFrames growMachine copyHeap = some m₁ ∧
      m₁.bitmap = mp.bitmap := by
    rw [initHeap_eq hpos, hexp]
    exact ⟨_, rfl, rfl⟩
  obtain ⟨m, hrun, -, hroom, hend, hb⟩ := hbefore.initPreallocs hbuild
  exact ⟨m, ⟨growMachine, copyHeap, m₁, 0, hbefore, hbuild, hrun 0⟩, hroom, hend,
    hb.trans (hb₁.trans hmp)⟩

end Boot

end Xana
