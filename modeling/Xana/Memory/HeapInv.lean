import Xana.Memory.Alloc

/-!
# The heap invariant

`HeapInv m l`: the heap of the machine `m` is cut into the blocks `l`. Each of
`kmalloc_int`, `kfree_int` and `heap_expand` keeps such a cut
(`HeapInv.kmallocInt`, `HeapInv.freeBlock`), as long as no address wraps.

A call of `kmalloc_int` may call itself, from `heap_expand` and at its end, so its
lemma is by induction on the number of calls. Addresses do not wrap on the way if
they do not at the end, since the heap only grows (`Grown`).
-/

namespace Xana

open Mem

/-- **The heap is cut into the blocks `l`**, and the chunks in use are the live ones. -/
structure HeapInv (m : Machine) (l : List Block) : Prop where
  listed : Listed m.mem m.kheap 0 l 0
  ne_nil : l ≠ []
  end_eq : endOf heapHeaderSize m.kheap l = m.kheapEnd
  placed : InBlocks heapHeaderSize m.kheap l
  noFreePair : NoFreePair l
  live : (chunks l).Perm m.live
  kheap_pos : 0 < m.kheap
  end_mod : (m.kheapEnd + 1) % 0x200000 = 0
  lt : m.kheapEnd < 2 ^ 64

/-- What paging leaves alone. -/
structure SameHeap (m m' : Machine) : Prop where
  mem : m'.mem = m.mem
  kheap : m'.kheap = m.kheap
  kheapEnd : m'.kheapEnd = m.kheapEnd
  live : m'.live = m.live
  kernelPml4 : m'.kernelPml4 = m.kernelPml4

/-- The heap has grown, or it has not, and nothing has been given back. -/
structure Grown (m m' : Machine) : Prop where
  kheap : m'.kheap = m.kheap
  kernelPml4 : m'.kernelPml4 = m.kernelPml4
  kheapEnd : ∃ k, m'.kheapEnd = m.kheapEnd + 0x200000 * k
  live : m.live ⊆ m'.live

section Paging

variable {m m' m'' : Machine}

theorem SameHeap.refl (m : Machine) : SameHeap m m := ⟨rfl, rfl, rfl, rfl, rfl⟩

theorem SameHeap.trans (h : SameHeap m m') (h' : SameHeap m' m'') : SameHeap m m'' :=
  ⟨h'.mem.trans h.mem, h'.kheap.trans h.kheap, h'.kheapEnd.trans h.kheapEnd, h'.live.trans h.live,
    h'.kernelPml4.trans h.kernelPml4⟩

theorem Grown.refl (m : Machine) : Grown m m := ⟨rfl, rfl, ⟨0, rfl⟩, fun _ hu => hu⟩

theorem Grown.trans (h : Grown m m') (h' : Grown m' m'') : Grown m m'' := by
  obtain ⟨hk, hp, ⟨k, he⟩, hl⟩ := h
  obtain ⟨hk', hp', ⟨k', he'⟩, hl'⟩ := h'
  exact ⟨hk'.trans hk, hp'.trans hp, ⟨k + k', by rw [he', he]; omega⟩, List.Subset.trans hl hl'⟩

theorem Grown.le (h : Grown m m') : m.kheapEnd ≤ m'.kheapEnd := by
  obtain ⟨-, -, ⟨k, he⟩, -⟩ := h
  omega

theorem SameHeap.grown (h : SameHeap m m') : Grown m m' :=
  ⟨h.kheap, h.kernelPml4, ⟨0, h.kheapEnd⟩, fun _ hu => by rwa [h.live]⟩

/-- The cut is the same when the heap is. -/
theorem HeapInv.congr {l : List Block} (h : HeapInv m l) (hs : SameHeap m m') : HeapInv m' l := by
  obtain ⟨hmem, hk, he, hl, -⟩ := hs
  obtain ⟨h₁, h₂, h₃, h₄, h₅, h₆, h₇, h₈, h₉⟩ := h
  exact ⟨by rwa [hmem, hk], h₂, by rwa [hk, he], by rwa [hk], h₅, by rwa [hl], by rwa [hk],
    by rwa [he], by rwa [he]⟩

theorem sameHeap_usePrealloc {p root d i : ℕ} {memset drop : Machine → Machine}
    (hset : ∀ m, SameHeap m (memset m)) (hdrop : ∀ m, SameHeap m (drop m))
    (h : usePrealloc m p memset drop root d i = some m') : SameHeap m m' := by
  rw [usePrealloc] at h
  split_ifs at h
  · obtain rfl := Option.some.inj h
    exact SameHeap.refl m
  · obtain rfl := Option.some.inj h
    have hvirt : SameHeap m (m.setVirt d i p) := ⟨rfl, rfl, rfl, rfl, rfl⟩
    refine (hvirt.trans (hset _)).trans (SameHeap.trans ?_ (hdrop _))
    exact ⟨rfl, rfl, rfl, rfl, rfl⟩

theorem sameHeap_usePreallocPdpt {root i : ℕ} (h : usePreallocPdpt m root i = some m') :
    SameHeap m m' := by
  rw [usePreallocPdpt] at h
  refine sameHeap_usePrealloc ?_ ?_ h
  all_goals exact fun _ => ⟨rfl, rfl, rfl, rfl, rfl⟩

theorem sameHeap_usePreallocPd {root d i : ℕ} (h : usePreallocPd m root d i = some m') :
    SameHeap m m' := by
  rw [usePreallocPd] at h
  refine sameHeap_usePrealloc ?_ ?_ h
  all_goals exact fun _ => ⟨rfl, rfl, rfl, rfl, rfl⟩

theorem sameHeap_usePreallocPt {root d i : ℕ} (h : usePreallocPt m root d i = some m') :
    SameHeap m m' := by
  rw [usePreallocPt] at h
  refine sameHeap_usePrealloc ?_ ?_ h
  all_goals exact fun _ => ⟨rfl, rfl, rfl, rfl, rfl⟩

theorem sameHeap_setPage {pt virt phys : ℕ} {k w ok : Bool}
    (h : setPage m pt virt phys k w = (ok, m')) : SameHeap m m' := by
  rw [setPage] at h
  split_ifs at h
  · obtain ⟨-, rfl⟩ := Prod.mk.inj h
    exact SameHeap.refl m
  · obtain ⟨-, rfl⟩ := Prod.mk.inj h
    exact ⟨rfl, rfl, rfl, rfl, rfl⟩

/-- **`map_page_prealloc` leaves the heap alone.** -/
theorem sameHeap_mapPagePrealloc {virt phys root : ℕ} {k w ok : Bool}
    (h : mapPagePrealloc m virt phys k w root = some (ok, m')) : SameHeap m m' := by
  rw [mapPagePrealloc] at h
  split_ifs at h
  simp only [Option.bind_eq_bind, Option.pure_def, Option.bind_eq_some_iff, Option.some.injEq] at h
  obtain ⟨m₁, h₁, m₂, h₂, m₃, h₃, h₄⟩ := h
  exact (((sameHeap_usePreallocPdpt h₁).trans (sameHeap_usePreallocPd h₂)).trans
    (sameHeap_usePreallocPt h₃)).trans (sameHeap_setPage h₄)

/-- What the loops that map heap pages do to the heap. -/
theorem expandPages_eq {src : FrameSource} {n : ℕ} (h : expandPages src n m = some m') :
    m'.mem = m.mem ∧ m'.kheap = m.kheap ∧ m'.live = m.live ∧ m'.kernelPml4 = m.kernelPml4 ∧
      m'.kheapEnd = m.kheapEnd + 0x1000 * n := by
  induction n generalizing m with
  | zero =>
    obtain rfl := Option.some.inj h
    exact ⟨rfl, rfl, rfl, rfl, rfl⟩
  | succ n ih =>
    simp only [expandPages, Option.bind_eq_bind, Option.bind_eq_some_iff] at h
    obtain ⟨b, -, phys, -, ⟨ok, m₁⟩, hmap, h⟩ := h
    split_ifs at h
    have hs := sameHeap_mapPagePrealloc hmap
    obtain ⟨hmem, hk, hl, hp, he⟩ := ih h
    refine ⟨hmem.trans hs.mem, hk.trans hs.kheap, hl.trans hs.live, hp.trans hs.kernelPml4, ?_⟩
    have hend : m₁.kheapEnd = m.kheapEnd := hs.kheapEnd
    rw [he]
    change m₁.kheapEnd + 0x1000 + 0x1000 * n = _
    omega

theorem initPages_eq {src : FrameSource} {n i : ℕ} (h : initPages src n i m = some m') :
    SameHeap m m' := by
  induction n generalizing m i with
  | zero =>
    obtain rfl := Option.some.inj h
    exact SameHeap.refl m
  | succ n ih =>
    simp only [initPages, Option.bind_eq_bind, Option.bind_eq_some_iff] at h
    obtain ⟨b, -, phys, -, ⟨ok, m₁⟩, hmap, h⟩ := h
    split_ifs at h
    exact (sameHeap_mapPagePrealloc hmap).trans (ih h)

end Paging

/-! ### Walks -/

section Walks

variable {m : Mem} {a prev n x : ℕ} {b : Block} {l : List Block} {fits : ℕ → Bool}

/-- **The search** returns the header of a block that fits. -/
theorem Listed.findHeader (h : Listed m a prev l 0) (ha : 0 < a)
    (hx : findHeader m fits n (headOr a l 0) = some (some x)) :
    ∃ l₁ b l₂, l = l₁ ++ b :: l₂ ∧ x = endOf heapHeaderSize a l₁ ∧ fits x = true := by
  induction n generalizing a prev l with
  | zero => simp [Xana.findHeader] at hx
  | succ n ih =>
    cases l with
    | nil => simp [Xana.findHeader] at hx
    | cons b l =>
      rw [headOr_cons, Xana.findHeader, if_neg ha.ne'] at hx
      by_cases hfits : fits a = true
      · rw [if_pos hfits] at hx
        obtain rfl : a = x := by simpa using hx
        exact ⟨[], b, l, rfl, rfl, hfits⟩
      · rw [if_neg hfits, h.1] at hx
        obtain ⟨l₁, c, l₂, rfl, rfl, hc⟩ := ih h.2 (by omega) hx
        exact ⟨b :: l₁, c, l₂, rfl, rfl, hc⟩

/-- **The end of the list.** -/
theorem Listed.lastHeader (h : Listed m a prev (l ++ [b]) 0) (ha : 0 < a)
    (hx : lastHeader m n a = some x) : x = endOf heapHeaderSize a l := by
  induction n generalizing a prev l with
  | zero => simp [Xana.lastHeader] at hx
  | succ n ih =>
    rw [Xana.lastHeader] at hx
    cases l with
    | nil =>
      have h0 : (header m a).next = 0 := by rw [h.1]; rfl
      rw [if_pos h0] at hx
      exact (Option.some.inj hx).symm
    | cons c l =>
      have hnext : (header m a).next = a + heapHeaderSize + c.length := by
        rw [h.1]
        exact headOr_of_ne_nil _ _ (by simp)
      rw [if_neg (by omega), hnext] at hx
      have hrest : Listed m (a + heapHeaderSize + c.length) a (l ++ [b]) 0 := h.2
      have hlast := ih hrest (by omega) hx
      exact hlast

end Walks

/-! ### Allocating -/

section Allocating

variable {m m' : Machine} {l l₁ l₂ : List Block} {b : Block} {u : Chunk}

theorem HeapInv.lt_of_append (h : HeapInv m (l₁ ++ b :: l₂)) :
    endOf heapHeaderSize m.kheap (l₁ ++ b :: l₂) < 2 ^ 64 := by
  rw [h.end_eq]
  exact h.lt

/-- The cut may be another one, where the heap begins and ends as before. -/
theorem HeapInv.edit (h : HeapInv m l) {l' : List Block} {mem : Mem} {live : List Chunk}
    (hlisted : Listed mem m.kheap 0 l' 0) (hne : l' ≠ [])
    (hend : endOf heapHeaderSize m.kheap l' = endOf heapHeaderSize m.kheap l)
    (hplaced : InBlocks heapHeaderSize m.kheap l') (hpair : NoFreePair l')
    (hlive : (chunks l').Perm live) : HeapInv { m with mem := mem, live := live } l' :=
  ⟨hlisted, hne, hend.trans h.end_eq, hplaced, hpair, hlive, h.kheap_pos, h.end_mod, h.lt⟩

/-- A free block is replaced by what is left of it and the block that is taken. -/
theorem HeapInv.take (h : HeapInv m (l₁ ++ b :: l₂)) (hfree : b.free = true) {mem : Mem}
    (hlisted : Listed mem m.kheap 0 (l₁ ++ (l ++ l₂)) 0)
    (hcut : Cut (endOf heapHeaderSize m.kheap l₁) b.length u l) :
    HeapInv { m with mem := mem, live := u :: m.live } (l₁ ++ (l ++ l₂)) := by
  obtain ⟨hend, hplaced, hchunks, hpair⟩ := hcut
  obtain ⟨hplaced₁, -, hplaced₂⟩ := inBlocks_append.mp h.placed
  have hlive := h.live
  rw [chunks_append, chunks_cons_of_free hfree] at hlive
  refine h.edit hlisted ?_ ?_ ?_ (h.noFreePair.replace hfree hpair) ?_
  · intro hnil
    simp only [List.append_eq_nil_iff] at hnil
    simp [hnil.2.1] at hchunks
  · rw [endOf_append, endOf_append, endOf_append, hend, endOf_cons]
  · refine inBlocks_append.mpr ⟨hplaced₁, inBlocks_append.mpr ⟨hplaced, ?_⟩⟩
    rwa [hend]
  · rw [chunks_append, chunks_append, hchunks]
    exact List.perm_middle.trans (hlive.cons u)

/-- A block behind a request was there before, or it is one of those that are new. -/
theorem mem_of_mem_take {c : Block} (hc : c ∈ l₁ ++ (l ++ l₂)) : c ∈ l₁ ++ b :: l₂ ∨ c ∈ l := by
  rw [List.mem_append, List.mem_append] at hc
  rw [List.mem_append, List.mem_cons]
  tauto

/-- A block in use stays where a free one is taken. -/
theorem mem_take_of_used {c : Block} (hfree : b.free = true) (hc : c ∈ l₁ ++ b :: l₂)
    (hused : c.free = false) : c ∈ l₁ ++ (l ++ l₂) := by
  rw [List.mem_append, List.mem_cons] at hc
  rw [List.mem_append, List.mem_append]
  rcases hc with hc | rfl | hc
  · exact Or.inl hc
  · simp [hfree] at hused
  · exact Or.inr (Or.inr hc)

/-- The only chunk among the new blocks. -/
theorem Cut.eq_of_use {h n : ℕ} {c : Block} {v : Chunk} (hcut : Cut h n u l) (hc : c ∈ l)
    (hv : c.use = some v) : v = u := by
  have hmem : v ∈ chunks l := List.mem_filterMap.mpr ⟨c, hc, hv⟩
  rw [hcut.chunks_eq] at hmem
  exact List.mem_singleton.mp hmem

/-- The search of `kmalloc_int` begins at the first header. -/
theorem HeapInv.headOr_eq (h : HeapInv m l) : headOr m.kheap l 0 = m.kheap :=
  headOr_of_ne_nil _ _ h.ne_nil

/-- **One search**, when it finds a block. -/
theorem HeapInv.tryAlloc {size p : ℕ} {align : Bool} (h : HeapInv m l)
    (hwrap : m.kheapEnd + 0xFFF + size < 2 ^ 64)
    (halloc : m.tryAlloc size align = some (some (p, m'))) :
    ∃ mem l', m' = { m with mem := mem, live := ⟨p, size, align⟩ :: m.live } ∧ HeapInv m' l' ∧
      (∀ c ∈ l, c.free = false → c ∈ l') ∧
      ∀ c ∈ l', ∀ u, c.use = some u → u.aligned = false →
        c ∈ l ∨ c.length ≤ u.size + heapHeaderSize := by
  simp only [Machine.tryAlloc, Option.bind_eq_bind, Option.bind_eq_some_iff] at halloc
  obtain ⟨r, hfind, halloc⟩ := halloc
  cases r with
  | none => simp at halloc
  | some x =>
    simp only [Option.bind_eq_some_iff, Option.pure_def, Option.some.injEq, Prod.mk.injEq] at halloc
    obtain ⟨mem, hmem, rfl, rfl⟩ := halloc
    rw [← h.headOr_eq] at hfind
    obtain ⟨l₁, b, l₂, rfl, rfl, hfits⟩ := h.listed.findHeader h.kheap_pos hfind
    have hheader := h.listed.header_eq
    have hle : endOf heapHeaderSize m.kheap l₁ + heapHeaderSize + b.length ≤ m.kheapEnd := by
      rw [← h.end_eq, endOf_append, endOf_cons]
      exact le_endOf
    cases align with
    | true =>
      have hup : endOf heapHeaderSize m.kheap l₁ + heapHeaderSize + 0xFFF < 2 ^ 64 := by omega
      have hal := alignUp_eq hup
      simp only [if_true, fitsAligned, hheader, Bool.and_eq_true, decide_eq_true_eq] at hfits
      obtain ⟨hfits, hfree⟩ := hfits
      rw [Nat.mod_eq_of_lt (by omega)] at hfits
      obtain ⟨l, r, hl, hcut, -⟩ := h.listed.takeAligned h.lt_of_append hup hfits hfree hmem
      refine ⟨mem, _, rfl, h.take hfree hl hcut, fun c => mem_take_of_used hfree,
        fun c hc u hu hal => ?_⟩
      refine (mem_of_mem_take hc).imp_right fun hcl => ?_
      obtain rfl := hcut.eq_of_use hcl hu
      simp at hal
    | false =>
      simp only [Bool.false_eq_true, if_false, fitsUnaligned, hheader, Bool.and_eq_true,
        decide_eq_true_eq] at hfits
      obtain ⟨hfits, hfree⟩ := hfits
      obtain ⟨l, r, hl, hcut, -, hlong⟩ := h.listed.takeUnaligned h.lt_of_append hfits
      obtain rfl : _ = mem := Option.some.inj hmem
      refine ⟨_, _, rfl, h.take hfree hl hcut, fun c => mem_take_of_used hfree,
        fun c hc u hu hal => ?_⟩
      refine (mem_of_mem_take hc).imp_right fun hcl => ?_
      obtain rfl := hcut.eq_of_use hcl hu
      exact hlong c hcl (by simp [Block.free, hu])

/-! ### Growing -/

/-- **The last header takes the new pages**, or a new one does. -/
theorem HeapInv.growLast {m₁ m₂ : Machine} (h : HeapInv m l) (hmem : m₁.mem = m.mem)
    (hkheap : m₁.kheap = m.kheap) (hlive : m₁.live = m.live)
    (hend : m₁.kheapEnd = m.kheapEnd + 0x200000) (hlt : m₁.kheapEnd < 2 ^ 64)
    (hgrow : growLast m₁ m.kheapEnd = some m₂) :
    ∃ mem l', m₂ = { m₁ with mem := mem } ∧ HeapInv m₂ l' ∧
      (∀ c : Block, c.free = false → (c ∈ l' ↔ c ∈ l)) ∧
      ∃ l₀ b, l' = l₀ ++ [b] ∧ b.free = true ∧ 0x200000 - heapHeaderSize ≤ b.length ∧
        ∀ l₁ c, l = l₁ ++ [c] → c.free = true → c.length + 0x200000 ≤ b.length := by
  have hsize : heapHeaderSize = 29 := rfl
  obtain ⟨hlisted, hne, hend', hplaced, hpair, hperm, hpos, hmod, -⟩ := h
  obtain ⟨l, b, rfl⟩ := (l.eq_nil_or_concat').resolve_left hne
  rw [← hkheap] at hlisted hend' hplaced hpos
  rw [← hmem] at hlisted
  rw [← hlive] at hperm
  simp only [Xana.growLast, Option.bind_eq_bind, Option.bind_eq_some_iff] at hgrow
  obtain ⟨x, hx, hgrow⟩ := hgrow
  obtain rfl := hlisted.lastHeader hpos hx
  have hheader := hlisted.header_eq
  set y := endOf heapHeaderSize m₁.kheap l with hy
  have hylen : y + heapHeaderSize + b.length = m.kheapEnd := by
    rw [← hend', endOf_append, endOf_cons, endOf_nil]
  obtain ⟨hplaced₁, hplacedb, -⟩ := inBlocks_append.mp hplaced
  have hmod' : (m₁.kheapEnd + 1) % 0x200000 = 0 := by omega
  by_cases hfree : (header m₁.mem y).free = true
  · -- the last block is free: it gets longer
    rw [if_pos hfree] at hgrow
    obtain rfl := Option.some.inj hgrow
    have hb : b.use = none := Block.use_eq_none (by rw [← hfree, hheader])
    have hlen : (header m₁.mem y).length = b.length := by rw [hheader]
    have hset := hlisted.setLength_last (k := b.length + 0x200000) (by omega)
    refine ⟨_, l ++ [⟨b.length + 0x200000, b.use⟩], rfl,
      ⟨?_, by simp, ?_, ?_, ?_, ?_, ?_, hmod', hlt⟩, ?_, ?_⟩
    · simp only [hlen]
      exact hset
    · simp only [endOf_append, endOf_cons, endOf_nil, hend]
      omega
    · exact inBlocks_append.mpr ⟨hplaced₁, fun u hu => by simp [hb] at hu, trivial⟩
    · simpa using hpair.replace (Block.free_of_use hb)
        (noFreePair_singleton ⟨b.length + 0x200000, b.use⟩)
    · rw [chunks_append, chunks_cons_of_free (Block.free_of_use hb)] at hperm
      have hb' : (Block.mk (b.length + 0x200000) b.use).free = true := Block.free_of_use hb
      rw [chunks_append, chunks_cons_of_free hb']
      exact hperm
    · exact hpos
    · intro c hused
      have hne : ∀ n, c ≠ ⟨n, b.use⟩ := by
        rintro n rfl
        simp [Block.free, hb] at hused
      rw [List.mem_append, List.mem_append, List.mem_singleton, List.mem_singleton]
      exact or_congr_right (iff_of_false (hne _) (hne b.length))
    · refine ⟨l, _, rfl, Block.free_of_use hb, by simp only; omega, fun l₁ c heq _ => ?_⟩
      obtain ⟨-, hbc⟩ := List.append_inj' heq rfl
      obtain rfl : b = c := by simpa using hbc
      exact le_rfl
  · -- it is in use: a header is written at the old end, with the new pages behind it
    rw [if_neg hfree] at hgrow
    obtain rfl := Option.some.inj hgrow
    have hused : b.free = false := by
      rw [hheader] at hfree
      simpa using hfree
    have hmagic : heapMagic < 2 ^ 32 := by decide
    have hadd : heapHeaderSize + (0x200000 - heapHeaderSize) = 0x200000 := by decide
    have hnew : Listed (setNext (setPrev (setNext (setFree (setLength (setMagic m₁.mem m.kheapEnd
        heapMagic) m.kheapEnd (0x200000 - heapHeaderSize)) m.kheapEnd true) m.kheapEnd 0)
        m.kheapEnd y) y m.kheapEnd) m₁.kheap 0 (l ++ [b, ⟨0x200000 - heapHeaderSize, none⟩]) 0 := by
      refine hlisted.concat ?_ ?_ ?_
      · rw [header_setNext_self (by omega), hend', ← hy]
        simp (disch := omega) only [header_setPrev, header_setNext, header_setFree,
          header_setLength, header_setMagic]
      · rw [hend', ← hy, header_setNext (by omega), header_setPrev_self (by omega),
          header_setNext_self (by decide), header_setFree_self, header_setLength_self (by decide),
          header_setMagic_self hmagic]
        rfl
      · intro x hx
        rw [setNext_of_notMem (Or.inl hx), setPrev_of_notMem (by omega),
          setNext_of_notMem (by omega), setFree_of_notMem (by omega),
          setLength_of_notMem (by omega), setMagic_of_notMem (by omega)]
    refine ⟨_, l ++ [b, ⟨0x200000 - heapHeaderSize, none⟩], rfl,
      ⟨?_, by simp, ?_, ?_, ?_, ?_, ?_, hmod', hlt⟩, ?_, ?_⟩
    · exact hnew
    · simp only [endOf_append, endOf_cons, endOf_nil, hend]
      omega
    · exact inBlocks_append.mpr ⟨hplaced₁, hplacedb, fun u hu => by simp at hu, trivial⟩
    · exact noFreePair_append.mpr ⟨(noFreePair_append.mp hpair).1, noFreePair_pair (Or.inl hused),
        fun c _ d hd => by
          obtain rfl : b = d := by simpa using hd
          exact Or.inr hused⟩
    · rw [chunks_append] at hperm ⊢
      exact hperm
    · exact hpos
    · intro c hused'
      have hne : c ≠ ⟨0x200000 - heapHeaderSize, none⟩ := by
        rintro rfl
        simp at hused'
      rw [List.append_cons, List.mem_append, List.mem_singleton, or_iff_left hne]
    · refine ⟨l ++ [b], ⟨0x200000 - heapHeaderSize, none⟩, by simp, rfl, le_rfl,
        fun l₁ c heq hc => ?_⟩
      obtain ⟨-, hbc⟩ := List.append_inj' heq rfl
      obtain rfl : b = c := by simpa using hbc
      simp [hused] at hc

/-- The machine after a prealloc has been filled again: nothing has happened, or a
page-aligned chunk has been allocated. -/
def Refilled (kmallocA : Machine → ℕ → Option (ℕ × Machine)) (m m' : Machine) : Prop :=
  m' = m ∨ ∃ size p m₁, (size = pageTableSize ∨ size = pageDirectorySize) ∧
    kmallocA m size = some (p, m₁) ∧ SameHeap m₁ m'

section Refill

variable {kmallocA : Machine → ℕ → Option (ℕ × Machine)}

theorem refilled_refillPt (h : refillPt kmallocA m = some m') : Refilled kmallocA m m' := by
  rw [refillPt] at h
  split_ifs at h
  · simp only [Option.bind_eq_bind, Option.bind_eq_some_iff, Option.pure_def,
      Option.some.injEq] at h
    obtain ⟨⟨p, m₁⟩, hp, rfl⟩ := h
    exact Or.inr ⟨_, p, m₁, Or.inl rfl, hp, ⟨rfl, rfl, rfl, rfl, rfl⟩⟩
  · exact Or.inl (Option.some.inj h).symm

theorem refilled_refillPd (h : refillPd kmallocA m = some m') : Refilled kmallocA m m' := by
  rw [refillPd] at h
  split_ifs at h
  · simp only [Option.bind_eq_bind, Option.bind_eq_some_iff, Option.pure_def,
      Option.some.injEq] at h
    obtain ⟨⟨p, m₁⟩, hp, rfl⟩ := h
    exact Or.inr ⟨_, p, m₁, Or.inr rfl, hp, ⟨rfl, rfl, rfl, rfl, rfl⟩⟩
  · exact Or.inl (Option.some.inj h).symm

theorem refilled_refillPdpt (h : refillPdpt kmallocA m = some m') : Refilled kmallocA m m' := by
  rw [refillPdpt] at h
  split_ifs at h
  · simp only [Option.bind_eq_bind, Option.bind_eq_some_iff, Option.pure_def,
      Option.some.injEq] at h
    obtain ⟨⟨p, m₁⟩, hp, rfl⟩ := h
    exact Or.inr ⟨_, p, m₁, Or.inr rfl, hp, ⟨rfl, rfl, rfl, rfl, rfl⟩⟩
  · exact Or.inl (Option.some.inj h).symm

theorem refilled_of_refill (h : refillPt kmallocA m = some m' ∨ refillPd kmallocA m = some m' ∨
    refillPdpt kmallocA m = some m') : Refilled kmallocA m m' := by
  rcases h with h | h | h
  · exact refilled_refillPt h
  · exact refilled_refillPd h
  · exact refilled_refillPdpt h

/-- What allocating a chunk keeps, filling a prealloc keeps. -/
theorem Refilled.rule {P : Machine → Machine → Prop} (h : Refilled kmallocA m m') (hrefl : P m m)
    (halloc : ∀ size p m₁, (size = pageTableSize ∨ size = pageDirectorySize) →
      kmallocA m size = some (p, m₁) → P m m₁)
    (hsame : ∀ m₁ m₂, SameHeap m₁ m₂ → P m m₁ → P m m₂) : P m m' := by
  rcases h with rfl | ⟨size, p, m₁, hsize, hp, hs⟩
  · exact hrefl
  · exact hsame _ _ hs (halloc size p m₁ hsize hp)

end Refill

section Growth

variable {src : FrameSource} {n size p : ℕ} {align : Bool}

/-- Only bytes change at the end of the list of headers. -/
theorem exists_growLast {oldEnd : ℕ} (h : growLast m oldEnd = some m') :
    ∃ mem, m' = { m with mem := mem } := by
  simp only [Xana.growLast, Option.bind_eq_bind, Option.bind_eq_some_iff] at h
  obtain ⟨x, -, h⟩ := h
  split_ifs at h
  all_goals exact ⟨_, (Option.some.inj h).symm⟩

theorem grown_growLast {oldEnd : ℕ} (h : growLast m oldEnd = some m') : Grown m m' := by
  obtain ⟨mem, rfl⟩ := exists_growLast h
  exact ⟨rfl, rfl, ⟨0, rfl⟩, fun _ hu => hu⟩

theorem grown_tryAlloc (h : m.tryAlloc size align = some (some (p, m'))) : Grown m m' := by
  simp only [Machine.tryAlloc, Option.bind_eq_bind, Option.bind_eq_some_iff] at h
  obtain ⟨r, -, h⟩ := h
  cases r with
  | none => simp at h
  | some x =>
    simp only [Option.bind_eq_some_iff, Option.pure_def, Option.some.injEq, Prod.mk.injEq] at h
    obtain ⟨mem, -, rfl, rfl⟩ := h
    exact ⟨rfl, rfl, ⟨0, rfl⟩, List.subset_cons_self _ _⟩

/-- `heap_expand` maps the pages, sees to the last header, and then lets the heap grow. -/
theorem exists_of_heapExpand {kmallocA : Machine → ℕ → Option (ℕ × Machine)}
    (hkm : ∀ m size p m', m.kheap ≠ 0 → kmallocA m size = some (p, m') → Grown m m')
    (hk : m.kheap ≠ 0) (h : heapExpand src kmallocA m = some m') :
    ∃ m₁ m₂, expandPages src 512 m = some m₁ ∧ growLast m₁ m.kheapEnd = some m₂ ∧ Grown m₂ m' := by
  simp only [heapExpand, Option.bind_eq_bind, Option.bind_eq_some_iff] at h
  obtain ⟨m₁, h₁, m₂, h₂, m₃, h₃, m₄, h₄, h₅⟩ := h
  have hrefill : ∀ {m m'}, m.kheap ≠ 0 → Refilled kmallocA m m' → Grown m m' := by
    intro m m' hk h
    exact h.rule (Grown.refl m) (fun size p m₁ _ hp => hkm m size p m₁ hk hp)
      fun _ _ hs hg => hg.trans hs.grown
  obtain ⟨-, hk₁, -, -, -⟩ := expandPages_eq h₁
  have hk₂ : m₂.kheap ≠ 0 := by rwa [(grown_growLast h₂).kheap, hk₁]
  have hg₃ := hrefill hk₂ (refilled_refillPt h₃)
  have hg₄ := hg₃.trans (hrefill (by rwa [hg₃.kheap]) (refilled_refillPd h₄))
  exact ⟨m₁, m₂, h₁, h₂, hg₄.trans (hrefill (by rwa [hg₄.kheap]) (refilled_refillPdpt h₅))⟩

theorem grown_heapExpand {kmallocA : Machine → ℕ → Option (ℕ × Machine)}
    (hkm : ∀ m size p m', m.kheap ≠ 0 → kmallocA m size = some (p, m') → Grown m m')
    (hk : m.kheap ≠ 0) (h : heapExpand src kmallocA m = some m') : Grown m m' := by
  obtain ⟨m₁, m₂, h₁, h₂, hg⟩ := exists_of_heapExpand hkm hk h
  obtain ⟨-, hk₁, hl₁, hp₁, he₁⟩ := expandPages_eq h₁
  have hg₁ : Grown m m₁ := ⟨hk₁, hp₁, ⟨1, by omega⟩, fun _ hu => by rwa [hl₁]⟩
  exact (hg₁.trans (grown_growLast h₂)).trans hg

/-- **The heap only grows.** -/
theorem grown_kmallocInt (hk : m.kheap ≠ 0) (h : kmallocInt src n m size align = some (p, m')) :
    Grown m m' := by
  induction n generalizing m size align p m' with
  | zero => simp [Xana.kmallocInt] at h
  | succ n ih =>
    simp only [Xana.kmallocInt, if_neg hk, Option.bind_eq_bind, Option.bind_eq_some_iff] at h
    obtain ⟨r, hr, h⟩ := h
    cases r with
    | some r =>
      obtain rfl := Option.some.inj h
      exact grown_tryAlloc hr
    | none =>
      simp only [Option.bind_eq_some_iff] at h
      obtain ⟨m₁, h₁, h₂⟩ := h
      have hg₁ : Grown m m₁ := grown_heapExpand (fun m size p m' hk h => ih hk h) hk h₁
      exact hg₁.trans (ih (by rwa [hg₁.kheap]) h₂)

/-- What a call that allocates does: the heap is still cut into blocks, and what was
live is live, with more aligned chunks perhaps. -/
structure Allocates (m m' : Machine) : Prop where
  inv : ∃ l, HeapInv m' l
  live : ∃ t : List Chunk, m'.live = t ++ m.live ∧ ∀ u ∈ t, u.aligned = true

theorem HeapInv.allocates (h : HeapInv m l) : Allocates m m := ⟨⟨l, h⟩, [], rfl, by simp⟩

theorem Allocates.trans {m'' : Machine} (h : Allocates m m') (h' : Allocates m' m'') :
    Allocates m m'' := by
  obtain ⟨-, t, ht, hal⟩ := h
  obtain ⟨hinv, t', ht', hal'⟩ := h'
  refine ⟨hinv, t' ++ t, by rw [ht', ht, List.append_assoc], fun u hu => ?_⟩
  rcases List.mem_append.mp hu with hu | hu
  · exact hal' u hu
  · exact hal u hu

theorem Allocates.sameHeap {m'' : Machine} (h : Allocates m m') (h' : SameHeap m' m'') :
    Allocates m m'' := by
  obtain ⟨⟨l, hl⟩, t, ht, hal⟩ := h
  exact ⟨⟨l, hl.congr h'⟩, t, h'.live.trans ht, hal⟩

/-- There is room for a page directory behind a heap that does not wrap, since it
ends on a 2 MiB boundary. -/
theorem HeapInv.room (h : HeapInv m l) (hg : Grown m m') (hlt : m'.kheapEnd + 1 < 2 ^ 64)
    (hsize : size = pageTableSize ∨ size = pageDirectorySize) :
    0 < size ∧ m'.kheapEnd + 0xFFF + size < 2 ^ 64 := by
  obtain ⟨-, -, k, hk⟩ := hg
  have hmod := h.end_mod
  have hpt : pageTableSize = 4096 := rfl
  have hpd : pageDirectorySize = 8712 := rfl
  omega

/-- **The rule for `heap_expand`**: what holds when the pages are there, and is kept by
filling a prealloc, holds at the end. -/
theorem HeapInv.heapExpand_rule {kmallocA : Machine → ℕ → Option (ℕ × Machine)}
    {P : Machine → Prop} (h : HeapInv m l)
    (hgrown : ∀ m size p m', m.kheap ≠ 0 → kmallocA m size = some (p, m') → Grown m m')
    (hpages : ∀ m₁ m₂ l, expandPages src 512 m = some m₁ →
      Xana.growLast m₁ m.kheapEnd = some m₂ → HeapInv m₂ l → P m₂)
    (hrefill : ∀ m m' l, HeapInv m l → P m → m'.kheapEnd + 1 < 2 ^ 64 →
      refillPt kmallocA m = some m' ∨ refillPd kmallocA m = some m' ∨
        refillPdpt kmallocA m = some m' → (∃ l, HeapInv m' l) ∧ P m')
    (hlt : m'.kheapEnd + 1 < 2 ^ 64) (hexp : heapExpand src kmallocA m = some m') :
    (∃ l, HeapInv m' l) ∧ P m' := by
  simp only [Xana.heapExpand, Option.bind_eq_bind, Option.bind_eq_some_iff] at hexp
  obtain ⟨m₁, h₁, m₂, h₂, m₃, h₃, m₄, h₄, h₅⟩ := hexp
  have hgrefill : ∀ {m m' : Machine}, m.kheap ≠ 0 → Refilled kmallocA m m' → Grown m m' := by
    intro m m' hk h
    exact h.rule (Grown.refl m) (fun size p m₁ _ hp => hgrown m size p m₁ hk hp)
      fun _ _ hs hg => hg.trans hs.grown
  -- how far the heap has come at each stage
  obtain ⟨hmem, hk₁, hl₁, -, he₁⟩ := expandPages_eq h₁
  have hg₂ := grown_growLast h₂
  have hk₂ : m₂.kheap ≠ 0 := by rw [hg₂.kheap, hk₁]; exact h.kheap_pos.ne'
  have hg₃ := hgrefill hk₂ (refilled_refillPt h₃)
  have hk₃ : m₃.kheap ≠ 0 := by rwa [hg₃.kheap]
  have hg₄ := hgrefill hk₃ (refilled_refillPd h₄)
  have hk₄ : m₄.kheap ≠ 0 := by rwa [hg₄.kheap]
  have hg₅ := hgrefill hk₄ (refilled_refillPdpt h₅)
  have hle₂ := hg₂.le
  have hle₃ := hg₃.le
  have hle₄ := hg₄.le
  have hle₅ := hg₅.le
  obtain ⟨mem, l₂, rfl, hinv₂, -⟩ := h.growLast hmem hk₁ hl₁ (by omega) (by omega) h₂
  have hP₂ := hpages _ _ l₂ h₁ h₂ hinv₂
  obtain ⟨⟨l₃, hinv₃⟩, hP₃⟩ := hrefill _ _ l₂ hinv₂ hP₂ (by omega) (Or.inl h₃)
  obtain ⟨⟨l₄, hinv₄⟩, hP₄⟩ := hrefill _ _ l₃ hinv₃ hP₃ (by omega) (Or.inr (Or.inl h₄))
  exact hrefill _ _ l₄ hinv₄ hP₄ hlt (Or.inr (Or.inr h₅))

/-- **`heap_expand` keeps the heap.** -/
theorem HeapInv.heapExpand {kmallocA : Machine → ℕ → Option (ℕ × Machine)} (h : HeapInv m l)
    (hgrown : ∀ m size p m', m.kheap ≠ 0 → kmallocA m size = some (p, m') → Grown m m')
    (halloc : ∀ m l size p m', HeapInv m l → m'.kheapEnd + 0xFFF + size < 2 ^ 64 →
      kmallocA m size = some (p, m') → Allocates m m')
    (hlt : m'.kheapEnd + 1 < 2 ^ 64) (hexp : heapExpand src kmallocA m = some m') :
    Allocates m m' := by
  refine (h.heapExpand_rule hgrown ?_ ?_ hlt hexp).2
  · intro m₁ m₂ l h₁ h₂ hinv
    obtain ⟨-, -, hl₁, -, -⟩ := expandPages_eq h₁
    obtain ⟨mem, rfl⟩ := exists_growLast h₂
    exact ⟨⟨l, hinv⟩, [], hl₁, by simp⟩
  · intro m₁ m₂ l hinv ha hlt hfill
    have ha' : Allocates m₁ m₂ := by
      rcases refilled_of_refill hfill with rfl | ⟨size, p, m₃, hsize, hp, hs⟩
      · exact hinv.allocates
      · have hg := hgrown m₁ size p m₃ hinv.kheap_pos.ne' hp
        obtain ⟨-, hroom⟩ := hinv.room hg (by rwa [hs.kheapEnd] at hlt) hsize
        exact (halloc m₁ l size p m₃ hinv hroom hp).sameHeap hs
    exact ⟨ha'.inv, ha.trans ha'⟩

/-- **`kmalloc_int` keeps the heap**, and makes the chunk live that it returns. -/
theorem HeapInv.kmallocInt (h : HeapInv m l)
    (hwrap : m'.kheapEnd + 0xFFF + size < 2 ^ 64)
    (hk : kmallocInt src n m size align = some (p, m')) :
    ∃ m₁, Allocates m m₁ ∧ (∃ l', HeapInv m' l') ∧ m'.live = ⟨p, size, align⟩ :: m₁.live := by
  induction n generalizing m l size align p m' with
  | zero => simp [Xana.kmallocInt] at hk
  | succ n ih =>
    simp only [Xana.kmallocInt, if_neg h.kheap_pos.ne', Option.bind_eq_bind,
      Option.bind_eq_some_iff] at hk
    obtain ⟨r, hr, hk⟩ := hk
    cases r with
    | some r =>
      obtain rfl := Option.some.inj hk
      have hle := (grown_tryAlloc hr).le
      obtain ⟨mem, l', rfl, hl', -⟩ := h.tryAlloc (by omega) hr
      exact ⟨m, h.allocates, ⟨l', hl'⟩, rfl⟩
    | none =>
      simp only [Option.bind_eq_some_iff] at hk
      obtain ⟨m₁, h₁, h₂⟩ := hk
      have hg₁ : Grown m m₁ :=
        grown_heapExpand (fun m size p m' hk h => grown_kmallocInt hk h) h.kheap_pos.ne' h₁
      have hk₁ : m₁.kheap ≠ 0 := by rw [hg₁.kheap]; exact h.kheap_pos.ne'
      have hle := (grown_kmallocInt hk₁ h₂).le
      have ha₁ : Allocates m m₁ := by
        refine h.heapExpand (fun m size p m' hk h => grown_kmallocInt hk h) ?_ (by omega) h₁
        intro m l size p m' h hwrap hk
        obtain ⟨m₁, ha, hinv, hlive⟩ := ih h hwrap hk
        refine ⟨hinv, ?_⟩
        obtain ⟨-, t, ht, hal⟩ := ha
        refine ⟨⟨p, size, true⟩ :: t, by rw [hlive, ht]; rfl, fun u hu => ?_⟩
        rcases List.mem_cons.mp hu with rfl | hu
        · rfl
        · exact hal u hu
      obtain ⟨l₁, hinv₁⟩ := ha₁.inv
      obtain ⟨m₂, ha₂, hinv, hlive⟩ := ih hinv₁ hwrap h₂
      exact ⟨m₂, ha₁.trans ha₂, hinv, hlive⟩

section Rule

variable {R : Machine → Machine → Prop} (hsame : ∀ {m m'}, SameHeap m m' → R m m')
  (htrans : ∀ {m₁ m₂ m₃}, R m₁ m₂ → R m₂ m₃ → R m₁ m₃)
  (htry : ∀ {m l size align p m'}, HeapInv m l → m.kheapEnd + 0xFFF + size < 2 ^ 64 →
    m.tryAlloc size align = some (some (p, m')) → R m m')
  (hgrow : ∀ {m m₁ m₂ l l'}, HeapInv m l → expandPages src 512 m = some m₁ →
    Xana.growLast m₁ m.kheapEnd = some m₂ → HeapInv m₂ l' → R m m₂)
include hsame htrans htry hgrow

/-- **The rule for `kmalloc_int`**: it keeps what a search keeps that finds a block, and
the growth of the list of headers, and paging. -/
theorem HeapInv.kmallocInt_rule (h : HeapInv m l)
    (hwrap : m'.kheapEnd + 0xFFF + size < 2 ^ 64)
    (hk : Xana.kmallocInt src n m size align = some (p, m')) : R m m' := by
  induction n generalizing m l size align p m' with
  | zero => simp [Xana.kmallocInt] at hk
  | succ n ih =>
    simp only [Xana.kmallocInt, if_neg h.kheap_pos.ne', Option.bind_eq_bind,
      Option.bind_eq_some_iff] at hk
    obtain ⟨r, hr, hk⟩ := hk
    cases r with
    | some r =>
      obtain rfl := Option.some.inj hk
      have hle := (grown_tryAlloc hr).le
      exact htry h (by omega) hr
    | none =>
      simp only [Option.bind_eq_some_iff] at hk
      obtain ⟨m₁, h₁, h₂⟩ := hk
      have hgrown : ∀ m size p m', m.kheap ≠ 0 →
          Xana.kmallocInt src n m size true = some (p, m') → Grown m m' :=
        fun m size p m' hk h => grown_kmallocInt hk h
      have hg₁ : Grown m m₁ := grown_heapExpand hgrown h.kheap_pos.ne' h₁
      have hk₁ : m₁.kheap ≠ 0 := by rw [hg₁.kheap]; exact h.kheap_pos.ne'
      have hle := (grown_kmallocInt hk₁ h₂).le
      obtain ⟨⟨l₁, hinv₁⟩, hR⟩ : (∃ l, HeapInv m₁ l) ∧ R m m₁ := by
        refine h.heapExpand_rule (P := R m) hgrown ?_ ?_ (by omega) h₁
        · -- the last header takes the new pages
          intro m₂ m₃ l' hpages hlast hinv'
          exact hgrow h hpages hlast hinv'
        · -- a prealloc is filled again
          intro m₂ m₃ l' hinv' hR hlt hfill
          rcases refilled_of_refill hfill with rfl | ⟨size, p, m₄, hsize, hp, hs⟩
          · exact ⟨⟨l', hinv'⟩, hR⟩
          · have hg := hgrown m₂ size p m₄ hinv'.kheap_pos.ne' hp
            obtain ⟨-, hroom⟩ := hinv'.room hg (by rwa [hs.kheapEnd] at hlt) hsize
            obtain ⟨-, -, ⟨l'', hinv''⟩, -⟩ := hinv'.kmallocInt hroom hp
            exact ⟨⟨l'', hinv''.congr hs⟩, htrans hR (htrans (ih hinv' hroom hp) (hsame hs))⟩
      exact htrans hR (ih hinv₁ hwrap h₂)

end Rule

end Growth

end Allocating

/-! ### Freeing and writing -/

section Freeing

variable {m : Machine} {l l₁ l₂ : List Block} {b : Block} {u v : Chunk}

/-- Live chunks do not overlap. -/
theorem HeapInv.pairwise_apart (h : HeapInv m l) : m.live.Pairwise Chunk.Apart :=
  (h.live.pairwise_iff fun {_ _} => Chunk.Apart.symm).mp h.placed.pairwise_apart

/-- Live chunks begin at different addresses. -/
theorem HeapInv.eq_of_ptr_eq (h : HeapInv m l) (hu : u ∈ m.live) (hv : v ∈ m.live)
    (hptr : v.ptr = u.ptr) : v = u := by
  by_contra hne
  have hdiff : (chunks l).Pairwise fun u v => u.ptr ≠ v.ptr :=
    (h.placed.pairwise_lt (by decide)).imp fun hlt => hlt.ne
  have hsymm : Std.Symm fun u v : Chunk => u.ptr ≠ v.ptr := ⟨fun _ _ => Ne.symm⟩
  exact hdiff.forall (h.live.mem_iff.mpr hv) (h.live.mem_iff.mpr hu) hne hptr

/-- The block of a live chunk. -/
theorem HeapInv.exists_block (h : HeapInv m l) (hu : u ∈ m.live) :
    ∃ l₁ b l₂, l = l₁ ++ b :: l₂ ∧ b.use = some u ∧
      u.Inside heapHeaderSize (endOf heapHeaderSize m.kheap l₁) b.length :=
  h.placed.exists_block (h.live.mem_iff.mpr hu)

/-- What is live when the chunk of a block is not. -/
theorem HeapInv.perm_filter (h : HeapInv m (l₁ ++ b :: l₂)) (hb : b.use = some u) :
    (chunks l₁ ++ chunks l₂).Perm (without m.live u.ptr) := by
  have hlive := h.live
  have horder := h.placed.pairwise_lt (by decide)
  rw [chunks_append, chunks_cons_of_use hb] at hlive horder
  -- the other chunks begin elsewhere
  have hne : ∀ v ∈ chunks l₁ ++ chunks l₂, v.ptr ≠ u.ptr := by
    obtain ⟨-, hbehind, hbefore⟩ := List.pairwise_append.mp horder
    intro v hv
    rcases List.mem_append.mp hv with hv | hv
    · exact (hbefore v hv u List.mem_cons_self).ne
    · exact ((List.pairwise_cons.mp hbehind).1 v hv).ne'
  have hfilter := (hlive.symm.trans List.perm_middle).filter fun v => v.ptr ≠ u.ptr
  have hself : (chunks l₁ ++ chunks l₂).filter (fun v => v.ptr ≠ u.ptr) = chunks l₁ ++ chunks l₂ :=
    List.filter_eq_self.mpr fun v hv => by simpa using hne v hv
  rw [List.filter_cons_of_neg (by simp), hself] at hfilter
  exact hfilter.symm

/-- **A block is given back**, whose header is the one found: it becomes part of a free
block, and the blocks in use are the other ones. -/
theorem HeapInv.freeBlock (h : HeapInv m (l₁ ++ b :: l₂)) (hb : b.use = some u) :
    ∃ l', HeapInv { m with
      mem := freeHeader m.mem (endOf heapHeaderSize m.kheap l₁)
      live := without m.live u.ptr } l' ∧
      ∃ l₁' f l₂', l' = l₁' ++ f :: l₂' ∧ f.use = none ∧ l₁' ⊆ l₁ ∧ l₂' ⊆ l₂ ∧
        endOf heapHeaderSize m.kheap l₁' ≤ endOf heapHeaderSize m.kheap l₁ ∧
        endOf heapHeaderSize m.kheap (l₁ ++ [b]) ≤ endOf heapHeaderSize m.kheap (l₁' ++ [f]) := by
  obtain ⟨l', hlisted, hne, hend, hplaced, hpair, hchunks, hfreed⟩ :=
    h.listed.freeHeader h.kheap_pos h.lt_of_append h.noFreePair h.placed
  have hperm : (chunks l').Perm (without m.live u.ptr) := by
    rw [hchunks]
    exact h.perm_filter hb
  exact ⟨l', h.edit hlisted hne hend hplaced hpair hperm, hfreed⟩

/-- Writing in a payload leaves the headers alone. -/
theorem Listed.write {mem mem' : Mem} {a prev lo hi : ℕ} (h : Listed mem a prev (l₁ ++ b :: l₂) 0)
    (hlo : endOf heapHeaderSize a l₁ + heapHeaderSize ≤ lo)
    (hhi : hi ≤ endOf heapHeaderSize a l₁ + heapHeaderSize + b.length)
    (hm : ∀ x, x < lo ∨ hi ≤ x → mem' x = mem x) : Listed mem' a prev (l₁ ++ b :: l₂) 0 := by
  have hsize : heapHeaderSize = 29 := rfl
  obtain ⟨h₁, h₂, h₃⟩ := listed_append.mp h
  refine listed_append.mpr ⟨h₁.congr fun x _ hx => hm x (by omega), ?_,
    h₃.congr fun x hx _ => hm x (by omega)⟩
  rw [header_congr fun x _ hx => hm x (by omega)]
  exact h₂

/-- **A client writes in its chunk.** -/
theorem HeapInv.write (h : HeapInv m l) (hu : u ∈ m.live) {a : ℕ} {bytes : List UInt8}
    (hlo : u.ptr ≤ a) (hhi : a + bytes.length ≤ u.ptr + u.size) :
    HeapInv { m with mem := m.mem.write a bytes } l := by
  obtain ⟨l₁, b, l₂, rfl, hb, hin⟩ := h.exists_block hu
  obtain ⟨hlo', hhi', -⟩ := hin
  have hlisted : Listed (m.mem.write a bytes) m.kheap 0 (l₁ ++ b :: l₂) 0 := by
    refine h.listed.write ?_ ?_ fun x hx => write_of_notMem hx
    · omega
    · omega
  exact { h with listed := hlisted }

end Freeing

end Xana
