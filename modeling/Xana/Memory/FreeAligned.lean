import Xana.Memory.HeapLaws

/-!
# Giving back a page-aligned chunk

The header of an aligned chunk is not always right before it: `kmalloc_int` puts one
there if there is room for it behind the header of the block it takes, and otherwise
the chunk begins up to 29 bytes behind the first byte of the payload. `kfree_a` looks
for the header downwards, from 29 bytes before the chunk, and panics if it finds one
that is farther away.

So it gives back what it should if the header is right before the chunk
(`HeapInv.kfreeA`), and it panics if the four bytes at that place are not the magic
number (`kfreeA_eq_none`).
-/

namespace Xana

/-- A header of the list is right before `ptr`. -/
def HeaderBefore (m : Machine) (ptr : ℕ) : Prop :=
  ∃ hs, Chain.Seg (fun h => pointer (header m.mem h).next) (some m.kheap) hs none ∧
    ptr - heapHeaderSize ∈ hs

/-- The header at `h` is that of a block whose payload contains the chunk. -/
def Contains (m : Machine) (h : ℕ) (u : Chunk) : Prop :=
  h + heapHeaderSize ≤ u.ptr ∧ u.ptr + u.size ≤ h + heapHeaderSize + (header m.mem h).length

/-- **The chunk `u` has been given back**, where `hs` are the headers: its block is free,
and the blocks in use are those of the other chunks. -/
structure Freed (m m' : Machine) (u : Chunk) (hs : List ℕ) : Prop where
  laws : HeapLaws m' hs
  live : ∀ v, v ∈ m'.live ↔ v ∈ m.live ∧ v ≠ u
  free : ∃ h ∈ hs, (header m'.mem h).free = true ∧ Contains m' h u
  used : ∀ h ∈ hs, (header m'.mem h).free = false ↔ ∃ v ∈ m'.live, Contains m' h v

section Freeing

variable {m m' : Machine} {u v : Chunk} {l l₁ l₂ : List Block} {b : Block} {a h n x : ℕ}

/-- Where the headers are: before a block, at it, or behind it. -/
theorem mem_headers_append (hh : h ∈ headers a (l₁ ++ b :: l₂)) :
    h + heapHeaderSize ≤ endOf heapHeaderSize a l₁ ∨ h = endOf heapHeaderSize a l₁ ∨
      endOf heapHeaderSize a l₁ + heapHeaderSize + b.length ≤ h := by
  induction l₁ generalizing a with
  | nil =>
    rcases List.mem_cons.mp hh with rfl | hh
    · exact Or.inr (Or.inl rfl)
    · obtain ⟨l₁, c, l₂, rfl, rfl⟩ := exists_block_of_mem_headers hh
      exact Or.inr (Or.inr le_endOf)
  | cons c l₁ ih =>
    rcases List.mem_cons.mp hh with rfl | hh
    · refine Or.inl ?_
      have hle : h + heapHeaderSize + c.length ≤
          endOf heapHeaderSize (h + heapHeaderSize + c.length) l₁ := le_endOf
      rw [endOf_cons]
      omega
    · exact ih hh

/-- The chunk of a used block lies in its payload. -/
theorem HeapInv.contains (hinv : HeapInv m (l₁ ++ b :: l₂)) (hb : b.use = some u) :
    Contains m (endOf heapHeaderSize m.kheap l₁) u := by
  have hin := (inBlocks_append.mp hinv.placed).2.1 u hb
  refine ⟨hin.le_ptr, ?_⟩
  rw [hinv.listed.header_eq]
  exact hin.end_le

/-- The payload of a used block contains one chunk. -/
theorem HeapInv.eq_of_contains (hinv : HeapInv m (l₁ ++ b :: l₂)) (hb : b.use = some u)
    (hh : h ∈ headers m.kheap (l₁ ++ b :: l₂)) (hc : Contains m h u) :
    h = endOf heapHeaderSize m.kheap l₁ := by
  obtain ⟨hlo, hhi, -⟩ := (inBlocks_append.mp hinv.placed).2.1 u hb
  have hsize : heapHeaderSize = 29 := rfl
  rcases mem_headers_append hh with hbefore | heq | hbehind
  · -- then the block of the chunk begins behind the block of `h`
    obtain ⟨k₁, c, k₂, hk, rfl⟩ := exists_block_of_mem_headers hh
    have hmem := endOf_mem_headers (a := m.kheap) l₁ b l₂
    have hlen : (header m.mem (endOf heapHeaderSize m.kheap k₁)).length = c.length := by
      rw [hk] at hinv
      rw [hinv.listed.header_eq]
    have hend := hc.2
    rw [hk] at hmem
    rcases mem_headers_append hmem with h' | h' | h' <;> omega
  · exact heq
  · have hstart := hc.1
    omega

/-- The blocks in use are those of the live chunks. -/
theorem HeapInv.used_iff (hinv : HeapInv m l) (hh : h ∈ headers m.kheap l) :
    (header m.mem h).free = false ↔ ∃ v ∈ m.live, Contains m h v := by
  constructor
  · intro hused
    obtain ⟨l₁, b, l₂, rfl, rfl⟩ := exists_block_of_mem_headers hh
    rw [hinv.listed.header_eq, Block.free, Option.isNone_eq_false_iff,
      Option.isSome_iff_exists] at hused
    obtain ⟨v, hv⟩ := hused
    refine ⟨v, hinv.live.mem_iff.mp ?_, hinv.contains hv⟩
    exact List.mem_filterMap.mpr ⟨b, by simp, hv⟩
  · rintro ⟨v, hv, hc⟩
    obtain ⟨l₁, b, l₂, rfl, hb, -⟩ := hinv.exists_block hv
    rw [hinv.eq_of_contains hb hh hc, hinv.listed.header_eq]
    simp [Block.free, hb]

/-- **A header right before a chunk** is that of its block. -/
theorem HeapInv.headerBefore (hinv : HeapInv m (l₁ ++ b :: l₂)) (hb : b.use = some u)
    (hbefore : HeaderBefore m u.ptr) :
    u.ptr - heapHeaderSize = endOf heapHeaderSize m.kheap l₁ := by
  obtain ⟨hs, hseg, hmem⟩ := hbefore
  obtain rfl := hseg.unique hinv.laws.chain
  obtain ⟨hlo, hhi⟩ := hinv.contains hb
  rw [hinv.listed.header_eq] at hhi
  simp only at hhi
  have hsize : heapHeaderSize = 29 := rfl
  rcases mem_headers_append hmem with h' | h' | h' <;> omega

/-- **The block of a chunk is given back**, once its header is found. -/
theorem HeapInv.freed (hinv : HeapInv m (l₁ ++ b :: l₂)) (hb : b.use = some u) :
    ∃ l, HeapInv { m with
        mem := freeHeader m.mem (endOf heapHeaderSize m.kheap l₁)
        live := without m.live u.ptr } l ∧
      Freed m { m with
        mem := freeHeader m.mem (endOf heapHeaderSize m.kheap l₁)
        live := without m.live u.ptr } u (headers m.kheap l) := by
  obtain ⟨l', hinv', l₁', f, l₂', rfl, hf, -, -, hlo, hhi⟩ := hinv.freeBlock hb
  have hu : u ∈ m.live :=
    hinv.live.mem_iff.mp (List.mem_filterMap.mpr ⟨b, by simp, hb⟩)
  refine ⟨_, hinv', hinv'.laws, fun v => ?_, ?_, fun h hh => hinv'.used_iff hh⟩
  · simp only [without, List.mem_filter, decide_eq_true_eq]
    refine and_congr_right fun hv => not_congr ⟨fun hptr => ?_, fun heq => heq ▸ rfl⟩
    exact hinv.eq_of_ptr_eq hu hv hptr
  · obtain ⟨hstart, hend⟩ := hinv.contains hb
    have hheader := hinv'.listed.header_eq
    rw [hinv.listed.header_eq] at hend
    simp only [endOf_append, endOf_cons, endOf_nil] at hhi hend
    refine ⟨_, endOf_mem_headers l₁' f l₂', ?_, ?_, ?_⟩
    · rw [hheader]
      exact Block.free_of_use hf
    · omega
    · rw [hheader]
      simp only
      omega

/-- The search for a header goes down. -/
theorem findMagic_spec {mem : Mem} (hx : findMagic mem n h = some x) :
    x ≤ h ∧ (header mem x).magic = heapMagic := by
  induction n generalizing h with
  | zero => simp [findMagic] at hx
  | succ n ih =>
    rw [findMagic] at hx
    split_ifs at hx with hmagic
    · obtain rfl := Option.some.inj hx
      exact ⟨le_rfl, hmagic⟩
    · obtain ⟨hle, hmagic'⟩ := ih hx
      exact ⟨by omega, hmagic'⟩

theorem kfreeA_eq {ptr : ℕ} (hk : m.kheap ≠ 0) : kfreeA m ptr =
    (findMagic m.mem (ptr + 1) (ptr - heapHeaderSize)).bind fun h =>
      if heapHeaderSize < ptr - h then none
      else some { m with mem := freeHeader m.mem h, live := without m.live ptr } := by
  rw [kfreeA, kfreeInt, if_neg hk]
  simp only [if_true, Option.bind_eq_bind, Option.pure_def]
  congr 1

/-- **`kfree_a` panics** if there is no magic number right before the chunk. -/
theorem kfreeA_eq_none {ptr : ℕ} (hk : m.kheap ≠ 0) (hptr : heapHeaderSize < ptr)
    (hmagic : (header m.mem (ptr - heapHeaderSize)).magic ≠ heapMagic) : kfreeA m ptr = none := by
  rw [kfreeA_eq hk, Option.bind_eq_none_iff]
  intro h hfind
  obtain ⟨hle, hmagic'⟩ := findMagic_spec hfind
  have hne : h ≠ ptr - heapHeaderSize := by
    rintro rfl
    exact hmagic hmagic'
  exact if_pos (by omega)

/-- **`kfree_a` gives back a chunk** if its header is right before it. -/
theorem HeapInv.kfreeA (hinv : HeapInv m l) (hu : u ∈ m.live) (hbefore : HeaderBefore m u.ptr) :
    ∃ m' l', Xana.kfreeA m u.ptr = some m' ∧ HeapInv m' l' ∧
    Freed m m' u (headers m'.kheap l') := by
  obtain ⟨l₁, b, l₂, rfl, hb, -⟩ := hinv.exists_block hu
  have hptr := hinv.headerBefore hb hbefore
  obtain ⟨l', hinv', hfreed⟩ := hinv.freed hb
  refine ⟨_, l', ?_, hinv', hfreed⟩
  have hfind : findMagic m.mem (u.ptr + 1) (endOf heapHeaderSize m.kheap l₁) =
      some (endOf heapHeaderSize m.kheap l₁) := by
    rw [findMagic, if_pos]
    rw [hinv.listed.header_eq]
  rw [kfreeA_eq hinv.kheap_pos.ne', hptr, hfind, Option.bind_some, if_neg (by omega)]

end Freeing

/-! ### Runs -/

/-- What is done with the heap, `kfree_a` included. -/
inductive AlignedCall
  | heap (c : HeapCall)
  | kfreeA (ptr : ℕ)

/-- **A call that returns**, made as callers promise. -/
def AlignedStep (src : FrameSource) (m : Machine) : AlignedCall → Machine → Prop
  | .heap c, m' => HeapStep src m c m'
  | .kfreeA ptr, m' => (∃ u ∈ m.live, u.ptr = ptr ∧ u.aligned = true) ∧ kfreeA m ptr = some m'

/-- The condition on the calls of `kfree_a`. -/
def HeadersBefore (m : Machine) : AlignedCall → Prop
  | .heap _ => True
  | .kfreeA ptr => HeaderBefore m ptr

section Runs

variable {src : FrameSource} {m m' : Machine} {l : List Block} {u : Chunk}

/-- **Every call keeps the heap.** -/
theorem HeapInv.alignedStep {c : AlignedCall} (h : HeapInv m l) (hok : HeadersBefore m c)
    (hs : AlignedStep src m c m') : ∃ l', HeapInv m' l' := by
  cases c with
  | heap c => exact h.step hs
  | kfreeA ptr =>
    obtain ⟨⟨u, hu, rfl, -⟩, hfree⟩ := hs
    obtain ⟨m₁, l', hfree', hinv, -⟩ := h.kfreeA hu hok
    obtain rfl : m₁ = m' := Option.some.inj (hfree'.symm.trans hfree)
    exact ⟨l', hinv⟩

theorem heapInv_of_alignedReach (h : Reach (AlignedStep src) HeadersBefore (HeapBuilt src) m) :
    ∃ l, HeapInv m l := by
  refine h.invariant (P := fun m => ∃ l, HeapInv m l) (fun _ hs => hs.inv) ?_
  rintro m c m' ⟨l, hinv⟩ hok hs
  exact hinv.alignedStep hok hs

/-- **`kfree_a` gives back any live chunk whose header is right before it**, in every
state that is reached, and panics on a chunk that has no magic number there. -/
theorem freed_of_reach (h : Reach (AlignedStep src) HeadersBefore (HeapBuilt src) m)
    (hu : u ∈ m.live) :
    (HeaderBefore m u.ptr → ∃ m' hs, kfreeA m u.ptr = some m' ∧ Freed m m' u hs) ∧
      ((header m.mem (u.ptr - heapHeaderSize)).magic ≠ heapMagic → kfreeA m u.ptr = none) := by
  obtain ⟨l, hinv⟩ := heapInv_of_alignedReach h
  constructor
  · intro hbefore
    obtain ⟨m', l', hfree, -, hfreed⟩ := hinv.kfreeA hu hbefore
    exact ⟨m', _, hfree, hfreed⟩
  · obtain ⟨l₁, b, l₂, rfl, -, hin⟩ := hinv.exists_block hu
    have hlo := hin.le_ptr
    have hle : m.kheap ≤ endOf heapHeaderSize m.kheap l₁ := le_endOf
    have hpos := hinv.kheap_pos
    exact kfreeA_eq_none hpos.ne' (by omega)

end Runs

/-! ### A chunk that is not given back -/

section Boot

variable {src : FrameSource} {m : Machine} {mem : Mem} {h size : ℕ}

/-- The heap that `memory_init` has built: one free block. -/
structure FreshHeap (m : Machine) : Prop where
  header_eq : header m.mem m.kheap = ⟨heapMagic, 0x200000 - 1 - heapHeaderSize, true, 0, 0⟩
  kheapEnd_eq : m.kheapEnd = m.kheap + 0x200000 - 1
  kheap_pos : 0 < m.kheap
  kheap_mod : m.kheap % 0x200000 = 0
  lt : m.kheap + 0x200000 ≤ 2 ^ 64

theorem kheap_of_initHeap {m₀ : Machine} {kheap : ℕ} (hm : initHeap src m₀ kheap = some m) :
    m.kheap = kheap := by
  simp only [initHeap, Option.bind_eq_bind, Option.bind_eq_some_iff, Option.pure_def,
    Option.some.injEq] at hm
  obtain ⟨m₁, h₁, rfl⟩ := hm
  exact (initPages_eq h₁).kheap

theorem HeapBuilt.freshHeap (hm : HeapBuilt src m) : FreshHeap m := by
  obtain ⟨m₀, kheap, hpos, hmod, hlt, hm⟩ := hm
  simp only [initHeap, Option.bind_eq_bind, Option.bind_eq_some_iff, Option.pure_def,
    Option.some.injEq] at hm
  obtain ⟨m₁, h₁, rfl⟩ := hm
  have hk : m₁.kheap = kheap := (initPages_eq h₁).kheap
  have he : m₁.kheapEnd = kheap + 512 * 0x1000 - 1 := (initPages_eq h₁).kheapEnd
  refine ⟨?_, by simp only [hk, he], by rwa [hk], by rwa [hk], by rwa [hk]⟩
  have hlen : kheap + 512 * 0x1000 - 1 - kheap - heapHeaderSize =
      0x200000 - 1 - heapHeaderSize := by
    omega
  simp only [hk, hlen]
  rw [header_setPrev_self (by decide), header_setNext_self (by decide), header_setFree_self,
    header_setLength_self (by decide), header_setMagic_self (by decide)]

/-- No header begins one byte behind another. -/
theorem magic_succ_ne (hmagic : (header mem h).magic = heapMagic) :
    (header mem (h + 1)).magic ≠ heapMagic := by
  change leNat [mem h, mem (h + 1), mem (h + 1 + 1), mem (h + 1 + 1 + 1)] = _ at hmagic
  change leNat [mem (h + 1), mem (h + 1 + 1), mem (h + 1 + 1 + 1), mem (h + 1 + 1 + 1 + 1)] ≠ _
  have h₀ := (mem h).toNat_lt
  have h₁ := (mem (h + 1)).toNat_lt
  simp only [leNat, heapMagic] at hmagic ⊢
  omega

/-- After a request of 4037 bytes, the free block begins one byte too early for a page
behind a header. -/
theorem FreshHeap.kmalloc (src : FrameSource) (hm : FreshHeap m) :
    ∃ m₁, Xana.kmalloc src 1 m 4037 = some (m.kheap + 29, m₁) ∧
    m₁.live = ⟨m.kheap + 29, 4037, false⟩ :: m.live ∧ m₁.kheap = m.kheap ∧
    m₁.kheapEnd = m.kheapEnd ∧
    header m₁.mem m.kheap = ⟨heapMagic, 4037, false, m.kheap + 4066, 0⟩ ∧
    header m₁.mem (m.kheap + 4066) = ⟨heapMagic, 2093056, true, 0, m.kheap⟩ := by
  obtain ⟨hheader, hend, hpos, -, hlt⟩ := hm
  have hsize : heapHeaderSize = 29 := rfl
  have hrounds : m.heapBytes = 0x1FFFFF + 1 := by rw [Machine.heapBytes]; omega
  have hfind :
      findHeader m.mem (fitsUnaligned m.mem 4037) m.heapBytes m.kheap = some (some m.kheap) := by
    rw [hrounds, findHeader, if_neg hpos.ne', if_pos]
    simp [fitsUnaligned, hheader, hsize]
  have hself :=
    header_splitHeader_self (m := m.mem) (h := m.kheap) (n := m.kheap + 4066) (L := 2093056)
      (f := true) (k := 4037) (by omega) (by simp [hheader]) (by omega) (by decide)
  have hnew :=
    header_splitHeader_new (m := m.mem) (h := m.kheap) (n := m.kheap + 4066) (L := 2093056)
      (f := true) (k := 4037) (by omega) (by simp [hheader]) (by omega) (by decide)
  refine ⟨{ m with
      mem := takeUnaligned m.mem 4037 m.kheap
      live := ⟨m.kheap + 29, 4037, false⟩ :: m.live }, ?_, rfl, rfl, rfl, ?_, ?_⟩
  · rw [Xana.kmalloc, kmallocInt, if_neg hpos.ne', Machine.tryAlloc]
    simp only [Bool.false_eq_true, if_false, hfind, takeBlock, Option.bind_eq_bind,
      Option.bind_some, Option.pure_def, hsize]
  all_goals
    simp only [takeUnaligned, hheader, hsize]
    rw [if_pos (by decide)]
  · rw [header_setFree_self]
    exact congrArg (fun x : HeapHeader => { x with free := false }) (hself.trans (by rw [hheader]))
  · rw [header_setFree (by omega)]
    exact hnew.trans (by rw [hheader])

/-- The page-aligned chunk that is then asked for begins one byte behind the first of
its payload. -/
theorem FreshHeap.kmallocA (src : FrameSource) (hm : FreshHeap m) :
    ∃ p m₁ m₂, Xana.kmalloc src 1 m 4037 = some (p, m₁) ∧
    Xana.kmallocA src 1 m₁ 4096 = some (m.kheap + 4096, m₂) ∧ m₁.kheapEnd = m.kheapEnd ∧
    m₂.kheapEnd = m.kheapEnd ∧ m₂.kheap = m.kheap ∧
    m₂.live = ⟨m.kheap + 4096, 4096, true⟩ :: m₁.live ∧
    (header m₂.mem (m.kheap + 4066)).magic = heapMagic := by
  obtain ⟨m₁, hk, -, hkheap, hkend, hheader, hnext⟩ := hm.kmalloc src
  obtain ⟨-, hend, hpos, hmod, hlt⟩ := hm
  have hsize : heapHeaderSize = 29 := rfl
  have hal : alignUp (m.kheap + 4066 + 29) = m.kheap + 4096 := by
    rw [alignUp_eq (by omega)]
    omega
  have hrounds : m₁.heapBytes = 0x1FFFFE + 1 + 1 := by rw [Machine.heapBytes]; omega
  have hfits : fitsAligned m₁.mem 4096 (m.kheap + 4066) = true := by
    simp only [fitsAligned, hsize, hal, hnext, Bool.and_true, decide_eq_true_eq]
    omega
  have hfind : findHeader m₁.mem (fitsAligned m₁.mem 4096) m₁.heapBytes m₁.kheap =
      some (some (m.kheap + 4066)) := by
    have hused : ¬fitsAligned m₁.mem 4096 m.kheap = true := by simp [fitsAligned, hheader]
    rw [hrounds, hkheap, findHeader, if_neg hpos.ne', if_neg hused, hheader, findHeader,
      if_neg (by simp only; omega), if_pos hfits]
  refine ⟨_, m₁, { m₁ with
      mem := cutTail m₁.mem (m.kheap + 4066) (m.kheap + 4096) 4096
      live := ⟨m.kheap + 4096, 4096, true⟩ :: m₁.live }, hk, ?_, hkend, hkend, hkheap, rfl, ?_⟩
  · have hback : ¬29 + 29 < m.kheap + 4096 - (m.kheap + 4066) := by omega
    rw [Xana.kmallocA, kmallocInt, if_neg (by omega), Machine.tryAlloc]
    simp only [if_true, hfind, takeBlock, takeAligned, Option.bind_eq_bind, Option.bind_some,
      Option.pure_def, hsize, hal, if_neg hback]
  · simp only [cutTail, hnext, hsize]
    rw [header_setFree_self, if_pos (by omega)]
    have hself := header_splitHeader_self (m := m₁.mem) (h := m.kheap + 4066)
      (n := m.kheap + 4096 + 4096)
      (L := m.kheap + 4066 + 29 + 2093056 - (m.kheap + 4096 + 4096 + 29))
      (f := true) (k := m.kheap + 4096 + 4096 - (m.kheap + 4066 + 29)) (by omega) (by simp [hnext])
      (by omega) (by omega)
    rw [hnext] at hself
    exact congrArg HeapHeader.magic hself

/-- **A chunk that `kfree_a` panics on**: it begins one byte behind the first of its
payload. -/
theorem exists_panic :
    ∃ m u, Reach (AlignedStep bootFrames) HeadersBefore (HeapBuilt bootFrames) m ∧
    u ∈ m.live ∧ u.aligned = true ∧ m.kheap ≠ 0 ∧ heapHeaderSize < u.ptr ∧
    (header m.mem (u.ptr - heapHeaderSize)).magic ≠ heapMagic := by
  obtain ⟨m, hinit⟩ := initHeap_bootMachine
  have hbuilt : HeapBuilt bootFrames m :=
    ⟨bootMachine, 0xFFFFFF8040000000, by decide, by decide, by decide, hinit⟩
  have hkheap := kheap_of_initHeap hinit
  obtain ⟨p, m₁, m₂, h₁, h₂, hend₁, hend₂, hk, hlive, hmagic⟩ :=
    hbuilt.freshHeap.kmallocA bootFrames
  have hend := hbuilt.freshHeap.kheapEnd_eq
  have hroom : m.kheapEnd + 0xFFF + 4096 < 2 ^ 64 := by omega
  have hs₁ : AlignedStep bootFrames m (.heap (.kmalloc 4037)) m₁ := ⟨by decide, by omega, 1, p, h₁⟩
  have hs₂ : AlignedStep bootFrames m₁ (.heap (.kmallocA 4096)) m₂ :=
    ⟨by decide, by omega, 1, _, h₂⟩
  have hok : ∀ {m c}, HeadersBefore m (.heap c) := trivial
  have hreach : Reach (AlignedStep bootFrames) HeadersBefore (HeapBuilt bootFrames) m₂ :=
    ((Reach.init hbuilt).step hok hs₁).step hok hs₂
  have hptr : m.kheap + 4096 - heapHeaderSize = m.kheap + 4066 + 1 := by
    show m.kheap + 4096 - 29 = _
    omega
  refine ⟨m₂, ⟨m.kheap + 4096, 4096, true⟩, hreach, by simp [hlive], rfl, by omega, ?_, ?_⟩
  · show 29 < m.kheap + 4096
    omega
  · simp only [hptr]
    exact magic_succ_ne hmagic

/-- `kfree_a` does not give back every chunk. -/
theorem not_freed : ¬∀ (src : FrameSource) (m : Machine) (u : Chunk),
    Reach (AlignedStep src) anyStep (HeapBuilt src) m → u ∈ m.live → u.aligned = true →
      ∃ m' hs, kfreeA m u.ptr = some m' ∧ Freed m m' u hs := by
  intro hall
  obtain ⟨m, u, hreach, hu, hal, hk, hptr, hmagic⟩ := exists_panic
  obtain ⟨m', -, hfree, -⟩ :=
    hall bootFrames m u (hreach.mono fun _ _ _ => trivial) hu hal
  rw [kfreeA_eq_none hk hptr hmagic] at hfree
  simp at hfree

theorem freed_of_reach_panic : ∃ m u, u ∈ m.live ∧ u.aligned = true ∧ kfreeA m u.ptr = none := by
  obtain ⟨m, u, hreach, hu, hal, -, -, hmagic⟩ := exists_panic
  exact ⟨m, u, hu, hal, (freed_of_reach hreach hu).2 hmagic⟩

end Boot

end Xana
