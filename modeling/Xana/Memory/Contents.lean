import Xana.Memory.Realloc

/-!
# What is in a chunk

The heap writes headers only, and cuts only blocks that are free. So whatever is
allocated or freed, the bytes of a chunk that is live stay as they are: `kmalloc`
(`HeapInv.keepsBytes_kmallocInt`) and `kfree` of another chunk (`HeapInv.kfree_byte`).
A block that `krealloc` has moved holds the bytes of the old one
(`SnugHeap.krealloc_byte`).
-/

namespace Xana

open Mem

/-- The bytes of the live chunks are as they were. -/
def KeepsBytes (m m' : Machine) : Prop :=
  ∀ u ∈ m.live, ∀ x, u.ptr ≤ x → x < u.ptr + u.size → m'.mem x = m.mem x

/-! ### Bytes that are not in a header -/

section Blocks

variable {m : Mem} {a prev h x size : ℕ} {b : Block} {l l₁ l₂ : List Block} {v : Chunk}

/-- A byte of a chunk is in no header. -/
theorem InBlocks.notMem_header (hl : InBlocks heapHeaderSize a l) (hv : v ∈ chunks l)
    (hlo : v.ptr ≤ x) (hhi : x < v.ptr + v.size) (hh : h ∈ headers a l) : x < h ∨ h + 29 ≤ x := by
  obtain ⟨l₁, b, l₂, rfl, -, hin⟩ := hl.exists_block hv
  have hsize : heapHeaderSize = 29 := rfl
  have hstart := hin.le_ptr
  have hend := hin.end_le
  rcases mem_headers_append hh with h' | h' | h' <;> omega

/-- A byte of a chunk is in no free block. -/
theorem InBlocks.notMem_free (hl : InBlocks heapHeaderSize a (l₁ ++ b :: l₂)) (hb : b.free = true)
    (hv : v ∈ chunks (l₁ ++ b :: l₂)) (hlo : v.ptr ≤ x) (hhi : x < v.ptr + v.size) :
    x < endOf heapHeaderSize a l₁ ∨ endOf heapHeaderSize a l₁ + heapHeaderSize + b.length ≤ x := by
  obtain ⟨hl₁, -, hl₂⟩ := inBlocks_append.mp hl
  rw [chunks_append, chunks_cons_of_free hb] at hv
  rcases List.mem_append.mp hv with hv | hv
  · have hbounds := hl₁.bounds hv
    omega
  · have hbounds := hl₂.bounds hv
    omega

/-- The next header is on the list, -/
theorem Listed.next_mem_headers (hl : Listed m a prev l 0) (hh : h ∈ headers a l)
    (h0 : (header m h).next ≠ 0) :
    (header m h).next ∈ headers a l ∧ h + 29 ≤ (header m h).next := by
  obtain ⟨l₁, b, l₂, rfl, rfl⟩ := exists_block_of_mem_headers hh
  rw [hl.header_eq] at h0 ⊢
  cases l₂ with
  | nil => exact absurd rfl h0
  | cons c l₂ =>
    have hmem := endOf_mem_headers (a := a) (l₁ ++ [b]) c l₂
    rw [endOf_append, List.append_assoc] at hmem
    exact ⟨hmem, Nat.le_add_right _ _⟩

/-- and so is the previous one. -/
theorem Listed.prev_mem_headers (hl : Listed m a 0 l 0) (hh : h ∈ headers a l)
    (h0 : (header m h).prev ≠ 0) :
    (header m h).prev ∈ headers a l ∧ (header m h).prev + 29 ≤ h := by
  obtain ⟨l₁, b, l₂, rfl, rfl⟩ := exists_block_of_mem_headers hh
  rw [hl.header_eq] at h0 ⊢
  rcases l₁.eq_nil_or_concat' with rfl | ⟨l₁, p, rfl⟩
  · exact absurd rfl h0
  · have hmem := endOf_mem_headers (a := a) l₁ p (b :: l₂)
    have hlast : lastOr a 0 (l₁ ++ [p]) = endOf heapHeaderSize a l₁ := by rw [lastOr_append]; rfl
    rw [List.append_cons] at hmem
    simp only [hlast, endOf_append]
    exact ⟨hmem, Nat.le_add_right _ _⟩

/-! ### Giving back -/

section Freeing

variable (hl : Listed m a 0 l 0) (hin : InBlocks heapHeaderSize a l) (hv : v ∈ chunks l)
  (hlo : v.ptr ≤ x) (hhi : x < v.ptr + v.size) (hh : h ∈ headers a l)
include hl hin hv hlo hhi hh

/-- Neither the merge with the block behind -/
theorem absorbNext_byte :
    (if (header m h).next ≠ 0 ∧ (header m (header m h).next).free then
      absorb m h (header m h).next else m) x = m x := by
  split_ifs with hc
  · obtain ⟨hmem, hle⟩ := hl.next_mem_headers hh hc.1
    exact absorb_of_notMem hle (hin.notMem_header hv hlo hhi hh) fun h0 =>
      hin.notMem_header hv hlo hhi (hl.next_mem_headers hmem h0).1
  · rfl

/-- nor that with the block before writes in a chunk. -/
theorem absorbPrev_byte :
    (if (header m h).prev ≠ 0 ∧ (header m (header m h).prev).free then
      absorb m (header m h).prev h else m) x = m x := by
  split_ifs with hc
  · obtain ⟨hmem, hle⟩ := hl.prev_mem_headers hh hc.1
    exact absorb_of_notMem hle (hin.notMem_header hv hlo hhi hmem) fun h0 =>
      hin.notMem_header hv hlo hhi (hl.next_mem_headers hh h0).1
  · rfl

end Freeing

/-- **Giving back a block** writes in no chunk of another one. -/
theorem freeHeader_byte (hl : Listed m a 0 (l₁ ++ b :: l₂) 0) (ha : 0 < a)
    (hlt : endOf heapHeaderSize a (l₁ ++ b :: l₂) < 2 ^ 64) (hpair : NoFreePair (l₁ ++ b :: l₂))
    (hin : InBlocks heapHeaderSize a (l₁ ++ b :: l₂)) (hv : v ∈ chunks l₁ ++ chunks l₂)
    (hlo : v.ptr ≤ x) (hhi : x < v.ptr + v.size) :
    freeHeader m (endOf heapHeaderSize a l₁) x = m x := by
  obtain ⟨-, hpair₂, -⟩ := noFreePair_append.mp hpair
  obtain ⟨hin₁, -, hin₂⟩ := inBlocks_append.mp hin
  -- the list once the block is free
  have hset := hl.setFree (c := ⟨b.length, none⟩) rfl
  have hend : endOf heapHeaderSize a (l₁ ++ ⟨b.length, none⟩ :: l₂) =
      endOf heapHeaderSize a (l₁ ++ b :: l₂) := by simp only [endOf_append, endOf_cons]
  have hinSet : InBlocks heapHeaderSize a (l₁ ++ ⟨b.length, none⟩ :: l₂) :=
    inBlocks_append.mpr ⟨hin₁, fun u hu => by simp at hu, hin₂⟩
  have hvSet : v ∈ chunks (l₁ ++ ⟨b.length, none⟩ :: l₂) := by
    rwa [chunks_append, chunks_cons_of_free rfl]
  have hmem := endOf_mem_headers (a := a) l₁ ⟨b.length, none⟩ l₂
  have hfirst : Xana.setFree m (endOf heapHeaderSize a l₁) true x = m x :=
    setFree_of_notMem (hinSet.notMem_header hvSet hlo hhi hmem)
  -- and once it has taken the block behind it
  obtain ⟨f, l₂', hnext, hf, hchunks₂, -, -, -, hinNext, -, -⟩ :=
    hset.mergeNext ha (by rwa [hend]) rfl hpair₂.tail hin₂
  have hinNext' : InBlocks heapHeaderSize a (l₁ ++ f :: l₂') :=
    inBlocks_append.mpr ⟨hin₁, fun u hu => by simp [hf] at hu, hinNext⟩
  have hvNext : v ∈ chunks (l₁ ++ f :: l₂') := by
    rwa [chunks_append, chunks_cons_of_free (Block.free_of_use hf), hchunks₂]
  rw [freeHeader]
  refine (absorbPrev_byte hnext hinNext' hvNext hlo hhi (endOf_mem_headers l₁ f l₂')).trans ?_
  exact (absorbNext_byte hset hinSet hvSet hlo hhi hmem).trans hfirst

/-! ### Taking -/

/-- The block at `h` is cut inside. -/
theorem cut_byte {new length newLength : ℕ} {free : Bool}
    (hx : x < h ∨ h + 29 + (header m h).length ≤ x) (hnew : h + 29 ≤ new)
    (hroom : new + 29 ≤ h + 29 + (header m h).length)
    (hnext : (header m h).next ≠ 0 → x < (header m h).next ∨ (header m h).next + 29 ≤ x) :
    splitHeader m h new newLength free length x = m x :=
  splitHeader_of_notMem hnew (by omega) (by omega) hnext

theorem cutTail_byte {ptr : ℕ} (hx : x < h ∨ h + 29 + (header m h).length ≤ x)
    (hptr : h + 29 ≤ ptr + size)
    (hnext : (header m h).next ≠ 0 → x < (header m h).next ∨ (header m h).next + 29 ≤ x) :
    cutTail m h ptr size x = m x := by
  have hsize : heapHeaderSize = 29 := rfl
  simp only [cutTail]
  rw [setFree_of_notMem (by omega)]
  split_ifs with hroom
  · exact cut_byte hx hptr (by omega) hnext
  · rfl

theorem takeUnaligned_byte (hx : x < h ∨ h + 29 + (header m h).length ≤ x)
    (hnext : (header m h).next ≠ 0 → x < (header m h).next ∨ (header m h).next + 29 ≤ x) :
    takeUnaligned m size h x = m x := by
  have hsize : heapHeaderSize = 29 := rfl
  simp only [takeUnaligned]
  rw [setFree_of_notMem (by omega)]
  split_ifs with hroom
  · exact cut_byte hx (by omega) (by omega) hnext
  · rfl

theorem takeAligned_byte {m' : Mem} (hh : h + 29 + 0xFFF < 2 ^ 64)
    (hx : x < h ∨ h + 29 + (header m h).length ≤ x)
    (hlt : h + 29 + (header m h).length < 2 ^ 64)
    (hle : (header m h).next ≠ 0 → h + 29 + (header m h).length ≤ (header m h).next)
    (hnext : (header m h).next ≠ 0 → x < (header m h).next ∨ (header m h).next + 29 ≤ x)
    (htake : takeAligned m size h = some m') : m' x = m x := by
  have hsize : heapHeaderSize = 29 := rfl
  have hal : h + 29 ≤ alignUp (h + heapHeaderSize) := by
    rw [alignUp_eq (by omega)]
    omega
  obtain ⟨al, heq⟩ : ∃ al, alignUp (h + heapHeaderSize) = al := ⟨_, rfl⟩
  rw [heq] at hal
  by_cases hfront : heapHeaderSize + heapHeaderSize < al - h
  · -- a header is put before the aligned address
    simp only [takeAligned, heq, if_pos hfront, Option.bind_eq_bind, Option.pure_def] at htake
    split_ifs at htake with hbad
    · simp at htake
    · obtain rfl := Option.some.inj htake
      have hnew : header (splitHeader m h (al - heapHeaderSize)
          (h + heapHeaderSize + (header m h).length - al) false
          (al - heapHeaderSize - (h + heapHeaderSize))) (al - heapHeaderSize) =
          ⟨heapMagic, h + heapHeaderSize + (header m h).length - al, false, (header m h).next, h⟩ :=
        header_splitHeader_new (by omega) (fun h0 => by have := hle h0; omega) (by omega) (by omega)
      refine (cutTail_byte ?_ (by omega) ?_).trans (cut_byte hx (by omega) (by omega) hnext)
      · rw [hnew]
        simp only
        omega
      · rw [hnew]
        exact hnext
  · simp only [takeAligned, heq, if_neg hfront, Option.bind_eq_bind, Option.pure_def,
      Option.bind_some, Option.some.injEq] at htake
    obtain rfl := htake
    exact cutTail_byte hx (by omega) hnext

end Blocks

/-! ### What the functions keep -/

section Machines

variable {src : FrameSource} {m m' m'' : Machine} {l l₁ l₂ : List Block} {b : Block} {u v : Chunk}
variable {n p size x : ℕ} {align : Bool}

theorem KeepsBytes.refl (m : Machine) : KeepsBytes m m := fun _ _ _ _ _ => rfl

theorem KeepsBytes.trans (h : KeepsBytes m m') (hsub : m.live ⊆ m'.live) (h' : KeepsBytes m' m'') :
    KeepsBytes m m'' := by
  intro u hu x hlo hhi
  exact (h' u (hsub hu) x hlo hhi).trans (h u hu x hlo hhi)

theorem SameHeap.keepsBytes (h : SameHeap m m') : KeepsBytes m m' := by
  intro u _ x _ _
  rw [h.mem]

theorem HeapInv.mem_chunks (h : HeapInv m l) (hu : u ∈ m.live) : u ∈ chunks l :=
  h.live.mem_iff.mpr hu

/-- **One search**, when it finds a block. -/
theorem HeapInv.keepsBytes_tryAlloc (h : HeapInv m l) (hwrap : m.kheapEnd + 0xFFF + size < 2 ^ 64)
    (halloc : m.tryAlloc size align = some (some (p, m'))) : KeepsBytes m m' := by
  have hsize : heapHeaderSize = 29 := rfl
  simp only [Machine.tryAlloc, Option.bind_eq_bind, Option.bind_eq_some_iff] at halloc
  obtain ⟨r, hfind, halloc⟩ := halloc
  cases r with
  | none => simp at halloc
  | some x =>
    simp only [Option.bind_eq_some_iff, Option.pure_def, Option.some.injEq, Prod.mk.injEq] at halloc
    obtain ⟨mem, hmem, rfl, rfl⟩ := halloc
    rw [← h.headOr_eq] at hfind
    obtain ⟨l₁, b, l₂, rfl, rfl, hfits⟩ := h.listed.findHeader h.kheap_pos hfind
    have hheader := h.listed.header_eq
    have hle : endOf heapHeaderSize m.kheap l₁ + heapHeaderSize + b.length ≤ m.kheapEnd := by
      rw [← h.end_eq, endOf_append, endOf_cons]
      exact le_endOf
    have hfree : b.free = true := by
      cases align <;> simp [fitsAligned, fitsUnaligned, hheader] at hfits <;> exact hfits.2
    intro u hu y hlo hhi
    have hchunk := h.mem_chunks hu
    have hy := h.placed.notMem_free hfree hchunk hlo hhi
    have hnext : (header m.mem (endOf heapHeaderSize m.kheap l₁)).next ≠ 0 →
        y < (header m.mem (endOf heapHeaderSize m.kheap l₁)).next ∨
          (header m.mem (endOf heapHeaderSize m.kheap l₁)).next + 29 ≤ y := fun h0 =>
      h.placed.notMem_header hchunk hlo hhi
        (h.listed.next_mem_headers (endOf_mem_headers l₁ b l₂) h0).1
    have hlen : (header m.mem (endOf heapHeaderSize m.kheap l₁)).length = b.length := by
      rw [hheader]
    cases align with
    | true =>
      refine takeAligned_byte (by omega) (by rw [hlen]; omega) (by rw [hlen]; omega) ?_ hnext hmem
      intro h0
      rw [h.next_eq] at h0 ⊢
      rw [headOr_eq_of_ne_zero h0, hlen, hsize]
    | false =>
      obtain rfl : _ = mem := Option.some.inj hmem
      exact takeUnaligned_byte (by rw [hlen]; omega) hnext

/-- The end of the list is behind every chunk. -/
theorem HeapInv.keepsBytes_growLast {m₁ m₂ : Machine} (h : HeapInv m l) (hmem : m₁.mem = m.mem)
    (hkheap : m₁.kheap = m.kheap) (hgrow : Xana.growLast m₁ m.kheapEnd = some m₂) :
    KeepsBytes m m₂ := by
  intro u hu x hlo hhi
  have hchunk := h.mem_chunks hu
  obtain ⟨-, hend⟩ := h.placed.bounds hchunk
  rw [h.end_eq] at hend
  obtain ⟨l, b, rfl⟩ := (l.eq_nil_or_concat').resolve_left h.ne_nil
  simp only [Xana.growLast, Option.bind_eq_bind, Option.bind_eq_some_iff, hmem, hkheap] at hgrow
  obtain ⟨y, hy, hgrow⟩ := hgrow
  obtain rfl := h.listed.lastHeader h.kheap_pos hy
  have hlast := h.placed.notMem_header hchunk hlo hhi (endOf_mem_headers l b [])
  split_ifs at hgrow
  · obtain rfl := Option.some.inj hgrow
    exact setLength_of_notMem hlast
  · obtain rfl := Option.some.inj hgrow
    simp only
    rw [setNext_of_notMem hlast, setPrev_of_notMem (by omega), setNext_of_notMem (by omega),
      setFree_of_notMem (by omega), setLength_of_notMem (by omega), setMagic_of_notMem (by omega)]

/-- **`kmalloc_int` writes in no chunk that is live.** -/
theorem HeapInv.keepsBytes_kmallocInt (h : HeapInv m l)
    (hwrap : m'.kheapEnd + 0xFFF + size < 2 ^ 64)
    (hk : Xana.kmallocInt src n m size align = some (p, m')) : KeepsBytes m m' := by
  have hrule : m.live ⊆ m'.live ∧ KeepsBytes m m' := by
    refine h.kmallocInt_rule (R := fun m m' => m.live ⊆ m'.live ∧ KeepsBytes m m') ?_ ?_ ?_ ?_
      hwrap hk
    · exact fun hs => ⟨hs.grown.live, hs.keepsBytes⟩
    · exact fun h h' => ⟨List.Subset.trans h.1 h'.1, h.2.trans h.1 h'.2⟩
    · exact fun hinv hwrap halloc =>
        ⟨(grown_tryAlloc halloc).live, hinv.keepsBytes_tryAlloc hwrap halloc⟩
    · intro m m₁ m₂ l _ hinv hpages hlast _
      obtain ⟨hmem, hkheap, hlive, -, -⟩ := expandPages_eq hpages
      have hsub := (grown_growLast hlast).live
      rw [hlive] at hsub
      exact ⟨hsub, hinv.keepsBytes_growLast hmem hkheap hlast⟩
  exact hrule.2

/-- **`kfree` writes in no other chunk.** -/
theorem HeapInv.kfree_byte (h : HeapInv m l) (hu : u ∈ m.live) (hal : u.aligned = false)
    (hfree : Xana.kfree m u.ptr = some m') (hv : v ∈ m.live) (hne : v.ptr ≠ u.ptr) (hlo : v.ptr ≤ x)
    (hhi : x < v.ptr + v.size) : m'.mem x = m.mem x := by
  obtain ⟨l₁, b, l₂, rfl, hb, haddr, -, -, -⟩ := h.exists_block_before hu hal
  have hchunk : v ∈ chunks l₁ ++ chunks l₂ := by
    rw [(h.perm_filter hb).mem_iff]
    exact List.mem_filter.mpr ⟨hv, by simpa using hne⟩
  have hbyte :=
    freeHeader_byte h.listed h.kheap_pos h.lt_of_append h.noFreePair h.placed hchunk hlo hhi
  have hmagic : (header m.mem (endOf heapHeaderSize m.kheap l₁)).magic = heapMagic := by
    rw [h.listed.header_eq]
  rw [kfree_eq h.kheap_pos.ne', haddr, if_pos hmagic, Option.some.injEq] at hfree
  have hmem : m'.mem = freeHeader m.mem (endOf heapHeaderSize m.kheap l₁) := by rw [← hfree]
  rw [hmem]
  exact hbyte

/-! ### How long the block of a chunk is -/

/-- The block of a chunk is the only one. -/
theorem HeapInv.length_eq_of_use (h : HeapInv m l) {c : Block} (hb : b ∈ l) (hc : c ∈ l)
    (hbu : b.use = some u) (hcu : c.use = some u) : b.length = c.length := by
  obtain ⟨k₁, k₂, rfl⟩ := List.append_of_mem hb
  obtain ⟨j₁, j₂, hj⟩ := List.append_of_mem hc
  have hmem := endOf_mem_headers (a := m.kheap) j₁ c j₂
  have h' := h
  rw [hj] at h'
  have hcontains := h'.contains hcu
  rw [← hj] at hmem
  have heq := h.eq_of_contains hbu hmem hcontains
  have hlen := congrArg HeapHeader.length h.listed.header_eq
  rw [← heq, h'.listed.header_eq] at hlen
  exact hlen.symm

/-- **`kmalloc_int` leaves the blocks in use as long as they are.** -/
theorem HeapInv.length_kmallocInt (h : HeapInv m l)
    (hwrap : m'.kheapEnd + 0xFFF + size < 2 ^ 64)
    (hk : Xana.kmallocInt src n m size align = some (p, m')) (hu : u ∈ m.live)
    (hal : u.aligned = false) : (header m'.mem (u.ptr - heapHeaderSize)).length =
      (header m.mem (u.ptr - heapHeaderSize)).length := by
  have hrule : ∀ l, HeapInv m l → ∃ l', HeapInv m' l' ∧ ∀ c ∈ l, c.free = false → c ∈ l' := by
    refine h.kmallocInt_rule (R := fun m m' => ∀ l, HeapInv m l → ∃ l', HeapInv m' l' ∧
      ∀ c ∈ l, c.free = false → c ∈ l') ?_ ?_ ?_ ?_ hwrap hk
    · exact fun hs l h => ⟨l, h.congr hs, fun c hc _ => hc⟩
    · intro m₁ m₂ m₃ h h' l hinv
      obtain ⟨l₂, hinv₂, hsub₂⟩ := h l hinv
      obtain ⟨l₃, hinv₃, hsub₃⟩ := h' l₂ hinv₂
      exact ⟨l₃, hinv₃, fun c hc hused => hsub₃ c (hsub₂ c hc hused) hused⟩
    · intro m _ _ _ _ m' _ hwrap halloc l hinv
      obtain ⟨mem, l', -, hinv', hsub, -⟩ := hinv.tryAlloc hwrap halloc
      exact ⟨l', hinv', hsub⟩
    · intro m m₁ m₂ _ l' _ hpages hlast hinv' l hinv
      obtain ⟨hmem, hkheap, hlive, -, hend⟩ := expandPages_eq hpages
      have hend' : m₂.kheapEnd = m₁.kheapEnd := by
        obtain ⟨mem, rfl⟩ := exists_growLast hlast
        rfl
      have hlt := hinv'.lt
      obtain ⟨mem, l'', -, hinv'', hused, -⟩ :=
        hinv.growLast hmem hkheap hlive (by omega) (by omega) hlast
      exact ⟨l'', hinv'', fun c hc hfree => (hused c hfree).mpr hc⟩
  obtain ⟨l', hinv', hsub⟩ := hrule l h
  obtain ⟨l₁, b, l₂, hl, hb, -, -, hlen, -⟩ := h.exists_block_before hu hal
  have hu' : u ∈ m'.live := (grown_kmallocInt h.kheap_pos.ne' hk).live hu
  obtain ⟨k₁, c, k₂, hl', hc, -, -, hlen', -⟩ := hinv'.exists_block_before hu' hal
  rw [hlen, hlen']
  refine hinv'.length_eq_of_use (by rw [hl']; simp) (hsub b (by rw [hl]; simp) ?_) hc hb
  simp [Block.free, hb]

/-! ### In front of a chunk -/

/-- The last byte of a header is the high byte of `prev`, which points into the heap, if
anywhere; and the heap is in the kernel half. -/
theorem SnugHeap.byte_before (h : SnugHeap m) (hk : virtMemOffset ≤ m.kheap) (hu : u ∈ m.live)
    (hal : u.aligned = false) : m.mem (u.ptr - 1) = 0 ∨ m.mem (u.ptr - 1) = 255 := by
  obtain ⟨l, hinv, -⟩ := h
  obtain ⟨l₁, b, l₂, rfl, -, -, hptr, -, -⟩ := hinv.exists_block_before hu hal
  have hoff : virtMemOffset = 0xFFFFFF8000000000 := rfl
  have hhd : heapHeaderSize = 29 := rfl
  have haddr : u.ptr - 1 = endOf heapHeaderSize m.kheap l₁ + 28 := by omega
  have hprev : (header m.mem (endOf heapHeaderSize m.kheap l₁)).prev = lastOr m.kheap 0 l₁ := by
    rw [hinv.listed.header_eq]
  have hbounds : lastOr m.kheap 0 l₁ = 0 ∨
      m.kheap ≤ lastOr m.kheap 0 l₁ ∧ lastOr m.kheap 0 l₁ < 2 ^ 64 := by
    by_cases hnil : l₁ = []
    · rw [hnil]
      exact Or.inl rfl
    · have hlast : m.kheap ≤ lastOr m.kheap 0 l₁ ∧
          lastOr m.kheap 0 l₁ + heapHeaderSize ≤ endOf heapHeaderSize m.kheap l₁ :=
          lastOr_bounds hnil
      have hlt := hinv.lt_of_append
      have hle : endOf heapHeaderSize m.kheap l₁ ≤
          endOf heapHeaderSize m.kheap (l₁ ++ b :: l₂) := by
        rw [endOf_append]
        exact le_endOf
      exact Or.inr ⟨hlast.1, by omega⟩
  change leNat (m.mem.read (endOf heapHeaderSize m.kheap l₁ + 21) 8) = _ at hprev
  simp only [Mem.read, leNat, add_assoc, Nat.reduceAdd] at hprev
  rw [haddr, ← UInt8.toNat_inj, ← UInt8.toNat_inj]
  have hbyte := fun i => (m.mem (endOf heapHeaderSize m.kheap l₁ + i)).toNat_lt
  have h₀ := hbyte 21
  have h₁ := hbyte 22
  have h₂ := hbyte 23
  have h₃ := hbyte 24
  have h₄ := hbyte 25
  have h₅ := hbyte 26
  have h₆ := hbyte 27
  have h₇ := hbyte 28
  change _ = 0 ∨ _ = 255
  omega

/-! ### `krealloc` -/

/-- **A block that has been moved** holds the bytes of the old one, but for the last seven
perhaps: `memcpy` leaves some out if the new block is not aligned. -/
theorem SnugHeap.krealloc_byte {ptr old : ℕ} (h : SnugHeap m) (hu : ⟨ptr, old, false⟩ ∈ m.live)
    (hsize : old + heapHeaderSize ≤ size) (hwrap : m'.kheapEnd + 0xFFF + size < 2 ^ 64)
    (hk : Xana.krealloc src n m ptr size = some (p, m')) (hx : x < old)
    (hx' : x + 7 < (header m.mem (ptr - heapHeaderSize)).length) :
    m'.mem (p + x) = m.mem (ptr + x) := by
  obtain ⟨m₁, L, halloc, hwrap₁, hq, hsub, hne, hle, hL, hapart, hcopied, hfree⟩ :=
    h.krealloc_steps hu hsize hwrap hk
  have hhd : heapHeaderSize = 29 := rfl
  obtain ⟨l, hinv, -⟩ := h
  obtain ⟨l', hinv', -⟩ := hcopied
  have hlen := hinv.length_kmallocInt hwrap₁ halloc hu rfl
  simp only at hlen
  have hkept := hinv.keepsBytes_kmallocInt hwrap₁ halloc _ hu (ptr + x) (by simp only; omega)
    (by simp only; omega)
  have hfreed := hinv'.kfree_byte (u := ⟨ptr, old, false⟩) (v := ⟨p, size, false⟩) (x := p + x)
    (hsub hu) rfl hfree hq hne.symm (by simp only; omega) (by simp only; omega)
  simp only at hfreed
  have hhead := headLength_le p L
  have hseven := headLength_le_seven p L
  rw [hfreed, ← hkept, memcpy_add (by omega), if_pos (by omega)]

/-! ### Calls by others -/

/-- A call neither frees nor writes the chunk at `ptr`. -/
def HeapCall.Spares (m : Machine) (ptr : ℕ) : HeapCall → Prop
  | .kmalloc _ => True
  | .kmallocA _ => True
  | .kfree p => p ≠ ptr
  | .write a bytes => ∃ v ∈ m.live, v.ptr ≠ ptr ∧ v.ptr ≤ a ∧ a + bytes.length ≤ v.ptr + v.size

/-- **Every call keeps the heap**, cut as it is. -/
theorem SnugHeap.heapStep {c : HeapCall} (h : SnugHeap m) (hs : HeapStep src m c m') :
    SnugHeap m' := by
  cases c with
  | kmalloc size =>
    obtain ⟨-, hwrap, n, p, hk⟩ := hs
    exact h.kmallocInt hwrap hk
  | kmallocA size =>
    obtain ⟨-, hwrap, n, p, hk⟩ := hs
    exact h.kmallocInt hwrap hk
  | kfree ptr =>
    obtain ⟨⟨u, hu, rfl, hal⟩, hfree⟩ := hs
    obtain ⟨mem, hfree', hsnug⟩ := h.kfree hu hal
    rw [hfree] at hfree'
    rwa [Option.some.inj hfree']
  | write a bytes =>
    obtain ⟨⟨u, hu, hlo, hhi⟩, rfl⟩ := hs
    obtain ⟨l, hinv, hsnug⟩ := h
    exact ⟨l, hinv.write hu hlo hhi, hsnug⟩

/-- No call moves the heap. -/
theorem HeapStep.kheap {c : HeapCall} (hs : HeapStep src m c m') (hk : m.kheap ≠ 0) :
    m'.kheap = m.kheap := by
  cases c with
  | kmalloc size =>
    obtain ⟨-, -, n, p, halloc⟩ := hs
    exact (grown_kmallocInt hk halloc).kheap
  | kmallocA size =>
    obtain ⟨-, -, n, p, halloc⟩ := hs
    exact (grown_kmallocInt hk halloc).kheap
  | kfree ptr => exact kheap_of_kfree hs.2 hk
  | write a bytes =>
    obtain ⟨-, rfl⟩ := hs
    rfl

/-- **A call keeps a chunk that it spares.** -/
theorem SnugHeap.spared {c : HeapCall} (h : SnugHeap m) (hs : HeapStep src m c m') (hu : u ∈ m.live)
    (hspare : c.Spares m u.ptr) :
    u ∈ m'.live ∧ ∀ x, u.ptr ≤ x → x < u.ptr + u.size → m'.mem x = m.mem x := by
  have hsnug := h
  obtain ⟨l, hinv, -⟩ := h
  cases c with
  | kmalloc size =>
    obtain ⟨-, hwrap, n, p, hk⟩ := hs
    exact ⟨(grown_kmallocInt hinv.kheap_pos.ne' hk).live hu,
      hinv.keepsBytes_kmallocInt hwrap hk u hu⟩
  | kmallocA size =>
    obtain ⟨-, hwrap, n, p, hk⟩ := hs
    exact ⟨(grown_kmallocInt hinv.kheap_pos.ne' hk).live hu,
      hinv.keepsBytes_kmallocInt hwrap hk u hu⟩
  | kfree ptr =>
    obtain ⟨⟨v, hv, rfl, hal⟩, hfree⟩ := hs
    have hne : v.ptr ≠ u.ptr := hspare
    refine ⟨?_, fun x hlo hhi => hinv.kfree_byte hv hal hfree hu hne.symm hlo hhi⟩
    obtain ⟨mem, hfree', -⟩ := hsnug.kfree hv hal
    rw [hfree] at hfree'
    rw [Option.some.inj hfree']
    exact List.mem_filter.mpr ⟨hu, by simpa using hne.symm⟩
  | write a bytes =>
    obtain ⟨-, rfl⟩ := hs
    obtain ⟨v, hv, hne, hlo, hhi⟩ := hspare
    refine ⟨hu, fun x hx hx' => write_of_notMem ?_⟩
    have hsymm : Std.Symm Chunk.Apart := ⟨fun _ _ => Chunk.Apart.symm⟩
    have huv : u ≠ v := fun heq => hne (congrArg Chunk.ptr heq.symm)
    rcases hinv.pairwise_apart.forall hu hv huv with h' | h' <;> omega

end Machines

end Xana
