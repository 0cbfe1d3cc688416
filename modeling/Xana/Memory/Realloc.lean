import Xana.Memory.FreeAligned
import Xana.String.Basic

/-!
# `krealloc`

`krealloc` allocates, copies the whole payload of the old block, whatever is asked for,
and frees the old block. A block that was given out for a request that need not be
aligned is at most a header longer than the request (`Snug`), for what is behind it would
have been cut off. So the copy fits if the new request is longer by as much
(`SnugHeap.krealloc`).
-/

namespace Xana

/-- `krealloc`. -/
def krealloc (src : FrameSource) (n : ℕ) (m : Machine) (ptr size : ℕ) : Option (ℕ × Machine) := do
  let (newPtr, m) ← kmalloc src n m size
  let m ← kfree
      { m with mem := memcpy m.mem newPtr ptr (header m.mem (ptr - heapHeaderSize)).length }
    ptr
  return (newPtr, m)

/-! ### How long blocks are -/

/-- The length of the block at `p`, as its header says. -/
def payloadLength (m : Machine) (p : ℕ) : ℕ := (header m.mem (p - heapHeaderSize)).length

/-- A block is no longer than the request it was given out for, and a header. -/
def Snug (l : List Block) : Prop :=
  ∀ b ∈ l, ∀ u, b.use = some u → u.aligned = false → b.length ≤ u.size + heapHeaderSize

/-- **The heap is cut into blocks** that are no longer than they have to be. -/
def SnugHeap (m : Machine) : Prop := ∃ l, HeapInv m l ∧ Snug l

section Snug

variable {src : FrameSource} {m m' : Machine} {l l' : List Block} {u v : Chunk} {n p size : ℕ}
variable {align : Bool}

theorem Snug.of_used (h : Snug l) (hused : ∀ b ∈ l', b.free = false → b ∈ l) : Snug l' := by
  intro b hb u hu
  exact h b (hused b hb (by simp [Block.free, hu])) u hu

theorem SnugHeap.congr (h : SnugHeap m) (hs : SameHeap m m') : SnugHeap m' := by
  obtain ⟨l, hinv, hsnug⟩ := h
  exact ⟨l, hinv.congr hs, hsnug⟩

theorem SnugHeap.of_live_nil (h : HeapInv m l) (hlive : m.live = []) : SnugHeap m := by
  refine ⟨l, h, fun b hb u hu => ?_⟩
  have hmem : u ∈ m.live := h.live.mem_iff.mp (List.mem_filterMap.mpr ⟨b, hb, hu⟩)
  rw [hlive] at hmem
  simp at hmem

/-- The heap that `memory_init` builds has no block in use. -/
theorem HeapBuilt.snugHeap (h : HeapBuilt src m) : SnugHeap m := by
  obtain ⟨l, hinv⟩ := h.inv
  refine SnugHeap.of_live_nil hinv ?_
  obtain ⟨m₀, kheap, -, -, -, h⟩ := h
  simp only [initHeap, Option.bind_eq_bind, Option.bind_eq_some_iff, Option.pure_def,
    Option.some.injEq] at h
  obtain ⟨m₁, h₁, rfl⟩ := h
  exact (initPages_eq h₁).live

theorem SnugHeap.kheap_pos (h : SnugHeap m) : 0 < m.kheap := by
  obtain ⟨l, hinv, -⟩ := h
  exact hinv.kheap_pos

/-! ### Allocating -/

theorem SnugHeap.tryAlloc (h : SnugHeap m)
    (hwrap : m.kheapEnd + 0xFFF + size < 2 ^ 64)
    (halloc : m.tryAlloc size align = some (some (p, m'))) : SnugHeap m' := by
  obtain ⟨l, hinv, hsnug⟩ := h
  obtain ⟨mem, l', rfl, hinv', -, hnew⟩ := hinv.tryAlloc hwrap halloc
  refine ⟨l', hinv', fun b hb u hu hal => ?_⟩
  rcases hnew b hb u hu hal with hold | hle
  · exact hsnug b hold u hu hal
  · exact hle

/-- **`kmalloc_int`** gives out no block that is too long. -/
theorem SnugHeap.kmallocInt (h : SnugHeap m)
    (hwrap : m'.kheapEnd + 0xFFF + size < 2 ^ 64)
    (hk : kmallocInt src n m size align = some (p, m')) : SnugHeap m' := by
  have hrule : SnugHeap m → SnugHeap m' := by
    obtain ⟨l, hinv, -⟩ := h
    refine hinv.kmallocInt_rule (R := fun m m' => SnugHeap m → SnugHeap m') ?_ ?_ ?_ ?_ hwrap hk
    · exact fun hs h => h.congr hs
    · exact fun h h' hsnug => h' (h hsnug)
    · exact fun _ hwrap halloc h => h.tryAlloc hwrap halloc
    · rintro m m₁ m₂ - l' - hpages hlast hinv' ⟨l, hinv, hsnug⟩
      obtain ⟨hmem, hkheap, hlive, -, hend⟩ := expandPages_eq hpages
      have hend' : m₂.kheapEnd = m₁.kheapEnd := by
        obtain ⟨mem, rfl⟩ := exists_growLast hlast
        rfl
      have hlt := hinv'.lt
      obtain ⟨mem, l'', -, hinv'', hused, -⟩ :=
        hinv.growLast hmem hkheap hlive (by omega) (by omega) hlast
      exact ⟨l'', hinv'', hsnug.of_used fun c hc hfree => (hused c hfree).mp hc⟩
  exact hrule h

/-! ### Chunks that are not aligned -/

/-- The block of a chunk that is not aligned has its header right before the chunk. -/
theorem HeapInv.exists_block_before (hinv : HeapInv m l) (hu : u ∈ m.live)
    (hal : u.aligned = false) : ∃ l₁ b l₂, l = l₁ ++ b :: l₂ ∧ b.use = some u ∧
      u.ptr - heapHeaderSize = endOf heapHeaderSize m.kheap l₁ ∧
      u.ptr = endOf heapHeaderSize m.kheap l₁ + heapHeaderSize ∧
      (header m.mem (u.ptr - heapHeaderSize)).length = b.length ∧ u.size ≤ b.length := by
  obtain ⟨l₁, b, l₂, rfl, hb, hin⟩ := hinv.exists_block hu
  have hptr := hin.ptr_eq hal
  have hend := hin.end_le
  have haddr : u.ptr - heapHeaderSize = endOf heapHeaderSize m.kheap l₁ := by omega
  refine ⟨l₁, b, l₂, rfl, hb, haddr, hptr, ?_, by omega⟩
  rw [haddr, hinv.listed.header_eq]

/-- How long the block of such a chunk is. -/
theorem SnugHeap.length_bounds (h : SnugHeap m) (hu : u ∈ m.live) (hal : u.aligned = false) :
    u.size ≤ (header m.mem (u.ptr - heapHeaderSize)).length ∧
      (header m.mem (u.ptr - heapHeaderSize)).length ≤ u.size + heapHeaderSize := by
  obtain ⟨l, hinv, hsnug⟩ := h
  obtain ⟨l₁, b, l₂, rfl, hb, -, -, hlen, hle⟩ := hinv.exists_block_before hu hal
  rw [hlen]
  exact ⟨hle, hsnug b (by simp) u hb hal⟩

/-- Two blocks in use do not overlap, and there is a header between them. -/
theorem HeapInv.payload_apart (h : HeapInv m l) (hu : u ∈ m.live) (hal : u.aligned = false)
    (hv : v ∈ m.live) (hal' : v.aligned = false) (hne : u.ptr ≠ v.ptr) :
    u.ptr + payloadLength m u.ptr + heapHeaderSize ≤ v.ptr ∨
      v.ptr + payloadLength m v.ptr + heapHeaderSize ≤ u.ptr := by
  rw [payloadLength, payloadLength]
  obtain ⟨l₁, b, l₂, rfl, -, -, hptr, hlen, -⟩ := h.exists_block_before hu hal
  obtain ⟨k₁, c, k₂, hk, -, -, hptr', hlen', -⟩ := h.exists_block_before hv hal'
  have hb := endOf_mem_headers (a := m.kheap) l₁ b l₂
  have hc := endOf_mem_headers (a := m.kheap) k₁ c k₂
  rw [hk] at hb
  rw [← hk] at hc
  have hsize : heapHeaderSize = 29 := rfl
  rcases mem_headers_append hb with h₁ | h₁ | h₁ <;>
    rcases mem_headers_append hc with h₂ | h₂ | h₂ <;> omega

/-- A request is not longer than its block. -/
theorem HeapInv.size_le (h : HeapInv m l) (hu : u ∈ m.live) (hal : u.aligned = false) :
    u.size ≤ payloadLength m u.ptr := by
  obtain ⟨l₁, b, l₂, -, -, -, -, hlen, hle⟩ := h.exists_block_before hu hal
  rw [payloadLength, hlen]
  exact hle

/-- Bytes are written in the payload of a block. -/
theorem HeapInv.writeBlock (h : HeapInv m l) (hu : u ∈ m.live) (hal : u.aligned = false) {mem : Mem}
    (hmem : ∀ x, x < u.ptr ∨ u.ptr + payloadLength m u.ptr ≤ x → mem x = m.mem x) :
    HeapInv { m with mem := mem } l := by
  rw [payloadLength] at hmem
  obtain ⟨l₁, b, l₂, rfl, hb, -, hptr, hlen, -⟩ := h.exists_block_before hu hal
  exact { h with listed := h.listed.write (by omega) (by omega) hmem }

/-- Two blocks in use do not overlap. -/
theorem SnugHeap.payload_apart (h : SnugHeap m) (hu : u ∈ m.live) (hal : u.aligned = false)
    (hv : v ∈ m.live) (hal' : v.aligned = false) (hne : u.ptr ≠ v.ptr) :
    u.ptr + (header m.mem (u.ptr - heapHeaderSize)).length ≤ v.ptr ∨
      v.ptr + (header m.mem (v.ptr - heapHeaderSize)).length ≤ u.ptr := by
  obtain ⟨l, hinv, -⟩ := h
  exact (hinv.payload_apart hu hal hv hal' hne).imp (Nat.le_add_right _ _).trans
    (Nat.le_add_right _ _).trans

/-- **Writing in the payload** of a block in use leaves the heap as it is. -/
theorem SnugHeap.write (h : SnugHeap m) (mem : Mem) (lo hi : ℕ) (hu : u ∈ m.live)
    (hal : u.aligned = false) (hlo : u.ptr ≤ lo)
    (hhi : hi ≤ u.ptr + (header m.mem (u.ptr - heapHeaderSize)).length)
    (hmem : ∀ x, x < lo ∨ hi ≤ x → mem x = m.mem x) : SnugHeap { m with mem := mem } := by
  obtain ⟨l, hinv, hsnug⟩ := h
  refine ⟨l, hinv.writeBlock hu hal fun x hx => hmem x ?_, hsnug⟩
  rw [payloadLength] at hx
  omega

theorem kfree_eq {ptr : ℕ} (hk : m.kheap ≠ 0) : Xana.kfree m ptr =
    if (header m.mem (ptr - heapHeaderSize)).magic = heapMagic then
      some { m with
        mem := freeHeader m.mem (ptr - heapHeaderSize)
        live := without m.live ptr }
    else none := by
  rw [Xana.kfree, kfreeInt, if_neg hk]
  simp only [Bool.false_eq_true, if_false, Option.bind_eq_bind, Option.pure_def]
  split_ifs <;> rfl

/-- **`kfree`** gives back a chunk that is not aligned. -/
theorem SnugHeap.kfree (h : SnugHeap m) (hu : u ∈ m.live) (hal : u.aligned = false) :
    ∃ mem, Xana.kfree m u.ptr = some { m with mem := mem, live := without m.live u.ptr } ∧
      SnugHeap { m with mem := mem, live := without m.live u.ptr } := by
  obtain ⟨l, hinv, hsnug⟩ := h
  obtain ⟨l₁, b, l₂, rfl, hb, haddr, -, -, -⟩ := hinv.exists_block_before hu hal
  have hmagic : (header m.mem (endOf heapHeaderSize m.kheap l₁)).magic = heapMagic := by
    rw [hinv.listed.header_eq]
  obtain ⟨l', hinv', l₁', f, l₂', rfl, hf, hsub₁, hsub₂, -⟩ := hinv.freeBlock hb
  refine ⟨freeHeader m.mem (endOf heapHeaderSize m.kheap l₁), ?_, _, hinv', hsnug.of_used ?_⟩
  · rw [Xana.kfree, kfreeInt, if_neg hinv.kheap_pos.ne', haddr]
    simp only [Bool.false_eq_true, if_false, if_pos hmagic, Option.bind_eq_bind, Option.bind_some,
      Option.pure_def]
  · intro c hc hused
    rcases List.mem_append.mp hc with hc | hc
    · exact List.mem_append_left _ (hsub₁ hc)
    · rcases List.mem_cons.mp hc with rfl | hc
      · rw [Block.free_of_use hf] at hused
        simp at hused
      · exact List.mem_append_right _ (List.mem_cons_of_mem _ (hsub₂ hc))

theorem kheap_of_kfree {ptr : ℕ} (h : Xana.kfree m ptr = some m') (hk : m.kheap ≠ 0) :
    m'.kheap = m.kheap := by
  rw [kfree_eq hk] at h
  split_ifs at h
  obtain rfl := Option.some.inj h
  rfl

theorem kheapEnd_of_kfree {ptr : ℕ} (h : Xana.kfree m ptr = some m') (hk : m.kheap ≠ 0) :
    m'.kheapEnd = m.kheapEnd := by
  rw [kfree_eq hk] at h
  split_ifs at h
  obtain rfl := Option.some.inj h
  rfl

/-- **`kmalloc`**: the new chunk is live, and begins where no other does. -/
theorem HeapInv.kmalloc (h : HeapInv m l) (hwrap : m'.kheapEnd + 0xFFF + size < 2 ^ 64)
    (hk : Xana.kmalloc src n m size = some (p, m')) :
    (∃ l', HeapInv m' l') ∧ ⟨p, size, false⟩ ∈ m'.live ∧ m.live ⊆ m'.live ∧
      ∀ v ∈ m.live, v.ptr ≠ p := by
  obtain ⟨m₁, ⟨-, t, ht, -⟩, ⟨l', hinv'⟩, hlive⟩ := h.kmallocInt hwrap hk
  have hsub : m.live ⊆ m₁.live := by
    rw [ht]
    exact List.subset_append_right t m.live
  refine ⟨⟨l', hinv'⟩, by simp [hlive], ?_, fun v hv => ?_⟩
  · rw [hlive]
    exact List.Subset.trans hsub (List.subset_cons_self _ _)
  · have horder := (hinv'.live.pairwise_iff fun {_ _} => Ne.symm).mp
      ((hinv'.placed.pairwise_lt (by decide)).imp fun hlt => hlt.ne)
    rw [hlive] at horder
    exact ((List.pairwise_cons.mp horder).1 v (hsub hv)).symm

/-- **`kmalloc`**: the new chunk is live, and what was live is. -/
theorem SnugHeap.kmalloc (h : SnugHeap m)
    (hwrap : m'.kheapEnd + 0xFFF + size < 2 ^ 64) (hk : Xana.kmalloc src n m size = some (p, m')) :
    SnugHeap m' ∧ ⟨p, size, false⟩ ∈ m'.live ∧ m.live ⊆ m'.live ∧ ∀ v ∈ m.live, v.ptr ≠ p := by
  have hsnug : SnugHeap m' := h.kmallocInt hwrap hk
  obtain ⟨l, hinv, -⟩ := h
  exact ⟨hsnug, (hinv.kmalloc hwrap hk).2⟩

/-- What `krealloc` does to a request that is longer by a header, or more: the copy fits
the new block, and leaves the heap as it is. -/
theorem SnugHeap.krealloc_steps {ptr old : ℕ} (h : SnugHeap m) (hu : ⟨ptr, old, false⟩ ∈ m.live)
    (hsize : old + heapHeaderSize ≤ size) (hwrap : m'.kheapEnd + 0xFFF + size < 2 ^ 64)
    (hk : Xana.krealloc src n m ptr size = some (p, m')) : ∃ m₁ L,
      Xana.kmalloc src n m size = some (p, m₁) ∧ m₁.kheapEnd + 0xFFF + size < 2 ^ 64 ∧
      ⟨p, size, false⟩ ∈ m₁.live ∧ m.live ⊆ m₁.live ∧ ptr ≠ p ∧ old ≤ L ∧
      L = (header m₁.mem (ptr - heapHeaderSize)).length ∧
      (p + L ≤ ptr ∨ ptr + L ≤ p) ∧ SnugHeap { m₁ with mem := memcpy m₁.mem p ptr L } ∧
      Xana.kfree { m₁ with mem := memcpy m₁.mem p ptr L } ptr = some m' := by
  simp only [Xana.krealloc, Option.bind_eq_bind, Option.bind_eq_some_iff, Option.pure_def,
    Option.some.injEq, Prod.mk.injEq] at hk
  obtain ⟨⟨q, m₁⟩, halloc, m₂, hfree, rfl, rfl⟩ := hk
  simp only at halloc hfree hwrap ⊢
  have hhd : heapHeaderSize = 29 := rfl
  have hg := grown_kmallocInt h.kheap_pos.ne' halloc
  have hkheap : m₁.kheap ≠ 0 := by
    rw [hg.kheap]
    exact h.kheap_pos.ne'
  have hend := kheapEnd_of_kfree hfree hkheap
  simp only at hend
  rw [hend] at hwrap
  obtain ⟨hsnug₁, hq, hsub, hfresh⟩ := h.kmalloc hwrap halloc
  have hne : ptr ≠ q := hfresh _ hu
  obtain ⟨hle, hold⟩ := hsnug₁.length_bounds (hsub hu) rfl
  obtain ⟨hnew, -⟩ := hsnug₁.length_bounds hq rfl
  have hapart := hsnug₁.payload_apart (hsub hu) rfl hq rfl hne
  simp only at hle hold hnew hapart
  obtain ⟨L, hL⟩ : ∃ L, (header m₁.mem (ptr - heapHeaderSize)).length = L := ⟨_, rfl⟩
  rw [hL] at hle hold hapart hfree
  have hhead := headLength_le q L
  have hcopy : q + headLength q L ≤ ptr ∨ ptr + L ≤ q := by omega
  have hcopied := hsnug₁.write (memcpy m₁.mem q ptr L) q (q + L) hq rfl le_rfl (by simp only; omega)
    fun x hx => memcpy_of_notMem hcopy hx
  exact ⟨m₁, L, halloc, hwrap, hq, hsub, hne, hle, hL.symm, by omega, hcopied, hfree⟩

/-- **`krealloc`** to such a request: the new chunk is live and the old one is not. -/
theorem SnugHeap.krealloc {ptr old : ℕ} (h : SnugHeap m) (hu : ⟨ptr, old, false⟩ ∈ m.live)
    (hsize : old + heapHeaderSize ≤ size) (hwrap : m'.kheapEnd + 0xFFF + size < 2 ^ 64)
    (hk : Xana.krealloc src n m ptr size = some (p, m')) :
    SnugHeap m' ∧ ⟨p, size, false⟩ ∈ m'.live ∧ p ≠ ptr ∧ m'.kheap = m.kheap := by
  obtain ⟨m₁, L, halloc, -, hq, hsub, hne, -, -, -, hcopied, hfree⟩ :=
    h.krealloc_steps hu hsize hwrap hk
  have hkheap := (grown_kmallocInt h.kheap_pos.ne' halloc).kheap
  have hkheap' := kheap_of_kfree hfree hcopied.kheap_pos.ne'
  simp only at hkheap'
  obtain ⟨mem, hfree', hsnug'⟩ := hcopied.kfree (hsub hu) rfl
  simp only at hfree'
  rw [hfree] at hfree'
  obtain rfl := Option.some.inj hfree'
  exact ⟨hsnug', List.mem_filter.mpr ⟨hq, by simpa using hne.symm⟩, hne.symm, hkheap'.trans hkheap⟩

end Snug

end Xana
