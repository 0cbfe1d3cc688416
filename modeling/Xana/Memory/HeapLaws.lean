import Xana.Lib.Chain
import Xana.Lib.Runs
import Xana.Memory.HeapInv

/-!
# What holds of the heap

`HeapLaws` speaks of the headers in memory only: the list from `kheap` on, its
lengths, its two kinds of links, its magic numbers, and where the live chunks lie.
That the heap is cut into blocks (`HeapInv`) gives all of it
(`HeapInv.laws`), so it holds in every state that calls lead to
(`heapLaws_of_reach`).

A call in a run is one that returns. What the callers promise is part of the
step: a request is not empty, no address wraps, a chunk is freed once, and a
client writes inside its chunk.
-/

namespace Xana

/-- **The laws of the heap**, where `hs` are the addresses of its headers. -/
structure HeapLaws (m : Machine) (hs : List ℕ) : Prop where
  /-- The headers are those on the list. -/
  chain : Chain.Seg (fun h => pointer (header m.mem h).next) (some m.kheap) hs none
  /-- Each block ends where the next header is, and the last one at `kheap_end`. -/
  tiles : ∀ h ∈ hs, h + heapHeaderSize + (header m.mem h).length =
    (pointer (header m.mem h).next).getD m.kheapEnd
  magic : ∀ h ∈ hs, (header m.mem h).magic = heapMagic
  prev_kheap : (header m.mem m.kheap).prev = 0
  prev_next : ∀ h ∈ hs, (header m.mem h).next ≠ 0 →
    (header m.mem (header m.mem h).next).prev = h
  noFreePair : ∀ h ∈ hs, (header m.mem h).next ≠ 0 →
    (header m.mem h).free = false ∨ (header m.mem (header m.mem h).next).free = false
  /-- Live chunks do not overlap. -/
  apart : m.live.Pairwise Chunk.Apart
  /-- A live chunk lies in the payload of a block that is used. -/
  used : ∀ u ∈ m.live, ∃ h ∈ hs, (header m.mem h).free = false ∧
    h + heapHeaderSize ≤ u.ptr ∧ u.ptr + u.size ≤ h + heapHeaderSize + (header m.mem h).length

/-- The addresses of the headers of blocks. -/
def headers : ℕ → List Block → List ℕ
  | _, [] => []
  | a, b :: l => a :: headers (a + heapHeaderSize + b.length) l

section Headers

variable {m : Mem} {a prev h : ℕ} {l : List Block}

/-- A header is the header of a block. -/
theorem exists_block_of_mem_headers (hh : h ∈ headers a l) :
    ∃ l₁ b l₂, l = l₁ ++ b :: l₂ ∧ h = endOf heapHeaderSize a l₁ := by
  induction l generalizing a with
  | nil => simp [headers] at hh
  | cons b l ih =>
    rcases List.mem_cons.mp hh with rfl | hh
    · exact ⟨[], b, l, rfl, rfl⟩
    · obtain ⟨l₁, c, l₂, rfl, rfl⟩ := ih hh
      exact ⟨b :: l₁, c, l₂, rfl, rfl⟩

theorem endOf_mem_headers (l₁ : List Block) (b : Block) (l₂ : List Block) :
    endOf heapHeaderSize a l₁ ∈ headers a (l₁ ++ b :: l₂) := by
  induction l₁ generalizing a with
  | nil => exact List.mem_cons_self
  | cons c l₁ ih => exact List.mem_cons_of_mem _ ih

/-- **The list from the first header on.** -/
theorem Listed.seg (hl : Listed m a prev l 0) (ha : 0 < a) :
    Chain.Seg (fun h => pointer (header m h).next) (pointer (headOr a l 0)) (headers a l) none := by
  induction l generalizing a prev with
  | nil => rfl
  | cons b l ih =>
    refine ⟨pointer_of_pos ha, ?_⟩
    show Chain.Seg _ (pointer (header m a).next) _ none
    rw [hl.1]
    exact ih hl.2 (by omega)

end Headers

section Laws

variable {m : Machine} {l l₁ l₂ : List Block} {b : Block}

/-- What the header of a block points to. -/
theorem HeapInv.next_eq (h : HeapInv m (l₁ ++ b :: l₂)) :
    (header m.mem (endOf heapHeaderSize m.kheap l₁)).next =
      headOr (endOf heapHeaderSize m.kheap l₁ + heapHeaderSize + b.length) l₂ 0 := by
  rw [h.listed.header_eq]

/-- The block behind a header that has one. -/
theorem HeapInv.exists_next (h : HeapInv m (l₁ ++ b :: l₂))
    (h0 : (header m.mem (endOf heapHeaderSize m.kheap l₁)).next ≠ 0) :
    ∃ c l, l₂ = c :: l ∧ (header m.mem (endOf heapHeaderSize m.kheap l₁)).next =
      endOf heapHeaderSize m.kheap (l₁ ++ [b]) := by
  rw [h.next_eq] at h0 ⊢
  cases l₂ with
  | nil => exact absurd rfl h0
  | cons c l => exact ⟨c, l, rfl, by simp⟩

/-- **A heap that is cut into blocks obeys the laws.** -/
theorem HeapInv.laws (h : HeapInv m l) : HeapLaws m (headers m.kheap l) where
  chain := by
    have hseg := h.listed.seg h.kheap_pos
    rwa [h.headOr_eq, pointer_of_pos h.kheap_pos] at hseg
  tiles := by
    intro x hx
    obtain ⟨l₁, b, l₂, rfl, rfl⟩ := exists_block_of_mem_headers hx
    rw [h.next_eq, h.listed.header_eq]
    cases l₂ with
    | nil =>
      have hend := h.end_eq
      rwa [endOf_append] at hend
    | cons c l =>
      rw [headOr_cons, pointer_of_pos (by rw [add_assoc]; simp [heapHeaderSize])]
      rfl
  magic := by
    intro x hx
    obtain ⟨l₁, b, l₂, rfl, rfl⟩ := exists_block_of_mem_headers hx
    rw [h.listed.header_eq]
  prev_kheap := h.listed.prev_eq h.ne_nil
  prev_next := by
    intro x hx h0
    obtain ⟨l₁, b, l₂, rfl, rfl⟩ := exists_block_of_mem_headers hx
    obtain ⟨c, l, rfl, hnext⟩ := h.exists_next h0
    have hbehind := h.listed.behind_eq (List.cons_ne_nil c l)
    rw [hnext, endOf_append]
    exact hbehind
  noFreePair := by
    intro x hx h0
    obtain ⟨l₁, b, l₂, rfl, rfl⟩ := exists_block_of_mem_headers hx
    obtain ⟨c, l, rfl, hnext⟩ := h.exists_next h0
    have hpair := (noFreePair_append.mp h.noFreePair).2.1
    have hlisted : Listed m.mem m.kheap 0 (l₁ ++ [b] ++ c :: l) 0 := by
      simpa using h.listed
    rw [hnext, h.listed.header_eq, hlisted.header_eq]
    exact (List.isChain_cons_cons.mp hpair).1
  apart := h.pairwise_apart
  used := by
    intro u hu
    obtain ⟨l₁, b, l₂, rfl, hb, hin⟩ := h.exists_block hu
    refine ⟨_, endOf_mem_headers l₁ b l₂, ?_⟩
    rw [h.listed.header_eq]
    refine ⟨?_, hin.le_ptr, hin.end_le⟩
    simp [Block.free, hb]

end Laws

/-! ### Runs -/

/-- What is done with the heap. -/
inductive HeapCall where
  | kmalloc (size : ℕ)
  | kmallocA (size : ℕ)
  | kfree (ptr : ℕ)
  /-- A client writes bytes from an address on. -/
  | write (a : ℕ) (bytes : List UInt8)
  deriving DecidableEq, Repr

/-- **A call that returns**, made as callers promise. -/
def HeapStep (src : FrameSource) (m : Machine) : HeapCall → Machine → Prop
  | .kmalloc size, m' =>
      0 < size ∧ m'.kheapEnd + 0xFFF + size < 2 ^ 64 ∧ ∃ n p, kmalloc src n m size = some (p, m')
  | .kmallocA size, m' =>
      0 < size ∧ m'.kheapEnd + 0xFFF + size < 2 ^ 64 ∧ ∃ n p, kmallocA src n m size = some (p, m')
  | .kfree ptr, m' =>
      (∃ u ∈ m.live, u.ptr = ptr ∧ u.aligned = false) ∧ kfree m ptr = some m'
  | .write a bytes, m' =>
      (∃ u ∈ m.live, u.ptr ≤ a ∧ a + bytes.length ≤ u.ptr + u.size) ∧
        m' = { m with mem := m.mem.write a bytes }

/-- **The heap that `memory_init` builds**, in one block, at the 2 MiB boundary
behind the last mapped address. -/
def HeapBuilt (src : FrameSource) (m : Machine) : Prop :=
  ∃ m₀ kheap, 0 < kheap ∧ kheap % 0x200000 = 0 ∧ kheap + 0x200000 ≤ 2 ^ 64 ∧
    initHeap src m₀ kheap = some m

section Runs

variable {src : FrameSource} {m m' : Machine} {l : List Block}

theorem HeapBuilt.inv_singleton (h : HeapBuilt src m) :
    ∃ n, 0x1FFFE2 ≤ n ∧ HeapInv m [⟨n, none⟩] := by
  obtain ⟨m₀, kheap, hpos, hmod, hlt, h⟩ := h
  simp only [initHeap, Option.bind_eq_bind, Option.bind_eq_some_iff, Option.pure_def,
    Option.some.injEq] at h
  obtain ⟨m₁, h₁, rfl⟩ := h
  have hsize : heapHeaderSize = 29 := rfl
  have hk : m₁.kheap = kheap := (initPages_eq h₁).kheap
  have he : m₁.kheapEnd = kheap + 512 * 0x1000 - 1 := (initPages_eq h₁).kheapEnd
  have hl : m₁.live = [] := (initPages_eq h₁).live
  obtain ⟨n, hn⟩ : ∃ n, kheap + 512 * 0x1000 - 1 - kheap - heapHeaderSize = n := ⟨_, rfl⟩
  rw [hn]
  refine ⟨n, by omega, ?_, by simp, ?_, ?_, noFreePair_singleton _, ?_, ?_, ?_, ?_⟩
  · rw [hk]
    refine ⟨?_, trivial⟩
    rw [header_setPrev_self (by decide), header_setNext_self (by decide), header_setFree_self,
      header_setLength_self (by omega), header_setMagic_self (by decide)]
    rfl
  · simp only [hk, he, endOf_cons, endOf_nil]
    omega
  · rw [hk]
    exact ⟨by simp, trivial⟩
  · rw [hl]
    exact List.Perm.refl []
  · rwa [hk]
  · simp only [he]
    omega
  · simp only [he]
    omega

theorem HeapBuilt.inv (h : HeapBuilt src m) : ∃ l, HeapInv m l := by
  obtain ⟨n, -, hinv⟩ := h.inv_singleton
  exact ⟨_, hinv⟩

/-- `kfree` finds the header of a chunk that is not aligned. -/
theorem HeapInv.kfree {u : Chunk} (h : HeapInv m l) (hu : u ∈ m.live) (hal : u.aligned = false)
    (hfree : kfree m u.ptr = some m') : ∃ l', HeapInv m' l' := by
  obtain ⟨l₁, b, l₂, rfl, hb, hin⟩ := h.exists_block hu
  have hptr := hin.ptr_eq hal
  have haddr : u.ptr - heapHeaderSize = endOf heapHeaderSize m.kheap l₁ := by omega
  have hmagic : (header m.mem (endOf heapHeaderSize m.kheap l₁)).magic = heapMagic := by
    rw [h.listed.header_eq]
  rw [Xana.kfree, kfreeInt, if_neg h.kheap_pos.ne', haddr] at hfree
  simp only [Bool.false_eq_true, if_false, if_pos hmagic, Option.bind_eq_bind, Option.bind_some,
    Option.pure_def, Option.some.injEq] at hfree
  obtain rfl := hfree
  obtain ⟨l', hinv, -⟩ := h.freeBlock hb
  exact ⟨l', hinv⟩

/-- **Every call keeps the heap.** -/
theorem HeapInv.step {c : HeapCall} (h : HeapInv m l) (hs : HeapStep src m c m') :
    ∃ l', HeapInv m' l' := by
  cases c with
  | kmalloc size =>
    obtain ⟨-, hwrap, n, p, hk⟩ := hs
    obtain ⟨m₁, -, hinv, -⟩ := h.kmallocInt hwrap hk
    exact hinv
  | kmallocA size =>
    obtain ⟨-, hwrap, n, p, hk⟩ := hs
    obtain ⟨m₁, -, hinv, -⟩ := h.kmallocInt hwrap hk
    exact hinv
  | kfree ptr =>
    obtain ⟨⟨u, hu, rfl, hal⟩, hfree⟩ := hs
    exact h.kfree hu hal hfree
  | write a bytes =>
    obtain ⟨⟨u, hu, hlo, hhi⟩, rfl⟩ := hs
    exact ⟨l, h.write hu hlo hhi⟩

theorem heapInv_of_reach (h : Reach (HeapStep src) anyStep (HeapBuilt src) m) :
    ∃ l, HeapInv m l := by
  refine h.invariant (P := fun m => ∃ l, HeapInv m l) (fun _ hs => hs.inv) ?_
  intro m c m' hinv _ hs
  obtain ⟨l, hinv⟩ := hinv
  exact hinv.step hs

end Runs

/-! ### A machine that boots -/

section Boot

/-- The first of `n` frames that is clear. -/
def firstOf (n : ℕ) (hn : n ≤ 2 ^ 40) : FrameSource where
  next b := ((List.range n).find? fun k => !b k).map (· * 0x1000)
  clear := by
    intro b phys h
    obtain ⟨k, hk, rfl⟩ := Option.map_eq_some_iff.mp h
    have hfree := List.find?_some hk
    rw [Nat.mul_div_cancel _ (by decide)]
    simpa using hfree
  aligned := by
    intro b phys h
    obtain ⟨k, -, rfl⟩ := Option.map_eq_some_iff.mp h
    exact Nat.mul_mod_left k 0x1000
  lt := by
    intro b phys h
    obtain ⟨k, hk, rfl⟩ := Option.map_eq_some_iff.mp h
    have hlt := List.mem_range.mp (List.mem_of_find?_eq_some hk)
    omega

/-- The first of 1024 frames. -/
def bootFrames : FrameSource := firstOf 1024 (by decide)

/-- The bitmap on which the frames below `n` are used. -/
def usedBelow (n k : ℕ) : Bool := decide (k < n)

theorem firstOf_usedBelow {n k : ℕ} (hn : n ≤ 2 ^ 40) (h : k < n) :
    (firstOf n hn).next (usedBelow k) = some (k * 0x1000) := by
  have hfind : (List.range n).find? (fun i => !usedBelow k i) = some k := by
    rw [List.find?_range_eq_some]
    refine ⟨by simp [usedBelow], List.mem_range.mpr h, fun j hj => ?_⟩
    simp [usedBelow, hj]
  show ((List.range n).find? fun i => !usedBelow k i).map (· * 0x1000) = _
  rw [hfind]
  rfl

theorem update_usedBelow (k : ℕ) : Function.update (usedBelow k) k true = usedBelow (k + 1) := by
  ext i
  by_cases hi : i = k
  · subst hi
    simp [usedBelow]
  · rw [Function.update_of_ne hi]
    simp only [usedBelow]
    congr 1
    exact propext (by omega)

/-- One page table, at the address `pt`, for the addresses from `kheap` on. -/
structure OnePageTable (m : Machine) (kheap pt : ℕ) : Prop where
  walk : ∀ i < 512, ∃ pdpt pd,
    (m.dirs m.kernelPml4).virt (pml4Index (kheap + 0x1000 * i)) = pdpt ∧ pdpt ≠ 0 ∧
    (m.dirs pdpt).virt (pdptIndex (kheap + 0x1000 * i)) = pd ∧ pd ≠ 0 ∧
    (m.dirs pd).virt (pdIndex (kheap + 0x1000 * i)) = pt
  pt_ne_zero : pt ≠ 0

/-- The first pages of the heap, where the page table is there. -/
theorem initPages_isSome {m : Machine} {n i k c kheap pt : ℕ} (hn : c ≤ 2 ^ 40)
    (h : OnePageTable m kheap pt)
    (hkheap : kheap % 0x200000 = 0) (hbitmap : m.bitmap = some (usedBelow k))
    (hpt : ∀ j, i ≤ j → m.tabs pt j = 0) (hi : i + n ≤ 512) (hc : k + n ≤ c) :
    ∃ m', initPages (firstOf c hn) n (kheap + 0x1000 * i) m = some m' := by
  induction n generalizing m i k with
  | zero => exact ⟨m, rfl⟩
  | succ n ih =>
    obtain ⟨pdpt, pd, h₁, h₁0, h₂, h₂0, h₃⟩ := h.walk i (by omega)
    have hindex : ptIndex (kheap + 0x1000 * i) = i := by
      rw [ptIndex_eq]
      omega
    have hused : m.frameUsed (k * 0x1000) = false := by
      simp [Machine.frameUsed, hbitmap, usedBelow]
    have hentry : m.tabs pt i = 0 := hpt i le_rfl
    have hmap : mapPagePrealloc m (kheap + 0x1000 * i) (k * 0x1000) true true m.kernelPml4 =
        some (true, (m.setPtEntry pt i (frameAddr (k * 0x1000) ||| entryFlags true true)).markFrame
          (k * 0x1000) true) := by
      simp only [mapPagePrealloc, hused, Bool.false_eq_true, if_false, usePreallocPdpt,
        usePreallocPd, usePreallocPt, usePrealloc, h₁, h₁0, h₂, h₂0, h₃, h.pt_ne_zero, ne_eq,
        not_false_eq_true, if_true, Option.bind_eq_bind, Option.bind_some, Option.pure_def, setPage,
        hentry, not_true_eq_false, hindex]
    have hnext : (firstOf c hn).next (usedBelow k) = some (k * 0x1000) :=
      firstOf_usedBelow hn (by omega)
    simp only [initPages, hbitmap, hnext, hmap, Option.bind_eq_bind, Option.bind_some, if_true]
    rw [add_assoc, ← Nat.mul_succ]
    refine ih (k := k + 1) ⟨h.walk, h.pt_ne_zero⟩ ?_ ?_ (by omega) (by omega)
    · rw [← update_usedBelow, Machine.markFrame, Machine.setPtEntry, hbitmap,
        Nat.mul_div_cancel _ (by decide)]
      rfl
    · intro j hj
      show Function.update m.tabs pt (Function.update (m.tabs pt) i _) pt j = 0
      rw [Function.update_self, Function.update_of_ne (by omega)]
      exact hpt j (by omega)

/-- A machine before there is a heap. -/
def bootMachine : Machine where
  mem := fun _ => 0
  ram := fun _ => 0
  kheap := 0
  kheapEnd := 0
  live := []
  -- the page directories at 1 and 2 and the page table at 4 are the kernel's
  dirs := fun d => { PageDirectory.zero with virt := fun _ => d + 1 }
  tabs := fun _ _ => 0
  kernelPml4 := 1
  preallocPdpt := 5
  preallocPd := 6
  preallocPt := 7
  bitmap := some (usedBelow 16)

theorem initHeap_bootMachine :
    ∃ m, initHeap bootFrames bootMachine 0xFFFFFF8040000000 = some m := by
  have hone : OnePageTable { bootMachine with
      kheap := 0xFFFFFF8040000000, kheapEnd := 0xFFFFFF8040000000 + 512 * 0x1000 - 1, live := [] }
      0xFFFFFF8040000000 4 :=
    ⟨fun i _ => ⟨2, 3, rfl, by decide, rfl, by decide, rfl⟩, by decide⟩
  obtain ⟨m, hm⟩ := initPages_isSome (n := 512) (i := 0) (k := 16) (c := 1024) (by decide) hone
    (by decide) rfl (fun _ _ => rfl) (by decide) (by decide)
  rw [Nat.mul_zero, Nat.add_zero] at hm
  change initPages bootFrames _ _ _ = _ at hm
  rw [initHeap]
  simp only [Option.bind_eq_bind, hm, Option.bind_some, Option.pure_def]
  exact ⟨_, rfl⟩

end Boot

end Xana
