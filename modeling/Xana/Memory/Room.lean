import Xana.Memory.HeapInv

/-!
# Room in the heap

As long as the last block of the heap is free and long enough (`HasRoom`), a call of
`kmalloc_int` returns a block at once, without a call of `heap_expand`, and there is room
left (`HasRoom.kmallocInt`). The search may find another block before the last one.
-/

namespace Xana

open Mem

/-- **There is room for `n` bytes**: the last block is free, and has so many. -/
def HasRoom (m : Machine) (n : ℕ) : Prop :=
  ∃ l b, HeapInv m (l ++ [b]) ∧ b.free = true ∧ n ≤ b.length

/-- What a request takes from the room there is, at most. -/
def roomFor (size : ℕ) : ℕ := size + 0x1000 + heapHeaderSize + heapHeaderSize

section Room

variable {m : Machine} {mem : Mem} {a prev k n size : ℕ} {b : Block} {l l₁ l₂ : List Block}

theorem HasRoom.heap (h : HasRoom m n) : ∃ l, HeapInv m l := by
  obtain ⟨l, b, h, -⟩ := h
  exact ⟨_, h⟩

theorem HasRoom.congr {m' : Machine} (h : HasRoom m n) (hs : SameHeap m m') : HasRoom m' n := by
  obtain ⟨l, b, h, hb, hn⟩ := h
  exact ⟨l, b, h.congr hs, hb, hn⟩

/-- The search finds a block if the last one fits. -/
theorem Listed.exists_findHeader {fits : ℕ → Bool} (h : Listed mem a prev (l ++ [b]) 0) (ha : 0 < a)
    (hfits : fits (endOf heapHeaderSize a l) = true) (hn : l.length < n) :
    ∃ x, Xana.findHeader mem fits n a = some (some x) := by
  induction l generalizing a prev n with
  | nil =>
    obtain ⟨n, rfl⟩ : ∃ k, n = k + 1 := ⟨n - 1, by simp at hn; omega⟩
    refine ⟨a, ?_⟩
    rw [endOf_nil] at hfits
    rw [Xana.findHeader, if_neg ha.ne', if_pos hfits]
  | cons c l ih =>
    obtain ⟨n, rfl⟩ : ∃ k, n = k + 1 := ⟨n - 1, by simp at hn; omega⟩
    rw [Xana.findHeader, if_neg ha.ne']
    by_cases hc : fits a = true
    · exact ⟨a, by rw [if_pos hc]⟩
    · have hnext : (header mem a).next = a + heapHeaderSize + c.length := by
        rw [h.1]
        exact headOr_of_ne_nil _ _ (by simp)
      rw [if_neg hc, hnext]
      exact ih h.2 (by omega) hfits (by simpa using hn)

/-- An aligned request of a block in which it fits does not panic. -/
theorem Listed.exists_takeAligned (h : Listed mem a prev (l₁ ++ b :: l₂) 0) (hpos : 0 < size)
    (hup : endOf heapHeaderSize a l₁ + heapHeaderSize + 0xFFF < 2 ^ 64)
    (hfits : alignUp (endOf heapHeaderSize a l₁ + heapHeaderSize) + size ≤
      endOf heapHeaderSize a l₁ + heapHeaderSize + b.length) :
    ∃ mem', Xana.takeAligned mem size (endOf heapHeaderSize a l₁) = some mem' := by
  have hlen : (header mem (endOf heapHeaderSize a l₁)).length = b.length := by rw [h.header_eq]
  have hal := alignUp_eq hup
  have hsize : heapHeaderSize = 29 := rfl
  simp only [Xana.takeAligned, hlen, Option.bind_eq_bind, Option.pure_def]
  split_ifs with hfront hbad
  · omega
  · exact ⟨_, rfl⟩
  · exact ⟨_, rfl⟩

/-- The last block, when what is left of a free block takes its place. -/
theorem exists_last_leftover {c : Block} {r : ℕ} (hl : l₁ ++ b :: l₂ = l ++ [c])
    (hc : c.free = true)
    (hk : k ≤ c.length) (hr : b.length ≤ r + n) (hn : heapHeaderSize + n < k) (l' : List Block) :
    ∃ l₃ d, l₁ ++ ((l' ++ leftover r) ++ l₂) = l₃ ++ [d] ∧ d.free = true ∧
      k - (heapHeaderSize + n) ≤ d.length := by
  rcases l₂.eq_nil_or_concat' with rfl | ⟨l₂, d, rfl⟩
  · -- the block that is cut is the last one
    obtain ⟨-, hb⟩ := List.append_inj' hl rfl
    obtain rfl : b = c := by simpa using hb
    refine ⟨l₁ ++ l', ⟨r - heapHeaderSize, none⟩, ?_, rfl, ?_⟩
    · rw [leftover, if_pos (by omega)]
      simp
    · simp only
      omega
  · rw [List.append_cons, ← List.append_assoc] at hl
    obtain ⟨-, hd⟩ := List.append_inj' hl rfl
    obtain rfl : d = c := by simpa using hd
    exact ⟨l₁ ++ ((l' ++ leftover r) ++ l₂), d, by simp, hc, by omega⟩

variable (size) in
/-- **A request for which there is room** is met at once. -/
theorem HasRoom.tryAlloc (h : HasRoom m n) (align : Bool) (hpos : 0 < size) (hn : roomFor size < n)
    (hwrap : m.kheapEnd + 0xFFF + size < 2 ^ 64) :
    ∃ p mem, m.tryAlloc size align =
        some (some (p, { m with mem := mem, live := ⟨p, size, align⟩ :: m.live })) ∧
      HasRoom { m with mem := mem, live := ⟨p, size, align⟩ :: m.live } (n - roomFor size) := by
  obtain ⟨l, c, hinv, hc, hk⟩ := h
  have hroom : roomFor size = size + 0x1000 + heapHeaderSize + heapHeaderSize := rfl
  have hsize : heapHeaderSize = 29 := rfl
  have hend : ∀ {a b z}, l ++ [c] = a ++ b :: z →
      endOf heapHeaderSize m.kheap a + heapHeaderSize + b.length ≤ m.kheapEnd := by
    intro a b z heq
    rw [← hinv.end_eq, heq, endOf_append, endOf_cons]
    exact le_endOf
  have hlast := hend (a := l) (b := c) (z := []) rfl
  have hheader := (hinv.listed.header_eq : header m.mem (endOf heapHeaderSize m.kheap l) = _)
  have hup : alignUp (endOf heapHeaderSize m.kheap l + heapHeaderSize) ≤
      endOf heapHeaderSize m.kheap l + heapHeaderSize + 0xFFF := by
    rw [alignUp_eq (by omega)]
    omega
  obtain ⟨fits, hfits⟩ :
      ∃ fits, (if align then fitsAligned m.mem size else fitsUnaligned m.mem size) =
      fits := ⟨_, rfl⟩
  -- the last block is long enough, so the search stops there at the latest
  have hfit : fits (endOf heapHeaderSize m.kheap l) = true := by
    rw [← hfits]
    cases align with
    | true =>
      simp only [if_true, fitsAligned, hheader, hc, Bool.and_true, decide_eq_true_eq]
      rw [Nat.mod_eq_of_lt (by omega)]
      omega
    | false =>
      simp only [Bool.false_eq_true, if_false, fitsUnaligned, hheader, hc, Bool.and_true,
        decide_eq_true_eq]
      omega
  have hrounds : l.length < m.heapBytes := by
    have hmul : m.kheap + 29 * l.length ≤ endOf heapHeaderSize m.kheap l := length_mul_le_endOf
    rw [Machine.heapBytes]
    omega
  obtain ⟨x, hfind⟩ := hinv.listed.exists_findHeader hinv.kheap_pos hfit hrounds
  have hfound := hfind
  rw [← hinv.headOr_eq] at hfound
  obtain ⟨l₁, b, l₂, heq, rfl, hb⟩ := hinv.listed.findHeader hinv.kheap_pos hfound
  -- what is left behind the block that was found is the new last block, or the old one stays
  have hle := hend heq
  have hinv' := hinv
  rw [heq] at hinv'
  have hheader' := (hinv'.listed.header_eq : header m.mem (endOf heapHeaderSize m.kheap l₁) = _)
  rw [← hfits] at hb
  cases align with
  | true =>
    simp only [if_true, fitsAligned, hheader', Bool.and_eq_true, decide_eq_true_eq] at hb
    obtain ⟨hb, hfree⟩ := hb
    have hup' : endOf heapHeaderSize m.kheap l₁ + heapHeaderSize + 0xFFF < 2 ^ 64 := by omega
    have hal := alignUp_eq hup'
    rw [Nat.mod_eq_of_lt (by omega)] at hb
    obtain ⟨mem, hmem⟩ := hinv'.listed.exists_takeAligned hpos hup' hb
    obtain ⟨l', r, hl', hcut, hr⟩ :=
      hinv'.listed.takeAligned hinv'.lt_of_append hup' hb hfree hmem
    obtain ⟨slack, hslack⟩ : ∃ slack, slack = size + 0xFFF := ⟨_, rfl⟩
    have hlong : heapHeaderSize + slack < n := by omega
    obtain ⟨l₃, d, hl₃, hd, hroom'⟩ :=
      exists_last_leftover (r := r) heq.symm hc hk (by omega) hlong l'
    refine ⟨alignUp (endOf heapHeaderSize m.kheap l₁ + heapHeaderSize), mem, ?_, l₃, d, ?_, hd,
      by omega⟩
    · simp only [if_true] at hfits
      simp only [Machine.tryAlloc, if_true, hfits, hfind, takeBlock, hmem, Option.bind_eq_bind,
        Option.bind_some, Option.pure_def]
    · rw [← hl₃]
      exact hinv'.take hfree hl' hcut
  | false =>
    simp only [Bool.false_eq_true, if_false, fitsUnaligned, hheader', Bool.and_eq_true,
      decide_eq_true_eq] at hb
    obtain ⟨hb, hfree⟩ := hb
    obtain ⟨l', r, hl', hcut, hr⟩ := hinv'.listed.takeUnaligned hinv'.lt_of_append hb
    have hlong : heapHeaderSize + size < n := by omega
    obtain ⟨l₃, d, hl₃, hd, hroom'⟩ :=
      exists_last_leftover (r := r) heq.symm hc hk (by omega) hlong l'
    refine ⟨endOf heapHeaderSize m.kheap l₁ + heapHeaderSize,
      Xana.takeUnaligned m.mem size (endOf heapHeaderSize m.kheap l₁), ?_, l₃, d, ?_, hd, by omega⟩
    · simp only [Bool.false_eq_true, if_false] at hfits
      simp only [Machine.tryAlloc, Bool.false_eq_true, if_false, hfits, hfind, takeBlock,
        Option.bind_eq_bind, Option.bind_some, Option.pure_def]
    · rw [← hl₃]
      exact hinv'.take hfree hl' hcut

/-- **`kmalloc_int`, when there is room.** -/
theorem HasRoom.kmallocInt (h : HasRoom m n) (src : FrameSource) (k : ℕ) (align : Bool)
    (hpos : 0 < size) (hn : roomFor size < n) (hwrap : m.kheapEnd + 0xFFF + size < 2 ^ 64) :
    ∃ p mem, Xana.kmallocInt src (k + 1) m size align =
        some (p, { m with mem := mem, live := ⟨p, size, align⟩ :: m.live }) ∧
      HasRoom { m with mem := mem, live := ⟨p, size, align⟩ :: m.live } (n - roomFor size) := by
  obtain ⟨p, mem, htry, hroom⟩ := h.tryAlloc size align hpos hn hwrap
  obtain ⟨l, hinv⟩ := h.heap
  refine ⟨p, mem, ?_, hroom⟩
  rw [Xana.kmallocInt, if_neg hinv.kheap_pos.ne', htry]
  rfl

/-- A client writes in its chunk. -/
theorem HasRoom.write {u : Chunk} (h : HasRoom m n) (hu : u ∈ m.live) (bytes : List UInt8)
    (hlo : u.ptr ≤ a) (hhi : a + bytes.length ≤ u.ptr + u.size) :
    HasRoom { m with mem := m.mem.write a bytes } n := by
  obtain ⟨l, b, hinv, hb, hn⟩ := h
  exact ⟨l, b, hinv.write hu hlo hhi, hb, hn⟩

end Room

end Xana
