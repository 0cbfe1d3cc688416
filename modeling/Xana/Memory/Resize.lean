import Xana.Memory.Contents

/-!
# When `krealloc` moves a block

`krealloc` copies as many bytes as the old block's header says, whatever has been asked
for. That number is neither the old request nor the new one, and the copy is neither
bounded by the new block nor, if the new block is not aligned, complete: `memcpy` leaves
out some bytes at the end (`copied`).

So what `krealloc` promises (`Resized`) holds exactly if what is written fits in the new
block, and what is left out of the bytes that should be kept is there already
(`CopyFits`). For a block whose header says `L`, it is enough that `L` bytes fit and that
the new block is aligned.
-/

namespace Xana

open Mem

/-- How many bytes `memcpy` writes, of `n` bytes that go to `d`. -/
def copied (d n : ℕ) : ℕ := max (headLength d n) (n - headLength d n)

/-- **A block has been moved** from `ptr` to `p`, where `m₁` is the machine once the new
block is there. -/
structure Resized (m m₁ m' : Machine) (ptr old size p : ℕ) : Prop where
  live : ⟨p, size, false⟩ ∈ m'.live
  room : size ≤ payloadLength m' p
  kept : ∀ i < min old size, m'.mem (p + i) = m.mem (ptr + i)
  freed : ∃ hs, Freed m₁ m' ⟨ptr, old, false⟩ hs
  /-- Nothing is written outside the payload, whatever the memory holds. -/
  inside : ∀ (mem : Mem) (x : ℕ), x < p ∨ p + payloadLength m₁ p ≤ x →
    memcpy mem p ptr (payloadLength m₁ ptr) x = mem x

/-- What is expected of `krealloc`, when `kmalloc` leaves the machine `m₁`. -/
def KreallocLaws (src : FrameSource) (n : ℕ) (m m₁ : Machine) (ptr old size : ℕ) : Prop :=
  ∃ p m', krealloc src n m ptr size = some (p, m') ∧ Resized m m₁ m' ptr old size p

/-- **The copy fits**: what is written is not longer than the new block, and the bytes
that are left out are what they should be. -/
structure CopyFits (m m₁ : Machine) (ptr old size p : ℕ) : Prop where
  le : copied p (payloadLength m ptr) ≤ payloadLength m₁ p
  same : ∀ i, copied p (payloadLength m ptr) ≤ i → i < min old size →
    m₁.mem (p + i) = m.mem (ptr + i)

section Copy

variable {d s n k : ℕ}

/-- **Where `memcpy` writes**: nowhere else than in `k` bytes, if it writes no more. -/
theorem memcpy_inside_iff (h : d + headLength d n ≤ s ∨ s + n ≤ d) (hne : d ≠ s) :
    (∀ (mem : Mem) (x : ℕ), x < d ∨ d + k ≤ x → memcpy mem d s n x = mem x) ↔ copied d n ≤ k := by
  constructor
  · intro hall
    by_contra hlt
    -- the byte behind the `k` bytes is written with one that differs
    have hbyte := hall (fun x => if x = d + k then 1 else 0) (d + k) (Or.inr le_rfl)
    rw [memcpy_add h, if_pos (by rw [copied] at hlt; omega), if_pos rfl, if_neg (by omega)] at hbyte
    exact absurd hbyte (by decide)
  · rintro hle mem x (hx | hx)
    · exact memcpy_of_notMem h (Or.inl hx)
    · obtain ⟨i, rfl⟩ := Nat.exists_eq_add_of_le ((Nat.le_add_right d k).trans hx)
      rw [copied] at hle
      rw [memcpy_add h, if_neg (by omega)]

end Copy

/-! ### The steps of `krealloc` -/

section Machines

variable {src : FrameSource} {m m₁ m' : Machine} {l : List Block} {u v : Chunk}
variable {n p size ptr old : ℕ}

/-- **`kfree` gives back a chunk** that is not aligned. -/
theorem HeapInv.kfree_freed (h : HeapInv m l) (hu : u ∈ m.live) (hal : u.aligned = false) :
    ∃ m' l', Xana.kfree m u.ptr = some m' ∧ HeapInv m' l' ∧
      Freed m m' u (headers m'.kheap l') := by
  obtain ⟨l₁, b, l₂, rfl, hb, haddr, -, -, -⟩ := h.exists_block_before hu hal
  obtain ⟨l', hinv', hfreed⟩ := h.freed hb
  refine ⟨_, l', ?_, hinv', hfreed⟩
  rw [kfree_eq h.kheap_pos.ne', haddr, if_pos]
  rw [h.listed.header_eq]

/-- What is so once there is a new block. -/
structure NewBlock (m m₁ : Machine) (ptr old size p : ℕ) : Prop where
  inv : ∃ l, HeapInv m₁ l
  oldLive : ⟨ptr, old, false⟩ ∈ m₁.live
  newLive : ⟨p, size, false⟩ ∈ m₁.live
  ne : p ≠ ptr
  payload : payloadLength m₁ ptr = payloadLength m ptr
  bytes : ∀ i < old, m₁.mem (ptr + i) = m.mem (ptr + i)
  apart : p + headLength p (payloadLength m ptr) ≤ ptr ∨ ptr + payloadLength m ptr ≤ p

theorem HeapInv.newBlock (h : HeapInv m l) (hu : ⟨ptr, old, false⟩ ∈ m.live)
    (hwrap : m₁.kheapEnd + 0xFFF + size < 2 ^ 64)
    (hk : Xana.kmalloc src n m size = some (p, m₁)) : NewBlock m m₁ ptr old size p := by
  obtain ⟨⟨l', hinv'⟩, hnew, hsub, hfresh⟩ := h.kmalloc hwrap hk
  have hne : p ≠ ptr := (hfresh _ hu).symm
  have hpay := h.length_kmallocInt hwrap hk hu rfl
  have hbytes := h.keepsBytes_kmallocInt hwrap hk _ hu
  have hapart := hinv'.payload_apart hnew rfl (hsub hu) rfl hne
  simp only [payloadLength] at hpay hbytes hapart
  have hsize : heapHeaderSize = 29 := rfl
  rw [hpay] at hapart
  refine ⟨⟨l', hinv'⟩, hsub hu, hnew, hne, hpay, fun i hi => ?_, ?_⟩
  · exact hbytes (ptr + i) (Nat.le_add_right _ _) (Nat.add_lt_add_left hi ptr)
  · have hseven := headLength_le_seven p (payloadLength m ptr)
    rw [payloadLength] at hseven ⊢
    omega

/-- **`krealloc` when the copy fits the new block.** -/
theorem NewBlock.krealloc (h : NewBlock m m₁ ptr old size p)
    (hk : Xana.kmalloc src n m size = some (p, m₁))
    (hle : copied p (payloadLength m ptr) ≤ payloadLength m₁ p) :
    ∃ m' l, Xana.krealloc src n m ptr size = some (p, m') ∧ HeapInv m' l ∧
      Freed m₁ m' ⟨ptr, old, false⟩ (headers m'.kheap l) ∧
      ∀ i < size, m'.mem (p + i) =
        if i < copied p (payloadLength m ptr) then m₁.mem (ptr + i) else m₁.mem (p + i) := by
  obtain ⟨l₁, hinv⟩ := h.inv
  obtain ⟨mem, hmem⟩ : ∃ mem, memcpy m₁.mem p ptr (payloadLength m ptr) = mem := ⟨_, rfl⟩
  have hinside := (memcpy_inside_iff h.apart h.ne).mpr hle
  have hwritten : HeapInv { m₁ with mem := mem } l₁ := by
    refine hinv.writeBlock h.newLive rfl fun x hx => ?_
    rw [← hmem]
    exact hinside _ x hx
  obtain ⟨m', l', hfree, hinv', hfreed⟩ := hwritten.kfree_freed h.oldLive rfl
  refine ⟨m', l', ?_, hinv', ⟨hfreed.laws, hfreed.live, hfreed.free, hfreed.used⟩, fun i hi => ?_⟩
  · rw [← h.payload, payloadLength] at hmem
    simp only [Xana.krealloc, hk, hmem, hfree, Option.bind_eq_bind, Option.bind_some,
      Option.pure_def]
  · have hbyte : m'.mem (p + i) = mem (p + i) :=
      hwritten.kfree_byte h.oldLive rfl hfree h.newLive h.ne (Nat.le_add_right _ _)
        (by simpa using hi)
    rw [hbyte, ← hmem, memcpy_add h.apart, copied]

/-- **`krealloc` does what is expected of it exactly if the copy fits.** -/
theorem NewBlock.kreallocLaws_iff (h : NewBlock m m₁ ptr old size p)
    (hk : Xana.kmalloc src n m size = some (p, m₁)) :
    KreallocLaws src n m m₁ ptr old size ↔ CopyFits m m₁ ptr old size p := by
  constructor
  · rintro ⟨q, m', hcall, hlaws⟩
    obtain rfl : p = q := by
      simp only [Xana.krealloc, hk, Option.bind_eq_bind, Option.bind_some, Option.pure_def,
        Option.bind_eq_some_iff, Option.some.injEq, Prod.mk.injEq] at hcall
      obtain ⟨-, -, rfl, -⟩ := hcall
      rfl
    have hinside := hlaws.inside
    rw [h.payload] at hinside
    have hle := (memcpy_inside_iff h.apart h.ne).mp hinside
    obtain ⟨m₂, -, hcall', -, -, hbytes⟩ := h.krealloc hk hle
    rw [hcall'] at hcall
    obtain rfl : m₂ = m' := by simpa using hcall
    refine ⟨hle, fun i hi hlt => ?_⟩
    rw [← hlaws.kept i hlt, hbytes i (by omega), if_neg (by omega)]
  · rintro ⟨hle, hsame⟩
    obtain ⟨m', l, hcall, hinv, hfreed, hbytes⟩ := h.krealloc hk hle
    have hlive : ⟨p, size, false⟩ ∈ m'.live :=
      (hfreed.live _).mpr ⟨h.newLive, fun heq => h.ne (congrArg Chunk.ptr heq)⟩
    refine ⟨p, m', hcall, hlive, hinv.size_le hlive rfl, fun i hi => ?_, ⟨_, hfreed⟩, ?_⟩
    · rw [hbytes i (by omega)]
      split_ifs with hlt
      · exact h.bytes i (by omega)
      · exact hsame i (by omega) hi
    · rw [h.payload]
      exact (memcpy_inside_iff h.apart h.ne).mpr hle

/-! ### Runs -/

/-- What is done with the heap, `krealloc` included. -/
inductive ResizeCall
  | heap (c : HeapCall)
  /-- A request of no bytes. -/
  | empty
  | krealloc (n ptr size : ℕ)

/-- **A call that returns**, made as callers promise. -/
def ResizeStep (src : FrameSource) (m : Machine) : ResizeCall → Machine → Prop
  | .heap c, m' => HeapStep src m c m'
  | .empty, m' => m'.kheapEnd + 0xFFF < 2 ^ 64 ∧ ∃ n p, kmalloc src n m 0 = some (p, m')
  | .krealloc n ptr size, m' =>
      ∃ old p m₁, ⟨ptr, old, false⟩ ∈ m.live ∧ kmalloc src n m size = some (p, m₁) ∧
        m₁.kheapEnd + 0xFFF + size < 2 ^ 64 ∧ krealloc src n m ptr size = some (p, m')

/-- The condition on the calls of `krealloc`. -/
def CopiesFit (src : FrameSource) (m : Machine) : ResizeCall → Prop
  | .krealloc n ptr size => ∀ old p m₁, ⟨ptr, old, false⟩ ∈ m.live →
      kmalloc src n m size = some (p, m₁) → CopyFits m m₁ ptr old size p
  | _ => True

/-- **Every call keeps the heap.** -/
theorem HeapInv.resizeStep {c : ResizeCall} (h : HeapInv m l) (hok : CopiesFit src m c)
    (hs : ResizeStep src m c m') : ∃ l', HeapInv m' l' := by
  cases c with
  | heap c => exact h.step hs
  | empty =>
    obtain ⟨hwrap, n, p, hk⟩ := hs
    exact (h.kmalloc hwrap hk).1
  | krealloc n ptr size =>
    obtain ⟨old, p, m₁, hu, hk, hwrap, hcall⟩ := hs
    obtain ⟨m₂, l', hcall', hinv, -⟩ := (h.newBlock hu hwrap hk).krealloc hk (hok old p m₁ hu hk).le
    obtain rfl : m₂ = m' := by simpa using hcall'.symm.trans hcall
    exact ⟨l', hinv⟩

theorem heapInv_of_resizeReach (h : Reach (ResizeStep src) (CopiesFit src) (HeapBuilt src) m) :
    ∃ l, HeapInv m l := by
  refine h.invariant (P := fun m => ∃ l, HeapInv m l) (fun _ hs => hs.inv) ?_
  rintro m c m' ⟨l, hinv⟩ hok hs
  exact hinv.resizeStep hok hs

/-- **`krealloc` moves a block exactly if the copy fits**, in every state that is reached
and for every size that there is a block for. -/
theorem kreallocLaws_iff_of_reach (h : Reach (ResizeStep src) (CopiesFit src) (HeapBuilt src) m)
    (hu : ⟨ptr, old, false⟩ ∈ m.live) (hk : kmalloc src n m size = some (p, m₁))
    (hwrap : m₁.kheapEnd + 0xFFF + size < 2 ^ 64) :
    KreallocLaws src n m m₁ ptr old size ↔ CopyFits m m₁ ptr old size p := by
  obtain ⟨l, hinv⟩ := heapInv_of_resizeReach h
  exact (hinv.newBlock hu hwrap hk).kreallocLaws_iff hk

end Machines

/-! ### A block that is made smaller -/

section Boot

variable {m : Machine} {size : ℕ}

/-- Behind a block of 4037 bytes, a block of any length that is not aligned. -/
theorem FreshHeap.kmalloc_two (src : FrameSource) (hm : FreshHeap m) (hsize : size ≤ 4096) :
    ∃ m₁ m₂, Xana.kmalloc src 1 m 4037 = some (m.kheap + 29, m₁) ∧
      m₁.live = ⟨m.kheap + 29, 4037, false⟩ :: m.live ∧ m₁.kheapEnd = m.kheapEnd ∧
      Xana.kmalloc src 1 m₁ size = some (m.kheap + 4095, m₂) ∧ m₂.kheapEnd = m.kheapEnd ∧
      payloadLength m₁ (m.kheap + 29) = 4037 ∧ payloadLength m₂ (m.kheap + 4095) = size := by
  obtain ⟨m₁, hk, hlive, hkheap, hkend, hheader, hnext⟩ := hm.kmalloc src
  obtain ⟨-, hend, hpos, -, hlt⟩ := hm
  have hhd : heapHeaderSize = 29 := rfl
  have hrounds : m₁.heapBytes = 0x1FFFFE + 1 + 1 := by rw [Machine.heapBytes]; omega
  have hfits : fitsUnaligned m₁.mem size (m.kheap + 4066) = true := by
    simp only [fitsUnaligned, hnext, Bool.and_true, decide_eq_true_eq]
    omega
  have hfind : findHeader m₁.mem (fitsUnaligned m₁.mem size) m₁.heapBytes m₁.kheap =
      some (some (m.kheap + 4066)) := by
    have hused : ¬fitsUnaligned m₁.mem size m.kheap = true := by simp [fitsUnaligned, hheader]
    rw [hrounds, hkheap, findHeader, if_neg hpos.ne', if_neg hused, hheader, findHeader,
      if_neg (by simp only; omega), if_pos hfits]
  refine ⟨m₁, { m₁ with
      mem := takeUnaligned m₁.mem size (m.kheap + 4066)
      live := ⟨m.kheap + 4095, size, false⟩ :: m₁.live }, hk, hlive, hkend, ?_, hkend, ?_, ?_⟩
  · rw [Xana.kmalloc, kmallocInt, if_neg (by omega), Machine.tryAlloc]
    simp only [Bool.false_eq_true, if_false, hfind, takeBlock, Option.bind_eq_bind,
      Option.bind_some, Option.pure_def, hhd]
  · rw [payloadLength, hhd, Nat.add_sub_cancel, hheader]
  · have hback : m.kheap + 4095 - 29 = m.kheap + 4066 := by omega
    have hself := header_splitHeader_self (m := m₁.mem) (h := m.kheap + 4066)
      (n := m.kheap + 4066 + 29 + size) (L := 2093056 - size - 29) (f := true) (k := size)
      (by omega) (by simp [hnext]) (by omega) (by omega)
    simp only [payloadLength, takeUnaligned, hnext, hhd, hback]
    rw [if_pos (by omega), header_setFree_self]
    exact congrArg HeapHeader.length (hself.trans (by rw [hnext]))

variable (size) in
/-- Two machines: one with a block of 4037 bytes, and the same with a new block for it. -/
theorem exists_resize (hsize : size ≤ 4096) : ∃ m m₁ ptr p,
    Reach (ResizeStep bootFrames) (CopiesFit bootFrames) (HeapBuilt bootFrames) m ∧
    ⟨ptr, 4037, false⟩ ∈ m.live ∧ kmalloc bootFrames 1 m size = some (p, m₁) ∧
    m₁.kheapEnd + 0xFFF + size < 2 ^ 64 ∧ p % 8 = 7 ∧ payloadLength m ptr = 4037 ∧
    payloadLength m₁ p = size := by
  obtain ⟨m, hinit⟩ := initHeap_bootMachine
  have hbuilt : HeapBuilt bootFrames m :=
    ⟨bootMachine, 0xFFFFFF8040000000, by decide, by decide, by decide, hinit⟩
  have hkheap := kheap_of_initHeap hinit
  obtain ⟨m₁, m₂, h₁, hlive, hend₁, h₂, hend₂, hold, hnew⟩ :=
    hbuilt.freshHeap.kmalloc_two bootFrames hsize
  have hend := hbuilt.freshHeap.kheapEnd_eq
  have hs : ResizeStep bootFrames m (.heap (.kmalloc 4037)) m₁ := ⟨by decide, by omega, 1, _, h₁⟩
  have hok : CopiesFit bootFrames m (.heap (.kmalloc 4037)) := trivial
  refine ⟨m₁, m₂, _, _, (Reach.init hbuilt).step hok hs, ?_, h₂, by omega, by omega, hold, hnew⟩
  rw [hlive]
  exact List.mem_cons_self

/-- What is written of 4037 bytes that go to such an address. -/
theorem copied_4037 {p : ℕ} (hp : p % 8 = 7) : copied p 4037 = 4036 := by
  have hhead : headLength p 4037 = 1 := by
    rw [headLength]
    omega
  rw [copied, hhead]
  decide

/-- **A block of 4037 bytes is cut by one**: of what is copied, the last byte is not. -/
theorem kreallocLaws_iff_of_reach_shrink : ∃ m m₁ ptr,
    ⟨ptr, 4037, false⟩ ∈ m.live ∧ KreallocLaws bootFrames 1 m m₁ ptr 4037 4036 := by
  obtain ⟨m, m₁, ptr, p, hreach, hu, hk, hwrap, hp, hold, hnew⟩ := exists_resize 4036 (by decide)
  refine ⟨m, m₁, ptr, hu, (kreallocLaws_iff_of_reach hreach hu hk hwrap).mpr
    ⟨?_, fun i hi hlt => ?_⟩⟩
  · rw [hold, hnew, copied_4037 hp]
  · rw [hold, copied_4037 hp] at hi
    omega

/-- `krealloc` to one byte writes behind it. -/
theorem not_kreallocLaws : ¬∀ (src : FrameSource) (m m₁ : Machine) (n ptr old size p : ℕ),
    Reach (ResizeStep src) (CopiesFit src) (HeapBuilt src) m → ⟨ptr, old, false⟩ ∈ m.live →
      kmalloc src n m size = some (p, m₁) → m₁.kheapEnd + 0xFFF + size < 2 ^ 64 →
        KreallocLaws src n m m₁ ptr old size := by
  intro hall
  obtain ⟨m, m₁, ptr, p, hreach, hu, hk, hwrap, hp, hold, hnew⟩ := exists_resize 1 (by decide)
  obtain ⟨l, hinv⟩ := heapInv_of_resizeReach hreach
  have hlaws := hall bootFrames m m₁ 1 ptr 4037 1 p hreach hu hk hwrap
  have hle := (((hinv.newBlock hu hwrap hk).kreallocLaws_iff hk).mp hlaws).le
  rw [hold, hnew, copied_4037 hp] at hle
  exact absurd hle (by decide)

end Boot

end Xana
