import Mathlib.Data.List.Chain
import Mathlib.Data.List.Pairwise

/-!
# Blocks that tile a range

An allocator that puts a header of `hd` bytes before each block cuts its range
into blocks one behind the other. A list of blocks stands for such a cut: from `a`
on, each block begins where the one before ends, so the tiling is there by
construction, and the addresses are sums of lengths (`endOf`).

A block is free, or it has been given out for a chunk, which must lie in its
payload (`InBlocks`). Then no two chunks overlap
(`InBlocks.pairwise_apart`). Blocks are edited where they are: a list is split
around the block, and `InBlocks`, the chunks and the rule that no two
neighbours are free (`NoFreePair`) are followed through the append
lemmas.
-/

namespace Xana

/-- Bytes that were asked for: `size` of them from `ptr` on, page-aligned or not. -/
structure Chunk where
  ptr : ℕ
  size : ℕ
  aligned : Bool
  deriving DecidableEq, Repr

/-- Two chunks do not overlap. -/
def Chunk.Apart (u v : Chunk) : Prop := u.ptr + u.size ≤ v.ptr ∨ v.ptr + v.size ≤ u.ptr

theorem Chunk.Apart.symm {u v : Chunk} (h : u.Apart v) : v.Apart u := Or.symm h

/-- A block: the length of its payload, and the chunk it was given out for. -/
structure Block where
  length : ℕ
  use : Option Chunk
  deriving DecidableEq, Repr

/-- Whether a block is free. -/
def Block.free (b : Block) : Bool := b.use.isNone

@[simp] theorem Block.free_none (n : ℕ) : (Block.mk n none).free = true := rfl

@[simp] theorem Block.free_some (n : ℕ) (u : Chunk) : (Block.mk n (some u)).free = false := rfl

theorem Block.use_eq_none {b : Block} (h : b.free = true) : b.use = none :=
  Option.isNone_iff_eq_none.mp h

theorem Block.free_of_use {b : Block} (h : b.use = none) : b.free = true :=
  Option.isNone_iff_eq_none.mpr h

/-- Where a list of blocks from `a` on ends. -/
def endOf (hd a : ℕ) : List Block → ℕ
  | [] => a
  | b :: l => endOf hd (a + hd + b.length) l

/-- The chunks that blocks were given out for. -/
def chunks (l : List Block) : List Chunk := l.filterMap Block.use

/-- The chunks that do not begin at `ptr`. -/
def without (l : List Chunk) (ptr : ℕ) : List Chunk := l.filter fun u => u.ptr ≠ ptr

/-- No two neighbours are free. -/
def NoFreePair (l : List Block) : Prop := l.IsChain fun b c => b.free = false ∨ c.free = false

/-- A chunk in the payload of a block at `a`. Only one that is aligned may begin
behind the first byte. -/
structure Chunk.Inside (hd a length : ℕ) (u : Chunk) : Prop where
  le_ptr : a + hd ≤ u.ptr
  end_le : u.ptr + u.size ≤ a + hd + length
  ptr_eq : u.aligned = false → u.ptr = a + hd

/-- The chunks lie in the payloads of their blocks. -/
def InBlocks (hd : ℕ) : ℕ → List Block → Prop
  | _, [] => True
  | a, b :: l => (∀ u ∈ b.use, u.Inside hd a b.length) ∧ InBlocks hd (a + hd + b.length) l

section Tiling

variable {hd a : ℕ} {b c : Block} {l l₁ l₂ : List Block} {u v : Chunk}

/-! ### Ends -/

@[simp] theorem endOf_nil : endOf hd a [] = a := rfl

@[simp] theorem endOf_cons : endOf hd a (b :: l) = endOf hd (a + hd + b.length) l := rfl

@[simp] theorem endOf_append : endOf hd a (l₁ ++ l₂) = endOf hd (endOf hd a l₁) l₂ := by
  induction l₁ generalizing a with
  | nil => rfl
  | cons b l₁ ih => exact ih

theorem le_endOf : a ≤ endOf hd a l := by
  induction l generalizing a with
  | nil => exact le_rfl
  | cons b l ih =>
    have hle := ih (a := a + hd + b.length)
    rw [endOf_cons]
    omega

/-- A list has no more blocks than its range has headers. -/
theorem length_mul_le_endOf : a + hd * l.length ≤ endOf hd a l := by
  induction l generalizing a with
  | nil => simp
  | cons b l ih =>
    have hle := ih (a := a + hd + b.length)
    rw [endOf_cons, List.length_cons, Nat.mul_succ]
    omega

/-! ### Chunks -/

@[simp] theorem chunks_nil : chunks [] = [] := rfl

@[simp] theorem chunks_append : chunks (l₁ ++ l₂) = chunks l₁ ++ chunks l₂ :=
  List.filterMap_append

theorem chunks_cons_of_free (h : b.free = true) : chunks (b :: l) = chunks l :=
  List.filterMap_cons_none (Block.use_eq_none h)

theorem chunks_cons_of_use (h : b.use = some u) : chunks (b :: l) = u :: chunks l :=
  List.filterMap_cons_some h

@[simp] theorem inBlocks_nil : InBlocks hd a [] := trivial

@[simp] theorem inBlocks_cons : InBlocks hd a (b :: l) ↔
    (∀ u ∈ b.use, u.Inside hd a b.length) ∧ InBlocks hd (a + hd + b.length) l := Iff.rfl

theorem inBlocks_append :
    InBlocks hd a (l₁ ++ l₂) ↔ InBlocks hd a l₁ ∧ InBlocks hd (endOf hd a l₁) l₂ := by
  induction l₁ generalizing a with
  | nil => simp
  | cons b l₁ ih => rw [List.cons_append, inBlocks_cons, inBlocks_cons, endOf_cons, ih, and_assoc]

/-- The block of a chunk. -/
theorem InBlocks.exists_block (h : InBlocks hd a l) (hu : u ∈ chunks l) :
    ∃ l₁ b l₂, l = l₁ ++ b :: l₂ ∧ b.use = some u ∧ u.Inside hd (endOf hd a l₁) b.length := by
  obtain ⟨b, hb, hbu⟩ := List.mem_filterMap.mp hu
  obtain ⟨l₁, l₂, rfl⟩ := List.append_of_mem hb
  rw [inBlocks_append, inBlocks_cons] at h
  exact ⟨l₁, b, l₂, rfl, hbu, h.2.1 u hbu⟩

/-- Chunks lie between the ends. -/
theorem InBlocks.bounds (h : InBlocks hd a l) (hu : u ∈ chunks l) :
    a + hd ≤ u.ptr ∧ u.ptr + u.size ≤ endOf hd a l := by
  obtain ⟨l₁, b, l₂, rfl, -, hin⟩ := h.exists_block hu
  have h₁ : a ≤ endOf hd a l₁ := le_endOf
  have h₂ : endOf hd a l₁ + hd + b.length ≤ endOf hd (endOf hd a l₁ + hd + b.length) l₂ := le_endOf
  have hlo := hin.le_ptr
  have hhi := hin.end_le
  rw [endOf_append, endOf_cons]
  omega

/-- **No two chunks overlap.** -/
theorem InBlocks.pairwise_apart (h : InBlocks hd a l) : (chunks l).Pairwise Chunk.Apart := by
  induction l generalizing a with
  | nil => exact List.Pairwise.nil
  | cons b l ih =>
    obtain ⟨hb, hl⟩ := h
    cases hbu : b.use with
    | none =>
      rw [chunks, List.filterMap_cons_none hbu]
      exact ih hl
    | some u =>
      rw [chunks_cons_of_use hbu, List.pairwise_cons]
      refine ⟨fun v hv => Or.inl ?_, ih hl⟩
      have hend := (hb u hbu).end_le
      have hlo := (hl.bounds hv).1
      omega

/-- **The chunks are in order**: each begins before the next, whatever their sizes. -/
theorem InBlocks.pairwise_lt (h : InBlocks hd a l) (hhd : 0 < hd) :
    (chunks l).Pairwise fun u v => u.ptr < v.ptr := by
  induction l generalizing a with
  | nil => exact List.Pairwise.nil
  | cons b l ih =>
    obtain ⟨hb, hl⟩ := h
    cases hbu : b.use with
    | none =>
      rw [chunks, List.filterMap_cons_none hbu]
      exact ih hl
    | some u =>
      rw [chunks_cons_of_use hbu, List.pairwise_cons]
      refine ⟨fun v hv => ?_, ih hl⟩
      have hend := (hb u hbu).end_le
      have hlo := (hl.bounds hv).1
      omega

/-! ### Neighbours -/

theorem noFreePair_append : NoFreePair (l₁ ++ l₂) ↔ NoFreePair l₁ ∧ NoFreePair l₂ ∧
    ∀ b ∈ l₁.getLast?, ∀ c ∈ l₂.head?, b.free = false ∨ c.free = false :=
  List.isChain_append

/-- The last block is in use, if there is one. -/
def LastUsed (l : List Block) : Prop := ∀ b ∈ l.getLast?, b.free = false

/-- The first block is in use, if there is one. -/
def HeadUsed (l : List Block) : Prop := ∀ b ∈ l.head?, b.free = false

theorem NoFreePair.used_of_free (h : NoFreePair (l₁ ++ b :: l₂)) (hb : b.free = true) :
    LastUsed l₁ ∧ HeadUsed l₂ := by
  obtain ⟨-, h₂, h₃⟩ := noFreePair_append.mp h
  constructor
  · intro c hc
    simpa [hb] using h₃ c hc b rfl
  · intro c hc
    simpa [hb] using (List.isChain_cons.mp h₂).1 c hc

/-- Between blocks in use, anything may stand. -/
theorem NoFreePair.insert (h₁ : NoFreePair l₁) (h : NoFreePair l) (h₂ : NoFreePair l₂)
    (hlast : LastUsed l₁) (hhead : HeadUsed l₂) : NoFreePair (l₁ ++ (l ++ l₂)) := by
  refine noFreePair_append.mpr ⟨h₁, noFreePair_append.mpr ⟨h, h₂, ?_⟩, ?_⟩
  · intro b _ c hc
    exact Or.inr (hhead c hc)
  · intro b hb c _
    exact Or.inl (hlast b hb)

/-- **Where a free block stood, anything may stand.** -/
theorem NoFreePair.replace (h : NoFreePair (l₁ ++ b :: l₂)) (hb : b.free = true)
    (hl : NoFreePair l) : NoFreePair (l₁ ++ (l ++ l₂)) := by
  obtain ⟨hlast, hhead⟩ := h.used_of_free hb
  obtain ⟨h₁, h₂, -⟩ := noFreePair_append.mp h
  exact h₁.insert hl h₂.tail hlast hhead

end Tiling

end Xana
