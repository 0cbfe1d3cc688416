import Mathlib.Data.List.Pairwise
import Xana.Lib.Copy
import Xana.String.Basic

/-!
# `memmove`, with its pointers

`Xana.memmove` takes addresses for numbers, of which there is no last one. Here a pointer has
64 bits, as in `string.c`: `s + n` wraps, and so do `d++` and `--s`.

Both loops copy one byte after another, upwards or downwards (`Pointer.memmove_eq`), so the
question is whether the order is one that reads each byte before it is overwritten. The
comparison picks such an order whenever neither range wraps (`Pointer.moved_memmove`); in
general it may be misled, and `Pointer.forall_moved_iff` says when. Where nothing wraps the two
models agree (`Pointer.memmove_toMem`).
-/

namespace Xana

namespace Pointer

/-! ### The function -/

/-- `while (n--) *d++ = *s++;` -/
def copyUp (m : BitVec 64 → UInt8) (d s : BitVec 64) : ℕ → BitVec 64 → UInt8
  | 0 => m
  | n + 1 => copyUp (Function.update m d (m s)) (d + 1) (s + 1) n

/-- `while (n--) *--d = *--s;` -/
def copyDown (m : BitVec 64 → UInt8) (d s : BitVec 64) : ℕ → BitVec 64 → UInt8
  | 0 => m
  | n + 1 => copyDown (Function.update m (d - 1) (m (s - 1))) (d - 1) (s - 1) n

/-- `memmove`: what it returns, and the memory. -/
def memmove (m : BitVec 64 → UInt8) (dest src n : BitVec 64) : BitVec 64 × (BitVec 64 → UInt8) :=
  if src < dest ∧ src + n > dest then (dest, copyDown m (dest + n) (src + n) n.toNat)
  else (dest, copyUp m dest src n.toNat)

/-- **What `memmove` is for**: the destination has the bytes that the source had, and no other
byte has changed. -/
structure Moved (dest src n : BitVec 64) (m m' : BitVec 64 → UInt8) : Prop where
  copied : ∀ i < n, m' (dest + i) = m (src + i)
  kept : ∀ b, (∀ i < n, b ≠ dest + i) → m' b = m b

/-! ### The order of the bytes -/

/-- The byte `p[i]`. -/
def byteAt (p : BitVec 64) (i : ℕ) : BitVec 64 := p + BitVec.ofNat 64 i

/-- The order in which `memmove` copies. -/
def moveOrder (dest src n : BitVec 64) : List ℕ :=
  if src < dest ∧ src + n > dest then (List.range n.toNat).reverse else List.range n.toNat

/-- `q` is one of the `n` bytes at `p`, and not the first of them. -/
def Reaches (n p q : BitVec 64) : Prop := 0 < (q - p).toNat ∧ (q - p).toNat < n.toNat

section Order

variable {m : BitVec 64 → UInt8} {dest src n p q d s : BitVec 64} {i j k : ℕ}

@[simp] theorem byteAt_zero (p : BitVec 64) : byteAt p 0 = p := by simp [byteAt]

theorem byteAt_succ (p : BitVec 64) (i : ℕ) : byteAt p (i + 1) = byteAt p i + 1 := by
  rw [byteAt, byteAt, BitVec.ofNat_add, BitVec.add_assoc]
  rfl

theorem byteAt_toNat (p i : BitVec 64) : byteAt p i.toNat = p + i := by
  rw [byteAt, BitVec.ofNat_toNat, BitVec.setWidth_eq]

/-- Two bytes are one if the pointers are as far apart as the indices. -/
theorem byteAt_eq_iff (hi : i ≤ j) (hj : j < 2 ^ 64) :
    byteAt p j = byteAt q i ↔ (q - p).toNat = j - i := by
  rw [byteAt, byteAt, ← BitVec.toNat_inj]
  simp only [BitVec.toNat_add, BitVec.toNat_sub, BitVec.toNat_ofNat]
  omega

theorem byteAt_inj (hij : i < j) (hj : j < 2 ^ 64) : byteAt p i ≠ byteAt p j := by
  intro heq
  have hzero := (byteAt_eq_iff hij.le hj).mp heq.symm
  rw [BitVec.sub_self] at hzero
  simp only [BitVec.toNat_zero] at hzero
  omega

theorem copyUp_eq (d s : BitVec 64) (k n : ℕ) (m : BitVec 64 → UInt8) :
    copyUp m (byteAt d k) (byteAt s k) n =
      copyCells (byteAt d) (byteAt s) (List.range' k n) m := by
  induction n generalizing k m with
  | zero => rfl
  | succ n ih =>
    rw [copyUp, ← byteAt_succ, ← byteAt_succ, ih]
    rfl

theorem copyDown_eq (d s : BitVec 64) (n : ℕ) (m : BitVec 64 → UInt8) :
    copyDown m (byteAt d n) (byteAt s n) n =
      copyCells (byteAt d) (byteAt s) (List.range n).reverse m := by
  induction n generalizing m with
  | zero => rfl
  | succ n ih =>
    have hback : ∀ p, byteAt p (n + 1) - 1 = byteAt p n := fun p => by
      rw [byteAt_succ, BitVec.add_sub_cancel]
    rw [copyDown, hback, hback, ih, List.range_succ, List.reverse_append]
    rfl

/-- **`memmove` copies one byte after another.** -/
theorem memmove_eq (m : BitVec 64 → UInt8) (dest src n : BitVec 64) :
    memmove m dest src n =
      (dest, copyCells (byteAt dest) (byteAt src) (moveOrder dest src n) m) := by
  rw [memmove, moveOrder]
  split_ifs with h
  · rw [← copyDown_eq, byteAt_toNat, byteAt_toNat]
  · have hup := copyUp_eq dest src 0 n.toNat m
    rw [byteAt_zero, byteAt_zero, ← List.range_eq_range'] at hup
    rw [hup]

theorem pairwise_range_iff {R : ℕ → ℕ → Prop} {k : ℕ} :
    (List.range k).Pairwise R ↔ ∀ i j, i < j → j < k → R i j := by
  rw [List.pairwise_iff_getElem]
  simp only [List.length_range, List.getElem_range]
  constructor
  · exact fun h i j hij hj => h i j (hij.trans hj) hj hij
  · exact fun h i j _ hj hij => h i j hij hj

/-- **Upwards**: a byte is overwritten before it is read if the destination begins within the
source. -/
theorem readFirst_range :
    ReadFirst (byteAt d) (byteAt s) (List.range n.toNat) ↔ ¬Reaches n s d := by
  have hn := n.isLt
  rw [ReadFirst, pairwise_range_iff]
  constructor
  · rintro h ⟨hpos, hlt⟩
    exact h 0 _ hpos hlt ((byteAt_eq_iff (Nat.zero_le _) (d - s).isLt).mpr rfl)
  · intro h i j hij hj heq
    rw [byteAt_eq_iff hij.le (hj.trans hn)] at heq
    exact h ⟨by omega, by omega⟩

/-- **Downwards**: if the source begins within the destination. -/
theorem readFirst_reverse :
    ReadFirst (byteAt d) (byteAt s) (List.range n.toNat).reverse ↔ ¬Reaches n d s := by
  rw [← readFirst_range, ReadFirst, ReadFirst, List.pairwise_reverse]
  exact List.Pairwise.iff fun i j => ne_comm

theorem readFirst_moveOrder :
    ReadFirst (byteAt dest) (byteAt src) (moveOrder dest src n) ↔
      if src < dest ∧ src + n > dest then ¬Reaches n dest src else ¬Reaches n src dest := by
  rw [moveOrder]
  split_ifs
  · exact readFirst_reverse
  · exact readFirst_range

theorem pairwise_byteAt : (moveOrder dest src n).Pairwise fun i j => byteAt p i ≠ byteAt p j := by
  have hn := n.isLt
  have hrange : (List.range n.toNat).Pairwise fun i j => byteAt p i ≠ byteAt p j :=
    pairwise_range_iff.mpr fun i j hij hj => byteAt_inj hij (hj.trans hn)
  rw [moveOrder]
  split_ifs
  · rw [List.pairwise_reverse]
    exact hrange.imp fun h => h.symm
  · exact hrange

theorem mem_moveOrder : i ∈ moveOrder dest src n ↔ i < n.toNat := by
  rw [moveOrder]
  split_ifs
  · rw [List.mem_reverse, List.mem_range]
  · rw [List.mem_range]

variable (dest src n) in
/-- The bytes of the two ranges, by their indices. -/
theorem forall_lt_iff (P : BitVec 64 → BitVec 64 → Prop) :
    (∀ i < n, P (dest + i) (src + i)) ↔
      ∀ i ∈ moveOrder dest src n, P (byteAt dest i) (byteAt src i) := by
  constructor
  · intro h i hi
    have hlt := mem_moveOrder.mp hi
    refine h (BitVec.ofNat 64 i) ?_
    rw [BitVec.lt_def, BitVec.toNat_ofNat, Nat.mod_eq_of_lt (hlt.trans n.isLt)]
    exact hlt
  · intro h i hi
    have hbyte := h i.toNat (mem_moveOrder.mpr hi)
    rwa [byteAt_toNat, byteAt_toNat] at hbyte

theorem moved_iff_copiedCells {m' : BitVec 64 → UInt8} :
    Moved dest src n m m' ↔ CopiedCells (byteAt dest) (byteAt src) (moveOrder dest src n) m m' := by
  have hcopied := forall_lt_iff dest src n fun p q => m' p = m q
  have houtside := fun b => forall_lt_iff dest src n fun p _ => b ≠ p
  constructor
  · rintro ⟨h, hkept⟩
    exact ⟨hcopied.mp h, fun b hb => hkept b ((houtside b).mpr hb)⟩
  · rintro ⟨h, hkept⟩
    exact ⟨hcopied.mpr h, fun b hb => hkept b ((houtside b).mp hb)⟩

/-! ### When `memmove` moves -/

/-- **When `memmove` moves whatever is in memory**: in the direction that it takes, the range
that it writes does not begin within the part of the other one that is still to be read. -/
theorem forall_moved_iff :
    (∀ m, Moved dest src n m (memmove m dest src n).2) ↔
      if src < dest ∧ src + n > dest then ¬Reaches n dest src else ¬Reaches n src dest := by
  have : Nontrivial UInt8 := ⟨0, 1, by decide⟩
  have hiff : (∀ m : BitVec 64 → UInt8, CopiedCells (byteAt dest) (byteAt src)
      (moveOrder dest src n) m (copyCells (byteAt dest) (byteAt src) (moveOrder dest src n) m)) ↔
        ReadFirst (byteAt dest) (byteAt src) (moveOrder dest src n) :=
    copied_iff_readFirst pairwise_byteAt pairwise_byteAt
  rw [← readFirst_moveOrder, ← hiff]
  simp only [memmove_eq, moved_iff_copiedCells]

/-- Where no range wraps the comparison is right. -/
theorem not_reaches (hsrc : src.toNat + n.toNat ≤ 2 ^ 64) (hdest : dest.toNat + n.toNat ≤ 2 ^ 64) :
    if src < dest ∧ src + n > dest then ¬Reaches n dest src else ¬Reaches n src dest := by
  have hd := dest.isLt
  split_ifs with h
  · rintro ⟨-, hlt⟩
    rw [BitVec.lt_def] at h
    rw [BitVec.toNat_sub] at hlt
    omega
  · rintro ⟨hpos, hlt⟩
    rw [BitVec.lt_def, gt_iff_lt, BitVec.lt_def, BitVec.toNat_add] at h
    rw [BitVec.toNat_sub] at hpos hlt
    omega

/-- There each byte is read before it is overwritten. -/
theorem copied_memmove (m : BitVec 64 → UInt8) (hsrc : src.toNat + n.toNat ≤ 2 ^ 64)
    (hdest : dest.toNat + n.toNat ≤ 2 ^ 64) :
    CopiedCells (byteAt dest) (byteAt src) (moveOrder dest src n) m (memmove m dest src n).2 := by
  rw [memmove_eq]
  exact copied_copyCells pairwise_byteAt (readFirst_moveOrder.mpr (not_reaches hsrc hdest)) m

/-- **`memmove` moves**, however the two ranges lie, if neither wraps. A range may end where
the memory does. -/
theorem moved_memmove (m : BitVec 64 → UInt8) (dest src n : BitVec 64)
    (hsrc : src.toNat + n.toNat ≤ 2 ^ 64) (hdest : dest.toNat + n.toNat ≤ 2 ^ 64) :
    Moved dest src n m (memmove m dest src n).2 :=
  moved_iff_copiedCells.mpr (copied_memmove m hsrc hdest)

/-- Two ranges that overlap, the upper one at the end of the memory. -/
theorem moved_memmove_top :
    Moved (-8) (-12) 8 (fun b => UInt8.ofNat b.toNat)
      (memmove (fun b => UInt8.ofNat b.toNat) (-8) (-12) 8).2 :=
  moved_memmove _ _ _ _ (by decide) (by decide)

/-! ### Addresses as numbers -/

/-- A memory of 64-bit addresses, with numbers for them. -/
def toMem (m : BitVec 64 → UInt8) : Mem := fun a => m (BitVec.ofNat 64 a)

/-- **The two models agree** where nothing wraps. -/
theorem memmove_toMem (hsrc : src.toNat + n.toNat ≤ 2 ^ 64) (hdest : dest.toNat + n.toNat ≤ 2 ^ 64)
    {a : ℕ} (ha : a < 2 ^ 64) :
    toMem (memmove m dest src n).2 a =
      Xana.memmove (toMem m) dest.toNat src.toNat n.toNat a := by
  obtain ⟨hcopied, hkept⟩ := copied_memmove m hsrc hdest
  have hbyte : ∀ {p : BitVec 64} {i : ℕ}, BitVec.ofNat 64 (p.toNat + i) = byteAt p i := by
    intro p i
    rw [byteAt, BitVec.ofNat_add, BitVec.ofNat_toNat, BitVec.setWidth_eq]
  rw [memmove_apply]
  split_ifs with h
  · obtain ⟨i, rfl⟩ := Nat.exists_eq_add_of_le h.1
    rw [Nat.add_sub_cancel_left, toMem, toMem, hbyte, hbyte]
    exact hcopied i (mem_moveOrder.mpr (by omega))
  · refine hkept _ fun i hi heq => h ?_
    have hlt := mem_moveOrder.mp hi
    rw [← hbyte, ← BitVec.toNat_inj, BitVec.toNat_ofNat, BitVec.toNat_ofNat, Nat.mod_eq_of_lt ha,
      Nat.mod_eq_of_lt (by omega)] at heq
    omega

end Order

end Pointer

end Xana
