import Xana.Memory.Heap

/-!
# The list of headers

`Listed` says which blocks the headers from an address on stand for: the header of
each carries the magic number and its length, and points to the neighbours. Every
edit of the heap replaces some headers in the middle of the list, and gives the
header behind them a new `prev` (`Listed.replace`).
-/

namespace Xana

open Mem

/-- The address of the first of the blocks at `x`, or `next`. -/
def headOr (x : ℕ) (l : List Block) (next : ℕ) : ℕ := if l.isEmpty then next else x

/-- The address of the last of the blocks from `a` on, or `prev`. -/
def lastOr : ℕ → ℕ → List Block → ℕ
  | _, prev, [] => prev
  | a, _, b :: l => lastOr (a + heapHeaderSize + b.length) a l

/-- The headers from `a` on are those of the blocks, the list coming from `prev` and
going on to `next`. -/
def Listed (m : Mem) : ℕ → ℕ → List Block → ℕ → Prop
  | _, _, [], _ => True
  | a, prev, b :: l, next =>
      header m a =
          ⟨heapMagic, b.length, b.free, headOr (a + heapHeaderSize + b.length) l next, prev⟩ ∧
        Listed m (a + heapHeaderSize + b.length) a l next

section Listed

variable {m m' : Mem} {a prev prev' next : ℕ} {b : Block} {l l' l₁ l₂ : List Block}

@[simp] theorem headOr_nil (x n : ℕ) : headOr x [] n = n := rfl

@[simp] theorem headOr_cons (x n : ℕ) (b : Block) (l : List Block) : headOr x (b :: l) n = x := rfl

theorem headOr_of_ne_nil (x n : ℕ) (h : l ≠ []) : headOr x l n = x := by
  obtain ⟨b, l, rfl⟩ := List.exists_cons_of_ne_nil h
  rfl

/-- A list that is there begins where it begins. -/
theorem headOr_eq_of_ne_zero {x : ℕ} (h : headOr x l 0 ≠ 0) : headOr x l 0 = x := by
  cases l with
  | nil => exact absurd rfl h
  | cons b l => rfl

theorem headOr_append (x n : ℕ) :
    headOr x (l₁ ++ l₂) n = headOr x l₁ (headOr (endOf heapHeaderSize x l₁) l₂ n) := by
  cases l₁ <;> rfl

@[simp] theorem lastOr_nil (a p : ℕ) : lastOr a p [] = p := rfl

@[simp] theorem lastOr_cons (a p : ℕ) :
    lastOr a p (b :: l) = lastOr (a + heapHeaderSize + b.length) a l :=
  rfl

theorem lastOr_append (a p : ℕ) :
    lastOr a p (l₁ ++ l₂) = lastOr (endOf heapHeaderSize a l₁) (lastOr a p l₁) l₂ := by
  induction l₁ generalizing a p with
  | nil => rfl
  | cons b l₁ ih => exact ih _ _

/-- The last header lies before the end. -/
theorem lastOr_bounds (h : l ≠ []) :
    a ≤ lastOr a prev l ∧ lastOr a prev l + heapHeaderSize ≤ endOf heapHeaderSize a l := by
  induction l generalizing a prev with
  | nil => exact absurd rfl h
  | cons b l ih =>
    rw [lastOr_cons, endOf_cons]
    by_cases hl : l = []
    · subst hl
      simp
    · have hle : a + heapHeaderSize + b.length ≤ lastOr (a + heapHeaderSize + b.length) a l ∧
          lastOr (a + heapHeaderSize + b.length) a l + heapHeaderSize ≤
            endOf heapHeaderSize (a + heapHeaderSize + b.length) l := ih hl
      omega

@[simp] theorem listed_nil : Listed m a prev [] next := trivial

@[simp] theorem listed_cons : Listed m a prev (b :: l) next ↔
    header m a =
        ⟨heapMagic, b.length, b.free, headOr (a + heapHeaderSize + b.length) l next, prev⟩ ∧
      Listed m (a + heapHeaderSize + b.length) a l next := Iff.rfl

theorem listed_append : Listed m a prev (l₁ ++ l₂) next ↔
    Listed m a prev l₁ (headOr (endOf heapHeaderSize a l₁) l₂ next) ∧
      Listed m (endOf heapHeaderSize a l₁) (lastOr a prev l₁) l₂ next := by
  induction l₁ generalizing a prev with
  | nil => simp
  | cons b l₁ ih =>
    rw [List.cons_append, listed_cons, listed_cons, ih, endOf_cons, lastOr_cons, headOr_append,
      and_assoc]

/-- The list depends on the bytes of its range only. -/
theorem Listed.congr (h : Listed m a prev l next)
    (hm : ∀ x, a ≤ x → x < endOf heapHeaderSize a l → m' x = m x) : Listed m' a prev l next := by
  induction l generalizing a prev with
  | nil => trivial
  | cons b l ih =>
    have hle : a + heapHeaderSize + b.length ≤ endOf heapHeaderSize a (b :: l) := le_endOf
    have hsize : heapHeaderSize = 29 := rfl
    refine ⟨?_, ih h.2 fun x hx hx' => hm x (by omega) hx'⟩
    rw [header_congr fun x hx hx' => hm x hx (by omega)]
    exact h.1

/-- The list coming from another header. -/
theorem Listed.reprev (h : Listed m a prev l next)
    (hhead : l ≠ [] → header m' a = { header m a with prev := prev' })
    (hm : ∀ x, a + 29 ≤ x → x < endOf heapHeaderSize a l → m' x = m x) :
    Listed m' a prev' l next := by
  cases l with
  | nil => trivial
  | cons b l =>
    have hsize : heapHeaderSize = 29 := rfl
    rw [listed_cons] at h ⊢
    refine ⟨?_, h.2.congr fun x hx hx' => hm x (by omega) hx'⟩
    rw [hhead (List.cons_ne_nil b l), h.1]

/-- **Some headers of the list replaced.** -/
theorem Listed.replace (l l' : List Block) (h : Listed m a prev (l₁ ++ (l ++ l₂)) next)
    (hl : l ≠ []) (hl' : l' ≠ [])
    (hend : endOf heapHeaderSize (endOf heapHeaderSize a l₁) l' =
      endOf heapHeaderSize (endOf heapHeaderSize a l₁) l)
    (hmid : Listed m' (endOf heapHeaderSize a l₁) (lastOr a prev l₁) l'
      (headOr (endOf heapHeaderSize (endOf heapHeaderSize a l₁) l) l₂ next))
    (hbefore : ∀ x, a ≤ x → x < endOf heapHeaderSize a l₁ → m' x = m x)
    (hhead : l₂ ≠ [] → header m' (endOf heapHeaderSize (endOf heapHeaderSize a l₁) l) =
      { header m (endOf heapHeaderSize (endOf heapHeaderSize a l₁) l) with
        prev := lastOr (endOf heapHeaderSize a l₁) (lastOr a prev l₁) l' })
    (hbehind : ∀ x, endOf heapHeaderSize (endOf heapHeaderSize a l₁) l + 29 ≤ x →
      x < endOf heapHeaderSize a (l₁ ++ (l ++ l₂)) → m' x = m x) :
    Listed m' a prev (l₁ ++ (l' ++ l₂)) next := by
  have hfirst : ∀ l : List Block, l ≠ [] → ∀ n,
      headOr (endOf heapHeaderSize a l₁) (l ++ l₂) n = endOf heapHeaderSize a l₁ := by
    intro l hl n
    exact headOr_of_ne_nil _ _ (List.append_ne_nil_of_left_ne_nil hl l₂)
  rw [listed_append, listed_append, hfirst l hl] at h
  rw [listed_append, listed_append, hfirst l' hl', hend]
  obtain ⟨h₁, -, h₂⟩ := h
  rw [endOf_append, endOf_append] at hbehind
  exact ⟨h₁.congr hbefore, hmid, h₂.reprev hhead hbehind⟩

end Listed

/-! ### What the edits do to headers -/

section Split

variable {m : Mem} {h n x L k : ℕ} {f : Bool} (hn : h + 29 ≤ n)
  (hnext : (header m h).next ≠ 0 → n + 29 ≤ (header m h).next)
include hn hnext

/-- The header that is cut. -/
theorem header_splitHeader_self (hlt : n < 2 ^ 64) (hk : k < 2 ^ 64) :
    header (splitHeader m h n L f k) h = { header m h with length := k, next := n } := by
  have hmid : ∀ m', header m' h = header m h →
      header (setLength (setNext m' h n) h k) h = { header m h with length := k, next := n } := by
    intro m' hm'
    rw [header_setLength_self hk, header_setNext_self hlt, hm']
  unfold splitHeader
  refine hmid _ ?_
  split_ifs with h0
  all_goals simp (disch := omega) only [header_setPrev, header_setFree, header_setNext,
    header_setLength, header_setMagic] at h0 ⊢
  have hle := hnext h0
  simp (disch := omega) only [header_setPrev, header_setFree, header_setNext,
    header_setLength, header_setMagic]

/-- The header that is put behind it. -/
theorem header_splitHeader_new (hh : h < 2 ^ 64) (hL : L < 2 ^ 64) :
    header (splitHeader m h n L f k) n = ⟨heapMagic, L, f, (header m h).next, h⟩ := by
  have hmagic : heapMagic < 2 ^ 32 := by decide
  have hlt := next_lt m h
  have hnew : header (setFree (setPrev (setNext (setLength (setMagic m n heapMagic) n L) n
      (header m h).next) n h) n f) n = ⟨heapMagic, L, f, (header m h).next, h⟩ := by
    rw [header_setFree_self, header_setPrev_self hh, header_setNext_self hlt,
      header_setLength_self hL, header_setMagic_self hmagic]
  unfold splitHeader
  simp (disch := omega) only [header_setPrev, header_setFree, header_setNext,
    header_setLength, header_setMagic]
  split_ifs with h0
  · have hle := hnext h0
    rw [header_setPrev (by omega), hnew]
  · exact hnew

/-- The header behind both. -/
theorem header_splitHeader_next (hlt : n < 2 ^ 64) (h0 : (header m h).next ≠ 0) :
    header (splitHeader m h n L f k) (header m h).next =
      { header m (header m h).next with prev := n } := by
  have hle := hnext h0
  unfold splitHeader
  simp (disch := omega) only [header_setPrev, header_setFree, header_setNext,
    header_setLength, header_setMagic, if_pos h0, header_setPrev_self hlt]

omit hnext in
/-- Everything else. -/
theorem splitHeader_of_notMem (hh : x < h ∨ h + 29 ≤ x) (hx : x < n ∨ n + 29 ≤ x)
    (hnx : (header m h).next ≠ 0 → x < (header m h).next ∨ (header m h).next + 29 ≤ x) :
    splitHeader m h n L f k x = m x := by
  unfold splitHeader
  split_ifs with h0
  all_goals simp (disch := omega) only [header_setPrev, header_setFree, header_setNext,
    header_setLength, header_setMagic] at h0 ⊢
  all_goals rw [setLength_of_notMem hh, setNext_of_notMem hh]
  · rw [setPrev_of_notMem (hnx h0), setFree_of_notMem hx, setPrev_of_notMem hx,
      setNext_of_notMem hx, setLength_of_notMem hx, setMagic_of_notMem hx]
  · rw [setFree_of_notMem hx, setPrev_of_notMem hx, setNext_of_notMem hx, setLength_of_notMem hx,
      setMagic_of_notMem hx]

end Split

section Absorb

variable {m : Mem} {h n x : ℕ} (hn : h + 29 ≤ n)
  (hnext : (header m n).next ≠ 0 → h + 29 ≤ (header m n).next)
include hn hnext

/-- The header that takes the block. -/
theorem header_absorb_self
    (hlt : (header m h).length + (header m n).length + heapHeaderSize < 2 ^ 64) :
    header (absorb m h n) h =
      { header m h with
        length := (header m h).length + (header m n).length + heapHeaderSize
        next := (header m n).next } := by
  have hlt' := next_lt m n
  unfold absorb
  simp (disch := omega) only [header_setLength, header_setNext_self hlt', header_setLength_self hlt]
  split_ifs with h0
  · have hle := hnext h0
    rw [header_setPrev (by omega), header_setNext_self hlt', header_setLength_self hlt]
  · rw [header_setNext_self hlt', header_setLength_self hlt]

/-- The header behind the one taken. -/
theorem header_absorb_next (hlt : h < 2 ^ 64) (h0 : (header m n).next ≠ 0) :
    header (absorb m h n) (header m n).next =
      { header m (header m n).next with prev := h } := by
  have hle := hnext h0
  have hlt' := next_lt m n
  unfold absorb
  simp (disch := omega) only [header_setLength, header_setNext_self hlt', if_pos h0,
    header_setPrev_self hlt, header_setNext]

omit hnext in
/-- Everything else. -/
theorem absorb_of_notMem (hh : x < h ∨ h + 29 ≤ x)
    (hnx : (header m n).next ≠ 0 → x < (header m n).next ∨ (header m n).next + 29 ≤ x) :
    absorb m h n x = m x := by
  have hlt' := next_lt m n
  unfold absorb
  simp (disch := omega) only [header_setLength, header_setNext_self hlt']
  split_ifs with h0
  · rw [setPrev_of_notMem (hnx h0), setNext_of_notMem hh, setLength_of_notMem hh]
  · rw [setNext_of_notMem hh, setLength_of_notMem hh]

end Absorb

/-! ### What the edits do to the list -/

namespace Listed

variable {m : Mem} {a prev next : ℕ} {b c d : Block} {l l₁ l₂ : List Block}

theorem prev_eq (h : Listed m a prev l next) (hl : l ≠ []) : (header m a).prev = prev := by
  obtain ⟨b, l, rfl⟩ := List.exists_cons_of_ne_nil hl
  rw [h.1]

/-- The header of a block in the list. -/
theorem header_eq (h : Listed m a prev (l₁ ++ b :: l₂) next) :
    header m (endOf heapHeaderSize a l₁) =
      ⟨heapMagic, b.length, b.free,
        headOr (endOf heapHeaderSize a l₁ + heapHeaderSize + b.length) l₂ next, lastOr a prev l₁⟩ :=
  (listed_append.mp h).2.1

/-- The header behind it points back. -/
theorem behind_eq (h : Listed m a prev (l₁ ++ b :: l₂) next) (hl : l₂ ≠ []) :
    (header m (endOf heapHeaderSize a l₁ + heapHeaderSize + b.length)).prev =
      endOf heapHeaderSize a l₁ :=
  (listed_append.mp h).2.2.prev_eq hl

/-- A block is given out, or given back. -/
theorem setFree (h : Listed m a prev (l₁ ++ b :: l₂) next) (hlen : c.length = b.length) :
    Listed (setFree m (endOf heapHeaderSize a l₁) c.free) a prev (l₁ ++ c :: l₂) next := by
  have hsize : heapHeaderSize = 29 := rfl
  have hmid := h.header_eq
  have hend : endOf heapHeaderSize (endOf heapHeaderSize a l₁) [c] =
      endOf heapHeaderSize (endOf heapHeaderSize a l₁) [b] := by
    rw [endOf_cons, endOf_cons, hlen]
  refine Listed.replace [b] [c] h (by simp) (by simp) hend ⟨?_, trivial⟩ ?_ ?_ ?_
  · rw [header_setFree_self, hmid, hlen]
    rfl
  · intro x _ hx
    exact setFree_of_notMem (Or.inl hx)
  · intro hl
    rw [header_setFree (by rw [endOf_cons, endOf_nil]; omega)]
    exact (HeapHeader.with_prev (h.behind_eq hl)).symm
  · intro x hx _
    rw [endOf_cons, endOf_nil] at hx
    exact setFree_of_notMem (by omega)

/-- **A block is cut in two.** -/
theorem split (h : Listed m a prev (l₁ ++ b :: l₂) 0)
    (hlt : endOf heapHeaderSize a (l₁ ++ b :: l₂) < 2 ^ 64)
    (hlen : b.length = c.length + heapHeaderSize + d.length) (hfree : c.free = b.free) :
    Listed (splitHeader m (endOf heapHeaderSize a l₁)
      (endOf heapHeaderSize a l₁ + heapHeaderSize + c.length) d.length d.free c.length) a prev
      (l₁ ++ c :: d :: l₂) 0 := by
  have hsize : heapHeaderSize = 29 := rfl
  have hmid := h.header_eq
  have hbehind := h.behind_eq
  set hd := endOf heapHeaderSize a l₁ with hhd
  have hle : hd + heapHeaderSize + b.length ≤ endOf heapHeaderSize a (l₁ ++ b :: l₂) := by
    rw [endOf_append, endOf_cons]
    exact le_endOf
  have hn : hd + 29 ≤ hd + heapHeaderSize + c.length := by omega
  have hnext : (header m hd).next = headOr (hd + heapHeaderSize + b.length) l₂ 0 := by rw [hmid]
  have hnext' : (header m hd).next ≠ 0 →
      hd + heapHeaderSize + c.length + 29 ≤ (header m hd).next := by
    intro h0
    rw [hnext] at h0 ⊢
    rw [headOr_eq_of_ne_zero h0]
    omega
  have hend : endOf heapHeaderSize hd [c, d] = endOf heapHeaderSize hd [b] := by
    simp only [endOf_cons, endOf_nil]
    omega
  refine Listed.replace [b] [c, d] h (by simp) (by simp) hend ⟨?_, ?_, trivial⟩
    ?_ ?_ ?_
  · rw [header_splitHeader_self hn hnext' (by omega) (by omega), hmid, hfree]
    rfl
  · rw [header_splitHeader_new hn hnext' (by omega) (by omega), hnext]
    rfl
  · intro x _ hx
    refine splitHeader_of_notMem hn (by omega) (by omega) fun h0 => ?_
    have hle := hnext' h0
    omega
  · intro hl
    have h0 : (header m hd).next = hd + heapHeaderSize + b.length :=
      hnext.trans (headOr_of_ne_nil _ _ hl)
    have hb := header_splitHeader_next (L := d.length) (f := d.free) (k := c.length) hn hnext'
      (by omega) (by omega)
    rw [h0] at hb
    exact hb
  · intro x hx hx'
    rw [endOf_cons, endOf_nil] at hx
    refine splitHeader_of_notMem hn (by omega) (by omega) fun h0 => Or.inr ?_
    rw [hnext] at h0 ⊢
    rwa [headOr_eq_of_ne_zero h0]

/-- **A block takes the one behind it.** -/
theorem absorb (h : Listed m a prev (l₁ ++ b :: c :: l₂) 0)
    (hlt : endOf heapHeaderSize a (l₁ ++ b :: c :: l₂) < 2 ^ 64)
    (hlen : d.length = b.length + heapHeaderSize + c.length) (hfree : d.free = b.free) :
    Listed (absorb m (endOf heapHeaderSize a l₁)
      (endOf heapHeaderSize a l₁ + heapHeaderSize + b.length)) a prev (l₁ ++ d :: l₂) 0 := by
  have hsize : heapHeaderSize = 29 := rfl
  have hmid := h.header_eq
  obtain ⟨-, -, hmid', hrest⟩ := listed_append.mp h
  set hd := endOf heapHeaderSize a l₁ with hhd
  set n := hd + heapHeaderSize + b.length with hnd
  have hle : n + heapHeaderSize + c.length ≤ endOf heapHeaderSize a (l₁ ++ b :: c :: l₂) := by
    rw [endOf_append, endOf_cons, endOf_cons]
    exact le_endOf
  have hn : hd + 29 ≤ n := by omega
  have hnext : (header m n).next = headOr (n + heapHeaderSize + c.length) l₂ 0 := by rw [hmid']
  have hlenb : (header m hd).length = b.length := by rw [hmid]
  have hlenc : (header m n).length = c.length := by rw [hmid']
  have hnext' : (header m n).next ≠ 0 → hd + 29 ≤ (header m n).next := by
    intro h0
    rw [hnext] at h0 ⊢
    rw [headOr_eq_of_ne_zero h0]
    omega
  have hend : endOf heapHeaderSize hd [d] = endOf heapHeaderSize hd [b, c] := by
    simp only [endOf_cons, endOf_nil]
    omega
  have hend' : endOf heapHeaderSize hd [b, c] = n + heapHeaderSize + c.length := rfl
  refine Listed.replace [b, c] [d] h (by simp) (by simp) hend ⟨?_, trivial⟩ ?_ ?_ ?_
  · have hsum : b.length + c.length + heapHeaderSize = d.length := by omega
    rw [header_absorb_self hn hnext' (by omega), hmid, hmid']
    simp only [hsum, hfree, headOr_nil]
    rfl
  · intro x _ hx
    refine absorb_of_notMem hn (by omega) fun h0 => ?_
    have hle := hnext' h0
    omega
  · intro hl
    have h0 : (header m n).next = n + heapHeaderSize + c.length :=
      hnext.trans (headOr_of_ne_nil _ _ hl)
    have hb := header_absorb_next hn hnext' (by omega) (by omega)
    rw [h0] at hb
    exact hb
  · intro x hx hx'
    rw [hend'] at hx
    refine absorb_of_notMem hn (by omega) fun h0 => Or.inr ?_
    rw [hnext] at h0 ⊢
    rwa [headOr_eq_of_ne_zero h0]

/-- The last block is stretched. -/
theorem setLength_last (h : Listed m a prev (l₁ ++ [b]) 0) {k : ℕ} (hk : k < 2 ^ 64) :
    Listed (setLength m (endOf heapHeaderSize a l₁) k) a prev (l₁ ++ [⟨k, b.use⟩]) 0 := by
  obtain ⟨h₁, h₂, -⟩ := listed_append.mp h
  refine listed_append.mpr ⟨h₁.congr fun x _ hx => setLength_of_notMem (Or.inl hx), ?_, trivial⟩
  rw [header_setLength_self hk, h₂]
  rfl

/-- A block is put behind the last. -/
theorem concat {m' : Mem} (h : Listed m a prev (l₁ ++ [b]) 0)
    (hlast : header m' (endOf heapHeaderSize a l₁) =
      { header m (endOf heapHeaderSize a l₁) with next := endOf heapHeaderSize a (l₁ ++ [b]) })
    (hnew : header m' (endOf heapHeaderSize a (l₁ ++ [b])) =
      ⟨heapMagic, c.length, c.free, 0, endOf heapHeaderSize a l₁⟩)
    (hm : ∀ x, x < endOf heapHeaderSize a l₁ → m' x = m x) :
    Listed m' a prev (l₁ ++ [b, c]) 0 := by
  obtain ⟨h₁, h₂, -⟩ := listed_append.mp h
  rw [endOf_append] at hlast hnew
  refine listed_append.mpr ⟨h₁.congr fun x _ hx => hm x hx, ?_, hnew, trivial⟩
  rw [hlast, h₂]
  rfl

end Listed

end Xana
