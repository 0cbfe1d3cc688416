import Mathlib.Data.List.Basic
import Mathlib.Data.Nat.Find
import Mathlib.Order.Bounds.Basic
import Xana.Lib.Runs

/-!
# The first free page

`is_in_usable_memory` and `first_free_page_addr` of `memory.c`. The bitmap of the
physical pages is read in words of 64 bits, whatever stands behind its end; the
number of pages is that of the bytes of memory divided by `0x1000`, so that the
address of a page fits in 64 bits.

The scan counts the trailing ones of the word that `first_free_bit` is in, and adds
their number to `first_free_bit`. That is the first clear bit when `first_free_bit`
is the start of the word. It is not after a page that has turned out to be outside
usable memory: then the scan goes on in *strides* (`Xana.StrideAt`), and what
it returns is the first usable page that it strides on (`Xana.scan_sound`).
-/

namespace Xana

/-- `usable_memory_region_t`, in its list. -/
structure UsableRegion where
  start : ℕ
  endAddr : ℕ

/-- `is_in_usable_memory`. -/
def isInUsableMemory : List UsableRegion → ℕ → Bool
  | [], _ => false
  | region :: regions, physAddr =>
      if physAddr ≥ region.start ∧ physAddr < region.endAddr then true
      else isInUsableMemory regions physAddr

/-- The inner loop, over the words that are full. -/
def skipFull (bitmap : ℕ → BitVec 64) : ℕ → ℕ → Option ℕ
  | 0, _ => none
  | n + 1, firstFreeBit =>
      if bitmap (firstFreeBit / 64) = 0xFFFFFFFFFFFFFFFF then skipFull bitmap n (firstFreeBit + 64)
      else some firstFreeBit

/-- The outer loop; `none` inside is `kpanic`. -/
def scanPages (bitmap : ℕ → BitVec 64) (totalPages : ℕ) (regions : List UsableRegion) :
    ℕ → ℕ → Option (Option ℕ)
  | 0, _ => none
  | n + 1, firstFreeBit => do
      let firstFreeBit ← skipFull bitmap n firstFreeBit
      if firstFreeBit > totalPages then some none
      else
        let firstFreeBit := firstFreeBit + (~~~bitmap (firstFreeBit / 64)).ctz.toNat
        if firstFreeBit > totalPages then some none
        else if isInUsableMemory regions (firstFreeBit * 0x1000) then
          some (some (firstFreeBit * 0x1000))
        else scanPages bitmap totalPages regions n firstFreeBit

/-- `first_free_page_addr`. -/
def firstFreePageAddr (bitmap : ℕ → BitVec 64) (totalPages : ℕ) (regions : List UsableRegion)
    (n : ℕ) : Option (Option ℕ) := scanPages bitmap totalPages regions n 0

/-! ### Pages and strides -/

/-- The page is free: its bit is clear. -/
def PageClear (bitmap : ℕ → BitVec 64) (page : ℕ) : Prop :=
  (bitmap (page / 64)).getLsbD (page % 64) = false

instance (bitmap : ℕ → BitVec 64) : DecidablePred (PageClear bitmap) := fun page =>
  inferInstanceAs (Decidable ((bitmap (page / 64)).getLsbD (page % 64) = false))

/-- The page is inside a usable region. -/
def PageUsable (regions : List UsableRegion) (page : ℕ) : Prop :=
  ∃ region ∈ regions, region.start ≤ page * 0x1000 ∧ page * 0x1000 < region.endAddr

/-- The number of pages in front of the first free one of a word. -/
def firstClear (word : BitVec 64) : ℕ := (~~~word).ctz.toNat

/-- The first word from `w` on that is not full is `v`. -/
structure NextWord (bitmap : ℕ → BitVec 64) (w v : ℕ) : Prop where
  le : w ≤ v
  notFull : bitmap v ≠ BitVec.allOnes 64
  full : ∀ u, w ≤ u → u < v → bitmap u = BitVec.allOnes 64

/-- **The strides through a bitmap**: the first is on the lowest free page. From a
page, the next one is as far as the first clear bit of the page's word is from the
start of the word. Full words are stepped over. -/
inductive StrideAt (bitmap : ℕ → BitVec 64) : ℕ → ℕ → Prop
  | first {v : ℕ} : NextWord bitmap 0 v → StrideAt bitmap 0 (64 * v + firstClear (bitmap v))
  | next {i p v : ℕ} : StrideAt bitmap i p → NextWord bitmap (p / 64) v →
      StrideAt bitmap (i + 1) (64 * v + p % 64 + firstClear (bitmap v))

section Strides

variable {bitmap : ℕ → BitVec 64} {totalPages : ℕ} {regions : List UsableRegion}
variable {i j p q u v w n : ℕ} {word : BitVec 64}

theorem allOnes_eq : (0xFFFFFFFFFFFFFFFF : BitVec 64) = BitVec.allOnes 64 := rfl

theorem isInUsableMemory_iff :
    isInUsableMemory regions (p * 0x1000) = true ↔ PageUsable regions p := by
  induction regions with
  | nil => simp [isInUsableMemory, PageUsable]
  | cons region regions ih =>
    rw [isInUsableMemory]
    split_ifs with h
    · exact iff_of_true rfl ⟨region, List.mem_cons_self, h⟩
    · rw [ih]
      constructor
      · rintro ⟨r, hr, hp⟩
        exact ⟨r, List.mem_cons_of_mem region hr, hp⟩
      · rintro ⟨r, hr, hp⟩
        rcases List.mem_cons.mp hr with rfl | hr
        · exact absurd hp h
        · exact ⟨r, hr, hp⟩

instance : DecidablePred (PageUsable regions) := fun _ =>
  decidable_of_iff _ isInUsableMemory_iff

theorem not_ne_zero (h : word ≠ BitVec.allOnes 64) : ~~~word ≠ 0#64 := by
  intro hc
  refine h ?_
  rw [← BitVec.not_not (b := word), hc, BitVec.not_zero]

theorem firstClear_lt (h : word ≠ BitVec.allOnes 64) : firstClear word < 64 := by
  have hlt := BitVec.ctz_lt_iff_ne_zero.mpr (not_ne_zero h)
  rw [BitVec.lt_def] at hlt
  exact hlt

/-- The first clear bit is clear, -/
theorem getLsbD_firstClear (h : word ≠ BitVec.allOnes 64) :
    word.getLsbD (firstClear word) = false := by
  have htrue := BitVec.getLsbD_true_ctz_of_ne_zero (not_ne_zero h)
  rw [BitVec.getLsbD_not] at htrue
  exact (Bool.not_eq_true' _).mp (Bool.and_eq_true_iff.mp htrue).2

/-- and those in front of it are not. -/
theorem getLsbD_of_lt_firstClear (h : i < firstClear word) (hi : i < 64) :
    word.getLsbD i = true := by
  have hfalse := BitVec.getLsbD_false_of_lt_ctz h
  rw [BitVec.getLsbD_not] at hfalse
  simpa [hi] using hfalse

theorem NextWord.unique (h : NextWord bitmap w u) (h' : NextWord bitmap w v) : u = v := by
  rcases Nat.lt_trichotomy u v with hlt | heq | hgt
  · exact absurd (h'.full u h.le hlt) h.notFull
  · exact heq
  · exact absurd (h.full v h'.le hgt) h'.notFull

/-- The strides are determined. -/
theorem StrideAt.unique (h : StrideAt bitmap i p) (h' : StrideAt bitmap i q) : p = q := by
  induction h generalizing q with
  | first hv =>
    cases h' with
    | first hv' => rw [hv.unique hv']
  | next _ hv ih =>
    cases h' with
    | next hs hv' =>
      obtain rfl := ih hs
      rw [hv.unique hv']

/-- The first stride is on the lowest free page. -/
theorem strideAt_zero_iff : StrideAt bitmap 0 p ↔ IsLeast {q | PageClear bitmap q} p := by
  have hword : ∀ {w q : ℕ}, w ≠ q / 64 ∨ bitmap w ≠ BitVec.allOnes 64 ∨ ¬PageClear bitmap q := by
    intro w q
    by_contra hc
    simp only [not_or, not_not] at hc
    obtain ⟨rfl, hfull, hclear⟩ := hc
    rw [PageClear, hfull, BitVec.getLsbD_allOnes] at hclear
    simp only [decide_eq_false_iff_not] at hclear
    omega
  have hfirst : ∀ {v}, NextWord bitmap 0 v →
      IsLeast {q | PageClear bitmap q} (64 * v + firstClear (bitmap v)) := by
    intro v hv
    have hlt := firstClear_lt hv.notFull
    constructor
    · have hdiv : (64 * v + firstClear (bitmap v)) / 64 = v := by omega
      have hmod : (64 * v + firstClear (bitmap v)) % 64 = firstClear (bitmap v) := by omega
      change (bitmap _).getLsbD _ = false
      rw [hdiv, hmod]
      exact getLsbD_firstClear hv.notFull
    · intro q hq
      by_contra hc
      rcases Nat.lt_or_ge (q / 64) v with hbelow | habove
      · have hfull := hv.full _ (Nat.zero_le _) hbelow
        rcases hword (w := q / 64) (q := q) with hne | hne | hne
        · exact hne rfl
        · exact hne hfull
        · exact hne hq
      · have hdiv : q / 64 = v := by omega
        have hset : (bitmap v).getLsbD (q % 64) = true :=
          getLsbD_of_lt_firstClear (by omega) (by omega)
        change (bitmap _).getLsbD _ = false at hq
        rw [hdiv, hset] at hq
        exact absurd hq (by simp)
  constructor
  · rintro ⟨hv⟩
    exact hfirst hv
  · intro hp
    have hnot : bitmap (p / 64) ≠ BitVec.allOnes 64 := by
      rcases hword (w := p / 64) (q := p) with hne | hne | hne
      · exact absurd rfl hne
      · exact hne
      · exact absurd hp.1 hne
    classical
    have hex : ∃ v, bitmap v ≠ BitVec.allOnes 64 := ⟨_, hnot⟩
    have hv : NextWord bitmap 0 (Nat.find hex) := by
      refine ⟨Nat.zero_le _, Nat.find_spec hex, fun u _ hu => ?_⟩
      exact not_not.mp (Nat.find_min hex hu)
    rw [hp.unique (hfirst hv)]
    exact .first hv

/-- A stride goes up. -/
theorem NextWord.le_stride (h : NextWord bitmap (p / 64) v) :
    p ≤ 64 * v + p % 64 + firstClear (bitmap v) := by
  have hle := h.le
  omega

/-! ### The scan -/

theorem skipFull_eq (h : NextWord bitmap (p / 64) v) (hn : v - p / 64 < n) :
    skipFull bitmap n p = some (64 * v + p % 64) := by
  induction n generalizing p with
  | zero => omega
  | succ n ih =>
    have hle := h.le
    rw [skipFull, allOnes_eq]
    rcases Nat.eq_or_lt_of_le hle with heq | hlt
    · rw [heq, if_neg h.notFull, ← heq]
      exact congrArg some (Nat.div_add_mod p 64).symm
    · have hdiv : (p + 64) / 64 = p / 64 + 1 := by omega
      have hnext : NextWord bitmap ((p + 64) / 64) v :=
        ⟨by omega, h.notFull, fun u hu hv => h.full u (by omega) hv⟩
      rw [if_pos (h.full _ le_rfl hlt), ih hnext (by omega)]
      congr 2
      omega

theorem skipFull_some (h : skipFull bitmap n p = some q) :
    NextWord bitmap (p / 64) (q / 64) ∧ q % 64 = p % 64 := by
  induction n generalizing p with
  | zero => simp [skipFull] at h
  | succ n ih =>
    rw [skipFull, allOnes_eq] at h
    split_ifs at h with hfull
    · have hdiv : (p + 64) / 64 = p / 64 + 1 := by omega
      obtain ⟨hnext, hmod⟩ := ih h
      rw [hdiv] at hnext
      refine ⟨⟨by have hle := hnext.le; omega, hnext.notFull, fun u hu hv => ?_⟩, by omega⟩
      rcases Nat.eq_or_lt_of_le hu with rfl | hlt
      · exact hfull
      · exact hnext.full u hlt hv
    · obtain rfl := Option.some.inj h
      exact ⟨⟨le_rfl, hfull, fun u hu hv => absurd hv (Nat.not_lt.mpr hu)⟩, rfl⟩

/-- One stride, when it stays below the number of pages. -/
theorem scanPages_stride (h : NextWord bitmap (p / 64) v)
    (hq : q = 64 * v + p % 64 + firstClear (bitmap v)) (hle : q ≤ totalPages)
    (hn : v - p / 64 < n) :
    scanPages bitmap totalPages regions (n + 1) p =
      if isInUsableMemory regions (q * 0x1000) then some (some (q * 0x1000))
      else scanPages bitmap totalPages regions n q := by
  have hdiv : (64 * v + p % 64) / 64 = v := by omega
  have hq' : 64 * v + p % 64 + (~~~bitmap v).ctz.toNat = q := hq.symm
  rw [scanPages, skipFull_eq h hn]
  simp only [Option.bind_eq_bind, Option.bind_some, hdiv, hq']
  rw [if_neg (by omega), if_neg (by omega)]

/-- A stride onto a usable page ends the scan, -/
theorem returns_stride (h : NextWord bitmap (p / 64) v)
    (hq : q = 64 * v + p % 64 + firstClear (bitmap v)) (hle : q ≤ totalPages)
    (husable : PageUsable regions q) :
    Returns (fun n => scanPages bitmap totalPages regions n p) (some (q * 0x1000)) := by
  refine ⟨v - p / 64 + 2, fun n hn => ?_⟩
  obtain ⟨n, rfl⟩ := Nat.exists_eq_succ_of_ne_zero (show n ≠ 0 by omega)
  have hround : scanPages bitmap totalPages regions (n + 1) p = _ :=
    scanPages_stride h hq hle (by omega)
  rw [if_pos (isInUsableMemory_iff.mpr husable)] at hround
  exact hround

/-- and one onto another page leads on. -/
theorem returns_of_stride {r : Option ℕ} (h : NextWord bitmap (p / 64) v)
    (hq : q = 64 * v + p % 64 + firstClear (bitmap v)) (hle : q ≤ totalPages)
    (husable : ¬PageUsable regions q)
    (hr : Returns (fun n => scanPages bitmap totalPages regions n q) r) :
    Returns (fun n => scanPages bitmap totalPages regions n p) r := by
  obtain ⟨k, hk⟩ := hr
  refine ⟨max k (v - p / 64 + 1) + 1, fun n hn => ?_⟩
  obtain ⟨n, rfl⟩ := Nat.exists_eq_succ_of_ne_zero (show n ≠ 0 by omega)
  have hround : scanPages bitmap totalPages regions (n + 1) p = _ :=
    scanPages_stride h hq hle (by omega)
  rw [if_neg (mt isInUsableMemory_iff.mp husable)] at hround
  exact hround.trans (hk n (by omega))

/-- **The strides are what the scan does**, as long as it meets no usable page. -/
theorem returns_of_strideAt {r : Option ℕ} (h : StrideAt bitmap i p) (hle : p ≤ totalPages)
    (hskip : ∀ j < i, ∀ q, StrideAt bitmap j q → ¬PageUsable regions q)
    (hr : if PageUsable regions p then r = some (p * 0x1000)
      else Returns (fun n => scanPages bitmap totalPages regions n p) r) :
    Returns (fun n => scanPages bitmap totalPages regions n 0) r := by
  induction h with
  | first hv =>
    have hnext : NextWord bitmap (0 / 64) _ := hv
    split_ifs at hr with husable
    · rw [hr]
      exact returns_stride hnext (by simp) hle husable
    · exact returns_of_stride hnext (by simp) hle husable hr
  | @next i p v hs hv ih =>
    have hp : ¬PageUsable regions p := hskip i (Nat.lt_succ_self i) p hs
    refine ih (hv.le_stride.trans hle) (fun j hj => hskip j (Nat.lt_succ_of_lt hj)) ?_
    rw [if_neg hp]
    split_ifs at hr with husable
    · rw [hr]
      exact returns_stride hv rfl hle husable
    · exact returns_of_stride hv rfl hle husable hr

/-- One round: it panics, or strides. -/
theorem scanPages_succ {r : Option ℕ}
    (h : scanPages bitmap totalPages regions (n + 1) p = some r) :
    r = none ∨ ∃ v q, NextWord bitmap (p / 64) v ∧
      q = 64 * v + p % 64 + firstClear (bitmap v) ∧ q ≤ totalPages ∧
      if PageUsable regions q then r = some (q * 0x1000)
      else scanPages bitmap totalPages regions n q = some r := by
  rw [scanPages] at h
  obtain ⟨b, hskip, h⟩ := Option.bind_eq_some_iff.mp h
  obtain ⟨hnext, hmod⟩ := skipFull_some hskip
  simp only at h
  split_ifs at h with h1 h2 h3
  · exact Or.inl (Option.some.inj h).symm
  · exact Or.inl (Option.some.inj h).symm
  · refine Or.inr ⟨b / 64, _, hnext, ?_, Nat.le_of_not_lt h2, ?_⟩
    · rw [firstClear]
      omega
    · rw [if_pos (isInUsableMemory_iff.mp h3)]
      exact (Option.some.inj h).symm
  · refine Or.inr ⟨b / 64, _, hnext, ?_, Nat.le_of_not_lt h2, ?_⟩
    · rw [firstClear]
      omega
    · rw [if_neg (mt isInUsableMemory_iff.mpr h3)]
      exact h

/-- **What the scan returns** is the address of the first usable page on its
strides. -/
theorem scan_sound {addr : ℕ} (h : StrideAt bitmap i p)
    (hskip : ∀ j ≤ i, ∀ q, StrideAt bitmap j q → ¬PageUsable regions q)
    (hscan : scanPages bitmap totalPages regions n p = some (some addr)) :
    ∃ j q, StrideAt bitmap j q ∧ addr = q * 0x1000 ∧
      ∀ k < j, ∀ q', StrideAt bitmap k q' → ¬PageUsable regions q' := by
  induction n generalizing i p with
  | zero => simp [scanPages] at hscan
  | succ n ih =>
    rcases scanPages_succ hscan with hnone | ⟨v, q, hv, rfl, -, hq⟩
    · exact absurd hnone (by simp)
    · have hs := StrideAt.next h hv
      split_ifs at hq with husable
      · exact ⟨i + 1, _, hs, Option.some.inj hq, fun k hk => hskip k (Nat.le_of_lt_succ hk)⟩
      · refine ih hs (fun j hj q' hq' => ?_) hq
        rcases Nat.eq_or_lt_of_le hj with rfl | hlt
        · rwa [hq'.unique hs]
        · exact hskip j (Nat.le_of_lt_succ hlt) q' hq'

/-- The same from the start. -/
theorem scan_sound_zero {addr : ℕ}
    (hscan : scanPages bitmap totalPages regions n 0 = some (some addr)) :
    ∃ j q, StrideAt bitmap j q ∧ addr = q * 0x1000 ∧
      ∀ k < j, ∀ q', StrideAt bitmap k q' → ¬PageUsable regions q' := by
  cases n with
  | zero => simp [scanPages] at hscan
  | succ n =>
    rcases scanPages_succ hscan with hnone | ⟨v, q, hv, hqv, -, hq⟩
    · exact absurd hnone (by simp)
    · have hs : StrideAt bitmap 0 q := by
        rw [hqv]
        exact StrideAt.first hv
      split_ifs at hq with husable
      · exact ⟨0, q, hs, Option.some.inj hq, fun k hk => absurd hk (Nat.not_lt_zero k)⟩
      · refine scan_sound hs (fun j hj q' hq' => ?_) hq
        obtain rfl := Nat.le_zero.mp hj
        rwa [hq'.unique hs]

end Strides

/-- **The lowest free page that can be used.** -/
def LowestUsable (bitmap : ℕ → BitVec 64) (totalPages : ℕ) (regions : List UsableRegion)
    (page : ℕ) : Prop :=
  IsLeast {p | p < totalPages ∧ PageClear bitmap p ∧ PageUsable regions p} page

/-- The strides meet the page, and no usable one before. -/
def StridesTo (bitmap : ℕ → BitVec 64) (regions : List UsableRegion) (page : ℕ) : Prop :=
  ∃ i, StrideAt bitmap i page ∧ ∀ j < i, ∀ q, StrideAt bitmap j q → ¬PageUsable regions q

section FirstFree

variable {bitmap : ℕ → BitVec 64} {totalPages : ℕ} {regions : List UsableRegion} {page : ℕ}

/-- **When the first free page is found**: the strides meet it, and no usable page
before. -/
theorem firstFreePageAddr_iff (h : LowestUsable bitmap totalPages regions page) :
    Returns (firstFreePageAddr bitmap totalPages regions) (some (page * 0x1000)) ↔
      StridesTo bitmap regions page := by
  obtain ⟨⟨hlt, -, husable⟩, -⟩ := h
  constructor
  · intro hreturns
    obtain ⟨n, -, hscan⟩ := hreturns.exists_ge 0
    obtain ⟨j, q, hs, heq, hskip⟩ := scan_sound_zero hscan
    obtain rfl : page = q := by omega
    exact ⟨j, hs, hskip⟩
  · rintro ⟨i, hs, hskip⟩
    refine returns_of_strideAt hs hlt.le hskip ?_
    rw [if_pos husable]

/-- So it is when the lowest free page is usable. -/
theorem stridesTo_of_isLeast (h : IsLeast {q | PageClear bitmap q} page) :
    StridesTo bitmap regions page :=
  ⟨0, strideAt_zero_iff.mpr h, fun _ hj => absurd hj (Nat.not_lt_zero _)⟩

/-- Pages `0` to `4` and page `10` are in use. -/
def tenUsed : ℕ → BitVec 64 := fun w => if w = 0 then 0x41F else 0

theorem nextWord_tenUsed : NextWord tenUsed 0 0 :=
  ⟨le_rfl, by decide, fun _ _ hu => absurd hu (Nat.not_lt_zero _)⟩

theorem firstClear_tenUsed : firstClear (tenUsed 0) = 5 := by decide +kernel

theorem strideAt_tenUsed : StrideAt tenUsed 0 5 := by
  have hfirst := StrideAt.first nextWord_tenUsed
  rwa [firstClear_tenUsed] at hfirst

theorem isLeast_tenUsed : IsLeast {q | PageClear tenUsed q} 5 :=
  strideAt_zero_iff.mp strideAt_tenUsed

/-- The lowest free page is usable. -/
theorem firstFreePageAddr_five :
    Returns (firstFreePageAddr tenUsed 64 [⟨0x5000, 0x40000⟩]) (some (5 * 0x1000)) := by
  have husable : PageUsable [⟨0x5000, 0x40000⟩] 5 := by decide
  refine (firstFreePageAddr_iff ⟨⟨by decide, isLeast_tenUsed.1, husable⟩, ?_⟩).mpr
    (stridesTo_of_isLeast isLeast_tenUsed)
  exact fun q hq => isLeast_tenUsed.2 hq.2.1

/-- The lowest free page is not: then the scan strides over page `6` to page `10`,
which is in use. -/
theorem not_firstFreePageAddr : ¬∀ bitmap totalPages regions page,
    LowestUsable bitmap totalPages regions page →
      Returns (firstFreePageAddr bitmap totalPages regions) (some (page * 0x1000)) := by
  intro hall
  have hlowest : LowestUsable tenUsed 64 [⟨0x6000, 0x40000⟩] 6 := by
    refine ⟨⟨by decide, by decide, by decide⟩, ?_⟩
    rintro q ⟨-, -, husable⟩
    obtain ⟨region, hregion, hq, -⟩ := husable
    obtain rfl := List.mem_singleton.mp hregion
    simp only at hq
    omega
  have hten : StrideAt tenUsed 1 10 := by
    have hnext := StrideAt.next strideAt_tenUsed nextWord_tenUsed
    rwa [firstClear_tenUsed] at hnext
  have hreturns : Returns (firstFreePageAddr tenUsed 64 [⟨0x6000, 0x40000⟩])
      (some (10 * 0x1000)) := by
    refine returns_of_strideAt hten (by decide) (fun j hj q hq => ?_) ?_
    · obtain rfl := Nat.lt_one_iff.mp hj
      rw [hq.unique strideAt_tenUsed]
      decide
    · rw [if_pos (by decide)]
  have heq := (hall _ _ _ _ hlowest).unique hreturns
  simp at heq

end FirstFree

end Xana
