import Xana.Memory.PageMap

/-!
# User pages

`map_page_kmalloc` sets bit 2 of the entry of a page that is not the kernel's, and
`is_mapped_user` looks for an entry in which it is clear: what it accepts are the
pages of the kernel (`Xana.isMappedUser_iff`). `is_mapped_user_range` walks from
the page its range starts in, as far as the length goes when it is rounded up on its
own, so it can miss the last page of a range that begins in the middle of a page; and
it walks over nothing when the end is `2 ^ 64`.

| of a range | what it is |
|---|---|
| `Meets` | the pages that have an address in it |
| `Walked` | the pages that `is_mapped_user_range` looks at |
-/

namespace Xana

open Forest

/-! ### The functions -/

section Functions

variable (m : Machine)

/-- `is_mapped_user`. -/
def isMappedUser (virt pd : ℕ) : Bool :=
  let pdpt := (m.dirs pd).virt (pml4Index virt)
  if pdpt = 0 then false
  else
    let pd' := (m.dirs pdpt).virt (pdptIndex virt)
    if pd' = 0 then false
    else
      let pt := (m.dirs pd').virt (pdIndex virt)
      if pt = 0 then false
      else if m.tabs pt (ptIndex virt) = 0 then false
      else m.tabs pt (ptIndex virt) &&& (1 <<< 2) == 0

/-- The loop of `is_mapped_user_range`, in at most so many rounds. -/
def userRangeLoop (stop pd : ℕ) : ℕ → ℕ → Option Bool
  | 0, _ => none
  | n + 1, i =>
      if i < stop then
        if isMappedUser m i pd = false then some false
        else userRangeLoop stop pd n ((i + 0x1000) % 2 ^ 64)
      else some true

/-- `is_mapped_user_range`. -/
def isMappedUserRange (start length pd n : ℕ) : Option Bool :=
  -- `~0xFFF` is an `int`, and is extended with its sign
  let start := start &&& 0xFFFFFFFFFFFFF000
  let length :=
    if length &&& 0xFFF ≠ 0 then ((length &&& 0xFFFFFFFFFFFFF000) + 0x1000) % 2 ^ 64 else length
  userRangeLoop m ((start + length) % 2 ^ 64) pd n start

end Functions

/-! ### Pages and ranges -/

section Ranges

variable (m : Machine) (root start length page : ℕ)

/-- **A page of the user**: its entry is present, and has the user bit. -/
def UserMapped : Prop := m.entry root page &&& 1 ≠ 0 ∧ m.entry root page &&& 4 ≠ 0

/-- A page of the kernel: there is an entry, without the user bit. -/
def KernelMapped : Prop := m.entry root page ≠ 0 ∧ m.entry root page &&& 4 = 0

/-- The page at the address `page` has an address of the range. -/
structure Meets : Prop where
  aligned : page % 0x1000 = 0
  lt : page < start + length
  gt : start < page + 0x1000

/-- The start rounded down, and on top the length rounded up. -/
def rangeEnd : ℕ := start / 0x1000 * 0x1000 + (length + 0xFFF) / 0x1000 * 0x1000

/-- The page at the address `page` is between the start and `rangeEnd`. -/
structure Walked : Prop where
  aligned : page % 0x1000 = 0
  lt : page < rangeEnd start length
  gt : start < page + 0x1000

/-- All pages of the range are the user's. -/
def AllUserMapped : Prop := ∀ page, Meets start length page → UserMapped m root page

/-- **When `is_mapped_user_range` answers as it should**: nothing is walked, and the pages are the
user's; or not all pages that are walked are the kernel's, and not all pages of the range are
the user's. -/
def RangeAnswers : Prop :=
  if rangeEnd start length = 2 ^ 64 then AllUserMapped m root start length
  else (∃ page, Walked start length page ∧ ¬KernelMapped m root page) ∧
    ¬AllUserMapped m root start length

end Ranges

section Ranges

variable {m : Machine} {root start length page stop v : ℕ}

/-- **What `is_mapped_user` accepts** are the pages of the kernel. -/
theorem isMappedUser_iff : isMappedUser m v root = true ↔ KernelMapped m root v := by
  have hno := noPage_iff (m := m) (r := root) (v := v) rfl rfl rfl
  rw [KernelMapped, isMappedUser]
  by_cases h₁ : (m.dirs root).virt (pml4Index v) = 0
  · simp [h₁, hno.mp (Or.inl h₁)]
  by_cases h₂ : (m.dirs ((m.dirs root).virt (pml4Index v))).virt (pdptIndex v) = 0
  · simp [h₁, h₂, hno.mp (Or.inr (Or.inl h₂))]
  cases hw : walk m.kid root (slots v) with
  | none =>
    have h₃ : (m.dirs ((m.dirs ((m.dirs root).virt (pml4Index v))).virt (pdptIndex v))).virt
        (pdIndex v) = 0 := by
      by_contra h₃
      have hw' := walk_slots.mpr ⟨_, _, pointer_of_pos (Nat.pos_of_ne_zero h₁),
        pointer_of_pos (Nat.pos_of_ne_zero h₂), pointer_of_pos (Nat.pos_of_ne_zero h₃)⟩
      rw [hw] at hw'
      exact absurd hw' (by simp)
    simp [h₁, h₂, h₃, entry_of_none hw]
  | some pt =>
    obtain ⟨pdpt, pd, hk₁, hk₂, hk₃⟩ := walk_slots.mp hw
    obtain ⟨hv₁, h₁0⟩ := Machine.virt_of_kid hk₁
    obtain ⟨hv₂, h₂0⟩ := Machine.virt_of_kid hk₂
    obtain ⟨hv₃, h₃0⟩ := Machine.virt_of_kid hk₃
    simp only [hv₁, hv₂, hv₃, if_neg h₁0, if_neg h₂0, if_neg h₃0, entry_of_walk hw]
    split_ifs with h₄
    · simp [h₄]
    · simp [h₄]

/-- A page is not the user's and the kernel's. -/
theorem UserMapped.not_kernelMapped (h : UserMapped m root v) : ¬KernelMapped m root v :=
  fun hk => h.2 hk.2

/-- **The loop** goes over `c` pages. -/
theorem userRangeLoop_eq {c i : ℕ} (hstop : i + c * 0x1000 = stop) (hlt : stop < 2 ^ 64) (n : ℕ) :
    userRangeLoop m stop root (c + 1 + n) i =
      some (decide (∀ k < c, isMappedUser m (i + k * 0x1000) root = true)) := by
  induction c generalizing i with
  | zero =>
    rw [Nat.zero_add, Nat.add_comm 1 n, userRangeLoop, if_neg (by omega)]
    simp
  | succ c ih =>
    rw [Nat.add_right_comm, userRangeLoop, if_pos (by omega), Nat.mod_eq_of_lt (by omega),
      ih (by omega)]
    have hk : ∀ k, i + 0x1000 + k * 0x1000 = i + (k + 1) * 0x1000 := fun k => by omega
    simp only [Nat.forall_lt_succ_left, hk, Nat.zero_mul, Nat.add_zero]
    cases hi : isMappedUser m i root with
    | false => simp
    | true => simp

/-- The end of what is walked is a page's, and not behind the last address. -/
theorem rangeEnd_le (h : start + length ≤ 2 ^ 64) : rangeEnd start length ≤ 2 ^ 64 := by
  rw [rangeEnd]
  omega

theorem walked_start (hpos : 0 < length) : Walked start length (start / 0x1000 * 0x1000) := by
  refine ⟨by omega, ?_, by omega⟩
  rw [rangeEnd]
  omega

theorem meets_start (hpos : 0 < length) : Meets start length (start / 0x1000 * 0x1000) :=
  ⟨by omega, by omega, by omega⟩

/-- What is walked has addresses of the range. -/
theorem Walked.meets (h : Walked start length page) : Meets start length page := by
  obtain ⟨hal, hlt, hgt⟩ := h
  rw [rangeEnd] at hlt
  exact ⟨hal, by omega, hgt⟩

/-- The pages that are walked, by number. -/
theorem walked_iff {c : ℕ} (hc : start / 0x1000 * 0x1000 + c * 0x1000 = rangeEnd start length) :
    Walked start length page ↔ ∃ k < c, start / 0x1000 * 0x1000 + k * 0x1000 = page := by
  constructor
  · rintro ⟨hal, hlt, hgt⟩
    have hle : start / 0x1000 ≤ page / 0x1000 := by omega
    refine ⟨page / 0x1000 - start / 0x1000, by omega, ?_⟩
    rw [← Nat.add_mul, Nat.add_sub_cancel' hle]
    exact Nat.div_mul_cancel (Nat.dvd_of_mod_eq_zero hal)
  · rintro ⟨k, hk, rfl⟩
    exact ⟨by omega, by omega, by omega⟩

/-- Where the code stops. -/
theorem stop_eq (hpos : 0 < length) (h : start + length ≤ 2 ^ 64) :
    ((start &&& 0xFFFFFFFFFFFFF000) + if length &&& 0xFFF ≠ 0 then
      ((length &&& 0xFFFFFFFFFFFFF000) + 0x1000) % 2 ^ 64 else length) % 2 ^ 64 =
    rangeEnd start length % 2 ^ 64 := by
  rw [rangeEnd, and_pageMask (by omega), and_pageOffset]
  by_cases hlen : length = 2 ^ 64
  · -- the whole of memory
    obtain rfl : start = 0 := by omega
    subst hlen
    rfl
  rw [and_pageMask (by omega)]
  split_ifs with h0
  · have hup : (length + 0xFFF) / 0x1000 * 0x1000 = length / 0x1000 * 0x1000 + 0x1000 := by omega
    rw [hup, Nat.add_mod_mod]
  · have hup : (length + 0xFFF) / 0x1000 * 0x1000 = length := by omega
    rw [hup]

/-- **What `is_mapped_user_range` answers**: nothing is walked, or pages of the kernel. -/
theorem isMappedUserRange_returns_iff (hpos : 0 < length) (hwrap : start + length ≤ 2 ^ 64) :
    Returns (isMappedUserRange m start length root) true ↔
      rangeEnd start length = 2 ^ 64 ∨ ∀ page, Walked start length page →
        KernelMapped m root page := by
  have hle := rangeEnd_le hwrap
  have hcode : ∀ n, isMappedUserRange m start length root n =
      userRangeLoop m (rangeEnd start length % 2 ^ 64) root n (start / 0x1000 * 0x1000) := by
    intro n
    rw [isMappedUserRange, ← stop_eq hpos hwrap, and_pageMask (by omega)]
  by_cases hend : rangeEnd start length = 2 ^ 64
  · -- the end is `0`: there is no first round
    refine iff_of_true ⟨1, fun n hn => ?_⟩ (Or.inl hend)
    obtain ⟨n, rfl⟩ := Nat.exists_eq_add_of_le' hn
    rw [hcode, hend, Nat.mod_self, userRangeLoop, if_neg (Nat.not_lt_zero _)]
  obtain ⟨c, hc⟩ : ∃ c, start / 0x1000 * 0x1000 + c * 0x1000 = rangeEnd start length :=
    ⟨(length + 0xFFF) / 0x1000, rfl⟩
  have hruns : ∀ n ≥ c + 1, isMappedUserRange m start length root n =
      some (decide
        (∀ k < c, isMappedUser m (start / 0x1000 * 0x1000 + k * 0x1000) root = true)) := by
    intro n hn
    obtain ⟨n, rfl⟩ := Nat.exists_eq_add_of_le hn
    rw [hcode, Nat.mod_eq_of_lt (by omega), userRangeLoop_eq hc (by omega)]
  have hreturns : Returns (isMappedUserRange m start length root) true ↔
      ∀ k < c, KernelMapped m root (start / 0x1000 * 0x1000 + k * 0x1000) := by
    simp only [← isMappedUser_iff]
    constructor
    · intro hr
      have hb := hr.unique ⟨c + 1, hruns⟩
      exact of_decide_eq_true hb.symm
    · intro hall
      refine ⟨c + 1, fun n hn => ?_⟩
      rw [hruns n hn, decide_eq_true hall]
  rw [hreturns, or_iff_right hend]
  constructor
  · intro hall page hpage
    obtain ⟨k, hk, rfl⟩ := (walked_iff hc).mp hpage
    exact hall k hk
  · intro hall k hk
    exact hall _ ((walked_iff hc).mpr ⟨k, hk, rfl⟩)

/-- **It answers as it should when, and only when, `RangeAnswers`**: the first page is walked, and
is not both the user's and the kernel's. -/
theorem rangeAnswers_iff (hpos : 0 < length) (hwrap : start + length ≤ 2 ^ 64) :
    (Returns (isMappedUserRange m start length root) true ↔ AllUserMapped m root start length) ↔
      RangeAnswers m root start length := by
  rw [isMappedUserRange_returns_iff hpos hwrap, RangeAnswers]
  split_ifs with hend
  · exact iff_true_left (Or.inl hend)
  · have hnot : AllUserMapped m root start length →
        ¬∀ page, Walked start length page → KernelMapped m root page := by
      intro huser hkernel
      exact (huser _ (meets_start hpos)).not_kernelMapped (hkernel _ (walked_start hpos))
    rw [or_iff_right hend]
    constructor
    · intro h
      have hkernel : ¬∀ page, Walked start length page → KernelMapped m root page :=
        fun hk => hnot (h.mp hk) hk
      refine ⟨?_, fun hu => hkernel (h.mpr hu)⟩
      push Not at hkernel
      exact hkernel
    · rintro ⟨⟨page, hw, hk⟩, hu⟩
      exact iff_of_false (fun hall => hk (hall page hw)) hu

end Ranges

/-! ### Pages that have been mapped -/

/-- What an entry says about who a page is for: `is_kernel`. -/
def KindOf (e : ℕ) : Option Bool → Prop
  | none => e = 0
  | some isKernel => e &&& 1 ≠ 0 ∧ (e &&& 4 = 0 ↔ isKernel = true)

/-- Who the pages are for that calls describe. -/
def PageCall.kinds (kinds : ℕ → Option Bool) : PageCall → ℕ → Option Bool
  | map virt _ isKernel _ =>
      if kinds (pageOf virt) = none then Function.update kinds (pageOf virt) (some isKernel)
      else kinds
  | free virt => Function.update kinds (pageOf virt) none

/-- A step: the code, and who the pages are for. -/
def KindStep (alloc : Machine → ℕ → Option (ℕ × ℕ × Machine)) (root : ℕ)
    (s : Machine × (ℕ → Option Bool)) (c : PageCall) (s' : Machine × (ℕ → Option Bool)) : Prop :=
  c.run alloc root s.1 = some s'.1 ∧ s'.2 = c.kinds s.2

/-- **The entries are those of the calls.** -/
structure Kinds (root : ℕ) (m : Machine) (kinds : ℕ → Option Bool) : Prop where
  refines : ∃ pages, Refines root m pages
  kind : ∀ virt, UserAddr virt → KindOf (m.entry root virt) (kinds (pageOf virt))

section Kinds

variable {alloc : Machine → ℕ → Option (ℕ × ℕ × Machine)} {root virt phys : ℕ} {k w : Bool}
variable {m m' : Machine} {kinds : ℕ → Option Bool}

/-- **The entry that `map_page_kmalloc` writes** has the user bit when the page is not the
kernel's. -/
theorem kindOf_or : KindOf (frameAddr phys ||| entryFlags k w) (some k) := by
  have hand : ∀ b, 0xFFFFFFFFFFFFF000 &&& b = 0 →
      (frameAddr phys ||| entryFlags k w) &&& b = entryFlags k w &&& b := by
    intro b hb
    rw [Nat.and_or_distrib_right, frameAddr, Nat.and_assoc, hb, Nat.and_zero, Nat.zero_or]
  rw [KindOf, hand 1 (by decide), hand 4 (by decide)]
  cases k <;> cases w <;> decide

/-- Writing the entry of a page. -/
theorem kindOf_setPtEntry {pt e : ℕ} {q : Option Bool} (ht : TreeInv m m.live (UserKey root))
    (h : ∀ v, UserAddr v → KindOf (m.entry root v) (kinds (pageOf v))) (hv : UserAddr virt)
    (hw : walk m.kid root (slots virt) = some pt) (he : KindOf e q) :
    ∀ v, UserAddr v → KindOf ((m.setPtEntry pt (ptIndex virt) e).entry root v)
      (Function.update kinds (pageOf virt) q (pageOf v)) := by
  intro v hv'
  rw [ht.entry_setPtEntry (onPath_userKey hv).pt hw (onPath_userKey hv').pt]
  by_cases hpage : pageOf v = pageOf virt
  · rw [if_pos ⟨rfl, hpage⟩, hpage, Function.update_self]
    exact he
  · rw [if_neg fun hc => hpage hc.2, Function.update_of_ne hpage]
    exact h v hv'

/-- **`map_page_kmalloc`** writes the entry of a page that is absent, and no other. -/
theorem Kinds.map (h : Kinds root m kinds) (ha : FreshTables alloc root)
    (hok : (PageCall.map virt phys k w).Allowed m) {ok : Bool}
    (hmap : mapPageKmalloc alloc m virt phys k w root = some (ok, m')) :
    Kinds root m' ((PageCall.map virt phys k w).kinds kinds) := by
  obtain ⟨⟨pages, href⟩, hkind⟩ := h
  obtain ⟨ok', m'', hmap', hcase⟩ := href.map ha hok
  obtain ⟨rfl, rfl⟩ : ok' = ok ∧ m'' = m' := by simpa [hmap] using hmap'.symm
  have hv := hok.1
  have hnone : pages (pageOf virt) = none ↔ kinds (pageOf virt) = none := by
    rw [← href.entry_eq_zero_iff hv]
    have hentry := hkind virt hv
    cases hk : kinds (pageOf virt) with
    | none => rw [hk] at hentry; exact iff_of_true hentry rfl
    | some k' =>
      rw [hk] at hentry
      refine iff_of_false (fun h0 => hentry.1 ?_) (by simp)
      rw [h0, Nat.zero_and]
  rw [PageCall.kinds]
  rcases hcase with ⟨rfl, hpage, href', -⟩ | ⟨rfl, hpage, rfl⟩
  · refine ⟨⟨_, href'⟩, ?_⟩
    obtain ⟨m₁, pt, hg, -, hw, hset⟩ :=
      href.tree.mapPageKmalloc href.bitmap ha.allocator (onPath_userKey hv) hmap
    have he₁ : m₁.tabs pt (ptIndex virt) = 0 := by
      rw [← entry_of_walk hw, hg.entry (onPath_userKey hv).pt]
      exact (href.entry_eq_zero_iff hv).mpr hpage
    rw [setPage, if_neg (not_not.mpr he₁), Prod.mk.injEq] at hset
    obtain ⟨-, rfl⟩ := hset
    rw [if_pos (hnone.mp hpage)]
    refine kindOf_setPtEntry hg.tree (fun v hv' => ?_) hv hw kindOf_or
    rw [hg.entry (onPath_userKey hv').pt]
    exact hkind v hv'
  · rw [if_neg (mt hnone.mpr hpage)]
    exact ⟨⟨pages, href⟩, hkind⟩

/-- **`free_page`** clears the entry, and no other. -/
theorem Kinds.free (h : Kinds root m kinds) (hv : UserAddr virt) :
    Kinds root (freePage m virt root) ((PageCall.free virt).kinds kinds) := by
  obtain ⟨⟨pages, href⟩, hkind⟩ := h
  refine ⟨⟨_, href.free hv⟩, ?_⟩
  by_cases he : m.entry root virt = 0
  · rw [freePage_of_none he]
    intro v hv'
    rw [PageCall.kinds]
    by_cases hpage : pageOf v = pageOf virt
    · rw [hpage, Function.update_self, entry_congr hpage]
      exact he
    · rw [Function.update_of_ne hpage]
      exact hkind v hv'
  · obtain ⟨pt, hw, -⟩ := exists_walk_of_entry he
    rw [freePage_of_entry hw he]
    have ht : TreeInv (m.markFrame (frameAddr (m.entry root virt)) false) m.live (UserKey root) :=
      href.tree.congr (fun _ _ _ => rfl) rfl
    exact kindOf_setPtEntry ht hkind hv hw rfl

/-- **Every call keeps the invariant.** -/
theorem Kinds.step {s s' : Machine × (ℕ → Option Bool)} {c : PageCall} (h : Kinds root s.1 s.2)
    (ha : FreshTables alloc root) (hok : c.Allowed s.1) (hs : KindStep alloc root s c s') :
    Kinds root s'.1 s'.2 := by
  obtain ⟨hrun, hkinds⟩ := hs
  rw [hkinds]
  cases c with
  | map virt phys k w =>
    obtain ⟨⟨ok, m'⟩, hmap, hm'⟩ := Option.map_eq_some_iff.mp hrun
    obtain rfl : m' = s'.1 := hm'
    exact h.map ha hok hmap
  | free virt =>
    rw [← Option.some.inj hrun]
    exact h.free hok

/-- **The user bit is `is_kernel`**: after any calls from an empty user half, the pages of the user
are those that were mapped with `is_kernel` false, and the others that are mapped are the
kernel's. -/
theorem userMapped_iff_of_reach {s : Machine × (ℕ → Option Bool)} (ha : FreshTables alloc root)
    (h : Reach (KindStep alloc root) (fun s c => c.Allowed s.1)
      (fun s => EmptySpace root (s.1, fun _ => none) ∧ s.2 = fun _ => none) s)
    (hv : UserAddr virt) :
    (UserMapped s.1 root virt ↔ s.2 (pageOf virt) = some false) ∧
      (KernelMapped s.1 root virt ↔ s.2 (pageOf virt) = some true) := by
  have hinv : Kinds root s.1 s.2 := by
    refine h.invariant (P := fun s => Kinds root s.1 s.2) ?_ fun _ _ _ hr hok hs =>
      hr.step ha hok hs
    rintro s ⟨hempty, hkinds⟩
    have href := hempty.refines
    refine ⟨⟨_, href⟩, fun v hv => ?_⟩
    rw [hkinds]
    exact (href.entry_eq_zero_iff hv).mpr rfl
  have hentry := hinv.kind virt hv
  rw [UserMapped, KernelMapped]
  cases hk : s.2 (pageOf virt) with
  | none =>
    rw [hk] at hentry
    have h0 : s.1.entry root virt = 0 := hentry
    simp [h0]
  | some k =>
    rw [hk] at hentry
    obtain ⟨h1, h4⟩ := hentry
    have hne : s.1.entry root virt ≠ 0 := fun h0 => h1 (by rw [h0, Nat.zero_and])
    cases k with
    | false =>
      refine ⟨iff_of_true ⟨h1, fun h0 => ?_⟩ rfl, iff_of_false (fun hc => ?_) (by simp)⟩
      · exact absurd (h4.mp h0) (by simp)
      · exact absurd (h4.mp hc.2) (by simp)
    | true =>
      have h4 := h4.mpr rfl
      exact ⟨iff_of_false (fun hc => hc.2 h4) (by simp), iff_of_true ⟨hne, h4⟩ rfl⟩

end Kinds

end Xana
