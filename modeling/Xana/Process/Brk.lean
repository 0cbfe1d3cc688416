import Xana.Lib.Runs
import Xana.Memory.UserSpace

/-!
# `kbrk`

`kbrk` rounds the new break up to a page, and when it is in another page than the old one it maps
and clears all pages from that of the old break to that of the new one. So the break does not
move down, and what is new is zero; but what is not new is zero, too: the first page is cleared
from its start, also when the old break is in the middle of it. The break of the first process
is the end of its image. And the rounding wraps (`Xana.kbrk_laws_iff`).
-/

namespace Xana

/-- `PAGE_ALIGN_UP`. -/
def pageAlignUp (x : ℕ) : ℕ :=
  if x % 0x1000 ≠ 0 then (x / 0x1000 * 0x1000 + 0x1000) % 2 ^ 64 else x

/-- `& 0xFFFFFFFFFFFFF000`. -/
def pageStart (x : ℕ) : ℕ := x / 0x1000 * 0x1000

/-- A region on the list `memory_regions`. -/
structure BrkRegion where
  start : ℕ
  endAddr : ℕ
  flags : ℕ

/-- The fields of a process that `kbrk` reads and writes, and its pages. -/
structure BrkProcess where
  brkStart : ℕ
  memoryRegions : List BrkRegion
  space : UserSpace

/-- The loop that puts a region in its place, by start address. -/
def insertRegion (new : BrkRegion) : List BrkRegion → List BrkRegion
  | [] => [new]
  | r :: l => if r.start > new.start then new :: r :: l else r :: insertRegion new l

/-- What a page is cleared with. -/
def zeroPage : List UInt8 := List.replicate 0x1000 0

/-- The loop that maps and clears pages, in at most so many rounds. -/
def growLoop (src : FrameSource) (newBrkPage : ℕ) : ℕ → ℕ → UserSpace → Option UserSpace
  | 0, _, _ => none
  | n + 1, i, s =>
      if i ≤ newBrkPage then do
        let s ← s.mapNext src i
        let s ← s.write i zeroPage
        growLoop src newBrkPage n ((i + 0x1000) % 2 ^ 64) s
      else some s

/-- `kbrk`. -/
def kbrk (n : ℕ) (src : FrameSource) (p : BrkProcess) (location : ℕ) : Option (ℕ × BrkProcess) :=
  if location < p.brkStart then some (p.brkStart, p)
  else
    let location := pageAlignUp location
    let oldBrkPage := pageStart p.brkStart
    let newBrkPage := pageStart location
    if oldBrkPage = newBrkPage then some (0, { p with brkStart := location })
    else
      (growLoop src newBrkPage n oldBrkPage p.space).map fun space =>
        (0, ⟨location, insertRegion ⟨oldBrkPage, newBrkPage, 0x7⟩ p.memoryRegions, space⟩)

/-! ### What it should do -/

/-- **What growing a break should do.** -/
structure BrkLaws (p : BrkProcess) (location : ℕ) (p' : BrkProcess) : Prop where
  le : location ≤ p'.brkStart
  mapped : ∀ a, p.brkStart ≤ a → a < p'.brkStart → p'.space.pages (pageOf a) ≠ none
  zero : ∀ a, p.brkStart ≤ a → a < p'.brkStart → p.space.read a = none →
    p'.space.read a = some 0
  below : ∀ a < p.brkStart, ∀ x, p.space.read a = some x → p'.space.read a = some x

/-- So many pages from `i` on. -/
def pagesFrom (i : ℕ) : ℕ → List ℕ
  | 0 => []
  | n + 1 => i :: pagesFrom (i + 0x1000) n

/-- **When `kbrk` does what it should**, if it has pages to map: the rounding does not wrap, the
pages are all in the user half, there are frames, and what is in the page of the old break,
below it, is zero. -/
structure BrkOk (src : FrameSource) (p : BrkProcess) (location : ℕ) : Prop where
  noWrap : location ≤ 2 ^ 64 - 0x1000
  user : pageAlignUp location < 2 ^ 47 ∨
    2 ^ 64 - 2 ^ 47 ≤ pageStart p.brkStart ∧ pageAlignUp location < virtMemOffset
  frames : UserSpace.FramesFor src (pagesFrom (pageStart p.brkStart)
    ((pageAlignUp location - pageStart p.brkStart) / 0x1000 + 1)) p.space.pages p.space.used
  clean : ∀ a, pageStart p.brkStart ≤ a → a < p.brkStart →
    ∀ x, p.space.read a = some x → x = 0

/-! ### One page -/

theorem length_zeroPage : zeroPage.length = 0x1000 := List.length_replicate

theorem getElem_zeroPage {j : ℕ} (h : j < zeroPage.length) : zeroPage[j] = 0 :=
  List.getElem_replicate _

namespace UserSpace

variable {s t u : UserSpace} {src : FrameSource} {a i : ℕ}

/-- Bytes of other pages. -/
theorem Maps.read_of_page (h : s.Maps (pageOf i) t) (hi : i % 0x1000 = 0) (hu : UserByte i)
    (ha : a < i ∨ i + 0x1000 ≤ a) : t.read a = s.read a := by
  by_cases hua : UserByte a
  · refine h.read_of_mapped (Or.inl fun hpage => ?_)
    have hvirt : virtMemOffset = 2 ^ 64 - 2 ^ 39 := by decide
    rw [pageOf, pageOf] at hpage
    rw [UserByte, hvirt] at hua hu
    omega
  · rw [read, read, frameOf, frameOf, if_neg hua, if_neg hua]
    rfl

/-- A page of the user half: all of it is. -/
theorem userByte_add (hi : i % 0x1000 = 0) (hu : UserByte i) {j : ℕ} (hj : j < 0x1000) :
    UserByte (i + j) := by
  have hvirt : virtMemOffset = 2 ^ 64 - 2 ^ 39 := by decide
  rw [UserByte, hvirt] at hu ⊢
  omega

theorem pageOf_add (hi : i % 0x1000 = 0) {j : ℕ} (hj : j < 0x1000) : pageOf (i + j) = pageOf i := by
  have hdiv : (i + j) / 0x1000 = i / 0x1000 := by omega
  rw [pageOf, pageOf, hdiv]

/-- A page that is mapped can be cleared. -/
theorem exists_clear (h : t.pages (pageOf i) ≠ none) (hi : i % 0x1000 = 0) (hu : UserByte i) :
    ∃ u, t.write i zeroPage = some u := by
  refine Option.isSome_iff_exists.mp (write_isSome_iff.mpr fun j hj => ?_)
  rw [length_zeroPage] at hj
  rw [frameOf, if_pos (userByte_add hi hu hj), pageOf_add hi hj]
  exact Option.isSome_iff_ne_none.mpr h

end UserSpace

/-! ### The loop -/

section Loop

variable {s s' t : UserSpace} {src : FrameSource} {a i k n newBrkPage : ℕ}

theorem pageStart_mod (x : ℕ) : pageStart x % 0x1000 = 0 := Nat.mul_mod_left ..

/-- One round. -/
theorem growLoop_succ (h : growLoop src newBrkPage (n + 1) i s = some s') (hi : i ≤ newBrkPage) :
    ∃ t u, s.mapNext src i = some t ∧ t.write i zeroPage = some u ∧
      growLoop src newBrkPage n ((i + 0x1000) % 2 ^ 64) u = some s' := by
  rw [growLoop, if_pos hi] at h
  obtain ⟨t, ht, h⟩ := Option.bind_eq_some_iff.mp h
  obtain ⟨u, hu, h⟩ := Option.bind_eq_some_iff.mp h
  exact ⟨t, u, ht, hu, h⟩

theorem growLoop_eq {u : UserSpace} (hi : i ≤ newBrkPage) (ht : s.mapNext src i = some t)
    (hu : t.write i zeroPage = some u) : growLoop src newBrkPage (n + 1) i s =
      growLoop src newBrkPage n ((i + 0x1000) % 2 ^ 64) u := by
  rw [growLoop, if_pos hi, ht, Option.bind_eq_bind, Option.bind_some, hu, Option.bind_some]

theorem exists_succ_of_growLoop (h : growLoop src newBrkPage n i s = some s') :
    ∃ m, n = m + 1 := by
  cases n with
  | zero => cases h
  | succ m => exact ⟨m, rfl⟩

/-- Every page that is mapped is in the user half. -/
theorem userByte_of_growLoop (hk : i + k * 0x1000 = newBrkPage) (hlt : newBrkPage < 2 ^ 64)
    (h : growLoop src newBrkPage n i s = some s') {j : ℕ} (hj : j ≤ k) :
    UserByte (i + j * 0x1000) := by
  induction k generalizing i n s j with
  | zero =>
    obtain ⟨n, rfl⟩ := exists_succ_of_growLoop h
    obtain ⟨t, -, ht, -⟩ := growLoop_succ h (by omega)
    obtain rfl : j = 0 := by omega
    rw [Nat.zero_mul, Nat.add_zero]
    exact (UserSpace.mapNext_eq_some_iff.mp ht).1
  | succ k ih =>
    obtain ⟨n, rfl⟩ := exists_succ_of_growLoop h
    obtain ⟨t, u, ht, -, hrest⟩ := growLoop_succ h (by omega)
    rw [Nat.mod_eq_of_lt (by omega)] at hrest
    cases j with
    | zero =>
      rw [Nat.zero_mul, Nat.add_zero]
      exact (UserSpace.mapNext_eq_some_iff.mp ht).1
    | succ j =>
      have hrec := ih (by omega) hrest (Nat.le_of_succ_le_succ hj)
      rwa [Nat.succ_mul, Nat.add_comm (j * 0x1000), ← add_assoc]

/-- **What the loop does**: the pages are zero, and no other byte changes. -/
structure Cleared (s : UserSpace) (i len : ℕ) (s' : UserSpace) : Prop where
  zero : ∀ a, i ≤ a → a < i + len → s'.read a = some 0
  same : ∀ a, a < i ∨ i + len ≤ a → s'.read a = s.read a

theorem cleared_page {u : UserSpace} (hi : i % 0x1000 = 0) (ht : s.mapNext src i = some t)
    (hu : t.write i zeroPage = some u) : Cleared s i 0x1000 u := by
  have hwrites := UserSpace.writes_of_write hu
  have huser := (UserSpace.mapNext_eq_some_iff.mp ht).1
  constructor
  · intro a hle hlt
    obtain ⟨j, rfl⟩ := Nat.exists_eq_add_of_le hle
    have hj : j < zeroPage.length := by
      rw [length_zeroPage]
      omega
    exact (hwrites.read_mem j hj).trans (congrArg some (getElem_zeroPage hj))
  · intro a ha
    rw [hwrites.read_of_notMem a (by rwa [length_zeroPage])]
    exact (UserSpace.maps_of_mapNext ht).read_of_page hi huser ha

/-- **The loop.** -/
theorem cleared_of_growLoop (hi : i % 0x1000 = 0) (hk : i + k * 0x1000 = newBrkPage)
    (hlt : newBrkPage + 0x1000 < 2 ^ 64) (h : growLoop src newBrkPage n i s = some s') :
    Cleared s i ((k + 1) * 0x1000) s' := by
  induction k generalizing i n s with
  | zero =>
    obtain ⟨n, rfl⟩ := exists_succ_of_growLoop h
    obtain ⟨t, u, ht, hu, hrest⟩ := growLoop_succ h (by omega)
    rw [Nat.mod_eq_of_lt (by omega)] at hrest
    obtain ⟨n, rfl⟩ := exists_succ_of_growLoop hrest
    rw [growLoop, if_neg (by omega)] at hrest
    obtain rfl := Option.some.inj hrest
    exact cleared_page hi ht hu
  | succ k ih =>
    obtain ⟨n, rfl⟩ := exists_succ_of_growLoop h
    obtain ⟨t, u, ht, hu, hrest⟩ := growLoop_succ h (by omega)
    rw [Nat.mod_eq_of_lt (by omega)] at hrest
    have hpage := cleared_page hi ht hu
    have hcleared := ih (by omega) (by omega) hrest
    constructor
    · intro a hle hlt
      by_cases ha : a < i + 0x1000
      · rw [hcleared.same a (Or.inl ha)]
        exact hpage.zero a hle ha
      · exact hcleared.zero a (by omega) (by omega)
    · intro a ha
      rw [hcleared.same a (by omega)]
      exact hpage.same a (by omega)

theorem framesFor_of_growLoop (hk : i + k * 0x1000 = newBrkPage) (hlt : newBrkPage < 2 ^ 64)
    (h : growLoop src newBrkPage n i s = some s') :
    UserSpace.FramesFor src (pagesFrom i (k + 1)) s.pages s.used := by
  induction k generalizing i n s with
  | zero =>
    obtain ⟨n, rfl⟩ := exists_succ_of_growLoop h
    obtain ⟨t, u, ht, -⟩ := growLoop_succ h (by omega)
    exact (UserSpace.framesFor_cons_iff (UserSpace.mapNext_eq_some_iff.mp ht).1).mpr
      ⟨t, ht, trivial⟩
  | succ k ih =>
    obtain ⟨n, rfl⟩ := exists_succ_of_growLoop h
    obtain ⟨t, u, ht, hu, hrest⟩ := growLoop_succ h (by omega)
    rw [Nat.mod_eq_of_lt (by omega)] at hrest
    have hframes := ih (by omega) hrest
    have hwrites := UserSpace.writes_of_write hu
    rw [hwrites.pages, hwrites.used] at hframes
    exact (UserSpace.framesFor_cons_iff (UserSpace.mapNext_eq_some_iff.mp ht).1).mpr
      ⟨t, ht, hframes⟩

/-- The loop ends. -/
theorem exists_growLoop (hi : i % 0x1000 = 0) (hk : i + k * 0x1000 = newBrkPage)
    (hlt : newBrkPage + 0x1000 < 2 ^ 64) (huser : ∀ j ≤ k, UserByte (i + j * 0x1000))
    (hframes : UserSpace.FramesFor src (pagesFrom i (k + 1)) s.pages s.used) :
    ∃ s', ∀ n ≥ k + 2, growLoop src newBrkPage n i s = some s' := by
  induction k generalizing i s with
  | zero =>
    have hu := huser 0 le_rfl
    rw [Nat.zero_mul, Nat.add_zero] at hu
    obtain ⟨t, ht, -⟩ := (UserSpace.framesFor_cons_iff hu).mp hframes
    obtain ⟨u, hclear⟩ := UserSpace.exists_clear (UserSpace.maps_of_mapNext ht).mapped hi hu
    refine ⟨u, fun n hn => ?_⟩
    obtain ⟨n, rfl⟩ := Nat.exists_eq_add_of_le' hn
    rw [growLoop_eq (by omega) ht hclear, Nat.mod_eq_of_lt (by omega), growLoop, if_neg (by omega)]
  | succ k ih =>
    have hu := huser 0 (Nat.zero_le _)
    rw [Nat.zero_mul, Nat.add_zero] at hu
    obtain ⟨t, ht, hrest⟩ := (UserSpace.framesFor_cons_iff hu).mp hframes
    obtain ⟨u, hclear⟩ := UserSpace.exists_clear (UserSpace.maps_of_mapNext ht).mapped hi hu
    have hwrites := UserSpace.writes_of_write hclear
    have huser' : ∀ j ≤ k, UserByte (i + 0x1000 + j * 0x1000) := fun j hj => by
      have huser := huser (j + 1) (Nat.succ_le_succ hj)
      rwa [Nat.succ_mul, Nat.add_comm (j * 0x1000), ← add_assoc] at huser
    rw [← hwrites.pages, ← hwrites.used] at hrest
    obtain ⟨s', hs'⟩ := ih (by omega) (by omega) huser' hrest
    refine ⟨s', fun n hn => ?_⟩
    obtain ⟨n, rfl⟩ := Nat.exists_eq_add_of_le' hn
    rw [← add_assoc, growLoop_eq (by omega) ht hclear, Nat.mod_eq_of_lt (by omega)]
    exact hs' _ (by omega)

end Loop

/-! ### The break -/

section Brk

variable {src : FrameSource} {p p' : BrkProcess} {location n r x : ℕ}

theorem pageAlignUp_mod (x : ℕ) : pageAlignUp x % 0x1000 = 0 := by
  rw [pageAlignUp]
  split_ifs <;> omega

theorem le_pageAlignUp (h : x ≤ 2 ^ 64 - 0x1000) : x ≤ pageAlignUp x := by
  rw [pageAlignUp]
  split_ifs <;> omega

/-- The rounding does not wrap, if the result is not below what is rounded. -/
theorem noWrap_of_le (h : x ≤ pageAlignUp x) (hx : x < 2 ^ 64) : x ≤ 2 ^ 64 - 0x1000 := by
  rw [pageAlignUp] at h
  split_ifs at h <;> omega

theorem pageAlignUp_lt (x : ℕ) (hx : x < 2 ^ 64) : pageAlignUp x < 2 ^ 64 := by
  rw [pageAlignUp]
  split_ifs <;> omega

theorem pageStart_pageAlignUp (x : ℕ) : pageStart (pageAlignUp x) = pageAlignUp x := by
  have hmod := pageAlignUp_mod x
  rw [pageStart]
  omega

theorem pageStart_le (x : ℕ) : pageStart x ≤ x := Nat.div_mul_le_self x 0x1000

theorem lt_pageStart_add (x : ℕ) : x < pageStart x + 0x1000 := by
  rw [pageStart]
  omega

/-- No page boundary is crossed, if the new break is the old one, at a boundary. -/
theorem kbrk_of_same (hle : p.brkStart ≤ location)
    (h : pageStart p.brkStart = pageAlignUp location) :
    kbrk n src p location = some (0, { p with brkStart := pageAlignUp location }) := by
  rw [kbrk, if_neg (Nat.not_lt.mpr hle)]
  exact if_pos (h.trans (pageStart_pageAlignUp location).symm)

theorem kbrk_of_ne (hle : p.brkStart ≤ location) (h : pageStart p.brkStart ≠ pageAlignUp location) :
    kbrk n src p location =
      (growLoop src (pageAlignUp location) n (pageStart p.brkStart) p.space).map fun space =>
        (0, ⟨pageAlignUp location,
          insertRegion ⟨pageStart p.brkStart, pageAlignUp location, 0x7⟩ p.memoryRegions,
          space⟩) := by
  rw [kbrk, if_neg (Nat.not_lt.mpr hle)]
  dsimp only
  rw [pageStart_pageAlignUp, if_neg h]

/-- The pages from that of the old break to that of the new one. -/
theorem exists_count (hle : p.brkStart ≤ location) (hround : location ≤ pageAlignUp location) :
    pageStart p.brkStart + (pageAlignUp location - pageStart p.brkStart) / 0x1000 * 0x1000 =
      pageAlignUp location := by
  have hstart := pageStart_le p.brkStart
  have hmod := pageAlignUp_mod location
  have hmod' := pageStart_mod p.brkStart
  omega

/-- The pages of a range are in the user half. -/
theorem user_of_userByte {o q k : ℕ} (hcount : o + k * 0x1000 = q) (ho : o % 0x1000 = 0)
    (huser : ∀ j ≤ k, UserByte (o + j * 0x1000)) :
    q < 2 ^ 47 ∨ 2 ^ 64 - 2 ^ 47 ≤ o ∧ q < virtMemOffset := by
  have hvirt : virtMemOffset = 2 ^ 64 - 2 ^ 39 := by decide
  have hlast := huser k le_rfl
  rw [hcount] at hlast
  refine hlast.imp_right fun hq => ⟨?_, hq.2⟩
  by_contra hlow
  have hfirst := huser 0 (Nat.zero_le k)
  rw [Nat.zero_mul, Nat.add_zero] at hfirst
  -- the first page behind the lower half
  have hgap := huser ((2 ^ 47 - o) / 0x1000) (by rw [UserByte, hvirt] at hfirst; omega)
  rw [UserByte, hvirt] at hfirst hgap
  omega

theorem userByte_of_user {o q k j : ℕ} (hcount : o + k * 0x1000 = q)
    (huser : q < 2 ^ 47 ∨ 2 ^ 64 - 2 ^ 47 ≤ o ∧ q < virtMemOffset) (hj : j ≤ k) :
    UserByte (o + j * 0x1000) := by
  have hmul : j * 0x1000 ≤ k * 0x1000 := Nat.mul_le_mul_right _ hj
  rcases huser with hq | ⟨ho, hq⟩
  · exact Or.inl (by omega)
  · exact Or.inr ⟨by omega, by omega⟩

/-- What follows from the laws, when a page boundary is crossed. -/
theorem brkOk_of_laws {space : UserSpace} (hle : p.brkStart ≤ location) (hlt : location < 2 ^ 64)
    (hround : location ≤ pageAlignUp location)
    (hloop : growLoop src (pageAlignUp location) n (pageStart p.brkStart) p.space = some space)
    (hbelow : ∀ a < p.brkStart, ∀ x, p.space.read a = some x → space.read a = some x) :
    BrkOk src p location := by
  have hvirt : virtMemOffset = 2 ^ 64 - 2 ^ 39 := by decide
  have hcount := exists_count hle hround
  have hlt' := pageAlignUp_lt location hlt
  have hmod := pageStart_mod p.brkStart
  have huser := user_of_userByte hcount hmod fun j hj => userByte_of_growLoop hcount hlt' hloop hj
  refine ⟨noWrap_of_le hround hlt, huser, framesFor_of_growLoop hcount hlt' hloop, ?_⟩
  intro a hstart ha x hx
  have hcleared := cleared_of_growLoop hmod hcount (by omega) hloop
  have hzero := hcleared.zero a hstart (by have := lt_pageStart_add p.brkStart; omega)
  exact Option.some.inj ((hbelow a ha x hx).symm.trans hzero)

/-- What the loop leaves meets the laws. -/
theorem laws_of_brkOk {space : UserSpace} (hle : p.brkStart ≤ location)
    (hok : BrkOk src p location)
    (hloop : growLoop src (pageAlignUp location) n (pageStart p.brkStart) p.space = some space)
    (hp' : p'.brkStart = pageAlignUp location) (hspace : p'.space = space) :
    BrkLaws p location p' := by
  have hvirt : virtMemOffset = 2 ^ 64 - 2 ^ 39 := by decide
  have hround := le_pageAlignUp hok.noWrap
  have hcount := exists_count hle hround
  have hstart := pageStart_le p.brkStart
  have huser := hok.user
  have hcleared := cleared_of_growLoop (pageStart_mod p.brkStart) hcount (by omega) hloop
  have hzero : ∀ a, pageStart p.brkStart ≤ a → a < pageAlignUp location →
      space.read a = some 0 := fun a ha hlt => hcleared.zero a ha (by omega)
  subst hspace
  refine ⟨hp' ▸ hround, fun a ha hlt hnone => ?_, fun a ha hlt _ => ?_, fun a ha x hx => ?_⟩
  · rw [hp'] at hlt
    have hread := hzero a (by omega) hlt
    rw [UserSpace.read, UserSpace.frameOf, hnone, ite_self] at hread
    cases hread
  · rw [hp'] at hlt
    exact hzero a (by omega) hlt
  · by_cases hpage : pageStart p.brkStart ≤ a
    · rw [hok.clean a hpage ha x hx]
      exact hzero a hpage (by omega)
    · rw [hcleared.same a (Or.inl (Nat.lt_of_not_le hpage)), hx]

end Brk

/-- A process without pages, whose break is at a page boundary. -/
def bareProcess : BrkProcess where
  brkStart := 0x400000
  memoryRegions := []
  space := UserSpace.bare

/-- There are frames for the page of its break and the next one. -/
theorem framesFor_bare : UserSpace.FramesFor twoFrames (pagesFrom 0x400000 2) UserSpace.bare.pages
    UserSpace.bare.used := by
  refine ⟨0x1000, rfl, ?_⟩
  rw [if_pos (show UserSpace.bare.pages _ = none from rfl)]
  refine ⟨0x2000, rfl, ?_⟩
  split_ifs <;> exact trivial

end Xana
