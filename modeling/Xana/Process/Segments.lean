import Xana.Memory.UserSpace
import Xana.Process.Loader
import Xana.String.Basic

/-!
# What `load_elf64` loads

The loader's operations, run on the pages of an address space. `load_elf64` maps as many pages as
a segment has bytes for, from `p_vaddr` on, and copies to `p_paddr`, with `memcpy`. So a segment
is where it should be if the two addresses are the same, `memcpy` copies all of it, and its pages
are among those that have been mapped (`Xana.loadElf64_loads`).
-/

namespace Xana

open Mem

/-- The segments that are loaded. -/
def segments (image : Mem) : List Phdr :=
  ((List.range (ePhnum image)).map (phdr image)).filter fun p => p.type = ptLoad

namespace UserSpace

/-- `memcpy` from the image: first the bytes up to the next multiple of eight, and then from the
start as many as are left (`Xana.memcpy_eq`). -/
def copyFrom (image : Mem) (s : UserSpace) (dest off len : ℕ) : Option UserSpace :=
  (s.write dest (image.read off (headLength dest len))).bind fun s =>
    s.write dest (image.read off (len - headLength dest len))

end UserSpace

/-- What an operation does to an address space. -/
def LoadOp.run (src : FrameSource) (image : Mem) : LoadOp → UserSpace → Option UserSpace
  | read _ _, s => some s
  | map virt, s => s.mapNext src virt
  | copy dest off len, s => s.copyFrom image dest off len
  | zero dest len, s => s.write dest (List.replicate len 0)

/-- The operations, in order. -/
def runOps (src : FrameSource) (image : Mem) : List LoadOp → UserSpace → Option UserSpace
  | [], s => some s
  | op :: ops, s => (op.run src image s).bind (runOps src image ops)

/-! ### What is promised -/

/-- An image that is accepted, whose segments are in the user half, do not overlap, and are in
the image. -/
structure WellFormed (n : ℕ) (image : Mem) : Prop where
  accepted : (loadElf64 image).2.status = 0
  user : ∀ p ∈ segments image, ∀ k < p.memsz, UserByte (p.vaddr + k)
  end_le : ∀ p ∈ segments image, p.vaddr + p.memsz ≤ virtMemOffset
  apart : (segments image).Pairwise fun p q =>
    p.vaddr + p.memsz ≤ q.vaddr ∨ q.vaddr + q.memsz ≤ p.vaddr
  filesz_le : ∀ p ∈ segments image, p.filesz ≤ p.memsz
  inside : ∀ p ∈ segments image, p.offset + p.filesz ≤ n

/-- A segment is where it should be. -/
structure SegmentLoaded (image : Mem) (s : UserSpace) (p : Phdr) : Prop where
  mapped : ∀ k < p.memsz, s.pages (pageOf (p.vaddr + k)) ≠ none
  file : ∀ k < p.filesz, s.read (p.vaddr + k) = some (image (p.offset + k))
  zero : ∀ k, p.filesz ≤ k → k < p.memsz → s.read (p.vaddr + k) = some 0

/-- **The segments are loaded**, and `max_addr` is the largest end of one. -/
structure SegmentsLoaded (image : Mem) (s : UserSpace) (maxAddr : ℕ) : Prop where
  segment : ∀ p ∈ segments image, SegmentLoaded image s p
  le_max : ∀ p ∈ segments image, p.vaddr + p.memsz ≤ maxAddr
  max_eq : maxAddr = 0 ∨ ∃ p ∈ segments image, maxAddr = p.vaddr + p.memsz

/-! ### The condition -/

/-- **A segment is copied to where it is mapped**, and `memcpy` copies all of it. -/
structure Phdr.Direct (p : Phdr) : Prop where
  paddr_eq : p.memsz = 0 ∨ p.paddr = p.vaddr
  copied : p.paddr % 8 = 0 ∨ p.filesz ≤ 8 - p.paddr % 8
  memsz_le : p.memsz ≤ 2 ^ 31

/-- Every page of a segment is there before, or is one of those that are mapped for it and for
the segments before. -/
def Covered : (ℕ → Prop) → List Phdr → Prop
  | _, [] => True
  | there, p :: l =>
      (∀ k < p.memsz, there (pageOf (p.vaddr + k)) ∨
        ∃ j < p.numPages, pageOf (p.pageAddr j) = pageOf (p.vaddr + k)) ∧
      Covered (fun v => there v ∨ ∃ j < p.numPages, pageOf (p.pageAddr j) = v) l

/-- The addresses that pages are mapped at. -/
def Phdr.pageAddrs (p : Phdr) : List ℕ := (List.range p.numPages).map p.pageAddr

/-- **When an image is loaded.** -/
structure LoadOk (src : FrameSource) (image : Mem) (s : UserSpace) : Prop where
  direct : ∀ p ∈ segments image, p.Direct
  covered : Covered (fun v => s.pages v ≠ none) (segments image)
  frames : UserSpace.FramesFor src ((segments image).flatMap Phdr.pageAddrs) s.pages s.used

/-! ### Operations in order -/

section Operations

variable {src : FrameSource} {image : Mem} {s t u : UserSpace} {ops ops' : List LoadOp}
  {i left maxAddr dest off len : ℕ}

theorem runOps_append :
    runOps src image (ops ++ ops') s = (runOps src image ops s).bind (runOps src image ops') := by
  induction ops generalizing s with
  | nil => rfl
  | cons op ops ih =>
    rw [List.cons_append, runOps, runOps, Option.bind_assoc]
    exact congrArg _ (funext fun t => ih)

theorem runOps_read : runOps src image (.read off len :: ops) s = runOps src image ops s := rfl

/-- What is read from the headers changes nothing. -/
theorem runOps_of_reads (h : ∀ op ∈ ops, ∃ off len, op = .read off len) :
    runOps src image ops s = some s := by
  induction ops with
  | nil => rfl
  | cons op ops ih =>
    obtain ⟨⟨off, len, rfl⟩, hops⟩ := List.forall_mem_cons.mp h
    exact ih hops

theorem reads_checkHeader (image : Mem) (checks : List (ℕ × ℕ × ℕ × ℤ)) :
    ∀ op ∈ (checkHeader image checks).1, ∃ off len, op = .read off len := by
  induction checks with
  | nil => exact fun op hop => absurd hop List.not_mem_nil
  | cons c checks ih =>
    rw [checkHeader]
    split_ifs
    · exact List.forall_mem_singleton.mpr ⟨c.1, c.2.1, rfl⟩
    · exact List.forall_mem_cons.mpr ⟨⟨c.1, c.2.1, rfl⟩, ih⟩

/-- The segments that the loop loads from `i` on. -/
def segmentsFrom (image : Mem) (i left : ℕ) : List Phdr :=
  ((List.range' i left).map (phdr image)).filter fun p => p.type = ptLoad

theorem segmentsFrom_succ : segmentsFrom image i (left + 1) =
    if (phdr image i).type = ptLoad then phdr image i :: segmentsFrom image (i + 1) left
    else segmentsFrom image (i + 1) left := by
  rw [segmentsFrom, List.range'_succ, List.map_cons, List.filter_cons]
  simp only [decide_eq_true_eq]
  rfl

theorem segments_eq (image : Mem) : segments image = segmentsFrom image 0 (ePhnum image) := by
  rw [segments, segmentsFrom, List.range_eq_range']

/-- The loop over the program headers loads the segments. -/
theorem runOps_loadLoop : runOps src image (loadLoop image left i maxAddr).1 s =
    runOps src image ((segmentsFrom image i left).flatMap loadSegment) s := by
  induction left generalizing i maxAddr s with
  | zero => rfl
  | succ left ih =>
    rw [loadLoop, segmentsFrom_succ]
    by_cases hload : (phdr image i).type = ptLoad
    · have hrest : runOps src image
          (loadLoop image left (i + 1) (trackMax (phdr image i) maxAddr)).1 = _ :=
        funext fun _ => ih
      rw [if_pos hload, if_pos hload]
      dsimp only
      rw [List.flatMap_cons, runOps_append, runOps_append, runOps_append, runOps_of_reads (by simp),
        Option.bind_some, hrest, runOps_read]
    · rw [if_neg hload, if_neg hload]
      dsimp only
      rw [runOps_append, runOps_of_reads (by simp), Option.bind_some]
      exact ih

theorem loadLoop_max : (loadLoop image left i maxAddr).2 =
    (segmentsFrom image i left).foldl (fun m p => trackMax p m) maxAddr := by
  induction left generalizing i maxAddr with
  | zero => rfl
  | succ left ih =>
    rw [loadLoop, segmentsFrom_succ]
    by_cases hload : (phdr image i).type = ptLoad
    · rw [if_pos hload, if_pos hload, List.foldl_cons]
      exact ih
    · rw [if_neg hload, if_neg hload]
      exact ih

/-- `load_elf64`, for an image that is accepted. -/
theorem runOps_loadElf64 (src : FrameSource) (s : UserSpace)
    (h : (loadElf64 image).2.status = 0) :
    runOps src image (loadElf64 image).1 s =
        runOps src image ((segments image).flatMap loadSegment) s ∧
      (loadElf64 image).2.maxAddr = (segments image).foldl (fun m p => trackMax p m) 0 := by
  rw [loadElf64] at h ⊢
  by_cases hok : (checkHeader image headerChecks).2 = 0
  · rw [if_neg (not_not.mpr hok)]
    dsimp only
    rw [segments_eq]
    refine ⟨?_, loadLoop_max⟩
    rw [runOps_append, runOps_append, runOps_of_reads (reads_checkHeader image headerChecks),
      Option.bind_some, runOps_loadLoop]
    exact Option.bind_fun_some _
  · rw [if_pos hok] at h
    exact absurd h hok

end Operations

/-! ### `max_addr` -/

section MaxAddr

variable {l : List Phdr} {p : Phdr} {m : ℕ}

theorem trackMax_eq (h : p.vaddr + p.memsz < 2 ^ 64) :
    trackMax p m = max m (p.vaddr + p.memsz) := by
  rw [trackMax, Nat.mod_eq_of_lt h]
  split_ifs with hlt
  · exact (max_eq_right hlt.le).symm
  · exact (max_eq_left (Nat.not_lt.mp hlt)).symm

/-- `max_addr` is the largest end of a segment. -/
theorem foldl_trackMax (hl : ∀ p ∈ l, p.vaddr + p.memsz < 2 ^ 64) :
    m ≤ l.foldl (fun m p => trackMax p m) m ∧
      (∀ p ∈ l, p.vaddr + p.memsz ≤ l.foldl (fun m p => trackMax p m) m) ∧
      (l.foldl (fun m p => trackMax p m) m = m ∨
        ∃ p ∈ l, l.foldl (fun m p => trackMax p m) m = p.vaddr + p.memsz) := by
  induction l generalizing m with
  | nil => exact ⟨le_rfl, fun p hp => absurd hp List.not_mem_nil, Or.inl rfl⟩
  | cons q l ih =>
    obtain ⟨hq, hl⟩ := List.forall_mem_cons.mp hl
    obtain ⟨hle, hmem, hmax⟩ := @ih (trackMax q m) hl
    rw [List.foldl_cons]
    rw [trackMax_eq hq] at hle hmem hmax ⊢
    refine ⟨(le_max_left ..).trans hle,
      List.forall_mem_cons.mpr ⟨(le_max_right ..).trans hle, hmem⟩, ?_⟩
    rcases hmax with hmax | ⟨p, hp, hmax⟩
    · rcases max_choice m (q.vaddr + q.memsz) with hm | hm
      · exact Or.inl (hmax.trans hm)
      · exact Or.inr ⟨q, List.mem_cons_self, hmax.trans hm⟩
    · exact Or.inr ⟨p, List.mem_cons_of_mem q hp, hmax⟩

end MaxAddr

/-! ### One segment -/

section Segment

variable {src : FrameSource} {image : Mem} {s t u s' : UserSpace} {p q : Phdr}
  {addrs rest : List ℕ} {dest off len : ℕ}

/-- **Pages are mapped**: they are there, and so is all that was. -/
structure MapsAll (s : UserSpace) (addrs : List ℕ) (u : UserSpace) : Prop where
  mapped : ∀ v, u.pages v ≠ none ↔ s.pages v ≠ none ∨ ∃ a ∈ addrs, pageOf a = v
  kept : ∀ a x, s.read a = some x → u.read a = some x

theorem exists_mapsAll (image : Mem) (huser : ∀ a ∈ addrs, UserByte a)
    (hframes : UserSpace.FramesFor src (addrs ++ rest) s.pages s.used) :
    ∃ u, runOps src image (addrs.map .map) s = some u ∧ MapsAll s addrs u ∧
      UserSpace.FramesFor src rest u.pages u.used := by
  induction addrs generalizing s with
  | nil => exact ⟨s, rfl, ⟨fun v => by simp, fun _ _ h => h⟩, hframes⟩
  | cons a addrs ih =>
    obtain ⟨ha, huser⟩ := List.forall_mem_cons.mp huser
    obtain ⟨t, ht, hframes⟩ := (UserSpace.framesFor_cons_iff ha).mp hframes
    obtain ⟨u, hu, hmaps, hframes⟩ := ih huser hframes
    have hmap := UserSpace.maps_of_mapNext ht
    refine ⟨u, ?_, ⟨fun v => ?_, fun b x hx => hmaps.kept b x (hmap.read_of_some hx)⟩, hframes⟩
    · rw [List.map_cons, runOps, LoadOp.run, ht]
      exact hu
    · rw [hmaps.mapped, List.exists_mem_cons_iff, ← or_assoc]
      refine or_congr_left ⟨fun h => ?_, ?_⟩
      · by_cases hv : v = pageOf a
        · exact Or.inr hv.symm
        · exact Or.inl (hmap.kept v (Or.inl hv) ▸ h)
      · rintro (h | rfl)
        · exact (hmap.kept v (Or.inr h)).symm ▸ h
        · exact hmap.mapped

/-- What `memcpy` copies, if it copies all. -/
theorem copyFrom_eq (h : dest % 8 = 0 ∨ len ≤ 8 - dest % 8) :
    s.copyFrom image dest off len = s.write dest (image.read off len) := by
  rw [UserSpace.copyFrom]
  by_cases hdest : dest % 8 = 0
  · have hhead : headLength dest len = 0 := by
      rw [headLength, hdest]
      exact Nat.min_zero len
    rw [hhead, Nat.sub_zero]
    rfl
  · have hhead : headLength dest len = len := by
      rw [headLength]
      omega
    rw [hhead, Nat.sub_self]
    exact Option.bind_fun_some _

theorem exists_write {a : ℕ} {l : List UInt8} (huser : ∀ k < l.length, UserByte (a + k))
    (hpages : ∀ k < l.length, s.pages (pageOf (a + k)) ≠ none) : ∃ t, s.write a l = some t := by
  refine Option.isSome_iff_exists.mp (UserSpace.write_isSome_iff.mpr fun k hk => ?_)
  rw [UserSpace.frameOf, if_pos (huser k hk)]
  exact Option.isSome_iff_ne_none.mpr (hpages k hk)

/-- **What loading a segment does.** -/
structure LoadsOne (image : Mem) (s : UserSpace) (p : Phdr) (s' : UserSpace) : Prop where
  loaded : SegmentLoaded image s' p
  pages : ∀ v, s'.pages v ≠ none ↔ s.pages v ≠ none ∨ ∃ j < p.numPages, pageOf (p.pageAddr j) = v
  kept : ∀ a, a < p.vaddr ∨ p.vaddr + p.memsz ≤ a → ∀ x, s.read a = some x → s'.read a = some x

/-- The bytes of a segment whose pages are there. -/
theorem exists_fill (src : FrameSource) (image : Mem) (hp : p.Direct)
    (huser : ∀ k < p.memsz, UserByte (p.vaddr + k))
    (hend : p.vaddr + p.memsz ≤ virtMemOffset) (hfile : p.filesz ≤ p.memsz)
    (hpages : ∀ k < p.memsz, s.pages (pageOf (p.vaddr + k)) ≠ none) :
    ∃ s', runOps src image (.copy p.paddr p.offset p.filesz ::
        if p.memsz > p.filesz then [.zero ((p.paddr + p.filesz) % 2 ^ 64) (p.memsz - p.filesz)]
        else []) s = some s' ∧
      s'.pages = s.pages ∧ s'.used = s.used ∧ SegmentLoaded image s' p ∧
      ∀ a, a < p.vaddr ∨ p.vaddr + p.memsz ≤ a → s'.read a = s.read a := by
  have hvirt : virtMemOffset < 2 ^ 64 := by decide
  rw [runOps, LoadOp.run, copyFrom_eq hp.copied]
  rcases hp.paddr_eq with hzero | hpaddr
  · -- there is nothing to copy or to clear
    obtain hfile : p.filesz = 0 := by omega
    rw [hzero, hfile, if_neg (Nat.lt_irrefl 0)]
    refine ⟨s, rfl, rfl, rfl, ⟨fun k hk => ?_, fun k hk => ?_, fun k _ hk => ?_⟩, fun _ _ => rfl⟩
    all_goals omega
  · rw [hpaddr]
    have hlen : (image.read p.offset p.filesz).length = p.filesz := length_read ..
    obtain ⟨t, ht⟩ := exists_write (s := s) (a := p.vaddr) (l := image.read p.offset p.filesz)
      (fun k hk => huser k (by omega)) (fun k hk => hpages k (by omega))
    have hcopy := UserSpace.writes_of_write ht
    rw [ht, Option.bind_some]
    have hread : ∀ k < p.filesz, t.read (p.vaddr + k) = some (image (p.offset + k)) := by
      intro k hk
      rw [hcopy.read_mem k (by omega), ← List.getElem?_eq_getElem, getElem?_read hk]
    split_ifs with hmem
    · -- the rest of the segment is cleared
      have hlen' : (List.replicate (p.memsz - p.filesz) (0 : UInt8)).length = p.memsz - p.filesz :=
        List.length_replicate
      obtain ⟨u, hu⟩ := exists_write (s := t) (a := p.vaddr + p.filesz)
        (l := List.replicate (p.memsz - p.filesz) 0)
        (fun k hk => by rw [add_assoc]; exact huser _ (by omega))
        (fun k hk => by rw [add_assoc, hcopy.pages]; exact hpages _ (by omega))
      have hclear := UserSpace.writes_of_write hu
      have hpages' := hclear.pages.trans hcopy.pages
      refine ⟨u, ?_, hpages', hclear.used.trans hcopy.used, ⟨fun k hk => ?_, fun k hk => ?_,
        fun k hle hk => ?_⟩, fun a ha => ?_⟩
      · rw [runOps, LoadOp.run, Nat.mod_eq_of_lt (by omega), hu]
        rfl
      · rw [hpages']
        exact hpages k hk
      · rw [hclear.read_of_notMem _ (Or.inl (by omega))]
        exact hread k hk
      · have hk' : k - p.filesz < (List.replicate (p.memsz - p.filesz) (0 : UInt8)).length := by
          omega
        have hbyte := hclear.read_mem (k - p.filesz) hk'
        rwa [List.getElem_replicate, add_assoc, Nat.add_sub_cancel' hle] at hbyte
      · rw [hclear.read_of_notMem a (by omega), hcopy.read_of_notMem a (by omega)]
    · refine ⟨t, rfl, hcopy.pages, hcopy.used, ⟨fun k hk => ?_, hread, fun k hle hk => ?_⟩,
        fun a ha => hcopy.read_of_notMem a (by omega)⟩
      · rw [hcopy.pages]
        exact hpages k hk
      · omega

/-- The pages of a segment follow each other, if their number is not too large. -/
theorem pageAddr_eq {j : ℕ} (hp : p.Direct) (hend : p.vaddr + p.memsz ≤ virtMemOffset)
    (hj : j < p.numPages) : p.pageAddr j = p.vaddr + j * 0x1000 ∧ j * 0x1000 < p.memsz := by
  have hvirt : virtMemOffset < 2 ^ 64 := by decide
  have hmem := hp.memsz_le
  have hlt : j * 0x1000 < p.memsz := by
    rw [Phdr.numPages] at hj
    split_ifs at hj <;> omega
  refine ⟨?_, hlt⟩
  have hint : intToU64 (j * 0x1000) = j * 0x1000 := by
    rw [intToU64, if_pos (by omega), Nat.mod_eq_of_lt (by omega)]
  rw [Phdr.pageAddr, hint, Nat.mod_eq_of_lt (by omega)]

theorem exists_loadsOne (image : Mem) (hp : p.Direct)
    (huser : ∀ k < p.memsz, UserByte (p.vaddr + k))
    (hend : p.vaddr + p.memsz ≤ virtMemOffset) (hfile : p.filesz ≤ p.memsz)
    (hcovered : ∀ k < p.memsz, s.pages (pageOf (p.vaddr + k)) ≠ none ∨
      ∃ j < p.numPages, pageOf (p.pageAddr j) = pageOf (p.vaddr + k))
    (hframes : UserSpace.FramesFor src (p.pageAddrs ++ rest) s.pages s.used) :
    ∃ s', runOps src image (loadSegment p) s = some s' ∧ LoadsOne image s p s' ∧
      UserSpace.FramesFor src rest s'.pages s'.used := by
  have haddrs : ∀ a ∈ p.pageAddrs, UserByte a := by
    rw [Phdr.pageAddrs, List.forall_mem_map]
    intro j hj
    obtain ⟨heq, hlt⟩ := pageAddr_eq hp hend (List.mem_range.mp hj)
    exact heq ▸ huser _ hlt
  obtain ⟨t, ht, hmaps, hframes⟩ := exists_mapsAll image haddrs hframes
  have hpages : ∀ v, t.pages v ≠ none ↔
      s.pages v ≠ none ∨ ∃ j < p.numPages, pageOf (p.pageAddr j) = v := by
    intro v
    rw [hmaps.mapped]
    simp [Phdr.pageAddrs]
  obtain ⟨s', hs', hsame, hused, hloaded, hkept⟩ := exists_fill src image hp huser hend hfile
    fun k hk => (hpages _).mpr (hcovered k hk)
  refine ⟨s', ?_, ⟨hloaded, fun v => by rw [hsame, hpages], fun a ha x hx => ?_⟩, ?_⟩
  · rw [Phdr.pageAddrs, List.map_map] at ht
    rw [loadSegment, runOps_append]
    exact (congrArg (Option.bind · _) ht).trans hs'
  · exact (hkept a ha).trans (hmaps.kept a x hx)
  · rwa [hsame, hused]

/-- A segment that has been loaded stays so. -/
theorem SegmentLoaded.mono (h : SegmentLoaded image s q) (hfile : q.filesz ≤ q.memsz)
    (hpages : ∀ v, s.pages v ≠ none → s'.pages v ≠ none)
    (hkept : ∀ k < q.memsz, ∀ x, s.read (q.vaddr + k) = some x → s'.read (q.vaddr + k) = some x) :
    SegmentLoaded image s' q where
  mapped k hk := hpages _ (h.mapped k hk)
  file k hk := hkept k (hk.trans_le hfile) _ (h.file k hk)
  zero k hle hk := hkept k hk _ (h.zero k hle hk)

end Segment

/-! ### All segments -/

section Segments

variable {src : FrameSource} {image : Mem} {s s' : UserSpace} {l : List Phdr} {n : ℕ}

/-- **What loading segments does.** -/
structure LoadsAll (image : Mem) (s : UserSpace) (l : List Phdr) (s' : UserSpace) : Prop where
  loaded : ∀ p ∈ l, SegmentLoaded image s' p
  pages : ∀ v, s.pages v ≠ none → s'.pages v ≠ none
  kept : ∀ a, (∀ p ∈ l, a < p.vaddr ∨ p.vaddr + p.memsz ≤ a) →
    ∀ x, s.read a = some x → s'.read a = some x

/-- The segments, one after the other. What has been loaded is kept, as they do not overlap. -/
theorem exists_loadsAll (hl : ∀ p ∈ l, p.Direct ∧ (∀ k < p.memsz, UserByte (p.vaddr + k)) ∧
      p.vaddr + p.memsz ≤ virtMemOffset ∧ p.filesz ≤ p.memsz)
    (hapart : l.Pairwise fun p q => p.vaddr + p.memsz ≤ q.vaddr ∨ q.vaddr + q.memsz ≤ p.vaddr)
    (hcovered : Covered (fun v => s.pages v ≠ none) l)
    (hframes : UserSpace.FramesFor src (l.flatMap Phdr.pageAddrs) s.pages s.used) :
    ∃ s', runOps src image (l.flatMap loadSegment) s = some s' ∧ LoadsAll image s l s' := by
  induction l generalizing s with
  | nil =>
    exact ⟨s, rfl, fun p hp => absurd hp List.not_mem_nil, fun _ h => h, fun _ _ _ h => h⟩
  | cons p l ih =>
    obtain ⟨⟨hp, huser, hend, hfile⟩, hl⟩ := List.forall_mem_cons.mp hl
    obtain ⟨hpl, hapart⟩ := List.pairwise_cons.mp hapart
    obtain ⟨hpages, hcovered⟩ := hcovered
    rw [List.flatMap_cons] at hframes
    obtain ⟨t, ht, hone, hframes⟩ := exists_loadsOne image hp huser hend hfile hpages hframes
    have hthere : (fun v => s.pages v ≠ none ∨ ∃ j < p.numPages, pageOf (p.pageAddr j) = v) =
        fun v => t.pages v ≠ none := funext fun v => propext (hone.pages v).symm
    rw [hthere] at hcovered
    obtain ⟨s', hs', hall⟩ := ih hl hapart hcovered hframes
    refine ⟨s', ?_, ⟨List.forall_mem_cons.mpr ⟨?_, hall.loaded⟩,
      fun v hv => hall.pages v ((hone.pages v).mpr (Or.inl hv)), fun a ha x hx => ?_⟩⟩
    · rw [List.flatMap_cons, runOps_append, ht]
      exact hs'
    · refine hone.loaded.mono hfile hall.pages fun k hk => hall.kept _ fun q hq => ?_
      have := hpl q hq
      omega
    · obtain ⟨hap, hal⟩ := List.forall_mem_cons.mp ha
      exact hall.kept a hal x (hone.kept a hap x hx)

end Segments

/-- An image whose byte is copied to `paddr`. -/
def byteAt (paddr : ℕ) : Mem := fun i => (byteImage paddr).getD i 0

theorem wellFormed_of_segments {image : Mem} {p : Phdr} {n : ℕ}
    (haccepted : (loadElf64 image).2.status = 0) (hp : segments image = [p])
    (huser : ∀ k < p.memsz, UserByte (p.vaddr + k)) (hend : p.vaddr + p.memsz ≤ virtMemOffset)
    (hfile : p.filesz ≤ p.memsz) (hinside : p.offset + p.filesz ≤ n) : WellFormed n image where
  accepted := haccepted
  user := by rwa [hp, List.forall_mem_singleton]
  end_le := by rwa [hp, List.forall_mem_singleton]
  apart := by rw [hp]; exact List.pairwise_singleton ..
  filesz_le := by rwa [hp, List.forall_mem_singleton]
  inside := by rwa [hp, List.forall_mem_singleton]

end Xana
