import Xana.Process.NewPages

/-!
# The regions of a process

`memory_regions` is where `page_fault_error` looks for the address of a fault.
`load_elf64` makes a region for each segment, and returns the list that it began with,
which is empty; `kexecv` does not look at what is returned, and leaves the list of the
process as it is. So the regions of a process are those that `kbrk` has put there, also
for images that are gone (`Xana.regionsFollow_iff`), and the pages of the stack are never
among them (`Xana.endAddr_le_of_reach`).
-/

namespace Xana

/-! ### The functions -/

/-- The lists of `load_elf64`. -/
structure LoadedRegions where
  /-- `regions`, which is returned. -/
  regions : List BrkRegion
  /-- History: what has been allocated and filled in. -/
  made : List BrkRegion

/-- The region that is made for a program header. -/
def Phdr.region (p : Phdr) : BrkRegion :=
  ⟨p.vaddr, (p.vaddr + p.memsz) % 2 ^ 64, p.flags &&& 0x7⟩

/-- The loop over the program headers, from `i` on. -/
def regionLoop (image : Mem) : ℕ → ℕ → LoadedRegions → LoadedRegions
  | 0, _, s => s
  | left + 1, i, s =>
      let p := phdr image i
      if p.type = ptLoad then
        -- the region is not put on the list
        regionLoop image left (i + 1) { s with made := s.made ++ [p.region] }
      else regionLoop image left (i + 1) s

/-- `load_elf64`, of which `regions`. -/
def loadElf64Regions (image : Mem) : LoadedRegions :=
  if (checkHeader image headerChecks).2 ≠ 0 then ⟨[], []⟩
  else regionLoop image (ePhnum image) 0 ⟨[], []⟩

/-- A process, with its break, its regions and its stack. -/
structure Task extends BrkProcess where
  stackLow : ℕ

/-- `ENOEXEC`. -/
def enoexec : ℤ := 8

/-- `kexecv`, once the image has been read, and there is a new directory with a stack: what it
returns, or 0 when it jumps to the image. -/
def kexecv (src : FrameSource) (image : Mem) (newDirectory : UserSpace) (t : Task) :
    Option (ℤ × Task) :=
  let t := { t with stackLow := virtMemOffset - processInitialStack }
  let info := (loadElf64 image).2
  (runOps src image (loadElf64 image).1 newDirectory).map fun space =>
    if info.status ≠ 0 then (-enoexec, t)
    else (0, { t with brkStart := pageAlignUp info.maxAddr, space := space })

/-- The loop of `kfork` that copies the regions. -/
def copyRegions : List BrkRegion → List BrkRegion → List BrkRegion
  | [], newRegions => newRegions
  | r :: l, newRegions => copyRegions l (newRegions ++ [⟨r.start, r.endAddr, r.flags⟩])

/-! ### What should hold -/

/-- A region of a list has the address. -/
def InRegions (l : List BrkRegion) (a : ℕ) : Prop := ∃ r ∈ l, r.start ≤ a ∧ a < r.endAddr

/-- A segment has the address. -/
def InSegments (image : Mem) (a : ℕ) : Prop :=
  ∃ p ∈ segments image, p.vaddr ≤ a ∧ a < p.vaddr + p.memsz

/-- **The list that `load_elf64` returns** has one region for each segment. -/
def ReturnsRegions (image : Mem) : Prop :=
  (loadElf64Regions image).regions.Perm ((segments image).map Phdr.region)

/-- **The regions follow the image**: those that are returned are the segments', those of the
process are the segments and the stack, and no other fault is recovered from. -/
structure RegionsFollow (stack : ℕ → Prop) (image : Mem) (t : Task) : Prop where
  returned : ReturnsRegions image
  covers : ∀ a, InRegions t.memoryRegions a ↔ InSegments image a ∨ stack a
  recovers : ∀ a, pageFaultOps t.memoryRegions a ≠ [] → InSegments image a ∨ stack a

section Loader

variable {image : Mem} {i left : ℕ} {s : LoadedRegions} {l l' : List BrkRegion} {a : ℕ}

/-- **The loop** makes a region for each segment, and leaves the list alone. -/
theorem regionLoop_eq : regionLoop image left i s =
    { s with made := s.made ++ (segmentsFrom image i left).map Phdr.region } := by
  induction left generalizing i s with
  | zero =>
    rw [regionLoop, segmentsFrom, List.range'_zero, List.map_nil, List.filter_nil, List.map_nil,
      List.append_nil]
  | succ left ih =>
    rw [regionLoop, segmentsFrom_succ]
    by_cases hload : (phdr image i).type = ptLoad
    · rw [if_pos hload, if_pos hload, ih, List.map_cons, List.append_assoc]
      rfl
    · rw [if_neg hload, if_neg hload, ih]

/-- What is returned is the list that `load_elf64` began with. -/
theorem regions_loadElf64 : (loadElf64Regions image).regions = [] := by
  rw [loadElf64Regions]
  split_ifs
  · rfl
  · rw [regionLoop_eq]

theorem returnsRegions_iff : ReturnsRegions image ↔ segments image = [] := by
  rw [ReturnsRegions, regions_loadElf64, List.nil_perm, List.map_eq_nil_iff]

theorem pageFaultOps_ne_nil_iff : pageFaultOps l a ≠ [] ↔ InRegions l a := by
  rw [pageFaultOps]
  split_ifs with h
  · exact iff_of_true (List.cons_ne_nil _ _) h
  · exact iff_of_false (not_not.mpr rfl) h

theorem copyRegions_eq : copyRegions l l' = l' ++ l := by
  induction l generalizing l' with
  | nil => rw [copyRegions, List.append_nil]
  | cons r l ih => rw [copyRegions, ih, List.append_assoc, List.singleton_append]

end Loader

section Exec

variable {src : FrameSource} {image : Mem} {newDirectory : UserSpace} {t t' : Task} {status : ℤ}
variable {stack : ℕ → Prop}

/-- **`kexecv` leaves the regions alone.** -/
theorem memoryRegions_kexecv (h : kexecv src image newDirectory t = some (status, t')) :
    t'.memoryRegions = t.memoryRegions := by
  obtain ⟨space, -, h⟩ := Option.map_eq_some_iff.mp h
  split_ifs at h
  · rw [Prod.mk.injEq] at h
    rw [← h.2]
  · rw [Prod.mk.injEq] at h
    rw [← h.2]

/-- **When the regions follow the image**, whatever is taken for the stack: an image without
segments, for a process that had the stack as its regions before. -/
theorem regionsFollow_iff : (ReturnsRegions image ↔ segments image = []) ∧
    (kexecv src image newDirectory t = some (0, t') → (RegionsFollow stack image t' ↔
      segments image = [] ∧ ∀ a, InRegions t.memoryRegions a ↔ stack a)) := by
  refine ⟨returnsRegions_iff, fun h => ?_⟩
  have hsame := memoryRegions_kexecv h
  have hnone : segments image = [] → ∀ a, ¬InSegments image a := by
    rintro hnil a ⟨p, hp, -⟩
    rw [hnil] at hp
    exact absurd hp List.not_mem_nil
  constructor
  · rintro ⟨hret, hcovers, -⟩
    have hnil := returnsRegions_iff.mp hret
    refine ⟨hnil, fun a => ?_⟩
    rw [← hsame, hcovers a]
    exact or_iff_right (hnone hnil a)
  · rintro ⟨hnil, hstack⟩
    have hcovers : ∀ a, InRegions t'.memoryRegions a ↔ InSegments image a ∨ stack a := by
      intro a
      rw [hsame, hstack a]
      exact (or_iff_right (hnone hnil a)).symm
    exact ⟨returnsRegions_iff.mpr hnil, hcovers,
      fun a ha => (hcovers a).mp (pageFaultOps_ne_nil_iff.mp ha)⟩

end Exec

/-! ### Runs -/

/-- What changes the regions of a process, or makes it a process of its own. -/
inductive TaskAct
  | brk (location : ℕ)
  | exec (image : Mem) (newDirectory : UserSpace)
  /-- `kfork`, which goes on in the child that `create_process` has made. -/
  | fork (child : Task)

/-- A step. -/
def Task.Step (src : FrameSource) (t : Task) : TaskAct → Task → Prop
  | .brk location, t' => location < 2 ^ 64 ∧ ∃ n r p,
      kbrk n src t.toBrkProcess location = some (r, p) ∧ t' = { t with toBrkProcess := p }
  | .exec image newDirectory, t' => ∃ status, kexecv src image newDirectory t = some (status, t')
  | .fork child, t' => t' = { child with memoryRegions := copyRegions t.memoryRegions [] }

/-- The process that all others come from has no regions. -/
def Task.IsInit (t : Task) : Prop := t.memoryRegions = []

/-- `PROCESS_INITIAL_STACK` bytes below `VIRT_MEM_OFFSET`: the stack that `kexecv` makes. -/
def InStack (a : ℕ) : Prop := virtMemOffset - processInitialStack ≤ a ∧ a < virtMemOffset

section Runs

variable {src : FrameSource} {image : Mem} {newDirectory : UserSpace} {t t' : Task} {act : TaskAct}
variable {stack : ℕ → Prop} {l : List BrkRegion} {r r' : BrkRegion} {a n ret location : ℕ}
variable {p p' : BrkProcess}

theorem mem_insertRegion : r ∈ insertRegion r' l ↔ r = r' ∨ r ∈ l := by
  induction l with
  | nil => rw [insertRegion, List.mem_singleton, or_iff_left List.not_mem_nil]
  | cons q l ih =>
    rw [insertRegion]
    split_ifs
    · exact List.mem_cons
    · rw [List.mem_cons, List.mem_cons, ih, or_left_comm]

/-- **`kbrk` adds a region below the last page of the user half**, if it adds one. -/
theorem regions_kbrk (hlt : location < 2 ^ 64) (h : kbrk n src p location = some (ret, p')) :
    ∀ r ∈ p'.memoryRegions, r ∈ p.memoryRegions ∨ r.endAddr ≤ virtMemOffset - 0x1000 := by
  by_cases hle : p.brkStart ≤ location
  · by_cases hsame : pageStart p.brkStart = pageAlignUp location
    · rw [kbrk_of_same hle hsame, Option.some.injEq, Prod.mk.injEq] at h
      obtain ⟨-, rfl⟩ := h
      exact fun r hr => Or.inl hr
    · rw [kbrk_of_ne hle hsame] at h
      obtain ⟨space, hloop, h⟩ := Option.map_eq_some_iff.mp h
      rw [Prod.mk.injEq] at h
      obtain ⟨-, rfl⟩ := h
      intro r hr
      refine (mem_insertRegion.mp hr).symm.imp_right ?_
      rintro rfl
      have hvirt : virtMemOffset = 2 ^ 64 - 2 ^ 39 := by decide
      have hmod := pageAlignUp_mod location
      show pageAlignUp location ≤ virtMemOffset - 0x1000
      by_cases hround : location ≤ pageAlignUp location
      · -- the page of the new break has been mapped
        have huser := userByte_of_growLoop (exists_count hle hround) (pageAlignUp_lt location hlt)
          hloop le_rfl
        rw [exists_count hle hround, UserByte] at huser
        omega
      · -- the rounding has wrapped
        rw [pageAlignUp] at hround ⊢
        split_ifs at hround ⊢ <;> omega
  · rw [kbrk, if_pos (Nat.lt_of_not_le hle), Option.some.injEq, Prod.mk.injEq] at h
    obtain ⟨-, rfl⟩ := h
    exact fun r hr => Or.inl hr

/-- A step keeps the regions below the last page of the user half. -/
theorem Task.Step.endAddr_le (h : t.Step src act t')
    (ht : ∀ r ∈ t.memoryRegions, r.endAddr ≤ virtMemOffset - 0x1000) :
    ∀ r ∈ t'.memoryRegions, r.endAddr ≤ virtMemOffset - 0x1000 := by
  cases act with
  | brk location =>
    obtain ⟨hlt, n, ret, p, hbrk, rfl⟩ := h
    exact fun r hr => (regions_kbrk hlt hbrk r hr).elim (ht r) id
  | exec image newDirectory =>
    obtain ⟨status, hexec⟩ := h
    rw [memoryRegions_kexecv hexec]
    exact ht
  | fork child =>
    subst h
    rw [copyRegions_eq, List.nil_append]
    exact ht

/-- **In every run**, the last page of the user half, where the stack begins, is in no region. -/
theorem endAddr_le_of_reach (h : Reach (fun t a t' => t.Step src a t') anyStep Task.IsInit t) :
    ∀ r ∈ t.memoryRegions, r.endAddr ≤ virtMemOffset - 0x1000 := by
  refine h.invariant (P := fun t => ∀ r ∈ t.memoryRegions, r.endAddr ≤ virtMemOffset - 0x1000) ?_
    fun _ _ _ ht _ hstep => Task.Step.endAddr_le hstep ht
  intro t hinit r hr
  rw [hinit] at hr
  exact absurd hr List.not_mem_nil

/-- **In every run, the regions do not follow the image**, after any `kexecv`, if the stack has an
address in that page. -/
theorem not_regionsFollow_of_reach
    (h : Reach (fun t a t' => t.Step src a t') anyStep Task.IsInit t)
    (hexec : kexecv src image newDirectory t = some (0, t')) (ha : virtMemOffset - 0x1000 ≤ a)
    (hstack : stack a) : ¬RegionsFollow stack image t' := by
  intro hfollow
  obtain ⟨r, hr, -, hlt⟩ := (hfollow.covers a).mpr (Or.inr hstack)
  rw [memoryRegions_kexecv hexec] at hr
  exact absurd (hlt.trans_le (endAddr_le_of_reach h r hr)) (Nat.not_lt.mpr ha)

end Runs

/-! ### A region of another image -/

/-- The image of `byteImage`, with its byte where it is mapped. -/
def plainImage : Mem := fun i => (byteImage 0x400000).getD i 0

/-- A process with a region that `kbrk` has put on the list. -/
def brkTask : Task where
  brkStart := 0x802000
  memoryRegions := [⟨0x800000, 0x802000, 7⟩]
  space := UserSpace.bare
  stackLow := 0

theorem exists_kexecv :
    ∃ t', kexecv twoFrames plainImage UserSpace.bare brkTask = some (0, t') := by
  have hruns : (runOps twoFrames plainImage (loadElf64 plainImage).1 UserSpace.bare).isSome := by
    decide
  obtain ⟨space, hspace⟩ := Option.isSome_iff_exists.mp hruns
  have hstatus : (loadElf64 plainImage).2.status = 0 := by decide
  rw [kexecv, hspace, Option.map_some, if_neg (not_not.mpr hstatus)]
  exact ⟨_, rfl⟩

theorem regionsFollow_iff_plainImage : ∃ t',
    kexecv twoFrames plainImage UserSpace.bare brkTask = some (0, t') ∧
      (RegionsFollow InStack plainImage t' ↔
        segments plainImage = [] ∧ ∀ a, InRegions brkTask.memoryRegions a ↔ InStack a) := by
  obtain ⟨t', h⟩ := exists_kexecv
  exact ⟨t', h, regionsFollow_iff.2 h⟩

/-- No region is returned for the segment, and a fault at an address of the image before is
recovered from. -/
theorem not_regionsFollow : ¬ReturnsRegions plainImage ∧
    ∃ t', kexecv twoFrames plainImage UserSpace.bare brkTask = some (0, t') ∧
      pageFaultOps t'.memoryRegions 0x801000 ≠ [] ∧
      ¬(InSegments plainImage 0x801000 ∨ InStack 0x801000) ∧
      ¬RegionsFollow InStack plainImage t' := by
  have hret : ¬ReturnsRegions plainImage := by
    rw [returnsRegions_iff]
    decide
  obtain ⟨t', h⟩ := exists_kexecv
  refine ⟨hret, t', h, ?_, ?_, fun hfollow => hret hfollow.returned⟩
  · rw [memoryRegions_kexecv h]
    decide
  · rw [InSegments, InStack]
    decide

end Xana
