import Xana.Lib.Memory
import Xana.Memory.Paging

/-!
# `load_elf64`

The loader of ELF images: what it reads from the image, and which addresses it maps, copies to
and clears, in order. `load_elf64` checks the magic number and the kind of the image; it looks
neither at the length of the image nor at any of the offsets, sizes and addresses in it. When
all that it touches is where it should be is a condition on the headers
(`Xana.loadElf64_inside_iff`).

The image is what is in memory from `elf_file` on, of which only the first bytes are the file's.
Addresses are 64-bit numbers and wrap; the counters of the loops are `int`s.
-/

namespace Xana

open Mem

/-! ### The headers -/

/-- An `int` as a `uint64_t`. -/
def intToU64 (z : ℕ) : ℕ :=
  if z % 2 ^ 32 < 2 ^ 31 then z % 2 ^ 32 else z % 2 ^ 32 + (2 ^ 64 - 2 ^ 32)

/-- A program header, by its offset in the image. -/
structure Phdr where
  type : ℕ
  flags : ℕ
  offset : ℕ
  vaddr : ℕ
  paddr : ℕ
  filesz : ℕ
  memsz : ℕ

/-- `PT_LOAD`. -/
def ptLoad : ℕ := 1

section Headers

variable (image : Mem)

/-- `e_entry`. -/
def eEntry : ℕ := image.load 24 8

/-- `e_phoff`. -/
def ePhoff : ℕ := image.load 32 8

/-- `e_phentsize`. -/
def ePhentsize : ℕ := image.load 54 2

/-- `e_phnum`. -/
def ePhnum : ℕ := image.load 56 2

/-- Where program header `i` is. The product is that of two `int`s. -/
def phdrOffset (i : ℕ) : ℕ := (ePhoff image + intToU64 (i * ePhentsize image)) % 2 ^ 64

/-- The program header at an offset. -/
def phdrAt (a : ℕ) : Phdr where
  type := image.load a 4
  flags := image.load (a + 4) 4
  offset := image.load (a + 8) 8
  vaddr := image.load (a + 16) 8
  paddr := image.load (a + 24) 8
  filesz := image.load (a + 32) 8
  memsz := image.load (a + 40) 8

/-- Program header `i`. -/
def phdr (i : ℕ) : Phdr := phdrAt image (phdrOffset image i)

end Headers

/-- `num_pages`, or 0 when it is negative. -/
def Phdr.numPages (p : Phdr) : ℕ :=
  let n := (p.memsz / 0x1000 + if p.memsz % 0x1000 ≠ 0 then 1 else 0) % 2 ^ 32
  if n < 2 ^ 31 then n else 0

/-- The address that page `j` is mapped at. -/
def Phdr.pageAddr (p : Phdr) (j : ℕ) : ℕ := (p.vaddr + intToU64 (j * 0x1000)) % 2 ^ 64

/-! ### The loader -/

/-- What `load_elf64` does to memory. -/
inductive LoadOp
  /-- Bytes of the headers are read. -/
  | read (off len : ℕ)
  /-- `map_page_kmalloc`, with the next free frame. -/
  | map (virt : ℕ)
  /-- `memcpy` from the image. -/
  | copy (dest off len : ℕ)
  /-- `memset`, to 0. -/
  | zero (dest len : ℕ)
  deriving DecidableEq

/-- `elf_info_t`, without `regions`, which is always `NULL`. -/
structure ElfInfo where
  entry : ℕ
  maxAddr : ℕ
  status : ℤ
  deriving DecidableEq

/-- The checks, in order: where a field is, how long it is, what it has to be, and the status
if it is not. -/
def headerChecks : List (ℕ × ℕ × ℕ × ℤ) :=
  [(0, 1, 0x7F, -1), (1, 1, 0x45, -1), (2, 1, 0x4C, -1), (3, 1, 0x46, -1), (4, 1, 2, -2),
    (5, 1, 1, -3), (6, 1, 1, -4), (16, 2, 2, -5), (18, 2, 62, -6), (20, 4, 1, -7)]

/-- The checks that are made, and the status. -/
def checkHeader (image : Mem) : List (ℕ × ℕ × ℕ × ℤ) → List LoadOp × ℤ
  | [] => ([], 0)
  | c :: checks =>
      if image.load c.1 c.2.1 ≠ c.2.2.1 then ([.read c.1 c.2.1], c.2.2.2)
      else
        let r := checkHeader image checks
        (.read c.1 c.2.1 :: r.1, r.2)

/-- What is done for a program header, once it has been found. -/
def loadSegment (p : Phdr) : List LoadOp :=
  (List.range p.numPages).map (fun j => .map (p.pageAddr j)) ++
    .copy p.paddr p.offset p.filesz ::
    if p.memsz > p.filesz then [.zero ((p.paddr + p.filesz) % 2 ^ 64) (p.memsz - p.filesz)] else []

/-- `max_addr`, after a program header. -/
def trackMax (p : Phdr) (maxAddr : ℕ) : ℕ :=
  if (p.vaddr + p.memsz) % 2 ^ 64 > maxAddr then (p.vaddr + p.memsz) % 2 ^ 64 else maxAddr

/-- The loop over the program headers, from `i` on. -/
def loadLoop (image : Mem) : ℕ → ℕ → ℕ → List LoadOp × ℕ
  | 0, _, maxAddr => ([.read 56 2], maxAddr)
  | left + 1, i, maxAddr =>
      let a := phdrOffset image i
      let p := phdr image i
      let heads : List LoadOp := [.read 56 2, .read 32 8, .read 54 2, .read a 4]
      if p.type = ptLoad then
        let r := loadLoop image left (i + 1) (trackMax p maxAddr)
        (heads ++ .read (a + 4) 44 :: loadSegment p ++ r.1, r.2)
      else
        let r := loadLoop image left (i + 1) maxAddr
        (heads ++ r.1, r.2)

/-- `load_elf64`. -/
def loadElf64 (image : Mem) : List LoadOp × ElfInfo :=
  let c := checkHeader image headerChecks
  if c.2 ≠ 0 then (c.1, ⟨0, 0, c.2⟩)
  else
    let r := loadLoop image (ePhnum image) 0 0
    (c.1 ++ r.1 ++ [.read 24 8], ⟨eEntry image, r.2, 0⟩)

/-! ### What is inside -/

/-- So many bytes from `a` on are below `n`. -/
def Below (n a len : ℕ) : Prop := ∀ k : ℕ, k < len → (a + k) % 2 ^ 64 < n

/-- An image of `n` bytes is read inside, and nothing from `VIRT_MEM_OFFSET` on is mapped or
written. -/
def LoadOp.Inside (n : ℕ) : LoadOp → Prop
  | read off len => Below n off len
  | map virt => virt < virtMemOffset
  | copy dest off len => Below n off len ∧ Below virtMemOffset dest len
  | zero dest len => Below virtMemOffset dest len

/-- All that `load_elf64` touches is inside. -/
def LoadsInside (n : ℕ) (image : Mem) : Prop := ∀ op ∈ (loadElf64 image).1, op.Inside n

/-! ### The condition -/

/-- A check succeeds. -/
def Passes (image : Mem) (c : ℕ × ℕ × ℕ × ℤ) : Prop := image.load c.1 c.2.1 = c.2.2.1

/-- **A segment is inside**: so are its pages, the bytes in the file, and those in memory that
are copied to and cleared. -/
structure Phdr.SegmentInside (n : ℕ) (p : Phdr) : Prop where
  pages : ∀ j < p.numPages, p.pageAddr j < virtMemOffset
  source : p.filesz = 0 ∨ p.offset + p.filesz ≤ n
  dest : p.filesz = 0 ∨ p.paddr + p.filesz ≤ virtMemOffset
  rest : p.memsz ≤ p.filesz ∨
    (p.paddr + p.filesz) % 2 ^ 64 + (p.memsz - p.filesz) ≤ virtMemOffset

/-- **An image is inside**: so are the fields that are checked, up to the first check that
fails; and if all succeed, so are the program headers, and the segments that are loaded. -/
structure ImageInside (n : ℕ) (image : Mem) : Prop where
  checks : ∀ before c after, headerChecks = before ++ c :: after →
    (∀ d ∈ before, Passes image d) → c.1 + c.2.1 ≤ n
  header : (∀ c ∈ headerChecks, Passes image c) → 58 ≤ n
  phdrs : (∀ c ∈ headerChecks, Passes image c) → ∀ i < ePhnum image,
    phdrOffset image i + 4 ≤ n ∧ ((phdr image i).type = ptLoad →
      phdrOffset image i + 48 ≤ n ∧ (phdr image i).SegmentInside n)

section Inside

variable {image : Mem} {n a len i left maxAddr : ℕ} {p : Phdr} {checks : List (ℕ × ℕ × ℕ × ℤ)}

theorem below_iff (ha : a < 2 ^ 64) (hn : n < 2 ^ 64) : Below n a len ↔ len = 0 ∨ a + len ≤ n := by
  constructor
  · intro h
    by_contra hnot
    obtain ⟨hlen, hlt⟩ := not_or.mp hnot
    -- the first byte that is not below
    have hlast := h (n - a) (by have := h 0 (Nat.pos_of_ne_zero hlen); omega)
    have hfirst := h 0 (Nat.pos_of_ne_zero hlen)
    rw [Nat.add_zero, Nat.mod_eq_of_lt ha] at hfirst
    rw [Nat.add_sub_cancel' hfirst.le, Nat.mod_eq_of_lt hn] at hlast
    exact Nat.lt_irrefl n hlast
  · rintro (rfl | h) k hk
    · exact absurd hk (Nat.not_lt_zero k)
    · rw [Nat.mod_eq_of_lt (by omega)]
      omega

theorem below_iff_of_pos (ha : a < 2 ^ 64) (hn : n < 2 ^ 64) (hlen : 0 < len) :
    Below n a len ↔ a + len ≤ n :=
  (below_iff ha hn).trans (or_iff_right hlen.ne')

theorem checkHeader_status_iff (image : Mem) (hstatus : ∀ c ∈ checks, c.2.2.2 ≠ 0) :
    (checkHeader image checks).2 = 0 ↔ ∀ c ∈ checks, Passes image c := by
  induction checks with
  | nil => simp [checkHeader]
  | cons c checks ih =>
    obtain ⟨hc, hchecks⟩ := List.forall_mem_cons.mp hstatus
    rw [checkHeader, List.forall_mem_cons]
    by_cases hpass : image.load c.1 c.2.1 = c.2.2.1
    · rw [if_neg (not_not.mpr hpass), ih hchecks]
      exact (and_iff_right hpass).symm
    · rw [if_pos hpass]
      exact iff_of_false hc fun h => hpass h.1

/-- The checks that are made. -/
theorem checkHeader_inside_iff (image : Mem) (hn : n < 2 ^ 64)
    (hlt : ∀ c ∈ checks, c.1 < 2 ^ 64 ∧ 0 < c.2.1) :
    (∀ op ∈ (checkHeader image checks).1, op.Inside n) ↔
      ∀ before c after, checks = before ++ c :: after → (∀ d ∈ before, Passes image d) →
        c.1 + c.2.1 ≤ n := by
  induction checks with
  | nil => simp [checkHeader]
  | cons c checks ih =>
    obtain ⟨hc, hchecks⟩ := List.forall_mem_cons.mp hlt
    have hread : (LoadOp.read c.1 c.2.1).Inside n ↔ c.1 + c.2.1 ≤ n := below_iff_of_pos hc.1 hn hc.2
    rw [checkHeader]
    by_cases hpass : image.load c.1 c.2.1 = c.2.2.1
    · rw [if_neg (not_not.mpr hpass), List.forall_mem_cons, hread, ih hchecks]
      constructor
      · rintro ⟨hfirst, hrest⟩ before d after heq hbefore
        cases before with
        | nil =>
          obtain ⟨rfl, -⟩ := List.cons.inj heq
          exact hfirst
        | cons e before =>
          obtain ⟨-, heq⟩ := List.cons.inj heq
          exact hrest before d after heq fun x hx => hbefore x (List.mem_cons_of_mem e hx)
      · intro h
        refine ⟨h [] c checks rfl (fun d hd => absurd hd List.not_mem_nil), ?_⟩
        intro before d after heq hbefore
        exact h (c :: before) d after (congrArg (c :: ·) heq)
          (List.forall_mem_cons.mpr ⟨hpass, hbefore⟩)
    · rw [if_pos hpass, List.forall_mem_singleton, hread]
      constructor
      · intro hfirst before d after heq hbefore
        cases before with
        | nil =>
          obtain ⟨rfl, -⟩ := List.cons.inj heq
          exact hfirst
        | cons e before =>
          obtain ⟨rfl, -⟩ := List.cons.inj heq
          exact absurd (hbefore c List.mem_cons_self) hpass
      · exact fun h => h [] c checks rfl fun d hd => absurd hd List.not_mem_nil

theorem phdrAt_lt (image : Mem) (a : ℕ) : (phdrAt image a).offset < 2 ^ 64 ∧
    (phdrAt image a).paddr < 2 ^ 64 :=
  ⟨load_lt image (a + 8) 8, load_lt image (a + 24) 8⟩

theorem loadSegment_inside_iff (hn : n < 2 ^ 64) (hoff : p.offset < 2 ^ 64)
    (hpaddr : p.paddr < 2 ^ 64) :
    (∀ op ∈ loadSegment p, op.Inside n) ↔ p.SegmentInside n := by
  have hvirt : virtMemOffset < 2 ^ 64 := by decide
  have hpages : (∀ op ∈ (List.range p.numPages).map (fun j => LoadOp.map (p.pageAddr j)),
      op.Inside n) ↔ ∀ j < p.numPages, p.pageAddr j < virtMemOffset := by
    simp [LoadOp.Inside]
  have hcopy : (LoadOp.copy p.paddr p.offset p.filesz).Inside n ↔
      (p.filesz = 0 ∨ p.offset + p.filesz ≤ n) ∧
        (p.filesz = 0 ∨ p.paddr + p.filesz ≤ virtMemOffset) :=
    and_congr (below_iff hoff hn) (below_iff hpaddr hvirt)
  have hrest : (∀ op ∈ (if p.memsz > p.filesz then
        [LoadOp.zero ((p.paddr + p.filesz) % 2 ^ 64) (p.memsz - p.filesz)] else []),
      op.Inside n) ↔ p.memsz ≤ p.filesz ∨
        (p.paddr + p.filesz) % 2 ^ 64 + (p.memsz - p.filesz) ≤ virtMemOffset := by
    split_ifs with hmem
    · rw [List.forall_mem_singleton]
      exact (below_iff_of_pos (Nat.mod_lt _ (by decide)) hvirt (by omega)).trans
        (or_iff_right (by omega)).symm
    · exact iff_of_true (fun op hop => absurd hop List.not_mem_nil) (Or.inl (by omega))
  rw [loadSegment, List.forall_mem_append, List.forall_mem_cons, hpages, hcopy, hrest]
  constructor
  · rintro ⟨h1, ⟨h2, h3⟩, h4⟩
    exact ⟨h1, h2, h3, h4⟩
  · rintro ⟨h1, h2, h3, h4⟩
    exact ⟨h1, ⟨h2, h3⟩, h4⟩

theorem phdrOffset_lt (image : Mem) (i : ℕ) : phdrOffset image i < 2 ^ 64 :=
  Nat.mod_lt _ (by decide)

/-- **The loop over the program headers.** -/
theorem loadLoop_inside_iff (hn : n < 2 ^ 64) :
    (∀ op ∈ (loadLoop image left i maxAddr).1, op.Inside n) ↔
      58 ≤ n ∧ ∀ j, i ≤ j → j < i + left →
        phdrOffset image j + 4 ≤ n ∧ ((phdr image j).type = ptLoad →
          phdrOffset image j + 48 ≤ n ∧ (phdr image j).SegmentInside n) := by
  have hphnum : (LoadOp.read 56 2).Inside n ↔ 58 ≤ n :=
    below_iff_of_pos (by decide) hn (by decide)
  induction left generalizing i maxAddr with
  | zero =>
    rw [loadLoop, List.forall_mem_singleton, hphnum]
    exact (and_iff_left fun j hle hlt => absurd hlt (Nat.not_lt.mpr hle)).symm
  | succ left ih =>
    have ha := phdrOffset_lt image i
    have hphoff : (LoadOp.read 32 8).Inside n ↔ 40 ≤ n :=
      below_iff_of_pos (by decide) hn (by decide)
    have hphentsize : (LoadOp.read 54 2).Inside n ↔ 56 ≤ n :=
      below_iff_of_pos (by decide) hn (by decide)
    have htype : (LoadOp.read (phdrOffset image i) 4).Inside n ↔ phdrOffset image i + 4 ≤ n :=
      below_iff_of_pos ha hn (by decide)
    have hheads : (∀ op ∈ [LoadOp.read 56 2, .read 32 8, .read 54 2, .read (phdrOffset image i) 4],
        op.Inside n) ↔ 58 ≤ n ∧ phdrOffset image i + 4 ≤ n := by
      simp only [List.forall_mem_cons, hphnum, hphoff, hphentsize, htype]
      constructor
      · exact fun h => ⟨h.1, h.2.2.2.1⟩
      · exact fun h => ⟨h.1, by omega, by omega, h.2, fun op hop => absurd hop List.not_mem_nil⟩
    have hsplit : (∀ j, i ≤ j → j < i + (left + 1) →
        phdrOffset image j + 4 ≤ n ∧ ((phdr image j).type = ptLoad →
          phdrOffset image j + 48 ≤ n ∧ (phdr image j).SegmentInside n)) ↔
        (phdrOffset image i + 4 ≤ n ∧ ((phdr image i).type = ptLoad →
          phdrOffset image i + 48 ≤ n ∧ (phdr image i).SegmentInside n)) ∧
        ∀ j, i + 1 ≤ j → j < i + 1 + left →
          phdrOffset image j + 4 ≤ n ∧ ((phdr image j).type = ptLoad →
            phdrOffset image j + 48 ≤ n ∧ (phdr image j).SegmentInside n) := by
      constructor
      · exact fun h => ⟨h i le_rfl (by omega), fun j hle hlt => h j (by omega) (by omega)⟩
      · rintro ⟨hi, hrest⟩ j hle hlt
        rcases Nat.eq_or_lt_of_le hle with rfl | hlt'
        · exact hi
        · exact hrest j hlt' (by omega)
    rw [loadLoop, hsplit]
    -- only a header of this type is read to its end and loaded
    by_cases hload : (phdr image i).type = ptLoad
    · have hfields : phdrOffset image i + 4 ≤ n →
          ((LoadOp.read (phdrOffset image i + 4) 44).Inside n ↔ phdrOffset image i + 48 ≤ n) :=
        fun hle => below_iff_of_pos (by omega) hn (by decide)
      have hsegment :=
        loadSegment_inside_iff (p := phdr image i) hn (phdrAt_lt ..).1 (phdrAt_lt ..).2
      have hrest : _ ↔ _ := @ih (i + 1) (trackMax (phdr image i) maxAddr)
      rw [if_pos hload]
      dsimp only
      rw [List.forall_mem_append, List.forall_mem_append, hheads, List.forall_mem_cons, hsegment,
        hrest]
      constructor
      · rintro ⟨⟨⟨hn, htype⟩, hread, hseg⟩, -, hrest⟩
        exact ⟨hn, ⟨htype, fun _ => ⟨(hfields htype).mp hread, hseg⟩⟩, hrest⟩
      · rintro ⟨hn, ⟨htype, hseg⟩, hrest⟩
        obtain ⟨hread, hseg⟩ := hseg hload
        exact ⟨⟨⟨hn, htype⟩, (hfields htype).mpr hread, hseg⟩, hn, hrest⟩
    · have hrest : _ ↔ _ := @ih (i + 1) maxAddr
      rw [if_neg hload]
      dsimp only
      rw [List.forall_mem_append, hheads, hrest]
      constructor
      · rintro ⟨⟨hn, htype⟩, -, hrest⟩
        exact ⟨hn, ⟨htype, fun h => absurd h hload⟩, hrest⟩
      · rintro ⟨hn, ⟨htype, -⟩, hrest⟩
        exact ⟨⟨hn, htype⟩, hn, hrest⟩

/-- **When `load_elf64` stays inside.** -/
theorem loadElf64_inside_iff (hn : n < 2 ^ 64) : LoadsInside n image ↔ ImageInside n image := by
  have hlt : ∀ c ∈ headerChecks, c.1 < 2 ^ 64 ∧ 0 < c.2.1 := by decide
  have hne : ∀ c ∈ headerChecks, c.2.2.2 ≠ 0 := by decide
  have hchecks := checkHeader_inside_iff image hn hlt
  have hstatus := checkHeader_status_iff image hne
  rw [LoadsInside, loadElf64]
  by_cases hok : (checkHeader image headerChecks).2 = 0
  · have hpass := hstatus.mp hok
    have hentry : (LoadOp.read 24 8).Inside n ↔ 32 ≤ n :=
      below_iff_of_pos (by decide) hn (by decide)
    rw [if_neg (not_not.mpr hok), List.forall_mem_append, List.forall_mem_append, hchecks,
      loadLoop_inside_iff hn, List.forall_mem_singleton, hentry]
    constructor
    · rintro ⟨⟨hc, hhead, hphdrs⟩, -⟩
      exact ⟨hc, fun _ => hhead, fun _ i hi => hphdrs i (Nat.zero_le i) (by omega)⟩
    · rintro ⟨hc, hhead, hphdrs⟩
      have hlen := hhead hpass
      exact ⟨⟨hc, hlen, fun i _ hi => hphdrs hpass i (by omega)⟩, by omega⟩
  · rw [if_pos hok, hchecks]
    exact ⟨fun hc => ⟨hc, fun hpass => absurd (hstatus.mpr hpass) hok,
      fun hpass => absurd (hstatus.mpr hpass) hok⟩, fun h => h.checks⟩

end Inside

/-- A byte that is not the first one of an ELF image. -/
theorem loadElf64_inside_iff_zero : LoadsInside 1 fun _ => 0 := by
  have hfirst : ¬Passes (fun _ => 0) (0, 1, 0x7F, -1) := by
    rw [Passes]
    decide
  refine (loadElf64_inside_iff (by decide)).mpr ⟨?_, ?_, ?_⟩
  · intro before c after heq hpass
    cases before with
    | nil =>
      obtain ⟨rfl, -⟩ := List.cons.inj heq
      decide
    | cons d before =>
      obtain ⟨rfl, -⟩ := List.cons.inj heq
      exact absurd (hpass _ List.mem_cons_self) hfirst
  · exact fun h => absurd (h (0, 1, 0x7F, -1) List.mem_cons_self) hfirst
  · exact fun h => absurd (h (0, 1, 0x7F, -1) List.mem_cons_self) hfirst

/-- An image with one segment, of one byte that is mapped at `0x400000` and copied to `paddr`. -/
def byteImage (paddr : ℕ) : List UInt8 :=
  [0x7F, 0x45, 0x4C, 0x46, 2, 1, 1, 0, 0, 0, 0, 0, 0, 0, 0, 0] ++
    leBytes 2 2 ++ leBytes 2 62 ++ leBytes 4 1 ++ leBytes 8 0 ++ leBytes 8 64 ++ leBytes 8 0 ++
    leBytes 4 0 ++ leBytes 2 64 ++ leBytes 2 56 ++ leBytes 2 1 ++ leBytes 2 0 ++ leBytes 2 0 ++
    leBytes 2 0 ++
    leBytes 4 1 ++ leBytes 4 7 ++ leBytes 8 0 ++ leBytes 8 0x400000 ++
    leBytes 8 paddr ++ leBytes 8 1 ++ leBytes 8 1 ++ leBytes 8 0x1000

/-- The byte is copied to `VIRT_MEM_OFFSET`. -/
def kernelImage : List UInt8 := byteImage virtMemOffset

/-- It is loaded, and the kernel is overwritten. -/
theorem not_loadsInside : (loadElf64 fun i => kernelImage.getD i 0).2.status = 0 ∧
    ¬LoadsInside kernelImage.length fun i => kernelImage.getD i 0 := by
  refine ⟨by decide, fun h => ?_⟩
  have hmem : LoadOp.copy virtMemOffset 0 1 ∈ (loadElf64 fun i => kernelImage.getD i 0).1 := by
    decide
  exact absurd ((h _ hmem).2 0 Nat.one_pos) (by decide)

end Xana
