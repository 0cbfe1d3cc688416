import Xana.Bootstrap.Paging
import Xana.Process.Loader
import Xana.String.Basic

/-!
# `load_elf64` of the loader

The loader puts the segments of the kernel at their physical addresses, and looks for the symbols
of the kernel in its file. It reads the file while it writes, so the file must not be among what
is written; `memcpy` and `memset` go byte by byte, and addresses have 32 bits. When the file and the
places of the segments are apart, each segment is in its place and nothing else has changed
(`Xana.Bootstrap.loadElf64_boots`).

A field is at the same offset as for the kernel's own `load_elf64`, and the checks are the same.
-/

namespace Xana

namespace Bootstrap

open Mem

/-! ### The loader -/

/-- The file at an address. -/
def fileAt (m : Mem) (elfFile : ℕ) : Mem := fun i => m ((elfFile + i) % 2 ^ 32)

/-- `memset`. -/
def memset (value : UInt8) : Mem → ℕ → ℕ → Mem
  | m, _, 0 => m
  | m, p, n + 1 => memset value (m.write p [value]) (p + 1) n

/-- `symbols_location`, `strings_location` and `symbols_count`. -/
structure Symbols where
  symbolsLocation : ℕ
  stringsLocation : ℕ
  symbolsCount : ℕ
  deriving DecidableEq

/-- What is read of a section header. -/
structure Shdr where
  type : ℕ
  offset : ℕ
  size : ℕ
  entsize : ℕ

/-- `shdr->sh_type == SHT_SYMTAB || shdr->sh_type == SHT_DYNSYM` -/
def Shdr.isSymbols (h : Shdr) : Bool := h.type = 2 ∨ h.type = 11

/-- `shdr->sh_type == SHT_STRTAB` -/
def Shdr.isStrings (h : Shdr) : Bool := h.type = 3

section Headers

variable (image : Mem)

/-- `e_shoff`. -/
def eShoff : ℕ := image.load 40 8

/-- `e_shentsize`. -/
def eShentsize : ℕ := image.load 58 2

/-- `e_shnum`. -/
def eShnum : ℕ := image.load 60 2

/-- Where program header `i` is. -/
def phdrOffset (i : ℕ) : ℕ := ePhoff image + i * ePhentsize image

/-- Program header `i`. -/
def phdr (i : ℕ) : Phdr := phdrAt image (phdrOffset image i)

/-- Where section header `i` is. -/
def shdrOffset (i : ℕ) : ℕ := eShoff image + i * eShentsize image

/-- Section header `i`. -/
def shdr (i : ℕ) : Shdr where
  type := image.load (shdrOffset image i + 4) 4
  offset := image.load (shdrOffset image i + 24) 8
  size := image.load (shdrOffset image i + 32) 8
  entsize := image.load (shdrOffset image i + 56) 8

end Headers

/-- A round of the loop over the program headers. The header is read again when the segment has
been copied. -/
def loadPhdr (elfFile i : ℕ) (m : Mem) : Mem :=
  let a := phdrOffset (fileAt m elfFile) i
  let p := phdrAt (fileAt m elfFile) a
  if p.type = ptLoad then
    let m := memcpy m (p.paddr % 2 ^ 32) ((elfFile + p.offset) % 2 ^ 32) (p.filesz % 2 ^ 32)
    let p := phdrAt (fileAt m elfFile) a
    if p.memsz > p.filesz then
      memset 0 m ((p.paddr + p.filesz) % 2 ^ 32) ((p.memsz - p.filesz) % 2 ^ 32)
    else m
  else m

/-- `for (int i = …; i < header->e_phnum; i++)`, in at most `left` rounds. -/
def phdrLoop (elfFile : ℕ) : ℕ → ℕ → Mem → Mem
  | 0, _, m => m
  | left + 1, i, m =>
      if i < ePhnum (fileAt m elfFile) then phdrLoop elfFile left (i + 1) (loadPhdr elfFile i m)
      else m

/-- A round of the loop over the section headers; there is none when it divides by zero. -/
def shdrRound (elfFile : ℕ) (h : Shdr) (s : Symbols) : Option Symbols :=
  if h.isSymbols ∧ s.symbolsLocation = 0 then
    if h.entsize = 0 then none
    else some { s with
      symbolsLocation := (elfFile + h.offset) % 2 ^ 32
      symbolsCount := h.size / h.entsize % 2 ^ 32 }
  else if h.isStrings ∧ s.stringsLocation = 0 then
    some { s with stringsLocation := (elfFile + h.offset) % 2 ^ 32 }
  else some s

/-- `load_elf64`: what it returns, the memory, and the symbols. A file has less than `2 ^ 16`
program headers. -/
def loadElf64 (m : Mem) (elfFile : ℕ) : Option (ℕ × Mem × Symbols) :=
  let status := (checkHeader (fileAt m elfFile) headerChecks).2
  if status ≠ 0 then some ((status % 0x100000000).toNat, m, ⟨0, 0, 0⟩)
  else
    let m := phdrLoop elfFile (2 ^ 16) 0 m
    let image := fileAt m elfFile
    (((List.range (eShnum image)).map (shdr image)).foldlM
      (fun s h => shdrRound elfFile h s) ⟨0, 0, 0⟩).map fun symbols =>
        (eEntry image % 2 ^ 32, m, symbols)

/-! ### What is promised -/

/-- The segments of an image. -/
def segments (image : Mem) : List Phdr :=
  ((List.range (ePhnum image)).map (phdr image)).filter fun p => p.type = ptLoad

/-- The sections. -/
def sections (image : Mem) : List Shdr := (List.range (eShnum image)).map (shdr image)

/-- What a segment is in memory: its bytes of the file, and zeros. -/
def segmentBytes (image : Mem) (p : Phdr) : List UInt8 :=
  image.read p.offset p.filesz ++ List.replicate (p.memsz - p.filesz) 0

/-- The length of that. -/
def room (p : Phdr) : ℕ := p.filesz + (p.memsz - p.filesz)

/-- **A file of `n` bytes that can be loaded**: its headers and its segments are inside, each
segment has room, away from the file, and a section of symbols says how large one is. -/
structure Loadable (n elfFile : ℕ) (image : Mem) : Prop where
  accepted : (checkHeader image headerChecks).2 = 0
  file : 0 < elfFile ∧ elfFile + n < 2 ^ 32
  header : 64 ≤ n
  phdrs : ∀ i < ePhnum image, phdrOffset image i + 56 ≤ n
  shdrs : ∀ i < eShnum image, shdrOffset image i + 64 ≤ n
  inside : ∀ p ∈ segments image, p.offset + p.filesz ≤ n
  room : ∀ p ∈ segments image, p.paddr + room p < 2 ^ 32
  away : ∀ p ∈ segments image, elfFile + n ≤ p.paddr ∨ p.paddr + Bootstrap.room p ≤ elfFile
  offset : ∀ h ∈ sections image, h.isSymbols ∨ h.isStrings → h.offset ≤ n
  entsize : ∀ h ∈ sections image, h.isSymbols → h.entsize ≠ 0

/-! ### The file stays -/

/-- The first `n` bytes of a file are the same. -/
def SameFile (n : ℕ) (image image' : Mem) : Prop := ∀ i < n, image' i = image i

section Segments

variable {m m' image image' : Mem} {n k a d i left elfFile : ℕ} {p : Phdr}

theorem memset_eq (value : UInt8) (m : Mem) (d n : ℕ) :
    memset value m d n = m.write d (List.replicate n value) := by
  induction n generalizing m d with
  | zero => exact (write_nil m d).symm
  | succ n ih => exact (ih ..).trans (write_write m d [value] (List.replicate n value))

theorem SameFile.load (h : SameFile n image image') (ha : a + k ≤ n) :
    image'.load a k = image.load a k := load_congr fun _ hi => h _ (by omega)

theorem SameFile.phdrAt (h : SameFile n image image') (ha : a + 56 ≤ n) :
    phdrAt image' a = phdrAt image a := by
  rw [Xana.phdrAt, Xana.phdrAt, h.load (by omega), h.load (by omega), h.load (by omega),
    h.load (by omega), h.load (by omega), h.load (by omega), h.load (by omega)]

theorem SameFile.phdrOffset (h : SameFile n image image') (hn : 64 ≤ n) (i : ℕ) :
    phdrOffset image' i = phdrOffset image i := by
  rw [Bootstrap.phdrOffset, Bootstrap.phdrOffset, ePhoff, ePhoff, ePhentsize, ePhentsize,
    h.load (by omega), h.load (by omega)]

theorem SameFile.ePhnum (h : SameFile n image image') (hn : 64 ≤ n) :
    ePhnum image' = ePhnum image := by
  rw [Xana.ePhnum, Xana.ePhnum, h.load (by omega)]

theorem fileAt_eq (hi : elfFile + i < 2 ^ 32) : fileAt m elfFile i = m (elfFile + i) :=
  congrArg m (Nat.mod_eq_of_lt hi)

theorem length_segmentBytes (image : Mem) (p : Phdr) : (segmentBytes image p).length = room p := by
  rw [segmentBytes, List.length_append, length_read, List.length_replicate, room]

/-- A write away from the file. -/
theorem SameFile.write {d : ℕ} {l : List UInt8} (h : SameFile n image (fileAt m elfFile))
    (hfile : elfFile + n < 2 ^ 32) (haway : elfFile + n ≤ d ∨ d + l.length ≤ elfFile) :
    SameFile n image (fileAt (m.write d l) elfFile) := by
  intro i hi
  rw [← h i hi, fileAt_eq (by omega), fileAt_eq (by omega)]
  exact write_of_notMem (by omega)

/-- **A segment is copied and cleared.** -/
theorem loadPhdr_eq (hok : Loadable n elfFile image) (h : SameFile n image (fileAt m elfFile))
    (hi : i < ePhnum image) :
    loadPhdr elfFile i m = if (phdr image i).type = ptLoad then
      m.write (phdr image i).paddr (segmentBytes image (phdr image i)) else m := by
  have hhead := hok.phdrs i hi
  have hphdr : Xana.phdrAt (fileAt m elfFile) (phdrOffset image i) = phdr image i := h.phdrAt hhead
  rw [loadPhdr, h.phdrOffset hok.header i, hphdr]
  by_cases htype : (phdr image i).type = ptLoad
  · have hmem : phdr image i ∈ segments image :=
      List.mem_filter.mpr ⟨List.mem_map_of_mem (List.mem_range.mpr hi), decide_eq_true htype⟩
    obtain ⟨p, hp⟩ : ∃ p, phdr image i = p := ⟨_, rfl⟩
    rw [hp] at htype hmem ⊢
    have hinside := hok.inside p hmem
    have hroom := hok.room p hmem
    have haway := hok.away p hmem
    have hfile := hok.file.2
    have hle : p.filesz ≤ room p := Nat.le_add_right ..
    have hsource : m.read (elfFile + p.offset) p.filesz = image.read p.offset p.filesz :=
      read_eq_read fun k hk => by
        rw [← h _ (by omega : p.offset + k < n), fileAt_eq (by omega), add_assoc]
    have hcopy : memcpy m (p.paddr % 2 ^ 32) ((elfFile + p.offset) % 2 ^ 32) (p.filesz % 2 ^ 32) =
        m.write p.paddr (image.read p.offset p.filesz) := by
      rw [Nat.mod_eq_of_lt (by omega), Nat.mod_eq_of_lt (by omega), Nat.mod_eq_of_lt (by omega),
        memcpy, copyBytes_eq (by omega), hsource]
    -- the header is the same when it is read again
    have hcopied : SameFile n image
        (fileAt (m.write p.paddr (image.read p.offset p.filesz)) elfFile) :=
      h.write hfile (by rw [length_read]; omega)
    have hagain : phdrAt _ (phdrOffset image i) = p := (hcopied.phdrAt hhead).trans hp
    have hlen : (image.read p.offset p.filesz).length = p.filesz := length_read ..
    rw [if_pos htype, if_pos htype, hcopy]
    dsimp only
    rw [hagain, segmentBytes, ← write_write, hlen]
    split_ifs with hmore
    · rw [room] at hroom
      rw [memset_eq, Nat.mod_eq_of_lt (by omega), Nat.mod_eq_of_lt (by omega)]
    · rw [Nat.sub_eq_zero_of_le (Nat.le_of_not_lt hmore)]
      exact (write_nil ..).symm
  · exact (if_neg htype).trans (if_neg htype).symm

/-- What the segments from `i` on are in memory, each at its address. -/
def placedFrom (image : Mem) (i : ℕ) : List (ℕ × List UInt8) :=
  (((List.range' i (ePhnum image - i)).map (phdr image)).filter fun p => p.type = ptLoad).map
    fun p => (p.paddr, segmentBytes image p)

theorem placedFrom_of_lt (hi : i < ePhnum image) :
    placedFrom image i = if (phdr image i).type = ptLoad then
      ((phdr image i).paddr, segmentBytes image (phdr image i)) :: placedFrom image (i + 1)
    else placedFrom image (i + 1) := by
  have hsub : ePhnum image - i = ePhnum image - (i + 1) + 1 := by omega
  rw [placedFrom, hsub, List.range'_succ, List.map_cons, List.filter_cons]
  by_cases htype : (phdr image i).type = ptLoad
  · rw [if_pos (decide_eq_true htype), if_pos htype]
    rfl
  · rw [if_neg (by simp [htype]), if_neg htype]
    rfl

/-- **The loop over the program headers** writes the segments. -/
theorem phdrLoop_eq (hok : Loadable n elfFile image) (h : SameFile n image (fileAt m elfFile))
    (hleft : ePhnum image < i + left) :
    phdrLoop elfFile left i m = m.writes (placedFrom image i) ∧
      SameFile n image (fileAt (phdrLoop elfFile left i m) elfFile) := by
  induction left generalizing m i with
  | zero =>
    rw [placedFrom, Nat.sub_eq_zero_of_le (by omega)]
    exact ⟨rfl, h⟩
  | succ left ih =>
    have hnum := h.ePhnum hok.header
    rw [phdrLoop, hnum]
    by_cases hi : i < ePhnum image
    · have hphdr := loadPhdr_eq hok h hi
      rw [if_pos hi, placedFrom_of_lt hi]
      by_cases htype : (phdr image i).type = ptLoad
      · have hmem : phdr image i ∈ segments image :=
          List.mem_filter.mpr ⟨List.mem_map_of_mem (List.mem_range.mpr hi), decide_eq_true htype⟩
        have haway := hok.away _ hmem
        rw [← length_segmentBytes image] at haway
        rw [if_pos htype] at hphdr ⊢
        rw [hphdr, writes_cons]
        exact ih (h.write hok.file.2 haway) (by omega)
      · rw [if_neg htype] at hphdr ⊢
        rw [hphdr]
        exact ih h (by omega)
    · rw [if_neg hi, placedFrom, Nat.sub_eq_zero_of_le (Nat.le_of_not_lt hi)]
      exact ⟨rfl, h⟩

/-! ### The symbols -/

/-- The symbols of the first section of symbols, and the first section of strings. -/
def symbolsOf (elfFile : ℕ) (hs : List Shdr) : Symbols where
  symbolsLocation := ((hs.find? Shdr.isSymbols).map fun h => elfFile + h.offset).getD 0
  stringsLocation := ((hs.find? Shdr.isStrings).map fun h => elfFile + h.offset).getD 0
  symbolsCount := ((hs.find? Shdr.isSymbols).map fun h => h.size / h.entsize % 2 ^ 32).getD 0

theorem Shdr.not_isStrings {h : Shdr} (hsym : h.isSymbols = true) : h.isStrings = false := by
  simp only [Shdr.isSymbols, Shdr.isStrings, decide_eq_true_eq, decide_eq_false_iff_not] at hsym ⊢
  omega

/-- **The loop over the section headers** takes the first of each kind. -/
theorem shdrLoop_eq {bound : ℕ} (seen : List Shdr) {hs : List Shdr} (helf : 0 < elfFile)
    (hbound : elfFile + bound < 2 ^ 32)
    (hoffset : ∀ h ∈ seen ++ hs, h.isSymbols ∨ h.isStrings → h.offset ≤ bound)
    (hentsize : ∀ h ∈ seen ++ hs, h.isSymbols → h.entsize ≠ 0) :
    hs.foldlM (fun s h => shdrRound elfFile h s) (symbolsOf elfFile seen) =
      some (symbolsOf elfFile (seen ++ hs)) := by
  induction hs generalizing seen with
  | nil => rw [List.append_nil]; rfl
  | cons h hs ih =>
    have hsplit : seen ++ h :: hs = (seen ++ [h]) ++ hs := by simp
    rw [hsplit] at hoffset hentsize ⊢
    have hmem : h ∈ seen ++ [h] ++ hs := by simp
    have hle := hoffset h hmem
    have hround : shdrRound elfFile h (symbolsOf elfFile seen) =
        some (symbolsOf elfFile (seen ++ [h])) := by
      rw [shdrRound, symbolsOf, symbolsOf, List.find?_append, List.find?_append, List.find?_cons,
        List.find?_cons, List.find?_nil]
      by_cases hsym : h.isSymbols = true
      · have hmod : (elfFile + h.offset) % 2 ^ 32 = elfFile + h.offset :=
          Nat.mod_eq_of_lt (by have := hle (Or.inl hsym); omega)
        rw [hsym, Shdr.not_isStrings hsym, hmod, if_neg (hentsize h hmem hsym)]
        cases List.find? Shdr.isSymbols seen with
        | none => simp
        | some g => simp [helf.ne']
      · rw [Bool.not_eq_true] at hsym
        by_cases hstr : h.isStrings = true
        · have hmod : (elfFile + h.offset) % 2 ^ 32 = elfFile + h.offset :=
            Nat.mod_eq_of_lt (by have := hle (Or.inr hstr); omega)
          rw [hsym, hstr, hmod]
          cases List.find? Shdr.isStrings seen with
          | none => simp
          | some g => simp [helf.ne']
        · rw [Bool.not_eq_true] at hstr
          rw [hsym, hstr]
          simp
    rw [List.foldlM_cons, hround]
    exact ih (seen ++ [h]) hoffset hentsize

/-- What a section header says is the same. -/
theorem SameFile.sections (h : SameFile n image image') (hok : Loadable n elfFile image) :
    sections image' = sections image := by
  have hn := hok.header
  have hnum : eShnum image' = eShnum image := by
    rw [eShnum, eShnum, h.load (by omega)]
  have hoffset : ∀ i, shdrOffset image' i = shdrOffset image i := by
    intro i
    rw [shdrOffset, shdrOffset, eShoff, eShoff, eShentsize, eShentsize, h.load (by omega),
      h.load (by omega)]
  rw [Bootstrap.sections, Bootstrap.sections, hnum]
  refine List.map_congr_left fun i hi => ?_
  have hhead := hok.shdrs i (List.mem_range.mp hi)
  rw [shdr, shdr, hoffset, h.load (by omega), h.load (by omega), h.load (by omega),
    h.load (by omega)]

section Placed

variable (m) {b : ℕ}

/-- Segments that are apart are each in its place. -/
theorem at_segments (hapart : (segments image).Pairwise fun p q =>
      p.paddr + room p ≤ q.paddr ∨ q.paddr + room q ≤ p.paddr) (hp : p ∈ segments image) :
    (m.writes ((segments image).map fun p => (p.paddr, segmentBytes image p))).At p.paddr
      (segmentBytes image p) := by
  refine at_writes (x := (p.paddr, segmentBytes image p)) ?_ (List.mem_map_of_mem hp)
  rw [List.pairwise_map]
  simpa only [length_segmentBytes] using hapart

theorem segments_of_notMem (hb : ∀ p ∈ segments image, b < p.paddr ∨ p.paddr + room p ≤ b) :
    m.writes ((segments image).map fun p => (p.paddr, segmentBytes image p)) b = m b := by
  refine writes_of_notMem fun w hw => ?_
  obtain ⟨p, hp, rfl⟩ := List.mem_map.mp hw
  rw [length_segmentBytes]
  exact hb p hp

end Placed

/-- The checks come to the same. -/
theorem SameFile.checkHeader (h : SameFile n image image') (hn : 64 ≤ n)
    (hok : (checkHeader image headerChecks).2 = 0) : (checkHeader image' headerChecks).2 = 0 := by
  have hne : ∀ c ∈ headerChecks, c.2.2.2 ≠ 0 := by decide
  have hbound : ∀ c ∈ headerChecks, c.1 + c.2.1 ≤ 64 := by decide
  rw [checkHeader_status_iff _ hne] at hok ⊢
  exact fun c hc => (h.load ((hbound c hc).trans hn)).trans (hok c hc)

/-- **The loader** writes the segments, wherever it finds the file. -/
theorem loadElf64_eq (hself : SameFile n image (fileAt m elfFile))
    (hok : Loadable n elfFile image) : loadElf64 m elfFile = some (eEntry image % 2 ^ 32,
      m.writes ((segments image).map fun p => (p.paddr, segmentBytes image p)),
      symbolsOf elfFile (sections image)) := by
  have hnum : ePhnum image < 0 + 2 ^ 16 := load_lt image 56 2
  obtain ⟨hloop, hsame⟩ := phdrLoop_eq hok hself hnum
  have hplaced : placedFrom image 0 =
      (segments image).map fun p => (p.paddr, segmentBytes image p) := by
    rw [placedFrom, segments, Nat.sub_zero, List.range_eq_range']
  have hstatus := hself.checkHeader hok.header hok.accepted
  have hentry : eEntry (fileAt (phdrLoop elfFile (2 ^ 16) 0 m) elfFile) = eEntry image := by
    have hn := hok.header
    rw [eEntry, eEntry, hsame.load (by omega)]
  have hsymbols := shdrLoop_eq [] hok.file.1 hok.file.2 hok.offset hok.entsize
  have hsections := hsame.sections hok
  rw [sections] at hsections
  rw [loadElf64, hstatus, if_neg (not_not.mpr rfl)]
  dsimp only
  rw [hsections, hentry, ← hplaced, ← hloop]
  exact congrArg (Option.map _) hsymbols

end Segments

/-! ### An example -/

/-- A section header. -/
def shdrBytes (type offset size entsize : ℕ) : List UInt8 :=
  leBytes 4 0 ++ leBytes 4 type ++ leBytes 8 0 ++ leBytes 8 0 ++ leBytes 8 offset ++
    leBytes 8 size ++ leBytes 8 0 ++ leBytes 8 0 ++ leBytes 8 entsize

/-- A file with a segment of 3 bytes, and of 5 in memory, with a section of symbols and one of
strings. -/
def kernelFile : List UInt8 :=
  [0x7F, 0x45, 0x4C, 0x46, 2, 1, 1, 0, 0, 0, 0, 0, 0, 0, 0, 0] ++
    leBytes 2 2 ++ leBytes 2 62 ++ leBytes 4 1 ++ leBytes 8 0x800000 ++ leBytes 8 64 ++
    leBytes 8 120 ++ leBytes 4 0 ++ leBytes 2 64 ++ leBytes 2 56 ++ leBytes 2 1 ++ leBytes 2 64 ++
    leBytes 2 2 ++ leBytes 2 0 ++
    leBytes 4 1 ++ leBytes 4 5 ++ leBytes 8 0 ++ leBytes 8 0xFFFFFF8000800000 ++
    leBytes 8 0x800000 ++ leBytes 8 3 ++ leBytes 8 5 ++ leBytes 8 0x1000 ++
    shdrBytes 2 64 48 24 ++ shdrBytes 3 112 8 0

/-- The file at 0x300000. -/
def fileMemory : Mem := fun a => kernelFile.getD (a - 0x300000) 0

end Bootstrap

end Xana
