import Xana.Memory.FirstFree
import Xana.Memory.Paging

/-!
# The bitmap of the physical pages

What `memory_init` of `memory.c` does up to the heap: it reads the memory map, makes a
bitmap with a bit for each page, and marks in it the pages of the kernel, by words of 64
bits and then by bits, and those of the framebuffer.

The number of bits comes from the sum of the lengths in the map. The index of a bit is
the number of a page, whatever the map says of it. So a map with holes, or a framebuffer
behind memory, gives indices behind the end of the bitmap. The pages of the framebuffer
are counted by its size, rounded down: a page that it only begins, or one more because it
does not start on a page, is left out.

Each loop marks a range of pages and nothing else (`Xana.Marks`). What is left to say is
when the two ranges are in the bitmap and when they cover what they should
(`Xana.bitmapLaws_iff`).
-/

namespace Xana

/-- `multiboot_memory_map_t`. -/
structure MmapEntry where
  addr : UInt64
  len : UInt64
  type : UInt32

/-- `MULTIBOOT_MEMORY_AVAILABLE`. -/
def multibootMemoryAvailable : UInt32 := 1

/-- `struct multiboot_tag_framebuffer`, what `memory_init` reads of it. -/
structure FramebufferTag where
  framebufferAddr : UInt64
  framebufferPitch : UInt32
  framebufferHeight : UInt32

/-- The address of `KERNEL_END`, which the linker puts behind the kernel. -/
structure KernelEnd where
  addr : ℕ
  ge : virtMemOffset ≤ addr
  lt : addr < 2 ^ 64

/-- The bytes from `phys_mem_bitmap` on, however many of them are the bitmap's, and the
indices of those that have been written. -/
structure BitmapBytes where
  byte : ℕ → UInt8
  written : List ℕ

namespace BitmapBytes

/-- A byte is written. -/
def store (b : BitmapBytes) (i : ℕ) (v : UInt8) : BitmapBytes :=
  ⟨Function.update b.byte i v, i :: b.written⟩

/-- `memset(phys_mem_bitmap, 0, n)`. -/
def memsetZero (b : BitmapBytes) : ℕ → BitmapBytes
  | 0 => b
  | n + 1 => (b.memsetZero n).store n 0

/-- The first `n` bytes of a word of 64 bits, all ones. -/
def storeOnes (b : BitmapBytes) (word : ℕ) : ℕ → BitmapBytes
  | 0 => b
  | n + 1 => (b.storeOnes word n).store (8 * word + n) 0xFF

/-- `bitmap_as_64[word] = 0xFFFFFFFFFFFFFFFF`. -/
def fillWord (b : BitmapBytes) (word : ℕ) : BitmapBytes := b.storeOnes word 8

/-- `phys_mem_bitmap[page / 8] |= 1 << (page % 8)`. -/
def setBit (b : BitmapBytes) (page : ℕ) : BitmapBytes :=
  b.store (page / 8) (b.byte (page / 8) ||| 1 <<< UInt8.ofNat (page % 8))

/-- The bit of a page is set. -/
def Used (b : BitmapBytes) (page : ℕ) : Prop :=
  (b.byte (page / 8)).toBitVec.getLsbD (page % 8) = true

end BitmapBytes

/-- The loop over the memory map: the usable regions and `total_memory`. -/
def readMmap : List MmapEntry → List UsableRegion → ℕ → List UsableRegion × ℕ
  | [], regions, totalMemory => (regions, totalMemory)
  | entry :: entries, regions, totalMemory =>
      let regions :=
        if entry.type = multibootMemoryAvailable then
          ⟨entry.addr.toNat, (entry.addr.toNat + entry.len.toNat) % 2 ^ 64⟩ :: regions
        else regions
      readMmap entries regions ((totalMemory + entry.len.toNat) % 2 ^ 64)

/-- The loop over words; `pages_filled` and the bitmap behind it. -/
def fillWords (pagesToFill pagesFilled : ℕ) (b : BitmapBytes) : ℕ × BitmapBytes :=
  if pagesFilled + 64 < pagesToFill then
    fillWords pagesToFill (pagesFilled + 64) (b.fillWord (pagesFilled / 64))
  else (pagesFilled, b)
termination_by pagesToFill - pagesFilled

/-- The loop over bits. -/
def fillBits (pagesToFill pagesFilled : ℕ) (b : BitmapBytes) : BitmapBytes :=
  if pagesFilled < pagesToFill then fillBits pagesToFill (pagesFilled + 1) (b.setBit pagesFilled)
  else b
termination_by pagesToFill - pagesFilled

/-- The loop over the pages of the framebuffer. -/
def fillFramebuffer (fbStart fbPages i : ℕ) (b : BitmapBytes) : BitmapBytes :=
  if i < fbPages then fillFramebuffer fbStart fbPages (i + 1) (b.setBit (fbStart / 0x1000 + i))
  else b
termination_by fbPages - i

/-- `pages_to_fill`: `kheap_end` is `KERNEL_END`, aligned up to a page. -/
def KernelEnd.pagesToFill (kernelEnd : KernelEnd) : ℕ :=
  let kheapEnd :=
    if kernelEnd.addr % 0x1000 ≠ 0 then (kernelEnd.addr / 0x1000 * 0x1000 + 0x1000) % 2 ^ 64
    else kernelEnd.addr
  (kheapEnd + 2 ^ 64 - virtMemOffset) % 2 ^ 64 / 0x1000 + 1

namespace FramebufferTag

/-- `fb_start`. -/
def fbStart (tag : FramebufferTag) : ℕ := tag.framebufferAddr.toNat

/-- `fb_end`; the size is a product of 32 bits. -/
def fbEnd (tag : FramebufferTag) : ℕ :=
  (tag.fbStart + tag.framebufferPitch.toNat * tag.framebufferHeight.toNat % 2 ^ 32) % 2 ^ 64

/-- `fb_pages`. -/
def fbPages (tag : FramebufferTag) : ℕ :=
  (tag.fbEnd + 2 ^ 64 - tag.fbStart) % 2 ^ 64 / 0x1000

end FramebufferTag

/-- What `memory_init` has set up when it comes to the heap. -/
structure PhysicalPages where
  regions : List UsableRegion
  totalPages : ℕ
  bitmapSize : ℕ
  bitmap : BitmapBytes

/-- `memory_init`, up to the heap. `byte` is what there is at `phys_mem_bitmap` before. -/
def memoryInit (kernelEnd : KernelEnd) (entries : List MmapEntry) (tag : FramebufferTag)
    (byte : ℕ → UInt8) : PhysicalPages :=
  let mmap := readMmap entries [] 0
  let totalPages := mmap.2 / 0x1000
  let bitmapSize := if totalPages % 8 ≠ 0 then totalPages / 8 + 1 else totalPages / 8
  let bitmap := BitmapBytes.memsetZero ⟨byte, []⟩ bitmapSize
  let words := fillWords kernelEnd.pagesToFill 0 bitmap
  let bitmap := fillBits kernelEnd.pagesToFill words.1 words.2
  ⟨mmap.1, totalPages, bitmapSize, fillFramebuffer tag.fbStart tag.fbPages 0 bitmap⟩

/-! ### Ranges of pages -/

/-- **The pages from `lo` to `hi` have been marked** on the way from `b` to `b'`, and
nothing else has been written. -/
structure Marks (b b' : BitmapBytes) (lo hi : ℕ) : Prop where
  used : ∀ q, b'.Used q ↔ (lo ≤ q ∧ q < hi) ∨ b.Used q
  written : ∀ i, i ∈ b'.written ↔ (∃ q, lo ≤ q ∧ q < hi ∧ q / 8 = i) ∨ i ∈ b.written

section Ranges

variable {b b' b'' : BitmapBytes} {lo mid hi i n p q word : ℕ}

theorem Marks.refl (b : BitmapBytes) (lo : ℕ) : Marks b b lo lo where
  used := fun q => by simp
  written := fun i => by
    constructor
    · exact Or.inr
    · rintro (⟨q, hle, hlt, -⟩ | h)
      · exact absurd hle (Nat.not_le.mpr hlt)
      · exact h

/-- One range behind another. -/
theorem Marks.trans (h : Marks b b' lo mid) (h' : Marks b' b'' mid hi) (hlo : lo ≤ mid)
    (hhi : mid ≤ hi) : Marks b b'' lo hi where
  used := by
    intro q
    rw [h'.used, h.used, ← or_assoc]
    refine or_congr_left ?_
    omega
  written := by
    intro i
    rw [h'.written, h.written, ← or_assoc]
    refine or_congr_left ⟨?_, ?_⟩
    · rintro (⟨q, hle, hlt, hq⟩ | ⟨q, hle, hlt, hq⟩)
      · exact ⟨q, hlo.trans hle, hlt, hq⟩
      · exact ⟨q, hle, hlt.trans_le hhi, hq⟩
    · rintro ⟨q, hle, hlt, hq⟩
      rcases Nat.lt_or_ge q mid with hmid | hmid
      · exact Or.inr ⟨q, hle, hmid, hq⟩
      · exact Or.inl ⟨q, hmid, hlt, hq⟩

/-- The mask for a bit has that bit. -/
theorem getLsbD_mask (p i : ℕ) (hi : i < 8) :
    (1 <<< UInt8.ofNat (p % 8) : UInt8).toBitVec.getLsbD i = decide (i = p % 8) := by
  have hall : ∀ r j : Fin 8, (1 <<< UInt8.ofNat r : UInt8).toBitVec.getLsbD j =
      decide (j.1 = r.1) := by
    decide
  exact hall ⟨p % 8, Nat.mod_lt _ (by decide)⟩ ⟨i, hi⟩

theorem used_setBit (b : BitmapBytes) (p q : ℕ) : (b.setBit p).Used q ↔ q = p ∨ b.Used q := by
  have hmod : q % 8 < 8 := Nat.mod_lt _ (by decide)
  rw [BitmapBytes.Used, BitmapBytes.setBit, BitmapBytes.store]
  by_cases hbyte : q / 8 = p / 8
  · simp only [hbyte, Function.update_self, UInt8.toBitVec_or, BitVec.getLsbD_or,
      getLsbD_mask p _ hmod, Bool.or_eq_true, decide_eq_true_eq]
    rw [BitmapBytes.Used, hbyte, or_comm]
    refine or_congr_left ?_
    omega
  · simp only [Function.update_of_ne hbyte]
    have hne : q ≠ p := fun h => hbyte (congrArg (· / 8) h)
    simp only [hne, false_or]
    rfl

/-- One bit. -/
theorem marks_setBit (b : BitmapBytes) (p : ℕ) : Marks b (b.setBit p) p (p + 1) where
  used := by
    intro q
    rw [used_setBit]
    refine or_congr_left ?_
    omega
  written := by
    intro i
    rw [BitmapBytes.setBit, BitmapBytes.store, List.mem_cons]
    refine or_congr_left ⟨?_, ?_⟩
    · rintro rfl
      exact ⟨p, le_rfl, Nat.lt_succ_self p, rfl⟩
    · rintro ⟨q, hle, hlt, rfl⟩
      rw [Nat.le_antisymm (Nat.lt_succ_iff.mp hlt) hle]

/-- One byte, all ones. -/
theorem marks_storeOnes (b : BitmapBytes) (i : ℕ) :
    Marks b (b.store i 0xFF) (8 * i) (8 * i + 8) where
  used := by
    intro q
    have hmod : q % 8 < 8 := Nat.mod_lt _ (by decide)
    rw [BitmapBytes.Used, BitmapBytes.store]
    by_cases hq : q / 8 = i
    · have hall : ∀ r : Fin 8, (0xFF : UInt8).toBitVec.getLsbD r = true := by decide
      have hones := hall ⟨q % 8, hmod⟩
      have hrange : 8 * i ≤ q ∧ q < 8 * i + 8 := by omega
      simp only [hq, Function.update_self, hones, hrange, and_self, true_or]
    · have hrange : ¬(8 * i ≤ q ∧ q < 8 * i + 8) := by omega
      simp only [Function.update_of_ne hq, hrange, false_or]
      rfl
  written := by
    intro j
    rw [BitmapBytes.store, List.mem_cons]
    refine or_congr_left ⟨?_, ?_⟩
    · rintro rfl
      exact ⟨8 * j, le_rfl, by omega, by omega⟩
    · rintro ⟨q, hle, hlt, rfl⟩
      omega

/-- One word. -/
theorem marks_fillWord (b : BitmapBytes) (word : ℕ) :
    Marks b (b.fillWord word) (64 * word) (64 * word + 64) := by
  have hstores : ∀ n, Marks b (b.storeOnes word n) (64 * word) (64 * word + 8 * n) := by
    intro n
    induction n with
    | zero => exact Marks.refl b _
    | succ n ih =>
      have hbyte := marks_storeOnes (b.storeOnes word n) (8 * word + n)
      rw [show 8 * (8 * word + n) = 64 * word + 8 * n by omega] at hbyte
      exact ih.trans hbyte (Nat.le_add_right _ _) (Nat.le_add_right (64 * word + 8 * n) 8)
  exact hstores 8

/-- The loop over words stops in front of the last page, at the start of a word. -/
theorem marks_fillWords {pagesToFill pagesFilled : ℕ} (hfilled : pagesFilled % 64 = 0)
    (hlt : pagesFilled < pagesToFill) :
    (fillWords pagesToFill pagesFilled b).1 < pagesToFill ∧
      pagesFilled ≤ (fillWords pagesToFill pagesFilled b).1 ∧
      Marks b (fillWords pagesToFill pagesFilled b).2 pagesFilled
        (fillWords pagesToFill pagesFilled b).1 := by
  induction pagesFilled, b using fillWords.induct pagesToFill with
  | case1 pagesFilled b hmore ih =>
    obtain ⟨hlt, hle, hmarks⟩ := ih (by omega) hmore
    have hword := marks_fillWord b (pagesFilled / 64)
    rw [show 64 * (pagesFilled / 64) = pagesFilled by omega] at hword
    rw [fillWords, if_pos hmore]
    have hstep := Nat.le_add_right pagesFilled 64
    exact ⟨hlt, hstep.trans hle, hword.trans hmarks hstep hle⟩
  | case2 pagesFilled b hmore =>
    rw [fillWords, if_neg hmore]
    exact ⟨hlt, le_rfl, Marks.refl b _⟩

theorem marks_fillBits {pagesToFill pagesFilled : ℕ} (hle : pagesFilled ≤ pagesToFill) :
    Marks b (fillBits pagesToFill pagesFilled b) pagesFilled pagesToFill := by
  induction pagesFilled, b using fillBits.induct pagesToFill with
  | case1 pagesFilled b hlt ih =>
    rw [fillBits, if_pos hlt]
    exact (marks_setBit b pagesFilled).trans (ih hlt) (Nat.le_succ _) hlt
  | case2 pagesFilled b hlt =>
    obtain rfl : pagesFilled = pagesToFill := Nat.le_antisymm hle (Nat.not_lt.mp hlt)
    rw [fillBits, if_neg hlt]
    exact Marks.refl b _

theorem marks_fillFramebuffer (fbStart : ℕ) {fbPages : ℕ} (hle : i ≤ fbPages) :
    Marks b (fillFramebuffer fbStart fbPages i b) (fbStart / 0x1000 + i)
      (fbStart / 0x1000 + fbPages) := by
  induction i, b using fillFramebuffer.induct fbStart fbPages with
  | case1 i b hlt ih =>
    rw [fillFramebuffer, if_pos hlt]
    exact (marks_setBit b _).trans (ih hlt) (Nat.le_succ _) (Nat.add_le_add_left hlt _)
  | case2 i b hlt =>
    obtain rfl : i = fbPages := Nat.le_antisymm hle (Nat.not_lt.mp hlt)
    rw [fillFramebuffer, if_neg hlt]
    exact Marks.refl b _

/-- No page is marked in what `memset` has cleared, -/
theorem not_used_memsetZero (h : q / 8 < n) : ¬(b.memsetZero n).Used q := by
  induction n with
  | zero => exact absurd h (Nat.not_lt_zero _)
  | succ n ih =>
    rw [BitmapBytes.Used, BitmapBytes.memsetZero, BitmapBytes.store]
    by_cases hq : q / 8 = n
    · simp only [hq, Function.update_self]
      simp
    · simp only [Function.update_of_ne hq]
      exact ih (by omega)

/-- and only that has been written. -/
theorem mem_written_memsetZero : i ∈ (b.memsetZero n).written ↔ i < n ∨ i ∈ b.written := by
  induction n with
  | zero => simp [BitmapBytes.memsetZero]
  | succ n ih =>
    rw [BitmapBytes.memsetZero, BitmapBytes.store, List.mem_cons, ih, ← or_assoc]
    refine or_congr_left ?_
    omega

end Ranges

/-! ### What `memory_init` has marked -/

section Init

variable {kernelEnd : KernelEnd} {entries : List MmapEntry} {tag : FramebufferTag}
variable {byte : ℕ → UInt8} {i q : ℕ}

/-- What the lengths in the memory map add up to. -/
def mapBytes : List MmapEntry → ℕ
  | [] => 0
  | entry :: entries => entry.len.toNat + mapBytes entries

/-- The number of pages of so many bytes. -/
def mapPages (entries : List MmapEntry) : ℕ := mapBytes entries % 2 ^ 64 / 0x1000

/-- The pages that a bitmap for so many pages has bits for. -/
def bitmapPages (entries : List MmapEntry) : ℕ := (mapPages entries + 7) / 8 * 8

/-- The pages that the kernel begins, from page 0 on, and one more. -/
def kernelPages (kernelEnd : KernelEnd) : ℕ :=
  (kernelEnd.addr - virtMemOffset + 0xFFF) / 0x1000 + 1

/-- The size of the framebuffer. -/
def FramebufferTag.size (tag : FramebufferTag) : ℕ :=
  tag.framebufferPitch.toNat * tag.framebufferHeight.toNat % 2 ^ 32

theorem pagesToFill_eq (kernelEnd : KernelEnd) : kernelEnd.pagesToFill = kernelPages kernelEnd := by
  have hge := kernelEnd.ge
  have hlt := kernelEnd.lt
  rw [KernelEnd.pagesToFill, kernelPages]
  rw [virtMemOffset] at hge ⊢
  split_ifs <;> omega

theorem FramebufferTag.fbPages_eq (tag : FramebufferTag) : tag.fbPages = tag.size / 0x1000 := by
  have hstart : tag.fbStart < 2 ^ 64 := tag.framebufferAddr.toNat_lt
  have hsize : tag.size < 2 ^ 32 := Nat.mod_lt _ (by decide)
  have hend : tag.fbEnd = (tag.fbStart + tag.size) % 2 ^ 64 := rfl
  rw [fbPages, hend]
  omega

variable (entries) in
theorem readMmap_snd (regions : List UsableRegion) (totalMemory : ℕ) (h : totalMemory < 2 ^ 64) :
    (readMmap entries regions totalMemory).2 = (totalMemory + mapBytes entries) % 2 ^ 64 := by
  induction entries generalizing regions totalMemory with
  | nil => exact (Nat.mod_eq_of_lt h).symm
  | cons entry entries ih =>
    rw [readMmap, ih _ _ (Nat.mod_lt _ (by decide)), Nat.mod_add_mod, mapBytes, Nat.add_assoc]

/-- `total_pages`, -/
theorem memoryInit_totalPages :
    (memoryInit kernelEnd entries tag byte).totalPages = mapPages entries := by
  have hread := readMmap_snd entries [] 0 (Nat.two_pow_pos 64)
  rw [Nat.zero_add] at hread
  rw [mapPages, ← hread]
  rfl

variable (kernelEnd entries tag byte) in
/-- `bitmap_size`, -/
theorem memoryInit_bitmapSize :
    (memoryInit kernelEnd entries tag byte).bitmapSize = (mapPages entries + 7) / 8 := by
  have hsize : (memoryInit kernelEnd entries tag byte).bitmapSize =
      if (memoryInit kernelEnd entries tag byte).totalPages % 8 ≠ 0 then
        (memoryInit kernelEnd entries tag byte).totalPages / 8 + 1
      else (memoryInit kernelEnd entries tag byte).totalPages / 8 := rfl
  rw [hsize, memoryInit_totalPages]
  split_ifs <;> omega

variable (kernelEnd entries tag byte) in
/-- and the bitmap: on a bitmap that has been cleared, the pages of the kernel are marked, and
then those of the framebuffer that are counted. -/
theorem memoryInit_marks :
    ∃ b, Marks (BitmapBytes.memsetZero ⟨byte, []⟩ ((mapPages entries + 7) / 8)) b 0
        (kernelPages kernelEnd) ∧
      Marks b (memoryInit kernelEnd entries tag byte).bitmap (tag.fbStart / 0x1000)
        (tag.fbStart / 0x1000 + tag.size / 0x1000) := by
  have hsize := memoryInit_bitmapSize kernelEnd entries tag byte
  generalize hb : BitmapBytes.memsetZero ⟨byte, []⟩ ((mapPages entries + 7) / 8) = b₀
  have hpos : 0 < kernelEnd.pagesToFill := Nat.succ_pos _
  obtain ⟨hlt, -, hwords⟩ := marks_fillWords (b := b₀) (Nat.zero_mod 64) hpos
  have hbits := marks_fillBits (b := (fillWords kernelEnd.pagesToFill 0 b₀).2) hlt.le
  have hkernel := hwords.trans hbits (Nat.zero_le _) hlt.le
  rw [pagesToFill_eq] at hkernel
  refine ⟨_, hkernel, ?_⟩
  have hfb := marks_fillFramebuffer tag.fbStart
    (b := fillBits (kernelPages kernelEnd) (fillWords (kernelPages kernelEnd) 0 b₀).1
      (fillWords (kernelPages kernelEnd) 0 b₀).2) (Nat.zero_le tag.fbPages)
  rw [Nat.add_zero, tag.fbPages_eq] at hfb
  have hbitmap : (memoryInit kernelEnd entries tag byte).bitmap =
      fillFramebuffer tag.fbStart tag.fbPages 0
        (fillBits kernelEnd.pagesToFill (fillWords kernelEnd.pagesToFill 0
          (BitmapBytes.memsetZero ⟨byte, []⟩
            (memoryInit kernelEnd entries tag byte).bitmapSize)).1
          (fillWords kernelEnd.pagesToFill 0 (BitmapBytes.memsetZero ⟨byte, []⟩
            (memoryInit kernelEnd entries tag byte).bitmapSize)).2) := rfl
  rw [hbitmap, hsize, hb, pagesToFill_eq, tag.fbPages_eq]
  exact hfb

/-- What is written: the bitmap, and the bytes of the pages that are marked. -/
theorem mem_written_memoryInit : i ∈ (memoryInit kernelEnd entries tag byte).bitmap.written ↔
    (∃ q, tag.fbStart / 0x1000 ≤ q ∧ q < tag.fbStart / 0x1000 + tag.size / 0x1000 ∧ q / 8 = i) ∨
      (∃ q, 0 ≤ q ∧ q < kernelPages kernelEnd ∧ q / 8 = i) ∨ i < (mapPages entries + 7) / 8 := by
  obtain ⟨b, hkernel, hfb⟩ := memoryInit_marks kernelEnd entries tag byte
  rw [hfb.written, hkernel.written, mem_written_memsetZero]
  simp only [List.not_mem_nil, or_false]

/-- The pages that the bitmap has bits for and that are marked. -/
theorem used_memoryInit (hq : q < mapPages entries) :
    (memoryInit kernelEnd entries tag byte).bitmap.Used q ↔
      (tag.fbStart / 0x1000 ≤ q ∧ q < tag.fbStart / 0x1000 + tag.size / 0x1000) ∨
        q < kernelPages kernelEnd := by
  obtain ⟨b, hkernel, hfb⟩ := memoryInit_marks kernelEnd entries tag byte
  have hclear := not_used_memsetZero (b := ⟨byte, []⟩) (q := q) (n := (mapPages entries + 7) / 8)
    (by omega)
  rw [hfb.used, hkernel.used]
  simp only [hclear, or_false, Nat.zero_le, true_and]

/-- The pages of the kernel are marked, wherever their bits are. -/
theorem used_memoryInit_kernel (hq : q < kernelPages kernelEnd) :
    (memoryInit kernelEnd entries tag byte).bitmap.Used q := by
  obtain ⟨b, hkernel, hfb⟩ := memoryInit_marks kernelEnd entries tag byte
  exact (hfb.used q).mpr (Or.inr ((hkernel.used q).mpr (Or.inl ⟨Nat.zero_le q, hq⟩)))

end Init

/-- A range is in each page from the one that it starts in to the one that it ends in. -/
theorem exists_addr_of_page {s e q : ℕ} (hlt : s < e) (hs : s / 0x1000 ≤ q)
    (he : q < (e + 0xFFF) / 0x1000) : ∃ addr, s ≤ addr ∧ addr < e ∧ addr / 0x1000 = q := by
  rcases Nat.le_total (q * 0x1000) s with hle | hle
  · exact ⟨s, le_rfl, hlt, by omega⟩
  · exact ⟨q * 0x1000, hle, by omega, by omega⟩

/-- **What `memory_init` should do to the bitmap**: write nothing else, and mark the pages
up to the end of the kernel and those that the framebuffer is in. -/
structure BitmapLaws (kernelEnd : KernelEnd) (entries : List MmapEntry) (tag : FramebufferTag)
    (pages : PhysicalPages) : Prop where
  inside : ∀ i ∈ pages.bitmap.written, i < pages.bitmapSize
  kernel : ∀ q, q * 0x1000 ≤ kernelEnd.addr - virtMemOffset → pages.bitmap.Used q
  framebuffer : ∀ q < pages.totalPages,
    (∃ addr, tag.fbStart ≤ addr ∧ addr < tag.fbEnd ∧ addr / 0x1000 = q) → pages.bitmap.Used q

/-- **When it does**: the pages of the kernel, and those of the framebuffer that are counted,
have bits in a bitmap for the pages of the map, and behind those that are counted the
framebuffer is only in pages that are marked for the kernel or that the map has not. -/
structure BitmapRoom (kernelEnd : KernelEnd) (entries : List MmapEntry) (tag : FramebufferTag) :
    Prop where
  kernel : kernelPages kernelEnd ≤ bitmapPages entries
  framebuffer : 0x1000 ≤ tag.size →
    tag.fbStart / 0x1000 + tag.size / 0x1000 ≤ bitmapPages entries
  rest : tag.fbStart < tag.fbEnd → min (mapPages entries) ((tag.fbEnd + 0xFFF) / 0x1000) ≤
    max (kernelPages kernelEnd) (tag.fbStart / 0x1000 + tag.size / 0x1000)

/-- **The bitmap of the physical pages is right exactly if there is room for what is
marked in it and the framebuffer ends on a page.** -/
theorem bitmapLaws_iff (kernelEnd : KernelEnd) (entries : List MmapEntry) (tag : FramebufferTag)
    (byte : ℕ → UInt8) :
    BitmapLaws kernelEnd entries tag (memoryInit kernelEnd entries tag byte) ↔
      BitmapRoom kernelEnd entries tag := by
  have hpos : 0 < kernelPages kernelEnd := Nat.succ_pos _
  have hpages : bitmapPages entries = (mapPages entries + 7) / 8 * 8 := rfl
  constructor
  · rintro ⟨hinside, -, hfb⟩
    rw [memoryInit_bitmapSize] at hinside
    rw [memoryInit_totalPages] at hfb
    refine ⟨?_, fun hsize => ?_, fun hlt => ?_⟩
    · have hlast := hinside _ (mem_written_memoryInit.mpr
        (Or.inr (Or.inl ⟨kernelPages kernelEnd - 1, Nat.zero_le _,
        Nat.sub_lt hpos Nat.one_pos, rfl⟩)))
      omega
    · have hlast := hinside _ (mem_written_memoryInit.mpr
        (Or.inl ⟨tag.fbStart / 0x1000 + tag.size / 0x1000 - 1, by omega, by omega, rfl⟩))
      omega
    · -- the last page of the two that it is in and the map has
      by_contra hmax
      have hk := le_max_left (kernelPages kernelEnd) (tag.fbStart / 0x1000 + tag.size / 0x1000)
      have hf := le_max_right (kernelPages kernelEnd) (tag.fbStart / 0x1000 + tag.size / 0x1000)
      generalize max (kernelPages kernelEnd) (tag.fbStart / 0x1000 + tag.size / 0x1000) = q at *
      rw [Nat.not_le, lt_min_iff] at hmax
      obtain ⟨addr, hin⟩ := exists_addr_of_page hlt ((Nat.le_add_right _ _).trans hf) hmax.2
      have hq := hfb q hmax.1 ⟨addr, hin⟩
      rw [used_memoryInit hmax.1] at hq
      omega
  · rintro ⟨hkernel, hfb, hrest⟩
    constructor
    · intro i hi
      rw [memoryInit_bitmapSize]
      rcases mem_written_memoryInit.mp hi with ⟨q, hle, hlt, rfl⟩ | ⟨q, -, hlt, rfl⟩ | hlt
      · have hroom := hfb (by omega)
        omega
      · omega
      · exact hlt
    · intro q hq
      refine used_memoryInit_kernel ?_
      rw [kernelPages]
      omega
    · rintro q hq ⟨addr, hstart, hend, rfl⟩
      rw [memoryInit_totalPages] at hq
      rw [used_memoryInit hq]
      have hle := hrest (hstart.trans_lt hend)
      omega

/-- A memory map with 16 MiB from address 0 on. -/
def smallMap : List MmapEntry := [⟨0, 0x1000000, 1⟩]

/-- A kernel up to 9 MiB. -/
def smallKernel : KernelEnd := ⟨0xFFFFFF8000900000, by decide, by decide⟩

/-- A framebuffer of 800 lines behind all memory. -/
def highFramebuffer : FramebufferTag := ⟨0xFD000000, 5120, 800⟩

/-- The framebuffer's pages have no bits, and those behind the bitmap are written. -/
theorem not_bitmapLaws : ¬∀ kernelEnd entries tag byte,
    BitmapLaws kernelEnd entries tag (memoryInit kernelEnd entries tag byte) := by
  intro hall
  have hlaws := hall smallKernel smallMap highFramebuffer fun _ => 0
  have hstart : highFramebuffer.fbStart = 0xFD000000 := by
    simp [highFramebuffer, FramebufferTag.fbStart]
  have hsize : highFramebuffer.size = 0x3E8000 := by simp [highFramebuffer, FramebufferTag.size]
  have hpages : mapPages smallMap = 0x1000 := by simp [mapPages, mapBytes, smallMap]
  have hinside := hlaws.inside (0xFD000 / 8) (mem_written_memoryInit.mpr (Or.inl ⟨0xFD000, by omega,
    by omega, rfl⟩))
  rw [memoryInit_bitmapSize, hpages] at hinside
  exact absurd hinside (by decide)

end Xana
