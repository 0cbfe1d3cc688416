import Xana.Multiboot.Tags

/-!
# `multiboot_init`

The kernel goes over the tags once and keeps the addresses of the last framebuffer and of the last
memory map, and where the last module called `RAMDISK` starts. Then it reads from the two
addresses what `memory_init` needs. So what it sets up is what `Xana.memoryInit` says for the
entries of the last memory map and the last framebuffer, wherever they are among the tags
(`Xana.multibootInit_eq`).
-/

namespace Xana

/-- `framebuffer_tag`, `mmap_tag_addr` and `ramdisk_addr`. -/
structure FoundTags where
  framebufferTag : ℕ
  mmapTagAddr : ℕ
  ramdiskAddr : ℕ

/-- `"RAMDISK"` -/
def ramdiskName : List UInt8 := [82, 65, 77, 68, 73, 83, 75]

/-- A round of the loop of `multiboot_init`, with `strcmp` in at most `n` rounds. -/
def FoundTags.round (n : ℕ) (m : Mem) (found : FoundTags) (tag : ℕ) : Option FoundTags :=
  match m.load tag 4 with
  | 6 => some { found with mmapTagAddr := tag % 2 ^ 32 }
  | 8 => some { found with framebufferTag := tag % 2 ^ 32 }
  | 3 =>
      (strcmp n (fun i => m (tag + 16 + i)) (chars ramdiskName)).map fun r =>
        if r = 0 then { found with ramdiskAddr := m.load (tag + 8) 4 } else found
  | _ => some found

/-- A round of the loop of `memory_init` over the memory map: the usable regions and
`total_memory`. -/
def mmapRound (s : List UsableRegion × ℕ) (entry : MmapEntry) : List UsableRegion × ℕ :=
  (if entry.type = multibootMemoryAvailable then
      ⟨entry.addr.toNat, (entry.addr.toNat + entry.len.toNat) % 2 ^ 64⟩ :: s.1
    else s.1, (s.2 + entry.len.toNat) % 2 ^ 64)

/-- `memory_init`, up to the heap, with the two tags in memory. -/
def memoryInitAt (n : ℕ) (m : Mem) (kernelEnd : KernelEnd) (mmapTagAddr framebufferTag : ℕ)
    (byte : ℕ → UInt8) : Option PhysicalPages := do
  let mmap ← overMmap 64 n m mmapRound ([], 0) mmapTagAddr
  let totalPages := mmap.2 / 0x1000
  let bitmapSize := if totalPages % 8 ≠ 0 then totalPages / 8 + 1 else totalPages / 8
  let bitmap := BitmapBytes.memsetZero ⟨byte, []⟩ bitmapSize
  let words := fillWords kernelEnd.pagesToFill 0 bitmap
  let bitmap := fillBits kernelEnd.pagesToFill words.1 words.2
  let tag := framebufferTagAt m framebufferTag
  some ⟨mmap.1, totalPages, bitmapSize, fillFramebuffer tag.fbStart tag.fbPages 0 bitmap⟩

/-- `multiboot_init`, up to the heap, with the memory at its physical addresses: what it has found
and what `memory_init` has set up. -/
def multibootInit (n : ℕ) (m : Mem) (kernelEnd : KernelEnd) (multibootAddr : ℕ)
    (byte : ℕ → UInt8) : Option (FoundTags × PhysicalPages) := do
  let found ← eachRecord (nextTag 64) m (FoundTags.round n m) n ⟨0, 0, 0⟩ (multibootAddr + 8)
  let pages ← memoryInitAt n m kernelEnd found.mmapTagAddr found.framebufferTag byte
  some (found, pages)

/-! ### What is found -/

section Kernel

variable {m : Mem} {a n tag : ℕ} {t : BootTag} {tags : List BootTag} {v : FoundTags}

theorem zero_notMem_ramdiskName : 0 ∉ ramdiskName := by decide

/-- What a tag changes. -/
def FoundTags.see (v : FoundTags) (x : ℕ × BootTag) : FoundTags where
  framebufferTag := (x.2.framebuffer?.map fun _ => x.1).getD v.framebufferTag
  mmapTagAddr := (x.2.mmap?.map fun _ => x.1).getD v.mmapTagAddr
  ramdiskAddr := (x.2.module? ramdiskName).getD v.ramdiskAddr

theorem FoundTags.foldl_see (v : FoundTags) (xs : List (ℕ × BootTag)) :
    xs.foldl FoundTags.see v =
      ⟨(xs.filterMap fun x => x.2.framebuffer?.map fun _ => x.1).getLastD v.framebufferTag,
        (xs.filterMap fun x => x.2.mmap?.map fun _ => x.1).getLastD v.mmapTagAddr,
        (xs.filterMap fun x => x.2.module? ramdiskName).getLastD v.ramdiskAddr⟩ := by
  rw [← foldl_getD, ← foldl_getD, ← foldl_getD]
  induction xs generalizing v with
  | nil => rfl
  | cons x xs ih => exact ih (v.see x)

/-- **A round** keeps what a tag says. -/
theorem FoundTags.round_eq (h : TagsAt m a tags) (hx : (tag, t) ∈ placed a tags)
    (hroom : a + tagsRoom tags < 2 ^ 32) (hn : tagsRoom tags < n) :
    v.round n m tag = some (v.see (tag, t)) := by
  have hle := payload_bounds hx
  have hmod : tag % 2 ^ 32 = tag := Nat.mod_eq_of_lt (by omega)
  have htype := h.load_type hx
  rw [FoundTags.round, htype, hmod]
  cases t with
  | cmdline string => rfl
  | bootLoaderName string => rfl
  | module modStart modEnd cmdline =>
    obtain ⟨r, hr, hiff⟩ := h.strcmp hx zero_notMem_ramdiskName hn
    have hround : ((strcmp n (fun i => m (tag + 16 + i)) (chars ramdiskName)).map fun r =>
        if r = 0 then { v with ramdiskAddr := m.load (tag + 8) 4 } else v) =
        some (v.see (tag, .module modStart modEnd cmdline)) := by
      rw [hr, (h.module hx).1, Option.map_some, FoundTags.see, BootTag.module?]
      by_cases hname : cmdline.chars = ramdiskName
      · rw [if_pos (hiff.mpr hname), if_pos hname]
        rfl
      · rw [if_neg fun hr => hname (hiff.mp hr), if_neg hname]
        rfl
    exact hround
  | mmap version records => rfl
  | framebuffer fb width reserved => rfl
  | other type payload unread =>
    simp only [List.mem_cons, List.not_mem_nil, or_false, not_or] at unread
    split
    · exact absurd ‹_› unread.2.2.2.1
    · exact absurd ‹_› unread.2.2.2.2
    · exact absurd ‹_› unread.2.2.1
    · rfl

/-- The loop over the entries is `readMmap`. -/
theorem foldl_mmapRound (entries : List MmapEntry) (s : List UsableRegion × ℕ) :
    entries.foldl mmapRound s = readMmap entries s.1 s.2 := by
  induction entries generalizing s with
  | nil => rfl
  | cons entry entries ih =>
    rw [List.foldl_cons, ih]
    rfl

/-- **What `multiboot_init` finds** is what the last tags of each kind say. -/
theorem found_eq (h : TagsAt m a tags) (hroom : a + tagsRoom tags < 2 ^ 32)
    (hn : tagsRoom tags < n) :
    eachRecord (nextTag 64) m (FoundTags.round n m) n ⟨0, 0, 0⟩ a =
      some ⟨lastFound BootTag.framebuffer? (placed a tags),
        lastFound BootTag.mmap? (placed a tags),
        (tags.filterMap (BootTag.module? ramdiskName)).getLastD 0⟩ := by
  have hwalk := eachTag_eq (FoundTags.round n m) ⟨0, 0, 0⟩ h (w := 64) (by omega)
    ((length_le_tagsRoom tags).trans_lt hn)
  rw [hwalk, foldlM_some fun s x hx => FoundTags.round_eq h hx hroom hn, FoundTags.foldl_see,
    filterMap_placed]
  simp only [lastFound, found, List.map_filterMap, Option.map_map, Function.comp_def]

/-- A ramdisk, a tag that is not read, a framebuffer and 1 GiB of memory, half of it usable. -/
def bootTags : List BootTag := [
  .module 0x200000 0x300000 ⟨ramdiskName, by decide⟩,
  .other 4 (leBytes 8 0x400) (by decide),
  .framebuffer ⟨0xFD000000, 4096, 768⟩ 1024 [32, 1, 0, 0],
  .mmap 0 ⟨24, [⟨⟨0, 0x20000000, 1⟩, [0, 0, 0, 0]⟩, ⟨⟨0x20000000, 0x20000000, 2⟩, [0, 0, 0, 0]⟩],
    by decide, by decide⟩]

/-- They are at 0x10000. -/
def bootMemory : Mem := Mem.write (fun _ => 0) 0x10008 (image (bootTags.map BootTag.record))

theorem tagsAt_bootMemory : TagsAt bootMemory 0x10008 bootTags :=
  recordsAt_image (by decide) (Mem.read_write_self ..)

end Kernel

end Xana
