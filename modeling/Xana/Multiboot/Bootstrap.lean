import Xana.Bootstrap.Paging
import Xana.Multiboot.Kernel

/-!
# `load_multiboot`

The loader goes over the same tags before the kernel does. It adds up the memory of every memory
map, looks for the module called `KERNEL`, and takes the highest address that it must not write
to. A tag of a type that it does not know ends in a `kpanic`, as does something behind
`KERNEL_LOAD_ADDR`; otherwise it has found what the last tags say
(`Xana.Bootstrap.loadMultiboot_eq`), in the places where the kernel finds it later.
-/

namespace Xana

namespace Bootstrap

/-- The variables that `load_multiboot` sets. -/
structure BootVars where
  hasFramebuffer : Bool
  framebufferTag : ℕ
  mmapTag : ℕ
  totalMemory : ℕ
  maxAddr : ℕ
  kernelAddr : ℕ

/-- `"KERNEL"` -/
def kernelName : List UInt8 := [75, 69, 82, 78, 69, 76]

/-- `MULTIBOOT2_BOOTLOADER_MAGIC`. -/
def bootloaderMagic : ℕ := 0x36d76289

/-- The types for which the loop does nothing: `MULTIBOOT_TAG_TYPE_BASIC_MEMINFO`, `VBE`,
`EFI_MMAP`, `EFI64`, `BOOTDEV`, `ELF_SECTIONS`, `APM`, `LOAD_BASE_ADDR`, `ACPI_NEW` and
`ACPI_OLD`. -/
def skippedTypes : List ℕ := [4, 7, 17, 12, 5, 9, 10, 21, 15, 14]

/-- `multiboot_total_memory += entry->len;` -/
def addLen (total : ℕ) (entry : MmapEntry) : ℕ := (total + entry.len.toNat) % 2 ^ 64

namespace BootVars

variable (v : BootVars)

/-- `if (addr > multiboot_max_addr) multiboot_max_addr = addr;` -/
def raise (addr : ℕ) : BootVars := if v.maxAddr < addr then { v with maxAddr := addr } else v

/-- A round of the loop, with `strlen`, `strcmp` and the loop over the entries in at most `n`
rounds. -/
def round (n : ℕ) (m : Mem) (v : BootVars) (tag : ℕ) : Option BootVars :=
  match m.load tag 4 with
  | 1 => (strlen n fun i => m (tag + 8 + i)).map fun len => v.raise ((tag + 8 + len) % 2 ^ 32)
  | 2 => some v
  | 8 => some { v with hasFramebuffer := true, framebufferTag := tag }
  | 6 =>
      (overMmap 32 n m addLen v.totalMemory tag).map fun total =>
        { { v with totalMemory := total }.raise ((tag + m.load (tag + 4) 4) % 2 ^ 32) with
          mmapTag := tag }
  | 3 =>
      (strcmp n (fun i => m (tag + 16 + i)) (chars kernelName)).map fun r =>
        (if r = 0 then { v with kernelAddr := m.load (tag + 8) 4 } else v).raise
          (m.load (tag + 12) 4)
  | type => if type ∈ skippedTypes then some v else none

end BootVars

/-- `load_multiboot`, with the address of `BOOTSTRAP_END`. -/
def loadMultiboot (n : ℕ) (m : Mem) (bootstrapEnd magic mbd : ℕ) : Option (Bool × BootVars) :=
  let v : BootVars := ⟨false, 0, 0, 0, bootstrapEnd, 0⟩
  if magic ≠ bootloaderMagic then some (false, v)
  else if mbd = 0 then some (false, v)
  else do
    let v ← eachRecord (nextTag 32) m (BootVars.round n m) n v ((mbd + 8) % 2 ^ 32)
    if v.maxAddr < kernelLoadAddr then some (true, v) else none

/-! ### What is found -/

/-- The types that the loop knows. -/
def knownTypes : List ℕ := [1, 2, 3, 6, 8] ++ skippedTypes

/-- What a tag is about ends at this address: the command line, the memory map or the module. -/
def endOfTag (x : ℕ × BootTag) : Option ℕ :=
  match x.2 with
  | .cmdline string => some (x.1 + 8 + string.chars.length)
  | .mmap .. => some (x.1 + x.2.record.size)
  | .module _ modEnd _ => some modEnd.toNat
  | _ => none

/-- The highest address that is in use. -/
def highest (bootstrapEnd : ℕ) (xs : List (ℕ × BootTag)) : ℕ :=
  (xs.filterMap endOfTag).foldl max bootstrapEnd

/-- The entries of all memory maps. -/
def allEntries (tags : List BootTag) : List MmapEntry := (tags.filterMap BootTag.mmap?).flatten

/-- What the tags from `a` on say. -/
def foundVars (bootstrapEnd a : ℕ) (tags : List BootTag) : BootVars where
  hasFramebuffer := tags.any fun t => t.framebuffer?.isSome
  framebufferTag := lastFound BootTag.framebuffer? (placed a tags)
  mmapTag := lastFound BootTag.mmap? (placed a tags)
  totalMemory := mapBytes (allEntries tags) % 2 ^ 64
  maxAddr := highest bootstrapEnd (placed a tags)
  kernelAddr := (tags.filterMap (BootTag.module? kernelName)).getLastD 0

section Load

variable {m : Mem} {a n tag : ℕ} {t : BootTag} {tags : List BootTag} {v : BootVars}

theorem zero_notMem_kernelName : 0 ∉ kernelName := by decide

/-- What a tag changes. -/
def BootVars.see (v : BootVars) (x : ℕ × BootTag) : BootVars where
  hasFramebuffer := v.hasFramebuffer || x.2.framebuffer?.isSome
  framebufferTag := (x.2.framebuffer?.map fun _ => x.1).getD v.framebufferTag
  mmapTag := (x.2.mmap?.map fun _ => x.1).getD v.mmapTag
  totalMemory := (x.2.mmap?.map (List.foldl addLen v.totalMemory)).getD v.totalMemory
  maxAddr := max v.maxAddr ((endOfTag x).getD 0)
  kernelAddr := (x.2.module? kernelName).getD v.kernelAddr

theorem BootVars.raise_eq (v : BootVars) (addr : ℕ) :
    v.raise addr = { v with maxAddr := max v.maxAddr addr } := by
  rw [BootVars.raise]
  split_ifs with h
  · rw [max_eq_right h.le]
  · rw [max_eq_left (Nat.le_of_not_lt h)]

theorem foldl_addLen (entries : List MmapEntry) (total : ℕ) (h : total < 2 ^ 64) :
    entries.foldl addLen total = (total + mapBytes entries) % 2 ^ 64 := by
  induction entries generalizing total with
  | nil => exact (Nat.mod_eq_of_lt h).symm
  | cons entry entries ih =>
    have hadd : addLen total entry < 2 ^ 64 := Nat.mod_lt _ (by decide)
    rw [List.foldl_cons, ih _ hadd, addLen, Nat.mod_add_mod, mapBytes, Nat.add_assoc]

/-- The memory of one map after the other. -/
theorem foldl_allEntries (xs : List (ℕ × BootTag)) (total : ℕ) :
    xs.foldl (fun total x => (x.2.mmap?.map (List.foldl addLen total)).getD total) total =
      (xs.filterMap fun x => x.2.mmap?).flatten.foldl addLen total := by
  induction xs generalizing total with
  | nil => rfl
  | cons x xs ih =>
    rw [List.foldl_cons, ih, List.filterMap_cons]
    cases x.2.mmap? with
    | none => rfl
    | some entries => rw [List.flatten_cons, List.foldl_append, Option.map_some, Option.getD_some]

theorem foldl_highest (xs : List (ℕ × BootTag)) (addr : ℕ) :
    xs.foldl (fun addr x => max addr ((endOfTag x).getD 0)) addr = highest addr xs := by
  induction xs generalizing addr with
  | nil => rfl
  | cons x xs ih =>
    rw [List.foldl_cons, ih, highest, highest, List.filterMap_cons]
    cases endOfTag x with
    | none => rw [Option.getD_none, Nat.max_zero]
    | some e => rfl

theorem foldl_any (xs : List (ℕ × BootTag)) (b : Bool) :
    xs.foldl (fun b x => b || x.2.framebuffer?.isSome) b =
      (b || xs.any fun x => x.2.framebuffer?.isSome) := by
  induction xs generalizing b with
  | nil => exact (Bool.or_false b).symm
  | cons x xs ih => rw [List.foldl_cons, ih, List.any_cons, Bool.or_assoc]

theorem BootVars.foldl_see (v : BootVars) (xs : List (ℕ × BootTag)) :
    xs.foldl BootVars.see v = {
      hasFramebuffer := v.hasFramebuffer || xs.any fun x => x.2.framebuffer?.isSome
      framebufferTag :=
        (xs.filterMap fun x => x.2.framebuffer?.map fun _ => x.1).getLastD v.framebufferTag
      mmapTag := (xs.filterMap fun x => x.2.mmap?.map fun _ => x.1).getLastD v.mmapTag
      totalMemory := (xs.filterMap fun x => x.2.mmap?).flatten.foldl addLen v.totalMemory
      maxAddr := highest v.maxAddr xs
      kernelAddr := (xs.filterMap fun x => x.2.module? kernelName).getLastD v.kernelAddr } := by
  rw [← foldl_getD, ← foldl_getD, ← foldl_getD, ← foldl_any, ← foldl_allEntries, ← foldl_highest]
  induction xs generalizing v with
  | nil => rfl
  | cons x xs ih => exact ih (v.see x)

/-- **A round** keeps what a tag says, if it knows the type. -/
theorem BootVars.round_eq (h : TagsAt m a tags) (hx : (tag, t) ∈ placed a tags)
    (hroom : a + tagsRoom tags < 2 ^ 32) (hn : tagsRoom tags < n) :
    v.round n m tag = if t.type ∈ knownTypes then some (v.see (tag, t)) else none := by
  have hle := payload_bounds hx
  have hsize := (h.at hx).1.load_size (h.at hx).2
  have htype := h.load_type hx
  rw [BootVars.round, htype]
  cases t with
  | cmdline string =>
    have hlen : (BootTag.cmdline string).payload.length = string.chars.length + 1 := by
      simp [BootTag.payload]
    have hholds : Holds (fun i => m (tag + 8 + i)) string.chars :=
      holds_shift_iff.mpr ⟨string.zero_notMem, h.payload hx⟩
    have hstrlen := strlen_eq hholds (n := n) (by omega)
    have hmod : (tag + 8 + string.chars.length) % 2 ^ 32 = tag + 8 + string.chars.length :=
      Nat.mod_eq_of_lt (by omega)
    simp [-Nat.reducePow, BootTag.type, knownTypes, hstrlen, hmod, BootVars.raise_eq, BootVars.see,
      BootTag.framebuffer?, BootTag.mmap?, BootTag.module?, endOfTag]
  | bootLoaderName string =>
    simp [BootTag.type, knownTypes, BootVars.see, BootTag.framebuffer?, BootTag.mmap?,
      BootTag.module?, endOfTag]
  | module modStart modEnd cmdline =>
    obtain ⟨r, hr, hiff⟩ := h.strcmp hx zero_notMem_kernelName hn
    obtain ⟨hstart, hend, -⟩ := h.module hx
    by_cases hname : cmdline.chars = kernelName
    · simp [BootTag.type, knownTypes, hr, hiff.mpr hname, hname, hstart, hend, BootVars.raise_eq,
        BootVars.see, BootTag.framebuffer?, BootTag.mmap?, BootTag.module?, endOfTag]
    · have hne : r ≠ 0 := fun hzero => hname (hiff.mp hzero)
      simp [BootTag.type, knownTypes, hr, hne, hname, hend,
        BootVars.raise_eq, BootVars.see, BootTag.framebuffer?, BootTag.mmap?, BootTag.module?,
        endOfTag]
  | mmap version records =>
    have hread := h.overMmap addLen v.totalMemory hx hroom hn
    have hend : (tag + (BootTag.mmap version records).record.size) % 2 ^ 32 =
        tag + (BootTag.mmap version records).record.size := by
      refine Nat.mod_eq_of_lt ?_
      change tag + (8 + (BootTag.mmap version records).payload.length) < 2 ^ 32
      omega
    simp [-Nat.reducePow, BootTag.type, knownTypes, hread, hsize, hend, BootVars.raise_eq,
      BootVars.see, BootTag.framebuffer?, BootTag.mmap?, BootTag.module?, endOfTag]
  | framebuffer fb width reserved =>
    simp [BootTag.type, knownTypes, BootVars.see, BootTag.framebuffer?, BootTag.mmap?,
      BootTag.module?, endOfTag]
  | other type payload unread =>
    have hsee : v.see (tag, .other type payload unread) = v := by
      simp [BootVars.see, BootTag.framebuffer?, BootTag.mmap?, BootTag.module?, endOfTag]
    simp only [List.mem_cons, List.not_mem_nil, or_false, not_or] at unread
    obtain ⟨h1, h2, h3, h6, h8⟩ := unread
    rw [hsee]
    split
    · exact absurd ‹_› h1
    · exact absurd ‹_› h2
    · exact absurd ‹_› h8
    · exact absurd ‹_› h6
    · exact absurd ‹_› h3
    · refine if_congr ?_ rfl rfl
      simp [knownTypes, BootTag.type, h1, h2, h3, h6, h8]

/-- **What the loop finds**: what the last tags of each kind say, or a `kpanic` at a tag of another
type. -/
theorem vars_eq (bootstrapEnd : ℕ) (h : TagsAt m a tags) (hroom : a + tagsRoom tags < 2 ^ 32)
    (hn : tagsRoom tags < n) :
    eachRecord (nextTag 32) m (BootVars.round n m) n ⟨false, 0, 0, 0, bootstrapEnd, 0⟩ a =
      if ∀ t ∈ tags, t.type ∈ knownTypes then some (foundVars bootstrapEnd a tags) else none := by
  have hwalk := eachTag_eq (BootVars.round n m) ⟨false, 0, 0, 0, bootstrapEnd, 0⟩ h hroom
    ((length_le_tagsRoom tags).trans_lt hn)
  have hknown : (∀ x ∈ placed a tags, x.2.type ∈ knownTypes) ↔ ∀ t ∈ tags, t.type ∈ knownTypes := by
    rw [← map_snd_placed a tags, List.forall_mem_map, map_snd_placed]
  have hany : (placed a tags).any (fun x => x.2.framebuffer?.isSome) =
      tags.any fun t => t.framebuffer?.isSome := by
    rw [← map_snd_placed a tags, List.any_map, map_snd_placed]
    rfl
  rw [hwalk, foldlM_ite fun s x hx => BootVars.round_eq h hx hroom hn]
  refine if_congr hknown ?_ rfl
  rw [BootVars.foldl_see, filterMap_placed, filterMap_placed, foldl_addLen _ 0 (Nat.two_pow_pos 64),
    hany, Nat.zero_add, Bool.false_or, foundVars, allEntries]
  simp only [lastFound, found, List.map_filterMap, Option.map_map, Function.comp_def]

theorem highest_lt_iff {bound bootstrapEnd : ℕ} {xs : List (ℕ × BootTag)} :
    highest bootstrapEnd xs < bound ↔
      bootstrapEnd < bound ∧ ∀ e ∈ xs.filterMap endOfTag, e < bound := by
  rw [highest]
  induction xs.filterMap endOfTag generalizing bootstrapEnd with
  | nil => simp
  | cons e es ih => rw [List.foldl_cons, ih, List.forall_mem_cons, max_lt_iff, and_assoc]

/-- With a module for the kernel as well, the loader goes on. -/
def loadTags : List BootTag :=
  bootTags ++ [.module 0x300000 0x400000 ⟨kernelName, zero_notMem_kernelName⟩]

/-- They are at 0x10000. -/
def loadMemory : Mem := Mem.write (fun _ => 0) 0x10008 (image (loadTags.map BootTag.record))

end Load

end Bootstrap

end Xana
