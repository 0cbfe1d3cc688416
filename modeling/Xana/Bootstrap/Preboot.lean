import Xana.Bootstrap.ElfLoader
import Xana.Bootstrap.MemoryMap
import Xana.Multiboot.Bootstrap

/-!
# From the boot loader to the kernel

`preboot_load` reads the tags, builds the page tables behind the highest address that is in use,
puts the segments of the kernel in their places and jumps to its entry. What has been proved of
each of these steps holds of them together, since they keep out of each other's way: the tags,
the modules and the tables are all below `KERNEL_LOAD_ADDR`, and the kernel from there on. So
at the virtual addresses of the kernel the tables lead to the bytes of its segments, and the tags
are there for the kernel to read them again (`Xana.Bootstrap.prebootLoad_boots`).
-/

namespace Xana

namespace Bootstrap

/-! ### The function -/

/-- `get_framebuffer_addr`. -/
def getFramebufferAddr (m : Mem) (tagAddr : ℕ) : ℕ := m.load (tagAddr + 8) 8 % 2 ^ 32

/-- `get_framebuffer_size_bytes`. -/
def getFramebufferSizeBytes (m : Mem) (tagAddr : ℕ) : ℕ :=
  m.load (tagAddr + 16) 4 * m.load (tagAddr + 24) 4 % 2 ^ 32

/-- `kernel_info_t`. -/
structure KernelInfo where
  kheapEnd : ℕ
  multibootAddr : ℕ
  elfSymbolsAddr : ℕ
  elfStringsAddr : ℕ
  elfSymbolCount : ℕ

/-- `passed_info`. -/
def passedInfo (mbd : ℕ) (b : State) (s : Symbols) : KernelInfo where
  kheapEnd := b.kheapLoc
  multibootAddr := mbd
  elfSymbolsAddr := s.symbolsLocation
  elfStringsAddr := s.stringsLocation
  elfSymbolCount := s.symbolsCount

/-- The memory when the loader's heap, which begins at `maxAddr`, has other bytes in it. -/
def withHeap (m heap : Mem) (maxAddr : ℕ) : Mem :=
  fun a => if maxAddr ≤ a ∧ a < kernelLoadAddr then heap a else m a

/-- What the kernel is started with: where, what it is told, the page tables and the memory. -/
structure Handoff where
  entry : ℕ
  info : KernelInfo
  root : ℕ
  tables : State
  memory : Mem

/-- `preboot_load`, up to the jump. The tables are in `b`; as bytes they are in the heap of the
loader, which is `heap` when `memory_init` reads the tag of the framebuffer, and `heap'` when it
has returned. -/
def prebootLoad (n : ℕ) (heap heap' : Mem) (b : State) (bootstrapEnd magic mbd : ℕ) (m : Mem) :
    Option Handoff := do
  let (ok, v) ← loadMultiboot n m bootstrapEnd magic mbd
  if ok then
    let (root, b) ← memoryInit n v.maxAddr v.totalMemory
      (getFramebufferAddr (withHeap m heap v.maxAddr) v.framebufferTag)
      (getFramebufferSizeBytes (withHeap m heap v.maxAddr) v.framebufferTag) b
    if v.kernelAddr = 0 then none
    else
      let (entry, m, symbols) ← loadElf64 (withHeap m heap' v.maxAddr) v.kernelAddr
      -- the highest bit is that of an error
      if entry &&& 0x80000000 ≠ 0 then none
      else some ⟨entry, passedInfo mbd b symbols, root, b, m⟩
  else none

/-! ### What is handed over -/

/-- The framebuffer's address and size, as the loader has them. -/
def fbRange (fb : FramebufferTag) : ℕ × ℕ :=
  (fb.framebufferAddr.toNat % 2 ^ 32,
    fb.framebufferPitch.toNat * fb.framebufferHeight.toNat % 2 ^ 32)

/-- The memory that the loader maps. -/
def totalOf (tags : List BootTag) : ℕ := mapBytes (allEntries tags) % 2 ^ 64

/-- **What the loader can start**: tags that it knows, which end below the highest address in use,
room for the tables between that and the place of the kernel, and a kernel of `size` bytes that
can be loaded, into memory that the framebuffer keeps away from. -/
structure Bootable (m : Mem) (bootstrapEnd mbd size start : ℕ) (tags : List BootTag)
    (fb : FramebufferTag) : Prop where
  mbd_ne : mbd ≠ 0
  tagsAt : TagsAt m (mbd + 8) tags
  known : ∀ t ∈ tags, t.type ∈ knownTypes
  below : mbd + 8 + tagsRoom tags + 4 ≤ highest bootstrapEnd (placed (mbd + 8) tags)
  framebuffer : (tags.filterMap BootTag.framebuffer?).getLast? = some fb
  kernel : (tags.filterMap (BootTag.module? kernelName)).getLast? = some start
  module : ∃ first last name, .module first last name ∈ tags ∧ start + size ≤ last.toNat
  heap : highest bootstrapEnd (placed (mbd + 8) tags) +
    initRoom (totalOf tags) (fbRange fb).1 (fbRange fb).2 ≤ kernelLoadAddr
  file : Loadable size start (fileAt m start)
  apart : (segments (fileAt m start)).Pairwise fun p q =>
    p.paddr + room p ≤ q.paddr ∨ q.paddr + room q ≤ p.paddr
  place : ∀ p ∈ segments (fileAt m start), kernelLoadAddr ≤ p.paddr ∧
    p.paddr + room p ≤ totalOf tags ∧ p.paddr + room p ≤ (fbRange fb).1 / 2 ^ 21 * 2 ^ 21
  entry : eEntry (fileAt m start) % 2 ^ 32 < 2 ^ 31

/-- **What the kernel finds**: its bytes at its virtual addresses, the first 16 MiB at their own,
and below its place what there was, with the tags. -/
structure Finds (m heap' : Mem) (maxAddr mbd start : ℕ) (tags : List BootTag) (boot : Handoff) :
    Prop where
  entry : boot.entry = eEntry (fileAt m start) % 2 ^ 32
  segment : ∀ p ∈ segments (fileAt m start), ∀ k,
    ∀ hk : k < (segmentBytes (fileAt m start) p).length,
      ∃ a, boot.tables.translate boot.root (toVirt (p.paddr + k)) = some a ∧
        boot.memory a = (segmentBytes (fileAt m start) p)[k]
  low : ∀ a < 0x1000000, boot.tables.translate boot.root a = some a
  below : ∀ a < kernelLoadAddr, boot.memory a = withHeap m heap' maxAddr a
  tables : Linked boot.tables boot.root
  info : boot.info = passedInfo mbd boot.tables (symbolsOf start (sections (fileAt m start)))
  tags : TagsAt boot.memory (mbd + 8) tags

section Preboot

variable {m heap heap' : Mem} {b : State} {bootstrapEnd mbd size start n a : ℕ}
variable {tags : List BootTag} {fb : FramebufferTag}

theorem withHeap_of_lt (ha : a < highest bootstrapEnd (placed (mbd + 8) tags)) :
    withHeap m heap (highest bootstrapEnd (placed (mbd + 8) tags)) a = m a :=
  if_neg fun h => absurd h.1 (Nat.not_le.mpr ha)

/-- What ends at an address in use. -/
theorem le_highest {x : ℕ × BootTag} {e : ℕ} {xs : List (ℕ × BootTag)} (hx : x ∈ xs)
    (he : endOfTag x = some e) : e ≤ highest bootstrapEnd xs := by
  have hlt := (highest_lt_iff.mp (Nat.lt_succ_self (highest bootstrapEnd xs))).2 e
    (List.mem_filterMap.mpr ⟨x, hx, he⟩)
  exact Nat.le_of_lt_succ hlt

namespace Bootable

variable (h : Bootable m bootstrapEnd mbd size start tags fb)
include h

theorem highest_lt : highest bootstrapEnd (placed (mbd + 8) tags) < kernelLoadAddr := by
  have hheap := h.heap
  have htable : tableRoom = 0x4000 := rfl
  rw [initRoom] at hheap
  omega

/-- The kernel's file is in use. -/
theorem file_le : start + size ≤ highest bootstrapEnd (placed (mbd + 8) tags) := by
  obtain ⟨first, last, name, hmem, hle⟩ := h.module
  rw [← map_snd_placed (mbd + 8) tags] at hmem
  obtain ⟨x, hx, hmodule⟩ := List.mem_map.mp hmem
  exact hle.trans (le_highest hx (by rw [endOfTag, hmodule]))

/-- The tags are there whatever is in the heap. -/
theorem tagsAt_withHeap (heap : Mem) :
    TagsAt (withHeap m heap (highest bootstrapEnd (placed (mbd + 8) tags))) (mbd + 8) tags := by
  have hbelow := h.below
  exact h.tagsAt.congr fun b _ hb => withHeap_of_lt (hb.trans_le hbelow)

/-- So is the file. -/
theorem sameFile_withHeap (heap : Mem) : SameFile size (fileAt m start)
    (fileAt (withHeap m heap (highest bootstrapEnd (placed (mbd + 8) tags))) start) := by
  have hfile := h.file_le
  have hlt := h.file.file.2
  intro i hi
  rw [fileAt_eq (by omega), fileAt_eq (by omega)]
  exact withHeap_of_lt (by omega)

/-- **What `load_multiboot` finds.** -/
theorem load (hn : tagsRoom tags < n) : loadMultiboot n m bootstrapEnd bootloaderMagic mbd =
    some (true, foundVars bootstrapEnd (mbd + 8) tags) := by
  have hlt := h.highest_lt
  have hbelow := h.below
  have hlimit : kernelLoadAddr = 0x800000 := rfl
  have hvars := vars_eq bootstrapEnd h.tagsAt (n := n) (by omega) hn
  rw [loadMultiboot, if_neg (not_not.mpr rfl), if_neg h.mbd_ne, Nat.mod_eq_of_lt (by omega), hvars,
    if_pos h.known]
  exact if_pos hlt

/-- **What `memory_init` reads of the framebuffer.** -/
theorem framebuffer_eq (heap : Mem) :
    getFramebufferAddr (withHeap m heap (highest bootstrapEnd (placed (mbd + 8) tags)))
        (foundVars bootstrapEnd (mbd + 8) tags).framebufferTag = (fbRange fb).1 ∧
      getFramebufferSizeBytes (withHeap m heap (highest bootstrapEnd (placed (mbd + 8) tags)))
        (foundVars bootstrapEnd (mbd + 8) tags).framebufferTag = (fbRange fb).2 := by
  obtain ⟨t, ht, hfb⟩ := exists_lastFound (mbd + 8) h.framebuffer
  obtain ⟨width, reserved, rfl⟩ := BootTag.framebuffer?_eq_some hfb
  have hpayload := (h.tagsAt_withHeap heap).payload ht
  obtain ⟨haddr, hrest⟩ := load_uint64 fb.framebufferAddr hpayload
  obtain ⟨hpitch, hrest⟩ := load_uint32 fb.framebufferPitch hrest
  obtain ⟨-, hrest⟩ := load_uint32 width hrest
  obtain ⟨hheight, -⟩ := load_uint32 fb.framebufferHeight hrest
  rw [add_assoc] at hpitch
  rw [add_assoc, add_assoc] at hheight
  exact ⟨congrArg (· % 2 ^ 32) haddr, congrArg₂ (fun x y => x * y % 2 ^ 32) hpitch hheight⟩

/-- The memory of a segment is mapped. -/
theorem placed {p : Phdr} (hp : p ∈ segments (fileAt m start)) (ha : a < p.paddr + room p) :
    (initMappings (totalOf tags) (fbRange fb).1 (fbRange fb).2).translate (toVirt a) = some a := by
  have hheap := h.heap
  rw [initRoom] at hheap
  have htotal : totalOf tags ≤ 2 ^ 38 := totalMemory_le (by omega)
  have hfb : (fbRange fb).1 < 2 ^ 32 := Nat.mod_lt _ (by decide)
  have hroom := h.file.room p hp
  obtain ⟨-, hmemory, hframe⟩ := h.place p hp
  refine (translate_toVirt_iff hfb (by omega) (by omega)).mpr (Or.inr ⟨?_, by omega⟩)
  rintro ⟨q, hle, -, hq⟩
  omega

end Bootable

end Preboot

/-! ### An example -/

/-- The tags of `loadTags` and the kernel of `kernelFile`. -/
def kernelMemory : Mem := fun a => if a < 0x300000 then loadMemory a else fileMemory a

theorem bootable_kernelMemory :
    Bootable kernelMemory 0x120000 0x10000 248 0x300000 loadTags ⟨0xFD000000, 4096, 768⟩ := by
  have htags : TagsAt loadMemory 0x10008 loadTags :=
    recordsAt_image (by decide) (Mem.read_write_self ..)
  have hend : 0x10008 + tagsRoom loadTags + 4 ≤ 0x300000 := by decide
  have hsegments : segments (fileAt kernelMemory 0x300000) =
    [⟨1, 5, 0, 0xFFFFFF8000800000, 0x800000, 3, 5⟩] := rfl
  have hsections : sections (fileAt kernelMemory 0x300000) =
    [⟨2, 64, 48, 24⟩, ⟨3, 112, 8, 0⟩] := rfl
  refine ⟨by decide, htags.congr fun b _ hb => if_pos (hb.trans_le hend), by decide, by decide, rfl,
    rfl, ?_, by decide, ?_, ?_, ?_, by decide⟩
  · exact ⟨0x300000, 0x400000, ⟨kernelName, zero_notMem_kernelName⟩, by simp [loadTags], by decide⟩
  · refine ⟨by decide, by decide, by decide, by decide, by decide, ?_, ?_, ?_, ?_, ?_⟩
    · rw [hsegments]
      decide
    · rw [hsegments]
      decide
    · rw [hsegments]
      decide
    · rw [hsections]
      decide
    · rw [hsections]
      decide
  · rw [hsegments]
    exact List.pairwise_singleton ..
  · rw [hsegments]
    decide

end Bootstrap

end Xana
