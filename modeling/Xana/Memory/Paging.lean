import Mathlib.Logic.Function.Basic
import Xana.Lib.Memory
import Xana.Lib.Tiling

/-!
# Page tables

The machine as `memory.c` sees it, and the part of it that works on page tables
without allocating: `virt_to_phys` and `map_page_prealloc`.

A page directory and a page table are objects at an address, kept in a store of
their own each (`Machine.dirs`, `Machine.tabs`); all other memory is bytes: the
heap at its virtual addresses (`Machine.mem`), and the frames of user pages at
their physical ones, which the kernel sees from `VIRT_MEM_OFFSET` on
(`Machine.ram`). The frame bitmap says which frames are used. A `kassert` that
fails stops the kernel: then there is no result.
-/

namespace Xana

/-- `VIRT_MEM_OFFSET`. -/
def virtMemOffset : ℕ := 0xFFFFFF8000000000

/-- `page_directory_t`. -/
structure PageDirectory where
  entries : ℕ → ℕ
  virt : ℕ → ℕ
  isFull : ℕ → Bool
  physAddr : ℕ

/-- A directory after `memset`. -/
def PageDirectory.zero : PageDirectory where
  entries := fun _ => 0
  virt := fun _ => 0
  isFull := fun _ => false
  physAddr := 0

/-- `page_table_t`. -/
abbrev PageTable := ℕ → ℕ

/-- `sizeof(page_directory_t)`. -/
def pageDirectorySize : ℕ := 8712

/-- `sizeof(page_table_t)`. -/
def pageTableSize : ℕ := 4096

/-- The variables of `memory.c` and the memory they lead to. `live` is a history:
what has been allocated and not been freed. -/
structure Machine where
  mem : Mem
  ram : Mem
  kheap : ℕ
  kheapEnd : ℕ
  live : List Chunk
  dirs : ℕ → PageDirectory
  tabs : ℕ → PageTable
  kernelPml4 : ℕ
  preallocPdpt : ℕ
  preallocPd : ℕ
  preallocPt : ℕ
  /-- `phys_mem_bitmap`, by frame number. -/
  bitmap : Option (ℕ → Bool)

/-- **`first_free_page_addr`**, which depends on the bitmap, and returns the
address of a frame whose bit is clear, or stops the kernel. -/
structure FrameSource where
  next : (ℕ → Bool) → Option ℕ
  clear : ∀ {b : ℕ → Bool} {phys : ℕ}, next b = some phys → b (phys / 0x1000) = false
  aligned : ∀ {b : ℕ → Bool} {phys : ℕ}, next b = some phys → phys % 0x1000 = 0
  lt : ∀ {b : ℕ → Bool} {phys : ℕ}, next b = some phys → phys < 2 ^ 52

/-- A pointer, or `NULL`. -/
def pointer (p : ℕ) : Option ℕ := if p = 0 then none else some p

@[simp] theorem pointer_zero : pointer 0 = none := rfl

theorem pointer_of_pos {p : ℕ} (h : 0 < p) : pointer p = some p := if_neg h.ne'

theorem pointer_eq_none {p : ℕ} : pointer p = none ↔ p = 0 := by
  rw [pointer]
  split_ifs with h <;> simp [h]

theorem pointer_eq_some {p a : ℕ} : pointer p = some a ↔ p = a ∧ p ≠ 0 := by
  rw [pointer]
  split_ifs with h <;> simp [h]

/-! ### Indices -/

section Indices

variable (virt : ℕ)

/-- `pml4_index`. -/
def pml4Index : ℕ := (virt >>> 39) &&& 0x1FF

/-- `pdpt_index`. -/
def pdptIndex : ℕ := (virt >>> 30) &&& 0x1FF

/-- `pd_index`. -/
def pdIndex : ℕ := (virt >>> 21) &&& 0x1FF

/-- `pt_index`. -/
def ptIndex : ℕ := (virt >>> 12) &&& 0x1FF

end Indices

section Indices

variable {virt : ℕ}

theorem and_indexMask (n : ℕ) : n &&& 0x1FF = n % 512 := Nat.and_two_pow_sub_one_eq_mod n 9

theorem pml4Index_eq : pml4Index virt = virt / 2 ^ 39 % 512 := by
  rw [pml4Index, and_indexMask, Nat.shiftRight_eq_div_pow]

theorem pdptIndex_eq : pdptIndex virt = virt / 2 ^ 30 % 512 := by
  rw [pdptIndex, and_indexMask, Nat.shiftRight_eq_div_pow]

theorem pdIndex_eq : pdIndex virt = virt / 2 ^ 21 % 512 := by
  rw [pdIndex, and_indexMask, Nat.shiftRight_eq_div_pow]

theorem ptIndex_eq : ptIndex virt = virt / 2 ^ 12 % 512 := by
  rw [ptIndex, and_indexMask, Nat.shiftRight_eq_div_pow]

end Indices

/-- The flags of an entry. -/
def entryFlags (isKernel isWriteable : Bool) : ℕ :=
  (if isWriteable then 1 <<< 1 else 0) ||| (if isKernel then 0 else 1 <<< 2) ||| 1

/-- The address of a frame in an entry: `& 0xFFFFFFFFFFFFF000`. -/
def frameAddr (entry : ℕ) : ℕ := entry &&& 0xFFFFFFFFFFFFF000

/-! ### Assignments -/

namespace Machine

variable (m : Machine) (d i v : ℕ)

/-- `d->virt[i] = v;` -/
def setVirt : Machine :=
  { m with
    dirs := Function.update m.dirs d
      { m.dirs d with virt := Function.update (m.dirs d).virt i v } }

/-- `d->entries[i] = v;` -/
def setEntry : Machine :=
  { m with
    dirs := Function.update m.dirs d
      { m.dirs d with entries := Function.update (m.dirs d).entries i v } }

/-- `d->is_full[i] = full;` -/
def setFull (full : Bool) : Machine :=
  { m with
    dirs := Function.update m.dirs d
      { m.dirs d with isFull := Function.update (m.dirs d).isFull i full } }

/-- `d->phys_addr = v;` -/
def setPhysAddr : Machine :=
  { m with dirs := Function.update m.dirs d { m.dirs d with physAddr := v } }

/-- `d->pt_entry[i] = v;` -/
def setPtEntry : Machine :=
  { m with tabs := Function.update m.tabs d (Function.update (m.tabs d) i v) }

/-- `memset(d, 0, sizeof(page_directory_t));` -/
def clearDir : Machine := { m with dirs := Function.update m.dirs d PageDirectory.zero }

/-- `memset(d, 0, sizeof(page_table_t));` -/
def clearTab : Machine := { m with tabs := Function.update m.tabs d fun _ => 0 }

/-- Whether the bit of the frame at `phys` is set. -/
def frameUsed (phys : ℕ) : Bool :=
  match m.bitmap with
  | none => false
  | some b => b (phys / 0x1000)

theorem frameUsed_congr {m m' : Machine} {phys : ℕ} (h : m'.bitmap = m.bitmap) :
    m'.frameUsed phys = m.frameUsed phys := by rw [frameUsed, frameUsed, h]

/-- The bit of the frame at `phys` set or cleared, if there is a bitmap. -/
def markFrame (phys : ℕ) (used : Bool) : Machine :=
  { m with bitmap := m.bitmap.map fun b => Function.update b (phys / 0x1000) used }

end Machine

/-! ### The functions -/

section Functions

variable (m : Machine)

/-- `virt_to_phys`. -/
def virtToPhys (virt pd : ℕ) : ℕ :=
  let pdpt := (m.dirs pd).virt (pml4Index virt)
  if pdpt = 0 then 2 ^ 64 - 1
  else
    let pd' := (m.dirs pdpt).virt (pdptIndex virt)
    if pd' = 0 then 2 ^ 64 - 1
    else
      let pt := (m.dirs pd').virt (pdIndex virt)
      if pt = 0 then
        let entry := (m.dirs pd').entries (pdIndex virt)
        if entry &&& 1 ≠ 0 then (entry &&& 0xFFFFFFFFFFE00000) + (virt &&& 0x1FFFFF)
        else 2 ^ 64 - 1
      else if m.tabs pt (ptIndex virt) = 0 then 2 ^ 64 - 1
      else frameAddr (m.tabs pt (ptIndex virt)) + (virt &&& 0xFFF)

/-- What each of the first three `if`s of `map_page_prealloc` does: the table at `p`
is put in slot `i` of `d`, by `memset` made empty, and is no longer there to be
used. -/
def usePrealloc (p : ℕ) (memset drop : Machine → Machine) (root d i : ℕ) : Option Machine :=
  if (m.dirs d).virt i ≠ 0 then some m
  else if p = 0 then none
  else
    let m := ((memset (m.setVirt d i p)).setFull d i false)
    some (drop (m.setEntry d i (virtToPhys m p root ||| 0x3)))

/-- The `if` for the page directory pointer table. -/
def usePreallocPdpt (root i : ℕ) : Option Machine :=
  usePrealloc m m.preallocPdpt (·.clearDir m.preallocPdpt) ({ · with preallocPdpt := 0 })
    root root i

/-- The `if` for the page directory. -/
def usePreallocPd (root d i : ℕ) : Option Machine :=
  usePrealloc m m.preallocPd (·.clearDir m.preallocPd) ({ · with preallocPd := 0 }) root d i

/-- The `if` for the page table. -/
def usePreallocPt (root d i : ℕ) : Option Machine :=
  usePrealloc m m.preallocPt (·.clearTab m.preallocPt) ({ · with preallocPt := 0 }) root d i

/-- What `map_page_prealloc` and `map_page_kmalloc` end with. -/
def setPage (pt virt phys : ℕ) (isKernel isWriteable : Bool) : Bool × Machine :=
  if m.tabs pt (ptIndex virt) ≠ 0 then (false, m)
  else
    (true, (m.setPtEntry pt (ptIndex virt)
      (frameAddr phys ||| entryFlags isKernel isWriteable)).markFrame phys true)

/-- `map_page_prealloc`. -/
def mapPagePrealloc (virt phys : ℕ) (isKernel isWriteable : Bool) (root : ℕ) :
    Option (Bool × Machine) :=
  if m.frameUsed phys then none
  else do
    let m ← usePreallocPdpt m root (pml4Index virt)
    let pdpt := (m.dirs root).virt (pml4Index virt)
    let m ← usePreallocPd m root pdpt (pdptIndex virt)
    let pd := (m.dirs pdpt).virt (pdptIndex virt)
    let m ← usePreallocPt m root pd (pdIndex virt)
    let pt := (m.dirs pd).virt (pdIndex virt)
    return setPage m pt virt phys isKernel isWriteable

end Functions

end Xana
