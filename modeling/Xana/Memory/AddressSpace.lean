import Xana.Memory.Heap
import Xana.String.Basic

/-!
# Address spaces

The functions of `memory.c` that build, copy, read and release the page tables of
a process: `map_page_kmalloc`, `free_page`, `is_page_free`,
`clone_page_directory` and `free_page_directory`.

The three places where `map_page_kmalloc` allocates a table are one function,
`growTable`; and the three upper levels of the nested loops of
`clone_page_directory` are one, `cloneSlot`, as are those of
`free_page_directory`, `freeSlot`. The functions of the heap that are called are parameters here:
`kmalloc_ap`, `kmalloc_a` and `kfree_a`.
-/

namespace Xana

section Mapping

variable (alloc : Machine → ℕ → Option (ℕ × ℕ × Machine)) (m : Machine)

/-- What each of the first three `if`s of `map_page_kmalloc` does: a table of `size` bytes
is allocated for the slot `i` of `d`, if there is none. -/
def growTable (size : ℕ) (memset : Machine → ℕ → Machine) (d i flags : ℕ) : Option Machine :=
  if (m.dirs d).virt i ≠ 0 then some m
  else do
    let (p, phys, m) ← alloc m size
    let m := memset (m.setVirt d i p) p
    return (m.setFull d i false).setEntry d i (phys ||| flags)

/-- `map_page_kmalloc`. -/
def mapPageKmalloc (virt phys : ℕ) (isKernel isWriteable : Bool) (root : ℕ) :
    Option (Bool × Machine) :=
  let flags := entryFlags isKernel isWriteable
  if m.frameUsed phys then none
  else do
    let m ← growTable alloc m pageDirectorySize Machine.clearDir root (pml4Index virt) flags
    let pdpt := (m.dirs root).virt (pml4Index virt)
    let m ← growTable alloc m pageDirectorySize Machine.clearDir pdpt (pdptIndex virt) flags
    let pd := (m.dirs pdpt).virt (pdptIndex virt)
    let m ← growTable alloc m pageTableSize Machine.clearTab pd (pdIndex virt) flags
    let pt := (m.dirs pd).virt (pdIndex virt)
    return setPage m pt virt phys isKernel isWriteable

/-- `free_page`. -/
def freePage (virt root : ℕ) : Machine :=
  let pdpt := (m.dirs root).virt (pml4Index virt)
  let pd := (m.dirs pdpt).virt (pdptIndex virt)
  let pt := (m.dirs pd).virt (pdIndex virt)
  if pdpt = 0 ∨ pd = 0 ∨ pt = 0 ∨ m.tabs pt (ptIndex virt) = 0 then m
  else
    (m.markFrame (frameAddr (m.tabs pt (ptIndex virt))) false).setPtEntry pt (ptIndex virt) 0

/-- `is_page_free`, where `root` is `current_pml4`. -/
def isPageFree (virt root : ℕ) : Bool :=
  let pdpt := (m.dirs root).virt (pml4Index virt)
  let pd := (m.dirs pdpt).virt (pdptIndex virt)
  let pt := (m.dirs pd).virt (pdIndex virt)
  pdpt == 0 || pd == 0 || pt == 0 || m.tabs pt (ptIndex virt) == 0

end Mapping

/-- `for (i = 0; i < n; i++)`. -/
def forSlots (f : ℕ → Machine → Option Machine) : ℕ → Machine → Option Machine
  | 0, m => some m
  | n + 1, m => do f n (← forSlots f n m)

/-! ### Copying -/

section Cloning

variable (src : FrameSource) (kmallocA : Machine → ℕ → Option (ℕ × Machine))

/-- The body of the innermost loop of `clone_page_directory`: one page is copied. -/
def clonePage (pt new l : ℕ) (m : Machine) : Option Machine :=
  if m.tabs pt l = 0 then some m
  else do
    let phys ← src.next (← m.bitmap)
    let m := m.setPtEntry new l (phys ||| (m.tabs pt l &&& 0xFFF))
    let m := { m with ram := memcpy m.ram phys (frameAddr (m.tabs pt l)) 0x1000 }
    return m.markFrame phys true

/-- A page table is copied, page by page. -/
def cloneTab (pt new : ℕ) (m : Machine) : Option Machine := forSlots (clonePage src pt new) 512 m

/-- The body of the other loops: the slot `i` of `new` is given a table of its own, into
which `copy` copies the one in the slot of `d`. -/
def cloneSlot (size : ℕ) (memset : Machine → ℕ → Machine) (copy : ℕ → ℕ → Machine → Option Machine)
    (d new i : ℕ) (m : Machine) : Option Machine :=
  if (m.dirs d).virt i = 0 then some m
  else do
    let old := (m.dirs d).virt i
    let (p, m) ← kmallocA m size
    let m := (memset m p).setVirt new i p
    let m := m.setEntry new i (virtToPhys m p m.kernelPml4 ||| ((m.dirs d).entries i &&& 0xFFF))
    copy old p (m.setFull new i ((m.dirs d).isFull i))

/-- The body of the loop over a page directory. A 2 MiB page is `unimplemented`. -/
def clonePdSlot (d new i : ℕ) (m : Machine) : Option Machine :=
  if (m.dirs d).virt i = 0 ∧ (m.dirs d).entries i &&& 1 ≠ 0 then none
  else cloneSlot kmallocA pageTableSize Machine.clearTab (cloneTab src) d new i m

/-- A page directory is copied. -/
def clonePd (d new : ℕ) (m : Machine) : Option Machine :=
  forSlots (clonePdSlot src kmallocA d new) 512 m

/-- A page directory pointer table is copied. -/
def clonePdpt (d new : ℕ) (m : Machine) : Option Machine :=
  forSlots (cloneSlot kmallocA pageDirectorySize Machine.clearDir (clonePd src kmallocA) d new) 512
    m

/-- `clone_page_directory`. -/
def clonePageDirectory (directory : ℕ) (m : Machine) : Option (ℕ × Machine) := do
  let (new, m) ← kmallocA m pageDirectorySize
  let m := m.clearDir new
  let m := m.setPhysAddr new (virtToPhys m new m.kernelPml4)
  let m ← forSlots
    (cloneSlot kmallocA pageDirectorySize Machine.clearDir (clonePdpt src kmallocA) directory new)
      511 m
  -- the last entry is the kernel space
  let m := m.setVirt new 511 ((m.dirs directory).virt 511)
  let m := m.setEntry new 511 ((m.dirs directory).entries 511)
  return (new, m.setFull new 511 ((m.dirs directory).isFull 511))

end Cloning

/-! ### Releasing -/

section Releasing

variable (kfreeA : Machine → ℕ → Option Machine)

/-- The body of the innermost loop of `free_page_directory`. -/
def freeEntry (pt l : ℕ) (m : Machine) : Option Machine :=
  if m.tabs pt l = 0 then some m else some (m.markFrame (frameAddr (m.tabs pt l)) false)

/-- The frames of a page table are released, and the table. -/
def freeTab (pt : ℕ) (m : Machine) : Option Machine :=
  do kfreeA (← forSlots (freeEntry pt) 512 m) pt

/-- The body of the other loops. -/
def freeSlot (free : ℕ → Machine → Option Machine) (d i : ℕ) (m : Machine) : Option Machine :=
  if (m.dirs d).virt i = 0 then some m else free ((m.dirs d).virt i) m

/-- A page directory is released. -/
def freePd (d : ℕ) (m : Machine) : Option Machine := do
  kfreeA (← forSlots (freeSlot (freeTab kfreeA) d) 512 m) d

/-- A page directory pointer table is released. -/
def freePdpt (d : ℕ) (m : Machine) : Option Machine := do
  kfreeA (← forSlots (freeSlot (freePd kfreeA) d) 512 m) d

/-- `free_page_directory`. -/
def freePageDirectory (directory : ℕ) (m : Machine) : Option Machine := do
  kfreeA (← forSlots (freeSlot (freePdpt kfreeA) directory) 511 m) directory

end Releasing

end Xana
