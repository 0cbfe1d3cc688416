import Xana.Memory.Header
import Xana.Memory.Paging

/-!
# The kernel heap

`kmalloc_int`, `kfree_int` and `heap_expand`, on headers in memory. The three
places where `kmalloc_int` cuts a block in two are one function, `splitHeader`,
and the two merges of `kfree_int` are `absorb`.

A walk over the list of headers ends at `NULL`; it is given the number of bytes of
the heap as its number of rounds. `kmalloc_int` calls `heap_expand`, which may
call `kmalloc_a`, and then calls itself: the model gives it a number of such
calls. A call that needs more has no result, and neither has one that a `kassert`
or `kpanic` stops.
-/

namespace Xana

open Mem

/-- `(a + 0xFFF) & 0xFFFFFFFFFFFFF000`. -/
def alignUp (a : ℕ) : ℕ := (a + 0xFFF) % 2 ^ 64 &&& 0xFFFFFFFFFFFFF000

/-! ### Cutting and merging -/

/-- A block is cut in two: the header at `new` is put behind the one at `h`, with
the length `newLength`, and `h` is left the length `length`. -/
def splitHeader (m : Mem) (h new newLength : ℕ) (free : Bool) (length : ℕ) : Mem :=
  let m := setMagic m new heapMagic
  let m := setLength m new newLength
  let m := setNext m new (header m h).next
  let m := setPrev m new h
  let m := setFree m new free
  let m := if (header m h).next ≠ 0 then setPrev m (header m h).next new else m
  let m := setNext m h new
  setLength m h length

/-- The header at `n` is taken off the list, and its block added to the one at `h`
before it. -/
def absorb (m : Mem) (h n : ℕ) : Mem :=
  let m := setLength m h ((header m h).length + (header m n).length + heapHeaderSize)
  let m := setNext m h (header m n).next
  if (header m h).next ≠ 0 then setPrev m (header m h).next h else m

/-! ### Walks -/

/-- `for (header = h; header != NULL; header = header->next)`, up to the first
header that fits. -/
def findHeader (m : Mem) (fits : ℕ → Bool) : ℕ → ℕ → Option (Option ℕ)
  | 0, _ => none
  | n + 1, h =>
      if h = 0 then some none
      else if fits h then some (some h)
      else findHeader m fits n (header m h).next

/-- `while (header->next != NULL)`. -/
def lastHeader (m : Mem) : ℕ → ℕ → Option ℕ
  | 0, _ => none
  | n + 1, h => if (header m h).next = 0 then some h else lastHeader m n (header m h).next

/-- `while (header->magic != HEAP_MAGIC) header = header - 1`. -/
def findMagic (m : Mem) : ℕ → ℕ → Option ℕ
  | 0, _ => none
  | n + 1, h => if (header m h).magic = heapMagic then some h else findMagic m n (h - 1)

/-- The test of the loop for aligned requests. -/
def fitsAligned (m : Mem) (size h : ℕ) : Bool :=
  (alignUp (h + heapHeaderSize) + size) % 2 ^ 64 ≤ h + heapHeaderSize + (header m h).length &&
    (header m h).free

/-- The test of the loop for other requests. -/
def fitsUnaligned (m : Mem) (size h : ℕ) : Bool :=
  size ≤ (header m h).length && (header m h).free

/-! ### Taking a block -/

/-- How an aligned request ends: if there is space behind it for another header, the
block is cut there. -/
def cutTail (m : Mem) (h ptr size : ℕ) : Mem :=
  let blockEnd := h + heapHeaderSize + (header m h).length
  let m :=
    if heapHeaderSize < blockEnd - (ptr + size) then
      splitHeader m h (ptr + size) (blockEnd - (ptr + size + heapHeaderSize)) true
        (ptr + size - (h + heapHeaderSize))
    else m
  setFree m h false

/-- What is done with the header found for an aligned request. -/
def takeAligned (m : Mem) (size h : ℕ) : Option Mem := do
  let aligned := alignUp (h + heapHeaderSize)
  let blockEnd := h + heapHeaderSize + (header m h).length
  -- is there space before the aligned address for another header?
  let (m, h) ←
    if heapHeaderSize + heapHeaderSize < aligned - h then
      let new := aligned - heapHeaderSize
      let sizeOld := aligned - heapHeaderSize - (h + heapHeaderSize)
      let sizeNew := blockEnd - aligned
      if sizeNew = 0 ∨ sizeOld = 0 ∨ sizeNew < size then none
      else some (splitHeader m h new sizeNew false sizeOld, new)
    else some (m, h)
  return cutTail m h aligned size

/-- What is done with the header found for another request. -/
def takeUnaligned (m : Mem) (size h : ℕ) : Mem :=
  let m :=
    if size + heapHeaderSize < (header m h).length then
      splitHeader m h (h + heapHeaderSize + size) ((header m h).length - size - heapHeaderSize)
        true size
    else m
  setFree m h false

/-- What is done with the header found. -/
def takeBlock (m : Mem) (size h : ℕ) (align : Bool) : Option Mem :=
  if align then takeAligned m size h else some (takeUnaligned m size h)

namespace Machine

/-- The number of rounds of a walk over the headers. -/
def heapBytes (m : Machine) : ℕ := m.kheapEnd - m.kheap + 1

/-- The search of `kmalloc_int`, and what is done with the block it finds; `none`
inside when there is none. -/
def tryAlloc (m : Machine) (size : ℕ) (align : Bool) : Option (Option (ℕ × Machine)) := do
  let fits := if align then fitsAligned m.mem size else fitsUnaligned m.mem size
  match ← findHeader m.mem fits m.heapBytes m.kheap with
  | none => return none
  | some h =>
      let ptr := if align then alignUp (h + heapHeaderSize) else h + heapHeaderSize
      let mem ← takeBlock m.mem size h align
      return some (ptr, { m with mem := mem, live := ⟨ptr, size, align⟩ :: m.live })

end Machine

/-! ### The functions -/

section Functions

variable (src : FrameSource)

/-- The loop of `heap_expand` that maps pages, with `n` rounds to go. -/
def expandPages : ℕ → Machine → Option Machine
  | 0, m => some m
  | n + 1, m => do
      let phys ← src.next (← m.bitmap)
      let (ok, m) ← mapPagePrealloc m (m.kheapEnd + 1) phys true true m.kernelPml4
      if ok then expandPages n { m with kheapEnd := m.kheapEnd + 0x1000 } else none

/-- The last header takes the new pages, or a new header is put behind it. -/
def growLast (m : Machine) (oldEnd : ℕ) : Option Machine := do
  let h ← lastHeader m.mem m.heapBytes m.kheap
  if (header m.mem h).free then
    return { m with mem := setLength m.mem h ((header m.mem h).length + 0x200000) }
  else
    let mem := setMagic m.mem oldEnd heapMagic
    let mem := setLength mem oldEnd (0x200000 - heapHeaderSize)
    let mem := setFree mem oldEnd true
    let mem := setNext mem oldEnd 0
    let mem := setPrev mem oldEnd h
    return { m with mem := setNext mem h oldEnd }

section Preallocs

variable (kmallocA : Machine → ℕ → Option (ℕ × Machine)) (m : Machine)

/-- The `if` for `prealloc_pt` at the end of `heap_expand` and of `memory_init`, where
`kmallocA` is `kmalloc_a`. -/
def refillPt : Option Machine :=
  if m.preallocPt = 0 then do
    let (p, m) ← kmallocA m pageTableSize
    return { m with preallocPt := p }.clearTab p
  else some m

/-- The `if` for `prealloc_pd`. -/
def refillPd : Option Machine :=
  if m.preallocPd = 0 then do
    let (p, m) ← kmallocA m pageDirectorySize
    return { m with preallocPd := p }.clearDir p
  else some m

/-- The `if` for `prealloc_pdpt`. -/
def refillPdpt : Option Machine :=
  if m.preallocPdpt = 0 then do
    let (p, m) ← kmallocA m pageDirectorySize
    return { m with preallocPdpt := p }.clearDir p
  else some m

end Preallocs

/-- `heap_expand`, where `kmallocA` is `kmalloc_a`. -/
def heapExpand (kmallocA : Machine → ℕ → Option (ℕ × Machine)) (m : Machine) : Option Machine := do
  let oldEnd := m.kheapEnd
  let m ← expandPages src 512 m
  let m ← growLast m oldEnd
  let m ← refillPt kmallocA m
  let m ← refillPd kmallocA m
  refillPdpt kmallocA m

/-- `kmalloc_int` before there is a heap. -/
def bootAlloc (m : Machine) (size : ℕ) (align : Bool) : ℕ × Machine :=
  let oldEnd :=
    if align then
      if m.kheapEnd &&& 0xFFF ≠ 0 then (m.kheapEnd &&& 0xFFFFFFFFFFFFF000) + 0x1000 else m.kheapEnd
    else m.kheapEnd
  (oldEnd, { m with kheapEnd := oldEnd + size })

/-- `kmalloc_int`, less the physical address. -/
def kmallocInt : ℕ → Machine → ℕ → Bool → Option (ℕ × Machine)
  | 0, _, _, _ => none
  | n + 1, m, size, align => do
      if m.kheap = 0 then return bootAlloc m size align
      match ← m.tryAlloc size align with
      | some r => return r
      | none =>
          let m ← heapExpand src (fun m size => kmallocInt n m size true) m
          kmallocInt n m size align

/-- `kmalloc`. -/
def kmalloc (n : ℕ) (m : Machine) (size : ℕ) : Option (ℕ × Machine) := kmallocInt src n m size false

/-- `kmalloc_a`. -/
def kmallocA (n : ℕ) (m : Machine) (size : ℕ) : Option (ℕ × Machine) := kmallocInt src n m size true

/-- `kmalloc_ap`: the address, and the physical address. -/
def kmallocAp (n : ℕ) (m : Machine) (size : ℕ) : Option (ℕ × ℕ × Machine) := do
  let (p, m') ← kmallocInt src n m size true
  let phys := if m.kheap = 0 then p - virtMemOffset else virtToPhys m' p m'.kernelPml4
  return (p, phys, m')

end Functions

/-- What `kfree_int` does from the header on. -/
def freeHeader (m : Mem) (h : ℕ) : Mem :=
  let m := setFree m h true
  let m :=
    if (header m h).next ≠ 0 ∧ (header m (header m h).next).free then absorb m h (header m h).next
    else m
  if (header m h).prev ≠ 0 ∧ (header m (header m h).prev).free then absorb m (header m h).prev h
  else m

/-- `kfree_int`. -/
def kfreeInt (m : Machine) (ptr : ℕ) (unaligned : Bool) : Option Machine :=
  if m.kheap = 0 then none
  else do
    let h := ptr - heapHeaderSize
    let h ←
      if unaligned then do
        let h ← findMagic m.mem (ptr + 1) h
        if heapHeaderSize < ptr - h then none else some h
      else if (header m.mem h).magic = heapMagic then some h
      else none
    return { m with
      mem := freeHeader m.mem h
      live := without m.live ptr }

/-- `kfree`. -/
def kfree (m : Machine) (ptr : ℕ) : Option Machine := kfreeInt m ptr false

/-- `kfree_a`. -/
def kfreeA (m : Machine) (ptr : ℕ) : Option Machine := kfreeInt m ptr true

/-! ### Setting up -/

section Setup

variable (src : FrameSource)

/-- The loop of `memory_init` that maps the first pages, with `n` rounds to go. -/
def initPages : ℕ → ℕ → Machine → Option Machine
  | 0, _, m => some m
  | n + 1, i, m => do
      let phys ← src.next (← m.bitmap)
      let (ok, m) ← mapPagePrealloc m i phys true true m.kernelPml4
      if ok then initPages n (i + 0x1000) m else none

/-- The part of `memory_init` that builds the heap at `kheap`. -/
def initHeap (m : Machine) (kheap : ℕ) : Option Machine := do
  let kheapEnd := kheap + 512 * 0x1000 - 1
  let m ← initPages src 512 kheap { m with kheap := kheap, kheapEnd := kheapEnd, live := [] }
  let mem := setMagic m.mem kheap heapMagic
  let mem := setLength mem kheap (kheapEnd - kheap - heapHeaderSize)
  let mem := setFree mem kheap true
  let mem := setNext mem kheap 0
  return { m with mem := setPrev mem kheap 0 }

/-- The part of `memory_init` behind it. -/
def initPreallocs (n : ℕ) (m : Machine) : Option Machine := do
  let m ← refillPd (kmallocA src n) m
  let m ← refillPdpt (kmallocA src n) m
  refillPt (kmallocA src n) m

end Setup

end Xana
