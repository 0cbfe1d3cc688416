import Xana.Filesystem.Basic
import Xana.Memory.Heap
import Xana.Memory.AddressSpace
import Xana.Signal.Basic

/-!
# The kernel as processes use it

The state that the calls of `process.c` work on, and `create_process` and `kfork`.

A `process_t` is in three places: its pid, status and links in the process table
(`ProcTable`), its `file_descriptors` in the descriptor tables (`Fs`), and its other
fields in `Kernel.fields`. Blocks are named by their addresses, which the heap of the
`Machine` hands out; the nodes of descriptor tables are `Fs`'s, and come from a choice of
blocks as they do there. What a block holds before it is filled in is what `fields` and
`regions` have at its address, and that may be anything.
-/

namespace Xana

/-- `struct sigaction`. -/
structure SigAction where
  signalHandler : ℕ
  saMask : ℕ
  saFlags : ℤ

/-- `memregion_t`. -/
structure MemRegion where
  start : ℕ
  endAddr : ℕ
  flags : ℕ
  next : Option Addr

/-- The bytes of an `xmm_regs_t`. -/
abbrev XmmRegs := ℕ → UInt8

/-- The fields of a `process_t` that are in no other place, those aside that none of the
functions here reads or writes. `pwd` is the string in that field. -/
structure ProcessFields where
  (gid pgid ppid : ℕ)
  (uid euid fsuid egid fsgid : ℕ)
  pml4 : ℕ
  entry : ℕ
  (rsp rbp : ℕ)
  tssStack : ℕ
  syscallRsp : ℕ
  syscallStack : ℕ
  inSignalHandler : Bool
  syscallRegisters : Signals.Regs
  syscallXmmRegisters : XmmRegs
  pwd : List UInt8
  queuedSignals : ℕ
  signalHandlers : ℕ → SigAction
  signalMask : ℕ
  stackLow : ℕ
  brkStart : ℕ
  memoryRegions : Option Addr

/-- The kernel, with devices in states `σ`. -/
structure Kernel (σ : Type) where
  machine : Machine
  currentPml4 : ℕ
  table : ProcTable
  fields : Addr → ProcessFields
  regions : Addr → MemRegion
  files : Fs σ

/-- `sizeof(process_t)`. -/
def processSize : ℕ := 6272

/-- `sizeof(memregion_t)`. -/
def memRegionSize : ℕ := 32

/-- `SYSCALL_STACK_SIZE`. -/
def syscallStackSize : ℕ := 0x1000

/-- `MAX_STACK_SIZE`. -/
def maxStackSize : ℕ := 0x100000

/-- `SIG_MAX`. -/
def sigMax : ℕ := 31

/-- The loop that clears the signal handlers. -/
def clearHandlers (handlers : ℕ → SigAction) (i : ℕ) : SigAction :=
  if i < sigMax then { handlers i with signalHandler := 0 } else handlers i

/-- The loop that copies the signal handlers of `old`. -/
def copyHandlers (handlers old : ℕ → SigAction) (i : ℕ) : SigAction :=
  if i < sigMax then { handlers i with signalHandler := (old i).signalHandler } else handlers i

/-- `map_page_kmalloc(virt, first_free_page_addr(), false, true, root);` -/
def Machine.mapNew (src : FrameSource) (n : ℕ) (m : Machine) (virt root : ℕ) : Option Machine := do
  let phys ← src.next (← m.bitmap)
  let (_, m) ← mapPageKmalloc (kmallocAp src n) m virt phys false true root
  return m

namespace Kernel

variable {σ : Type}

/-! ### Assignments -/

section Assignments

variable (s : Kernel σ) (a : Addr)

/-- The memory of the machine is changed. -/
def setMachine (m : Machine) : Kernel σ := { s with machine := m }

/-- Fields of the process at `a` are assigned. -/
def setFields (f : ProcessFields) : Kernel σ := { s with fields := Function.update s.fields a f }

/-- Fields of the region at `a` are assigned. -/
def setRegion (r : MemRegion) : Kernel σ := { s with regions := Function.update s.regions a r }

/-- Those of its fields that the process table has are assigned. -/
def setProcess (p : Process) : Kernel σ :=
  { s with table := { s.table with procs := Function.update s.table.procs a p } }

/-- `current_process`. -/
def currentProcess (s : Kernel σ) : Addr := s.table.currentProcess

/-- More steps than a list of blocks in use can have. -/
def fuel (s : Kernel σ) : ℕ := s.machine.live.length + 1

end Assignments

/-! ### The functions -/

section Functions

variable (src : FrameSource) (n : ℕ) (s : Kernel σ)

/-- `kmalloc`. -/
def kmalloc (size : ℕ) : Option (Addr × Kernel σ) := do
  let (p, m) ← Xana.kmalloc src n s.machine size
  return (p, s.setMachine m)

/-- The loop of `create_process` that maps the stack, with `k` rounds done. The products are
those of 32-bit numbers. -/
def mapStack (pml4 : ℕ) : ℕ → Machine → Option Machine
  | 0, m => some m
  | k + 1, m => do
      let m ← mapStack pml4 k m
      m.mapNew src n (virtMemOffset - (k + 1) * 0x1000 % 2 ^ 32) pml4

/-- What `create_process` does for a process that has no stack yet. -/
def createStack (a : Addr) (stackSize pml4 : ℕ) : Option (Kernel σ) := do
  let pages :=
    (if stackSize &&& 0xFFF ≠ 0 then (stackSize >>> 12) + 1 else stackSize >>> 12) % 2 ^ 32
  let s := s.setMachine (← mapStack src n pml4 pages s.machine)
  let (region, s) ← s.kmalloc src n memRegionSize
  let s := s.setRegion region
    ⟨virtMemOffset - maxStackSize, virtMemOffset - 1, 7, (s.fields a).memoryRegions⟩
  return s.setFields a
    { s.fields a with
      stackLow := virtMemOffset - pages * 0x1000 % 2 ^ 32
      rsp := virtMemOffset
      rbp := virtMemOffset
      memoryRegions := some region }

/-- `create_process`. -/
def createProcess (entry stackSize pml4 : ℕ) (hasStack : Bool) (regions : Option Addr) :
    Option (Addr × Kernel σ) := do
  let pid := s.table.firstFreePid
  let (new, s) ← s.kmalloc src n processSize
  let (tssStack, s) ← s.kmalloc src n syscallStackSize
  let (syscallStack, s) ← s.kmalloc src n syscallStackSize
  let s := s.setProcess new ⟨pid, .initial, none⟩
  let s := s.setFields new
    { s.fields new with
      entry := entry
      pml4 := pml4
      tssStack := tssStack
      syscallStack := syscallStack
      inSignalHandler := false
      queuedSignals := 0
      signalHandlers := clearHandlers (s.fields new).signalHandlers
      pwd := [47]
      memoryRegions := regions }
  let s := { s with files := s.files.setHead new none }
  if hasStack then
    return (new, s.setFields new { s.fields new with rsp := stackSize, rbp := stackSize })
  else
    return (new, ← s.createStack src n new stackSize pml4)

/-- `if (new_regions == NULL) new_regions = new; else new_current->next = new;`, with what
`new_regions` then is. -/
def appendRegion (newRegions newCurrent : Option Addr) (new : Addr) :
    Option (Option Addr × Kernel σ) :=
  match newRegions with
  | none => some (some new, s)
  | some first => do
      let last ← newCurrent
      return (some first, s.setRegion last { s.regions last with next := some new })

/-- The loop of `kfork` that copies the regions: `newRegions` is the list built so far, and
`newCurrent` its last node. -/
def copyRegions : ℕ → Option Addr → Option Addr → Option Addr → Kernel σ →
    Option (Option Addr × Kernel σ)
  | 0, _, _, _, _ => none
  | _ + 1, none, newRegions, _, s => some (newRegions, s)
  | k + 1, some old, newRegions, newCurrent, s => do
      let (new, s) ← s.kmalloc src n memRegionSize
      let s := s.setRegion new { s.regions old with next := none }
      let (newRegions, s) ← s.appendRegion newRegions newCurrent new
      copyRegions k (s.regions old).next newRegions (some new) s

variable (v : Vfs σ) (mk : Kmalloc)

/-- `kfork`, with the process it makes, whose pid it returns. `rip` is what `read_rip`
returns. -/
def kfork (rip : ℕ) : Option (Addr × Kernel σ) := do
  let (newPml4, m) ← clonePageDirectory src (kmallocA src n) s.currentPml4 s.machine
  let s := s.setMachine m
  let current := s.currentProcess
  let (newRegions, s) ←
    copyRegions src n s.fuel (s.fields current).memoryRegions none none s
  let (new, s) ← s.createProcess src n 0 0 newPml4 true newRegions
  let s := s.setProcess new { s.table.procs new with status := .forked, queueNext := none }
  let old := s.fields current
  let s := s.setFields new
    { s.fields new with
      entry := rip
      syscallRsp := old.syscallRsp
      syscallRegisters := old.syscallRegisters
      syscallXmmRegisters := old.syscallXmmRegisters
      stackLow := old.stackLow
      queuedSignals := 0
      inSignalHandler := false
      signalHandlers := copyHandlers (s.fields new).signalHandlers old.signalHandlers
      pwd := old.pwd
      ppid := (s.table.procs current).pid }
  let files ← s.files.kfork v mk current new
  let table ← s.table.addProcess new
  return (new, { s with files := files, table := table })

end Functions

end Kernel

end Xana
