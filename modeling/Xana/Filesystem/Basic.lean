import Mathlib.Data.Finset.Card
import Mathlib.Data.Int.Basic
import Xana.Lib.Chain
import Xana.Process.Basic

/-!
# File descriptors

The descriptor tables of `filesystem.c`: `add_descriptor`, `kfopen`, `kfclose`,
`kdup2`, `kfstat`, `kstat`, `clone_file_descriptors` (which is what `kfork` does to
a table), and `kpipe` of `pipe.c`.

A table is a singly linked list of `file_descriptor_t`, edited by hand through
`next` pointers. The model keeps the pointers: `Fs.next` is the `next` field of
every node, `Fs.heads` the `file_descriptors` field of every process, and
`Fs.entry` the other fields. `kmalloc` hands out any block that is not in use, and
`kfree` gives a block back and leaves its bytes, which `kdup2` relies on: it reads
the `next` field of a node that `kfclose` has just freed.

Devices are records of callbacks, any of which may be missing, over a state `σ`
of their own; what a callback may do is anything but touch the tables. The path
a name resolves to, and the pipe that `kpipe` makes, are parameters as well
(`Vfs`). A callback that panics, a call through a missing callback that the code
does not test for, and a loop that never ends leave no result.
-/

namespace Xana

/-- The fields of a `file_descriptor_t`, `next` aside. `device` names a
`device_t`, and `data` is a pointer. -/
structure Entry where
  descriptorId : ℤ
  flags : ℕ
  device : ℕ
  data : ℕ
  deriving DecidableEq, Repr

/-- The `pointer_int_t` an `open` callback returns: its `value` is `0`, or the
negation of an error number. -/
structure Opened where
  pointer : ℕ
  value : ℤ
  value_le : value ≤ 0

/-- The callbacks of a `device_t` that these functions call, each possibly
`NULL`. Nobody looks at what a `close` callback returns. -/
structure Device (σ : Type) where
  openFunc : Option (List UInt8 → ℕ → σ → Option (Opened × σ))
  closeFunc : Option (ℕ → σ → Option σ)
  dupFunc : Option (ℕ → σ → Option (ℕ × σ))
  cloneFunc : Option (ℕ → σ → Option (ℕ × σ))
  statFunc : Option (ℕ → σ → Option (ℤ × σ))

/-- A choice of blocks for `kmalloc` to hand out: some block not in use. -/
structure Kmalloc where
  addr : Finset Addr → Addr
  fresh : ∀ blocks, addr blocks ∉ blocks

/-- What the functions of this file are given: the devices, the two pipe devices
among them, the device a path leads to for a process (with the rest of the path;
none is a `NULL` device), and the making of a pipe. -/
structure Vfs (σ : Type) where
  device : ℕ → Device σ
  pipeDeviceIn : ℕ
  pipeDeviceOut : ℕ
  getPathDevice : List UInt8 → ℕ → σ → Option (Option (ℕ × List UInt8))
  newPipe : Kmalloc → σ → ℕ × σ

/-- The descriptor tables of all processes. -/
structure Fs (σ : Type) where
  /-- The nodes, `next` aside. -/
  entry : Addr → Entry
  /-- The `next` fields. -/
  next : Addr → Option Addr
  /-- The blocks in use. -/
  allocated : Finset Addr
  /-- The processes there are. -/
  procs : Finset ℕ
  /-- The `file_descriptors` field of each process. -/
  heads : ℕ → Option Addr
  /-- The state of the devices. -/
  dev : σ

/-- `ENOENT`. -/
def eNOENT : ℤ := 2

/-- `EBADF`. -/
def eBADF : ℤ := 9

/-- `EOPNOTSUPP`. -/
def eOPNOTSUPP : ℤ := 95

/-- `flags & ~O_CLOEXEC`. -/
def dropCloexec (flags : ℕ) : ℕ := flags &&& (0xFFFFFFFFFFFFFFFF - 0o2000000)

namespace Fs

variable {σ : Type}

/-! ### Fields -/

section Fields

variable (s : Fs σ) (a : Addr) (p : ℕ) (q : Option Addr)

/-- The `descriptor_id` of a node. -/
def id (s : Fs σ) (a : Addr) : ℤ := (s.entry a).descriptorId

/-- Fill in a node, its `next` field aside. -/
def setEntry (e : Entry) : Fs σ := { s with entry := Function.update s.entry a e }

/-- `fd->descriptor_id = id`. -/
def setId (i : ℤ) : Fs σ := s.setEntry a { s.entry a with descriptorId := i }

/-- `fd->next = q`. -/
def setNext : Fs σ := { s with next := Function.update s.next a q }

/-- `process->file_descriptors = q`. -/
def setHead : Fs σ := { s with heads := Function.update s.heads p q }

/-- The states of the devices. -/
def setDev (dev : σ) : Fs σ := { s with dev := dev }

/-- `if (prev == NULL) process->file_descriptors = q; else prev->next = q;` -/
def link (prev : Option Addr) : Fs σ :=
  match prev with
  | none => s.setHead p q
  | some a => s.setNext a q

/-- `kmalloc(sizeof(file_descriptor_t))`. -/
def kmalloc (m : Kmalloc) : Addr × Fs σ :=
  (m.addr s.allocated, { s with allocated := insert (m.addr s.allocated) s.allocated })

/-- `kfree`. -/
def kfree : Fs σ := { s with allocated := s.allocated.erase a }

/-- More steps than a list of nodes in use can have. -/
def fuel : ℕ := s.allocated.card + 1

end Fields

/-! ### The functions -/

section Functions

variable (v : Vfs σ) (m : Kmalloc) (p : ℕ) (s : Fs σ)

/-- The loop that looks for a descriptor: the node before, and the node. -/
def findDescriptor (fd : ℤ) : Option (Option Addr × Option Addr) :=
  Chain.walk s.next (fun _ current => decide (s.id current = fd)) s.fuel none (s.heads p)

/-- The condition on which the loop of `add_descriptor` stops. -/
def gapBefore (prev : Option Addr) (current : Addr) : Bool :=
  match prev with
  | none => false
  | some prev => decide (s.id prev + 1 < s.id current)

/-- `add_descriptor`: the node goes into the first gap between two neighbours, or
to the end. Both ways it is linked behind `prev`. -/
def addDescriptor (fd : Addr) : Option (ℤ × Fs σ) :=
  match s.heads p with
  | none => some (0, ((s.setId fd 0).setNext fd none).setHead p (some fd))
  | some _ => do
      let (prev, current) ← Chain.walk s.next s.gapBefore s.fuel none (s.heads p)
      let prev ← prev
      let descriptorId := s.id prev + 1
      return (descriptorId, ((s.setId fd descriptorId).setNext fd current).setNext prev (some fd))

/-- `kfopen`. -/
def kfopen (path : List UInt8) (flags : ℕ) : Option (ℤ × Fs σ) := do
  match ← v.getPathDevice path p s.dev with
  | none => return (-eNOENT, s)
  | some (device, rest) =>
    match (v.device device).openFunc with
    | none => return (-eOPNOTSUPP, s)
    | some openFunc =>
      let (returned, dev) ← openFunc rest flags s.dev
      if returned.value ≠ 0 then return (returned.value, s.setDev dev)
      else
        let (fd, s) := (s.setDev dev).kmalloc m
        addDescriptor p (s.setEntry fd ⟨0, flags, device, returned.pointer⟩) fd

/-- The `close` callback of a descriptor, if its device has one. -/
def callClose (e : Entry) (dev : σ) : Option σ :=
  match (v.device e.device).closeFunc with
  | none => some dev
  | some closeFunc => closeFunc e.data dev

/-- `kfclose`. -/
def kfclose (fd : ℤ) : Option (ℤ × Fs σ) := do
  let (prev, current) ← s.findDescriptor p fd
  match current with
  | none => return (-eBADF, s)
  | some current =>
    let dev ← callClose v (s.entry current) s.dev
    return (0, ((s.setDev dev).link p (s.next current) prev).kfree current)

/-- The condition on which the inner loop of `kdup2` stops, in any of its three
branches. -/
def placeFor (newfd : ℤ) (current : Addr) : Bool :=
  decide (s.id current = newfd) || decide (newfd < s.id current) || (s.next current).isNone

/-- The inner loop of `kdup2`: put the new node `fd` where `newfd` belongs. -/
def placeDescriptor (fd : Addr) (newfd : ℤ) : Option (ℤ × Fs σ) := do
  let (prev, current) ← Chain.walk s.next (fun _ => s.placeFor newfd) s.fuel none (s.heads p)
  let current ← current
  if s.id current = newfd then
    let (_, s) ← s.kfclose v p newfd
    -- `current` has been freed, and its `next` field is read
    return (newfd, (s.link p (some fd) prev).setNext fd (s.next current))
  else if newfd < s.id current then
    return (newfd, (s.link p (some fd) prev).setNext fd (some current))
  else
    return (newfd, (s.setNext current (some fd)).setNext fd none)

/-- `kdup2`. -/
def kdup2 (oldfd newfd : ℤ) : Option (ℤ × Fs σ) := do
  let (_, current) ← s.findDescriptor p oldfd
  match current with
  | none => return (-eBADF, s)
  | some current =>
    let (fd, s) := s.kmalloc m
    let old := s.entry current
    match (v.device old.device).dupFunc with
    | none => return (-eOPNOTSUPP, s)
    | some dupFunc =>
      let (data, dev) ← dupFunc old.data s.dev
      let s := (s.setDev dev).setEntry fd ⟨newfd, dropCloexec old.flags, old.device, data⟩
      s.placeDescriptor v p fd newfd

/-- `kfstat`. -/
def kfstat (fd : ℤ) : Option (ℤ × Fs σ) := do
  let (_, current) ← s.findDescriptor p fd
  match current with
  | none => return (-eBADF, s)
  | some current =>
    match (v.device (s.entry current).device).statFunc with
    | none => return (-eOPNOTSUPP, s)
    | some statFunc =>
      let (ret, dev) ← statFunc (s.entry current).data s.dev
      return (ret, s.setDev dev)

/-- `kstat`. -/
def kstat (path : List UInt8) : Option (ℤ × Fs σ) := do
  let (fd, s) ← s.kfopen v m p path 0
  if fd < 0 then return (fd, s)
  else
    let (ret, s) ← s.kfstat v p fd
    let (_, s) ← s.kfclose v p fd
    return (ret, s)

/-- `kpipe`, with the two numbers it stores in `pipefd`: the read end first. The
blocks of the pipe come from `mp`, the nodes from `m`. -/
def kpipe (mp : Kmalloc) : Option ((ℤ × ℤ) × Fs σ) := do
  let (pipe, dev) := v.newPipe mp s.dev
  let (fd1, s) := (s.setDev dev).kmalloc m
  let s := s.setEntry fd1 ⟨0, 0, v.pipeDeviceOut, pipe⟩
  let (fd2, s) := s.kmalloc m
  let s := s.setEntry fd2 ⟨0, 0, v.pipeDeviceIn, pipe⟩
  let (readEnd, s) ← s.addDescriptor p fd1
  let (writeEnd, s) ← s.addDescriptor p fd2
  return ((readEnd, writeEnd), s)

/-- The loop of `clone_file_descriptors`: `new` is the list built so far, and
`prev` its last node. -/
def cloneLoop : ℕ → Option Addr → Option Addr → Option Addr → Fs σ →
    Option (Option Addr × Fs σ)
  | 0, _, _, _, _ => none
  | _ + 1, none, new, _, s => some (new, s)
  | n + 1, some current, new, prev, s => do
      let (fd, s) := s.kmalloc m
      let cloneFunc ← (v.device (s.entry current).device).cloneFunc
      let (data, dev) ← cloneFunc (s.entry current).data s.dev
      let s := ((s.setDev dev).setEntry fd { s.entry current with data := data }).setNext fd none
      match prev with
      | none => cloneLoop n (s.next current) (some fd) (some fd) s
      | some prev =>
        let s := s.setNext prev (some fd)
        cloneLoop n (s.next current) new (some fd) s

/-- `clone_file_descriptors`. -/
def cloneFileDescriptors (descriptors : Option Addr) : Option (Option Addr × Fs σ) :=
  cloneLoop v m s.fuel descriptors none none s

/-- `kfork`, as far as the table of the new process `c` goes. -/
def kfork (c : ℕ) : Option (Fs σ) := do
  let (new, s) ← s.cloneFileDescriptors v m (s.heads p)
  return { s with heads := Function.update s.heads c new, procs := insert c s.procs }

end Functions

/-! ### Runs -/

/-- A call by process `p`, with what `kmalloc` does during it. -/
inductive Act
  | kfopen (p : ℕ) (path : List UInt8) (flags : ℕ) (m : Kmalloc)
  | kpipe (p : ℕ) (mp m : Kmalloc)
  | kstat (p : ℕ) (path : List UInt8) (m : Kmalloc)
  | kdup2 (p : ℕ) (oldfd newfd : ℤ) (m : Kmalloc)
  | kfclose (p : ℕ) (fd : ℤ)
  | kfork (p c : ℕ) (m : Kmalloc)

/-- The process that makes a call. -/
def Act.caller : Act → ℕ
  | .kfopen p _ _ _ | .kpipe p _ _ | .kstat p _ _ | .kdup2 p _ _ _ | .kfclose p _ | .kfork p _ _ =>
      p

/-- One call. The new descriptor of a `kdup2` is not negative, and the process
that `kfork` makes did not exist. -/
def call (v : Vfs σ) (s : Fs σ) : Act → Option (Fs σ)
  | .kfopen p path flags m => (s.kfopen v m p path flags).map (·.2)
  | .kpipe p mp m => (s.kpipe v m p mp).map (·.2)
  | .kstat p path m => (s.kstat v m p path).map (·.2)
  | .kdup2 p oldfd newfd m => if 0 ≤ newfd then (s.kdup2 v m p oldfd newfd).map (·.2) else none
  | .kfclose p fd => (s.kfclose v p fd).map (·.2)
  | .kfork p c m => if c ∈ s.procs then none else s.kfork v m p c

/-- A call by a process there is. -/
def step (v : Vfs σ) (s : Fs σ) (a : Act) : Option (Fs σ) :=
  if a.caller ∈ s.procs then s.call v a else none

/-- The step relation of the descriptor tables. -/
def Steps (v : Vfs σ) (s : Fs σ) (a : Act) (s' : Fs σ) : Prop := s.step v a = some s'

/-- The states in which no process has a descriptor yet. -/
def IsInit (s : Fs σ) : Prop := ∀ p, s.heads p = none

/-! ### Reading a table -/

/-- The nodes of the table of `p`, in list order. -/
def chain (s : Fs σ) (p : ℕ) : List Addr :=
  Chain.collect s.next s.allocated.card (s.heads p)

/-- **The table of a process**: its descriptors in list order. -/
def table (s : Fs σ) (p : ℕ) : List Entry := (s.chain p).map s.entry

/-- The descriptor numbers of a process, in list order. -/
def ids (s : Fs σ) (p : ℕ) : List ℤ := (s.table p).map (·.descriptorId)

end Fs

end Xana
