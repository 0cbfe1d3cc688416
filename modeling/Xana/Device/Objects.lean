import Xana.Pipe.Shared
import Xana.Ramdisk.Device

/-!
# Open data

What a descriptor of the ramdisk or of a device under `/dev` refers to: a block of open
data with a count `dependents`. A file of the ramdisk has a `ramdisk_file_entry_t`. A
terminal has a `tty_open_data_t` and the framebuffer an `fb_data_t`, but no descriptor
refers to these directly: the device `/dev` puts a `device_open_data_t` in between, with
a count of its own. The keyboard has no open data.

This file has the callbacks that make, count and free open data: those that share a
block (`Xana.share`), those that drop one share (`Xana.unshare`, `Xana.ttyClose`), those
of `/dev`, which call the callbacks of the device behind it, and the `open` callbacks. A
block keeps its bytes when it is freed, and a new block holds what its memory held
before; `tty_open` and `device_open_helper` count up from that. A callback that goes
through a `NULL` pointer, to data or to another callback, leaves no result.
-/

namespace Xana

/-- The fields of a block of open data, `dependents` aside. -/
inductive OpenObject
  /-- `ramdisk_file_entry_t`, `file` being 0 for the root directory. -/
  | file (file readPos : ℕ)
  /-- `tty_open_data_t` -/
  | tty (ttynumber : ℤ) (tty : ℕ)
  /-- `fb_data_t` -/
  | framebuffer (pos : ℕ)
  /-- `device_open_data_t` -/
  | device (data device : ℕ)
  deriving DecidableEq

/-- A block of open data. -/
structure OpenData where
  object : OpenObject
  dependents : ℕ
  deriving DecidableEq

/-- The blocks of open data, with what each holds or held, and the allocator. -/
structure Objects where
  openData : Addr → OpenData
  blocks : Finset Addr
  alloc : Kmalloc

/-- `&ramdisk_device` -/
def ramdiskDevice : ℕ := 2

/-- `&device_device` -/
def deviceDevice : ℕ := 3

/-- `&kbd_device` -/
def kbdDevice : ℕ := 4

/-- The device that `init_fb_device` makes. -/
def fbDevice : ℕ := 5

/-- The device that `create_tty` makes. -/
def ttyDevice : ℕ := 6

/-- `n++`, for a `uint64_t`. -/
def increment (n : ℕ) : ℕ := (n + 1) % 2 ^ 64

namespace Objects

/-- Write a block. -/
def setData (o : Objects) (a : Addr) (d : OpenData) : Objects :=
  { o with openData := Function.update o.openData a d }

/-- `a->dependents = n` -/
def setDependents (o : Objects) (a : Addr) (n : ℕ) : Objects :=
  o.setData a { o.openData a with dependents := n }

/-- `kmalloc`, which never returns `NULL`. -/
def kmalloc (o : Objects) : Addr × Objects :=
  let a := o.alloc.addr (insert 0 o.blocks)
  (a, { o with blocks := insert a o.blocks })

/-- `kfree`. -/
def kfree (o : Objects) (a : Addr) : Objects := { o with blocks := o.blocks.erase a }

section Fields

variable {o : Objects} {a b : Addr} {d : OpenData} {n : ℕ}

@[simp] theorem setData_self : (o.setData a d).openData a = d := by
  simp [setData]

theorem setData_of_ne (h : b ≠ a) : (o.setData a d).openData b = o.openData b := by
  simp [setData, h]

@[simp] theorem setData_blocks : (o.setData a d).blocks = o.blocks := rfl

@[simp] theorem setDependents_blocks : (o.setDependents a n).blocks = o.blocks := rfl

theorem setDependents_of_ne (h : b ≠ a) : (o.setDependents a n).openData b = o.openData b :=
  setData_of_ne h

@[simp] theorem setDependents_self : ((o.setDependents a n).openData a).dependents = n := by
  rw [setDependents, setData_self]

@[simp] theorem setDependents_object :
    ((o.setDependents a n).openData b).object = (o.openData b).object := by
  by_cases hb : b = a
  · rw [hb, setDependents, setData_self]
  · rw [setDependents_of_ne hb]

@[simp] theorem kmalloc_openData : o.kmalloc.2.openData = o.openData := rfl

theorem kmalloc_blocks : o.kmalloc.2.blocks = insert o.kmalloc.1 o.blocks := rfl

/-- A new block. -/
theorem kmalloc_fresh : o.kmalloc.1 ∉ o.blocks ∧ o.kmalloc.1 ≠ 0 := by
  have hfresh := o.alloc.fresh (insert 0 o.blocks)
  rw [Finset.mem_insert, not_or] at hfresh
  exact ⟨hfresh.2, hfresh.1⟩

@[simp] theorem kfree_openData : (o.kfree a).openData = o.openData := rfl

end Fields

end Objects

/-! ### Sharing and dropping -/

/-- The body of `ramdisk_dup`, `tty_dup` and `fb_dup`. -/
def share (data : ℕ) (o : Objects) : Option (ℕ × Objects) :=
  if data = 0 then none
  else some (data, o.setDependents data (increment (o.openData data).dependents))

/-- `ramdisk_dup` -/
def ramdiskDup : ℕ → Objects → Option (ℕ × Objects) := share

/-- `tty_dup` -/
def ttyDup : ℕ → Objects → Option (ℕ × Objects) := share

/-- `fb_dup` -/
def fbDup : ℕ → Objects → Option (ℕ × Objects) := share

/-- The end of `ramdisk_close`, of `fb_close` and of `device_close`. -/
def unshare (data : ℕ) (o : Objects) : Objects :=
  if 1 < (o.openData data).dependents then
    o.setDependents data ((o.openData data).dependents - 1)
  else o.kfree data

/-- `ramdisk_close` -/
def ramdiskClose (data : ℕ) (o : Objects) : Option Objects :=
  if data = 0 then none else some (unshare data o)

/-- `fb_close` -/
def fbClose (data : ℕ) (o : Objects) : Option Objects :=
  if data = 0 then none else some (unshare data o)

/-- `tty_close` -/
def ttyClose (data : ℕ) (o : Objects) : Option Objects :=
  if data = 0 then none
  else
    let o := o.setDependents data (decrement (o.openData data).dependents)
    some (if (o.openData data).dependents = 0 then o.kfree data else o)

/-! ### Cloning -/

/-- `ramdisk_clone` -/
def ramdiskClone (data : ℕ) (o : Objects) : Option (ℕ × Objects) :=
  if data = 0 then none
  else
    let (new, o) := o.kmalloc
    some (new, o.setData new (o.openData data))

/-- `tty_clone`: the count goes up from what the new block held. -/
def ttyClone (data : ℕ) (o : Objects) : Option (ℕ × Objects) :=
  if data = 0 then none
  else
    let (new, o) := o.kmalloc
    some (new, o.setData new
      ⟨(o.openData data).object, increment (o.openData new).dependents⟩)

/-- `kbd_device_clone` -/
def kbdDeviceClone (_ : ℕ) (o : Objects) : Option (ℕ × Objects) := some (0, o)

/-! ### Opening -/

/-- `ENODEV`. -/
def eNODEV : ℤ := 19

/-- What the `open` callbacks look up: the header of a file on the ramdisk, and whether it
is a file; the terminal with the number that a path ends in; and the registered device
that a path under `/dev` names, with the path that is passed on to it. -/
structure Registry where
  header : List UInt8 → Option (ℕ × Bool)
  tty : List UInt8 → Option (ℤ × ℕ)
  device : List UInt8 → Option (ℕ × List UInt8)

/-- An error of an `open` callback. -/
def openError (errno : ℤ) (h : 0 ≤ errno) : Opened := ⟨0, -errno, Int.neg_nonpos_of_nonneg h⟩

/-- The open data of an `open` callback. -/
def openedAt (a : Addr) : Opened := ⟨a, 0, Int.le_refl 0⟩

section Open

variable (registry : Registry)

/-- `ramdisk_open`, with the block that it makes. -/
def Objects.ramdiskOpen (path : List UInt8) (flags : ℕ) (o : Objects) : Option (Opened × Objects) :=
  if flags &&& oWRONLY ≠ 0 ∨ flags &&& oRDWR ≠ 0 then some (openError eOPNOTSUPP (by decide), o)
  else if path = [slash] ∨ path = [] then
    let (entry, o) := o.kmalloc
    some (openedAt entry, o.setData entry ⟨.file 0 0, 1⟩)
  else if path.head? ≠ some slash then some (openError eINVAL (by decide), o)
  else
    match registry.header path with
    | none => some (openError eNOENT (by decide), o)
    | some (file, isFile) =>
        if isFile ∧ flags &&& oDIRECTORY ≠ 0 then some (openError eNOTDIR (by decide), o)
        else
          let (entry, o) := o.kmalloc
          some (openedAt entry, o.setData entry ⟨.file file 0, 1⟩)

/-- `tty_open`: the count goes up from what the new block held. -/
def ttyOpen (path : List UInt8) (_ : ℕ) (o : Objects) : Option (Opened × Objects) :=
  match registry.tty path with
  | none => some (openError eNODEV (by decide), o)
  | some (ttynumber, tty) =>
      let (data, o) := o.kmalloc
      some (openedAt data,
        o.setData data ⟨.tty ttynumber tty, increment (o.openData data).dependents⟩)

/-- `fb_open` -/
def fbOpen (_ : List UInt8) (flags : ℕ) (o : Objects) : Option (Opened × Objects) :=
  if flags &&& oDIRECTORY ≠ 0 then some (openError eNOTDIR (by decide), o)
  else
    let (data, o) := o.kmalloc
    some (openedAt data, o.setData data ⟨.framebuffer 0, 1⟩)

/-- `keyboard_open` -/
def keyboardOpen (_ : List UInt8) (_ : ℕ) (o : Objects) : Option (Opened × Objects) :=
  some (⟨0, 0, Int.le_refl 0⟩, o)

end Open

/-! ### The devices -/

section Devices

variable (registry : Registry)

/-- No callback is set. -/
def noDevice : Device Objects := ⟨none, none, none, none, none⟩

/-- The callbacks of the registered devices that make, count and free open data. -/
def registered (device : ℕ) : Device Objects :=
  if device = ramdiskDevice then
    { noDevice with
      openFunc := some (Objects.ramdiskOpen registry)
      closeFunc := some ramdiskClose
      dupFunc := some ramdiskDup
      cloneFunc := some ramdiskClone
      statFunc := some fun _ o => some (0, o) }
  else if device = kbdDevice then
    { noDevice with
      openFunc := some keyboardOpen
      cloneFunc := some kbdDeviceClone
      statFunc := some fun _ o => some (0, o) }
  else if device = fbDevice then
    { noDevice with
      openFunc := some fbOpen
      closeFunc := some fbClose
      dupFunc := some fbDup
      statFunc := some fun _ o => some (0, o) }
  else if device = ttyDevice then
    { noDevice with
      openFunc := some (ttyOpen registry)
      closeFunc := some ttyClose
      dupFunc := some ttyDup
      cloneFunc := some ttyClone
      statFunc := some fun _ o => some (0, o) }
  else noDevice

/-- `device_open`, and `device_open_helper` for the device that it finds: the count goes
up from what the new block held. -/
def deviceOpen (path : List UInt8) (flags : ℕ) (o : Objects) : Option (Opened × Objects) :=
  if path.head? ≠ some slash then some (openError eINVAL (by decide), o)
  else
    match registry.device path with
    | none => some (openError eNODEV (by decide), o)
    | some (device, rest) => do
        let (data, o) := o.kmalloc
        let openFunc ← (registered registry device).openFunc
        let (returned, o) ← openFunc rest flags o
        if returned.value ≠ 0 then return (returned, o)
        else
          return (openedAt data, o.setData data
            ⟨.device returned.pointer device, increment (o.openData data).dependents⟩)

/-- `device_close` -/
def deviceClose (data : ℕ) (o : Objects) : Option Objects :=
  if data = 0 then some o
  else
    match (o.openData data).object with
    | .device inner device =>
        match (registered registry device).closeFunc with
        | none => some (unshare data o)
        | some closeFunc => (closeFunc inner o).map (unshare data)
    | _ => none

/-- `device_dup`: the count of the block goes up, although the duplicate gets a block of
its own. -/
def deviceDup (data : ℕ) (o : Objects) : Option (ℕ × Objects) :=
  if data = 0 then none
  else
    let o := o.setDependents data (increment (o.openData data).dependents)
    match (o.openData data).object with
    | .device inner device =>
        match (registered registry device).dupFunc with
        | none => some (0, o)
        | some dupFunc =>
            let (new, o) := o.kmalloc
            (dupFunc inner o).map fun r => (new, r.2.setData new ⟨.device r.1 device, 1⟩)
    | _ => none

/-- `device_clone` -/
def deviceClone (data : ℕ) (o : Objects) : Option (ℕ × Objects) :=
  if data = 0 then none
  else
    match (o.openData data).object with
    | .device inner device => do
        let (new, o) := o.kmalloc
        let cloneFunc ← (registered registry device).cloneFunc
        let (cloned, o) ← cloneFunc inner o
        return (new, o.setData new ⟨.device cloned device, (o.openData data).dependents⟩)
    | _ => none

/-- `device_device` -/
def devices : Device Objects where
  openFunc := some (deviceOpen registry)
  closeFunc := some (deviceClose registry)
  dupFunc := some (deviceDup registry)
  cloneFunc := some (deviceClone registry)
  statFunc := some fun _ o => some (0, o)

/-- The mounted devices, but for the pipes: the ramdisk, and `/dev`. -/
def objectVfs (getPathDevice : List UInt8 → ℕ → Objects → Option (Option (ℕ × List UInt8))) :
    Vfs Objects where
  device d :=
    if d = deviceDevice then devices registry
    else if d = ramdiskDevice then registered registry d
    else noDevice
  pipeDeviceIn := pipeDeviceIn
  pipeDeviceOut := pipeDeviceOut
  getPathDevice := getPathDevice
  newPipe _ o := (0, o)

end Devices

end Xana
