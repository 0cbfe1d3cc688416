import Xana.Device.Objects
import Xana.Ramdisk.GetPath

/-!
# Calls through the fields of a `device_t`

A `device_t` has a field for every callback, and every device leaves some of them out. The
operations on descriptors go through two layers of such fields: those of the device that is
mounted, and behind `/dev` those of the device that was opened.

A field is `NULL`, or has been given a function, or, in a `device_t` that comes from `kmalloc`
and is not filled in completely, is what was in the block before (`Xana.Dispatch.Slot`). A
callback either answers, or goes wrong: it calls through a field that has no function, or
follows a `NULL` pointer to open data (`Xana.Dispatch.Fault`). Of the devices' own functions
there is here only whether they follow the pointer. A block of open data is not given back in
this file, so that it has what was put in it as long as a descriptor refers to it; the counts
of these references are in `Xana.Objects`.
-/

namespace Xana

namespace Dispatch

/-! ### Fields and faults -/

/-- What goes wrong in a callback. -/
inductive Fault
  /-- A call through a field that no function has been stored in. -/
  | unsetCallback
  /-- A `NULL` pointer to open data is followed. -/
  | nullOpenData
  deriving DecidableEq, Repr

@[simp] theorem bind_ok {α β : Type} (a : α) (f : α → Except Fault β) :
    (Except.ok a >>= f) = f a := rfl

@[simp] theorem bind_error {α β : Type} (fault : Fault) (f : α → Except Fault β) :
    ((Except.error fault : Except Fault α) >>= f) = .error fault := rfl

/-- What an operation comes back with. -/
inductive Reply
  | error (errno : ℤ)
  | done
  deriving DecidableEq, Repr

/-- The number that is returned. -/
def Reply.value : Reply → ℤ
  | .error errno => errno
  | .done => 0

/-- A field of a `device_t` for a callback. -/
inductive Slot (α : Type)
  | null
  | function (f : α)
  /-- What was in the block before, not being `NULL`. -/
  | leftover

/-- A field that is not stored, in a block that held this word. -/
def Slot.unstored {α : Type} (word : ℕ) : Slot α := if word = 0 then .null else .leftover

/-- A call through the field, without a test. -/
def Slot.call {α : Type} : Slot α → Except Fault α
  | .function f => .ok f
  | _ => .error .unsetCallback

@[simp] theorem Slot.call_function {α : Type} (f : α) : (Slot.function f).call = .ok f := rfl

@[simp] theorem Slot.call_null {α : Type} :
    (Slot.null : Slot α).call = .error .unsetCallback := rfl

@[simp] theorem Slot.call_leftover {α : Type} :
    (Slot.leftover : Slot α).call = .error .unsetCallback := rfl

/-- `if (field == NULL) return -errno;` and then the call. -/
def Slot.guarded {α : Type} (slot : Slot α) (errno : ℤ) (run : α → Except Fault Reply) :
    Except Fault Reply :=
  match slot with
  | .null => .ok (.error (-errno))
  | slot => slot.call >>= run

@[simp] theorem Slot.guarded_null {α : Type} (errno : ℤ) (run : α → Except Fault Reply) :
    Slot.null.guarded errno run = .ok (.error (-errno)) := rfl

@[simp] theorem Slot.guarded_function {α : Type} (f : α) (errno : ℤ)
    (run : α → Except Fault Reply) : (Slot.function f).guarded errno run = run f := rfl

@[simp] theorem Slot.guarded_leftover {α : Type} (errno : ℤ) (run : α → Except Fault Reply) :
    Slot.leftover.guarded errno run = .error .unsetCallback := rfl

/-- The field as `Xana.Fs` has it, and what a call through it is there. -/
def Slot.toOption {α β : Type} (slot : Slot α) (run : α → β) (fault : β) : Option β :=
  match slot with
  | .null => none
  | .function f => some (run f)
  | .leftover => some fault

theorem Slot.eq_of_toOption {α β : Type} {slot : Slot α} {run : α → β} {fault b : β}
    (h : slot.toOption run fault = some b) (hne : b ≠ fault) :
    ∃ f, slot = .function f ∧ b = run f := by
  cases slot with
  | null => simp [toOption] at h
  | function f => exact ⟨f, rfl, (Option.some.inj h).symm⟩
  | leftover => exact absurd (Option.some.inj h).symm hne

theorem toOption_eq_some {α : Type} {x : Except Fault α} {a : α} (h : x.toOption = some a) :
    x = .ok a := by
  cases x with
  | error fault => simp [Except.toOption] at h
  | ok b => exact congrArg _ (Option.some.inj h)

/-- The devices that are registered. -/
inductive Registered
  | ramdisk
  | keyboard
  | framebuffer
  | tty
  deriving DecidableEq, Repr

/-- A block of open data. -/
inductive OpenBlock
  /-- A device's own, or a pipe. -/
  | own
  /-- `device_open_data_t` -/
  | device (data : ℕ) (device : Registered)
  deriving DecidableEq, Repr

/-- The blocks of open data, in the order in which they were made: the first one has address 1,
and so on. -/
abbrev Arena := List OpenBlock

namespace Arena

/-- What is at an address. -/
def block (arena : Arena) (a : ℕ) : Option OpenBlock := if a = 0 then none else arena[a - 1]?

/-- `kmalloc`, and filling in the block. -/
def kmalloc (arena : Arena) (b : OpenBlock) : ℕ × Arena := (arena.length + 1, arena ++ [b])

theorem kmalloc_ne_zero (arena : Arena) (b : OpenBlock) : (arena.kmalloc b).1 ≠ 0 :=
  Nat.succ_ne_zero _

theorem block_kmalloc (arena : Arena) (b : OpenBlock) :
    (arena.kmalloc b).2.block (arena.kmalloc b).1 = some b := by
  simp [block, kmalloc]

/-- Old blocks stay. -/
theorem block_kmalloc_of_some {arena : Arena} {a : ℕ} {c : OpenBlock} (h : arena.block a = some c)
    (b : OpenBlock) : (arena.kmalloc b).2.block a = some c := by
  rw [block] at h ⊢
  split_ifs at h ⊢ with ha
  exact List.getElem?_append_left (List.getElem?_eq_some_iff.mp h).1 ▸ h

end Arena

/-- The callbacks of a `device_t`. -/
structure Callbacks where
  openFunc : Slot (List UInt8 → ℕ → Arena → Except Fault (Opened × Arena))
  readFunc : Slot (ℕ → Arena → Except Fault Reply)
  writeFunc : Slot (ℕ → Arena → Except Fault Reply)
  closeFunc : Slot (ℕ → Arena → Except Fault Reply)
  fcntlFunc : Slot (ℤ → ℕ → Arena → Except Fault Reply)
  getdents64Func : Slot (ℕ → Arena → Except Fault Reply)
  lseekFunc : Slot (ℕ → Arena → Except Fault Reply)
  ioctlFunc : Slot (ℕ → Arena → Except Fault Reply)
  statFunc : Slot (ℕ → Arena → Except Fault Reply)
  selectFunc : Slot (ℕ → Arena → Except Fault Reply)
  dupFunc : Slot (ℕ → Arena → Except Fault (ℕ × Arena))
  cloneFunc : Slot (ℕ → Arena → Except Fault (ℕ × Arena))

/-- A `device_t` in static storage in which nothing has been stored. -/
def noCallbacks : Callbacks where
  openFunc := .null
  readFunc := .null
  writeFunc := .null
  closeFunc := .null
  fcntlFunc := .null
  getdents64Func := .null
  lseekFunc := .null
  ioctlFunc := .null
  statFunc := .null
  selectFunc := .null
  dupFunc := .null
  cloneFunc := .null

/-! ### The devices' own functions -/

/-- A function that follows the pointer to its open data. -/
def follow (data : ℕ) (_ : Arena) : Except Fault Reply :=
  if data = 0 then .error .nullOpenData else .ok .done

/-- A function that does not look at its open data. -/
def ignore (_ : ℕ) (_ : Arena) : Except Fault Reply := .ok .done

/-- The `dup` callbacks that count up, and return the same open data. -/
def shareBlock (data : ℕ) (arena : Arena) : Except Fault (ℕ × Arena) :=
  if data = 0 then .error .nullOpenData else .ok (data, arena)

/-- The `clone` callbacks that copy the open data. -/
def copyBlock (data : ℕ) (arena : Arena) : Except Fault (ℕ × Arena) :=
  if data = 0 then .error .nullOpenData else .ok (arena.kmalloc .own)

/-- What is outside the descriptors: what the `open` callbacks return for a path, which device a
path leads to, and what was in the block of the framebuffer's `device_t`. -/
structure Surroundings where
  value : Registered → List UInt8 → ℕ → ℤ
  value_le : ∀ device path flags, value device path flags ≤ 0
  device : List UInt8 → Option (Registered × List UInt8)
  getPathDevice : List UInt8 → ℕ → Option (ℕ × List UInt8)
  fbGetdents64 : ℕ
  fbSelect : ℕ

section Devices

variable (w : Surroundings)

/-- `ramdisk_open`, `fb_open` and `tty_open`, with the block that they make. -/
def openBlock (device : Registered) (path : List UInt8) (flags : ℕ) (arena : Arena) :
    Except Fault (Opened × Arena) :=
  if w.value device path flags ≠ 0 then
    .ok (⟨0, w.value device path flags, w.value_le device path flags⟩, arena)
  else .ok (openedAt (arena.kmalloc .own).1, (arena.kmalloc .own).2)

/-- `ramdisk_fnctl` -/
def ramdiskFcntl (cmd : ℤ) (data : ℕ) (arena : Arena) : Except Fault Reply :=
  if cmd = fGETPATH then follow data arena else .ok (.error (-eOPNOTSUPP))

/-- `init_ramdisk_device` -/
def ramdiskCallbacks : Callbacks :=
  { noCallbacks with
    openFunc := .function (openBlock w .ramdisk)
    readFunc := .function follow
    closeFunc := .function follow
    fcntlFunc := .function ramdiskFcntl
    getdents64Func := .function follow
    lseekFunc := .function follow
    statFunc := .function follow
    dupFunc := .function shareBlock
    cloneFunc := .function copyBlock }

/-- `keyboard_install` -/
def keyboardCallbacks : Callbacks :=
  { noCallbacks with
    readFunc := .function ignore
    openFunc := .function fun _ _ arena => .ok (openedAt 0, arena)
    cloneFunc := .function fun _ arena => .ok (0, arena)
    statFunc := .function ignore }

/-- `init_fb_device`, which does not store `getdents64` and `select` -/
def fbCallbacks : Callbacks where
  openFunc := .function (openBlock w .framebuffer)
  readFunc := .function follow
  closeFunc := .function follow
  fcntlFunc := .null
  writeFunc := .function follow
  lseekFunc := .function follow
  ioctlFunc := .function ignore
  dupFunc := .function shareBlock
  cloneFunc := .null
  statFunc := .function ignore
  getdents64Func := .unstored w.fbGetdents64
  selectFunc := .unstored w.fbSelect

/-- `create_tty` -/
def ttyCallbacks : Callbacks where
  openFunc := .function (openBlock w .tty)
  closeFunc := .function follow
  readFunc := .function follow
  writeFunc := .function ignore
  ioctlFunc := .function follow
  lseekFunc := .null
  fcntlFunc := .null
  getdents64Func := .null
  statFunc := .function ignore
  dupFunc := .function shareBlock
  cloneFunc := .function copyBlock
  selectFunc := .function follow

/-- The callbacks of a registered device. -/
def Registered.callbacks : Registered → Callbacks
  | .ramdisk => ramdiskCallbacks w
  | .keyboard => keyboardCallbacks
  | .framebuffer => fbCallbacks w
  | .tty => ttyCallbacks w

/-! ### `/dev` -/

/-- `ENOTTY`. -/
def eNOTTY : ℤ := 25

/-- `data->data` and `data->device` -/
def openDevice (data : ℕ) (arena : Arena) : Except Fault (ℕ × Registered) :=
  match arena.block data with
  | some (.device inner device) => .ok (inner, device)
  | _ => .error .nullOpenData

theorem eINVAL_nonneg : 0 ≤ eINVAL := by decide

theorem eNODEV_nonneg : 0 ≤ eNODEV := by decide

/-- `device_open` and `device_open_helper` -/
def devOpen (path : List UInt8) (flags : ℕ) (arena : Arena) : Except Fault (Opened × Arena) :=
  if path.head? ≠ some slash then .ok (openError eINVAL eINVAL_nonneg, arena)
  else
    match w.device path with
    | none => .ok (openError eNODEV eNODEV_nonneg, arena)
    | some (device, rest) => do
        let openFunc ← (device.callbacks w).openFunc.call
        let (returned, arena) ← openFunc rest flags arena
        if returned.value ≠ 0 then return (returned, arena)
        else
          let (data, arena) := arena.kmalloc (.device returned.pointer device)
          return (openedAt data, arena)

/-- `device_write` -/
def devWrite (data : ℕ) (arena : Arena) : Except Fault Reply :=
  if data = 0 then .ok (.error (-eINVAL))
  else do
    let (inner, device) ← openDevice data arena
    (device.callbacks w).writeFunc.guarded eOPNOTSUPP fun f => f inner arena

/-- `device_read` -/
def devRead (data : ℕ) (arena : Arena) : Except Fault Reply :=
  if data = 0 then .ok (.error (-eINVAL))
  else do
    let (inner, device) ← openDevice data arena
    let readFunc ← (device.callbacks w).readFunc.call
    readFunc inner arena

/-- `device_close` -/
def devClose (data : ℕ) (arena : Arena) : Except Fault Reply :=
  if data = 0 then .ok (.error (-eINVAL))
  else do
    let (inner, device) ← openDevice data arena
    match (device.callbacks w).closeFunc with
    | .null => return .done
    | closeFunc =>
        let closeFunc ← closeFunc.call
        closeFunc inner arena

/-- `device_ioctl` -/
def devIoctl (data : ℕ) (arena : Arena) : Except Fault Reply := do
  let (inner, device) ← openDevice data arena
  (device.callbacks w).ioctlFunc.guarded eNOTTY fun f => f inner arena

/-- `device_lseek` -/
def devLseek (data : ℕ) (arena : Arena) : Except Fault Reply := do
  let (inner, device) ← openDevice data arena
  (device.callbacks w).lseekFunc.guarded eOPNOTSUPP fun f => f inner arena

/-- `device_stat` -/
def devStat (data : ℕ) (arena : Arena) : Except Fault Reply := do
  let (inner, device) ← openDevice data arena
  (device.callbacks w).statFunc.guarded eOPNOTSUPP fun f => f inner arena

/-- `device_select` -/
def devSelect (data : ℕ) (arena : Arena) : Except Fault Reply := do
  let (inner, device) ← openDevice data arena
  (device.callbacks w).selectFunc.guarded eOPNOTSUPP fun f => f inner arena

/-- `device_dup` -/
def devDup (data : ℕ) (arena : Arena) : Except Fault (ℕ × Arena) := do
  let (inner, device) ← openDevice data arena
  match (device.callbacks w).dupFunc with
  | .null => return (0, arena)
  | dupFunc =>
      let dupFunc ← dupFunc.call
      let (inner, arena) ← dupFunc inner arena
      return arena.kmalloc (.device inner device)

/-- `device_clone` -/
def devClone (data : ℕ) (arena : Arena) : Except Fault (ℕ × Arena) := do
  let (inner, device) ← openDevice data arena
  let cloneFunc ← (device.callbacks w).cloneFunc.call
  let (inner, arena) ← cloneFunc inner arena
  return arena.kmalloc (.device inner device)

/-- `init_device_device` -/
def devCallbacks : Callbacks :=
  { noCallbacks with
    openFunc := .function (devOpen w)
    readFunc := .function (devRead w)
    closeFunc := .function (devClose w)
    writeFunc := .function (devWrite w)
    lseekFunc := .function (devLseek w)
    ioctlFunc := .function (devIoctl w)
    dupFunc := .function (devDup w)
    cloneFunc := .function (devClone w)
    statFunc := .function (devStat w)
    selectFunc := .function (devSelect w) }

/-- What `pipe_init` stores in the end one writes to. -/
def pipeInCallbacks : Callbacks :=
  { noCallbacks with
    writeFunc := .function follow
    closeFunc := .function follow
    dupFunc := .function shareBlock
    cloneFunc := .function shareBlock
    selectFunc := .function follow }

/-- What `pipe_init` stores in the end one reads from. -/
def pipeOutCallbacks : Callbacks :=
  { noCallbacks with
    readFunc := .function follow
    closeFunc := .function follow
    dupFunc := .function shareBlock
    cloneFunc := .function shareBlock
    selectFunc := .function follow }

/-- The devices that descriptors refer to: `/dev`, the ramdisk, and the ends of pipes. -/
def callbacksOf (device : ℕ) : Callbacks :=
  if device = deviceDevice then devCallbacks w
  else if device = ramdiskDevice then ramdiskCallbacks w
  else if device = pipeDeviceIn then pipeInCallbacks
  else if device = pipeDeviceOut then pipeOutCallbacks
  else noCallbacks

/-- The callbacks of a device that `Xana.Fs` calls. A fault has no result there. -/
def Callbacks.toDevice (c : Callbacks) : Device Arena where
  openFunc := c.openFunc.toOption
    (fun f path flags arena => (f path flags arena).toOption) fun _ _ _ => none
  closeFunc := c.closeFunc.toOption
    (fun f data arena => (f data arena).toOption.map fun _ => arena) fun _ _ => none
  dupFunc := c.dupFunc.toOption (fun f data arena => (f data arena).toOption) fun _ _ => none
  cloneFunc := c.cloneFunc.toOption (fun f data arena => (f data arena).toOption) fun _ _ => none
  statFunc := c.statFunc.toOption
    (fun f data arena => (f data arena).toOption.map fun reply => (reply.value, arena))
    fun _ _ => none

/-- The descriptor tables over these devices. -/
def callbackVfs : Vfs Arena where
  device d := (callbacksOf w d).toDevice
  pipeDeviceIn := pipeDeviceIn
  pipeDeviceOut := pipeDeviceOut
  getPathDevice path p _ := some (w.getPathDevice path p)
  newPipe _ arena := arena.kmalloc .own

/-! ### The filesystem -/

variable (e : Entry) (arena : Arena)

/-- `kfread`, of a descriptor that is there; and so on. -/
def kfread : Except Fault Reply :=
  (callbacksOf w e.device).readFunc.guarded eOPNOTSUPP fun f => f e.data arena

/-- `kfwrite` -/
def kfwrite : Except Fault Reply :=
  (callbacksOf w e.device).writeFunc.guarded eOPNOTSUPP fun f => f e.data arena

/-- `kfgetdents64` -/
def kfgetdents64 : Except Fault Reply :=
  (callbacksOf w e.device).getdents64Func.guarded eOPNOTSUPP fun f => f e.data arena

/-- `kflseek` -/
def kflseek : Except Fault Reply :=
  (callbacksOf w e.device).lseekFunc.guarded eOPNOTSUPP fun f => f e.data arena

/-- `kfstat` -/
def kfstat : Except Fault Reply :=
  (callbacksOf w e.device).statFunc.guarded eOPNOTSUPP fun f => f e.data arena

/-- `kfcntl` -/
def kfcntl (cmd : ℤ) : Except Fault Reply :=
  (callbacksOf w e.device).fcntlFunc.guarded eOPNOTSUPP fun f => f cmd e.data arena

/-- `kioctl` -/
def kioctl : Except Fault Reply :=
  (callbacksOf w e.device).ioctlFunc.guarded eOPNOTSUPP fun f => f e.data arena

/-- What `kselect` does with a descriptor that is in one of its sets: it passes over the device
if it has no `select`. -/
def kselectOne : Except Fault Reply :=
  match (callbacksOf w e.device).selectFunc with
  | .null => .ok .done
  | selectFunc => do
      let selectFunc ← selectFunc.call
      selectFunc e.data arena

/-- `kfclose` -/
def kfclose : Except Fault Reply :=
  match (callbacksOf w e.device).closeFunc with
  | .null => .ok .done
  | closeFunc => do
      let closeFunc ← closeFunc.call
      let _ ← closeFunc e.data arena
      return .done

/-- `kdup2`, with the descriptor that has the new number before, if there is one. -/
def kdup2 (replaced : Option Entry) : Except Fault Reply :=
  (callbacksOf w e.device).dupFunc.guarded eOPNOTSUPP fun f => do
    let (_, arena) ← f e.data arena
    match replaced with
    | none => return .done
    | some replaced => kfclose w replaced arena

/-- `clone_file_descriptors` -/
def cloneFileDescriptors : List Entry → Arena → Except Fault (List Entry × Arena)
  | [], arena => .ok ([], arena)
  | e :: es, arena => do
      let cloneFunc ← (callbacksOf w e.device).cloneFunc.call
      let (data, arena) ← cloneFunc e.data arena
      let (es, arena) ← cloneFileDescriptors es arena
      return ({ e with data := data } :: es, arena)

end Devices

/-- An operation on the descriptors of a process. -/
inductive DescriptorCall
  | read (fd : ℤ)
  | write (fd : ℤ)
  | close (fd : ℤ)
  | getdents64 (fd : ℤ)
  | lseek (fd : ℤ)
  | fstat (fd : ℤ)
  | fcntl (fd cmd : ℤ)
  | ioctl (fd : ℤ)
  | select (fd : ℤ)
  | dup2 (oldfd newfd : ℤ)
  | fork
  deriving DecidableEq, Repr

/-- The descriptor with a number. -/
def descriptor (s : Fs Arena) (p : ℕ) (fd : ℤ) : Option Entry :=
  (s.table p).find? fun e => e.descriptorId = fd

/-- The loops that look for a descriptor, and return `-EBADF` if there is none. -/
def withDescriptor (s : Fs Arena) (p : ℕ) (fd : ℤ) (run : Entry → Arena → Except Fault Reply) :
    Except Fault Reply :=
  match descriptor s p fd with
  | none => .ok (.error (-eBADF))
  | some e => run e s.dev

/-- An operation of process `p`. -/
def DescriptorCall.run (w : Surroundings) (s : Fs Arena) (p : ℕ) :
    DescriptorCall → Except Fault Reply
  | .read fd => withDescriptor s p fd (kfread w)
  | .write fd => withDescriptor s p fd (kfwrite w)
  | .close fd => withDescriptor s p fd (kfclose w)
  | .getdents64 fd => withDescriptor s p fd (kfgetdents64 w)
  | .lseek fd => withDescriptor s p fd (kflseek w)
  | .fstat fd => withDescriptor s p fd (kfstat w)
  | .fcntl fd cmd => withDescriptor s p fd fun e arena => kfcntl w e arena cmd
  | .ioctl fd => withDescriptor s p fd (kioctl w)
  | .select fd => withDescriptor s p fd (kselectOne w)
  | .dup2 oldfd newfd => withDescriptor s p oldfd fun e arena =>
      kdup2 w e arena (descriptor s p newfd)
  | .fork => (cloneFileDescriptors w (s.table p) s.dev).map fun _ => .done

end Dispatch

end Xana
