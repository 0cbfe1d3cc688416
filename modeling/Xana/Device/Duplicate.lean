import Xana.Device.Objects

/-!
# Duplicating a descriptor, whatever device is behind it

`kdup2` should either make `newfd` name the open object that `oldfd` names, or return an
error and change nothing (`Xana.Fs.AllOrNothing`). It does not look at what the `dup`
callback returns. For the keyboard, which has no `dup`, `device_dup` returns `NULL` when
it has already counted the duplicate, and `kdup2` reports success for a descriptor
without open data; another `kdup2` on that one reads through the `NULL`. A negative
`newfd` is taken as it is, and the number that is returned for it looks like an error.

What is left is that the descriptor that had the number `newfd` is closed behind the
duplication. The duplicate has been counted by then, so this frees nothing that is still
needed, unless a count has wrapped around. `Xana.Fs.allOrNothing_iff` says that this is
all.
-/

namespace Xana

open Objects

/-! ### Open data and its devices -/

/-- All devices: the pipes, the ramdisk, and `/dev`. -/
abbrev allDevices (registry : Registry)
    (getPathDevice : List UInt8 → ℕ → Objects → Option (Option (ℕ × List UInt8))) :
    Vfs (PipeHeap × Objects) := pipeVfs (objectVfs registry getPathDevice)

/-- The registered device that a block of open data is for. -/
def OpenObject.IsFor (device : ℕ) : OpenObject → Prop
  | .file _ _ => device = ramdiskDevice
  | .tty _ _ => device = ttyDevice
  | .framebuffer _ => device = fbDevice
  | .device _ _ => False

/-- A block of open data of a registered device. -/
structure OpenAt (o : Objects) (device : ℕ) (a : Addr) : Prop where
  ne_zero : a ≠ 0
  mem : a ∈ o.blocks
  isFor : (o.openData a).object.IsFor device

/-- The block of `/dev` for an open device, which has open data unless it is the
keyboard. -/
structure WrapsAt (o : Objects) (a : Addr) (device inner : ℕ) : Prop where
  ne_zero : a ≠ 0
  mem : a ∈ o.blocks
  object_eq : (o.openData a).object = .device inner device
  inner_open : device = kbdDevice ∧ inner = 0 ∨ OpenAt o device inner

/-- **What a descriptor refers to**: an end of a pipe, a file of the ramdisk, or a device
under `/dev`, where a duplicate of the keyboard refers to nothing. -/
inductive WellOpened (o : Objects) (e : Entry) : Prop
  | pipe (h : IsEnd e.device)
  | file (hdevice : e.device = ramdiskDevice) (h : OpenAt o ramdiskDevice e.data)
  | null (hdevice : e.device = deviceDevice) (h : e.data = 0)
  | device (d inner : ℕ) (hdevice : e.device = deviceDevice) (h : WrapsAt o e.data d inner)

/-- The device and the open data that a descriptor stands for, through `/dev`. -/
def openTarget (o : Objects) (e : Entry) : ℕ × ℕ :=
  if e.device = deviceDevice ∧ e.data ≠ 0 then
    match (o.openData e.data).object with
    | .device inner device => (device, inner)
    | _ => (e.device, e.data)
  else (e.device, e.data)

/-- The open data of a descriptor is in use. -/
def LiveData (dev : PipeHeap × Objects) (e : Entry) : Prop :=
  if IsEnd e.device then e.data ∈ dev.1.allocated
  else e.data ∈ dev.2.blocks ∧
    ((openTarget dev.2 e).1 = kbdDevice ∨ (openTarget dev.2 e).2 ∈ dev.2.blocks)

/-- **Two descriptors name the same open object**, before and behind a call: the same
device, open data if there was some, and the same place to read from. -/
structure SameOpen (dev : PipeHeap × Objects) (old : Entry) (dev' : PipeHeap × Objects)
    (new : Entry) : Prop where
  device_eq : new.device = old.device
  data_ne : old.data ≠ 0 → new.data ≠ 0
  openTarget_eq : openTarget dev'.2 new = openTarget dev.2 old
  live : LiveData dev' new

/-- The count of a block lets it survive one more share and one less. -/
def Survives (o : Objects) (device a : ℕ) : Prop :=
  if device = ttyDevice then increment (o.openData a).dependents ≠ 1
  else 1 < increment (o.openData a).dependents

/-! ### The callbacks -/

section Callbacks

variable {registry : Registry} {o o' : Objects} {device a b inner : ℕ} {e c : Entry}

theorem OpenObject.IsFor.ne_kbd {x : OpenObject} (h : x.IsFor device) : device ≠ kbdDevice := by
  cases x with
  | file _ _ => rw [show device = ramdiskDevice from h]; decide
  | tty _ _ => rw [show device = ttyDevice from h]; decide
  | framebuffer _ => rw [show device = fbDevice from h]; decide
  | device _ _ => exact h.elim

theorem OpenObject.IsFor.unique {x : OpenObject} {device' : ℕ} (h : x.IsFor device)
    (h' : x.IsFor device') : device = device' := by
  cases x with
  | device _ _ => exact h.elim
  | _ => exact Eq.trans h (Eq.symm h')

theorem OpenObject.IsFor.not_isEnd {x : OpenObject} (h : x.IsFor device) : ¬IsEnd device := by
  cases x with
  | file _ _ => rw [show device = ramdiskDevice from h]; decide
  | tty _ _ => rw [show device = ttyDevice from h]; decide
  | framebuffer _ => rw [show device = fbDevice from h]; decide
  | device _ _ => exact h.elim

/-- Every device with open data shares it. -/
theorem OpenObject.IsFor.dupFunc {x : OpenObject} (h : x.IsFor device) :
    (registered registry device).dupFunc = some share := by
  cases x with
  | file _ _ => rw [show device = ramdiskDevice from h]; rfl
  | tty _ _ => rw [show device = ttyDevice from h]; rfl
  | framebuffer _ => rw [show device = fbDevice from h]; rfl
  | device _ _ => exact h.elim

/-- What `close` does to the open data of a registered device. -/
def closeOpen (device a : ℕ) (o : Objects) : Objects :=
  if device = ttyDevice then
    if decrement (o.openData a).dependents = 0 then
      (o.setDependents a (decrement (o.openData a).dependents)).kfree a
    else o.setDependents a (decrement (o.openData a).dependents)
  else unshare a o

variable (registry) in
theorem OpenObject.IsFor.closeFunc {x : OpenObject} (h : x.IsFor device) :
    ∃ f, (registered registry device).closeFunc = some f ∧
      ∀ a o, a ≠ 0 → f a o = some (closeOpen device a o) := by
  cases x with
  | file _ _ =>
    rw [show device = ramdiskDevice from h]
    exact ⟨ramdiskClose, rfl, fun a o ha => if_neg ha⟩
  | tty _ _ =>
    rw [show device = ttyDevice from h]
    refine ⟨ttyClose, rfl, fun a o ha => ?_⟩
    rw [ttyClose, if_neg ha, closeOpen, if_pos rfl]
    simp [setDependents, Objects.setData]
  | framebuffer _ =>
    rw [show device = fbDevice from h]
    exact ⟨fbClose, rfl, fun a o ha => if_neg ha⟩
  | device _ _ => exact h.elim

/-- The count lets the block survive one share less. -/
def KeepsBlock (o : Objects) (device a : ℕ) : Prop :=
  if device = ttyDevice then decrement (o.openData a).dependents ≠ 0
  else 1 < (o.openData a).dependents

theorem mem_unshare_iff : b ∈ (unshare a o).blocks ↔
    b ∈ o.blocks ∧ (b = a → 1 < (o.openData a).dependents) := by
  rw [unshare]
  split_ifs with h
  · simp [h]
  · simp [Objects.kfree, h, and_comm]

theorem unshare_object : ((unshare a o).openData b).object = (o.openData b).object := by
  rw [unshare]
  split_ifs
  · exact setDependents_object
  · rfl

/-- **What `close` frees.** -/
theorem mem_closeOpen_iff : b ∈ (closeOpen device a o).blocks ↔
    b ∈ o.blocks ∧ (b = a → KeepsBlock o device a) := by
  rw [closeOpen, KeepsBlock]
  split_ifs with htty hzero
  · simp [Objects.kfree, hzero, and_comm]
  · simp [hzero]
  · exact mem_unshare_iff

theorem closeOpen_object : ((closeOpen device a o).openData b).object = (o.openData b).object := by
  rw [closeOpen]
  split_ifs
  · exact setDependents_object
  · exact setDependents_object
  · exact unshare_object

/-- One share more and one less. -/
theorem keepsBlock_iff_survives
    (h : (o'.openData a).dependents = increment (o.openData a).dependents) :
    KeepsBlock o' device a ↔ Survives o device a := by
  rw [KeepsBlock, Survives, h]
  split_ifs
  · rw [decrement]
    split_ifs <;> omega
  · rfl

/-! ### Duplicating -/

/-- What is in use stays in use, and for the same. -/
structure KeepsOpen (o o' : Objects) : Prop where
  subset : o.blocks ⊆ o'.blocks
  object_eq : ∀ b ∈ o.blocks, (o'.openData b).object = (o.openData b).object

theorem OpenAt.keeps (h : OpenAt o device a) (hg : KeepsOpen o o') : OpenAt o' device a :=
  ⟨h.ne_zero, hg.subset h.mem, by rw [hg.object_eq a h.mem]; exact h.isFor⟩

theorem WrapsAt.keeps (h : WrapsAt o a device inner) (hg : KeepsOpen o o') :
    WrapsAt o' a device inner :=
  ⟨h.ne_zero, hg.subset h.mem, by rw [hg.object_eq a h.mem]; exact h.object_eq,
    h.inner_open.imp_right fun hi => hi.keeps hg⟩

theorem WellOpened.keeps (h : WellOpened o e) (hg : KeepsOpen o o') : WellOpened o' e := by
  cases h with
  | pipe h => exact .pipe h
  | file hdevice h => exact .file hdevice (h.keeps hg)
  | null hdevice h => exact .null hdevice h
  | device d inner hdevice h => exact .device d inner hdevice (h.keeps hg)

/-- A block that is shared once more. -/
def shared (a : Addr) (o : Objects) : Objects :=
  o.setDependents a (increment (o.openData a).dependents)

theorem share_eq (ha : a ≠ 0) : share a o = some (a, shared a o) := if_neg ha

theorem keepsOpen_shared : KeepsOpen o (shared a o) := ⟨subset_rfl, fun _ _ => setDependents_object⟩

/-- The block of `/dev` and the open data behind it are two. -/
theorem WrapsAt.ne_inner (h : WrapsAt o a device inner) (hi : OpenAt o device inner) :
    inner ≠ a := by
  rintro rfl
  have hfor := hi.isFor
  rw [h.object_eq] at hfor
  exact hfor

/-- **`device_dup` for the keyboard**: it counts, and returns `NULL`. -/
theorem deviceDup_kbd (h : WrapsAt o a kbdDevice inner) :
    deviceDup registry a o = some (0, shared a o) := by
  rw [deviceDup, if_neg h.ne_zero]
  have hobject : ((shared a o).openData a).object = .device inner kbdDevice := by
    rw [shared, setDependents_object, h.object_eq]
  show (match ((shared a o).openData a).object with
    | .device inner device => _
    | _ => none) = _
  rw [hobject]
  rfl

variable (registry) in
/-- **`device_dup` for any other device**: it shares the open data, and makes a block for
the duplicate. -/
theorem deviceDup_open (h : WrapsAt o a device inner) (hi : OpenAt o device inner) :
    ∃ new o', deviceDup registry a o = some (new, o') ∧ new ∉ o.blocks ∧ new ≠ 0 ∧
      new ∈ o'.blocks ∧ (o'.openData new).object = .device inner device ∧ KeepsOpen o o' ∧
      (o'.openData inner).dependents = increment (o.openData inner).dependents := by
  have hobject : ((shared a o).openData a).object = .device inner device := by
    rw [shared, setDependents_object, h.object_eq]
  obtain ⟨hnew, hne⟩ := (shared a o).kmalloc_fresh
  obtain ⟨new, hnewdef⟩ : ∃ new, new = (shared a o).kmalloc.1 := ⟨_, rfl⟩
  rw [← hnewdef] at hnew hne
  replace hnew : new ∉ o.blocks := hnew
  have hinner : inner ≠ new := ne_of_mem_of_not_mem hi.mem hnew
  refine ⟨new, (shared inner (shared a o).kmalloc.2).setData new ⟨.device inner device, 1⟩, ?_,
    hnew, hne, ?_, ?_, ⟨fun b hb => ?_, fun b hb => ?_⟩, ?_⟩
  · rw [deviceDup, if_neg h.ne_zero]
    show (match ((shared a o).openData a).object with
      | .device inner device => _
      | _ => none) = _
    rw [hobject]
    simp only [hi.isFor.dupFunc, share_eq hi.ne_zero, Option.map_some, hnewdef]
    rfl
  · show new ∈ (shared a o).kmalloc.2.blocks
    rw [kmalloc_blocks, ← hnewdef]
    exact Finset.mem_insert_self _ _
  · rw [setData_self]
  · show b ∈ (shared a o).kmalloc.2.blocks
    rw [kmalloc_blocks]
    exact Finset.mem_insert_of_mem hb
  · have hb' : b ≠ new := ne_of_mem_of_not_mem hb hnew
    rw [setData_of_ne hb', shared, setDependents_object, kmalloc_openData, shared,
      setDependents_object]
  · rw [setData_of_ne hinner, shared, setDependents_self, kmalloc_openData, shared,
      setDependents_of_ne (h.ne_inner hi)]

/-! ### Closing -/

variable {h' : PipeHeap} {heap : PipeHeap}
variable {getPathDevice : List UInt8 → ℕ → Objects → Option (Option (ℕ × List UInt8))}

theorem openTarget_file (h : e.device = ramdiskDevice) :
    openTarget o e = (ramdiskDevice, e.data) := by
  have hne : ¬(e.device = deviceDevice ∧ e.data ≠ 0) := by
    rw [h]
    rintro ⟨hc, -⟩
    exact absurd hc (by decide)
  rw [openTarget, if_neg hne, h]

theorem openTarget_null (h : e.device = deviceDevice) (hnull : e.data = 0) :
    openTarget o e = (deviceDevice, 0) := by
  rw [openTarget, if_neg (by simp [hnull]), h, hnull]

theorem openTarget_device (hdevice : e.device = deviceDevice) (h : WrapsAt o e.data device inner) :
    openTarget o e = (device, inner) := by
  rw [openTarget, if_pos ⟨hdevice, h.ne_zero⟩, h.object_eq]

theorem openTarget_pipe (h : IsEnd e.device) : openTarget o e = (e.device, e.data) := by
  rw [openTarget, if_neg]
  rintro ⟨hdevice, -⟩
  rw [hdevice] at h
  exact absurd h (by decide)

theorem not_isEnd_file (h : e.device = ramdiskDevice) : ¬IsEnd e.device := by
  rw [h]
  decide

theorem not_isEnd_device (h : e.device = deviceDevice) : ¬IsEnd e.device := by
  rw [h]
  decide

theorem allDevices_device (h : ¬IsEnd device) :
    (allDevices registry getPathDevice).device device =
      ((objectVfs registry getPathDevice).device device).besidePipes := if_neg h

/-- The `close` of a device other than the pipes. -/
theorem callClose_beside (h : ¬IsEnd e.device) :
    Fs.callClose (allDevices registry getPathDevice) e (heap, o) =
      (Fs.callClose (objectVfs registry getPathDevice) e o).map fun o' => (heap, o') := by
  simp only [Fs.callClose, allDevices_device h, Device.besidePipes]
  cases ((objectVfs registry getPathDevice).device e.device).closeFunc with
  | none => rfl
  | some f => rfl

/-- `close` for a file of the ramdisk. -/
theorem callClose_file (hdevice : c.device = ramdiskDevice) (h : c.data ≠ 0) :
    Fs.callClose (allDevices registry getPathDevice) c (heap, o) =
      some (heap, closeOpen ramdiskDevice c.data o) := by
  rw [callClose_beside (not_isEnd_file hdevice), Fs.callClose, hdevice]
  show (ramdiskClose c.data o).map _ = _
  rw [ramdiskClose, if_neg h]
  rfl

/-- `close` for a device under `/dev`. -/
theorem callClose_device (hdevice : c.device = deviceDevice) :
    Fs.callClose (allDevices registry getPathDevice) c (heap, o) =
      (deviceClose registry c.data o).map fun o' => (heap, o') := by
  rw [callClose_beside (not_isEnd_device hdevice), Fs.callClose, hdevice]
  rfl

variable (registry) in
/-- **`device_close`** drops the open data of the device, and then its own block. -/
theorem deviceClose_eq (h : WrapsAt o a device inner) :
    (device = kbdDevice ∧ deviceClose registry a o = some (unshare a o)) ∨
      (OpenAt o device inner ∧
        deviceClose registry a o = some (unshare a (closeOpen device inner o))) := by
  have hnone : (registered registry device).closeFunc = none →
      deviceClose registry a o = some (unshare a o) := fun hf => by
    simp only [deviceClose, if_neg h.ne_zero, h.object_eq, hf]
  have hsome : ∀ {f}, (registered registry device).closeFunc = some f →
      deviceClose registry a o = (f inner o).map (unshare a) := fun hf => by
    simp only [deviceClose, if_neg h.ne_zero, h.object_eq, hf]
  rcases h.inner_open with ⟨rfl, -⟩ | hi
  · exact Or.inl ⟨rfl, hnone rfl⟩
  · obtain ⟨f, hf, hclose⟩ := hi.isFor.closeFunc registry
    rw [hsome hf]
    exact Or.inr ⟨hi, by simp only [hclose inner o hi.ne_zero, Option.map_some]⟩

variable (registry heap getPathDevice) in
/-- **What closing a descriptor does to the open data**: the blocks are for what they were
for; open data is freed if the descriptor stands for it and its count is at the end; and
no block of `/dev` but its own is freed. -/
theorem exists_callClose (hc : WellOpened o c) :
    ∃ heap' o', Fs.callClose (allDevices registry getPathDevice) c (heap, o) = some (heap', o') ∧
      (∀ b, (o'.openData b).object = (o.openData b).object) ∧
      (∀ device b, OpenAt o device b →
        (b ∈ o'.blocks ↔ (openTarget o c = (device, b) → KeepsBlock o device b))) ∧
      ∀ b device inner, b ∈ o.blocks → (o.openData b).object = .device inner device →
        (¬IsEnd c.device → b ≠ c.data) → b ∈ o'.blocks := by
  cases hc with
  | pipe h =>
    refine ⟨pipeClose c.device c.data heap, o, ?_, fun _ => rfl, fun device b hb => ?_,
      fun b _ _ hb _ _ => hb⟩
    · simp only [Fs.callClose, allDevices, pipeVfs, if_pos h, pipeDevice]
    · refine iff_of_true hb.mem fun htarget => ?_
      rw [openTarget_pipe h, Prod.mk.injEq] at htarget
      exact absurd (htarget.1 ▸ h) hb.isFor.not_isEnd
  | file hdevice h =>
    refine ⟨heap, closeOpen ramdiskDevice c.data o, callClose_file hdevice h.ne_zero,
      fun _ => closeOpen_object, fun device b hb => ?_, fun b device inner hb hobject hne => ?_⟩
    · rw [mem_closeOpen_iff, openTarget_file hdevice, Prod.mk.injEq]
      constructor
      · rintro ⟨-, hkeeps⟩ ⟨rfl, rfl⟩
        exact hkeeps rfl
      · intro hkeeps
        refine ⟨hb.mem, ?_⟩
        rintro rfl
        obtain rfl := hb.isFor.unique h.isFor
        exact hkeeps ⟨rfl, rfl⟩
    · rw [mem_closeOpen_iff]
      exact ⟨hb, fun hc => absurd hc (hne (not_isEnd_file hdevice))⟩
  | null hdevice h =>
    refine ⟨heap, o, ?_, fun _ => rfl, fun device b hb => ?_, fun b _ _ hb _ _ => hb⟩
    · rw [callClose_device hdevice, deviceClose, if_pos h]
      rfl
    · refine iff_of_true hb.mem fun htarget => ?_
      rw [openTarget_null hdevice h, Prod.mk.injEq] at htarget
      exact absurd htarget.2.symm hb.ne_zero
  | device d inner hdevice h =>
    have htarget := openTarget_device hdevice h
    -- open data is not a block of `/dev`
    have hdata : ∀ device b, OpenAt o device b → b ≠ c.data := by
      rintro device b hb rfl
      have hfor := hb.isFor
      rw [h.object_eq] at hfor
      exact hfor
    rcases deviceClose_eq registry h with ⟨rfl, hclose⟩ | ⟨hi, hclose⟩
    · refine ⟨heap, unshare c.data o, by rw [callClose_device hdevice, hclose]; rfl,
        fun _ => unshare_object, fun device b hb => ?_, fun b device inner hb hobject hne => ?_⟩
      · rw [mem_unshare_iff, htarget, Prod.mk.injEq]
        refine iff_of_true ⟨hb.mem, fun hc => absurd hc (hdata device b hb)⟩ ?_
        rintro ⟨hdev, -⟩
        exact absurd hdev.symm hb.isFor.ne_kbd
      · rw [mem_unshare_iff]
        exact ⟨hb, fun hc => absurd hc (hne (not_isEnd_device hdevice))⟩
    · refine ⟨heap, unshare c.data (closeOpen d inner o),
        by rw [callClose_device hdevice, hclose]; rfl,
        fun _ => unshare_object.trans closeOpen_object, fun device b hb => ?_,
        fun b device inner' hb hobject hne => ?_⟩
      · rw [mem_unshare_iff, mem_closeOpen_iff, htarget, Prod.mk.injEq]
        constructor
        · rintro ⟨⟨-, hkeeps⟩, -⟩ ⟨rfl, rfl⟩
          exact hkeeps rfl
        · intro hkeeps
          refine ⟨⟨hb.mem, ?_⟩, fun hc => absurd hc (hdata device b hb)⟩
          rintro rfl
          obtain rfl := hb.isFor.unique hi.isFor
          exact hkeeps ⟨rfl, rfl⟩
      · have hinner : b ≠ inner := by
          rintro rfl
          have hfor := hi.isFor
          rw [hobject] at hfor
          exact hfor
        rw [mem_unshare_iff, mem_closeOpen_iff]
        exact ⟨⟨hb, fun hc => absurd hc hinner⟩,
          fun hc => absurd hc (hne (not_isEnd_device hdevice))⟩

/-- What a descriptor stands for is in the objects of the blocks. -/
theorem openTarget_congr (h : (o'.openData e.data).object = (o.openData e.data).object) :
    openTarget o' e = openTarget o e := by
  rw [openTarget, openTarget, h]

theorem WellOpened.openTarget_keeps (h : WellOpened o e) (hk : KeepsOpen o o') :
    openTarget o' e = openTarget o e := by
  cases h with
  | pipe h => rw [openTarget_pipe h, openTarget_pipe h]
  | file hdevice h => exact openTarget_congr (hk.object_eq _ h.mem)
  | null hdevice h => rw [openTarget_null hdevice h, openTarget_null hdevice h]
  | device d inner hdevice h => exact openTarget_congr (hk.object_eq _ h.mem)

variable (registry heap getPathDevice) in
/-- **What the `dup` callback returns** for open data other than a pipe's: the open data
itself, or a new block of `/dev` for it; and the open data has one more share. -/
theorem exists_dup (h : WellOpened o e) (hend : ¬IsEnd e.device) (hdata : e.data ≠ 0)
    (hkbd : (openTarget o e).1 ≠ kbdDevice) :
    ∃ f data o' device inner,
      ((allDevices registry getPathDevice).device e.device).dupFunc = some f ∧
      f e.data (heap, o) = some (data, heap, o') ∧ KeepsOpen o o' ∧ data ≠ 0 ∧
      openTarget o e = (device, inner) ∧ OpenAt o device inner ∧
      (o'.openData inner).dependents = increment (o.openData inner).dependents ∧
      (∀ e' : Entry, e'.device = e.device → e'.data = data →
        openTarget o' e' = (device, inner)) ∧
      (data = inner ∨ (data ∉ o.blocks ∧ data ∈ o'.blocks ∧
        (o'.openData data).object = .device inner device)) := by
  cases h with
  | pipe h => exact absurd h hend
  | file hdevice h =>
    refine ⟨fun data dev => (ramdiskDup data dev.2).map fun r => (r.1, dev.1, r.2), e.data,
      shared e.data o, ramdiskDevice, e.data, ?_, ?_, keepsOpen_shared, hdata,
      openTarget_file hdevice, h, setDependents_self, fun e' hdevice' hdata' => ?_, Or.inl rfl⟩
    · rw [allDevices_device hend, hdevice]
      rfl
    · show (share e.data o).map _ = _
      rw [share_eq hdata]
      rfl
    · rw [openTarget_file (hdevice'.trans hdevice), hdata']
  | null hdevice h => exact absurd h hdata
  | device d inner hdevice h =>
    rw [openTarget_device hdevice h] at hkbd
    have hi : OpenAt o d inner := h.inner_open.resolve_left fun hc => hkbd hc.1
    obtain ⟨new, o', hdup, hnew, hne, hmem, hobject, hkeeps, hcount⟩ :=
      deviceDup_open registry h hi
    refine ⟨fun data dev => (deviceDup registry data dev.2).map fun r => (r.1, dev.1, r.2), new,
      o', d, inner, ?_, ?_, hkeeps, hne, openTarget_device hdevice h, hi, hcount,
      fun e' hdevice' hdata' => ?_, Or.inr ⟨hnew, hmem, hobject⟩⟩
    · rw [allDevices_device hend, hdevice]
      rfl
    · show (deviceDup registry e.data o).map _ = _
      rw [hdup]
      rfl
    · rw [openTarget, if_pos ⟨hdevice'.trans hdevice, hdata' ▸ hne⟩, hdata', hobject]

end Callbacks

/-! ### `kdup2` -/

namespace Fs

variable {s s' : Fs (PipeHeap × Objects)} {L : ℕ → List Addr} {lo : ℤ} {p : ℕ}

/-- **`kdup2` is all or nothing**: it returns an error and changes nothing, or it returns
`newfd`, which names the open object that `oldfd` names. -/
def AllOrNothing (registry : Registry)
    (getPathDevice : List UInt8 → ℕ → Objects → Option (Option (ℕ × List UInt8))) (m : Kmalloc)
    (s : Fs (PipeHeap × Objects)) (p : ℕ) (oldfd newfd : ℤ) : Prop :=
  ∃ r s', s.kdup2 (allDevices registry getPathDevice) m p oldfd newfd = some (r, s') ∧
    (r < 0 ∧ s' = s ∨
      r = newfd ∧ 0 ≤ newfd ∧ ∃ old ∈ s.table p, ∃ new ∈ s'.table p,
        old.descriptorId = oldfd ∧ new.descriptorId = newfd ∧ SameOpen s.dev old s'.dev new)

/-- **The descriptor can be duplicated**: the new number is not negative, the descriptor
has open data, which is not the keyboard's, and closing the one that has the new number
does not free it. -/
def Duplicable (s : Fs (PipeHeap × Objects)) (p : ℕ) (oldfd newfd : ℤ) : Prop :=
  ∀ old ∈ s.table p, old.descriptorId = oldfd → 0 ≤ newfd ∧
    (¬IsEnd old.device → old.data ≠ 0 ∧ (openTarget s.dev.2 old).1 ≠ kbdDevice ∧
      ∀ c ∈ s.table p, c.descriptorId = newfd →
        openTarget s.dev.2 c = openTarget s.dev.2 old →
        Survives s.dev.2 (openTarget s.dev.2 old).1 (openTarget s.dev.2 old).2)

variable {registry : Registry}
variable {getPathDevice : List UInt8 → ℕ → Objects → Option (Option (ℕ × List UInt8))}

variable (registry getPathDevice) in
/-- `kdup2` for an end of a pipe. -/
theorem kdup2_shares_pipe (h : s.Tables L lo) (hi : PipeInv s.descriptors s.dev.1) (m : Kmalloc)
    (hopen : ∀ e ∈ s.table p, WellOpened s.dev.2 e) {a : Addr} (ha : a ∈ L p)
    (hend : IsEnd (s.entry a).device) (newfd : ℤ) :
    ∃ s' new, s.kdup2 (allDevices registry getPathDevice) m p (s.id a) newfd = some (newfd, s') ∧
      s' ≠ s ∧ new ∈ s'.table p ∧ new.descriptorId = newfd ∧
      SameOpen s.dev (s.entry a) s'.dev new := by
  have hdup : ((allDevices registry getPathDevice).device (s.entry a).device).dupFunc =
      some fun data dev => some ((pipeDup (s.entry a).device data dev.1).1,
        (pipeDup (s.entry a).device data dev.1).2, dev.2) := by
    simp only [allDevices, pipeVfs, if_pos hend, pipeDevice]
  obtain ⟨heap, hheap⟩ : ∃ heap, heap = (pipeDup (s.entry a).device (s.entry a).data s.dev.1).2 :=
    ⟨_, rfl⟩
  have hret : some ((pipeDup (s.entry a).device (s.entry a).data s.dev.1).1,
      (pipeDup (s.entry a).device (s.entry a).data s.dev.1).2, s.dev.2) =
      some ((s.entry a).data, heap, s.dev.2) := by
    rw [hheap]
    rfl
  have hsome : (s.kdup2 (allDevices registry getPathDevice) m p (s.id a) newfd).isSome := by
    refine kdup2_isSome h _ m ha hdup hret fun c hc _ => ?_
    obtain ⟨heap', o', hclose, -⟩ := exists_callClose registry heap getPathDevice
      (hopen _ (h.entry_mem_table hc))
    rw [hclose]
    rfl
  obtain ⟨⟨r, s'⟩, hs⟩ := Option.isSome_iff_exists.mp hsome
  obtain ⟨rfl, hchange, ⟨new, hmem, hnew, -⟩, -⟩ := kdup2_result h _ m ha hdup hret hs
  obtain ⟨⟨L', ht'⟩, hi', -⟩ := kdup2_pipes (h.mono (min_le_left lo r)) hi m (h.of_mem ha)
    (min_le_right lo r) hs
  have hdevice : new.device = (s.entry a).device := by rw [hnew]
  have hdata : new.data = (s.entry a).data := by rw [hnew]
  have hend' : IsEnd new.device := hdevice ▸ hend
  have hused : Used s'.descriptors new.data :=
    used_of_mem (mem_descriptors (ht'.mem_procs hmem) hmem) hend'
  refine ⟨s', new, hs, hchange, hmem, by rw [hnew], hdevice, fun hne => hdata ▸ hne, ?_, ?_⟩
  · rw [openTarget_pipe hend', openTarget_pipe hend, hdevice, hdata]
  · rw [LiveData, if_pos hend']
    exact (hi'.alloc _ hused).1

variable (registry getPathDevice) in
/-- **`kdup2` for other open data**: it returns `newfd`, which stands for what `oldfd`
stands for; and that is still in use unless closing has freed it. -/
theorem kdup2_shares (h : s.Tables L lo) (m : Kmalloc)
    (hopen : ∀ e ∈ s.table p, WellOpened s.dev.2 e) {a : Addr} (ha : a ∈ L p)
    (hend : ¬IsEnd (s.entry a).device) (hdata : (s.entry a).data ≠ 0)
    (hkbd : (openTarget s.dev.2 (s.entry a)).1 ≠ kbdDevice) (newfd : ℤ) :
    ∃ s' new, s.kdup2 (allDevices registry getPathDevice) m p (s.id a) newfd = some (newfd, s') ∧
      s' ≠ s ∧ new ∈ s'.table p ∧ (∀ e ∈ s'.table p, e.descriptorId = newfd → e = new) ∧
      new.descriptorId = newfd ∧ new.device = (s.entry a).device ∧ new.data ≠ 0 ∧
      openTarget s'.dev.2 new = openTarget s.dev.2 (s.entry a) ∧
      (LiveData s'.dev new ↔ ∀ c ∈ s.table p, c.descriptorId = newfd →
        openTarget s.dev.2 c = openTarget s.dev.2 (s.entry a) →
        Survives s.dev.2 (openTarget s.dev.2 (s.entry a)).1
          (openTarget s.dev.2 (s.entry a)).2) := by
  obtain ⟨f, data, o', device, inner, hdup, hret, hkeeps, hne, htarget, hat, hcount,
      hnew, hblock⟩ :=
    exists_dup registry s.dev.1 getPathDevice
      (hopen _ (h.entry_mem_table ha)) hend hdata hkbd
  have hsome : (s.kdup2 (allDevices registry getPathDevice) m p (s.id a) newfd).isSome := by
    refine kdup2_isSome h _ m ha hdup hret fun c hc _ => ?_
    obtain ⟨heap', o'', hclose, -⟩ := exists_callClose registry s.dev.1 getPathDevice
      ((hopen _ (h.entry_mem_table hc)).keeps hkeeps)
    rw [hclose]
    rfl
  obtain ⟨⟨r, s'⟩, hs⟩ := Option.isSome_iff_exists.mp hsome
  obtain ⟨rfl, hchange, ⟨new, hmem', rfl, huniq⟩, hrest⟩ := kdup2_result h _ m ha hdup hret hs
  refine ⟨s', _, hs, hchange, hmem', huniq, rfl, rfl, hne, ?_⟩
  have htarget' := hnew ⟨r, dropCloexec (s.entry a).flags, (s.entry a).device, data⟩ rfl rfl
  have hkbd' : device ≠ kbdDevice := by
    rw [htarget] at hkbd
    exact hkbd
  rw [htarget]
  rcases hrest with ⟨hdev, hfree⟩ | ⟨c, hc, hid, hclose⟩
  · -- there was no descriptor with the number
    rw [hdev]
    refine ⟨htarget', iff_of_true ?_ fun c hc hid => absurd hid (hfree c hc)⟩
    rw [LiveData, if_neg hend, htarget']
    refine ⟨?_, Or.inr (hkeeps.subset hat.mem)⟩
    rcases hblock with rfl | ⟨-, hb, -⟩
    · exact hkeeps.subset hat.mem
    · exact hb
  · have hcopen := hopen c hc
    obtain ⟨heap', o'', hclose', hobject, hblocks, hwraps⟩ := exists_callClose
      registry s.dev.1 getPathDevice (hcopen.keeps hkeeps)
    obtain hdev := Option.some.inj (hclose.symm.trans hclose')
    have hsame : openTarget s'.dev.2 ⟨r, dropCloexec (s.entry a).flags, (s.entry a).device, data⟩ =
        (device, inner) := by
      rw [hdev, openTarget_congr (hobject _), htarget']
    refine ⟨hsame, ?_⟩
    have hinner : inner ∈ s'.dev.2.blocks ↔
        (openTarget s.dev.2 c = (device, inner) → Survives s.dev.2 device inner) := by
      rw [hdev, hblocks device inner (hat.keeps hkeeps), hcopen.openTarget_keeps hkeeps,
        keepsBlock_iff_survives hcount]
    have hwrap : inner ∈ s'.dev.2.blocks → data ∈ s'.dev.2.blocks := by
      intro hin
      rcases hblock with rfl | ⟨hfresh, hb, hobj⟩
      · exact hin
      · rw [hdev]
        refine hwraps data device inner hb hobj fun hcend => ?_
        -- the new block is not the one of the descriptor that is closed
        rintro rfl
        cases hcopen with
        | pipe hp => exact hcend hp
        | file _ hfile => exact hfresh hfile.mem
        | null _ hnull => exact hne hnull
        | device _ _ _ hw => exact hfresh hw.mem
    rw [LiveData, if_neg hend, hsame]
    constructor
    · rintro ⟨-, hk | hin⟩ c' hc' hid'
      · exact absurd hk hkbd'
      · obtain rfl := h.eq_of_descriptorId hc' hc (hid'.trans hid.symm)
        exact hinner.mp hin
    · intro hall
      have hin := hinner.mpr (hall c hc hid)
      exact ⟨hwrap hin, Or.inr hin⟩

variable (registry getPathDevice) in
/-- `kdup2` for a descriptor of `/dev` without open data. -/
theorem kdup2_null (h : s.Tables L lo) (m : Kmalloc) {a : Addr}
    (hopen : WellOpened s.dev.2 (s.entry a)) (ha : a ∈ L p) (hend : ¬IsEnd (s.entry a).device)
    (hdata : (s.entry a).data = 0) (newfd : ℤ) :
    s.kdup2 (allDevices registry getPathDevice) m p (s.id a) newfd = none := by
  have hdevice : (s.entry a).device = deviceDevice := by
    cases hopen with
    | pipe h => exact absurd h hend
    | file _ h => exact absurd hdata h.ne_zero
    | null hdevice _ => exact hdevice
    | device _ _ hdevice _ => exact hdevice
  have hdup : ((allDevices registry getPathDevice).device (s.entry a).device).dupFunc =
      some fun data dev => (deviceDup registry data dev.2).map fun r => (r.1, dev.1, r.2) := by
    rw [allDevices_device hend, hdevice]
    rfl
  refine kdup2_of_dup_none h _ m ha hdup ?_
  rw [deviceDup, if_pos hdata]
  rfl

variable (registry getPathDevice) in
/-- `kdup2` for the keyboard: the duplicate has no open data. -/
theorem kdup2_kbd (h : s.Tables L lo) (m : Kmalloc)
    (hopen : ∀ e ∈ s.table p, WellOpened s.dev.2 e) {a : Addr} (ha : a ∈ L p)
    (hend : ¬IsEnd (s.entry a).device) (hdata : (s.entry a).data ≠ 0)
    (hkbd : (openTarget s.dev.2 (s.entry a)).1 = kbdDevice) (newfd : ℤ) :
    ∃ s', s.kdup2 (allDevices registry getPathDevice) m p (s.id a) newfd = some (newfd, s') ∧
      s' ≠ s ∧ ∀ new ∈ s'.table p, new.descriptorId = newfd → new.data = 0 := by
  obtain ⟨inner, hdevice, hw⟩ : ∃ inner, (s.entry a).device = deviceDevice ∧
      WrapsAt s.dev.2 (s.entry a).data kbdDevice inner := by
    cases hopen _ (h.entry_mem_table ha) with
    | pipe h => exact absurd h hend
    | file hdevice h =>
      rw [openTarget_file hdevice] at hkbd
      exact absurd hkbd h.isFor.ne_kbd
    | null _ h => exact absurd h hdata
    | device d inner hdevice h =>
      rw [openTarget_device hdevice h] at hkbd
      exact ⟨inner, hdevice, hkbd ▸ h⟩
  have hdup : ((allDevices registry getPathDevice).device (s.entry a).device).dupFunc =
      some fun data dev => (deviceDup registry data dev.2).map fun r => (r.1, dev.1, r.2) := by
    rw [allDevices_device hend, hdevice]
    rfl
  have hret : (deviceDup registry (s.entry a).data s.dev.2).map
      (fun r => (r.1, s.dev.1, r.2)) = some (0, s.dev.1, shared (s.entry a).data s.dev.2) := by
    rw [deviceDup_kbd hw]
    rfl
  have hsome : (s.kdup2 (allDevices registry getPathDevice) m p (s.id a) newfd).isSome := by
    refine kdup2_isSome h _ m ha hdup hret fun c hc _ => ?_
    obtain ⟨heap', o'', hclose, -⟩ := exists_callClose registry s.dev.1 getPathDevice
      ((hopen _ (h.entry_mem_table hc)).keeps keepsOpen_shared)
    rw [hclose]
    rfl
  obtain ⟨⟨r, s'⟩, hs⟩ := Option.isSome_iff_exists.mp hsome
  obtain ⟨rfl, hchange, ⟨new, hmem, hnew, huniq⟩, -⟩ := kdup2_result h _ m ha hdup hret hs
  refine ⟨s', hs, hchange, fun e he hid => ?_⟩
  rw [huniq e he hid, hnew]

/-- **When `kdup2` is all or nothing**, for every table whose descriptors refer to what is
open. -/
theorem allOrNothing_iff (h : s.Tables L lo) (hi : PipeInv s.descriptors s.dev.1) (m : Kmalloc)
    (hopen : ∀ e ∈ s.table p, WellOpened s.dev.2 e) (oldfd newfd : ℤ) :
    AllOrNothing registry getPathDevice m s p oldfd newfd ↔ Duplicable s p oldfd newfd := by
  rcases Tables.split_or L s p oldfd with ⟨l₁, a, l₂, hL, rfl⟩ | hfree
  case inr =>
    have hnone : ∀ old ∈ s.table p, old.descriptorId ≠ oldfd := by
      rw [h.table_eq]
      exact List.forall_mem_map.mpr hfree
    refine iff_of_true ⟨-eBADF, s, kdup2_of_notMem h _ m hfree, Or.inl ⟨by decide, rfl⟩⟩ ?_
    exact fun old hold hid => absurd hid (hnone old hold)
  have ha : a ∈ L p := by simp [hL]
  have hmem := h.entry_mem_table ha
  have hold : ∀ old ∈ s.table p, old.descriptorId = s.id a → old = s.entry a :=
    fun old ho hid => h.eq_of_descriptorId ho hmem hid
  have hduplicable : Duplicable s p (s.id a) newfd ↔ 0 ≤ newfd ∧ (¬IsEnd (s.entry a).device →
      (s.entry a).data ≠ 0 ∧ (openTarget s.dev.2 (s.entry a)).1 ≠ kbdDevice ∧
        ∀ c ∈ s.table p, c.descriptorId = newfd →
          openTarget s.dev.2 c = openTarget s.dev.2 (s.entry a) →
          Survives s.dev.2 (openTarget s.dev.2 (s.entry a)).1
            (openTarget s.dev.2 (s.entry a)).2) := by
    constructor
    · intro hd
      exact hd _ hmem rfl
    · rintro hd old ho hid
      rw [hold old ho hid]
      exact hd
  -- the call has changed something, and so it has to succeed
  have hsucceeds : ∀ {s'}, s.kdup2 (allDevices registry getPathDevice) m p (s.id a) newfd =
      some (newfd, s') → s' ≠ s → (AllOrNothing registry getPathDevice m s p (s.id a) newfd ↔
        0 ≤ newfd ∧ ∃ new ∈ s'.table p, new.descriptorId = newfd ∧
          SameOpen s.dev (s.entry a) s'.dev new) := by
    intro s' hs hchange
    constructor
    · rintro ⟨r, s'', hs', hr⟩
      obtain ⟨rfl, rfl⟩ := Prod.mk.inj (Option.some.inj (hs.symm.trans hs'))
      rcases hr with ⟨-, hc⟩ | ⟨-, hnew, old, ho, new, hn, hid, hid', hsame⟩
      · exact absurd hc hchange
      · rw [hold old ho hid] at hsame
        exact ⟨hnew, new, hn, hid', hsame⟩
    · rintro ⟨hnew, new, hn, hid, hsame⟩
      exact ⟨newfd, s', hs, Or.inr ⟨rfl, hnew, _, hmem, new, hn, rfl, hid, hsame⟩⟩
  rw [hduplicable]
  by_cases hend : IsEnd (s.entry a).device
  · obtain ⟨s', new, hs, hchange, hn, hid, hsame⟩ :=
      kdup2_shares_pipe registry getPathDevice h hi m hopen ha
        hend newfd
    rw [hsucceeds hs hchange]
    constructor
    · rintro ⟨hnew, -⟩
      exact ⟨hnew, fun hc => absurd hend hc⟩
    · rintro ⟨hnew, -⟩
      exact ⟨hnew, new, hn, hid, hsame⟩
  by_cases hdata : (s.entry a).data = 0
  · -- `device_dup` reads through the `NULL`
    have hnone := kdup2_null registry getPathDevice h m
      (hopen _ hmem) ha hend hdata newfd
    constructor
    · rintro ⟨r, s', hs, -⟩
      simp [hnone] at hs
    · rintro ⟨-, hc⟩
      exact absurd hdata (hc hend).1
  by_cases hkbd : (openTarget s.dev.2 (s.entry a)).1 = kbdDevice
  · obtain ⟨s', hs, hchange, hnull⟩ := kdup2_kbd registry
      getPathDevice h m hopen ha hend hdata hkbd newfd
    rw [hsucceeds hs hchange]
    constructor
    · rintro ⟨-, new, hn, hid, hsame⟩
      exact absurd (hnull new hn hid) (hsame.data_ne hdata)
    · rintro ⟨-, hc⟩
      exact absurd hkbd (hc hend).2.1
  · obtain ⟨s', new, hs, hchange, hn, huniq, hid, hdevice, hne, htarget, hlive⟩ :=
      kdup2_shares registry getPathDevice h m hopen ha hend hdata
        hkbd newfd
    rw [hsucceeds hs hchange]
    constructor
    · rintro ⟨hnew, new', hn', hid', hsame⟩
      rw [huniq new' hn' hid'] at hsame
      exact ⟨hnew, fun _ => ⟨hdata, hkbd, hlive.mp hsame.live⟩⟩
    · rintro ⟨hnew, hc⟩
      exact ⟨hnew, new, hn, hid, hdevice, fun _ => hne, htarget, hlive.mpr (hc hend).2.2⟩

/-! ### A descriptor of a device -/

/-- A registry in which nothing is found. -/
def noRegistry : Registry := ⟨fun _ => none, fun _ => none, fun _ => none⟩

/-- A process whose descriptor 0 is for a device under `/dev`. -/
def oneDevice (openData : Addr → OpenData) : Fs (PipeHeap × Objects) :=
  ⟨fun _ => ⟨0, 0, deviceDevice, 1⟩, fun _ => none, {1}, {0},
    fun p => if p = 0 then some 1 else none,
    ⟨fun _ => Pipe.new fun _ => 0, fun _ => 0, ∅, [], []⟩, ⟨openData, {1, 2}, bump⟩⟩

/-- The open data of a framebuffer, and of the block of `/dev` for it. -/
def framebufferData (a : Addr) : OpenData :=
  if a = 1 then ⟨.device 2 fbDevice, 1⟩ else ⟨.framebuffer 0, 1⟩

/-- The block of `/dev` for the keyboard. -/
def keyboardData (_ : Addr) : OpenData := ⟨.device 0 kbdDevice, 1⟩

section OneDevice

variable {openData : Addr → OpenData}

theorem tables_oneDevice :
    (oneDevice openData).Tables fun p => if p = 0 then [1] else [] where
  seg p := by
    by_cases hp : p = 0
    · simp only [oneDevice, hp, if_true]
      exact ⟨rfl, rfl⟩
    · simp only [oneDevice, hp, if_false]
      rfl
  alloc p a ha := by
    split_ifs at ha <;> simp_all [oneDevice]
  disjoint p q hpq a ha := by
    split_ifs at ha ⊢ <;> simp_all
  sorted p := by
    split_ifs <;> simp
  lo_le p a ha := le_rfl
  lo_nonpos := le_rfl
  absent p hp := by
    rw [if_neg]
    rintro rfl
    exact hp (Finset.mem_singleton_self 0)

theorem table_oneDevice : (oneDevice openData).table 0 = [⟨0, 0, deviceDevice, 1⟩] := by
  rw [tables_oneDevice.table_eq]
  rfl

theorem pipeInv_oneDevice :
    PipeInv (oneDevice openData).descriptors (oneDevice openData).dev.1 := by
  have hd : (oneDevice openData).descriptors = {⟨0, 0, deviceDevice, 1⟩} := by
    show ∑ q ∈ {0}, ((oneDevice openData).table q : Multiset Entry) = _
    rw [Finset.sum_singleton, table_oneDevice]
    rfl
  have hu : ∀ x, ¬Used (oneDevice openData).descriptors x := by
    intro x hx
    rw [hd, ← Multiset.cons_zero, used_cons] at hx
    rcases hx with ⟨hend, -⟩ | hx
    · exact absurd hend (by decide)
    · exact not_used_iff.mpr (fun d _ => rfl) hx
  exact ⟨fun x _ hx => absurd hx (hu x), fun x hx => absurd hx (hu x),
    fun x _ hx => absurd hx (hu x), fun b hb => absurd hb (Finset.notMem_empty b), fun _ => rfl⟩

end OneDevice

theorem wellOpened_framebuffer :
    ∀ e ∈ (oneDevice framebufferData).table 0, WellOpened (oneDevice framebufferData).dev.2 e := by
  rw [table_oneDevice]
  intro e he
  rw [List.mem_singleton.mp he]
  refine .device fbDevice 2 rfl ⟨by decide, by decide, rfl, Or.inr ⟨by decide, by decide, ?_⟩⟩
  rfl

theorem wellOpened_keyboard :
    ∀ e ∈ (oneDevice keyboardData).table 0, WellOpened (oneDevice keyboardData).dev.2 e := by
  rw [table_oneDevice]
  intro e he
  rw [List.mem_singleton.mp he]
  exact .device kbdDevice 0 rfl ⟨by decide, by decide, rfl, Or.inl ⟨rfl, rfl⟩⟩

/-- The framebuffer can be duplicated. -/
theorem allOrNothing_iff_framebuffer :
    AllOrNothing noRegistry (fun _ _ _ => some none) bump (oneDevice framebufferData) 0 0 3 := by
  refine (allOrNothing_iff tables_oneDevice pipeInv_oneDevice bump wellOpened_framebuffer 0 3).mpr
    ?_
  rw [Duplicable, table_oneDevice]
  intro old hold _
  rw [List.mem_singleton.mp hold]
  refine ⟨by decide, fun _ => ⟨by decide, by decide, fun c hc hid => ?_⟩⟩
  rw [List.mem_singleton.mp hc] at hid
  exact absurd hid (by decide)

/-- The keyboard can not: `kdup2` returns 3, and descriptor 3 has no open data. -/
theorem not_allOrNothing_keyboard :
    (∀ e ∈ (oneDevice keyboardData).table 0, WellOpened (oneDevice keyboardData).dev.2 e) ∧
      (∃ s', (oneDevice keyboardData).kdup2 (allDevices noRegistry fun _ _ _ => some none) bump 0
        0 3 = some (3, s') ∧ s' ≠ oneDevice keyboardData ∧
          ∀ new ∈ s'.table 0, new.descriptorId = 3 → new.data = 0) ∧
      ¬AllOrNothing noRegistry (fun _ _ _ => some none) bump (oneDevice keyboardData) 0 0 3 := by
  have hkbd := kdup2_kbd noRegistry (fun _ _ _ => some none)
    tables_oneDevice bump wellOpened_keyboard (a := 1) (by decide) (by decide) (by decide)
    (by decide) 3
  refine ⟨wellOpened_keyboard, hkbd, ?_⟩
  obtain ⟨s', hs, hchange, hnull⟩ := hkbd
  rintro ⟨r, s'', hs', hr⟩
  obtain ⟨rfl, rfl⟩ := Prod.mk.inj (Option.some.inj (hs.symm.trans hs'))
  rcases hr with ⟨-, hc⟩ | ⟨-, -, old, ho, new, hn, -, hid, hsame⟩
  · exact hchange hc
  · rw [table_oneDevice, List.mem_singleton] at ho
    rw [ho] at hsame
    exact hsame.data_ne (by decide) (hnull new hn hid)

end Fs

end Xana
