import Xana.Device.References

/-!
# The objects of a new descriptor

Where objects of open data come from: `open` makes them, and so does `clone`, when a process
forks. They get memory that holds what it held before, and some counts start from that: the
`tty_open_data_t` of `tty_open` and of `tty_clone`, and the `device_open_data_t` that
`device_open_helper` makes. Others are copied, with the object that is cloned. And a device under
`/dev` that cannot be opened leaves the block behind that `device_open_helper` has made for it.

So the new counts are right (`Xana.AddsObjects`) under a condition on the memory and on what
is opened (`Xana.OpensCounted`), or on what is cloned (`Xana.CloneCounted`). For the table of a
process it is the condition on each of its descriptors, with the memory there is when its
turn comes (`Xana.ClonesCounted`).
-/

namespace Xana

open Objects

variable {M : Multiset Entry} {o o' o₁ : Objects} {e c : Entry} {a b device inner n d : ℕ}
variable {registry : Registry} {rest : List UInt8} {flags : ℕ} {returned : Opened}
variable {B : Finset Addr}

/-! ### Making objects -/

/-- A new block, filled in. -/
def Objects.make (o : Objects) (x : OpenData) : Objects := o.kmalloc.2.setData o.kmalloc.1 x

/-- What is left of the memory when `n` more blocks have been handed out. -/
def Objects.kmallocs : ℕ → Objects → Objects
  | 0, o => o
  | n + 1, o => kmallocs n o.kmalloc.2

@[simp] theorem kmallocs_openData : (o.kmallocs n).openData = o.openData := by
  induction n generalizing o with
  | zero => rfl
  | succ n ih => exact ih

@[simp] theorem kmallocs_alloc : (o.kmallocs n).alloc = o.alloc := by
  induction n generalizing o with
  | zero => rfl
  | succ n ih => exact ih

/-- `ramdisk_open` finds what the path names, and may open it with the flags. -/
def RamdiskOpens (registry : Registry) (path : List UInt8) (flags : ℕ) : Prop :=
  flags &&& oWRONLY = 0 ∧ flags &&& oRDWR = 0 ∧
    ((path = [slash] ∨ path = []) ∨ path.head? = some slash ∧
      ∃ found ∈ registry.header path, ¬(found.2 ∧ flags &&& oDIRECTORY ≠ 0))

/-- The `open` callback of a registered device does not fail. -/
def DeviceOpens (registry : Registry) (device : ℕ) (path : List UInt8) (flags : ℕ) : Prop :=
  (device = ramdiskDevice → RamdiskOpens registry path flags) ∧
    (device = fbDevice → flags &&& oDIRECTORY = 0) ∧
      (device = ttyDevice → registry.tty path ≠ none)

/-- **The counts of what is opened under `/dev` come out right**: the device can be opened, and
the memory that the new blocks get holds what they are counted up from. -/
def OpensCounted (registry : Registry) (path : List UInt8) (flags : ℕ) (o : Objects) : Prop :=
  path.head? = some slash → ∀ found ∈ registry.device path,
    DeviceOpens registry found.1 found.2 flags ∧
      increment (o.openData o.kmalloc.1).dependents ≤ 1 ∧
      (found.1 = ttyDevice → increment (o.openData o.kmalloc.2.kmalloc.1).dependents = 1)

/-- The device that a block of `/dev` is for. -/
def OpenObject.behind : OpenObject → Option ℕ
  | .device _ device => some device
  | _ => none

/-- A descriptor of a terminal. -/
def IsTerminal (o : Objects) (e : Entry) : Prop :=
  e.device = deviceDevice ∧ (o.openData e.data).object.behind = some ttyDevice

/-- **The counts of a cloned descriptor come out right**: nothing that is cloned is shared, and
the memory that a `tty_open_data_t` gets holds 0. -/
def CloneCounted (o : Objects) (e : Entry) : Prop :=
  (∀ a ∈ openBlocks o e, (o.openData a).dependents ≤ 1) ∧
    (IsTerminal o e → increment (o.openData o.kmalloc.2.kmalloc.1).dependents = 1)

/-- The same for descriptors that are cloned one after the other. -/
def ClonesCounted : List Entry → Objects → Prop
  | [], _ => True
  | e :: es, o => CloneCounted o e ∧ ClonesCounted es (o.kmallocs (openBlocks o e).length)

namespace ObjectsCounted

theorem mem_make {x : OpenData} : a ∈ (o.make x).blocks ↔ a ∈ o.blocks ∨ a = o.kmalloc.1 := by
  rw [make, setData_blocks, kmalloc_blocks, Finset.mem_insert, or_comm]

@[simp] theorem make_self {x : OpenData} : (o.make x).openData o.kmalloc.1 = x := setData_self

theorem make_of_ne {x : OpenData} (h : a ≠ o.kmalloc.1) :
    (o.make x).openData a = o.openData a := setData_of_ne h

/-- Two new blocks. -/
theorem kmalloc_apart : o.kmalloc.1 ≠ o.kmalloc.2.kmalloc.1 := by
  intro hc
  refine o.kmalloc.2.kmalloc_fresh.1 ?_
  rw [← hc, kmalloc_blocks]
  exact Finset.mem_insert_self _ _

/-- A new block, with its descriptor. -/
theorem adds_make {x : OpenData} (hholds : HoldsOpen (o.make x) c)
    (hblocks : openBlocks (o.make x) c = [o.kmalloc.1]) (hcount : CountsFor x 1) :
    AddsObjects o (o.make x) c := by
  refine ⟨hholds, fun a => ?_, fun a ha => ?_, fun a ha => ?_, fun a ha => ?_⟩
  · rw [mem_make, hblocks, List.mem_singleton]
  · rw [hblocks, List.mem_singleton] at ha
    rw [ha]
    exact o.kmalloc_fresh.1
  · rw [hblocks, List.mem_singleton] at ha
    exact setData_of_ne ha
  · rw [hblocks, List.mem_singleton] at ha
    rwa [ha, make_self]

/-- A new file, with its descriptor. -/
theorem adds_file {x : OpenData} (hdevice : c.device = ramdiskDevice)
    (hdata : c.data = o.kmalloc.1) (hx : x.object.IsFor ramdiskDevice)
    (hcount : x.dependents = 1) : AddsObjects o (o.make x) c := by
  have hopen : OpenAt (o.make x) ramdiskDevice c.data := by
    rw [hdata]
    exact ⟨o.kmalloc_fresh.2, mem_make.mpr (Or.inr rfl), by rwa [make_self]⟩
  refine adds_make (.file hdevice hopen) (by rw [openBlocks_file hdevice hopen, hdata]) ?_
  obtain ⟨file, readPos, hobject⟩ := hx.eq_file
  rw [CountsFor, hobject]
  exact hcount

/-- A new block of `/dev` for the keyboard, which has no open data. -/
theorem adds_keyboard {x : OpenData} (hdevice : c.device = deviceDevice)
    (hdata : c.data = o.kmalloc.1) (hx : x.object = .device 0 kbdDevice)
    (hcount : x.dependents ≤ 1) : AddsObjects o (o.make x) c := by
  have hwraps : WrapsAt (o.make x) c.data kbdDevice 0 := by
    rw [hdata]
    exact ⟨o.kmalloc_fresh.2, mem_make.mpr (Or.inr rfl), by rw [make_self, hx], Or.inl ⟨rfl, rfl⟩⟩
  refine adds_make (.device _ _ hdevice hwraps)
    (by rw [openBlocks_device hdevice hwraps, if_pos rfl, hdata]) ?_
  rw [CountsFor, hx]
  exact ⟨hcount, rfl⟩

/-- New open data of a device, with a new block of `/dev` for it. -/
theorem adds_device {x y : OpenData} (hdevice : c.device = deviceDevice)
    (hdata : c.data = o.kmalloc.1) (hx : x.object = .device o.kmalloc.2.kmalloc.1 d)
    (hcount : x.dependents ≤ 1) (hy : y.object.IsFor d) (hycount : CountsFor y 1) :
    AddsObjects o ((o.kmalloc.2.make y).setData o.kmalloc.1 x) c := by
  obtain ⟨hfresh, hne⟩ := o.kmalloc_fresh
  obtain ⟨hfresh', hne'⟩ := o.kmalloc.2.kmalloc_fresh
  have hapart : o.kmalloc.2.kmalloc.1 ≠ o.kmalloc.1 := kmalloc_apart.symm
  obtain ⟨t, ht⟩ : ∃ t, t = (o.kmalloc.2.make y).setData o.kmalloc.1 x := ⟨_, rfl⟩
  have hself : t.openData o.kmalloc.1 = x := by rw [ht, setData_self]
  have hinner : t.openData o.kmalloc.2.kmalloc.1 = y := by
    rw [ht, setData_of_ne hapart, make, setData_self]
  have hmem : ∀ a, a ∈ t.blocks ↔ a ∈ o.blocks ∨ a = o.kmalloc.2.kmalloc.1 ∨ a = o.kmalloc.1 :=
    fun a => by
      rw [ht, setData_blocks, make, setData_blocks, kmalloc_blocks, kmalloc_blocks,
        Finset.mem_insert, Finset.mem_insert]
      tauto
  have hwraps : WrapsAt t c.data d o.kmalloc.2.kmalloc.1 := by
    rw [hdata]
    refine ⟨hne, (hmem _).mpr (Or.inr (Or.inr rfl)), by rw [hself, hx], Or.inr ⟨hne', ?_, ?_⟩⟩
    · exact (hmem _).mpr (Or.inr (Or.inl rfl))
    · rwa [hinner]
  have hblocks : ∀ a, a ∈ openBlocks t c ↔ a = o.kmalloc.2.kmalloc.1 ∨ a = o.kmalloc.1 :=
    fun a => by
      rw [openBlocks_device hdevice hwraps, if_neg hne', hdata]
      simp
  rw [← ht]
  refine ⟨.device _ _ hdevice hwraps, fun a => ?_, fun a ha => ?_, fun a ha => ?_, fun a ha => ?_⟩
  · rw [hmem, hblocks]
  · rcases (hblocks a).mp ha with rfl | rfl
    · intro hc
      refine hfresh' ?_
      rw [kmalloc_blocks]
      exact Finset.mem_insert_of_mem hc
    · exact hfresh
  · rw [hblocks, not_or] at ha
    rw [ht, setData_of_ne ha.2, make, setData_of_ne ha.1, kmalloc_openData, kmalloc_openData]
  · rcases (hblocks a).mp ha with rfl | rfl
    · rwa [hinner]
    · rw [hself, CountsFor, hx]
      exact ⟨hcount, rfl⟩

/-! ### Opening -/

/-- **What opening a registered device does**: it makes open data with a right count, unless the
device is the keyboard; and it fails only if it is not `DeviceOpens`. -/
theorem openFunc_cases {f : List UInt8 → ℕ → Objects → Option (Opened × Objects)}
    (hf : (registered registry d).openFunc = some f) (hr : f rest flags o = some (returned, o')) :
    (returned.value ≠ 0 ∧ o' = o ∧ ¬DeviceOpens registry d rest flags) ∨
      returned.value = 0 ∧ (d = kbdDevice ∧ returned.pointer = 0 ∧ o' = o ∨
        ∃ x, returned.pointer = o.kmalloc.1 ∧ o' = o.make x ∧ x.object.IsFor d ∧
          x.dependents =
            if d = ttyDevice then increment (o.openData o.kmalloc.1).dependents else 1) := by
  rw [registered] at hf
  split_ifs at hf with hram hkbd hfb htty
  · -- the ramdisk
    obtain rfl := Option.some.inj hf
    subst hram
    rw [Objects.ramdiskOpen] at hr
    split_ifs at hr with hwrite hroot hslash
    · obtain ⟨rfl, rfl⟩ := Prod.mk.inj (Option.some.inj hr)
      refine Or.inl ⟨by decide, rfl, fun hc => ?_⟩
      have hopens := hc.1 rfl
      exact hwrite.elim (fun h => h hopens.1) fun h => h hopens.2.1
    · obtain ⟨rfl, rfl⟩ := Prod.mk.inj (Option.some.inj hr)
      exact Or.inr ⟨rfl, Or.inr ⟨_, rfl, rfl, rfl, rfl⟩⟩
    · obtain ⟨rfl, rfl⟩ := Prod.mk.inj (Option.some.inj hr)
      refine Or.inl ⟨by decide, rfl, fun hc => ?_⟩
      rcases (hc.1 rfl).2.2 with h | ⟨h, -⟩
      · exact hroot h
      · exact hslash h
    · cases hheader : registry.header rest with
      | none =>
        rw [hheader] at hr
        obtain ⟨rfl, rfl⟩ := Prod.mk.inj (Option.some.inj hr)
        refine Or.inl ⟨by decide, rfl, fun hc => ?_⟩
        rcases (hc.1 rfl).2.2 with h | ⟨-, found, h, -⟩
        · exact hroot h
        · rw [hheader] at h
          simp at h
      | some found =>
        obtain ⟨file, isFile⟩ := found
        rw [hheader] at hr
        simp only at hr
        split_ifs at hr with hdir
        · obtain ⟨rfl, rfl⟩ := Prod.mk.inj (Option.some.inj hr)
          refine Or.inl ⟨by decide, rfl, fun hc => ?_⟩
          rcases (hc.1 rfl).2.2 with h | ⟨-, found, h, hnot⟩
          · exact hroot h
          · rw [hheader, Option.mem_some_iff] at h
            subst h
            exact hnot hdir
        · obtain ⟨rfl, rfl⟩ := Prod.mk.inj (Option.some.inj hr)
          exact Or.inr ⟨rfl, Or.inr ⟨_, rfl, rfl, rfl, rfl⟩⟩
  · -- the keyboard
    obtain rfl := Option.some.inj hf
    obtain ⟨rfl, rfl⟩ := Prod.mk.inj (Option.some.inj hr)
    exact Or.inr ⟨rfl, Or.inl ⟨hkbd, rfl, rfl⟩⟩
  · -- the framebuffer
    obtain rfl := Option.some.inj hf
    subst hfb
    rw [fbOpen] at hr
    split_ifs at hr with hdir
    · obtain ⟨rfl, rfl⟩ := Prod.mk.inj (Option.some.inj hr)
      exact Or.inl ⟨by decide, rfl, fun hc => hdir (hc.2.1 rfl)⟩
    · obtain ⟨rfl, rfl⟩ := Prod.mk.inj (Option.some.inj hr)
      exact Or.inr ⟨rfl, Or.inr ⟨_, rfl, rfl, rfl, rfl⟩⟩
  · -- the terminal
    obtain rfl := Option.some.inj hf
    subst htty
    rw [ttyOpen] at hr
    cases htty : registry.tty rest with
    | none =>
      rw [htty] at hr
      obtain ⟨rfl, rfl⟩ := Prod.mk.inj (Option.some.inj hr)
      exact Or.inl ⟨by decide, rfl, fun hc => hc.2.2 rfl htty⟩
    | some found =>
      rw [htty] at hr
      obtain ⟨rfl, rfl⟩ := Prod.mk.inj (Option.some.inj hr)
      exact Or.inr ⟨rfl, Or.inr ⟨_, rfl, rfl, rfl, rfl⟩⟩
  · exact absurd hf (by simp [noDevice])

variable {getPathDevice : List UInt8 → ℕ → Objects → Option (Option (ℕ × List UInt8))}

/-- **What `open` does**, for a descriptor of the ramdisk or of `/dev`. -/
theorem adds_open {f : List UInt8 → ℕ → Objects → Option (Opened × Objects)}
    (hf : ((objectVfs registry getPathDevice).device device).openFunc = some f)
    (hr : f rest flags o = some (returned, o'))
    (hcounted : device = deviceDevice → OpensCounted registry rest flags o) :
    (returned.value ≠ 0 ∧ o' = o) ∨
      returned.value = 0 ∧ ∀ i, AddsObjects o o' ⟨i, flags, device, returned.pointer⟩ := by
  simp only [objectVfs] at hf
  split_ifs at hf with hdev hram
  · -- `/dev`
    replace hcounted := hcounted hdev
    simp only [devices, Option.some.injEq] at hf
    subst hf
    rw [deviceOpen] at hr
    split_ifs at hr with hslash
    · obtain ⟨rfl, rfl⟩ := Prod.mk.inj (Option.some.inj hr)
      exact Or.inl ⟨by decide, rfl⟩
    replace hcounted := hcounted (not_not.mp hslash)
    cases hfound : registry.device rest with
    | none =>
      rw [hfound] at hr
      obtain ⟨rfl, rfl⟩ := Prod.mk.inj (Option.some.inj hr)
      exact Or.inl ⟨by decide, rfl⟩
    | some found =>
      obtain ⟨d, rest'⟩ := found
      obtain ⟨hopens, hown, htty⟩ := hcounted (d, rest') hfound
      rw [hfound] at hr
      simp only [Option.bind_eq_bind] at hr
      obtain ⟨g, hg, hr⟩ := Option.bind_eq_some_iff.mp hr
      obtain ⟨⟨returned', o₁⟩, hr', hr⟩ := Option.bind_eq_some_iff.mp hr
      rcases openFunc_cases hg hr' with ⟨-, -, hc⟩ | ⟨hvalue, hmade⟩
      · exact absurd hopens hc
      simp only [hvalue, ne_eq, not_true_eq_false, if_false, Option.pure_def] at hr
      obtain ⟨rfl, rfl⟩ := Prod.mk.inj (Option.some.inj hr)
      refine Or.inr ⟨rfl, fun i => ?_⟩
      rcases hmade with ⟨rfl, hpointer, rfl⟩ | ⟨x, hpointer, rfl, hx, hcount⟩
      · rw [hpointer]
        exact adds_keyboard hdev rfl rfl hown
      · rw [hpointer]
        have hone : x.dependents = 1 := by
          rw [hcount]
          split_ifs with hd
          · exact htty hd
          · rfl
        refine adds_device hdev rfl rfl ?_ hx (countsFor_one hone)
        rwa [make_of_ne kmalloc_apart]
  · -- the ramdisk
    rcases openFunc_cases hf hr with ⟨hvalue, rfl, -⟩ | ⟨hvalue, hmade⟩
    · exact Or.inl ⟨hvalue, rfl⟩
    · rcases hmade with ⟨hkbd, -⟩ | ⟨x, hpointer, rfl, hx, hcount⟩
      · rw [hram] at hkbd
        exact absurd hkbd (by decide)
      · refine Or.inr ⟨hvalue, fun i => ?_⟩
        rw [hram] at hx hcount
        exact adds_file hram hpointer hx (by rw [hcount]; rfl)
  · simp [noDevice] at hf

/-! ### Cloning -/

variable {data cloned : ℕ}

/-- The framebuffer has no `clone`. -/
theorem eq_file_of_cloneFunc {x : OpenObject} {f : ℕ → Objects → Option (ℕ × Objects)}
    (hx : x.IsFor device) (hf : (registered registry device).cloneFunc = some f)
    (htty : device ≠ ttyDevice) : ∃ file readPos, x = .file file readPos := by
  cases x with
  | file file readPos => exact ⟨file, readPos, rfl⟩
  | tty _ _ => exact absurd hx htty
  | framebuffer _ =>
    obtain rfl : device = fbDevice := hx
    exact absurd hf (by simp [registered, noDevice, fbDevice, ramdiskDevice, kbdDevice])
  | device _ _ => exact hx.elim

/-- **What cloning the open data of a registered device does**: it makes open data for the same,
whose count is copied, or counted up from what was in the new block of a terminal. -/
theorem cloneFunc_cases {f : ℕ → Objects → Option (ℕ × Objects)} (hi : OpenAt o device inner)
    (hf : (registered registry device).cloneFunc = some f)
    (hr : f inner o = some (cloned, o')) :
    ∃ x, cloned = o.kmalloc.1 ∧ o' = o.make x ∧ x.object = (o.openData inner).object ∧
      x.dependents = if device = ttyDevice then increment (o.openData o.kmalloc.1).dependents
        else (o.openData inner).dependents := by
  by_cases htty : device = ttyDevice
  · subst htty
    obtain rfl := Option.some.inj hf
    rw [ttyClone, if_neg hi.ne_zero] at hr
    obtain ⟨rfl, rfl⟩ := Prod.mk.inj (Option.some.inj hr)
    exact ⟨_, rfl, rfl, rfl, rfl⟩
  · obtain ⟨file, readPos, hobject⟩ := eq_file_of_cloneFunc hi.isFor hf htty
    have hfor := hi.isFor
    rw [hobject] at hfor
    obtain rfl : device = ramdiskDevice := hfor
    obtain rfl := Option.some.inj hf
    rw [ramdiskClone, if_neg hi.ne_zero] at hr
    obtain ⟨rfl, rfl⟩ := Prod.mk.inj (Option.some.inj hr)
    exact ⟨o.openData inner, rfl, rfl, rfl, rfl⟩

/-- **What `clone` does**, for a descriptor of the ramdisk or of `/dev`. -/
theorem adds_clone {f : ℕ → Objects → Option (ℕ × Objects)} (h : ObjectsCounted M o) (he : e ∈ M)
    (hcounted : CloneCounted o e)
    (hf : ((objectVfs registry getPathDevice).device e.device).cloneFunc = some f)
    (hr : f e.data o = some (data, o')) :
    AddsObjects o o' { e with data := data } ∧
      o'.blocks = (o.kmallocs (openBlocks o e).length).blocks ∧ o'.alloc = o.alloc := by
  have hfile : ∀ a ∈ openBlocks o e, ∀ file readPos, (o.openData a).object = .file file readPos →
      (o.openData a).dependents = 1 := fun a ha file readPos hobject => by
    have hmem := (h.holds e he).subset ha
    have hpos := h.used a hmem
    have hcount := (h.count a hmem).of_file hobject
    have hle := hcounted.1 a ha
    omega
  cases h.holds e he with
  | file hdevice hopen =>
    have hblocks := openBlocks_file hdevice hopen
    rw [hdevice] at hf
    obtain rfl := Option.some.inj hf
    rw [ramdiskClone, if_neg hopen.ne_zero] at hr
    obtain ⟨rfl, rfl⟩ := Prod.mk.inj (Option.some.inj hr)
    obtain ⟨file, readPos, hobject⟩ := hopen.isFor.eq_file
    refine ⟨adds_file hdevice rfl hopen.isFor (hfile _ (by simp [hblocks]) file readPos hobject),
      ?_, rfl⟩
    rw [hblocks]
    rfl
  | device d inner hdevice hw =>
    have hblocks := openBlocks_device hdevice hw
    rw [hdevice] at hf
    obtain rfl := Option.some.inj hf
    have hown : (o.openData e.data).dependents ≤ 1 :=
      hcounted.1 e.data (by rw [hblocks]; split_ifs <;> simp)
    simp only [deviceClone, if_neg hw.ne_zero, hw.object_eq, Option.bind_eq_bind] at hr
    obtain ⟨g, hg, hr⟩ := Option.bind_eq_some_iff.mp hr
    obtain ⟨⟨cloned, o₁⟩, hclone, hr⟩ := Option.bind_eq_some_iff.mp hr
    obtain ⟨rfl, rfl⟩ := Prod.mk.inj (Option.some.inj hr)
    rcases hw.inner_open with ⟨rfl, rfl⟩ | hi
    · obtain rfl := Option.some.inj hg
      obtain ⟨rfl, rfl⟩ := Prod.mk.inj (Option.some.inj hclone)
      rw [hblocks]
      exact ⟨adds_keyboard hdevice rfl rfl hown, rfl, rfl⟩
    · have hi' : OpenAt o.kmalloc.2 d inner :=
        ⟨hi.ne_zero, Finset.mem_insert_of_mem hi.mem, hi.isFor⟩
      obtain ⟨x, rfl, rfl, hx, hcount⟩ := cloneFunc_cases hi' hg hclone
      have hne : e.data ≠ o.kmalloc.2.kmalloc.1 := fun hc => by
        refine o.kmalloc.2.kmalloc_fresh.1 ?_
        rw [← hc, kmalloc_blocks]
        exact Finset.mem_insert_of_mem hw.mem
      rw [hblocks, if_neg hi.ne_zero]
      refine ⟨adds_device hdevice rfl rfl ?_ (by rw [hx]; exact hi.isFor) (countsFor_one ?_), rfl,
        rfl⟩
      · rwa [make_of_ne hne]
      · rw [hcount]
        split_ifs with htty
        · exact hcounted.2 ⟨hdevice, by rw [hw.object_eq, htty]; rfl⟩
        · obtain ⟨file, readPos, hobject⟩ := eq_file_of_cloneFunc hi.isFor hg htty
          exact hfile inner (by rw [hblocks, if_neg hi.ne_zero]; simp) file readPos hobject

/-! ### Cloning a table -/

/-- The memory in the middle of a `kfork`, and the memory in which as many blocks have been handed
out: they are the same for `kmalloc`, in the objects `B` that there were, and where nothing is. -/
structure SameFree (B : Finset Addr) (o o₁ : Objects) : Prop where
  subset : B ⊆ o.blocks
  blocks_eq : o.blocks = o₁.blocks
  alloc_eq : o.alloc = o₁.alloc
  old : ∀ a ∈ B, o.openData a = o₁.openData a
  free : ∀ a ∉ o.blocks, o.openData a = o₁.openData a

theorem kmalloc_congr (hb : o.blocks = o₁.blocks) (ha : o.alloc = o₁.alloc) :
    o.kmalloc.1 = o₁.kmalloc.1 ∧ o.kmalloc.2.blocks = o₁.kmalloc.2.blocks := by
  have haddr : o.kmalloc.1 = o₁.kmalloc.1 := by rw [Objects.kmalloc, Objects.kmalloc, hb, ha]
  exact ⟨haddr, by rw [kmalloc_blocks, kmalloc_blocks, haddr, hb]⟩

theorem kmallocs_congr (hb : o.blocks = o₁.blocks) (ha : o.alloc = o₁.alloc) (n : ℕ) :
    (o.kmallocs n).blocks = (o₁.kmallocs n).blocks := by
  induction n generalizing o o₁ with
  | zero => exact hb
  | succ n ih => exact ih (kmalloc_congr hb ha).2 ha

/-- The condition on a clone is about what is the same. -/
theorem SameFree.cloneCounted (h : SameFree B o o₁) (he : e.data ∈ B)
    (hblocks : ∀ a ∈ openBlocks o e, a ∈ B) (hc : CloneCounted o₁ e) : CloneCounted o e := by
  have hsame : openBlocks o₁ e = openBlocks o e := openBlocks_congr (by rw [h.old e.data he])
  obtain ⟨hfirst, hnext⟩ := kmalloc_congr h.blocks_eq h.alloc_eq
  have hsecond := (kmalloc_congr hnext h.alloc_eq).1
  refine ⟨fun a ha => ?_, fun ht => ?_⟩
  · rw [h.old a (hblocks a ha)]
    exact hc.1 a (hsame ▸ ha)
  · have hfree : o.kmalloc.2.kmalloc.1 ∉ o.blocks := fun hmem => by
      refine o.kmalloc.2.kmalloc_fresh.1 ?_
      rw [kmalloc_blocks]
      exact Finset.mem_insert_of_mem hmem
    rw [h.free _ hfree, hsecond]
    exact hc.2 ⟨ht.1, by rw [← h.old e.data he]; exact ht.2⟩

/-- Behind one clone more. -/
theorem SameFree.clone (h : SameFree B o o₁) (ha : AddsObjects o o' e)
    (hb : o'.blocks = (o.kmallocs n).blocks) (halloc : o'.alloc = o.alloc) : SameFree B o' (o₁.kmallocs n) where
  subset a hmem := (ha.mem_iff a).mpr (Or.inl (h.subset hmem))
  blocks_eq := hb.trans (kmallocs_congr h.blocks_eq h.alloc_eq n)
  alloc_eq := by rw [halloc, h.alloc_eq, kmallocs_alloc]
  old a hmem := by rw [ha.openData_of_mem (h.subset hmem), h.old a hmem, kmallocs_openData]
  free a hmem := by
    have hnot := (ha.mem_iff a).not.mp hmem
    rw [not_or] at hnot
    rw [ha.openData_eq a hnot.2, h.free a hnot.1, kmallocs_openData]

/-- **What `kfork` does** to the objects: the clones have objects of their own. -/
theorem cloneAll : ∀ {es es' : List Entry} {M : Multiset Entry} {o o₁ o' : Objects},
    ObjectsCounted M o → SameFree B o o₁ → (∀ e ∈ es, e ∈ M ∧ ∀ a ∈ openBlocks o e, a ∈ B) →
      ClonesCounted es o₁ → Fs.cloneAll (objectVfs registry getPathDevice) es o = some (es', o') →
        ObjectsCounted (es' + M) o'
  | [], es', M, o, o₁, o', h, _, _, _, hclone => by
    obtain ⟨rfl, rfl⟩ := Prod.mk.inj (Option.some.inj hclone)
    rw [Multiset.coe_nil, zero_add]
    exact h
  | e :: es, es', M, o, o₁, o', h, hsame, hes, hcounted, hclone => by
    simp only [Fs.cloneAll, Option.bind_eq_bind] at hclone
    obtain ⟨f, hf, hclone⟩ := Option.bind_eq_some_iff.mp hclone
    obtain ⟨⟨data, o₂⟩, hr, hclone⟩ := Option.bind_eq_some_iff.mp hclone
    obtain ⟨⟨es₁, o₃⟩, hrest, hclone⟩ := Option.bind_eq_some_iff.mp hclone
    obtain ⟨rfl, rfl⟩ := Prod.mk.inj (Option.some.inj hclone)
    obtain ⟨he, hblocks⟩ := hes e List.mem_cons_self
    have hdata : e.data ∈ B := hblocks _ (h.holds e he).data_mem_openBlocks
    have hlen : openBlocks o₁ e = openBlocks o e :=
      openBlocks_congr (by rw [hsame.old e.data hdata])
    obtain ⟨hadds, hb, halloc⟩ :=
      h.adds_clone he (hsame.cloneCounted hdata hblocks hcounted.1) hf hr
    have hnext := hsame.clone hadds hb halloc
    rw [← hlen] at hnext
    have htail : ∀ c ∈ es, c ∈ ({ e with data := data } ::ₘ M) ∧ ∀ a ∈ openBlocks o₂ c, a ∈ B := by
      intro c hc
      obtain ⟨hcM, hcB⟩ := hes c (List.mem_cons_of_mem e hc)
      have hkeep : openBlocks o₂ c = openBlocks o c :=
        openBlocks_congr (by rw [hadds.openData_of_mem (h.holds c hcM).data_mem])
      exact ⟨Multiset.mem_cons_of_mem hcM, hkeep ▸ hcB⟩
    have hall := (h.add hadds).cloneAll hnext htail hcounted.2 hrest
    have hsum : (es₁ : Multiset Entry) + ({ e with data := data } ::ₘ M) =
        (({ e with data := data } :: es₁ : List Entry) : Multiset Entry) + M := by
      rw [← Multiset.cons_coe, Multiset.add_cons, Multiset.cons_add]
    rwa [hsum] at hall

end ObjectsCounted

end Xana
