import Xana.Device.Duplicate

/-!
# Who refers to open data

An object of open data is counted: its `dependents` should be the number of descriptors that
refer to it, in the tables of all processes, be it directly or through the block that `/dev`
has for a device. What that means is said here relative to a multiset `M` of descriptors
(`Xana.ObjectsCounted`), as for pipes (`Xana.PipeInv`). Files of the ramdisk are shared, and
their counts are right in this sense. Of everything else every descriptor has its own, as long
as none is duplicated: a count is then 1, and that of a block of `/dev` may be 0 as well, since
`device_close` frees the block in either case.

A new object is added with its descriptor (`Xana.ObjectsCounted.add`), a file that is shared
counts one more (`Xana.ObjectsCounted.share`), and closing a descriptor drops one reference to
each of its objects (`Xana.ObjectsCounted.close`).
-/

namespace Xana

open Objects

/-- The objects of open data that a descriptor refers to: what its pointer leads to, behind what
that block of `/dev` leads to. -/
def openBlocks (o : Objects) (e : Entry) : List Addr :=
  if e.data = 0 ∨ e.device ≠ ramdiskDevice ∧ e.device ≠ deviceDevice then []
  else
    match (o.openData e.data).object with
    | .device inner _ => if inner = 0 then [e.data] else [inner, e.data]
    | _ => [e.data]

/-- How many descriptors refer to an object. -/
def openRefs (M : Multiset Entry) (o : Objects) (a : Addr) : ℕ :=
  M.countP fun e => a ∈ openBlocks o e

/-- A descriptor of a file of the ramdisk, or of a device under `/dev`. -/
inductive HoldsOpen (o : Objects) (e : Entry) : Prop
  | file (hdevice : e.device = ramdiskDevice) (h : OpenAt o ramdiskDevice e.data)
  | device (d inner : ℕ) (hdevice : e.device = deviceDevice) (h : WrapsAt o e.data d inner)

/-- The count of an object that `n` descriptors refer to. -/
def CountsFor (d : OpenData) (n : ℕ) : Prop :=
  match d.object with
  | .file _ _ => d.dependents = n
  | .tty _ _ => d.dependents = 1 ∧ n = 1
  | _ => d.dependents ≤ 1 ∧ n = 1

/-- **The counts are right** when `M` are the descriptors there are. -/
structure ObjectsCounted (M : Multiset Entry) (o : Objects) : Prop where
  /-- Each is for a file or for a device, which is in use. -/
  holds : ∀ e ∈ M, HoldsOpen o e
  /-- Nothing else is in use. -/
  used : ∀ a ∈ o.blocks, 0 < openRefs M o a
  count : ∀ a ∈ o.blocks, CountsFor (o.openData a) (openRefs M o a)

variable {M : Multiset Entry} {o o' : Objects} {e c : Entry} {a b device inner n : ℕ}

/-! ### References -/

theorem openBlocks_congr (h : (o'.openData e.data).object = (o.openData e.data).object) :
    openBlocks o' e = openBlocks o e := by
  rw [openBlocks, openBlocks, h]

theorem OpenObject.IsFor.eq_file {x : OpenObject} (h : x.IsFor ramdiskDevice) :
    ∃ file readPos, x = .file file readPos := by
  cases x with
  | file file readPos => exact ⟨file, readPos, rfl⟩
  | tty _ _ => exact absurd (show ramdiskDevice = ttyDevice from h) (by decide)
  | framebuffer _ => exact absurd (show ramdiskDevice = fbDevice from h) (by decide)
  | device _ _ => exact h.elim

/-- A descriptor of a file refers to the file. -/
theorem openBlocks_file (hdevice : e.device = ramdiskDevice) (h : OpenAt o ramdiskDevice e.data) :
    openBlocks o e = [e.data] := by
  obtain ⟨file, readPos, hobject⟩ := h.isFor.eq_file
  rw [openBlocks, if_neg (by simp [h.ne_zero, hdevice]), hobject]

/-- A descriptor of a device refers to the block of `/dev` and to what is behind it. -/
theorem openBlocks_device (hdevice : e.device = deviceDevice) (h : WrapsAt o e.data device inner) :
    openBlocks o e = if inner = 0 then [e.data] else [inner, e.data] := by
  rw [openBlocks, if_neg (by simp [h.ne_zero, hdevice]), h.object_eq]

theorem HoldsOpen.subset (h : HoldsOpen o e) (ha : a ∈ openBlocks o e) : a ∈ o.blocks := by
  cases h with
  | file hdevice h =>
    rw [openBlocks_file hdevice h, List.mem_singleton] at ha
    exact ha ▸ h.mem
  | device d inner hdevice h =>
    rw [openBlocks_device hdevice h] at ha
    split_ifs at ha with hinner
    · rw [List.mem_singleton] at ha
      exact ha ▸ h.mem
    · rcases h.inner_open with ⟨-, hc⟩ | hi
      · exact absurd hc hinner
      · simp only [List.mem_cons, List.not_mem_nil, or_false] at ha
        rcases ha with rfl | rfl
        · exact hi.mem
        · exact h.mem

/-- The objects of a descriptor are different ones. -/
theorem HoldsOpen.nodup (h : HoldsOpen o e) : (openBlocks o e).Nodup := by
  cases h with
  | file hdevice h => simp [openBlocks_file hdevice h]
  | device d inner hdevice h =>
    rw [openBlocks_device hdevice h]
    split_ifs with hinner
    · simp
    · rcases h.inner_open with ⟨-, hc⟩ | hi
      · exact absurd hc hinner
      · simpa using h.ne_inner hi

theorem HoldsOpen.data_mem (h : HoldsOpen o e) : e.data ∈ o.blocks := by
  cases h with
  | file hdevice h => exact h.mem
  | device d inner hdevice h => exact h.mem

theorem HoldsOpen.data_mem_openBlocks (h : HoldsOpen o e) : e.data ∈ openBlocks o e := by
  cases h with
  | file hdevice h => simp [openBlocks_file hdevice h]
  | device d inner hdevice h =>
    rw [openBlocks_device hdevice h]
    split_ifs <;> simp

/-- Objects that stay in use stay what they are for. -/
theorem HoldsOpen.congr (h : HoldsOpen o e)
    (hobject : ∀ b ∈ openBlocks o e, (o'.openData b).object = (o.openData b).object)
    (hmem : ∀ b ∈ openBlocks o e, b ∈ o'.blocks) : HoldsOpen o' e := by
  cases h with
  | file hdevice h =>
    rw [openBlocks_file hdevice h] at hobject hmem
    exact .file hdevice ⟨h.ne_zero, hmem _ (by simp), by rw [hobject _ (by simp)]; exact h.isFor⟩
  | device d inner hdevice h =>
    rw [openBlocks_device hdevice h] at hobject hmem
    have hdata : e.data ∈ (if inner = 0 then [e.data] else [inner, e.data]) := by
      split_ifs <;> simp
    refine .device d inner hdevice ⟨h.ne_zero, hmem _ hdata, (hobject _ hdata).trans h.object_eq,
      h.inner_open.imp_right fun hi => ?_⟩
    have hinner : inner ∈ (if inner = 0 then [e.data] else [inner, e.data]) := by
      rw [if_neg hi.ne_zero]
      simp
    exact ⟨hi.ne_zero, hmem _ hinner, by rw [hobject _ hinner]; exact hi.isFor⟩

theorem openRefs_cons (e : Entry) (M : Multiset Entry) (o : Objects) (a : Addr) :
    openRefs (e ::ₘ M) o a = openRefs M o a + if a ∈ openBlocks o e then 1 else 0 :=
  Multiset.countP_cons _ _ _

theorem openRefs_pos : 0 < openRefs M o a ↔ ∃ e ∈ M, a ∈ openBlocks o e := Multiset.countP_pos

theorem openRefs_congr (h : ∀ e ∈ M, openBlocks o' e = openBlocks o e) (a : Addr) :
    openRefs M o' a = openRefs M o a :=
  Multiset.countP_congr rfl fun e he => by rw [h e he]

/-! ### Counts -/

theorem CountsFor.of_file {d : OpenData} {file readPos : ℕ} (h : CountsFor d n)
    (hobject : d.object = .file file readPos) : d.dependents = n := by
  rw [CountsFor, hobject] at h
  exact h

theorem countsFor_one {d : OpenData} (h : d.dependents = 1) : CountsFor d 1 := by
  rw [CountsFor]
  split
  · exact h
  · exact ⟨h, rfl⟩
  · exact ⟨h.le, rfl⟩

/-- **What comes with a new descriptor**: objects of its own, with right counts. -/
structure AddsObjects (o o' : Objects) (e : Entry) : Prop where
  holds : HoldsOpen o' e
  mem_iff : ∀ a, a ∈ o'.blocks ↔ a ∈ o.blocks ∨ a ∈ openBlocks o' e
  fresh : ∀ a ∈ openBlocks o' e, a ∉ o.blocks
  openData_eq : ∀ a ∉ openBlocks o' e, o'.openData a = o.openData a
  count : ∀ a ∈ openBlocks o' e, CountsFor (o'.openData a) 1

theorem AddsObjects.openData_of_mem (h : AddsObjects o o' e) (ha : a ∈ o.blocks) :
    o'.openData a = o.openData a :=
  h.openData_eq a fun hc => h.fresh a hc ha

/-- The objects `l` have lost a reference: those that had no other have been freed. -/
structure DropsObjects (M : Multiset Entry) (o o' : Objects) (l : List Addr) : Prop where
  object_eq : ∀ b, (o'.openData b).object = (o.openData b).object
  mem_iff : ∀ b, b ∈ o'.blocks ↔ b ∈ o.blocks ∧ (b ∈ l → 0 < openRefs M o b)
  openData_eq : ∀ b ∉ l, o'.openData b = o.openData b
  count : ∀ b ∈ l, 0 < openRefs M o b → CountsFor (o'.openData b) (openRefs M o b)

namespace ObjectsCounted

/-- What is in use is referred to, and the other way round. -/
theorem mem_iff (h : ObjectsCounted M o) : a ∈ o.blocks ↔ ∃ e ∈ M, a ∈ openBlocks o e := by
  rw [← openRefs_pos]
  refine ⟨h.used a, fun hpos => ?_⟩
  obtain ⟨e, he, ha⟩ := openRefs_pos.mp hpos
  exact (h.holds e he).subset ha

/-- **Adding a descriptor** with objects of its own. -/
theorem add (h : ObjectsCounted M o) (ha : AddsObjects o o' e) : ObjectsCounted (e ::ₘ M) o' := by
  have hblocks : ∀ c ∈ M, openBlocks o' c = openBlocks o c := fun c hc =>
    openBlocks_congr (by rw [ha.openData_of_mem (h.holds c hc).data_mem])
  have hold : ∀ a ∈ o.blocks, openRefs (e ::ₘ M) o' a = openRefs M o a := fun a hmem => by
    rw [openRefs_cons, openRefs_congr hblocks, if_neg fun hc => ha.fresh a hc hmem, Nat.add_zero]
  have hnew : ∀ a ∈ openBlocks o' e, openRefs (e ::ₘ M) o' a = 1 := fun a hmem => by
    have hzero : openRefs M o' a = 0 := by
      rw [openRefs_congr hblocks]
      by_contra hne
      obtain ⟨c, hc, hac⟩ := openRefs_pos.mp (Nat.pos_of_ne_zero hne)
      exact ha.fresh a hmem ((h.holds c hc).subset hac)
    rw [openRefs_cons, hzero, if_pos hmem]
  refine ⟨fun c hc => ?_, fun a hmem => ?_, fun a hmem => ?_⟩
  · rcases Multiset.mem_cons.mp hc with rfl | hc
    · exact ha.holds
    · refine (h.holds c hc).congr (fun b hb => ?_) fun b hb => ?_
      · rw [ha.openData_of_mem ((h.holds c hc).subset hb)]
      · exact (ha.mem_iff b).mpr (Or.inl ((h.holds c hc).subset hb))
  · rcases (ha.mem_iff a).mp hmem with hmem | hmem
    · rw [hold a hmem]
      exact h.used a hmem
    · rw [hnew a hmem]
      exact Nat.one_pos
  · rcases (ha.mem_iff a).mp hmem with hmem | hmem
    · rw [hold a hmem, ha.openData_of_mem hmem]
      exact h.count a hmem
    · rw [hnew a hmem]
      exact ha.count a hmem

/-! ### Sharing a file -/

/-- **Duplicating a descriptor** of a file. -/
theorem share (h : ObjectsCounted M o) (he : e ∈ M) (hdevice : e.device = ramdiskDevice)
    (hroom : (o.openData e.data).dependents + 1 < 2 ^ 64) (hdev : c.device = e.device)
    (hdata : c.data = e.data) : ObjectsCounted (c ::ₘ M) (shared e.data o) := by
  have hobject : ∀ b, ((shared e.data o).openData b).object = (o.openData b).object :=
    fun b => setDependents_object
  have hfile : OpenAt o ramdiskDevice e.data := by
    cases h.holds e he with
    | file _ hf => exact hf
    | device d inner hd _ => exact absurd (hdevice.symm.trans hd) (by decide)
  have hblocks : ∀ x, openBlocks (shared e.data o) x = openBlocks o x := fun x =>
    openBlocks_congr (hobject x.data)
  have hself : openBlocks o c = [e.data] := by
    rw [openBlocks_file (hdev.trans hdevice) (hdata ▸ hfile), hdata]
  have hrefs : ∀ a, openRefs (c ::ₘ M) (shared e.data o) a =
      openRefs M o a + if a = e.data then 1 else 0 := fun a => by
    rw [openRefs_cons, openRefs_congr fun x _ => hblocks x, hblocks, hself]
    simp
  refine ⟨fun x hx => ?_, fun a ha => ?_, fun a ha => ?_⟩
  · rcases Multiset.mem_cons.mp hx with rfl | hx
    · exact .file (hdev.trans hdevice)
        ⟨hdata ▸ hfile.ne_zero, hdata ▸ hfile.mem, by rw [hobject, hdata]; exact hfile.isFor⟩
    · exact (h.holds x hx).congr (fun b _ => hobject b) fun b hb => (h.holds x hx).subset hb
  · rw [hrefs]
    exact Nat.add_pos_left (h.used a ha) _
  · have hcount := h.count a ha
    rw [hrefs]
    split_ifs with hae
    · subst hae
      obtain ⟨file, readPos, hobj⟩ := hfile.isFor.eq_file
      rw [CountsFor, hobject, hobj]
      show ((shared e.data o).openData e.data).dependents = _
      rw [shared, setDependents_self, increment, Nat.mod_eq_of_lt hroom, hcount.of_file hobj]
    · rw [shared, setDependents_of_ne hae]
      exact hcount

/-- **Taking a descriptor away.** -/
theorem drop (h : ObjectsCounted (e ::ₘ M) o) (hd : DropsObjects M o o' (openBlocks o e)) :
    ObjectsCounted M o' := by
  have hrefs : ∀ a, openRefs M o' a = openRefs M o a :=
    openRefs_congr fun c _ => openBlocks_congr (hd.object_eq c.data)
  -- what another descriptor refers to stays
  have hmem : ∀ c ∈ M, ∀ b ∈ openBlocks o c, b ∈ o'.blocks := fun c hc b hb =>
    (hd.mem_iff b).mpr ⟨(h.holds c (Multiset.mem_cons_of_mem hc)).subset hb,
      fun _ => openRefs_pos.mpr ⟨c, hc, hb⟩⟩
  refine ⟨fun c hc => ?_, fun a ha => ?_, fun a ha => ?_⟩
  · exact (h.holds c (Multiset.mem_cons_of_mem hc)).congr (fun b _ => hd.object_eq b) (hmem c hc)
  · rw [hrefs]
    obtain ⟨hold, hpos⟩ := (hd.mem_iff a).mp ha
    by_cases hae : a ∈ openBlocks o e
    · exact hpos hae
    · have hused := h.used a hold
      rwa [openRefs_cons, if_neg hae, Nat.add_zero] at hused
  · rw [hrefs]
    obtain ⟨hold, hpos⟩ := (hd.mem_iff a).mp ha
    by_cases hae : a ∈ openBlocks o e
    · exact hd.count a hae (hpos hae)
    · have hcount := h.count a hold
      rw [openRefs_cons, if_neg hae, Nat.add_zero] at hcount
      rwa [hd.openData_eq a hae]

end ObjectsCounted

/-! ### Closing -/

/-- What an object of a device is, and a block of `/dev`. -/
def ForDevice (device : ℕ) (x : OpenObject) : Prop :=
  x.IsFor device ∨ device = deviceDevice ∧ ∃ inner d, x = .device inner d

theorem closeOpen_of_ne (h : b ≠ a) : (closeOpen device a o).openData b = o.openData b := by
  rw [closeOpen, unshare]
  split_ifs
  · exact setDependents_of_ne h
  · exact setDependents_of_ne h
  · exact setDependents_of_ne h
  · rfl

/-- `device_close`, as far as its own block goes. -/
theorem closeOpen_deviceDevice : closeOpen deviceDevice a o = unshare a o := if_neg (by decide)

/-- **A right count** lets an object survive if and only if another descriptor refers to it. -/
theorem CountsFor.keepsBlock_iff (h : CountsFor (o.openData a) (n + 1))
    (hk : ForDevice device (o.openData a).object) : KeepsBlock o device a ↔ 0 < n := by
  rw [KeepsBlock]
  rw [CountsFor] at h
  rcases hk with hk | ⟨rfl, inner, d, hk⟩
  · cases hobject : (o.openData a).object with
    | file _ _ =>
      rw [hobject] at h hk
      rw [show device = ramdiskDevice from hk, if_neg (by decide), h]
      exact Nat.lt_add_left_iff_pos
    | tty _ _ =>
      rw [hobject] at h hk
      rw [show device = ttyDevice from hk, if_pos rfl, h.1]
      have hn := h.2
      simp [decrement]
      omega
    | framebuffer _ =>
      rw [hobject] at h hk
      rw [show device = fbDevice from hk, if_neg (by decide)]
      have hn := h.2
      omega
    | device _ _ =>
      rw [hobject] at hk
      exact hk.elim
  · rw [hk] at h
    rw [if_neg (by decide)]
    have hn := h.2
    omega

/-- **The count of what survives** is right again. -/
theorem CountsFor.closeOpen (h : CountsFor (o.openData a) (n + 1))
    (hk : ForDevice device (o.openData a).object) (hn : 0 < n) :
    CountsFor ((closeOpen device a o).openData a) n := by
  have hobj : ((Xana.closeOpen device a o).openData a).object = (o.openData a).object :=
    closeOpen_object
  have hkeeps := (h.keepsBlock_iff hk).mpr hn
  cases hobject : (o.openData a).object with
  | file file readPos =>
    rw [hobject] at hk
    obtain rfl : device = ramdiskDevice := hk.resolve_right fun hc => by simp at hc
    have hcount := h.of_file hobject
    rw [CountsFor, hobj, hobject]
    have hlt : 1 < (o.openData a).dependents := by omega
    show ((Xana.closeOpen ramdiskDevice a o).openData a).dependents = n
    rw [Xana.closeOpen, if_neg (by decide), unshare, if_pos hlt, setDependents_self, hcount]
    rfl
  | _ =>
    rw [CountsFor, hobject] at h
    have hone := h.2
    omega

instance : Decidable (KeepsBlock o device a) :=
  inferInstanceAs (Decidable (if device = ttyDevice then _ else _))

/-- The object that a `close` callback passes to `kfree`, if its count says so. -/
def freesOf (device a : ℕ) (o : Objects) : List Addr := if KeepsBlock o device a then [] else [a]

/-- The objects that closing a descriptor passes to `kfree`, in this order: `device_close` calls
the `close` of the device first, if it has one. -/
def closeFrees (o : Objects) (e : Entry) : List Addr :=
  if e.device = ramdiskDevice then freesOf ramdiskDevice e.data o
  else if e.device ≠ deviceDevice ∨ e.data = 0 then []
  else
    match (o.openData e.data).object with
    | .device inner device =>
        (if device = kbdDevice then [] else freesOf device inner o) ++
          freesOf deviceDevice e.data o
    | _ => []

/-- One object loses a reference. -/
theorem dropsObjects_closeOpen (hk : ForDevice device (o.openData a).object)
    (hcount : CountsFor (o.openData a) (openRefs M o a + 1)) :
    DropsObjects M o (closeOpen device a o) [a] where
  object_eq _ := closeOpen_object
  mem_iff b := by
    rw [mem_closeOpen_iff, List.mem_singleton, hcount.keepsBlock_iff hk]
    exact and_congr_right fun _ => forall_congr' fun hb => by rw [hb]
  openData_eq b hb := closeOpen_of_ne (by simpa using hb)
  count b hb hpos := by
    rw [List.mem_singleton] at hb
    rw [hb] at hpos ⊢
    exact hcount.closeOpen hk hpos

/-- First some objects, then others. -/
theorem DropsObjects.append {o₁ o₂ : Objects} {l₁ l₂ : List Addr} (h₁ : DropsObjects M o o₁ l₁)
    (h₂ : DropsObjects M o₁ o₂ l₂) (hd : ∀ b ∈ l₁, b ∉ l₂) : DropsObjects M o o₂ (l₁ ++ l₂) := by
  have hrefs : ∀ b, openRefs M o₁ b = openRefs M o b :=
    openRefs_congr fun c _ => openBlocks_congr (h₁.object_eq c.data)
  refine ⟨fun b => (h₂.object_eq b).trans (h₁.object_eq b), fun b => ?_, fun b hb => ?_,
    fun b hb hpos => ?_⟩
  · rw [h₂.mem_iff, h₁.mem_iff, hrefs, List.mem_append, or_imp, and_assoc]
  · rw [List.mem_append, not_or] at hb
    rw [h₂.openData_eq b hb.2, h₁.openData_eq b hb.1]
  · rcases List.mem_append.mp hb with hb | hb
    · rw [h₂.openData_eq b (hd b hb)]
      exact h₁.count b hb hpos
    · have hcount := h₂.count b hb
      rw [hrefs] at hcount
      exact hcount hpos

theorem mem_freesOf_iff (hk : ForDevice device (o.openData a).object)
    (hcount : CountsFor (o.openData a) (n + 1)) : b ∈ freesOf device a o ↔ b = a ∧ n = 0 := by
  have hkeeps := hcount.keepsBlock_iff hk
  rw [freesOf]
  split_ifs with h
  · have hn := hkeeps.mp h
    simp only [List.not_mem_nil, false_iff, not_and]
    omega
  · rw [hkeeps] at h
    simp only [List.mem_singleton, iff_self_and]
    omega

theorem nodup_freesOf : (freesOf device a o).Nodup := by
  rw [freesOf]
  split_ifs <;> simp

namespace ObjectsCounted

variable {registry : Registry}
variable {getPathDevice : List UInt8 → ℕ → Objects → Option (Option (ℕ × List UInt8))}

/-- The count of an object of a descriptor that is one of those there are. -/
theorem count_cons (h : ObjectsCounted (e ::ₘ M) o) (ha : a ∈ openBlocks o e) :
    CountsFor (o.openData a) (openRefs M o a + 1) := by
  have hcount := h.count a ((h.holds e (Multiset.mem_cons_self e M)).subset ha)
  rwa [openRefs_cons, if_pos ha] at hcount

/-- **What closing a descriptor does**: each of its objects loses a reference. -/
theorem exists_close (registry : Registry)
    (getPathDevice : List UInt8 → ℕ → Objects → Option (Option (ℕ × List UInt8)))
    (h : ObjectsCounted (e ::ₘ M) o) :
    ∃ o', Fs.callClose (objectVfs registry getPathDevice) e o = some o' ∧
      DropsObjects M o o' (openBlocks o e) ∧ (closeFrees o e).Nodup ∧
      ∀ a, a ∈ closeFrees o e ↔ a ∈ openBlocks o e ∧ openRefs M o a = 0 := by
  have hcount : ∀ a ∈ openBlocks o e, CountsFor (o.openData a) (openRefs M o a + 1) :=
    fun a => h.count_cons
  cases h.holds e (Multiset.mem_cons_self e M) with
  | file hdevice hf =>
    have hblocks := openBlocks_file hdevice hf
    rw [hblocks] at hcount ⊢
    have hc := hcount e.data (List.mem_singleton_self _)
    have hk : ForDevice ramdiskDevice (o.openData e.data).object := Or.inl hf.isFor
    refine ⟨closeOpen ramdiskDevice e.data o, ?_, dropsObjects_closeOpen hk hc, ?_, fun a => ?_⟩
    · rw [Fs.callClose, hdevice]
      exact if_neg hf.ne_zero
    · rw [closeFrees, if_pos hdevice]
      exact nodup_freesOf
    · rw [closeFrees, if_pos hdevice, mem_freesOf_iff hk hc, List.mem_singleton]
      exact and_congr_right fun ha => by rw [ha]
  | device d inner hdevice hw =>
    have hne : e.device ≠ ramdiskDevice := by
      rw [hdevice]
      decide
    have hkdata : ForDevice deviceDevice (o.openData e.data).object :=
      Or.inr ⟨rfl, inner, d, hw.object_eq⟩
    have hclose : Fs.callClose (objectVfs registry getPathDevice) e o =
        deviceClose registry e.data o := by
      rw [Fs.callClose, hdevice]
      rfl
    have hfrees : closeFrees o e = (if d = kbdDevice then [] else freesOf d inner o) ++
        freesOf deviceDevice e.data o := by
      rw [closeFrees, if_neg hne, if_neg (by simp [hdevice, hw.ne_zero]), hw.object_eq]
    have hblocks := openBlocks_device hdevice hw
    rw [hclose, hfrees]
    rcases deviceClose_eq registry hw with ⟨rfl, hdclose⟩ | ⟨hi, hdclose⟩
    · have hinner : inner = 0 := by
        rcases hw.inner_open with ⟨-, hz⟩ | hi
        · exact hz
        · exact absurd rfl hi.isFor.ne_kbd
      rw [if_pos hinner] at hblocks
      rw [hblocks] at hcount ⊢
      have hc := hcount e.data (List.mem_singleton_self _)
      rw [if_pos rfl, List.nil_append]
      refine ⟨closeOpen deviceDevice e.data o, by rw [hdclose, closeOpen_deviceDevice],
        dropsObjects_closeOpen hkdata hc, nodup_freesOf, fun a => ?_⟩
      rw [mem_freesOf_iff hkdata hc, List.mem_singleton]
      exact and_congr_right fun ha => by rw [ha]
    · rw [if_neg hi.ne_zero] at hblocks
      rw [hblocks] at hcount ⊢
      have hci := hcount inner (by simp)
      have hcd := hcount e.data (by simp)
      have hki : ForDevice d (o.openData inner).object := Or.inl hi.isFor
      have hapart : inner ≠ e.data := hw.ne_inner hi
      have hfirst := dropsObjects_closeOpen hki hci
      -- the block of `/dev` is as it was when its turn comes
      have hdata : (closeOpen d inner o).openData e.data = o.openData e.data :=
        closeOpen_of_ne hapart.symm
      have hrefs : openRefs M (closeOpen d inner o) e.data = openRefs M o e.data :=
        openRefs_congr (fun c _ => openBlocks_congr (hfirst.object_eq c.data)) _
      have hsecond : DropsObjects M (closeOpen d inner o)
          (closeOpen deviceDevice e.data (closeOpen d inner o)) [e.data] :=
        dropsObjects_closeOpen (by rwa [hdata]) (by rwa [hdata, hrefs])
      rw [if_neg hi.isFor.ne_kbd]
      refine ⟨closeOpen deviceDevice e.data (closeOpen d inner o),
        by rw [hdclose, closeOpen_deviceDevice],
        hfirst.append hsecond (by simpa using hapart), ?_, fun a => ?_⟩
      · refine nodup_freesOf.append nodup_freesOf fun a ha hb => hapart ?_
        rw [← ((mem_freesOf_iff hki hci).mp ha).1, ((mem_freesOf_iff hkdata hcd).mp hb).1]
      · rw [List.mem_append, mem_freesOf_iff hki hci, mem_freesOf_iff hkdata hcd]
        simp only [List.mem_cons, List.not_mem_nil, or_false]
        constructor
        · rintro (⟨rfl, hz⟩ | ⟨rfl, hz⟩)
          · exact ⟨Or.inl rfl, hz⟩
          · exact ⟨Or.inr rfl, hz⟩
        · rintro ⟨rfl | rfl, hz⟩
          · exact Or.inl ⟨rfl, hz⟩
          · exact Or.inr ⟨rfl, hz⟩

end ObjectsCounted

end Xana
