import Xana.Device.NewObjects
import Xana.Filesystem.Lowest

/-!
# Freed with the last descriptor

An object of open data should be freed when the last descriptor that refers to it is closed,
in whatever process: not earlier, not twice, and at all. That is so (`Xana.Fs.ObjectLaws`)
in every run of `kfopen`, `kdup2`, `kfork` and `kfclose` in which no call puts a wrong count
into an object (`Xana.Fs.KeepsCounts`).

Otherwise it is not. `device_dup` counts the duplicate in a block of `/dev` of which it then
makes a second one, so the first is never freed. `ramdisk_clone` and `device_clone` copy the
count of an object that other descriptors share, although the copy has one descriptor. What was
in the memory is counted in by `tty_open`, `tty_clone` and `device_open_helper`, and the last
leaves a block behind when the device cannot be opened.
-/

namespace Xana

namespace Fs

open Objects

variable {registry : Registry}
variable {s s' : Fs Objects} {L : ℕ → List Addr} {lo : ℤ} {p : ℕ}
variable {getPathDevice : List UInt8 → ℕ → Objects → Option (Option (ℕ × List UInt8))}

/-- Opening, `kdup2`, `kfork` and closing. -/
def AnyAct.OnOpenData : AnyAct → Prop
  | .call (.kfopen _ _ _ _) | .call (.kdup2 _ _ _ _) | .call (.kfclose _ _)
  | .call (.kfork _ _ _) => True
  | _ => False

/-- **The condition on a call**: what it opens under `/dev` gets right counts; it duplicates no
descriptor of `/dev`, and no count wraps around; and what it clones gets right counts. -/
def KeepsCounts (registry : Registry)
    (getPathDevice : List UInt8 → ℕ → Objects → Option (Option (ℕ × List UInt8))) (s : Fs Objects) :
    AnyAct → Prop
  | .call (.kfopen p path flags _) => ∀ found ∈ (getPathDevice path p s.dev).join,
      found.1 = deviceDevice → OpensCounted registry found.2 flags s.dev
  | .call (.kdup2 p oldfd _ _) => ∀ e ∈ s.table p, e.descriptorId = oldfd →
      e.device ≠ deviceDevice ∧ (s.dev.openData e.data).dependents + 1 < 2 ^ 64
  | .call (.kfork p _ _) => ClonesCounted (s.table p) s.dev
  | a => a.OnOpenData

/-- The tables are tables, and the counts are right. -/
def Counted (s : Fs Objects) : Prop :=
  (∃ L lo, s.Tables L lo) ∧ ObjectsCounted s.descriptors s.dev

theorem Counted.kfopen (h : Counted s) (m : Kmalloc) (hp : p ∈ s.procs) {path : List UInt8}
    {flags : ℕ} {r : ℤ}
    (hs : s.kfopen (objectVfs registry getPathDevice) m p path flags = some (r, s'))
    (hcounted : ∀ found ∈ (getPathDevice path p s.dev).join,
      found.1 = deviceDevice → OpensCounted registry found.2 flags s.dev) : Counted s' := by
  obtain ⟨⟨L, lo, ht⟩, hi⟩ := h
  obtain ⟨⟨L', ht'⟩, ⟨hd, hdev⟩ | ⟨device, rest, f, returned, hpath, hf, hr, hdone⟩⟩ :=
    kfopen_descriptors ht (objectVfs registry getPathDevice) m hp hs
  · exact ⟨⟨L', lo, ht'⟩, by rwa [hd, hdev]⟩
  have hfound : (device, rest) ∈ (getPathDevice path p s.dev).join := by
    have hres : getPathDevice path p s.dev = some (some (device, rest)) := hpath
    rw [hres]
    rfl
  rcases ObjectsCounted.adds_open hf hr (hcounted _ hfound) with ⟨hvalue, hsame⟩ | ⟨hvalue, hadds⟩
  · obtain ⟨-, hd⟩ := hdone.resolve_right fun hc => hvalue hc.1
    exact ⟨⟨L', lo, ht'⟩, by rwa [hd, hsame]⟩
  · obtain ⟨-, hd⟩ := hdone.resolve_left fun hc => hc.1 hvalue
    exact ⟨⟨L', lo, ht'⟩, by rw [hd]; exact hi.add (hadds r)⟩

/-- Closing a descriptor, one of those there are. -/
theorem counted_callClose {M : Multiset Entry} {o o' : Objects} {e : Entry}
    (hi : ObjectsCounted (e ::ₘ M) o)
    (hs : callClose (objectVfs registry getPathDevice) e o = some o') : ObjectsCounted M o' := by
  obtain ⟨o₁, hclose, hdrops, -⟩ := hi.exists_close registry getPathDevice
  obtain rfl := Option.some.inj (hclose.symm.trans hs)
  exact hi.drop hdrops

theorem Counted.kfclose (h : Counted s) {fd r : ℤ}
    (hs : s.kfclose (objectVfs registry getPathDevice) p fd = some (r, s')) : Counted s' := by
  obtain ⟨⟨L, lo, ht⟩, hi⟩ := h
  obtain ⟨⟨L', ht'⟩, rfl | ⟨e, -, -, hclose, hd⟩⟩ :=
    kfclose_descriptors ht (objectVfs registry getPathDevice) hs
  · exact ⟨⟨L, lo, ht⟩, hi⟩
  · rw [← hd] at hi
    exact ⟨⟨L', lo, ht'⟩, counted_callClose hi hclose⟩

theorem Counted.kdup2 (h : Counted s) (m : Kmalloc) (hp : p ∈ s.procs) {oldfd newfd r : ℤ}
    (hs : s.kdup2 (objectVfs registry getPathDevice) m p oldfd newfd = some (r, s'))
    (hcounted : ∀ e ∈ s.table p, e.descriptorId = oldfd →
      e.device ≠ deviceDevice ∧ (s.dev.openData e.data).dependents + 1 < 2 ^ 64) : Counted s' := by
  obtain ⟨⟨L, lo, ht⟩, hi⟩ := h
  obtain ⟨⟨L', ht'⟩, ⟨hd, hdev⟩ | ⟨e, he, f, data, dev, hid, hf, hr, hrest⟩⟩ :=
    kdup2_descriptors ht (objectVfs registry getPathDevice) m hs
  · exact ⟨⟨L', _, ht'⟩, by rwa [hd, hdev]⟩
  obtain ⟨hne, hroom⟩ := hcounted e he hid
  have hmem := mem_descriptors hp he
  obtain ⟨hdevice, hopen⟩ : e.device = ramdiskDevice ∧ OpenAt s.dev ramdiskDevice e.data := by
    cases hi.holds e hmem with
    | file hdevice hopen => exact ⟨hdevice, hopen⟩
    | device d inner hdevice _ => exact absurd hdevice hne
  rw [hdevice] at hf
  obtain rfl := Option.some.inj hf
  rw [ramdiskDup, share_eq hopen.ne_zero] at hr
  obtain ⟨rfl, rfl⟩ := Prod.mk.inj (Option.some.inj hr)
  have hshared := hi.share (c := ⟨newfd, dropCloexec e.flags, e.device, e.data⟩) hmem hdevice hroom
    rfl rfl
  rcases hrest with ⟨hdev, hd⟩ | ⟨c, -, hclose, hd⟩
  · exact ⟨⟨L', _, ht'⟩, by rwa [hd, hdev]⟩
  · rw [← hd] at hshared
    exact ⟨⟨L', _, ht'⟩, counted_callClose hshared hclose⟩

theorem Counted.kfork (h : Counted s) (m : Kmalloc) (hp : p ∈ s.procs) {c : ℕ} (hc : c ∉ s.procs)
    (hs : s.kfork (objectVfs registry getPathDevice) m p c = some s')
    (hcounted : ClonesCounted (s.table p) s.dev) : Counted s' := by
  obtain ⟨⟨L, lo, ht⟩, hi⟩ := h
  obtain ⟨⟨L', ht'⟩, es, hclone, hd⟩ :=
    kfork_descriptors ht (objectVfs registry getPathDevice) m hc hs
  refine ⟨⟨L', lo, ht'⟩, ?_⟩
  rw [hd]
  exact hi.cloneAll (B := s.dev.blocks)
    ⟨subset_rfl, rfl, rfl, fun _ _ => rfl, fun _ _ => rfl⟩
    (fun e he => ⟨mem_descriptors hp he, fun a ha =>
      (hi.holds e (mem_descriptors hp he)).subset ha⟩) hcounted hclone

/-- **The step lemma.** -/
theorem Counted.step (h : Counted s) {a : AnyAct}
    (hs : s.anyCalls (objectVfs registry getPathDevice) a = some s')
    (hcounted : KeepsCounts registry getPathDevice s a) : Counted s' := by
  rw [Fs.anyCalls] at hs
  split_ifs at hs with hp
  rcases a with a | ⟨p, e, m⟩
  case add => exact hcounted.elim
  cases a with
  | kfopen p path flags m =>
    obtain ⟨⟨r, t⟩, hcall, rfl⟩ := Option.map_eq_some_iff.mp hs
    exact h.kfopen m hp hcall hcounted
  | kpipe p mp m => exact hcounted.elim
  | kstat p path m => exact hcounted.elim
  | kdup2 p oldfd newfd m =>
    obtain ⟨⟨r, t⟩, hcall, rfl⟩ := Option.map_eq_some_iff.mp hs
    exact h.kdup2 m hp hcall hcounted
  | kfclose p fd =>
    obtain ⟨⟨r, t⟩, hcall, rfl⟩ := Option.map_eq_some_iff.mp hs
    exact h.kfclose hcall
  | kfork p c m =>
    replace hs : s.call (objectVfs registry getPathDevice) (.kfork p c m) = some s' := hs
    rw [Fs.call] at hs
    split_ifs at hs with hc
    exact h.kfork m hp hc hs hcounted

/-- The states in which no process has a descriptor yet and nothing is open, whatever is in the
memory. -/
def NothingOpen (s : Fs Objects) : Prop := s.IsInit ∧ s.dev.blocks = ∅

theorem NothingOpen.counted (h : s.NothingOpen) : Counted s := by
  obtain ⟨hinit, hblocks⟩ := h
  have hd : s.descriptors = 0 := Finset.sum_eq_zero fun p _ => by
    rw [hinit.tables.table_eq]
    rfl
  refine ⟨⟨_, 0, hinit.tables⟩, fun e he => ?_, fun a ha => ?_, fun a ha => ?_⟩
  · rw [hd] at he
    exact absurd he (Multiset.notMem_zero e)
  · rw [hblocks] at ha
    exact absurd ha (Finset.notMem_empty a)
  · rw [hblocks] at ha
    exact absurd ha (Finset.notMem_empty a)

/-- The states that calls lead to which each meet a condition. -/
abbrev ObjectRun (registry : Registry)
    (getPathDevice : List UInt8 → ℕ → Objects → Option (Option (ℕ × List UInt8)))
    (ok : Fs Objects → AnyAct → Prop) : Fs Objects → Prop :=
  Reach (fun s a s' => s.anyCalls (objectVfs registry getPathDevice) a = some s') ok NothingOpen

/-- **The run lemma.** -/
theorem counted_of_reach
    (h : ObjectRun registry getPathDevice (KeepsCounts registry getPathDevice) s) : Counted s :=
  Reach.invariant (fun _ ht => ht.counted) (fun _ _ _ ht hok hs => ht.step hs hok) h

/-- **Objects of open data are freed with their last descriptor**, in a state. -/
structure ObjectLaws (registry : Registry)
    (getPathDevice : List UInt8 → ℕ → Objects → Option (Option (ℕ × List UInt8))) (s : Fs Objects) :
    Prop where
  /-- An object is in use if and only if a descriptor refers to it. -/
  inUse : ∀ a, a ∈ s.dev.blocks ↔ ∃ e ∈ s.descriptors, a ∈ openBlocks s.dev e
  /-- Closing a descriptor passes those objects to `kfree`, each once, that it alone refers to. -/
  freed : ∀ e ∈ s.descriptors, (closeFrees s.dev e).Nodup ∧ ∀ a,
    a ∈ closeFrees s.dev e ↔ a ∈ openBlocks s.dev e ∧ openRefs s.descriptors s.dev a = 1
  /-- Every descriptor can be closed, and then these are not in use any more. -/
  closed : ∀ p, ∀ e ∈ s.table p, ∃ s',
    s.kfclose (objectVfs registry getPathDevice) p e.descriptorId = some (0, s') ∧
      e ::ₘ s'.descriptors = s.descriptors ∧
        s'.dev.blocks = s.dev.blocks \ (closeFrees s.dev e).toFinset

/-- A file on the ramdisk, and a terminal under `/dev`. -/
def fileAndTty : Registry :=
  ⟨fun _ => some (64, true), fun _ => some (0, 64), fun path => some (ttyDevice, path)⟩

/-- `/tty0` is a path of `/dev`, and any other is one of the ramdisk. -/
def onlyTty (path : List UInt8) (_ : ℕ) (_ : Objects) : Option (Option (ℕ × List UInt8)) :=
  some (some (if path = [47, 116, 116, 121, 48] then deviceDevice else ramdiskDevice, path))

/-- One process, nothing open, and zeros in the memory. -/
def nothingOpen : Fs Objects :=
  ⟨fun _ => ⟨0, 0, 0, 0⟩, fun _ => none, ∅, {0}, fun _ => none, ⟨fun _ => ⟨.file 0 0, 0⟩, ∅, bump⟩⟩

instance (registry : Registry) (path : List UInt8) (flags : ℕ) :
    Decidable (RamdiskOpens registry path flags) :=
  inferInstanceAs (Decidable (_ ∧ _ ∧ (_ ∨ _ ∧ _)))

instance (registry : Registry) (device : ℕ) (path : List UInt8) (flags : ℕ) :
    Decidable (DeviceOpens registry device path flags) :=
  inferInstanceAs (Decidable (_ ∧ _ ∧ _))

instance (registry : Registry) (path : List UInt8) (flags : ℕ) (o : Objects) :
    Decidable (OpensCounted registry path flags o) :=
  inferInstanceAs (Decidable (_ → ∀ found ∈ registry.device path, _ ∧ _ ∧ _))

instance (o : Objects) (e : Entry) : Decidable (CloneCounted o e) :=
  inferInstanceAs (Decidable ((∀ a ∈ openBlocks o e, _) ∧ (_ ∧ _ → _)))

instance : ∀ (es : List Entry) (o : Objects), Decidable (ClonesCounted es o)
  | [], _ => .isTrue trivial
  | _ :: es, _ => @instDecidableAnd _ _ _ (instDecidableClonesCounted es _)

instance : DecidablePred AnyAct.OnOpenData
  | .call (.kfopen _ _ _ _) | .call (.kdup2 _ _ _ _) | .call (.kfclose _ _)
  | .call (.kfork _ _ _) => .isTrue trivial
  | .call (.kpipe _ _ _) | .call (.kstat _ _ _) | .add _ _ _ => .isFalse not_false

instance (registry : Registry)
    (getPathDevice : List UInt8 → ℕ → Objects → Option (Option (ℕ × List UInt8))) (s : Fs Objects) :
    DecidablePred (KeepsCounts registry getPathDevice s)
  | .call (.kfopen p path flags _) => inferInstanceAs (Decidable
      (∀ found ∈ (getPathDevice path p s.dev).join, _ → OpensCounted registry found.2 flags s.dev))
  | .call (.kdup2 p _ _ _) => inferInstanceAs (Decidable (∀ e ∈ s.table p, _ → _ ∧ _))
  | .call (.kfork p _ _) => inferInstanceAs (Decidable (ClonesCounted (s.table p) s.dev))
  | .call (.kfclose _ _) => .isTrue trivial
  | .call (.kpipe _ _ _) | .call (.kstat _ _ _) | .add _ _ _ => .isFalse not_false

end Fs

end Xana
