import Xana.Lib.Records
import Xana.Memory.Bitmap
import Xana.String.Basic

/-!
# What the boot loader hands over

The tags of `multiboot2.h`: records in memory, in any order, of which the loader and the kernel
look at five types. Each tag lies in memory as the bytes of its struct (`Xana.BootTag.record`),
and what its fields are is read back from there.

Both of them go over the entries of a memory map with the same loop, by the size that the map
says an entry has (`Xana.mmapLoop_eq`).
-/

namespace Xana

/-- A string as it is in a tag, with a `NUL` behind it. -/
structure BootString where
  chars : List UInt8
  zero_notMem : 0 ∉ chars

/-- `struct multiboot_mmap_entry`. What is behind the type is not looked at. -/
structure MmapRecord extends MmapEntry where
  rest : List UInt8

/-- An entry as it lies in memory. -/
def MmapRecord.bytes (e : MmapRecord) : List UInt8 :=
  leBytes 8 e.addr.toNat ++ (leBytes 8 e.len.toNat ++ (leBytes 4 e.type.toNat ++ e.rest))

/-- The entries of a memory map, of one size. -/
structure MmapRecords where
  entrySize : ℕ
  entries : List MmapRecord
  entrySize_lt : entrySize < 2 ^ 32
  length_bytes : ∀ e ∈ entries, e.bytes.length = entrySize

/-- A tag. `reserved` is what is behind the height in `struct multiboot_tag_framebuffer`. -/
inductive BootTag
  | cmdline (string : BootString)
  | bootLoaderName (string : BootString)
  | module (modStart modEnd : UInt32) (cmdline : BootString)
  | mmap (entryVersion : UInt32) (mmap : MmapRecords)
  | framebuffer (tag : FramebufferTag) (width : UInt32) (reserved : List UInt8)
  | other (type : ℕ) (payload : List UInt8) (unread : type ∉ [1, 2, 3, 6, 8])

namespace BootTag

/-- `MULTIBOOT_TAG_TYPE_…`. -/
def type : BootTag → ℕ
  | cmdline _ => 1
  | bootLoaderName _ => 2
  | module .. => 3
  | mmap .. => 6
  | framebuffer .. => 8
  | other type .. => type

/-- What is behind the type and the size. -/
def payload : BootTag → List UInt8
  | cmdline string => string.chars ++ [0]
  | bootLoaderName string => string.chars ++ [0]
  | module modStart modEnd name =>
      leBytes 4 modStart.toNat ++ (leBytes 4 modEnd.toNat ++ (name.chars ++ [0]))
  | mmap entryVersion records =>
      leBytes 4 records.entrySize ++
        (leBytes 4 entryVersion.toNat ++ records.entries.flatMap MmapRecord.bytes)
  | framebuffer tag width reserved =>
      leBytes 8 tag.framebufferAddr.toNat ++ (leBytes 4 tag.framebufferPitch.toNat ++
        (leBytes 4 width.toNat ++ (leBytes 4 tag.framebufferHeight.toNat ++ reserved)))
  | other _ payload _ => payload

def record (t : BootTag) : Record := ⟨t.type, t.payload⟩

/-- Its entries, if a tag is a memory map. -/
def mmap? : BootTag → Option (List MmapEntry)
  | mmap _ records => some (records.entries.map MmapRecord.toMmapEntry)
  | _ => none

/-- The framebuffer that a tag is of. -/
def framebuffer? : BootTag → Option FramebufferTag
  | framebuffer tag .. => some tag
  | _ => none

/-- Where a module of that name starts. -/
def module? (name : List UInt8) : BootTag → Option ℕ
  | module modStart _ called => if called.chars = name then some modStart.toNat else none
  | _ => none

end BootTag

/-- **The tags are in memory** from an address on, the last one of type 0 behind them. -/
def TagsAt (m : Mem) (a : ℕ) (tags : List BootTag) : Prop := RecordsAt m a (tags.map BootTag.record)

/-- The tags with their addresses. -/
def placed : ℕ → List BootTag → List (ℕ × BootTag)
  | _, [] => []
  | a, t :: tags => (a, t) :: placed (a + t.record.room) tags

/-- What the tags are, for those that `f` is about, and where. -/
def found {β : Type*} (f : BootTag → Option β) (xs : List (ℕ × BootTag)) : List (ℕ × β) :=
  xs.filterMap fun x => (f x.2).map fun b => (x.1, b)

/-- The address of the last of them, or 0. -/
def lastFound {β : Type*} (f : BootTag → Option β) (xs : List (ℕ × BootTag)) : ℕ :=
  ((found f xs).map Prod.fst).getLastD 0

/-- The room that the tags take. -/
def tagsRoom (tags : List BootTag) : ℕ := recordsRoom (tags.map BootTag.record)

/-- The entry at an address. -/
def mmapEntryAt (m : Mem) (a : ℕ) : MmapEntry :=
  ⟨UInt64.ofNat (m.load a 8), UInt64.ofNat (m.load (a + 8) 8), UInt32.ofNat (m.load (a + 16) 4)⟩

/-- The fields that are read of the framebuffer's tag. -/
def framebufferTagAt (m : Mem) (a : ℕ) : FramebufferTag :=
  ⟨UInt64.ofNat (m.load (a + 8) 8), UInt32.ofNat (m.load (a + 16) 4),
    UInt32.ofNat (m.load (a + 24) 4)⟩

/-- `for (entry = mmap->entries; entry < mmap + mmap->size; entry += mmap->entry_size)`, with
pointers of `w` bits, in at most `n` rounds. -/
def mmapLoop {σ : Type*} (w : ℕ) (m : Mem) (body : σ → MmapEntry → σ) (bound entrySize : ℕ) :
    ℕ → σ → ℕ → Option σ
  | 0, _, _ => none
  | n + 1, s, entry =>
      if entry < bound then
        mmapLoop w m body bound entrySize n (body s (mmapEntryAt m entry))
          ((entry + entrySize) % 2 ^ w)
      else some s

/-- The loop over the entries of a tag. -/
def overMmap {σ : Type*} (w n : ℕ) (m : Mem) (body : σ → MmapEntry → σ) (s : σ) (tag : ℕ) :
    Option σ :=
  mmapLoop w m body ((tag + m.load (tag + 4) 4) % 2 ^ w) (m.load (tag + 8) 4) n s (tag + 16)

/-- The address of the next tag: `tag + ((tag->size + 7) & ~7)`, with pointers of `w` bits. -/
def nextTag (w tag size : ℕ) : ℕ := (tag + (size + 7) % 2 ^ 32 / 8 * 8) % 2 ^ w

namespace BootTag

theorem mmap?_eq_some {t : BootTag} {entries : List MmapEntry} (h : t.mmap? = some entries) :
    ∃ version records, t = .mmap version records ∧
      records.entries.map MmapRecord.toMmapEntry = entries := by
  cases t <;> simp_all [mmap?]

theorem framebuffer?_eq_some {t : BootTag} {tag : FramebufferTag} (h : t.framebuffer? = some tag) :
    ∃ width reserved, t = .framebuffer tag width reserved := by
  cases t <;> simp_all [framebuffer?]

end BootTag

/-! ### Tags in memory -/

section Tags

variable {m : Mem} {a n w : ℕ} {t : BootTag} {tags : List BootTag} {x : ℕ × BootTag}

theorem located_map_record (a : ℕ) (tags : List BootTag) :
    located a (tags.map BootTag.record) = (placed a tags).map fun x => (x.1, x.2.record) := by
  induction tags generalizing a with
  | nil => rfl
  | cons t tags ih => rw [List.map_cons, located, placed, List.map_cons, ih]

theorem map_snd_placed (a : ℕ) (tags : List BootTag) : (placed a tags).map Prod.snd = tags := by
  induction tags generalizing a with
  | nil => rfl
  | cons t tags ih => rw [placed, List.map_cons, ih]

theorem TagsAt.at (h : TagsAt m a tags) (hx : x ∈ placed a tags) :
    x.2.record.Fits ∧ m.At x.1 x.2.record.bytes := by
  have hmem : (x.1, x.2.record) ∈ located a (tags.map BootTag.record) := by
    rw [located_map_record]
    exact List.mem_map_of_mem hx
  exact RecordsAt.at h hmem

/-- A tag is in the room of the tags. -/
theorem placed_bounds (hx : x ∈ placed a tags) :
    a ≤ x.1 ∧ x.1 + x.2.record.room ≤ a + tagsRoom tags := by
  have hmem : (x.1, x.2.record) ∈ located a (tags.map BootTag.record) := by
    rw [located_map_record]
    exact List.mem_map_of_mem hx
  exact add_room_le hmem

theorem Record.Fits.nextTag_eq {r : Record} (h : r.Fits) (hlt : a + r.room < 2 ^ w) :
    nextTag w a r.size = a + r.room := by
  have hsize := h.size_lt
  rw [nextTag, Nat.mod_eq_of_lt hsize]
  exact Nat.mod_eq_of_lt hlt

/-- **A loop over the tags.** -/
theorem eachTag_eq {σ : Type*} (body : σ → ℕ → Option σ) (s : σ) (h : TagsAt m a tags)
    (hroom : a + tagsRoom tags < 2 ^ w) (hn : tags.length < n) :
    eachRecord (nextTag w) m body n s a = (placed a tags).foldlM (fun s x => body s x.1) s := by
  rw [eachRecord_eq h (fun y hy => ?_) (by rwa [List.length_map]), located_map_record,
    List.foldlM_map]
  rw [located_map_record] at hy
  obtain ⟨x, hx, rfl⟩ := List.mem_map.mp hy
  have hle := placed_bounds hx
  exact (h.at hx).1.nextTag_eq (by omega)

theorem length_le_tagsRoom (tags : List BootTag) : tags.length ≤ tagsRoom tags := by
  induction tags with
  | nil => exact le_rfl
  | cons t tags ih =>
    have hroom : 8 ≤ t.record.room := (Nat.le_add_right ..).trans (size_le_room t.record)
    rw [tagsRoom, List.map_cons, recordsRoom, List.length_cons]
    rw [tagsRoom] at ih
    omega

/-- A loop that ends early at what is not `p`. -/
theorem foldlM_ite {α σ : Type*} {f : σ → α → Option σ} {g : σ → α → σ} {p : α → Prop}
    [DecidablePred p] {xs : List α}
    (h : ∀ s, ∀ x ∈ xs, f s x = if p x then some (g s x) else none) (s : σ) :
    xs.foldlM f s = if ∀ x ∈ xs, p x then some (xs.foldl g s) else none := by
  induction xs generalizing s with
  | nil => exact (if_pos fun x hx => absurd hx List.not_mem_nil).symm
  | cons x xs ih =>
    have hxs : ∀ s, ∀ y ∈ xs, f s y = if p y then some (g s y) else none :=
      fun s y hy => h s y (List.mem_cons_of_mem x hy)
    rw [List.foldlM_cons, h s x List.mem_cons_self, List.foldl_cons]
    by_cases hx : p x
    · rw [if_pos hx]
      refine (ih hxs (g s x)).trans (if_congr ?_ rfl rfl)
      rw [List.forall_mem_cons, and_iff_right hx]
    · rw [if_neg hx, if_neg fun hall => hx (hall x List.mem_cons_self)]
      rfl

/-- A loop that never ends early. -/
theorem foldlM_some {α σ : Type*} {f : σ → α → Option σ} {g : σ → α → σ} {xs : List α}
    (h : ∀ s, ∀ x ∈ xs, f s x = some (g s x)) (s : σ) : xs.foldlM f s = some (xs.foldl g s) := by
  have hloop := foldlM_ite (p := fun _ => True)
    (fun s x hx => (h s x hx).trans (if_pos trivial).symm) s
  exact hloop.trans (if_pos fun _ _ => trivial)

/-- The last value that is there. -/
theorem foldl_getD {α : Type*} (f : α → Option ℕ) (xs : List α) (v : ℕ) :
    xs.foldl (fun v x => (f x).getD v) v = (xs.filterMap f).getLastD v := by
  induction xs generalizing v with
  | nil => rfl
  | cons x xs ih =>
    rw [List.foldl_cons, ih, List.filterMap_cons]
    cases f x with
    | none => rfl
    | some u => rw [List.getLastD_cons, Option.getD_some]

theorem filterMap_placed {β : Type*} (a : ℕ) (f : BootTag → Option β) (tags : List BootTag) :
    (placed a tags).filterMap (fun x => f x.2) = tags.filterMap f := by
  have hmap := List.filterMap_map (f := Prod.snd) (g := f) (l := placed a tags)
  rw [map_snd_placed] at hmap
  exact hmap.symm

/-- The address of the last one is that of the tag whose contents come last. -/
theorem exists_lastFound {β : Type*} {f : BootTag → Option β} {b : β} (a : ℕ)
    (h : (tags.filterMap f).getLast? = some b) :
    ∃ t, (lastFound f (placed a tags), t) ∈ placed a tags ∧ f t = some b := by
  have hsnd : (found f (placed a tags)).map Prod.snd = tags.filterMap f := by
    rw [found, List.map_filterMap, ← filterMap_placed a f tags]
    refine congrArg (fun g => List.filterMap g (placed a tags)) (funext fun x => ?_)
    rw [Option.map_map]
    exact Option.map_id'
  rw [← hsnd, List.getLast?_map] at h
  obtain ⟨⟨tag, b'⟩, hlast, rfl⟩ := Option.map_eq_some_iff.mp h
  have hmem := List.mem_of_getLast? hlast
  obtain ⟨x, hx, hsome⟩ := List.mem_filterMap.mp hmem
  obtain ⟨b', hb', heq⟩ := Option.map_eq_some_iff.mp hsome
  obtain ⟨rfl, rfl⟩ := Prod.mk.inj heq
  have haddr : lastFound f (placed a tags) = x.1 := by
    rw [lastFound, List.getLastD_eq_getLast?, List.getLast?_map, hlast]
    rfl
  exact ⟨x.2, haddr ▸ hx, hb'⟩

end Tags

/-! ### What the fields say -/

section Fields

variable {σ : Type*} {m : Mem} {a n w tag : ℕ} {l : List UInt8} {body : σ → MmapEntry → σ} {s : σ}

theorem load_append {k v : ℕ} (h : m.At a (leBytes k v ++ l)) (hv : v < 256 ^ k) :
    m.load a k = v ∧ m.At (a + k) l := by
  obtain ⟨hload, hrest⟩ := Mem.at_append.mp h
  rw [length_leBytes] at hrest
  exact ⟨hload.load_leBytes hv, hrest⟩

theorem load_uint32 (v : UInt32) (h : m.At a (leBytes 4 v.toNat ++ l)) :
    m.load a 4 = v.toNat ∧ m.At (a + 4) l := load_append h v.toNat_lt

theorem load_uint64 (v : UInt64) (h : m.At a (leBytes 8 v.toNat ++ l)) :
    m.load a 8 = v.toNat ∧ m.At (a + 8) l := load_append h v.toNat_lt

/-- An entry is read as it was written. -/
theorem mmapEntryAt_eq {e : MmapRecord} (h : m.At a e.bytes) :
    mmapEntryAt m a = e.toMmapEntry := by
  obtain ⟨haddr, h⟩ := load_uint64 e.addr h
  obtain ⟨hlen, h⟩ := load_uint64 e.len h
  obtain ⟨htype, -⟩ := load_uint32 e.type h
  rw [mmapEntryAt, haddr, hlen, htype, UInt64.ofNat_toNat, UInt64.ofNat_toNat, UInt32.ofNat_toNat]

/-- **The loop over a memory map** goes over its entries. -/
theorem mmapLoop_eq {entries : List MmapRecord} {entrySize bound : ℕ}
    (h : m.At a (entries.flatMap MmapRecord.bytes))
    (hsize : ∀ e ∈ entries, e.bytes.length = entrySize)
    (hbound : a + (entries.flatMap MmapRecord.bytes).length = bound) (hlt : bound < 2 ^ w)
    (hn : entries.length < n) :
    mmapLoop w m body bound entrySize n s a =
      some (entries.foldl (fun s e => body s e.toMmapEntry) s) := by
  induction entries generalizing a n s with
  | nil =>
    obtain ⟨n, rfl⟩ := Nat.exists_eq_add_of_le' hn
    exact if_neg (Nat.not_lt.mpr hbound.ge)
  | cons e entries ih =>
    obtain ⟨n, rfl⟩ := Nat.exists_eq_add_of_le' (Nat.zero_lt_of_lt hn)
    rw [List.flatMap_cons] at h hbound
    rw [List.length_append] at hbound
    obtain ⟨he, hrest⟩ := Mem.at_append.mp h
    obtain ⟨hlen, hsize⟩ := List.forall_mem_cons.mp hsize
    have hpos : 0 < e.bytes.length := by simp [MmapRecord.bytes]
    have hnext : (a + entrySize) % 2 ^ w = a + e.bytes.length := by
      rw [← hlen, Nat.mod_eq_of_lt (by omega)]
    rw [mmapLoop, if_pos (by omega), mmapEntryAt_eq he, hnext, List.foldl_cons]
    exact ih hrest hsize (by omega) (Nat.succ_lt_succ_iff.mp hn)

theorem length_entries_le (entries : List MmapRecord) :
    entries.length ≤ (entries.flatMap MmapRecord.bytes).length := by
  induction entries with
  | nil => exact le_rfl
  | cons e entries ih =>
    have hpos : 0 < e.bytes.length := by simp [MmapRecord.bytes]
    rw [List.flatMap_cons, List.length_append, List.length_cons]
    omega

variable {tags : List BootTag} {t : BootTag}

theorem TagsAt.load_type (h : TagsAt m a tags) (hx : (tag, t) ∈ placed a tags) :
    m.load tag 4 = t.type := (h.at hx).1.load_type (h.at hx).2

theorem TagsAt.payload (h : TagsAt m a tags) (hx : (tag, t) ∈ placed a tags) :
    m.At (tag + 8) t.payload := Record.payload_at (h.at hx).2

/-- The payload of a tag is in the room of the tags. -/
theorem payload_bounds (hx : (tag, t) ∈ placed a tags) :
    a ≤ tag ∧ tag + (8 + t.payload.length) ≤ a + tagsRoom tags := by
  have hsize : 8 + t.payload.length ≤ t.record.room := size_le_room t.record
  have hle := placed_bounds hx
  dsimp only at hle
  omega

variable (body s) in
/-- **The loop over a tag's memory map.** -/
theorem TagsAt.overMmap {version : UInt32} {mmap : MmapRecords} (h : TagsAt m a tags)
    (hx : (tag, .mmap version mmap) ∈ placed a tags) (hroom : a + tagsRoom tags < 2 ^ w)
    (hn : tagsRoom tags < n) :
    overMmap w n m body s tag =
      some ((mmap.entries.map MmapRecord.toMmapEntry).foldl body s) := by
  obtain ⟨hle, hend⟩ := payload_bounds hx
  have hsize := (h.at hx).1.load_size (h.at hx).2
  have hpayload := h.payload hx
  obtain ⟨hentry, hpayload⟩ := load_append (k := 4) hpayload mmap.entrySize_lt
  obtain ⟨-, hentries⟩ := load_uint32 version hpayload
  have hlen : (BootTag.mmap version mmap).payload.length =
      8 + (mmap.entries.flatMap MmapRecord.bytes).length := by
    simp only [BootTag.payload, List.length_append, length_leBytes]
    omega
  have hbound : tag + m.load (tag + 4) 4 =
      tag + 16 + (mmap.entries.flatMap MmapRecord.bytes).length := by
    rw [hsize, Record.size, BootTag.record, hlen]
    omega
  have hcount := length_entries_le mmap.entries
  rw [Xana.overMmap, hbound, Nat.mod_eq_of_lt (by omega), hentry,
    mmapLoop_eq hentries mmap.length_bytes rfl (by omega) (by omega), List.foldl_map]

/-- **The framebuffer's tag.** -/
theorem TagsAt.framebufferTagAt {fb : FramebufferTag} {width : UInt32} {reserved : List UInt8}
    (h : TagsAt m a tags) (hx : (tag, .framebuffer fb width reserved) ∈ placed a tags) :
    framebufferTagAt m tag = fb := by
  obtain ⟨haddr, hrest⟩ := load_uint64 fb.framebufferAddr (h.payload hx)
  obtain ⟨hpitch, hrest⟩ := load_uint32 fb.framebufferPitch hrest
  obtain ⟨-, hrest⟩ := load_uint32 width hrest
  obtain ⟨hheight, -⟩ := load_uint32 fb.framebufferHeight hrest
  rw [Xana.framebufferTagAt, haddr, hpitch, hheight, UInt64.ofNat_toNat, UInt32.ofNat_toNat,
    UInt32.ofNat_toNat]

/-- **A module**: where it starts and ends, and what it is called. -/
theorem TagsAt.module {modStart modEnd : UInt32} {cmdline : BootString} (h : TagsAt m a tags)
    (hx : (tag, .module modStart modEnd cmdline) ∈ placed a tags) :
    m.load (tag + 8) 4 = modStart.toNat ∧ m.load (tag + 12) 4 = modEnd.toNat ∧
      Holds (fun i => m (tag + 16 + i)) cmdline.chars := by
  obtain ⟨hstart, hrest⟩ := load_uint32 modStart (h.payload hx)
  obtain ⟨hend, hrest⟩ := load_uint32 modEnd hrest
  exact ⟨hstart, hend, holds_shift_iff.mpr ⟨cmdline.zero_notMem, hrest⟩⟩

/-- Whether a module is called so. -/
theorem TagsAt.strcmp {modStart modEnd : UInt32} {cmdline : BootString} {name : List UInt8}
    (h : TagsAt m a tags) (hx : (tag, .module modStart modEnd cmdline) ∈ placed a tags)
    (hname : 0 ∉ name) (hn : tagsRoom tags < n) :
    ∃ r, Xana.strcmp n (fun i => m (tag + 16 + i)) (chars name) = some r ∧
      (r = 0 ↔ cmdline.chars = name) := by
  have hlen : cmdline.chars.length < (BootTag.module modStart modEnd cmdline).payload.length := by
    simp only [BootTag.payload, List.length_append, length_leBytes, List.length_singleton]
    omega
  have hle := payload_bounds hx
  exact strcmp_spec (h.module hx).2.2 (holds_chars hname) (by omega)

end Fields

end Xana
