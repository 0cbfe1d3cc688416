import Xana.Lib.Runs
import Xana.Ramdisk.Layout

/-!
# Reading a ramdisk back

What `ramdisk.py` packs, `ramdisk_open` finds and `ramdisk_read` reads
(`Xana.round_trip`).

The walk of `ramdisk_get_path_header` over the flat list of headers is a walk
over the tree: it passes an entry that is not the one looked for together with
everything below it, because the count in its header is the number of headers
below, and it enters a directory by going on to the next header
(`Xana.headerLoop_find`, by induction on the tree).
-/

namespace Xana

open Mem

variable {t sub rest : Listing} {m m' : Mem} {a pos i n : ℕ} {h : Header} {rd : Ramdisk}
  {name content : List UInt8} {names q before : List (List UInt8)} {part : ℕ → UInt8}

/-! ### Headers in memory -/

/-- The fields of a header fit. -/
structure Header.Fits (h : Header) : Prop where
  magic_lt : h.magic < 2 ^ 16
  fileData_lt : h.fileData < 2 ^ 32
  size_lt : h.size < 2 ^ 32
  name : IsFileName h.name

/-- What the code reads at the address of a header. -/
structure HeaderAt (m : Mem) (a : ℕ) (h : Header) : Prop where
  magic : magic m a = h.magic
  fileData : fileData m a = h.fileData
  size : fileSize m a = h.size
  name : Holds (fileName m a) h.name

theorem headerAt_of_at (hat : m.At a h.bytes) (hf : h.Fits) : HeaderAt m a h := by
  have hlen := hf.name.length_le
  rw [Header.bytes, at_append, at_append, at_append, at_append, at_append] at hat
  obtain ⟨⟨⟨⟨hmagic, hdata⟩, hname, hnul⟩, hsize⟩, -⟩ := hat
  simp only [List.length_append, length_leBytes, List.length_replicate] at hdata hname hnul hsize
  have hoff : a + (2 + 4 + (h.name.length + (64 - h.name.length))) = a + 70 := by omega
  rw [hoff] at hsize
  refine ⟨hmagic.load_leBytes hf.magic_lt, hdata.load_leBytes hf.fileData_lt,
    hsize.load_leBytes hf.size_lt, (holds_chars hf.name.noNul).congr fun j hj => ?_⟩
  by_cases hlt : j < h.name.length
  · rw [chars, List.getD_eq_getElem?_getD, List.getElem?_eq_getElem hlt]
    exact hname.apply hlt
  · -- the byte behind the name is the first of the padding
    obtain rfl : j = h.name.length := by omega
    have hpad := hnul.apply (n := 0) (by rw [List.length_replicate]; omega)
    rw [List.getElem_replicate] at hpad
    rw [chars, List.getD_eq_getElem?_getD, List.getElem?_eq_none le_rfl]
    exact hpad

namespace Listing

/-- The fields of the headers fit. -/
theorem fits_headers (hwf : t.WellFormed) (hpos : pos + t.data.length < 2 ^ 32)
    (hblocks : t.blocks < 2 ^ 32) : ∀ x ∈ t.headers pos, x.Fits := by
  induction t generalizing pos with
  | nil => simp [headers]
  | file name content rest ih =>
    obtain ⟨hname, -, hrest⟩ := hwf
    rw [data, List.length_append] at hpos
    rw [blocks] at hblocks
    have hmagic : fileEntry < 2 ^ 16 := by decide
    rw [headers]
    refine List.forall_mem_cons.mpr ⟨⟨hmagic, by simp only; omega, by simp only; omega, hname⟩, ?_⟩
    exact ih hrest (by omega) (by omega)
  | dir name sub rest ihsub ihrest =>
    obtain ⟨hname, -, hsub, hrest⟩ := hwf
    have hlen := sub.length_le_blocks
    rw [data, List.length_append] at hpos
    rw [blocks] at hblocks
    have hmagic : dirEntry < 2 ^ 16 := by decide
    rw [headers]
    refine List.forall_mem_cons.mpr ⟨⟨hmagic, by simp only; omega, by simp only; omega, hname⟩, ?_⟩
    refine List.forall_mem_append.mpr ⟨ihsub hsub (by omega) (by omega), ?_⟩
    exact ihrest hrest (by omega) (by omega)

/-- The header of a file, and the headers behind it. -/
theorem at_headers_file (hname : IsFileName name)
    (hat : m.At a (((file name content rest).headers pos).flatMap Header.bytes)) :
    m.At a (Header.mk fileEntry pos name content.length).bytes ∧
      m.At (a + 80) ((rest.headers (pos + content.length)).flatMap Header.bytes) := by
  rwa [headers, List.flatMap_cons, at_append,
    Header.length_bytes (hname.length_le.trans (by decide))] at hat

/-- The header of a directory, the headers below it, and those behind it. -/
theorem at_headers_dir (hname : IsFileName name) (hsub : sub.WellFormed)
    (hat : m.At a (((dir name sub rest).headers pos).flatMap Header.bytes)) :
    m.At a (Header.mk dirEntry sub.length name sub.blocks).bytes ∧
      m.At (a + 80) ((sub.headers pos).flatMap Header.bytes) ∧
      m.At (a + 80 + 80 * sub.blocks)
        ((rest.headers (pos + sub.data.length)).flatMap Header.bytes) := by
  rwa [headers, List.flatMap_cons, List.flatMap_append, at_append, at_append,
    Header.length_bytes (hname.length_le.trans (by decide)),
    length_flatMap_bytes fun x hx => isFileName_of_mem_headers hsub hx, length_headers] at hat

/-- What is read at the header of a file. -/
theorem headerAt_file (hwf : (file name content rest).WellFormed)
    (hat : m.At a (((file name content rest).headers pos).flatMap Header.bytes))
    (hpos : pos + (file name content rest).data.length < 2 ^ 32)
    (hblocks : (file name content rest).blocks < 2 ^ 32) :
    HeaderAt m a ⟨fileEntry, pos, name, content.length⟩ :=
  headerAt_of_at (at_headers_file hwf.1 hat).1
    (fits_headers hwf hpos hblocks _ List.mem_cons_self)

/-- What is read at the header of a directory. -/
theorem headerAt_dir (hwf : (dir name sub rest).WellFormed)
    (hat : m.At a (((dir name sub rest).headers pos).flatMap Header.bytes))
    (hpos : pos + (dir name sub rest).data.length < 2 ^ 32)
    (hblocks : (dir name sub rest).blocks < 2 ^ 32) :
    HeaderAt m a ⟨dirEntry, sub.length, name, sub.blocks⟩ :=
  headerAt_of_at (at_headers_dir hwf.1 hwf.2.2.1 hat).1
    (fits_headers hwf hpos hblocks _ List.mem_cons_self)

theorem length_le_of_find {x : Found} (hfind : t.find q = some x) : q.length ≤ t.blocks := by
  induction t generalizing q with
  | nil => simp at hfind
  | file name content rest ih =>
    obtain ⟨c, q', rfl⟩ := exists_cons_of_find hfind
    rw [find_file] at hfind
    split_ifs at hfind with hc hq
    · rw [hq]
      exact Nat.succ_le_succ (Nat.zero_le _)
    · exact (ih hfind).trans (Nat.le_succ _)
  | dir name sub rest ihsub ihrest =>
    obtain ⟨c, q', rfl⟩ := exists_cons_of_find hfind
    have hb : (dir name sub rest).blocks = sub.blocks + rest.blocks + 1 := rfl
    rw [find_dir] at hfind
    rw [hb, List.length_cons]
    split_ifs at hfind with hc hq
    · rw [hq, List.length_nil]
      omega
    · have hle := ihsub hfind
      omega
    · have hle := ihrest hfind
      rw [List.length_cons] at hle
      omega

theorem blocks_pos_of_find {x : Found} (hfind : t.find q = some x) : 0 < t.blocks := by
  obtain ⟨c, q', rfl⟩ := exists_cons_of_find hfind
  exact (Nat.succ_pos _).trans_le (length_le_of_find hfind)

end Listing

/-! ### The walk -/

/-- What has been found: the header of a file in the tree, and where its content
is among the contents of all files. -/
def IsHeaderOf (t : Listing) (m : Mem) (pos file : ℕ) (content : List UInt8) : Prop :=
  magic m file = fileEntry ∧ fileSize m file = content.length ∧
    ∃ l₁ l₂, t.data = l₁ ++ content ++ l₂ ∧ fileData m file = pos + l₁.length

theorem advance_of_lt {k : ℕ} (h : a + 80 * k < 2 ^ 64) : advance a k = a + 80 * k :=
  Nat.mod_eq_of_lt h

theorem length_le_absPath {n : List UInt8} (hn : n ∈ names) :
    n.length ≤ (absPath names).length := by
  obtain ⟨l₁, l₂, rfl⟩ := List.append_of_mem hn
  simp only [absPath, List.flatMap_append, List.flatMap_cons, List.length_append,
    List.length_cons]
  omega

theorem notMem_absPath (hnames : ∀ n ∈ names, IsFileName n) : 0 ∉ absPath names := by
  intro h0
  obtain ⟨n, hn, h0⟩ := List.mem_flatMap.mp h0
  rcases List.mem_cons.mp h0 with h0 | h0
  · exact absurd h0 (by decide)
  · exact (hnames n hn).noNul h0

/-- One round at the header of a file. -/
theorem headerLoop_file {path c : List UInt8} (hh : HeaderAt m a h) (hm : h.magic = fileEntry)
    (hpart : Holds (getPathPart path part i) c) (hc : c.length ≤ path.length) :
    headerLoop m rd path (n + 1) a i part =
      if c = h.name then some (some a)
      else if rd.data ≤ advance a 1 then some none
      else headerLoop m rd path n (advance a 1) i (getPathPart path part i) := by
  obtain ⟨r, hr, hiff⟩ := strcmp_spec hpart hh.name (Nat.lt_succ_of_le hc)
  have hmagic : magic m a = fileEntry := hh.magic.trans hm
  rw [headerLoop]
  simp only [if_pos hmagic, hr, Option.bind_eq_bind, Option.bind_some, hiff, Option.pure_def]

/-- One round at the header of a directory. -/
theorem headerLoop_dir {path c : List UInt8} (hh : HeaderAt m a h) (hm : h.magic = dirEntry)
    (hpart : Holds (getPathPart path part i) c) (hc : c.length ≤ path.length) :
    headerLoop m rd path (n + 1) a i part =
      if c = h.name then
        if i = (getPathDepth path + (2 ^ 32 - 1)) % 2 ^ 32 then some (some a)
        else if rd.data ≤ advance a 1 then some none
        else headerLoop m rd path n (advance a 1) (i + 1) (getPathPart path part i)
      else if rd.data ≤ advance a ((h.size + 1) % 2 ^ 32) then some none
      else headerLoop m rd path n (advance a ((h.size + 1) % 2 ^ 32)) i
        (getPathPart path part i) := by
  obtain ⟨r, hr, hiff⟩ := strcmp_spec hpart hh.name (Nat.lt_succ_of_le hc)
  have hmagic : magic m a = dirEntry := hh.magic.trans hm
  have hne : magic m a ≠ fileEntry := by rw [hmagic]; decide
  rw [headerLoop]
  simp only [if_neg hne, if_pos hmagic, hr, Option.bind_eq_bind, Option.bind_some, hiff,
    Option.pure_def, hh.size]

/-- The component that a round looks for. -/
theorem holds_part {c : List UInt8} (hnames : ∀ n ∈ before ++ c :: q, IsFileName n) :
    Holds (getPathPart (absPath (before ++ c :: q)) part before.length) c := by
  refine holds_getPathPart ?_ (notMem_absPath hnames) ?_
  · cases before <;> rfl
  · rw [components_absPath fun n hn => (hnames n hn).isName,
      List.getElem?_append_right le_rfl, Nat.sub_self]
    rfl

/-- **`ramdisk_get_path_header` finds what is in the tree**: from the first header
of a directory, when the components `before` have led there. -/
theorem headerLoop_find (hnames : ∀ n ∈ before ++ q, IsFileName n) (hwf : t.WellFormed)
    (hat : m.At a ((t.headers pos).flatMap Header.bytes)) (hpos : pos + t.data.length < 2 ^ 32)
    (hblocks : t.blocks + 1 < 2 ^ 32) (hend : a + 80 * t.blocks ≤ rd.data)
    (hdata : rd.data ≤ 2 ^ 64) (hdepth : (before ++ q).length < 2 ^ 32)
    (hfind : t.find q = some (.file content)) (n : ℕ) (part : ℕ → UInt8) (hn : t.blocks ≤ n) :
    ∃ file, headerLoop m rd (absPath (before ++ q)) n a before.length part = some (some file) ∧
      (a ≤ file ∧ file + 80 ≤ a + 80 * t.blocks) ∧ IsHeaderOf t m pos file content := by
  induction t generalizing a pos before q n part with
  | nil => simp at hfind
  | file name c rest ih =>
    obtain ⟨comp, q, rfl⟩ := Listing.exists_cons_of_find hfind
    have hb : (Listing.file name c rest).blocks = rest.blocks + 1 := rfl
    have hlen : (Listing.file name c rest).data.length = c.length + rest.data.length :=
      List.length_append
    obtain ⟨n, rfl⟩ := Nat.exists_eq_succ_of_ne_zero (show n ≠ 0 by omega)
    have hhead := Listing.headerAt_file hwf hat hpos (by omega)
    obtain ⟨hname, -, hrest⟩ := hwf
    obtain ⟨-, hat⟩ := Listing.at_headers_file hname hat
    rw [headerLoop_file hhead rfl (holds_part hnames) (length_le_absPath (by simp))]
    rw [Listing.find_file] at hfind
    by_cases hc : comp = name
    · -- this is the file
      rw [if_pos hc] at hfind
      split_ifs at hfind with hq
      obtain rfl : c = content := by simpa using hfind
      exact ⟨a, if_pos hc, by omega, hhead.magic, hhead.size, [], rest.data, rfl, hhead.fileData⟩
    · -- past the file
      rw [if_neg hc] at hfind
      have hpos' := Listing.blocks_pos_of_find hfind
      have hadv : advance a 1 = a + 80 := advance_of_lt (k := 1) (by omega)
      have hnext : ¬rd.data ≤ a + 80 := by omega
      rw [if_neg hc, hadv, if_neg hnext]
      obtain ⟨file, hloop, hin, hm, hs, l₁, l₂, hl, hd⟩ := ih hnames hrest hat (by omega) (by omega)
        (by omega) hdepth hfind n _ (by omega)
      refine ⟨file, hloop, by omega, hm, hs, c ++ l₁, l₂, ?_, ?_⟩
      · rw [Listing.data, hl, List.append_assoc, List.append_assoc, List.append_assoc]
      · rw [hd, List.length_append, add_assoc]
  | dir name sub rest ihsub ihrest =>
    obtain ⟨comp, q, rfl⟩ := Listing.exists_cons_of_find hfind
    have hb : (Listing.dir name sub rest).blocks = sub.blocks + rest.blocks + 1 := rfl
    have hlen : (Listing.dir name sub rest).data.length = sub.data.length + rest.data.length :=
      List.length_append
    have hsublen := sub.length_le_blocks
    obtain ⟨n, rfl⟩ := Nat.exists_eq_succ_of_ne_zero (show n ≠ 0 by omega)
    have hhead := Listing.headerAt_dir hwf hat hpos (by omega)
    obtain ⟨hname, -, hsub, hrest⟩ := hwf
    obtain ⟨-, hat₂, hat₃⟩ := Listing.at_headers_dir hname hsub hat
    rw [headerLoop_dir hhead rfl (holds_part hnames) (length_le_absPath (by simp))]
    rw [Listing.find_dir] at hfind
    by_cases hc : comp = name
    · -- into the directory
      rw [if_pos hc] at hfind
      by_cases hq : q = []
      · rw [if_pos hq] at hfind
        simp at hfind
      rw [if_neg hq] at hfind
      have hpos' := Listing.blocks_pos_of_find hfind
      have hadv : advance a 1 = a + 80 := advance_of_lt (k := 1) (by omega)
      have hlast : before.length ≠
          (getPathDepth (absPath (before ++ comp :: q)) + (2 ^ 32 - 1)) % 2 ^ 32 := by
        have habs : (absPath (before ++ comp :: q)).head? = some slash := by cases before <;> rfl
        have hqpos : 0 < q.length := List.length_pos_of_ne_nil hq
        rw [getPathDepth_eq habs, components_absPath fun n hn => (hnames n hn).isName]
        rw [List.length_append, List.length_cons] at hdepth ⊢
        omega
      have hnext : ¬rd.data ≤ a + 80 := by omega
      rw [if_pos hc, if_neg hlast, hadv, if_neg hnext]
      have hsplit : before ++ comp :: q = (before ++ [comp]) ++ q := by simp
      have hlength : before.length + 1 = (before ++ [comp]).length := by simp
      rw [hsplit] at hnames hdepth ⊢
      rw [hlength]
      obtain ⟨file, hloop, hin, hm, hs, l₁, l₂, hl, hd⟩ :=
        ihsub hnames hsub hat₂ (by omega) (by omega)
        (by omega) hdepth hfind n _ (by omega)
      refine ⟨file, hloop, by omega, hm, hs, l₁, l₂ ++ rest.data, ?_, hd⟩
      rw [Listing.data, hl, List.append_assoc, List.append_assoc]
    · -- past the directory and what is below it
      rw [if_neg hc] at hfind
      have hpos' := Listing.blocks_pos_of_find hfind
      have hmod : (sub.blocks + 1) % 2 ^ 32 = sub.blocks + 1 := Nat.mod_eq_of_lt (by omega)
      have hadv : advance a (sub.blocks + 1) = a + 80 + 80 * sub.blocks := by
        rw [advance_of_lt (k := sub.blocks + 1) (by omega)]
        omega
      have hnext : ¬rd.data ≤ a + 80 + 80 * sub.blocks := by omega
      rw [if_neg hc, hmod, hadv, if_neg hnext]
      obtain ⟨file, hloop, hin, hm, hs, l₁, l₂, hl, hd⟩ := ihrest hnames hrest hat₃ (by omega)
        (by omega) (by omega) hdepth hfind n _ (by omega)
      refine ⟨file, hloop, by omega, hm, hs, sub.data ++ l₁, l₂, ?_, ?_⟩
      · rw [Listing.data, hl, List.append_assoc, List.append_assoc, List.append_assoc]
      · rw [hd, List.length_append, add_assoc]

/-! ### Opening -/

/-- The image is in memory from `addr` on. -/
structure Loaded (t : Listing) (m : Mem) (addr : ℕ) : Prop where
  at_image : m.At addr t.image
  le : addr + t.packedSize ≤ 2 ^ 64

section Loaded

variable {addr : ℕ}

/-- The parts of the image, where `init_ramdisk_device` says they are. -/
theorem Loaded.parts (hl : Loaded t m addr) (hwf : t.WellFormed) (hsize : t.packedSize < 2 ^ 32) :
    (initRamdisk m addr).data = addr + 16 + 80 * t.blocks ∧
      m.At (addr + 16) t.headerBytes ∧ m.At (addr + 16 + 80 * t.blocks) t.data := by
  have hpacked : t.packedSize = 16 + 80 * t.blocks + t.data.length := rfl
  have hat := hl.at_image
  rw [Listing.image, at_append, at_append, at_append, at_append, at_append] at hat
  obtain ⟨⟨⟨⟨⟨-, -⟩, hhdr⟩, -⟩, hheaders⟩, hdata⟩ := hat
  simp only [List.length_append, length_leBytes, Listing.length_headerBytes hwf]
    at hhdr hheaders hdata
  refine ⟨?_, hheaders, by rwa [← add_assoc] at hdata⟩
  have hload : m.load (addr + 8) 4 = t.blocks * 80 + 16 := hhdr.load_leBytes (by omega)
  change addr + m.load (addr + 8) 4 = _
  rw [hload]
  omega

/-- A memory that agrees on the image has it, too. -/
theorem Loaded.congr (hl : Loaded t m addr) (hwf : t.WellFormed)
    (hm : ∀ b, addr ≤ b → b < addr + t.packedSize → m' b = m b) : Loaded t m' addr := by
  refine ⟨hl.at_image.congr fun i hi => hm _ (Nat.le_add_right _ _) ?_, hl.le⟩
  rw [Listing.length_image hwf] at hi
  omega

/-- Flags that ask neither to write nor for a directory. -/
def ReadFlags (flags : ℕ) : Prop :=
  flags &&& oWRONLY = 0 ∧ flags &&& oRDWR = 0 ∧ flags &&& oDIRECTORY = 0

/-- With such flags, a path other than `/` is opened at its header. -/
theorem ramdiskOpen_eq {path : List UInt8} {flags : ℕ} (hflags : ReadFlags flags)
    (hnul : 0 ∉ path) (habs : path.head? = some slash) (hne : path ≠ [slash]) :
    ramdiskOpen m rd path flags part n = (ramdiskGetPathHeader m rd path part n).map fun file =>
      file.elim (none, -eNOENT) fun file => (some ⟨some file, 0, 1⟩, 0) := by
  obtain ⟨h₁, h₂, h₃⟩ := hflags
  obtain ⟨rest, rfl⟩ := List.head?_eq_some_iff.mp habs
  have hroot : strncmp 2 (chars (slash :: rest)) (chars [slash]) ≠ 0 := by
    rw [Ne, strncmp_eq_zero_iff (holds_chars hnul) (holds_chars (by decide))]
    cases rest with
    | nil => exact absurd rfl hne
    | cons b rest => simp
  have hslash : chars (slash :: rest) 0 = slash := rfl
  have hnonzero : slash ≠ 0 := by decide
  rw [ramdiskOpen, hslash]
  cases ramdiskGetPathHeader m rd (slash :: rest) part n with
  | none => simp [h₁, h₂, hroot, hnonzero]
  | some file => cases file <;> simp [h₁, h₂, h₃, hroot, hnonzero]

/-- **`ramdisk_open` opens every file of the tree.** -/
theorem ramdiskOpen_spec (hl : Loaded t m addr) (hwf : t.WellFormed)
    (hsize : t.packedSize < 2 ^ 32) (hfind : t.find names = some (.file content)) {flags : ℕ}
    (hflags : ReadFlags flags) (n : ℕ) (hn : t.blocks ≤ n) (part : ℕ → UInt8) :
    ∃ file, ramdiskOpen m (initRamdisk m addr) (absPath names) flags part n =
        some (some ⟨some file, 0, 1⟩, 0) ∧
      (addr ≤ file ∧ file + 80 ≤ addr + t.packedSize) ∧ IsHeaderOf t m 0 file content := by
  obtain ⟨hdata, hheaders, -⟩ := hl.parts hwf hsize
  have hpacked : t.packedSize = 16 + 80 * t.blocks + t.data.length := rfl
  have hle := hl.le
  have hnames := Listing.isFileName_of_find hwf hfind
  have hdepth := Listing.length_le_of_find hfind
  have hwalk : ∃ file, headerLoop m (initRamdisk m addr) (absPath ([] ++ names)) n (addr + 16) 0
      part = some (some file) ∧ (addr + 16 ≤ file ∧ file + 80 ≤ addr + 16 + 80 * t.blocks) ∧
        IsHeaderOf t m 0 file content :=
    headerLoop_find hnames hwf hheaders (by omega) (by omega) (by rw [hdata])
      (by rw [hdata]; omega) (by rw [List.nil_append]; omega) hfind n part hn
  obtain ⟨file, hloop, hinside, hheader⟩ := hwalk
  refine ⟨file, ?_, by omega, hheader⟩
  have hnul : 0 ∉ absPath names := by
    simp only [absPath, List.mem_flatMap, List.mem_cons, not_exists, not_and, not_or]
    exact fun c hc => ⟨by decide, (hnames c hc).noNul⟩
  obtain ⟨c, q, rfl⟩ := Listing.exists_cons_of_find hfind
  obtain ⟨b, c, rfl⟩ := List.exists_cons_of_ne_nil (hnames c (List.mem_cons_self ..)).isName.1
  have hslash : chars (absPath ((b :: c) :: q)) 0 = slash := rfl
  have hheader' : ramdiskGetPathHeader m (initRamdisk m addr) (absPath ((b :: c) :: q)) part n =
      some (some file) := by
    rw [ramdiskGetPathHeader, if_neg (not_not.mpr hslash)]
    exact hloop
  rw [ramdiskOpen_eq hflags hnul rfl (by simp [absPath]), hheader']
  rfl

end Loaded

/-! ### Reading -/

/-- A request to `ramdisk_read`. -/
structure ReadRequest where
  ptr : ℕ
  size : ℕ
  nmemb : ℕ
  deriving DecidableEq, Repr

/-- A file being read: the memory, the handle, and what each read has put in its
buffer. -/
structure Reading where
  mem : Mem
  entry : RamdiskFileEntry
  slices : List (List UInt8)

namespace Reading

variable {s s' : Reading} {addr file : ℕ} {r : ReadRequest}

/-- One read. -/
def step (rd : Ramdisk) (s : Reading) (r : ReadRequest) : Option Reading :=
  (ramdiskRead s.mem rd r.ptr r.size r.nmemb s.entry).map fun (ret, entry, mem) =>
    ⟨mem, entry, s.slices ++ [mem.read r.ptr ret]⟩

/-- A request into an aligned buffer, away from the image. -/
structure Allowed (addr packedSize : ℕ) (s : Reading) (r : ReadRequest) : Prop where
  aligned : r.ptr % 8 = 0
  lt : s.entry.readPos + r.size * r.nmemb < 2 ^ 64
  apart : r.ptr + r.size * r.nmemb ≤ addr ∨ addr + packedSize ≤ r.ptr

/-- **What reads return**: the successive slices of the content, each as long as
the request or as what is left, and so nothing at the end. -/
structure Slices (rd : Ramdisk) (addr packedSize : ℕ) (content : List UInt8) (s : Reading) :
    Prop where
  le : s.entry.readPos ≤ content.length
  slices : s.slices.flatten = content.take s.entry.readPos
  read : ∀ r, Allowed addr packedSize s r → ∃ mem,
    ramdiskRead s.mem rd r.ptr r.size r.nmemb s.entry =
      some (min (r.size * r.nmemb) (content.length - s.entry.readPos),
        { s.entry with
          readPos := s.entry.readPos +
            min (r.size * r.nmemb) (content.length - s.entry.readPos) }, mem) ∧
      mem.read r.ptr (min (r.size * r.nmemb) (content.length - s.entry.readPos)) =
        (content.drop s.entry.readPos).take (r.size * r.nmemb)

/-- **What reads keep.** -/
structure Inv (t : Listing) (rd : Ramdisk) (addr file : ℕ) (content : List UInt8) (s : Reading) :
    Prop where
  loaded : Loaded t s.mem addr
  header : IsHeaderOf t s.mem 0 file content
  data : rd.data = addr + 16 + 80 * t.blocks
  file_eq : s.entry.file = some file
  /-- The header lies in the image. -/
  inside : addr ≤ file ∧ file + 80 ≤ addr + t.packedSize
  le : s.entry.readPos ≤ content.length
  slices : s.slices.flatten = content.take s.entry.readPos

/-- The content of the file, in memory. -/
theorem Inv.at_content (h : Inv t rd addr file content s) (hwf : t.WellFormed)
    (hsize : t.packedSize < 2 ^ 32) :
    s.mem.At (rd.data + fileData s.mem file) content ∧
      rd.data + fileData s.mem file + content.length ≤ addr + t.packedSize := by
  obtain ⟨-, -, hdata⟩ := h.loaded.parts hwf hsize
  obtain ⟨-, -, l₁, l₂, hl, hoff⟩ := h.header
  have hpacked : t.packedSize = 16 + 80 * t.blocks + t.data.length := rfl
  have hlen := congrArg List.length hl
  rw [List.length_append, List.length_append] at hlen
  rw [hl, at_append, at_append] at hdata
  rw [h.data, hoff, Nat.zero_add]
  exact ⟨hdata.1.2, by omega⟩

/-- **What one read does.** -/
theorem Inv.read (h : Inv t rd addr file content s) (hwf : t.WellFormed)
    (hsize : t.packedSize < 2 ^ 32) (hr : Allowed addr t.packedSize s r) :
    ∃ mem, ramdiskRead s.mem rd r.ptr r.size r.nmemb s.entry =
        some (min (r.size * r.nmemb) (content.length - s.entry.readPos),
          { s.entry with
            readPos := s.entry.readPos +
              min (r.size * r.nmemb) (content.length - s.entry.readPos) }, mem) ∧
      mem.read r.ptr (min (r.size * r.nmemb) (content.length - s.entry.readPos)) =
        (content.drop s.entry.readPos).take (r.size * r.nmemb) ∧
      ∀ b, addr ≤ b → b < addr + t.packedSize → mem b = s.mem b := by
  obtain ⟨hcontent, hinside⟩ := h.at_content hwf hsize
  obtain ⟨hmagic, hfsize, -⟩ := h.header
  obtain ⟨halign, hlt, hapart⟩ := hr
  have hle := h.le
  set pos := s.entry.readPos with hpos
  set k := min (r.size * r.nmemb) (content.length - pos) with hk
  have hwanted : r.size * r.nmemb % 2 ^ 64 = r.size * r.nmemb := Nat.mod_eq_of_lt (by omega)
  have hslice : (content.drop pos).take (r.size * r.nmemb) = (content.drop pos).take k := by
    rw [hk, ← List.length_drop, ← List.take_take, List.take_length]
  rw [ramdiskRead, h.file_eq]
  simp only [Option.bind_eq_bind, Option.bind_some, hmagic, hfsize, ← hpos, ne_eq,
    not_true_eq_false, if_false, Option.pure_def, hwanted]
  by_cases hend : content.length ≤ pos
  · have hk0 : k = 0 := by omega
    rw [if_pos hend, hslice, hk0]
    exact ⟨s.mem, rfl, rfl, fun _ _ _ => rfl⟩
  · have hbytes : (if content.length < (pos + r.size * r.nmemb) % 2 ^ 64 then
        content.length - pos else r.size * r.nmemb) = k := by
      rw [Nat.mod_eq_of_lt hlt]
      split_ifs <;> omega
    have hnew : (pos + k) % 2 ^ 64 = pos + k := Nat.mod_eq_of_lt (by omega)
    have hdata := h.data
    have hfit : k ≤ r.size * r.nmemb ∧ pos + k ≤ content.length := by omega
    have hdisj : r.ptr + k ≤ rd.data + fileData s.mem file + pos ∨
        rd.data + fileData s.mem file + pos + k ≤ r.ptr := by omega
    simp only [if_neg hend, hbytes, hnew, memcpy_of_aligned halign
      (hdisj.imp_left (Nat.le_add_right _ _).trans)]
    refine ⟨_, by rw [h.file_eq], ?_, fun b hb₁ hb₂ => write_of_notMem ?_⟩
    · have hself := read_write_self s.mem r.ptr
        (s.mem.read (rd.data + fileData s.mem file + pos) k)
      rw [At, length_read] at hself
      rw [hself, hslice]
      exact hcontent.read_drop hfit.2
    · rw [length_read]
      omega

/-- Bytes outside the image do not matter to the invariant. -/
theorem Inv.congr (h : Inv t rd addr file content s) (hwf : t.WellFormed)
    (hm : ∀ b, addr ≤ b → b < addr + t.packedSize → s'.mem b = s.mem b)
    (hfile : s'.entry.file = some file) (hle : s'.entry.readPos ≤ content.length)
    (hslices : s'.slices.flatten = content.take s'.entry.readPos) :
    Inv t rd addr file content s' := by
  obtain ⟨hin₁, hin₂⟩ := h.inside
  obtain ⟨hmagic, hfsize, l₁, l₂, hl, hoff⟩ := h.header
  have hload : ∀ off w, off + w ≤ 80 → s'.mem.load (file + off) w = s.mem.load (file + off) w :=
    fun off w hw => load_congr fun i hi => hm _ (by omega) (by omega)
  exact ⟨h.loaded.congr hwf hm, ⟨(hload 0 2 (by omega)).trans hmagic,
    (hload 70 4 (by omega)).trans hfsize, l₁, l₂, hl, (hload 2 4 (by omega)).trans hoff⟩,
    h.data, hfile, h.inside, hle, hslices⟩

/-- **The step lemma.** -/
theorem Inv.step (h : Inv t rd addr file content s) (hwf : t.WellFormed)
    (hsize : t.packedSize < 2 ^ 32) (hr : Allowed addr t.packedSize s r)
    (hs : s.step rd r = some s') : Inv t rd addr file content s' := by
  obtain ⟨mem, hread, hslice, hm⟩ := h.read hwf hsize hr
  rw [Reading.step, hread] at hs
  obtain rfl := Option.some.inj hs
  refine h.congr hwf hm h.file_eq ?_ ?_
  · have hle := h.le
    change s.entry.readPos + min (r.size * r.nmemb) (content.length - s.entry.readPos) ≤ _
    omega
  · change (s.slices ++ [_]).flatten = content.take (s.entry.readPos + _)
    rw [List.flatten_append, h.slices, List.flatten_singleton, hslice, List.take_add]
    congr 1
    rw [← List.length_drop, ← List.take_take, List.take_length]

/-- What the invariant says of reads. -/
theorem Inv.spec (h : Inv t rd addr file content s) (hwf : t.WellFormed)
    (hsize : t.packedSize < 2 ^ 32) : Slices rd addr t.packedSize content s where
  le := h.le
  slices := h.slices
  read := fun r hr => by
    obtain ⟨mem, hread, hslice, -⟩ := h.read hwf hsize hr
    exact ⟨mem, hread, hslice⟩

/-- **The run lemma.** -/
theorem inv_of_reach (hwf : t.WellFormed) (hsize : t.packedSize < 2 ^ 32) {init : Reading → Prop}
    (hinit : ∀ s, init s → Inv t rd addr file content s)
    (hs : Reach (fun s r s' => step rd s r = some s') (Allowed addr t.packedSize) init s) :
    Inv t rd addr file content s :=
  Reach.invariant hinit (fun _ _ _ h hr hstep => h.step hwf hsize hr hstep) hs

end Reading

/-- **What is packed is what is read.** The script writes an image of a tree, and
wherever it is loaded, every file of the tree can be opened under its path, and
whatever reads follow, they return its content in successive slices. -/
theorem round_trip (hwf : t.WellFormed) (hsize : t.packedSize < 2 ^ 32) :
    ∃ image, writeRamdisk t = some image ∧ image.length = t.packedSize ∧
      ∀ m addr, m.At addr image → addr + image.length ≤ 2 ^ 64 →
      ∀ names content, t.find names = some (.file content) →
      ∀ flags, ReadFlags flags → ∀ part n, t.blocks ≤ n →
      ∃ file, ramdiskOpen m (initRamdisk m addr) (absPath names) flags part n =
          some (some ⟨some file, 0, 1⟩, 0) ∧
        ∀ s, Reach (fun s r s' => Reading.step (initRamdisk m addr) s r = some s')
            (Reading.Allowed addr image.length) (· = ⟨m, ⟨some file, 0, 1⟩, []⟩) s →
          Reading.Slices (initRamdisk m addr) addr image.length content s := by
  refine ⟨t.image, writeRamdisk_eq hwf hsize, Listing.length_image hwf, ?_⟩
  rw [Listing.length_image hwf]
  intro m addr hat hle names content hfind flags hflags part n hn
  have hl : Loaded t m addr := ⟨hat, hle⟩
  obtain ⟨file, hopen, hinside, hheader⟩ := ramdiskOpen_spec hl hwf hsize hfind hflags n hn part
  refine ⟨file, hopen, fun s hs => ?_⟩
  have hinv : Reading.Inv t (initRamdisk m addr) addr file content s := by
    refine Reading.inv_of_reach hwf hsize (fun s₀ hs₀ => ?_) hs
    subst hs₀
    exact ⟨hl, hheader, (hl.parts hwf hsize).1, rfl, hinside, Nat.zero_le _, rfl⟩
  exact hinv.spec hwf hsize

/-- A tree with a file in a directory and another behind the directory. -/
def exampleTree : Listing :=
  .dir [98, 105, 110] (.file [115, 104] [1, 2, 3] .nil) (.file [109, 111, 116, 100] [4, 5] .nil)

/-- The first two bytes of `/bin/sh`. -/
theorem round_trip_exampleTree :
    ∃ image mem file mem', writeRamdisk exampleTree = some image ∧
      ramdiskOpen mem (initRamdisk mem 4096) (absPath [[98, 105, 110], [115, 104]]) 0 (fun _ => 0)
        3 = some (some ⟨some file, 0, 1⟩, 0) ∧
      ramdiskRead mem (initRamdisk mem 4096) 64 1 2 ⟨some file, 0, 1⟩ =
        some (2, ⟨some file, 2, 1⟩, mem') ∧ mem'.read 64 2 = [1, 2] := by
  obtain ⟨image, hwrite, hlen, hread⟩ :=
    round_trip (t := exampleTree) (by decide +kernel) (by decide)
  obtain ⟨file, hopen, hslices⟩ := hread (Mem.write (fun _ => 0) 4096 image) 4096
    (read_write_self _ _ _) (by rw [hlen]; decide) [[98, 105, 110], [115, 104]] [1, 2, 3]
    (by decide) 0 ⟨by decide, by decide, by decide⟩ (fun _ => 0) 3 (by decide)
  have hs := hslices _ (.init rfl)
  have hlt : 0 + 1 * 2 < 2 ^ 64 := by decide
  obtain ⟨mem', hr, hbytes⟩ := hs.read ⟨64, 1, 2⟩ ⟨by decide, hlt, Or.inl (by decide)⟩
  exact ⟨image, _, file, mem', hwrite, hopen, hr, hbytes⟩

end Xana
