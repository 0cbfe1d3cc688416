import Xana.Ramdisk.Image

/-!
# What a ramdisk image looks like

The image that `ramdisk.py` writes for a tree is a head of 16 bytes, the headers
of the tree in preorder, and the contents of its files in the same order
(`Xana.writeRamdisk_eq`).

The script works with paths, and asks the file system and a dictionary about
each. What carries the proof is that paths name what they should: below a
directory whose names are unique, a list of names found in what is left of the
listing is found in the directory itself, and so from the root, and no two paths
of directories are the same string (`Xana.dirPath_injective`).
-/

namespace Xana

variable {t sub rest root : Listing} {name n path : List UInt8} {q q' pre : List (List UInt8)}
  {x : Found} {o : Order} {pos : ℕ}

/-! ### Paths -/

/-- The path of a directory: its names, each with a slash behind. -/
def dirPath (names : List (List UInt8)) : List UInt8 := names.flatMap (· ++ [slash])

theorem dirPath_concat (pre : List (List UInt8)) (name : List UInt8) :
    dirPath (pre ++ [name]) = dirPath pre ++ name ++ [slash] := by
  simp [dirPath]

theorem dirPath_cons (name : List UInt8) (q : List (List UInt8)) :
    dirPath (name :: q) = name ++ [slash] ++ dirPath q := rfl

/-- A relative path has the components of the absolute one. -/
theorem components_append_of_name (hn : IsName n) (l : List UInt8) :
    components (n ++ l) = componentsFrom (slash :: (n ++ l)) := by
  obtain ⟨hne, hslash⟩ := hn
  obtain ⟨c, n, rfl⟩ := List.exists_cons_of_ne_nil hne
  have hc : c ≠ slash := fun hc => hslash (hc ▸ List.mem_cons_self ..)
  rw [List.cons_append, components, if_neg hc, componentsFrom, if_pos (by simp [hc]),
    componentsFrom, if_neg fun hcon => hc hcon.1]

theorem componentsFrom_dirPath (hq : ∀ n ∈ q, IsName n) :
    componentsFrom (slash :: dirPath q) = q := by
  induction q with
  | nil => simp [dirPath, componentsFrom]
  | cons n q ih =>
    have hsplit : slash :: dirPath (n :: q) = slash :: (n ++ (slash :: dirPath q)) := by
      simp [dirPath]
    rw [hsplit, componentsFrom_slash_append (hq n (List.mem_cons_self ..)) (Or.inr rfl),
      ih fun m hm => hq m (List.mem_cons_of_mem n hm)]

theorem componentsFrom_dirPath_append (hq : ∀ n ∈ q, IsName n) (hn : IsName n) :
    componentsFrom (slash :: (dirPath q ++ n)) = q ++ [n] := by
  induction q with
  | nil =>
    have hlast : componentsFrom (slash :: (n ++ [])) = n :: componentsFrom [] :=
      componentsFrom_slash_append hn (Or.inl rfl)
    rw [List.append_nil] at hlast
    exact hlast
  | cons m q ih =>
    have hsplit :
        slash :: (dirPath (m :: q) ++ n) = slash :: (m ++ (slash :: (dirPath q ++ n))) := by
      simp [dirPath]
    rw [hsplit, componentsFrom_slash_append (hq m (List.mem_cons_self ..)) (Or.inr rfl),
      ih fun k hk => hq k (List.mem_cons_of_mem m hk), List.cons_append]

/-- The components of a directory's path. -/
theorem components_dirPath (hq : ∀ n ∈ q, IsName n) : components (dirPath q) = q := by
  cases q with
  | nil => rfl
  | cons n q =>
    rw [dirPath_cons, List.append_assoc, components_append_of_name (hq n (List.mem_cons_self ..)),
      ← List.append_assoc, ← dirPath_cons, componentsFrom_dirPath hq]

/-- The components of a file's path. -/
theorem components_dirPath_append (hq : ∀ n ∈ q, IsName n) (hn : IsName n) :
    components (dirPath q ++ n) = q ++ [n] := by
  cases q with
  | nil =>
    have hfrom := componentsFrom_dirPath_append (q := []) (by simp) hn
    rw [← List.append_nil n, dirPath, List.flatMap_nil, List.nil_append,
      components_append_of_name hn, List.append_nil]
    exact hfrom
  | cons m q =>
    rw [dirPath_cons, List.append_assoc, List.append_assoc,
      components_append_of_name (hq m (List.mem_cons_self ..)), ← List.append_assoc,
      ← List.append_assoc, ← dirPath_cons, componentsFrom_dirPath_append hq hn]

/-- **No two directories have one path.** -/
theorem dirPath_injective (hq : ∀ n ∈ q, IsName n) (hq' : ∀ n ∈ q', IsName n)
    (h : dirPath q = dirPath q') : q = q' := by
  rw [← components_dirPath hq, h, components_dirPath hq']

/-- A path ends with the name it leads to. -/
theorem lastPart_dirPath_append (pre : List (List UInt8)) (hn : IsName n) :
    lastPart (dirPath pre ++ n) = n := by
  have hrest : (dirPath pre).reverse = [] ∨ (dirPath pre).reverse.head? = some slash := by
    rcases pre.eq_nil_or_concat' with rfl | ⟨l, m, rfl⟩
    · exact Or.inl rfl
    · right
      rw [dirPath_concat]
      simp
  rw [lastPart, List.reverse_append,
    takeWhile_append_of_name (by simpa using hn.2) hrest, List.reverse_reverse]

theorem getLast?_append_name (l : List UInt8) (hn : IsName n) :
    (l ++ n).getLast? ≠ some slash := by
  obtain ⟨hne, hslash⟩ := hn
  rw [List.getLast?_append_of_ne_nil l hne]
  exact fun hc => hslash (List.mem_of_getLast? hc)

/-! ### Finding -/

namespace Listing

theorem mem_names_of_find (h : t.find (n :: q) = some x) : n ∈ t.names := by
  induction t with
  | nil => simp at h
  | file name content rest ih =>
    rw [find_file] at h
    by_cases hn : n = name
    · exact hn ▸ List.mem_cons_self ..
    · rw [if_neg hn] at h
      exact List.mem_cons_of_mem _ (ih h)
  | dir name sub rest _ ih =>
    rw [find_dir] at h
    by_cases hn : n = name
    · exact hn ▸ List.mem_cons_self ..
    · rw [if_neg hn] at h
      exact List.mem_cons_of_mem _ (ih h)

theorem exists_cons_of_find (h : t.find q = some x) : ∃ n q', q = n :: q' := by
  cases q with
  | nil => cases t <;> simp at h
  | cons n q' => exact ⟨n, q', rfl⟩

/-- What is found behind a file is found with it in front. -/
theorem find_file_of_rest {content : List UInt8} (hn : name ∉ rest.names)
    (h : rest.find q = some x) : (file name content rest).find q = some x := by
  obtain ⟨n, q', rfl⟩ := exists_cons_of_find h
  have hne : n ≠ name := ne_of_mem_of_not_mem (mem_names_of_find h) hn
  rw [find_file, if_neg hne, h]

/-- What is found behind a directory is found with it in front. -/
theorem find_dir_of_rest (hn : name ∉ rest.names) (h : rest.find q = some x) :
    (dir name sub rest).find q = some x := by
  obtain ⟨n, q', rfl⟩ := exists_cons_of_find h
  have hne : n ≠ name := ne_of_mem_of_not_mem (mem_names_of_find h) hn
  rw [find_dir, if_neg hne, h]

/-- What is found in a directory is found behind its name. -/
theorem find_dir_of_sub (h : sub.find q = some x) :
    (dir name sub rest).find (name :: q) = some x := by
  obtain ⟨n, q', rfl⟩ := exists_cons_of_find h
  rw [find_dir, if_pos rfl, if_neg (List.cons_ne_nil n q'), h]

theorem find_file_self {content : List UInt8} :
    (file name content rest).find [name] = some (.file content) := by
  rw [find_file, if_pos rfl, if_pos rfl]

theorem find_dir_self : (dir name sub rest).find [name] = some (.dir sub) := by
  rw [find_dir, if_pos rfl, if_pos rfl]

/-- The names of what is found are names. -/
theorem isFileName_of_find (hwf : t.WellFormed) (h : t.find q = some x) :
    ∀ n ∈ q, IsFileName n := by
  induction t generalizing q with
  | nil => simp at h
  | file name content rest ih =>
    obtain ⟨hname, -, hrest⟩ := hwf
    obtain ⟨n, q', rfl⟩ := exists_cons_of_find h
    rw [find_file] at h
    split_ifs at h with hn hq
    · subst hn hq
      simpa using hname
    · exact ih hrest h
  | dir name sub rest ihsub ihrest =>
    obtain ⟨hname, -, hsub, hrest⟩ := hwf
    obtain ⟨n, q', rfl⟩ := exists_cons_of_find h
    rw [find_dir] at h
    split_ifs at h with hn hq
    · subst hn hq
      simpa using hname
    · intro m hm
      rcases List.mem_cons.mp hm with rfl | hm
      · exact hn ▸ hname
      · exact ihsub hsub h m hm
    · exact ihrest hrest h

theorem length_le_blocks (t : Listing) : t.length ≤ t.blocks := by
  induction t with
  | nil => exact le_rfl
  | file name content rest ih => exact Nat.succ_le_succ ih
  | dir name sub rest _ ih =>
    change rest.length + 1 ≤ sub.blocks + rest.blocks + 1
    omega

theorem files_le_blocks (t : Listing) : t.files ≤ t.blocks := by
  induction t with
  | nil => exact le_rfl
  | file name content rest ih => exact Nat.succ_le_succ ih
  | dir name sub rest ihsub ihrest =>
    change sub.files + rest.files ≤ sub.blocks + rest.blocks + 1
    omega

end Listing

/-! ### `order_recursive` -/

/-- The paths of a tree, in preorder. -/
def Listing.paths : Listing → List UInt8 → List (List UInt8)
  | .nil, _ => []
  | .file name _ rest, path => (path ++ name) :: rest.paths path
  | .dir name sub rest, path =>
      (path ++ name ++ [slash]) :: (sub.paths (path ++ name ++ [slash]) ++ rest.paths path)

section Fields

variable (o : Order) (path : List UInt8) (k : ℕ)

@[simp] theorem setHeaderSz_order : (o.setHeaderSz path k).order = o.order := rfl

@[simp] theorem setHeaderSz_numFiles : (o.setHeaderSz path k).numFiles = o.numFiles := rfl

@[simp] theorem setHeaderSz_headersNum : (o.setHeaderSz path k).headersNum = o.headersNum := rfl

theorem setHeaderSz_headerSz : (o.setHeaderSz path k).headerSz =
    Function.update o.headerSz path (some (o.headersNum - k)) := rfl

@[simp] theorem addFile_order : (o.addFile path).order = o.order ++ [path] := rfl

@[simp] theorem addFile_numFiles : (o.addFile path).numFiles = o.numFiles + 1 := rfl

@[simp] theorem addFile_headersNum : (o.addFile path).headersNum = o.headersNum + 1 := rfl

@[simp] theorem addDir_order : (o.addDir path).order = o.order ++ [path] := rfl

@[simp] theorem addDir_numFiles : (o.addDir path).numFiles = o.numFiles := rfl

@[simp] theorem addDir_headersNum : (o.addDir path).headersNum = o.headersNum + 1 := rfl

end Fields

theorem orderLoop_order (t : Listing) (path : List UInt8) (o : Order) :
    (orderLoop t path o).order = o.order ++ t.paths path := by
  induction t generalizing path o with
  | nil => exact (List.append_nil _).symm
  | file name content rest ih =>
    rw [orderLoop, ih, addFile_order, Listing.paths, List.append_assoc, List.singleton_append]
  | dir name sub rest ihsub ihrest =>
    rw [orderLoop, ihrest, setHeaderSz_order, ihsub, addDir_order, Listing.paths]
    simp

theorem orderLoop_numFiles (t : Listing) (path : List UInt8) (o : Order) :
    (orderLoop t path o).numFiles = o.numFiles + t.files := by
  induction t generalizing path o with
  | nil => rfl
  | file name content rest ih =>
    rw [orderLoop, ih, addFile_numFiles, Listing.files]
    omega
  | dir name sub rest ihsub ihrest =>
    rw [orderLoop, ihrest, setHeaderSz_numFiles, ihsub, addDir_numFiles, Listing.files, add_assoc]

theorem orderLoop_headersNum (t : Listing) (path : List UInt8) (o : Order) :
    (orderLoop t path o).headersNum = o.headersNum + t.blocks := by
  induction t generalizing path o with
  | nil => rfl
  | file name content rest ih =>
    rw [orderLoop, ih, addFile_headersNum, Listing.blocks]
    omega
  | dir name sub rest ihsub ihrest =>
    rw [orderLoop, ihrest, setHeaderSz_headersNum, ihsub, addDir_headersNum, Listing.blocks]
    omega

/-- The dictionary keeps what it says about other paths. -/
theorem orderLoop_headerSz_of_ne (hwf : t.WellFormed) {k : List UInt8}
    (hk : ∀ q sub, t.find q = some (.dir sub) → k ≠ path ++ dirPath q) :
    (orderLoop t path o).headerSz k = o.headerSz k := by
  induction t generalizing path o with
  | nil => rfl
  | file name content rest ih =>
    obtain ⟨-, hn, hrest⟩ := hwf
    exact ih hrest fun q sub hq => hk q sub (Listing.find_file_of_rest hn hq)
  | dir name sub rest ihsub ihrest =>
    obtain ⟨-, hn, hsub, hrest⟩ := hwf
    have hself : k ≠ path ++ name ++ [slash] := by
      have hne := hk [name] sub Listing.find_dir_self
      simpa [dirPath] using hne
    rw [orderLoop, ihrest hrest fun q s hq => hk q s (Listing.find_dir_of_rest hn hq),
      setHeaderSz_headerSz, Function.update_of_ne hself, ihsub hsub]
    · rfl
    · intro q s hq
      have hne := hk (name :: q) s (Listing.find_dir_of_sub hq)
      rwa [dirPath_cons, ← List.append_assoc, ← List.append_assoc] at hne

/-- **The dictionary has the number of headers below each directory.** -/
theorem orderLoop_headerSz (hwf : t.WellFormed) (h : t.find q = some (.dir sub)) :
    (orderLoop t path o).headerSz (path ++ dirPath q) = some sub.blocks := by
  induction t generalizing path o q with
  | nil => simp at h
  | file name content rest ih =>
    obtain ⟨-, -, hrest⟩ := hwf
    obtain ⟨n, q', rfl⟩ := Listing.exists_cons_of_find h
    rw [Listing.find_file] at h
    by_cases hn : n = name
    · rw [if_pos hn] at h
      split_ifs at h
      simp at h
    · rw [if_neg hn] at h
      exact ih hrest h
  | dir name sub' rest ihsub ihrest =>
    have hwf' := hwf
    obtain ⟨hname, hn, hsub, hrest⟩ := hwf
    -- what comes behind has other paths
    have hlater : ∀ q₁, (Listing.dir name sub' rest).find q₁ = some (.dir sub) → name ∈ q₁.head? →
        ∀ q₂ s, rest.find q₂ = some (.dir s) → path ++ dirPath q₁ ≠ path ++ dirPath q₂ := by
      intro q₁ hq₁ hhead q₂ s hq₂ hc
      have hnames₁ := Listing.isFileName_of_find hwf' hq₁
      have hnames₂ := Listing.isFileName_of_find hrest hq₂
      have heq := dirPath_injective (fun n hn => (hnames₁ n hn).isName)
        (fun n hn => (hnames₂ n hn).isName) (List.append_cancel_left hc)
      subst heq
      obtain ⟨n, q', rfl⟩ := Listing.exists_cons_of_find hq₂
      obtain rfl : n = name := by simpa using hhead
      exact hn (Listing.mem_names_of_find hq₂)
    obtain ⟨n, q', rfl⟩ := Listing.exists_cons_of_find h
    have h' := h
    rw [Listing.find_dir] at h
    by_cases hnn : n = name
    · subst hnn
      rw [orderLoop, orderLoop_headerSz_of_ne hrest (hlater _ h' (by simp)), setHeaderSz_headerSz]
      have hpath : path ++ dirPath (n :: q') = path ++ n ++ [slash] ++ dirPath q' := by
        rw [dirPath_cons, ← List.append_assoc, ← List.append_assoc]
      rw [hpath]
      rw [if_pos rfl] at h
      by_cases hq : q' = []
      · subst hq
        obtain rfl : sub' = sub := by simpa using h
        have hnum : (orderLoop sub' (path ++ n ++ [slash])
            (o.addDir (path ++ n ++ [slash]))).headersNum
            - (o.addDir (path ++ n ++ [slash])).headersNum = sub'.blocks := by
          rw [orderLoop_headersNum, Nat.add_sub_cancel_left]
        rw [dirPath, List.flatMap_nil, List.append_nil, Function.update_self, hnum]
      · rw [if_neg hq] at h
        have hne : path ++ n ++ [slash] ++ dirPath q' ≠ path ++ n ++ [slash] := fun hc => by
          have hnames := Listing.isFileName_of_find hsub h
          have hnil : dirPath q' = dirPath [] :=
            List.append_cancel_left (hc.trans (by simp [dirPath]))
          exact hq (dirPath_injective (fun n hn => (hnames n hn).isName) (by simp) hnil)
        rw [Function.update_of_ne hne]
        exact ihsub hsub h
    · rw [if_neg hnn] at h
      exact ihrest hrest h

/-! ### The headers and the contents -/

theorem pack_of_lt {w k : ℕ} (h : k < 256 ^ w) : pack w k = some (leBytes w k) := if_pos h

/-- The name field of a header. -/
theorem packName_append (pre : List (List UInt8)) (hn : IsFileName n) :
    packName (dirPath pre ++ n) = some (n ++ List.replicate (64 - n.length) 0) := by
  have hlen : ¬63 < n.length := Nat.not_lt.mpr hn.length_le
  rw [packName, if_neg (getLast?_append_name _ hn.isName), lastPart_dirPath_append pre hn.isName]
  simp only [hlen, if_false, if_pos hn.ascii]

theorem packName_concat (pre : List (List UInt8)) (hn : IsFileName n) :
    packName (dirPath (pre ++ [n])) = some (n ++ List.replicate (64 - n.length) 0) := by
  have hlen : ¬63 < n.length := Nat.not_lt.mpr hn.length_le
  rw [packName, dirPath_concat, if_pos (List.getLast?_concat ..), List.dropLast_concat,
    lastPart_dirPath_append pre hn.isName]
  simp only [hlen, if_false, if_pos hn.ascii]

/-- What is known when the loops of `main` come to the part `t` of the directory
`pre` of the tree. -/
structure Placed (root : Listing) (o : Order) (pre : List (List UInt8)) (t : Listing) : Prop where
  wellFormed : t.WellFormed
  isName : ∀ n ∈ pre, IsName n
  /-- What is found in the part is found in the tree. -/
  find : ∀ q x, t.find q = some x → root.find (pre ++ q) = some x
  /-- The dictionary is right about its directories. -/
  headerSz : ∀ q sub, t.find q = some (.dir sub) →
    o.headerSz (dirPath (pre ++ q)) = some sub.blocks

namespace Placed

theorem file_rest {content : List UInt8} (h : Placed root o pre (.file name content rest)) :
    Placed root o pre rest where
  wellFormed := h.wellFormed.2.2
  isName := h.isName
  find := fun q x hq => h.find q x (Listing.find_file_of_rest h.wellFormed.2.1 hq)
  headerSz := fun q sub hq => h.headerSz q sub (Listing.find_file_of_rest h.wellFormed.2.1 hq)

theorem dir_rest (h : Placed root o pre (.dir name sub rest)) : Placed root o pre rest where
  wellFormed := h.wellFormed.2.2.2
  isName := h.isName
  find := fun q x hq => h.find q x (Listing.find_dir_of_rest h.wellFormed.2.1 hq)
  headerSz := fun q s hq => h.headerSz q s (Listing.find_dir_of_rest h.wellFormed.2.1 hq)

theorem dir_sub (h : Placed root o pre (.dir name sub rest)) :
    Placed root o (pre ++ [name]) sub where
  wellFormed := h.wellFormed.2.2.1
  isName := fun n hn => by
    rcases List.mem_append.mp hn with hn | hn
    · exact h.isName n hn
    · rw [List.mem_singleton.mp hn]
      exact h.wellFormed.1.isName
  find := fun q x hq => by
    rw [List.append_assoc, List.singleton_append]
    exact h.find _ x (Listing.find_dir_of_sub hq)
  headerSz := fun q s hq => by
    rw [List.append_assoc, List.singleton_append]
    exact h.headerSz _ s (Listing.find_dir_of_sub hq)

/-- The header of a file. -/
theorem writeHeader_file {content : List UInt8} (h : Placed root o pre (.file name content rest))
    (hpos : pos + content.length < 2 ^ 32) :
    writeHeader root o (dirPath pre ++ name) pos =
      some (Header.bytes ⟨fileEntry, pos, name, content.length⟩, pos + content.length) := by
  have hname := h.wellFormed.1
  have hfind := h.find [name] _ Listing.find_file_self
  rw [writeHeader, if_neg (getLast?_append_name _ hname.isName),
    components_dirPath_append h.isName hname.isName, packName_append pre hname,
    pack_of_lt (w := 2) (by decide), pack_of_lt (w := 4) (k := pos) (by omega), hfind]
  simp only [Option.bind_eq_bind, Option.bind_some, Option.pure_def,
    pack_of_lt (w := 4) (k := content.length) (by omega)]
  rfl

/-- The header of a directory. -/
theorem writeHeader_dir (h : Placed root o pre (.dir name sub rest))
    (hblocks : sub.blocks < 2 ^ 32) :
    writeHeader root o (dirPath (pre ++ [name])) pos =
      some (Header.bytes ⟨dirEntry, sub.length, name, sub.blocks⟩, pos) := by
  have hname := h.wellFormed.1
  have hfind := h.find [name] _ Listing.find_dir_self
  have hsize := h.headerSz [name] _ Listing.find_dir_self
  have hlen := sub.length_le_blocks
  have hlast : (dirPath (pre ++ [name])).getLast? = some slash := by
    rw [dirPath_concat, List.getLast?_concat]
  rw [writeHeader, if_pos hlast, components_dirPath h.dir_sub.isName, packName_concat pre hname,
    pack_of_lt (w := 2) (by decide), hfind, hsize]
  simp only [Option.bind_eq_bind, Option.bind_some, Option.pure_def,
    pack_of_lt (w := 4) (k := sub.length) (by omega),
    pack_of_lt (w := 4) (k := sub.blocks) (by omega)]
  rfl

end Placed

/-- **The first loop writes the headers** of what it comes to. -/
theorem writeHeaders_append (h : Placed root o pre t) (hpos : pos + t.data.length < 2 ^ 32)
    (hblocks : t.blocks < 2 ^ 32) (ps : List (List UInt8)) :
    writeHeaders root o (t.paths (dirPath pre) ++ ps) pos =
      (writeHeaders root o ps (pos + t.data.length)).map fun r =>
        ((t.headers pos).flatMap Header.bytes ++ r.1, r.2) := by
  induction t generalizing pre pos ps with
  | nil =>
    change writeHeaders root o ps pos = (writeHeaders root o ps pos).map fun r => ([] ++ r.1, r.2)
    cases writeHeaders root o ps pos <;> rfl
  | file name content rest ih =>
    have hlen : (Listing.file name content rest).data.length =
        content.length + rest.data.length := List.length_append
    have hb : (Listing.file name content rest).blocks = rest.blocks + 1 := rfl
    rw [hlen] at hpos
    rw [Listing.paths, List.cons_append, writeHeaders, h.writeHeader_file (by omega), hlen]
    simp only [Option.bind_eq_bind, Option.bind_some, Option.pure_def]
    rw [ih h.file_rest (by omega) (by omega), ← add_assoc]
    cases writeHeaders root o ps (pos + content.length + rest.data.length) with
    | none => rfl
    | some r => simp [Listing.headers]
  | dir name sub rest ihsub ihrest =>
    have hlen : (Listing.dir name sub rest).data.length =
        sub.data.length + rest.data.length := List.length_append
    have hb : (Listing.dir name sub rest).blocks = sub.blocks + rest.blocks + 1 := rfl
    rw [hlen] at hpos
    rw [Listing.paths, ← dirPath_concat, List.cons_append, writeHeaders,
      h.writeHeader_dir (by omega), hlen, List.append_assoc]
    simp only [Option.bind_eq_bind, Option.bind_some, Option.pure_def]
    rw [ihsub h.dir_sub (by omega) (by omega), ihrest h.dir_rest (by omega) (by omega), ← add_assoc]
    cases writeHeaders root o ps (pos + sub.data.length + rest.data.length) with
    | none => rfl
    | some r => simp [Listing.headers]

/-- **The second loop writes the contents.** -/
theorem writeFiles_append (h : Placed root o pre t) (ps : List (List UInt8)) :
    writeFiles root (t.paths (dirPath pre) ++ ps) =
      (writeFiles root ps).map fun r => t.data ++ r := by
  induction t generalizing pre ps with
  | nil =>
    change writeFiles root ps = _
    cases writeFiles root ps <;> rfl
  | file name content rest ih =>
    have hname := h.wellFormed.1
    have hfind := h.find [name] _ Listing.find_file_self
    rw [Listing.paths, List.cons_append, writeFiles,
      if_neg (getLast?_append_name _ hname.isName),
      components_dirPath_append h.isName hname.isName, hfind, ih h.file_rest]
    cases writeFiles root ps with
    | none => rfl
    | some r => simp [Listing.data]
  | dir name sub rest ihsub ihrest =>
    have hlast : (dirPath (pre ++ [name])).getLast? = some slash := by
      rw [dirPath_concat, List.getLast?_concat]
    rw [Listing.paths, ← dirPath_concat, List.cons_append, writeFiles, if_pos hlast,
      List.append_assoc, ihsub h.dir_sub, ihrest h.dir_rest]
    cases writeFiles root ps with
    | none => rfl
    | some r => simp [Listing.data]

/-! ### The image -/

theorem Header.length_bytes {h : Header} (hn : h.name.length ≤ 64) : h.bytes.length = 80 := by
  simp only [bytes, List.length_append, length_leBytes, List.length_replicate]
  omega

namespace Listing

theorem length_headers (t : Listing) (pos : ℕ) : (t.headers pos).length = t.blocks := by
  induction t generalizing pos with
  | nil => rfl
  | file name content rest ih => rw [headers, List.length_cons, ih, blocks]
  | dir name sub rest ihsub ihrest =>
    rw [headers, List.length_cons, List.length_append, ihsub, ihrest, blocks]

/-- The headers have the names of the tree. -/
theorem isFileName_of_mem_headers (hwf : t.WellFormed) {h : Header} (hh : h ∈ t.headers pos) :
    IsFileName h.name := by
  induction t generalizing pos with
  | nil => simp [headers] at hh
  | file name content rest ih =>
    obtain ⟨hname, -, hrest⟩ := hwf
    rcases List.mem_cons.mp hh with rfl | hh
    · exact hname
    · exact ih hrest hh
  | dir name sub rest ihsub ihrest =>
    obtain ⟨hname, -, hsub, hrest⟩ := hwf
    rcases List.mem_cons.mp hh with rfl | hh
    · exact hname
    · rcases List.mem_append.mp hh with hh | hh
      · exact ihsub hsub hh
      · exact ihrest hrest hh

/-- The bytes of all headers. -/
def headerBytes (t : Listing) : List UInt8 := (t.headers 0).flatMap Header.bytes

theorem length_flatMap_bytes {hs : List Header} (h : ∀ x ∈ hs, IsFileName x.name) :
    (hs.flatMap Header.bytes).length = 80 * hs.length := by
  induction hs with
  | nil => rfl
  | cons x hs ih =>
    have hx : x.name.length ≤ 63 := (h x (List.mem_cons_self ..)).length_le
    rw [List.flatMap_cons, List.length_append, Header.length_bytes (by omega),
      ih fun y hy => h y (List.mem_cons_of_mem x hy), List.length_cons]
    omega

theorem length_headerBytes (hwf : t.WellFormed) : t.headerBytes.length = 80 * t.blocks := by
  rw [headerBytes, length_flatMap_bytes fun x hx => isFileName_of_mem_headers hwf hx,
    length_headers]

/-- **The image of a tree.** -/
def image (t : Listing) : List UInt8 :=
  leBytes 4 t.packedSize ++ leBytes 4 t.files ++ leBytes 4 (t.blocks * 80 + 16) ++
    leBytes 4 t.length ++ t.headerBytes ++ t.data

theorem length_image (hwf : t.WellFormed) : t.image.length = t.packedSize := by
  simp only [image, List.length_append, length_leBytes, length_headerBytes hwf, packedSize]

end Listing

/-- **What `ramdisk.py` writes** for a tree whose names are unique and fit, and
whose size fits in 32 bits. -/
theorem writeRamdisk_eq (hwf : t.WellFormed) (hsize : t.packedSize < 2 ^ 32) :
    writeRamdisk t = some t.image := by
  have hfiles := t.files_le_blocks
  have hlength := t.length_le_blocks
  have hpacked : t.packedSize = 16 + 80 * t.blocks + t.data.length := rfl
  set o := orderRecursive t [] ⟨[], 0, 0, fun _ => none⟩ with ho
  have horder : o.order = t.paths [] := by simp [ho, orderRecursive, orderLoop_order]
  have hnum : o.numFiles = t.files := by simp [ho, orderRecursive, orderLoop_numFiles]
  have hheaders : o.headersNum = t.blocks := by simp [ho, orderRecursive, orderLoop_headersNum]
  have hplaced : Placed t o [] t := by
    refine ⟨hwf, by simp, fun q x hq => hq, fun q sub hq => ?_⟩
    have hne : dirPath q ≠ [] := by
      obtain ⟨n, q', rfl⟩ := Listing.exists_cons_of_find hq
      simp [dirPath]
    rw [ho, orderRecursive, setHeaderSz_headerSz, List.nil_append, Function.update_of_ne hne]
    exact orderLoop_headerSz hwf hq
  have h₁ : writeHeaders t o (t.paths [] ++ []) 0 =
      (writeHeaders t o [] (0 + t.data.length)).map fun r =>
        ((t.headers 0).flatMap Header.bytes ++ r.1, r.2) :=
    writeHeaders_append hplaced (by omega) (by omega) []
  have h₂ := writeFiles_append hplaced []
  have hlen := t.length_headerBytes hwf
  rw [List.append_nil, Nat.zero_add] at h₁
  rw [List.append_nil] at h₂
  have htotal : 16 + t.headerBytes.length + t.data.length = t.packedSize := by rw [hlen, hpacked]
  simp only [writeRamdisk, ← ho, hnum, hheaders, horder]
  rw [pack_of_lt (w := 4) (k := t.files) (by omega),
    pack_of_lt (w := 4) (k := t.blocks * 80 + 16) (by omega),
    pack_of_lt (w := 4) (k := t.length) (by omega)]
  have h₁' : writeHeaders t o (t.paths []) 0 = some (t.headerBytes, t.data.length) := by
    have hnil : (writeHeaders t o [] t.data.length) = some ([], t.data.length) := rfl
    rw [hnil, Option.map_some, List.append_nil] at h₁
    exact h₁
  have h₂' : writeFiles t (t.paths []) = some t.data := by
    have hnil : writeFiles t [] = some [] := rfl
    rw [hnil, Option.map_some, List.append_nil] at h₂
    exact h₂
  simp only [Option.bind_eq_bind, Option.bind_some, Option.pure_def, h₁', h₂', htotal,
    pack_of_lt (w := 4) (k := t.packedSize) (by omega)]
  rfl

end Xana
