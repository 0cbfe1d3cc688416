import Xana.Ramdisk.RoundTrip

/-!
# Paths that lead nowhere

`ramdisk_get_path_header` keeps a cursor in the flat list of headers and the index of a
component, but not where the directory ends that it has entered. So it does not come back
when the entries of a directory have run out: it goes on through what stands behind the
directory in the image, still looking for the same component
(`Listing.behind`). And it takes the header of a file whatever components are left.

The walk over a tree (`Listing.walk`) is what the loop computes (`headerLoop_walk`). It
finds whatever the path names (`Listing.walk_of_index`); a path that names nothing gives
`NULL` exactly if it does not stray (`Listing.Strays`): no part of it goes on below a file,
and what is left of it, from the first component that is missing in its directory on, names
nothing among the entries behind that directory either, and does not stray there.
-/

namespace Xana

open Mem

variable {t u sub rest : Listing} {name c content : List UInt8} {p q : List (List UInt8)}
variable {k j : ℕ}

namespace Listing

/-- Where the header of what a list of names leads to is, among the headers of the tree. -/
def index : Listing → List (List UInt8) → Option ℕ
  | nil, _ => none
  | _, [] => none
  | file name _ rest, n :: names =>
      if n = name then if names = [] then some 0 else none
      else (rest.index (n :: names)).map (· + 1)
  | dir name sub rest, n :: names =>
      if n = name then if names = [] then some 0 else (sub.index names).map (· + 1)
      else (rest.index (n :: names)).map (· + (sub.blocks + 1))

/-- The entries of two directories, one after the other. -/
def append : Listing → Listing → Listing
  | nil, u => u
  | file name content rest, u => file name content (rest.append u)
  | dir name sub rest, u => dir name sub (rest.append u)

/-- What stands behind a directory in the image. -/
def behind : Listing → List (List UInt8) → Listing
  | nil, _ => nil
  | _, [] => nil
  | file _ _ rest, n :: names => rest.behind (n :: names)
  | dir name sub rest, n :: names =>
      if n = name then (sub.behind names).append rest else rest.behind (n :: names)

/-- **The walk over the headers** from the `k`-th on, and what comes `back` when they have
run out. -/
def walk : Listing → (List (List UInt8) → Option ℕ) → ℕ → List (List UInt8) → Option ℕ
  | nil, back, _, q => back q
  | file name _ rest, back, k, q =>
      if q.head? = some name then some k else rest.walk back (k + 1) q
  | dir name sub rest, back, k, q =>
      if q.head? = some name then
        if q.tail = [] then some k
        else sub.walk (rest.walk back (k + (sub.blocks + 1))) (k + 1) q.tail
      else rest.walk back (k + (sub.blocks + 1)) q

/-- **A path strays**: it goes on below a file, or it goes on behind a directory in which
its next component is not, and there it names something, or strays. -/
inductive Strays : Listing → List (List UInt8) → Prop
  | file {t : Listing} {content : List UInt8} {p q : List (List UInt8)} :
      t.find p = some (.file content) → q ≠ [] → Strays t (p ++ q)
  | entry {t sub : Listing} {c : List UInt8} {p q : List (List UInt8)} {x : Found} :
      t.find p = some (.dir sub) → c ∉ sub.names → (t.behind p).find (c :: q) = some x →
        Strays t (p ++ c :: q)
  | further {t sub : Listing} {c : List UInt8} {p q : List (List UInt8)} :
      t.find p = some (.dir sub) → c ∉ sub.names → Strays (t.behind p) (c :: q) →
        Strays t (p ++ c :: q)

/-! ### Finding, and not finding -/

theorem index_file (name content : List UInt8) (rest : Listing) (n : List UInt8)
    (names : List (List UInt8)) : (file name content rest).index (n :: names) =
      if n = name then if names = [] then some 0 else none
      else (rest.index (n :: names)).map (· + 1) := rfl

theorem index_dir (name : List UInt8) (sub rest : Listing) (n : List UInt8)
    (names : List (List UInt8)) : (dir name sub rest).index (n :: names) =
      if n = name then if names = [] then some 0 else (sub.index names).map (· + 1)
      else (rest.index (n :: names)).map (· + (sub.blocks + 1)) := rfl

@[simp] theorem nil_index (q : List (List UInt8)) : nil.index q = none := rfl

@[simp] theorem index_nil (t : Listing) : t.index [] = none := by cases t <;> rfl

@[simp] theorem behind_nil (t : Listing) : t.behind [] = nil := by cases t <;> rfl

/-- What has a header is what is found. -/
theorem index_eq_none : t.index q = none ↔ t.find q = none := by
  induction t generalizing q with
  | nil => simp
  | file name content rest ih =>
    cases q with
    | nil => simp
    | cons n q =>
      rw [index_file, find_file]
      split_ifs
      · simp
      · simp
      · rw [Option.map_eq_none_iff, ih]
  | dir name sub rest ihsub ihrest =>
    cases q with
    | nil => simp
    | cons n q =>
      rw [index_dir, find_dir]
      split_ifs
      · simp
      · rw [Option.map_eq_none_iff, ihsub]
      · rw [Option.map_eq_none_iff, ihrest]

theorem find_of_notMem (hc : c ∉ t.names) : t.find (c :: q) = none := by
  by_contra h
  obtain ⟨x, hx⟩ := Option.ne_none_iff_exists'.mp h
  exact hc (mem_names_of_find hx)

/-- Below a file there is nothing. -/
theorem find_append_of_file (h : t.find p = some (.file content)) (hq : q ≠ []) :
    t.find (p ++ q) = none := by
  have hne : ∀ p : List (List UInt8), p ++ q ≠ [] := fun p =>
    List.append_ne_nil_of_right_ne_nil p hq
  induction t generalizing p with
  | nil => simp at h
  | file name d rest ih =>
    obtain ⟨n, p, rfl⟩ := exists_cons_of_find h
    rw [List.cons_append]
    by_cases hn : n = name
    · rw [find_file, if_pos hn, if_neg (hne p)]
    · rw [find_file, if_neg hn] at h ⊢
      exact ih h
  | dir name s rest ihsub ihrest =>
    obtain ⟨n, p, rfl⟩ := exists_cons_of_find h
    rw [List.cons_append]
    by_cases hn : n = name
    · rw [find_dir, if_pos hn, if_neg (hne p)]
      rw [find_dir, if_pos hn] at h
      split_ifs at h
      · simp at h
      · exact ihsub h
    · rw [find_dir, if_neg hn] at h ⊢
      exact ihrest h

/-- What is found below a directory is found in it. -/
theorem find_append_of_dir (h : t.find p = some (.dir sub)) (hq : q ≠ []) :
    t.find (p ++ q) = sub.find q := by
  have hne : ∀ p : List (List UInt8), p ++ q ≠ [] := fun p =>
    List.append_ne_nil_of_right_ne_nil p hq
  induction t generalizing p with
  | nil => simp at h
  | file name d rest ih =>
    obtain ⟨n, p, rfl⟩ := exists_cons_of_find h
    rw [List.cons_append]
    by_cases hn : n = name
    · rw [find_file, if_pos hn] at h
      split_ifs at h
      simp at h
    · rw [find_file, if_neg hn] at h ⊢
      exact ih h
  | dir name s rest ihsub ihrest =>
    obtain ⟨n, p, rfl⟩ := exists_cons_of_find h
    rw [List.cons_append]
    by_cases hn : n = name
    · rw [find_dir, if_pos hn, if_neg (hne p)]
      rw [find_dir, if_pos hn] at h
      split_ifs at h with hp
      · obtain rfl : s = sub := by simpa using h
        rw [hp, List.nil_append]
      · exact ihsub h
    · rw [find_dir, if_neg hn] at h ⊢
      exact ihrest h

theorem find_append_of_notMem (h : t.find p = some (.dir sub)) (hc : c ∉ sub.names) :
    t.find (p ++ c :: q) = none := by
  rw [find_append_of_dir h (List.cons_ne_nil c q), find_of_notMem hc]

theorem Strays.find_eq_none (h : Strays t q) : t.find q = none := by
  cases h with
  | file hp hq => exact find_append_of_file hp hq
  | entry hp hc _ => exact find_append_of_notMem hp hc
  | further hp hc _ => exact find_append_of_notMem hp hc

/-- **How a path leaves a tree**: it is empty, or found; it goes on below a file; or a
component is missing, below a directory or at the top. -/
inductive Leaves (t : Listing) : List (List UInt8) → Prop
  | nil : Leaves t []
  | found {q : List (List UInt8)} : t.find q ≠ none → Leaves t q
  | file {content : List UInt8} {p q : List (List UInt8)} :
      t.find p = some (.file content) → q ≠ [] → Leaves t (p ++ q)
  | missing {sub : Listing} {c : List UInt8} {p q : List (List UInt8)} :
      t.find p = some (.dir sub) → c ∉ sub.names → Leaves t (p ++ c :: q)
  | top {c : List UInt8} {q : List (List UInt8)} : c ∉ t.names → Leaves t (c :: q)

/-- A path that does not begin with the first entry leaves as if the entry were not there. -/
theorem Leaves.of_rest (h : Leaves rest (c :: q))
    (hfind : ∀ q, t.find (c :: q) = rest.find (c :: q))
    (hnames : c ∉ rest.names → c ∉ t.names) : Leaves t (c :: q) := by
  generalize hr : c :: q = r at h
  cases h with
  | nil => simp at hr
  | found hx =>
    subst hr
    exact .found (by rwa [hfind])
  | file hp hq =>
    obtain ⟨n, p, rfl⟩ := exists_cons_of_find hp
    obtain ⟨rfl, -⟩ := List.cons.inj hr
    exact .file (by rwa [hfind]) hq
  | missing hp hc =>
    obtain ⟨n, p, rfl⟩ := exists_cons_of_find hp
    obtain ⟨rfl, -⟩ := List.cons.inj hr
    exact .missing (by rwa [hfind]) hc
  | top hc =>
    obtain ⟨rfl, -⟩ := List.cons.inj hr
    exact .top (hnames hc)

/-- A path that begins with a directory leaves as the rest of it leaves the directory. -/
theorem Leaves.of_sub (h : Leaves sub q) : Leaves (dir name sub rest) (name :: q) := by
  have hfind : ∀ q, q ≠ [] → (dir name sub rest).find (name :: q) = sub.find q :=
    fun q hq => by rw [find_dir, if_pos rfl, if_neg hq]
  cases h with
  | nil => exact .found (by simp [find_dir_self])
  | found hx =>
    refine .found ?_
    rwa [hfind]
    rintro rfl
    simp at hx
  | file hp hq =>
    obtain ⟨n, p, rfl⟩ := exists_cons_of_find hp
    exact .file (t := dir name sub rest) (p := name :: n :: p) (by rwa [hfind _ (by simp)]) hq
  | missing hp hc =>
    obtain ⟨n, p, rfl⟩ := exists_cons_of_find hp
    exact .missing (t := dir name sub rest) (p := name :: n :: p) (by rwa [hfind _ (by simp)]) hc
  | top hc => exact .missing (t := dir name sub rest) (p := [name]) find_dir_self hc

theorem leaves (t : Listing) (q : List (List UInt8)) : Leaves t q := by
  induction t generalizing q with
  | nil =>
    cases q with
    | nil => exact .nil
    | cons c q => exact .top List.not_mem_nil
  | file name content rest ih =>
    cases q with
    | nil => exact .nil
    | cons c q =>
      by_cases hc : c = name
      · subst hc
        by_cases hq : q = []
        · exact .found (by simp [hq, find_file_self])
        · exact .file (p := [c]) find_file_self hq
      · refine (ih (c :: q)).of_rest (fun q => by rw [find_file, if_neg hc]) fun hr => ?_
        simpa [names, hc] using hr
  | dir name sub rest ihsub ihrest =>
    cases q with
    | nil => exact .nil
    | cons c q =>
      by_cases hc : c = name
      · subst hc
        exact (ihsub q).of_sub
      · refine (ihrest (c :: q)).of_rest (fun q => by rw [find_dir, if_neg hc]) fun hr => ?_
        simpa [names, hc] using hr

/-! ### The walk -/

variable {back : List (List UInt8) → Option ℕ}

theorem walk_file (name content : List UInt8) (rest : Listing) :
    (file name content rest).walk back k q =
      if q.head? = some name then some k else rest.walk back (k + 1) q := rfl

theorem walk_dir (name : List UInt8) (sub rest : Listing) :
    (dir name sub rest).walk back k q =
      if q.head? = some name then
        if q.tail = [] then some k
        else sub.walk (rest.walk back (k + (sub.blocks + 1))) (k + 1) q.tail
      else rest.walk back (k + (sub.blocks + 1)) q := rfl

theorem blocks_append : (t.append u).blocks = t.blocks + u.blocks := by
  induction t with
  | nil => simp [append, blocks]
  | file name content rest ih =>
    simp only [append, blocks, ih]
    omega
  | dir name sub rest _ ih =>
    simp only [append, blocks, ih]
    omega

theorem walk_append : (t.append u).walk back k q = t.walk (u.walk back (k + t.blocks)) k q := by
  induction t generalizing k q with
  | nil => rfl
  | file name content rest ih =>
    have hk : k + (file name content rest).blocks = k + 1 + rest.blocks := by
      simp only [blocks]
      omega
    rw [append, walk_file, walk_file, ih, hk]
  | dir name sub rest _ ih =>
    have hk : k + (dir name sub rest).blocks = k + (sub.blocks + 1) + rest.blocks := by
      simp only [blocks]
      omega
    have hrest : (rest.append u).walk back (k + (sub.blocks + 1)) =
        rest.walk (u.walk back (k + (sub.blocks + 1) + rest.blocks)) (k + (sub.blocks + 1)) := by
      funext q
      exact ih
    rw [append, walk_dir, walk_dir, hrest, hk]

/-- Without a component, the walk passes everything. -/
theorem walk_nil : t.walk back k [] = back [] := by
  induction t generalizing k with
  | nil => rfl
  | file name content rest ih => rw [walk_file, if_neg (by simp), ih]
  | dir name sub rest _ ih => rw [walk_dir, if_neg (by simp), ih]

/-- A directory without the component is passed. -/
theorem walk_of_notMem (hc : c ∉ t.names) : t.walk back k (c :: q) = back (c :: q) := by
  induction t generalizing k with
  | nil => rfl
  | file name content rest ih =>
    rw [names, List.mem_cons, not_or] at hc
    rw [walk_file, if_neg (by simpa using hc.1), ih hc.2]
  | dir name sub rest _ ih =>
    rw [names, List.mem_cons, not_or] at hc
    rw [walk_dir, if_neg (by simpa using hc.1), ih hc.2]

/-- **The walk finds what is there.** -/
theorem walk_of_index (h : t.index q = some j) : t.walk back k q = some (k + j) := by
  induction t generalizing k q j back with
  | nil => simp at h
  | file name content rest ih =>
    cases q with
    | nil => simp at h
    | cons n q =>
      rw [index_file] at h
      rw [walk_file, List.head?_cons]
      by_cases hn : n = name
      · rw [if_pos hn] at h
        rw [if_pos (congrArg some hn)]
        split_ifs at h
        obtain rfl : 0 = j := by simpa using h
        rfl
      · rw [if_neg hn] at h
        rw [if_neg (by simpa using hn)]
        obtain ⟨i, hi, rfl⟩ := Option.map_eq_some_iff.mp h
        rw [ih hi, add_assoc, add_comm 1 i]
  | dir name sub rest ihsub ihrest =>
    cases q with
    | nil => simp at h
    | cons n q =>
      rw [index_dir] at h
      rw [walk_dir, List.head?_cons, List.tail_cons]
      by_cases hn : n = name
      · rw [if_pos hn] at h
        rw [if_pos (congrArg some hn)]
        split_ifs at h ⊢
        · obtain rfl : 0 = j := by simpa using h
          rfl
        · obtain ⟨i, hi, rfl⟩ := Option.map_eq_some_iff.mp h
          rw [ihsub hi, add_assoc, add_comm 1 i]
      · rw [if_neg hn] at h
        rw [if_neg (by simpa using hn)]
        obtain ⟨i, hi, rfl⟩ := Option.map_eq_some_iff.mp h
        rw [ihrest hi, add_assoc, add_comm (sub.blocks + 1) i]

/-- **A file is returned whatever components are left.** -/
theorem walk_of_file (back : List (List UInt8) → Option ℕ) (k : ℕ)
    (h : t.find p = some (.file content)) : ∃ j, t.walk back k (p ++ q) = some j := by
  induction t generalizing p k back with
  | nil => simp at h
  | file name d rest ih =>
    obtain ⟨n, p, rfl⟩ := exists_cons_of_find h
    rw [find_file] at h
    rw [walk_file, List.cons_append, List.head?_cons]
    by_cases hn : n = name
    · exact ⟨k, if_pos (congrArg some hn)⟩
    · rw [if_neg hn] at h
      rw [if_neg (by simpa using hn), ← List.cons_append]
      exact ih _ _ h
  | dir name sub rest ihsub ihrest =>
    obtain ⟨n, p, rfl⟩ := exists_cons_of_find h
    rw [find_dir] at h
    rw [walk_dir, List.cons_append, List.head?_cons, List.tail_cons]
    by_cases hn : n = name
    · rw [if_pos hn] at h
      rw [if_pos (congrArg some hn)]
      by_cases hp : p = []
      · simp [hp] at h
      · rw [if_neg hp] at h
        rw [if_neg (List.append_ne_nil_of_left_ne_nil hp q)]
        exact ihsub _ _ h
    · rw [if_neg hn] at h
      rw [if_neg (by simpa using hn), ← List.cons_append]
      exact ihrest _ _ h

/-- **A directory that does not have the component is left behind**: the walk goes on with
the same component at what stands there, which lies at the end of the tree. -/
theorem walk_of_dir (back : List (List UInt8) → Option ℕ) (k : ℕ)
    (h : t.find p = some (.dir sub)) (hc : c ∉ sub.names) :
    ∃ j, j + (t.behind p).blocks = k + t.blocks ∧
      t.walk back k (p ++ c :: q) = (t.behind p).walk back j (c :: q) := by
  induction t generalizing p k back with
  | nil => simp at h
  | file name d rest ih =>
    obtain ⟨n, p, rfl⟩ := exists_cons_of_find h
    rw [find_file] at h
    by_cases hn : n = name
    · rw [if_pos hn] at h
      split_ifs at h
      simp at h
    · rw [if_neg hn] at h
      obtain ⟨j, hj, hwalk⟩ := ih back (k + 1) h
      refine ⟨j, ?_, ?_⟩
      · simp only [behind, blocks]
        omega
      · rw [walk_file, List.cons_append, List.head?_cons, if_neg (by simpa using hn)]
        exact hwalk
  | dir name s rest ihsub ihrest =>
    obtain ⟨n, p, rfl⟩ := exists_cons_of_find h
    rw [find_dir] at h
    rw [walk_dir, List.cons_append, List.head?_cons, List.tail_cons]
    by_cases hn : n = name
    · have hne : p ++ c :: q ≠ [] := by simp
      rw [if_pos hn] at h
      rw [if_pos (congrArg some hn), if_neg hne, behind, if_pos hn]
      split_ifs at h with hp
      · -- the directory itself: all of it is passed
        obtain rfl : s = sub := by simpa using h
        refine ⟨k + (s.blocks + 1), ?_, ?_⟩
        · simp only [hp, behind_nil, append, blocks]
          omega
        · rw [hp, List.nil_append, walk_of_notMem hc, behind_nil]
          rfl
      · obtain ⟨j, hj, hwalk⟩ := ihsub (rest.walk back (k + (s.blocks + 1))) (k + 1) h
        have hj' : j + (s.behind p).blocks = k + (s.blocks + 1) := by omega
        refine ⟨j, ?_, ?_⟩
        · simp only [blocks_append, blocks]
          omega
        · rw [hwalk, walk_append, hj']
    · rw [if_neg hn] at h
      rw [if_neg (by simpa using hn), behind, if_neg hn]
      obtain ⟨j, hj, hwalk⟩ := ihrest back (k + (s.blocks + 1)) h
      refine ⟨j, ?_, hwalk⟩
      simp only [blocks]
      omega

/-- What stands behind a directory is less than the tree. -/
theorem blocks_behind_lt (h : t.find p = some (.dir sub)) : (t.behind p).blocks < t.blocks := by
  induction t generalizing p with
  | nil => simp at h
  | file name d rest ih =>
    obtain ⟨n, p, rfl⟩ := exists_cons_of_find h
    rw [find_file] at h
    by_cases hn : n = name
    · rw [if_pos hn] at h
      split_ifs at h
      simp at h
    · rw [if_neg hn] at h
      exact (ih h).trans (Nat.lt_succ_self _)
  | dir name s rest ihsub ihrest =>
    obtain ⟨n, p, rfl⟩ := exists_cons_of_find h
    rw [find_dir] at h
    rw [behind]
    by_cases hn : n = name
    · rw [if_pos hn] at h
      rw [if_pos hn, blocks_append, blocks]
      split_ifs at h with hp
      · simp only [hp, behind_nil, blocks]
        omega
      · have hlt := ihsub h
        omega
    · rw [if_neg hn] at h
      have hlt := ihrest h
      rw [if_neg hn, blocks]
      omega

/-- A path that strays meets a header. -/
theorem Strays.walk_ne_none (h : t.Strays q) : t.walk (fun _ => none) k q ≠ none := by
  induction h generalizing k with
  | file hp _ =>
    obtain ⟨j, hj⟩ := walk_of_file (fun _ => none) k hp
    rw [hj]
    exact Option.some_ne_none j
  | @entry t sub c p q x hp hc hx =>
    obtain ⟨j, -, hj⟩ := walk_of_dir (fun _ => none) k hp hc
    have hne : (t.behind p).index (c :: q) ≠ none := by
      rw [ne_eq, index_eq_none, hx]
      exact Option.some_ne_none x
    obtain ⟨i, hi⟩ := Option.ne_none_iff_exists'.mp hne
    rw [hj, walk_of_index hi]
    exact Option.some_ne_none _
  | further hp hc _ ih =>
    obtain ⟨j, -, hj⟩ := walk_of_dir (fun _ => none) k hp hc
    rw [hj]
    exact ih

/-- **The walk is right exactly if the path does not stray.** -/
theorem walk_eq_iff : t.walk (fun _ => none) k q = (t.index q).map (k + ·) ↔ ¬t.Strays q := by
  constructor
  · intro heq h
    rw [index_eq_none.mpr h.find_eq_none] at heq
    exact h.walk_ne_none heq
  · -- by induction on the size of the tree, which that of what stands behind is below
    induction hb : t.blocks using Nat.strong_induction_on generalizing t k q with
    | _ b ih =>
      intro h
      cases t.leaves q with
      | nil => rw [walk_nil, index_nil, Option.map_none]
      | found hx =>
        obtain ⟨j, hj⟩ := Option.ne_none_iff_exists'.mp (mt index_eq_none.mp hx)
        rw [walk_of_index hj, hj]
        rfl
      | file hp hq => exact absurd (.file hp hq) h
      | @missing sub c p r hp hc =>
        obtain ⟨j, -, hj⟩ := walk_of_dir (fun _ => none) k hp hc
        have hlt := blocks_behind_lt hp
        have hx : (t.behind p).index (c :: r) = none := by
          by_contra hx
          obtain ⟨x, hx⟩ := Option.ne_none_iff_exists'.mp (mt index_eq_none.mpr hx)
          exact h (.entry hp hc hx)
        rw [hj, ih _ (by omega) rfl fun hs => h (.further hp hc hs), hx,
          index_eq_none.mpr (find_append_of_notMem hp hc)]
        rfl
      | top hc =>
        rw [walk_of_notMem hc, index_eq_none.mpr (find_of_notMem hc)]
        rfl

end Listing

/-! ### The loop -/

section Loop

variable {m : Mem} {rd : Ramdisk} {path : List UInt8} {a base pos i n N addr : ℕ}
variable {part : ℕ → UInt8} {h : Header}

/-- **An absolute path**, whose length fits the index that runs over it. -/
structure IsAbsolute (path : List UInt8) : Prop where
  head : path.head? = some slash
  noNul : 0 ∉ path
  length_lt : path.length < 2 ^ 32

theorem IsAbsolute.chars_zero (hp : IsAbsolute path) : chars path 0 = slash := by
  have hhead := hp.head
  cases path with
  | nil => simp at hhead
  | cons c path => simpa [chars] using hhead

theorem IsAbsolute.length_components_lt (hp : IsAbsolute path) :
    (components path).length < 2 ^ 32 := by
  rw [components_of_abs hp.head]
  exact (length_componentsFrom_le path).trans_lt hp.length_lt

variable (part) in
/-- What the buffer holds in a round: a component, or nothing if there is none at all. -/
theorem IsAbsolute.holds_part (hp : IsAbsolute path) (hi : i < (components path).length ∨ i = 0) :
    Holds (getPathPart path part i) (((components path).drop i).head?.getD []) ∧
      (((components path).drop i).head?.getD []).length ≤ path.length := by
  by_cases hlt : i < (components path).length
  · have hget := List.getElem?_eq_getElem hlt
    rw [List.head?_drop, hget, Option.getD_some]
    refine ⟨holds_getPathPart hp.head hp.noNul hget, ?_⟩
    refine length_le_of_mem_componentsFrom ?_
    rw [← components_of_abs hp.head]
    exact List.getElem_mem hlt
  · obtain rfl : i = 0 := hi.resolve_left hlt
    have hnil : components path = [] := List.length_eq_zero_iff.mp (by omega)
    have hdepth : getPathDepth path = 0 := by rw [getPathDepth_eq hp.head, hnil, List.length_nil]
    rw [hnil, getPathPart_of_slashes hp.head (eq_slash_of_depth hp.head hdepth), if_pos rfl]
    exact ⟨holds_copyPart part (by simp), Nat.zero_le _⟩

/-- The test for a name, as the walk over a tree puts it. -/
theorem getD_head?_eq_iff (hname : name ≠ []) : q.head?.getD [] = name ↔ q.head? = some name := by
  cases q with
  | nil => simpa using hname.symm
  | cons c q => simp

/-- The test for the last component. -/
theorem IsAbsolute.last_iff (hp : IsAbsolute path) (hi : i < (components path).length) :
    i = (getPathDepth path + (2 ^ 32 - 1)) % 2 ^ 32 ↔ ((components path).drop i).tail = [] := by
  have hlt := hp.length_components_lt
  rw [getPathDepth_eq hp.head, List.tail_drop, List.drop_eq_nil_iff]
  omega

/-- What the loop does from a header on, unless there is none. -/
def onward (m : Mem) (rd : Ramdisk) (path : List UInt8) (n a i : ℕ) (part : ℕ → UInt8) :
    Option (Option ℕ) :=
  if rd.data ≤ a then some none else headerLoop m rd path n a i part

/-- From `a` on, in `N` rounds, the loop gives what `back` says. -/
def Gives (m : Mem) (rd : Ramdisk) (path : List UInt8) (base N a : ℕ)
    (back : List (List UInt8) → Option ℕ) : Prop :=
  ∀ i part n, i < (components path).length ∨ i = 0 → N ≤ n →
    onward m rd path n a i part =
      some ((back ((components path).drop i)).map fun k => base + 80 * k)

/-- **The loop is the walk over the tree.** -/
theorem headerLoop_walk (hp : IsAbsolute path) (hwf : t.WellFormed)
    (hat : m.At (base + 80 * k) ((t.headers pos).flatMap Header.bytes))
    (hpos : pos + t.data.length < 2 ^ 32) (hblocks : t.blocks + 1 < 2 ^ 32)
    (hend : base + 80 * (k + t.blocks) ≤ rd.data) (hdata : rd.data < 2 ^ 64)
    {back : List (List UInt8) → Option ℕ}
    (hback : Gives m rd path base N (base + 80 * (k + t.blocks)) back) :
    Gives m rd path base (N + t.blocks) (base + 80 * k) (t.walk back k) := by
  induction t generalizing k pos N back with
  | nil => exact hback
  | file name content rest ih =>
    have hb : (Listing.file name content rest).blocks = rest.blocks + 1 := rfl
    have hlen : (Listing.file name content rest).data.length = content.length + rest.data.length :=
      List.length_append
    have hhead := Listing.headerAt_file hwf hat hpos (by omega)
    obtain ⟨hname, -, hrest⟩ := hwf
    obtain ⟨-, hat⟩ := Listing.at_headers_file hname hat
    have hk : k + (Listing.file name content rest).blocks = k + 1 + rest.blocks := by omega
    have hnext : base + 80 * (k + 1) = base + 80 * k + 80 := by omega
    rw [hk] at hback hend
    intro i part n hi hn
    obtain ⟨n, rfl⟩ := Nat.exists_eq_succ_of_ne_zero (show n ≠ 0 by omega)
    obtain ⟨hpart, hle⟩ := hp.holds_part part hi
    have hadv : advance (base + 80 * k) 1 = base + 80 * (k + 1) := by
      rw [advance_of_lt (k := 1) (by omega)]
      omega
    rw [onward, if_neg (by omega), headerLoop_file hhead rfl hpart hle, Listing.walk_file, hadv]
    simp only [getD_head?_eq_iff hname.isName.1]
    by_cases hc : ((components path).drop i).head? = some name
    · rw [if_pos hc, if_pos hc]
      rfl
    · rw [if_neg hc, if_neg hc]
      exact ih hrest (k := k + 1) (by rw [hnext]; exact hat) (by omega)
        (by omega) hend hback i _ n hi
        (by omega)
  | dir name sub rest ihsub ihrest =>
    have hb : (Listing.dir name sub rest).blocks = sub.blocks + rest.blocks + 1 := rfl
    have hlen : (Listing.dir name sub rest).data.length = sub.data.length + rest.data.length :=
      List.length_append
    have hsublen := sub.length_le_blocks
    have hhead := Listing.headerAt_dir hwf hat hpos (by omega)
    obtain ⟨hname, -, hsub, hrest⟩ := hwf
    obtain ⟨-, hat₂, hat₃⟩ := Listing.at_headers_dir hname hsub hat
    have hk : k + (Listing.dir name sub rest).blocks = k + (sub.blocks + 1) + rest.blocks := by
      omega
    have hsubend : k + 1 + sub.blocks = k + (sub.blocks + 1) := by omega
    have hfirst : base + 80 * (k + 1) = base + 80 * k + 80 := by omega
    have hbehind : base + 80 * (k + (sub.blocks + 1)) = base + 80 * k + 80 + 80 * sub.blocks := by
      omega
    rw [hk] at hback hend
    -- what comes back from the directory is the walk over the rest
    have hgrest := ihrest hrest (k := k + (sub.blocks + 1)) (by rw [hbehind]; exact hat₃) (by omega)
      (by omega) hend hback
    have hgsub :=
      ihsub hsub (k := k + 1) (by rw [hfirst]; exact hat₂) (by omega) (by omega) (by omega)
      (by rw [hsubend]; exact hgrest)
    intro i part n hi hn
    obtain ⟨n, rfl⟩ := Nat.exists_eq_succ_of_ne_zero (show n ≠ 0 by omega)
    obtain ⟨hpart, hle⟩ := hp.holds_part part hi
    have hadv : advance (base + 80 * k) 1 = base + 80 * (k + 1) := by
      rw [advance_of_lt (k := 1) (by omega)]
      omega
    have hmod : (sub.blocks + 1) % 2 ^ 32 = sub.blocks + 1 := Nat.mod_eq_of_lt (by omega)
    have hskip : advance (base + 80 * k) (sub.blocks + 1) = base + 80 * (k + (sub.blocks + 1)) := by
      rw [advance_of_lt (k := sub.blocks + 1) (by omega)]
      omega
    rw [onward, if_neg (by omega), headerLoop_dir hhead rfl hpart hle, Listing.walk_dir, hadv, hmod,
      hskip]
    simp only [getD_head?_eq_iff hname.isName.1]
    by_cases hc : ((components path).drop i).head? = some name
    · have hlt : i < (components path).length := by
        by_contra hge
        rw [List.drop_eq_nil_of_le (Nat.le_of_not_lt hge)] at hc
        simp at hc
      rw [if_pos hc, if_pos hc]
      simp only [hp.last_iff hlt]
      by_cases hlast : ((components path).drop i).tail = []
      · rw [if_pos hlast, if_pos hlast]
        rfl
      · rw [if_neg hlast, if_neg hlast, List.tail_drop]
        rw [List.tail_drop, List.drop_eq_nil_iff, Nat.not_le] at hlast
        exact hgsub (i + 1) _ n (Or.inl hlast) (by omega)
    · rw [if_neg hc, if_neg hc]
      exact hgrest i _ n hi (by omega)

/-! ### An empty ramdisk -/

/-- **A header where there is none**: what is in memory behind the image looks like the
header that is looked for. -/
def Ghost (m : Mem) (a : ℕ) (q : List (List UInt8)) : Prop :=
  Holds (fileName m a) (q.head?.getD []) ∧
    (magic m a = fileEntry ∨ magic m a = dirEntry ∧ q.length = 1)

variable (part n) in
/-- The loop looks at a header before it asks whether there is one. -/
theorem headerLoop_empty (hp : IsAbsolute path) (hdata : rd.data + 80 * 2 ^ 32 < 2 ^ 64) :
    (Ghost m rd.data (components path) →
        headerLoop m rd path (n + 1) rd.data 0 part = some (some rd.data)) ∧
      (¬Ghost m rd.data (components path) →
        headerLoop m rd path (n + 1) rd.data 0 part = some none) := by
  obtain ⟨hpart, hle⟩ := hp.holds_part part (Or.inr rfl)
  rw [List.drop_zero] at hpart hle
  obtain ⟨r, hr, hiff⟩ := strcmp_holds hpart (fileName m rd.data) (Nat.lt_succ_of_le hle)
  have hnext : ∀ k, k ≤ 2 ^ 32 → rd.data ≤ advance rd.data k := by
    intro k hk
    rw [advance_of_lt (by omega)]
    exact Nat.le_add_right _ _
  have hmod : (fileSize m rd.data + 1) % 2 ^ 32 ≤ 2 ^ 32 := (Nat.mod_lt _ (by decide)).le
  have hdepth : 0 = (getPathDepth path + (2 ^ 32 - 1)) % 2 ^ 32 ↔ (components path).length = 1 := by
    have hlt := hp.length_components_lt
    rw [getPathDepth_eq hp.head]
    omega
  have hne : dirEntry ≠ fileEntry := by decide
  rw [Ghost, ← hiff, headerLoop]
  simp only [hr, Option.bind_eq_bind, Option.bind_some, Option.pure_def, hdepth,
    if_pos (hnext 1 (by decide)), if_pos (hnext _ hmod), if_pos le_rfl]
  constructor
  · rintro ⟨hholds, hfile | ⟨hdir, hone⟩⟩
    · rw [if_pos hfile, if_pos hholds]
    · rw [if_neg (by rw [hdir]; exact hne), if_pos hdir, if_pos hholds, if_pos hone]
  · intro hghost
    split_ifs with hfile hholds hdir hholds hone
    · exact absurd ⟨hholds, Or.inl hfile⟩ hghost
    · rfl
    · exact absurd ⟨hholds, Or.inr ⟨hdir, hone⟩⟩ hghost
    all_goals rfl

/-! ### What is returned -/

/-- The header of what has been found, in a tree whose contents begin at `pos`. -/
def Found.HasHeader (t : Listing) (pos : ℕ) (h : Header) : Found → Prop
  | .file content => h.magic = fileEntry ∧ h.size = content.length ∧
      ∃ l₁ l₂, t.data = l₁ ++ content ++ l₂ ∧ h.fileData = pos + l₁.length
  | .dir sub => h.magic = dirEntry ∧ h.size = sub.blocks ∧ h.fileData = sub.length

theorem Found.HasHeader.append {x : Found} {l₁ l₂ : List UInt8}
    (hx : x.HasHeader u (pos + l₁.length) h) (ht : t.data = l₁ ++ u.data ++ l₂) :
    x.HasHeader t pos h := by
  cases x with
  | dir sub => exact hx
  | file content =>
    obtain ⟨hm, hs, k₁, k₂, hu, hd⟩ := hx
    refine ⟨hm, hs, l₁ ++ k₁, k₂ ++ l₂, ?_, ?_⟩
    · rw [ht, hu]
      simp only [List.append_assoc]
    · rw [hd, List.length_append, add_assoc]

variable (pos) in
/-- **The header at the index** is that of what is found, and has its name. -/
theorem Listing.headers_index (hk : t.index q = some k) :
    ∃ h x, (t.headers pos)[k]? = some h ∧ t.find q = some x ∧ x.HasHeader t pos h ∧
      q.getLast? = some h.name := by
  induction t generalizing q k pos with
  | nil => simp at hk
  | file name content rest ih =>
    cases q with
    | nil => simp at hk
    | cons n q =>
      rw [index_file] at hk
      rw [headers, find_file]
      by_cases hn : n = name
      · rw [if_pos hn] at hk ⊢
        split_ifs at hk ⊢ with hq
        obtain rfl : 0 = k := by simpa using hk
        exact ⟨_, _, rfl, rfl, ⟨rfl, rfl, [], rest.data, rfl, rfl⟩, by rw [hq, hn]; rfl⟩
      · rw [if_neg hn] at hk ⊢
        obtain ⟨j, hj, rfl⟩ := Option.map_eq_some_iff.mp hk
        obtain ⟨h, x, hget, hfind, hx, hlast⟩ := ih (pos + content.length) hj
        exact ⟨h, x, hget, hfind, hx.append (List.append_nil _).symm, hlast⟩
  | dir name sub rest ihsub ihrest =>
    cases q with
    | nil => simp at hk
    | cons n q =>
      rw [index_dir] at hk
      rw [headers, find_dir]
      by_cases hn : n = name
      · rw [if_pos hn] at hk ⊢
        split_ifs at hk ⊢ with hq
        · obtain rfl : 0 = k := by simpa using hk
          exact ⟨_, _, rfl, rfl, ⟨rfl, rfl, rfl⟩, by rw [hq, hn]; rfl⟩
        · obtain ⟨j, hj, rfl⟩ := Option.map_eq_some_iff.mp hk
          obtain ⟨h, x, hget, hfind, hx, hlast⟩ := ihsub pos hj
          have hx' : x.HasHeader sub (pos + ([] : List UInt8).length) h := hx
          refine ⟨h, x, ?_, hfind, hx'.append (List.nil_append _).symm, ?_⟩
          · rw [List.getElem?_cons_succ, List.getElem?_append_left, hget]
            exact (List.getElem?_eq_some_iff.mp hget).1
          · rwa [List.getLast?_cons_of_ne_nil hq]
      · rw [if_neg hn] at hk ⊢
        obtain ⟨j, hj, rfl⟩ := Option.map_eq_some_iff.mp hk
        obtain ⟨h, x, hget, hfind, hx, hlast⟩ := ihrest (pos + sub.data.length) hj
        refine ⟨h, x, ?_, hfind, hx.append (List.append_nil _).symm, hlast⟩
        rw [← add_assoc, List.getElem?_cons_succ, List.getElem?_append_right, length_headers,
          Nat.add_sub_cancel, hget]
        rw [length_headers]
        exact Nat.le_add_left _ _

/-- Each header is where its index says. -/
theorem headerAt_getElem {hs : List Header} (hat : m.At a (hs.flatMap Header.bytes))
    (hfits : ∀ x ∈ hs, x.Fits) (hk : hs[k]? = some h) : HeaderAt m (a + 80 * k) h := by
  induction hs generalizing a k with
  | nil => simp at hk
  | cons x hs ih =>
    have hx := hfits x List.mem_cons_self
    rw [List.flatMap_cons, at_append,
      Header.length_bytes (hx.name.length_le.trans (by decide))] at hat
    cases k with
    | zero =>
      obtain rfl : x = h := by simpa using hk
      exact headerAt_of_at hat.1 hx
    | succ k =>
      have haddr : a + 80 * (k + 1) = a + 80 + 80 * k := by omega
      rw [haddr]
      exact ih hat.2 (fun y hy => hfits y (List.mem_cons_of_mem x hy)) (by simpa using hk)

/-- **The header of what a path names**, where it is in memory, if the path names anything. -/
def IsNode (t : Listing) (m : Mem) (q : List (List UInt8)) (file : ℕ) : Prop :=
  ∃ h x, HeaderAt m file h ∧ t.find q = some x ∧ x.HasHeader t 0 h ∧ q.getLast? = some h.name

/-- **What `ramdisk_get_path_header` should return**: the header of what the path names,
and `NULL` if it names nothing. -/
structure PathHeaderLaw (t : Listing) (m : Mem) (addr : ℕ) (path : List UInt8) : Prop where
  returned : ∀ part, Returns (fun n => ramdiskGetPathHeader m (initRamdisk m addr) path part n)
    ((t.index (components path)).map fun k => addr + 16 + 80 * k)
  isNode : ∀ k, t.index (components path) = some k →
    IsNode t m (components path) (addr + 16 + 80 * k)
  isNone : t.index (components path) = none ↔ t.find (components path) = none

variable (part) in
/-- What `ramdisk_get_path_header` computes. -/
theorem Loaded.ramdiskGetPathHeader_eq (hl : Loaded t m addr) (hroom : addr + 2 ^ 39 ≤ 2 ^ 64)
    (hwf : t.WellFormed) (hsize : t.packedSize < 2 ^ 32) (hp : IsAbsolute path) (hne : t ≠ .nil)
    (hn : t.blocks ≤ n) : ramdiskGetPathHeader m (initRamdisk m addr) path part n =
      some ((t.walk (fun _ => none) 0 (components path)).map fun k => addr + 16 + 80 * k) := by
  obtain ⟨hdata, hheaders, -⟩ := hl.parts hwf hsize
  have hpacked : t.packedSize = 16 + 80 * t.blocks + t.data.length := rfl
  have hpos : 0 < t.blocks := by
    cases t with
    | nil => exact absurd rfl hne
    | file name content rest => exact Nat.succ_pos _
    | dir name sub rest => exact Nat.succ_pos _
  -- behind the last header there is none
  have hback : Gives m (initRamdisk m addr) path (addr + 16) 0 (addr + 16 + 80 * (0 + t.blocks))
      fun _ => none := by
    intro i part n _ _
    rw [onward, if_pos (by omega)]
    rfl
  have hwalk :=
    headerLoop_walk hp hwf (by rw [Nat.mul_zero, Nat.add_zero]; exact hheaders) (by omega)
      (by omega) (by omega)
    (by omega) hback 0 part n (Or.inr rfl) (by omega)
  rw [onward, if_neg (by omega), List.drop_zero, Nat.mul_zero, Nat.add_zero] at hwalk
  rw [ramdiskGetPathHeader, if_neg (not_not.mpr hp.chars_zero)]
  exact hwalk

variable (part n) in
/-- A path on an empty ramdisk. -/
theorem Loaded.ramdiskGetPathHeader_empty (hl : Loaded .nil m addr) (hroom : addr + 2 ^ 39 ≤ 2 ^ 64)
    (hp : IsAbsolute path) :
    (Ghost m (addr + 16) (components path) →
        ramdiskGetPathHeader m (initRamdisk m addr) path part (n + 1) = some (some (addr + 16))) ∧
      (¬Ghost m (addr + 16) (components path) →
        ramdiskGetPathHeader m (initRamdisk m addr) path part (n + 1) = some none) := by
  obtain ⟨hdata, -, -⟩ := hl.parts trivial (by decide)
  have hdata' : (initRamdisk m addr).data = addr + 16 := hdata
  have hfiles : (initRamdisk m addr).files = (initRamdisk m addr).data := hdata'.symm
  have hfar : (initRamdisk m addr).data + 80 * 2 ^ 32 < 2 ^ 64 := by omega
  have hloop := headerLoop_empty (m := m) n part hp hfar
  rw [hdata'] at hloop hfiles
  rw [ramdiskGetPathHeader, if_neg (not_not.mpr hp.chars_zero), hfiles]
  exact hloop

/-- The header of a node is at its index. -/
theorem Loaded.isNode (hl : Loaded t m addr) (hwf : t.WellFormed) (hsize : t.packedSize < 2 ^ 32)
    (hk : t.index q = some k) : IsNode t m q (addr + 16 + 80 * k) := by
  obtain ⟨-, hheaders, -⟩ := hl.parts hwf hsize
  have hpacked : t.packedSize = 16 + 80 * t.blocks + t.data.length := rfl
  obtain ⟨h, x, hget, hfind, hx, hlast⟩ := Listing.headers_index 0 hk
  exact ⟨h, x, headerAt_getElem hheaders (Listing.fits_headers hwf (by omega) (by omega)) hget,
    hfind, hx, hlast⟩

/-- **When the code finds the right header**, for a tree that has been packed. -/
theorem Loaded.law_iff (hl : Loaded t m addr) (hroom : addr + 2 ^ 39 ≤ 2 ^ 64)
    (hwf : t.WellFormed) (hsize : t.packedSize < 2 ^ 32) (hp : IsAbsolute path) :
    PathHeaderLaw t m addr path ↔
      ¬t.Strays (components path) ∧ (t = .nil → ¬Ghost m (addr + 16) (components path)) := by
  have hlaw : PathHeaderLaw t m addr path ↔ ∀ part, Returns
      (fun n => ramdiskGetPathHeader m (initRamdisk m addr) path part n)
      ((t.index (components path)).map fun k => addr + 16 + 80 * k) :=
    ⟨fun h => h.returned, fun h => ⟨h, fun k hk => hl.isNode hwf hsize hk, Listing.index_eq_none⟩⟩
  rw [hlaw]
  by_cases hnil : t = .nil
  · subst hnil
    have hstray : ¬Listing.nil.Strays (components path) := fun h => h.walk_ne_none (k := 0) rfl
    have hempty := fun n part => hl.ramdiskGetPathHeader_empty n part hroom hp
    simp only [hstray, not_false_eq_true, true_and, forall_const]
    constructor
    · intro hret hghost
      obtain ⟨n, hn⟩ := hret fun _ => 0
      have hcon := hn (n + 1) (Nat.le_succ n)
      simp only at hcon
      rw [(hempty n _).1 hghost] at hcon
      simp [Listing.index] at hcon
    · intro hghost part
      refine ⟨1, fun n hn => ?_⟩
      obtain ⟨n, rfl⟩ := Nat.exists_eq_succ_of_ne_zero (Nat.ne_zero_of_lt hn)
      exact (hempty n part).2 hghost
  · have heq := fun n part (hn : t.blocks ≤ n) =>
      hl.ramdiskGetPathHeader_eq part hroom hwf hsize hp hnil hn
    simp only [hnil, false_implies, and_true]
    have hinj : Function.Injective fun k => addr + 16 + 80 * k := by
      intro i j hij
      simp only at hij
      omega
    have hzero : (t.index (components path)).map (0 + ·) = t.index (components path) := by
      simp
    rw [← Listing.walk_eq_iff (k := 0), hzero]
    constructor
    · intro hret
      obtain ⟨n, hn⟩ := hret fun _ => 0
      have hcon := hn (max n t.blocks) (le_max_left _ _)
      simp only at hcon
      rw [heq _ _ (le_max_right _ _)] at hcon
      exact Option.map_injective hinj (Option.some.inj hcon)
    · intro hwalk part
      refine ⟨t.blocks, fun n hn => ?_⟩
      simp only
      rw [heq n part hn, hwalk]

end Loop

/-- A tree with one file. -/
def oneFile : Listing := .file [97] [1] .nil

end Xana
