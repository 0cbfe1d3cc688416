import Xana.Filesystem.Mounts
import Xana.Filesystem.Overrun
import Xana.Ramdisk.Stray

/-!
# Asking for the path of a file

`F_GETPATH`, and opening the string that it leaves. `ramdisk_fnctl` puts the path of the mount,
a slash and the name in the header one behind the other. A header has only the last component
of its path, so what is left out are all the components between.

So the string opens the same node exactly if there are none: for the root, and for what is
directly in it (`Xana.reopens_iff`). Then it is a question of the mounts: `get_path_device`
takes the mount that has been added last among those that fit, and `device_to_path` the one that
has been added last among those of the device.
-/

namespace Xana

open Mem

/-- `F_GETPATH`. -/
def fGETPATH : ℤ := 50

/-- `ramdisk_fnctl`: what it returns, and the buffer `arg` after it. There is no result if the
device has no mount, since `device_to_path` returns `NULL` then. -/
def ramdiskFnctl (n : ℕ) (m : Mem) (mounts : List Mount) (device : ℕ) (cmd : ℤ) (arg : ℕ → UInt8)
    (entry : RamdiskFileEntry) : Option (ℤ × (ℕ → UInt8)) :=
  if cmd = fGETPATH then do
    let path ← deviceToPath device mounts
    let retpath ← strcpy n arg (chars path)
    let retpath ← strcat n retpath (chars [slash])
    let retpath ← entry.file.elim (some retpath) fun file => strcat n retpath (fileName m file)
    return (0, retpath)
  else return (-eOPNOTSUPP, arg)

/-- `kfopen`, up to what `ramdisk_open` returns. There is no result if the path is not one of the
ramdisk. -/
def kfopenRamdisk (n : ℕ) (m : Mem) (rd : Ramdisk) (root : Option ℕ) (mounts : List Mount)
    (ramdisk : ℕ) (pwd path buffer : ℕ → UInt8) (flags : ℕ) (part : ℕ → UInt8) :
    Option (Option RamdiskFileEntry × ℤ) := do
  let buffer ← resolvePath n pwd path buffer
  let buffer ← absPathCleanup n buffer
  let len ← strlen n buffer
  let path := Mem.read buffer 0 len
  let (device, value) := getPathDevice root path mounts
  if device = some ramdisk then ramdiskOpen m rd (path.drop value) flags part n else none

/-- **The string that `F_GETPATH` leaves opens the node again**, whatever the buffers are and
the working directory is. -/
def Reopens (m : Mem) (rd : Ramdisk) (root : Option ℕ) (mounts : List Mount) (ramdisk flags : ℕ)
    (entry : RamdiskFileEntry) : Prop :=
  ∀ arg pwd buffer part, ∃ ret entry',
    Returns (fun n => ramdiskFnctl n m mounts ramdisk fGETPATH arg entry) (0, ret) ∧
      Returns (fun n => kfopenRamdisk n m rd root mounts ramdisk pwd ret buffer flags part)
        (some entry', 0) ∧
      entry'.file = entry.file

/-- **A node that can be open**: the root, or what a list of names leads to, with the header that
`ramdisk_open` keeps of it. -/
inductive OpenNode (t : Listing) (addr : ℕ) : List (List UInt8) → Option ℕ → Prop
  | root : OpenNode t addr [] none
  | below {q : List (List UInt8)} {k : ℕ} : t.index q = some k →
      OpenNode t addr q (some (addr + 16 + 80 * k))

/-! ### Headers and names -/

namespace Listing

variable {t : Listing} {q q' : List (List UInt8)} {k : ℕ}

theorem index_lt (h : t.index q = some k) : k < t.blocks := by
  induction t generalizing q k with
  | nil => simp at h
  | file name content rest ih =>
    cases q with
    | nil => simp at h
    | cons n q =>
      rw [index_file] at h
      rw [blocks]
      split_ifs at h with hn hq
      · obtain rfl : 0 = k := by simpa using h
        exact Nat.succ_pos _
      · obtain ⟨j, hj, rfl⟩ := Option.map_eq_some_iff.mp h
        exact Nat.succ_lt_succ (ih hj)
  | dir name sub rest ihsub ihrest =>
    cases q with
    | nil => simp at h
    | cons n q =>
      rw [index_dir] at h
      rw [blocks]
      split_ifs at h with hn hq
      · obtain rfl : 0 = k := by simpa using h
        exact Nat.succ_pos _
      · obtain ⟨j, hj, rfl⟩ := Option.map_eq_some_iff.mp h
        have hlt := ihsub hj
        omega
      · obtain ⟨j, hj, rfl⟩ := Option.map_eq_some_iff.mp h
        have hlt := ihrest hj
        omega

/-- **A header is that of one node.** -/
theorem index_inj (h : t.index q = some k) (h' : t.index q' = some k) : q = q' := by
  induction t generalizing q q' k with
  | nil => simp at h
  | file name content rest ih =>
    cases q with
    | nil => simp at h
    | cons n q =>
      cases q' with
      | nil => simp at h'
      | cons n' q' =>
        rw [index_file] at h h'
        split_ifs at h h' with hn hq hn' hq' hn' hq'
        · rw [hn, hq, hn', hq']
        · obtain ⟨j, -, rfl⟩ := Option.map_eq_some_iff.mp h'
          simp at h
        · obtain ⟨j, -, rfl⟩ := Option.map_eq_some_iff.mp h
          simp at h'
        · obtain ⟨j, hj, rfl⟩ := Option.map_eq_some_iff.mp h
          obtain ⟨j', hj', heq⟩ := Option.map_eq_some_iff.mp h'
          obtain rfl : j' = j := Nat.succ_injective heq
          exact ih hj hj'
  | dir name sub rest ihsub ihrest =>
    cases q with
    | nil => simp at h
    | cons n q =>
      cases q' with
      | nil => simp at h'
      | cons n' q' =>
        -- the header of the directory, those below it, and those behind
        have hcases : ∀ {n q}, (dir name sub rest).index (n :: q) = some k →
            (n = name ∧ q = [] ∧ k = 0) ∨ (n = name ∧ ∃ j, sub.index q = some j ∧ k = j + 1) ∨
              ∃ j, rest.index (n :: q) = some j ∧ k = j + (sub.blocks + 1) := by
          intro n q h
          rw [index_dir] at h
          split_ifs at h with hn hq
          · exact Or.inl ⟨hn, hq, (Option.some.inj h).symm⟩
          · obtain ⟨j, hj, rfl⟩ := Option.map_eq_some_iff.mp h
            exact Or.inr (Or.inl ⟨hn, j, hj, rfl⟩)
          · obtain ⟨j, hj, rfl⟩ := Option.map_eq_some_iff.mp h
            exact Or.inr (Or.inr ⟨j, hj, rfl⟩)
        rcases hcases h with ⟨rfl, rfl, hk⟩ | ⟨rfl, j, hj, hk⟩ | ⟨j, hj, hk⟩ <;>
          rcases hcases h' with ⟨rfl, rfl, hk'⟩ | ⟨rfl, j', hj', hk'⟩ | ⟨j', hj', hk'⟩
        · rfl
        · omega
        · omega
        · omega
        · obtain rfl : j' = j := by omega
          rw [ihsub hj hj']
        · have hlt := index_lt hj
          omega
        · omega
        · have hlt := index_lt hj'
          omega
        · obtain rfl : j' = j := by omega
          exact ihrest hj hj'

/-- A path with one component does not stray. -/
theorem not_strays_singleton (c : List UInt8) : ¬t.Strays [c] := by
  intro h
  generalize hq : [c] = q at h
  have hlen : q.length = 1 := by rw [← hq, List.length_singleton]
  have hne : ∀ {p x}, t.find p = some x → 0 < p.length := by
    intro p x hp
    obtain ⟨n, p, rfl⟩ := exists_cons_of_find hp
    exact Nat.succ_pos _
  cases h with
  | file hp hrest =>
    have hpos := hne hp
    have hpos' := List.length_pos_of_ne_nil hrest
    rw [List.length_append] at hlen
    omega
  | entry hp =>
    have hpos := hne hp
    rw [List.length_append, List.length_cons] at hlen
    omega
  | further hp =>
    have hpos := hne hp
    rw [List.length_append, List.length_cons] at hlen
    omega

end Listing

/-! ### Opening a node of the root -/

section Open

variable {t : Listing} {m : Mem} {addr n flags : ℕ} {name : List UInt8} {rd : Ramdisk}
variable {part : ℕ → UInt8}

/-- **A name that is opened**: the header that is found directly in the root. -/
theorem Loaded.ramdiskOpen_name (hl : Loaded t m addr) (hroom : addr + 2 ^ 39 ≤ 2 ^ 64)
    (hwf : t.WellFormed) (hsize : t.packedSize < 2 ^ 32) (hname : IsName name) (h0 : 0 ∉ name)
    (hlt : name.length < 64) (hflags : ReadFlags flags) (hne : t ≠ .nil) (hn : t.blocks ≤ n) :
    ramdiskOpen m (initRamdisk m addr) (absPath [name]) flags part n =
      some ((t.index [name]).elim (none, -eNOENT) fun k =>
        (some ⟨some (addr + 16 + 80 * k), 0, 1⟩, 0)) := by
  have hpath : absPath [name] = slash :: name := by simp [absPath]
  have hcomps : components (absPath [name]) = [name] := components_absPath (by simpa using hname)
  have habs : IsAbsolute (absPath [name]) := by
    rw [hpath]
    refine ⟨rfl, ?_, by rw [List.length_cons]; omega⟩
    rw [List.mem_cons, not_or]
    exact ⟨by decide, h0⟩
  have hheader := hl.ramdiskGetPathHeader_eq part hroom hwf hsize habs hne hn
  rw [hcomps, Listing.walk_eq_iff.mpr (Listing.not_strays_singleton name)] at hheader
  rw [ramdiskOpen_eq hflags habs.noNul (by rw [hpath]; rfl) (by simp [hpath, hname.1]), hheader]
  cases t.index [name] with
  | none => rfl
  | some k => simp

/-- The root is opened. -/
theorem ramdiskOpen_slash (hflags : ReadFlags flags) :
    ramdiskOpen m rd [slash] flags part n = some (some ⟨none, 0, 1⟩, 0) := by
  obtain ⟨h₁, h₂, -⟩ := hflags
  have hroot : strncmp 2 (chars [slash]) (chars [slash]) = 0 := by decide
  simp [ramdiskOpen, h₁, h₂, hroot]

end Open

/-! ### The string and where it leads -/

section Reopen

variable {m : Mem} {rd : Ramdisk} {root : Option ℕ} {before after mounts : List Mount} {c : Mount}
variable {ramdisk flags n addr : ℕ} {entry : RamdiskFileEntry} {name l : List UInt8}
variable {b : List (List UInt8)} {arg pwd ret buffer part : ℕ → UInt8}

variable (before) in
/-- `device_to_path` returns the path of the last mount. -/
theorem deviceToPath_eq (hc : c.filesystem = ramdisk)
    (hafter : ∀ m' ∈ after, m'.filesystem ≠ ramdisk) :
    deviceToPath ramdisk (mountAll (before ++ c :: after)) = some c.path := by
  have happ : ∀ l : List Mount, (∀ m' ∈ l, m'.filesystem ≠ ramdisk) →
      deviceToPath ramdisk (l ++ c :: before.reverse) = some c.path := by
    intro l hl
    induction l with
    | nil => exact if_pos hc
    | cons m' l ih =>
      obtain ⟨hm', hl⟩ := List.forall_mem_cons.mp hl
      rw [List.cons_append, deviceToPath, if_neg hm', ih hl]
  rw [mountAll_eq, List.reverse_append, List.reverse_cons, List.append_assoc]
  exact happ after.reverse (by simpa using hafter)

theorem ramdiskFnctl_mono (m : Mem) (mounts : List Mount) (device : ℕ) (cmd : ℤ)
    (arg : ℕ → UInt8) (entry : RamdiskFileEntry) :
    MonoRounds fun n => ramdiskFnctl n m mounts device cmd arg entry := by
  unfold ramdiskFnctl
  refine .ite ((MonoRounds.const _).bind fun path => (strcpy_mono arg (chars path)).bind fun ret =>
    (strcat_mono ret (chars [slash])).bind fun ret => MonoRounds.bind ?_ fun _ => .const _)
    (.const _)
  cases entry.file with
  | none => exact .const _
  | some file => exact strcat_mono ret (fileName m file)

/-- **The string that `F_GETPATH` leaves**: the path of the mount, and the name of the node. -/
theorem ramdiskFnctl_getpath (hpath : deviceToPath ramdisk mounts = some c.path)
    (hmount : 0 ∉ c.path)
    (hname : (entry.file = none ∧ name = []) ∨
      ∃ file, entry.file = some file ∧ Holds (fileName m file) name) (arg : ℕ → UInt8) :
    ∃ ret, Returns (fun n => ramdiskFnctl n m mounts ramdisk fGETPATH arg entry) (0, ret) ∧
      Holds ret (c.path ++ slash :: name) := by
  set n := c.path.length + 2 + name.length with hn
  obtain ⟨r₁, hcpy, hr₁⟩ := strcpy_spec (t := arg) (n := n) (holds_chars hmount) (by omega)
  obtain ⟨r₂, hcat, hr₂⟩ := strcat_spec (n := n) hr₁ holds_slash (by omega)
    (by rw [List.length_singleton]; omega)
  rcases hname with ⟨hfile, rfl⟩ | ⟨file, hfile, hholds⟩
  · refine ⟨r₂, MonoRounds.returns (ramdiskFnctl_mono _ _ _ _ _ _) (k := n) ?_, hr₂⟩
    simp [ramdiskFnctl, hpath, hcpy, hcat, hfile]
  · obtain ⟨r₃, hcat', hr₃⟩ := strcat_spec (n := n) hr₂ hholds
      (by rw [List.length_append, List.length_singleton]; omega) (by omega)
    refine ⟨r₃, MonoRounds.returns (ramdiskFnctl_mono _ _ _ _ _ _) (k := n) ?_,
      by simpa using hr₃⟩
    simp [ramdiskFnctl, hpath, hcpy, hcat, hfile, hcat']

/-- **A clean path is opened as it is**, if it is not too long. -/
theorem kfopenRamdisk_eq {trail : List UInt8} (hret : Holds ret (absPath b ++ trail))
    (habs : (absPath b ++ trail).head? = some slash) (hb : CleanNames b)
    (ht : trail = [] ∨ trail = [slash]) (hlen : (absPath b ++ trail).length ≤ pathMax)
    (hn : pathMax < n) (buffer : ℕ → UInt8) :
    kfopenRamdisk n m rd root mounts ramdisk pwd ret buffer flags part =
      if (getPathDevice root (absPath b ++ trail) mounts).1 = some ramdisk then
        ramdiskOpen m rd ((absPath b ++ trail).drop
          (getPathDevice root (absPath b ++ trail) mounts).2) flags part n
      else none := by
  set l := absPath b ++ trail with hl
  have hstrlen := strlen_eq hret (n := n) (by omega)
  obtain ⟨buf, hcpy, hbuf⟩ := strcpy_spec (t := buffer) hret (n := n) (by omega)
  have hresolve : resolvePath n pwd ret buffer = some buf := by
    rw [resolvePath, if_neg (not_not.mpr (hret.head?_eq_iff.mp habs)), hstrlen]
    exact (if_neg (by omega)).trans hcpy
  have hclean : absPathCleanup n buf = some buf :=
    cleanupLoop_clean [] hbuf (fun c hc => (hb c hc).1) ht (hlen.trans_lt hn)
  have hread : Mem.read buf 0 l.length = l := by
    have hat := (holds_iff.mp hbuf).2
    rw [at_append] at hat
    exact hat.1
  have hlength := strlen_eq hbuf (n := n) (by omega)
  simp only [kfopenRamdisk, hresolve, hclean, hlength, hread, Option.bind_eq_bind,
    Option.bind_some]

/-- A path that is too long stops the kernel. -/
theorem kfopenRamdisk_long (hret : Holds ret l) (habs : l.head? = some slash)
    (hlen : pathMax < l.length) (buffer : ℕ → UInt8) :
    kfopenRamdisk n m rd root mounts ramdisk pwd ret buffer flags part = none := by
  -- an absolute path is resolved without the working directory
  have hpwd : resolvePath n pwd ret buffer = resolvePath n (chars [slash]) ret buffer := by
    have hslash : ¬ret 0 ≠ slash := not_not.mpr (hret.head?_eq_iff.mp habs)
    rw [resolvePath, resolvePath, if_neg hslash, if_neg hslash]
  rw [kfopenRamdisk, hpwd, resolvePath_eq_none holds_slash hret (Or.inl ⟨habs, hlen⟩)]
  rfl

end Reopen

/-! ### The round trip -/

/-- The mounts, by the last one of the ramdisk. -/
structure LastMount (ramdisk : ℕ) (before : List Mount) (c : Mount) (after : List Mount) :
    Prop where
  clean : ∀ m ∈ before ++ c :: after, CleanMount m
  device : c.filesystem = ramdisk
  after_ne : ∀ m ∈ after, m.filesystem ≠ ramdisk

section RoundTrip

variable {t : Listing} {m : Mem} {rd : Ramdisk} {root : Option ℕ} {before after : List Mount}
variable {c : Mount} {ramdisk flags n addr : ℕ} {b : List (List UInt8)} {trail : List UInt8}
variable {q : List (List UInt8)} {file : Option ℕ} {entry : RamdiskFileEntry}
variable {pwd ret buffer part : ℕ → UInt8}

variable (root) in
/-- **Which device is asked**: the ramdisk, unless a later mount fits. -/
theorem LastMount.getPathDevice_eq_iff (h : LastMount ramdisk before c after)
    (hb : CleanNames b) (ht : trail = [] ∨ trail = [slash]) (hc : components c.path <+: b) :
    ((getPathDevice root (absPath b ++ trail) (mountAll (before ++ c :: after))).1 = some ramdisk ↔
        ∀ m ∈ after, ¬components m.path <+: b) ∧
      ((∀ m ∈ after, ¬components m.path <+: b) →
        (getPathDevice root (absPath b ++ trail) (mountAll (before ++ c :: after))).2 =
          c.path.length) := by
  by_cases hlater : ∃ m ∈ after, components m.path <+: b
  · obtain ⟨first, last, rest, hafter, hfits, hrest⟩ := exists_last hlater
    have hsplit : before ++ c :: after = (before ++ c :: first) ++ last :: rest := by
      rw [hafter, List.append_assoc, List.cons_append]
    have hlast : last.filesystem ≠ ramdisk := h.after_ne last (by simp [hafter])
    rw [getPathDevice_eq h.clean hb ht hsplit hfits hrest]
    obtain ⟨m', hmem, hm'⟩ := hlater
    refine ⟨iff_of_false ?_ fun hall => hall m' hmem hm', fun hall => absurd hm' (hall m' hmem)⟩
    simpa using hlast
  · push Not at hlater
    rw [getPathDevice_eq h.clean hb ht rfl hc hlater]
    exact ⟨iff_of_true (congrArg some h.device) hlater, fun _ => rfl⟩

variable (root pwd buffer) in
/-- **When a string of the path of the mount and a name opens a node.** -/
theorem kfopenRamdisk_returns_iff (h : LastMount ramdisk before c after) (hb : CleanNames b)
    (ht : trail = [] ∨ trail = [slash])
    (hret : Holds ret (c.path ++ (absPath b ++ trail)))
    {r : Option RamdiskFileEntry × ℤ}
    (hopen : Returns (fun n => ramdiskOpen m rd (absPath b ++ trail) flags part n) r)
    {entry : RamdiskFileEntry} :
    Returns (fun n => kfopenRamdisk n m rd root (mountAll (before ++ c :: after)) ramdisk pwd ret
        buffer flags part) (some entry, 0) ↔
      (∀ m ∈ after, ¬components m.path <+: components c.path ++ b) ∧
        c.path.length + (absPath b ++ trail).length ≤ pathMax ∧ r = (some entry, 0) := by
  obtain ⟨hclean, hpath⟩ := CleanMount.path_eq (h.clean c (by simp))
  have hnames : CleanNames (components c.path ++ b) := fun n hn =>
    (List.mem_append.mp hn).elim (hclean n) (hb n)
  have hsplit : c.path ++ (absPath b ++ trail) = absPath (components c.path ++ b) ++ trail := by
    have happ : absPath (components c.path ++ b) = absPath (components c.path) ++ absPath b :=
      List.flatMap_append
    rw [happ, ← hpath, List.append_assoc]
  have habs : (c.path ++ (absPath b ++ trail)).head? = some slash := by
    obtain ⟨comps, hcomps, -, hc⟩ := h.clean c (by simp)
    obtain ⟨n, comps, rfl⟩ := List.exists_cons_of_ne_nil hcomps
    rw [hc]
    rfl
  by_cases hlen : c.path.length + (absPath b ++ trail).length ≤ pathMax
  · obtain ⟨hdevice, hvalue⟩ := h.getPathDevice_eq_iff root hnames ht
      (List.prefix_append _ b)
    have hlen' : (absPath (components c.path ++ b) ++ trail).length ≤ pathMax := by
      rw [← hsplit, List.length_append]
      exact hlen
    have heq : ∀ n > pathMax, kfopenRamdisk n m rd root (mountAll (before ++ c :: after)) ramdisk
        pwd ret buffer flags part =
          if ∀ m ∈ after, ¬components m.path <+: components c.path ++ b then
            ramdiskOpen m rd (absPath b ++ trail) flags part n
          else none := by
      intro n hn
      rw [hsplit] at hret habs
      rw [kfopenRamdisk_eq hret habs hnames ht hlen' hn]
      by_cases hall : ∀ m ∈ after, ¬components m.path <+: components c.path ++ b
      · rw [if_pos (hdevice.mpr hall), if_pos hall, hvalue hall, ← hsplit, List.drop_left]
      · rw [if_neg fun hd => hall (hdevice.mp hd), if_neg hall]
    constructor
    · intro hreturns
      obtain ⟨n, hn, hrun⟩ := hreturns.exists_ge (pathMax + 1)
      rw [heq n hn] at hrun
      split_ifs at hrun with hall
      obtain ⟨k, hk⟩ := hreturns
      obtain ⟨k', hk'⟩ := hopen
      have hmax := hk (max (max k k') (pathMax + 1)) (by omega)
      simp only at hmax hk'
      rw [heq _ (by omega), if_pos hall, hk' _ (by omega)] at hmax
      exact ⟨hall, hlen, Option.some.inj hmax⟩
    · rintro ⟨hall, -, rfl⟩
      obtain ⟨k, hk⟩ := hopen
      refine ⟨max k (pathMax + 1), fun n hn => ?_⟩
      refine (heq n (by omega)).trans ((if_pos hall).trans ?_)
      exact hk n (by omega)
  · -- the string is too long to be resolved
    refine iff_of_false ?_ fun hcon => hlen hcon.2.1
    rintro ⟨k, hk⟩
    have hrun := hk k le_rfl
    simp only at hrun
    rw [kfopenRamdisk_long hret habs (by rw [List.length_append]; omega)] at hrun
    simp at hrun

variable (root entry) in
/-- **A string that leads to a node or not**, for what `F_GETPATH` leaves: it is a question of
the mounts, of the length, and of what is opened on the ramdisk. -/
theorem reopens_iff_of_returns (h : LastMount ramdisk before c after) (hb : CleanNames b)
    (ht : trail = [] ∨ trail = [slash]) {name : List UInt8}
    (hname : absPath b ++ trail = slash :: name)
    (hentry : (entry.file = none ∧ name = []) ∨
      ∃ file, entry.file = some file ∧ Holds (fileName m file) name)
    {r : Option RamdiskFileEntry × ℤ}
    (hopen : ∀ part, Returns (fun n => ramdiskOpen m rd (slash :: name) flags part n) r) :
    Reopens m rd root (mountAll (before ++ c :: after)) ramdisk flags entry ↔
      (∀ m ∈ after, ¬components m.path <+: components c.path ++ b) ∧
        c.path.length + (slash :: name).length ≤ pathMax ∧
        ∃ entry', r = (some entry', 0) ∧ entry'.file = entry.file := by
  obtain ⟨hclean, hpath⟩ := CleanMount.path_eq (h.clean c (by simp))
  have hzero : 0 ∉ c.path := by
    have hmem := notMem_absPath_append hclean (Or.inl rfl)
    rwa [List.append_nil, ← hpath] at hmem
  have hdevice := deviceToPath_eq before h.device h.after_ne
  rw [← hname] at hopen ⊢
  constructor
  · intro hre
    obtain ⟨ret, entry', hget, hkopen, hfile⟩ := hre (fun _ => 0) (chars [slash]) (fun _ => 0)
      fun _ => 0
    obtain ⟨ret', hget', hret⟩ := ramdiskFnctl_getpath hdevice hzero hentry fun _ => 0
    obtain rfl : ret = ret' := congrArg Prod.snd (hget.unique hget')
    rw [← hname] at hret
    obtain ⟨hall, hlen, hr⟩ :=
      (kfopenRamdisk_returns_iff root _ _ h hb ht hret (hopen _)).mp hkopen
    exact ⟨hall, hlen, entry', hr, hfile⟩
  · rintro ⟨hall, hlen, entry', hr, hfile⟩ arg pwd buffer part
    obtain ⟨ret, hget, hret⟩ := ramdiskFnctl_getpath hdevice hzero hentry arg
    rw [← hname] at hret
    have hkopen := (kfopenRamdisk_returns_iff root pwd buffer h hb ht hret (hopen part)).mpr
      ⟨hall, hlen, hr⟩
    exact ⟨ret, entry', hget, hkopen, hfile⟩

variable (root entry) in
/-- **When a node is opened again**, on an image in memory. -/
theorem Loaded.reopens (hl : Loaded t m addr) (hroom : addr + 2 ^ 39 ≤ 2 ^ 64)
    (hwf : t.WellFormed) (hsize : t.packedSize < 2 ^ 32) (h : LastMount ramdisk before c after)
    (hnode : OpenNode t addr q entry.file) (hq : CleanNames q) (hflags : ReadFlags flags) :
    Reopens m (initRamdisk m addr) root (mountAll (before ++ c :: after)) ramdisk flags entry ↔
      q.length ≤ 1 ∧ (∀ m ∈ after, ¬components m.path <+: components c.path ++ q) ∧
        c.path.length + 1 + q.flatten.length ≤ pathMax := by
  generalize hfile : entry.file = file at hnode
  cases hnode with
  | root =>
    have hname : absPath [] ++ [slash] = [slash] := rfl
    have hopen : ∀ part, Returns
        (fun n => ramdiskOpen m (initRamdisk m addr) [slash] flags part n)
        (some ⟨none, 0, 1⟩, 0) := fun part => ⟨0, fun n _ => ramdiskOpen_slash hflags⟩
    rw [reopens_iff_of_returns root entry h hq (Or.inr rfl) hname (Or.inl ⟨hfile, rfl⟩) hopen]
    simp [hfile]
  | @below q k hk =>
    have hne : q ≠ [] := by
      rintro rfl
      simp at hk
    obtain ⟨pre, name, rfl⟩ := q.eq_nil_or_concat'.resolve_left hne
    obtain ⟨hd, x, hhead, hfind, -, hlast⟩ := hl.isNode hwf hsize hk
    have hheadName : hd.name = name := by simpa using hlast.symm
    have hfileName := Listing.isFileName_of_find hwf hfind name (by simp)
    have htree : t ≠ .nil := by
      rintro rfl
      simp [Listing.index] at hk
    have hclean : CleanNames [name] := fun n hn => hq n (List.mem_append_right pre hn)
    have hname : absPath [name] ++ [] = slash :: name := by simp [absPath]
    have hopen : ∀ part, Returns
        (fun n => ramdiskOpen m (initRamdisk m addr) (slash :: name) flags part n)
        ((t.index [name]).elim (none, -eNOENT) fun k =>
          (some ⟨some (addr + 16 + 80 * k), 0, 1⟩, 0)) := by
      intro part
      refine ⟨t.blocks, fun n hn => ?_⟩
      rw [← hname, List.append_nil]
      exact hl.ramdiskOpen_name hroom hwf hsize hfileName.isName hfileName.noNul
        (Nat.lt_succ_of_le hfileName.length_le) hflags htree hn
    rw [reopens_iff_of_returns root entry h hclean (Or.inl rfl) hname
      (Or.inr ⟨_, hfile, hheadName ▸ hhead.name⟩) hopen, hfile]
    -- what is opened is the node exactly if it is directly in the root
    have hsame : (∃ entry', (t.index [name]).elim (none, -eNOENT)
        (fun k => (some (⟨some (addr + 16 + 80 * k), 0, 1⟩ : RamdiskFileEntry), (0 : ℤ))) =
          (some entry', 0) ∧ entry'.file = some (addr + 16 + 80 * k)) ↔ pre = [] := by
      constructor
      · rintro ⟨entry', hopened, hentry⟩
        cases hindex : t.index [name] with
        | none => simp [hindex] at hopened
        | some j =>
          rw [hindex, Option.elim_some] at hopened
          simp only [Prod.mk.injEq, Option.some.injEq, and_true] at hopened
          rw [← hopened, Option.some.injEq] at hentry
          obtain rfl : j = k := by omega
          simpa using (Listing.index_inj hk hindex)
      · rintro rfl
        rw [List.nil_append] at hk
        exact ⟨_, by rw [hk, Option.elim_some], rfl⟩
    rw [hsame]
    constructor
    · rintro ⟨hall, hlen, rfl⟩
      refine ⟨by simp, hall, ?_⟩
      simpa [Nat.add_assoc, Nat.add_comm 1] using hlen
    · rintro ⟨hlength, hall, hlen⟩
      obtain rfl : pre = [] := by
        rw [List.length_append, List.length_singleton] at hlength
        exact List.length_eq_zero_iff.mp (by omega)
      refine ⟨hall, ?_, rfl⟩
      simpa [Nat.add_assoc, Nat.add_comm 1] using hlen

end RoundTrip

/-- The mount of the ramdisk. -/
def ramdiskMount : Mount := ⟨[120, 97, 110, 100, 105, 115, 107],
  [47, 109, 110, 116, 47, 114, 97, 109, 100, 105, 115, 107], 0, 1⟩

theorem lastMount_ramdiskMount : LastMount 1 [] ramdiskMount [] where
  clean := List.forall_mem_singleton.mpr
    ⟨[[109, 110, 116], [114, 97, 109, 100, 105, 115, 107]], by decide, by decide, rfl⟩
  device := rfl
  after_ne := by simp

end Xana
