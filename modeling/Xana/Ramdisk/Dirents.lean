import Mathlib.Data.List.Flatten
import Mathlib.Data.List.TakeDrop
import Xana.Ramdisk.Stray

/-!
# Listing a directory

`ramdisk_read_dirents64`. It writes one record after the other into the buffer of the caller
and keeps three accounts of them: `dirent` moves on by `d_reclen`, `count` goes down by the
size of a record without a name, and what is returned is the number of records times that size.
So what it returns is too little whenever it has written anything (`Xana.accounted_iff`).

When it stops comes from the header, too: from `root_ents` for the root, and otherwise from
`size`, which is the number of headers below the directory, at any depth. The number of its
entries is in `file_data`. So the entries of a directory are listed as they are exactly if
these are the same, that is, if there is nothing in the directories in it
(`Xana.listing_iff`).

The image is the memory that is read. The buffer is none of it, and is modelled by the list of
records that are written. Before it asks whether there is another entry, the code looks at the
length of its name, in whatever is there; the number of rounds of `strlen` is a parameter.
-/

namespace Xana

open Mem

/-- `sizeof(struct dirent64)`. -/
def direntSize : ℕ := 24

/-- Where `d_name` is in a `struct dirent64`. -/
def direntName : ℕ := 18

/-- **A record**: its address, and its `d_reclen` and `d_name`. -/
structure Dirent where
  addr : ℕ
  reclen : ℕ
  name : List UInt8
  deriving DecidableEq, Repr

namespace Dirent

/-- What is stored for a record, with the widths: `d_ino`, `d_off`, `d_reclen` and `d_name`. -/
def stores (r : Dirent) : List (ℕ × ℕ) :=
  [(r.addr, 2), (r.addr + 8, 8), (r.addr + 16, 2), (r.addr + direntName, r.name.length + 1)]

/-- The total of the `d_reclen` fields. -/
def total : List Dirent → ℕ
  | [] => 0
  | r :: records => r.reclen + total records

/-- Stepping by `d_reclen` from `p` to `e` visits the records, and no more. -/
def Visits : ℕ → ℕ → List Dirent → Prop
  | p, e, [] => e ≤ p
  | p, e, r :: records => p < e ∧ r.addr = p ∧ Visits (p + r.reclen) e records

/-- The records that a caller finds who steps by `d_reclen` to `e`: records are one behind the
other, so that those are the ones in front of it. -/
def found (e : ℕ) (records : List Dirent) : List Dirent := records.takeWhile fun r => r.addr < e

end Dirent

/-- `root_ents`. -/
def rootEnts (m : Mem) (rd : Ramdisk) : ℕ := m.load (rd.hdr + 12) 4

section Model

variable (m : Mem) (rd : Ramdisk)

/-- How `current` moves on, in both loops. -/
def nextEntry (current : ℕ) : ℕ :=
  if magic m current = fileEntry then advance current 1
  else if magic m current = dirEntry then advance current ((fileSize m current + 1) % 2 ^ 32)
  else current

/-- The loop of `ramdisk_read_dirents64`: the records that it writes, and `read_pos`. -/
def direntLoop (n maxEnts : ℕ) : ℕ → ℕ → ℕ → ℕ → ℕ → Option (List Dirent × ℕ)
  | 0, _, _, _, _ => none
  | rounds + 1, current, dirent, count, readPos => do
      let len ← strlen n (fileName m current)
      if count < direntSize + len + 1 then return ([], readPos)
      else if maxEnts ≤ readPos then return ([], readPos)
      else
        let reclen := (direntSize + len + 1) % 2 ^ 16
        let (records, readPos) ← direntLoop n maxEnts rounds (nextEntry m current)
          (dirent + reclen) (count - direntSize) (readPos + 1)
        return (⟨dirent, reclen, m.read (current + 6) len⟩ :: records, readPos)

/-- `max_ents`. -/
def maxEnts (entry : RamdiskFileEntry) : ℕ := entry.file.elim (rootEnts m rd) (fileSize m ·)

/-- The header behind the entries that have been read already. -/
def unreadEntry (entry : RamdiskFileEntry) : ℕ :=
  (nextEntry m)^[entry.readPos] (entry.file.elim rd.files (advance · 1))

/-- `ramdisk_read_dirents64`: the records, what it returns, and the handle. A round of the loop
takes something from `count`, so that there are no more than that. -/
def ramdiskReadDirents64 (n ptr count : ℕ) (entry : RamdiskFileEntry) :
    Option (List Dirent × ℕ × RamdiskFileEntry) :=
  if maxEnts m rd entry ≤ entry.readPos then some ([], 0, entry)
  else do
    let (records, readPos) ← direntLoop m n (maxEnts m rd entry) (count + 1)
      (unreadEntry m rd entry) ptr count entry.readPos
    return (records, records.length % 2 ^ 32 * direntSize, { entry with readPos })

end Model

/-! ### The accounts of a call -/

/-- **What is written is accounted for**: it is inside the buffer, the total of the `d_reclen`
fields is returned, and so stepping by them visits the records. -/
structure Accounted (ptr count : ℕ) (records : List Dirent) (ret : ℕ) : Prop where
  inside : ∀ r ∈ records, ∀ s ∈ r.stores, ptr ≤ s.1 ∧ s.1 + s.2 ≤ ptr + count
  total : ret = Dirent.total records
  visits : Dirent.Visits ptr (ptr + ret) records

/-- Records for these names, one behind the other. -/
def laid : ℕ → List (List UInt8) → List Dirent
  | _, [] => []
  | p, name :: names =>
      ⟨p, direntSize + name.length + 1, name⟩ :: laid (p + (direntSize + name.length + 1)) names

/-- Each record is longer than one without a name. -/
theorem le_total_laid (p : ℕ) (names : List (List UInt8)) :
    (direntSize + 1) * names.length ≤ Dirent.total (laid p names) := by
  induction names generalizing p with
  | nil => exact Nat.zero_le _
  | cons name names ih =>
    have hrest := ih (p + (direntSize + name.length + 1))
    simp only [laid, Dirent.total, List.length_cons, Nat.mul_succ]
    omega

section Accounts

variable {m : Mem} {rd : Ramdisk} {n max rounds current dirent count readPos readPos' ptr ret : ℕ}
variable {records : List Dirent} {entry entry' : RamdiskFileEntry}

/-- What a round of the loop is. -/
theorem direntLoop_cases
    (h : direntLoop m n max (rounds + 1) current dirent count readPos = some (records, readPos')) :
    ∃ len, strlen n (fileName m current) = some len ∧
      ((count < direntSize + len + 1 ∨ max ≤ readPos) ∧ records = [] ∧ readPos' = readPos ∨
        (direntSize + len + 1 ≤ count ∧ readPos < max) ∧ ∃ rest,
          direntLoop m n max rounds (nextEntry m current)
            (dirent + (direntSize + len + 1) % 2 ^ 16) (count - direntSize) (readPos + 1) =
              some (rest, readPos') ∧
          records = ⟨dirent, (direntSize + len + 1) % 2 ^ 16, m.read (current + 6) len⟩ ::
          rest) := by
  rw [direntLoop] at h
  cases hlen : strlen n (fileName m current) with
  | none => simp [hlen] at h
  | some len =>
    refine ⟨len, rfl, ?_⟩
    simp only [hlen, Option.bind_eq_bind, Option.bind_some, Option.pure_def] at h
    by_cases hcount : count < direntSize + len + 1
    · rw [if_pos hcount] at h
      simp only [Option.some.injEq, Prod.mk.injEq] at h
      exact Or.inl ⟨Or.inl hcount, h.1.symm, h.2.symm⟩
    · rw [if_neg hcount] at h
      by_cases hmax : max ≤ readPos
      · rw [if_pos hmax] at h
        simp only [Option.some.injEq, Prod.mk.injEq] at h
        exact Or.inl ⟨Or.inr hmax, h.1.symm, h.2.symm⟩
      · rw [if_neg hmax] at h
        obtain ⟨⟨rest, last⟩, hloop, hrest⟩ := Option.bind_eq_some_iff.mp h
        simp only [Option.some.injEq, Prod.mk.injEq] at hrest
        obtain ⟨rfl, rfl⟩ := hrest
        exact Or.inr ⟨⟨by omega, by omega⟩, rest, hloop, rfl⟩

/-- **The position counts the records**, and does not pass the end. -/
theorem direntLoop_readPos
    (h : direntLoop m n max rounds current dirent count readPos = some (records, readPos')) :
    readPos' = readPos + records.length ∧ (records ≠ [] → readPos' ≤ max) := by
  induction rounds generalizing current dirent count readPos records with
  | zero => simp [direntLoop] at h
  | succ rounds ih =>
    obtain ⟨len, -, ⟨-, rfl, rfl⟩ | ⟨⟨-, hmax⟩, rest, hloop, rfl⟩⟩ := direntLoop_cases h
    · exact ⟨rfl, fun hne => absurd rfl hne⟩
    · obtain ⟨hpos, hle⟩ := ih hloop
      rw [List.length_cons]
      refine ⟨by omega, fun _ => ?_⟩
      by_cases hrest : rest = []
      · rw [hrest, List.length_nil] at hpos
        omega
      · exact hle hrest

/-- **The records are one behind the other.** -/
theorem direntLoop_laid
    (h : direntLoop m n max rounds current dirent count readPos = some (records, readPos'))
    (hnames : ∀ r ∈ records, direntSize + r.name.length + 1 < 2 ^ 16) :
    records = laid dirent (records.map Dirent.name) := by
  induction rounds generalizing current dirent count readPos records with
  | zero => simp [direntLoop] at h
  | succ rounds ih =>
    obtain ⟨len, -, ⟨-, rfl, rfl⟩ | ⟨-, rest, hloop, rfl⟩⟩ := direntLoop_cases h
    · rfl
    · obtain ⟨hname, hnames⟩ := List.forall_mem_cons.mp hnames
      have hrest := ih hloop hnames
      simp only [length_read] at hname
      rw [Nat.mod_eq_of_lt hname] at hrest ⊢
      simp only [List.map_cons, laid, length_read]
      exact congrArg (_ :: ·) hrest

/-- **When a call writes nothing.** -/
theorem records_eq_nil_iff
    (h : ramdiskReadDirents64 m rd n ptr count entry = some (records, ret, entry')) :
    records = [] ↔ maxEnts m rd entry ≤ entry.readPos ∨
      ∀ len, strlen n (fileName m (unreadEntry m rd entry)) = some len →
        count < direntSize + len + 1 := by
  rw [ramdiskReadDirents64] at h
  split_ifs at h with hmax
  · simp only [Option.some.injEq, Prod.mk.injEq] at h
    simp [hmax, h.1.symm]
  · obtain ⟨⟨written, readPos'⟩, hloop, hcall⟩ := Option.bind_eq_some_iff.mp h
    simp only [Option.pure_def, Option.some.injEq, Prod.mk.injEq] at hcall
    obtain ⟨rfl, -, -⟩ := hcall
    obtain ⟨len, hlen, ⟨hstop, rfl, -⟩ | ⟨⟨hcount, -⟩, rest, -, rfl⟩⟩ := direntLoop_cases hloop
    · simp only [hlen, Option.some.injEq, forall_eq', true_iff]
      exact hstop.symm
    · simp only [reduceCtorEq, hlen, Option.some.injEq, forall_eq', false_iff, not_or, not_lt]
      exact ⟨by omega, hcount⟩

/-- What a call returns, and where it leaves the handle. -/
theorem ramdiskReadDirents64_readPos
    (h : ramdiskReadDirents64 m rd n ptr count entry = some (records, ret, entry')) :
    ret = records.length % 2 ^ 32 * direntSize ∧
      entry' = { entry with readPos := entry.readPos + records.length } ∧
      (records ≠ [] → entry'.readPos ≤ maxEnts m rd entry) := by
  rw [ramdiskReadDirents64] at h
  split_ifs at h with hmax
  · simp only [Option.some.injEq, Prod.mk.injEq] at h
    obtain ⟨rfl, rfl, rfl⟩ := h
    exact ⟨rfl, rfl, fun hne => absurd rfl hne⟩
  · obtain ⟨⟨written, readPos'⟩, hloop, hcall⟩ := Option.bind_eq_some_iff.mp h
    simp only [Option.pure_def, Option.some.injEq, Prod.mk.injEq] at hcall
    obtain ⟨rfl, rfl, rfl⟩ := hcall
    obtain ⟨rfl, hle⟩ := direntLoop_readPos hloop
    exact ⟨rfl, rfl, hle⟩

/-- The records of a call are one behind the other. -/
theorem ramdiskReadDirents64_laid
    (h : ramdiskReadDirents64 m rd n ptr count entry = some (records, ret, entry'))
    (hnames : ∀ r ∈ records, direntSize + r.name.length + 1 < 2 ^ 16) :
    records = laid ptr (records.map Dirent.name) := by
  rw [ramdiskReadDirents64] at h
  split_ifs at h with hmax
  · simp only [Option.some.injEq, Prod.mk.injEq] at h
    obtain ⟨rfl, -, -⟩ := h
    rfl
  · obtain ⟨⟨written, readPos'⟩, hloop, hcall⟩ := Option.bind_eq_some_iff.mp h
    simp only [Option.pure_def, Option.some.injEq, Prod.mk.injEq] at hcall
    obtain ⟨rfl, -, -⟩ := hcall
    exact direntLoop_laid hloop hnames

/-- **A call accounts for what it writes** exactly if it writes nothing: if the position has
reached the end, or the first entry does not fit. -/
theorem accounted_iff
    (h : ramdiskReadDirents64 m rd n ptr count entry = some (records, ret, entry'))
    (hnames : ∀ r ∈ records, direntSize + r.name.length + 1 < 2 ^ 16) :
    Accounted ptr count records ret ↔ maxEnts m rd entry ≤ entry.readPos ∨
      ∀ len, strlen n (fileName m (unreadEntry m rd entry)) = some len →
        count < direntSize + len + 1 := by
  rw [← records_eq_nil_iff h]
  obtain ⟨hret, -, -⟩ := ramdiskReadDirents64_readPos h
  constructor
  · rintro ⟨-, htotal, -⟩
    -- each record takes 25 bytes, and 24 are returned for it
    have hle := le_total_laid ptr (records.map Dirent.name)
    rw [← ramdiskReadDirents64_laid h hnames, List.length_map] at hle
    have hmod := Nat.mod_le records.length (2 ^ 32)
    have hsize : direntSize = 24 := rfl
    rw [hsize] at hret hle
    rw [← List.length_eq_zero_iff]
    omega
  · rintro rfl
    obtain rfl : ret = 0 := by simpa using hret
    exact ⟨by simp, rfl, Nat.le_refl ptr⟩

end Accounts

/-- A tree with two files, one of them with a name of 16 letters. -/
def twoNames : Listing := .file (List.replicate 16 97) [1] (.file [98] [2] .nil)

/-- Its image, at address 4096. -/
def twoNamesMem : Mem := Mem.write (fun _ => 0) 4096 twoNames.image

/-- Both records are written into 50 bytes, the second one across their end. -/
theorem dirents_twoNames :
    ramdiskReadDirents64 twoNamesMem (initRamdisk twoNamesMem 4096) 64 65536 50 ⟨none, 0, 1⟩ =
      some ([⟨65536, 41, List.replicate 16 97⟩, ⟨65577, 26, [98]⟩], 48, ⟨none, 2, 1⟩) := by
  decide +kernel

theorem accounted_iff_twoNames :
    ¬Accounted 65536 50 [⟨65536, 41, List.replicate 16 97⟩, ⟨65577, 26, [98]⟩] 48 := by
  rw [accounted_iff dirents_twoNames (by decide)]
  decide +kernel

/-- Not everything that is written is accounted for. -/
theorem not_accounted : ¬∀ (m : Mem) (rd : Ramdisk) (n ptr count : ℕ)
    (entry entry' : RamdiskFileEntry) (records : List Dirent) (ret : ℕ),
      ramdiskReadDirents64 m rd n ptr count entry = some (records, ret, entry') →
      (∀ r ∈ records, direntSize + r.name.length + 1 < 2 ^ 16) →
        Accounted ptr count records ret := by
  intro hall
  have htotal := (hall _ _ _ _ _ _ _ _ _ dirents_twoNames (by decide)).total
  revert htotal
  decide

/-! ### The loop over entries -/

/-- The headers of entries with these names, as `current` moves on over them. -/
def Entries (m : Mem) : ℕ → List (List UInt8) → Prop
  | _, [] => True
  | a, name :: names =>
      (Holds (fileName m a) name ∧ name.length < 64) ∧ Entries m (nextEntry m a) names

section Loop

variable {m : Mem} {n max rounds current dirent count readPos readPos' len p e k : ℕ}
variable {names : List (List UInt8)} {records : List Dirent} {s : ℕ → UInt8}

@[simp] theorem length_laid : (laid p names).length = names.length := by
  induction names generalizing p with
  | nil => rfl
  | cons name names ih => rw [laid, List.length_cons, List.length_cons, ih]

@[simp] theorem map_name_laid : (laid p names).map Dirent.name = names := by
  induction names generalizing p with
  | nil => rfl
  | cons name names ih => rw [laid, List.map_cons, ih]

/-- **Which records a caller finds**: all of them, exactly if the last one begins in front of
the end. -/
theorem found_laid_iff (hne : names ≠ []) : Dirent.found e (laid p names) = laid p names ↔
    p + (direntSize + 1) * (names.length - 1) + names.dropLast.flatten.length < e := by
  induction names generalizing p with
  | nil => exact absurd rfl hne
  | cons name names ih =>
    rw [laid, Dirent.found, List.takeWhile_cons]
    cases names with
    | nil =>
      by_cases hp : p < e
      · simp [hp, laid]
      · simp [hp]
    | cons name' names =>
      have htail := ih (p := p + (direntSize + name.length + 1)) (List.cons_ne_nil _ _)
      rw [Dirent.found] at htail
      have hsize : direntSize = 24 := rfl
      simp only [List.dropLast_cons_cons, List.flatten_cons, List.length_append, List.length_cons,
        Nat.add_sub_cancel, hsize] at htail ⊢
      by_cases hp : p < e
      · simp only [hp, decide_true, if_true, List.cons.injEq, true_and]
        rw [htail]
        omega
      · simp only [hp, decide_false, Bool.false_eq_true, if_false, reduceCtorEq, false_iff]
        omega

theorem Entries.drop (h : Entries m current names) (hk : k ≤ names.length) :
    Entries m ((nextEntry m)^[k] current) (names.drop k) := by
  induction k generalizing current names with
  | zero => exact h
  | succ k ih =>
    cases names with
    | nil => simp at hk
    | cons name names =>
      rw [Function.iterate_succ_apply, List.drop_succ_cons]
      exact ih h.2 (Nat.le_of_succ_le_succ hk)

variable (dirent count readPos) in
/-- **The loop over the entries that are left** writes the first of them, in order. -/
theorem direntLoop_entries (h : Entries m current names) (hn : 64 ≤ n)
    (hend : strlen n (fileName m ((nextEntry m)^[names.length] current)) = some len)
    (hrounds : count < rounds) : ∃ k ≤ names.length,
      direntLoop m n (readPos + names.length) rounds current dirent count readPos =
          some (laid dirent (names.take k), readPos + k) ∧
        (∀ name, names.head? = some name → direntSize + name.length + 1 ≤ count → 0 < k) ∧
        (direntSize * names.length + 64 ≤ count → k = names.length) := by
  have hsize : direntSize = 24 := rfl
  obtain ⟨rounds, rfl⟩ := Nat.exists_eq_succ_of_ne_zero (Nat.ne_zero_of_lt hrounds)
  induction names generalizing current dirent count readPos rounds with
  | nil =>
    have hlen : strlen n (fileName m current) = some len := hend
    refine ⟨0, le_rfl, ?_, by simp, fun _ => rfl⟩
    rw [direntLoop, hlen]
    simp [laid]
  | cons name names ih =>
    obtain ⟨⟨hname, hlt⟩, hrest⟩ := h
    have hlen := strlen_eq hname (hlt.trans_le hn)
    by_cases hcount : count < direntSize + name.length + 1
    · refine ⟨0, Nat.zero_le _, ?_, ?_, fun hbig => ?_⟩
      · rw [direntLoop, hlen, Option.bind_eq_bind, Option.bind_some, if_pos hcount]
        rfl
      · simp only [List.head?_cons, Option.some.injEq, forall_eq']
        omega
      · rw [List.length_cons, hsize] at hbig
        omega
    · have hmax : ¬readPos + (names.length + 1) ≤ readPos := by omega
      have hread : m.read (current + 6) name.length = name := by
        have hat := (holds_shift_iff.mp hname).2
        rw [at_append] at hat
        exact hat.1
      have hpos : readPos + (names.length + 1) = readPos + 1 + names.length := by omega
      have hreclen : (direntSize + name.length + 1) % 2 ^ 16 = direntSize + name.length + 1 :=
        Nat.mod_eq_of_lt (by omega)
      obtain ⟨rounds, rfl⟩ := Nat.exists_eq_succ_of_ne_zero (show rounds ≠ 0 by omega)
      obtain ⟨k, hk, hloop, -, hbig⟩ := ih (dirent + (direntSize + name.length + 1))
        (count - direntSize) (readPos + 1) hrest hend rounds (by omega)
      refine ⟨k + 1, Nat.succ_le_succ hk, ?_, fun _ _ _ => Nat.succ_pos k, fun hlarge => ?_⟩
      · rw [direntLoop, hlen]
        simp only [List.length_cons, Option.bind_eq_bind, Option.bind_some, if_neg hcount,
          if_neg hmax, hread, hreclen]
        rw [hpos, hloop]
        simp only [Option.bind_some, Option.pure_def, List.take_succ_cons, laid, Option.some.injEq,
          Prod.mk.injEq, true_and]
        omega
      · rw [List.length_cons, hsize] at hlarge
        rw [List.length_cons, hbig (by rw [hsize]; omega)]

/-- **With a large buffer, the loop goes on to the end**, and looks at the name there. -/
theorem direntLoop_full
    (h : direntLoop m n max rounds current dirent count readPos = some (records, readPos'))
    {bound : ℕ} (hbound : ∀ i < max - readPos, ∀ len,
      strlen n (fileName m ((nextEntry m)^[i] current)) = some len → len ≤ bound)
    (hcount : direntSize * (max - readPos) + bound + 1 ≤ count) (hle : readPos ≤ max) :
    readPos' = max ∧
      ∃ len, strlen n (fileName m ((nextEntry m)^[max - readPos] current)) = some len := by
  have hsize : direntSize = 24 := rfl
  induction rounds generalizing current dirent count readPos records with
  | zero => simp [direntLoop] at h
  | succ rounds ih =>
    obtain ⟨len, hlen, ⟨hstop, -, rfl⟩ | ⟨⟨hfits, hmax⟩, rest, hloop, -⟩⟩ := direntLoop_cases h
    · by_cases hmax : max ≤ readPos'
      · obtain rfl : readPos' = max := le_antisymm hle hmax
        rw [Nat.sub_self]
        exact ⟨rfl, len, hlen⟩
      · have hsmall := hbound 0 (by omega) len hlen
        rw [hsize] at hcount hstop
        omega
    · obtain ⟨d, hd⟩ : ∃ d, max - readPos = d + 1 := ⟨max - readPos - 1, by omega⟩
      have hd' : max - (readPos + 1) = d := by omega
      rw [hd, hsize] at hcount
      rw [hd] at hbound ⊢
      rw [Function.iterate_succ_apply, ← hd']
      refine ih hloop (fun i hi len hlen => ?_) (by rw [hsize]; omega) (by omega)
      refine hbound (i + 1) (by omega) len ?_
      rw [Function.iterate_succ_apply]
      exact hlen

theorem strlen_some (h : strlen n s = some len) : s len = 0 ∧ ∀ i < len, s i ≠ 0 := by
  induction n generalizing s len with
  | zero => simp [strlen] at h
  | succ n ih =>
    rw [strlen] at h
    split_ifs at h with h0
    · obtain ⟨l, hl, rfl⟩ := Option.map_eq_some_iff.mp h
      obtain ⟨hend, hbefore⟩ := ih hl
      refine ⟨hend, fun i hi => ?_⟩
      cases i with
      | zero => exact h0
      | succ i => exact hbefore i (Nat.lt_of_succ_lt_succ hi)
    · obtain rfl : 0 = len := by simpa using h
      exact ⟨not_not.mp h0, by simp⟩

/-- Where there is a `NUL`, there is a length. -/
theorem exists_strlen {i : ℕ} (h : s i = 0) : ∃ len, strlen (len + 1) s = some len := by
  induction i generalizing s with
  | zero => exact ⟨0, if_neg (not_not.mpr h)⟩
  | succ i ih =>
    by_cases h0 : s 0 = 0
    · exact ⟨0, if_neg (not_not.mpr h0)⟩
    · obtain ⟨len, hlen⟩ := ih (s := fun i => s (i + 1)) h
      refine ⟨len + 1, ?_⟩
      rw [strlen, if_pos h0, hlen]
      rfl

/-- Some names have no `NUL`, and then there is no length; but the lengths that there are have
a bound. -/
theorem exists_strlen_le (name : ℕ → ℕ → UInt8) (k : ℕ) :
    ∃ bound, ∀ i < k, ∀ n len, strlen n (name i) = some len → len ≤ bound := by
  induction k with
  | zero => exact ⟨0, by simp⟩
  | succ k ih =>
    obtain ⟨bound, hbound⟩ := ih
    obtain ⟨last, hlast⟩ : ∃ last, ∀ n len, strlen n (name k) = some len → len ≤ last := by
      by_cases hnul : ∃ j, name k j = 0
      · obtain ⟨j, hj⟩ := hnul
        exact ⟨j, fun n len hlen => not_lt.mp fun hlt => (strlen_some hlen).2 j hlt hj⟩
      · exact ⟨0, fun n len hlen => absurd ⟨len, (strlen_some hlen).1⟩ hnul⟩
    refine ⟨bound + last, fun i hi n len hlen => ?_⟩
    rcases Nat.lt_succ_iff_lt_or_eq.mp hi with hlt | rfl
    · exact (hbound i hlt n len hlen).trans (Nat.le_add_right _ _)
    · exact (hlast n len hlen).trans (Nat.le_add_left _ _)

end Loop

/-! ### A directory in the image -/

/-- **A directory that can be open**: the root, or one that a list of names leads to, with the
header that `ramdisk_open` keeps of it. -/
inductive OpenDir (t : Listing) (addr : ℕ) : Listing → Option ℕ → Prop
  | root : OpenDir t addr t none
  | below {q : List (List UInt8)} {k : ℕ} {sub : Listing} : t.index q = some k →
      t.find q = some (.dir sub) → OpenDir t addr sub (some (addr + 16 + 80 * k))

/-- Where the headers of the entries of an open directory begin. -/
def entriesAt (addr : ℕ) (file : Option ℕ) : ℕ := file.elim (addr + 16) (· + 80)

/-- What a listing of a directory goes by: the headers of its entries, what is behind them, and
`max_ents`. -/
structure DirAt (m : Mem) (rd : Ramdisk) (file : Option ℕ) (sub : Listing) (first : ℕ) : Prop where
  first_eq : file.elim rd.files (advance · 1) = first
  entries : Entries m first sub.names
  behind : (nextEntry m)^[sub.length] first = first + 80 * sub.blocks
  max_eq : ∀ i d, maxEnts m rd ⟨file, i, d⟩ = file.elim sub.length fun _ => sub.blocks
  blocks_lt : sub.blocks < 2 ^ 32

section Image

variable {t sub : Listing} {m : Mem} {addr a k pos : ℕ} {q : List (List UInt8)} {file : Option ℕ}

theorem Listing.length_names (t : Listing) : t.names.length = t.length := by
  induction t with
  | nil => rfl
  | file name content rest ih => rw [names, List.length_cons, ih, length]
  | dir name sub rest _ ih => rw [names, List.length_cons, ih, length]

/-- **The headers of the entries of a directory**, and what is behind them. -/
theorem entries_headers (hwf : t.WellFormed) (hat : m.At a ((t.headers pos).flatMap Header.bytes))
    (hpos : pos + t.data.length < 2 ^ 32) (hblocks : t.blocks < 2 ^ 32)
    (hend : a + 80 * t.blocks < 2 ^ 64) :
    Entries m a t.names ∧ (nextEntry m)^[t.length] a = a + 80 * t.blocks := by
  induction t generalizing a pos with
  | nil => exact ⟨trivial, rfl⟩
  | file name content rest ih =>
    have hb : (Listing.file name content rest).blocks = rest.blocks + 1 := rfl
    have hlen : (Listing.file name content rest).data.length = content.length + rest.data.length :=
      List.length_append
    have hhead := Listing.headerAt_file hwf hat hpos (by omega)
    obtain ⟨hname, -, hrest⟩ := hwf
    obtain ⟨-, hat⟩ := Listing.at_headers_file hname hat
    have hnext : nextEntry m a = a + 80 :=
      (if_pos hhead.magic).trans (advance_of_lt (k := 1) (by omega))
    obtain ⟨hent, hbehind⟩ := ih hrest hat (by omega) (by omega) (by omega)
    refine ⟨⟨⟨hhead.name, Nat.lt_succ_of_le hname.length_le⟩, by rwa [hnext]⟩, ?_⟩
    rw [Listing.length, Function.iterate_succ_apply, hnext, hbehind]
    omega
  | dir name sub rest _ ih =>
    have hb : (Listing.dir name sub rest).blocks = sub.blocks + rest.blocks + 1 := rfl
    have hlen : (Listing.dir name sub rest).data.length = sub.data.length + rest.data.length :=
      List.length_append
    have hsublen := sub.length_le_blocks
    have hhead := Listing.headerAt_dir hwf hat hpos (by omega)
    obtain ⟨hname, -, hsub, hrest⟩ := hwf
    obtain ⟨-, hat₂, hat₃⟩ := Listing.at_headers_dir hname hsub hat
    have hmod : (sub.blocks + 1) % 2 ^ 32 = sub.blocks + 1 := Nat.mod_eq_of_lt (by omega)
    have hne : dirEntry ≠ fileEntry := by decide
    have hnext : nextEntry m a = a + 80 + 80 * sub.blocks := by
      rw [nextEntry, if_neg (by rw [hhead.magic]; exact hne), if_pos hhead.magic, hhead.size, hmod,
        advance_of_lt (k := sub.blocks + 1) (by omega)]
      omega
    obtain ⟨hent, hbehind⟩ := ih hrest hat₃ (by omega) (by omega) (by omega)
    refine ⟨⟨⟨hhead.name, Nat.lt_succ_of_le hname.length_le⟩, by rwa [hnext]⟩, ?_⟩
    rw [Listing.length, Function.iterate_succ_apply, hnext, hbehind]
    omega

/-- The headers below a directory are behind its own. -/
theorem at_headers_of_index (hwf : t.WellFormed)
    (hat : m.At a ((t.headers pos).flatMap Header.bytes)) (hk : t.index q = some k)
    (hfind : t.find q = some (.dir sub)) : ∃ pos',
      m.At (a + 80 * (k + 1)) ((sub.headers pos').flatMap Header.bytes) ∧
        pos' + sub.data.length ≤ pos + t.data.length ∧ k + 1 + sub.blocks ≤ t.blocks ∧
        sub.WellFormed := by
  induction t generalizing a pos q k with
  | nil => simp at hfind
  | file name content rest ih =>
    obtain ⟨hname, -, hrest⟩ := hwf
    obtain ⟨c, q, rfl⟩ := Listing.exists_cons_of_find hfind
    have hlen : (Listing.file name content rest).data.length = content.length + rest.data.length :=
      List.length_append
    obtain ⟨-, hat⟩ := Listing.at_headers_file hname hat
    rw [Listing.index_file] at hk
    rw [Listing.find_file] at hfind
    by_cases hc : c = name
    · rw [if_pos hc] at hfind
      split_ifs at hfind
      simp at hfind
    · rw [if_neg hc] at hk hfind
      obtain ⟨j, hj, rfl⟩ := Option.map_eq_some_iff.mp hk
      obtain ⟨pos', hat', hdata, hblocks, hsub⟩ := ih hrest hat hj hfind
      have haddr : a + 80 * (j + 1 + 1) = a + 80 + 80 * (j + 1) := by omega
      rw [haddr, Listing.blocks]
      exact ⟨pos', hat', by omega, by omega, hsub⟩
  | dir name inner rest ihsub ihrest =>
    obtain ⟨hname, -, hinner, hrest⟩ := hwf
    obtain ⟨c, q, rfl⟩ := Listing.exists_cons_of_find hfind
    have hlen : (Listing.dir name inner rest).data.length =
        inner.data.length + rest.data.length := List.length_append
    obtain ⟨-, hat₂, hat₃⟩ := Listing.at_headers_dir hname hinner hat
    rw [Listing.index_dir] at hk
    rw [Listing.find_dir] at hfind
    rw [Listing.blocks]
    by_cases hc : c = name
    · rw [if_pos hc] at hk hfind
      by_cases hq : q = []
      · -- this is the directory
        rw [if_pos hq] at hk hfind
        obtain rfl : 0 = k := by simpa using hk
        obtain rfl : inner = sub := by simpa using hfind
        exact ⟨pos, hat₂, by omega, by omega, hinner⟩
      · rw [if_neg hq] at hk hfind
        obtain ⟨j, hj, rfl⟩ := Option.map_eq_some_iff.mp hk
        obtain ⟨pos', hat', hdata, hblocks, hsub⟩ := ihsub hinner hat₂ hj hfind
        have haddr : a + 80 * (j + 1 + 1) = a + 80 + 80 * (j + 1) := by omega
        rw [haddr]
        exact ⟨pos', hat', by omega, by omega, hsub⟩
    · -- past the headers below it
      rw [if_neg hc] at hk hfind
      obtain ⟨j, hj, rfl⟩ := Option.map_eq_some_iff.mp hk
      obtain ⟨pos', hat', hdata, hblocks, hsub⟩ := ihrest hrest hat₃ hj hfind
      have haddr : a + 80 * (j + (inner.blocks + 1) + 1) =
          a + 80 + 80 * inner.blocks + 80 * (j + 1) := by omega
      rw [haddr]
      exact ⟨pos', hat', by omega, by omega, hsub⟩

/-- **An open directory is one that can be listed.** -/
theorem Loaded.dirAt (hl : Loaded t m addr) (hroom : addr + 2 ^ 39 ≤ 2 ^ 64) (hwf : t.WellFormed)
    (hsize : t.packedSize < 2 ^ 32) (hd : OpenDir t addr sub file) :
    DirAt m (initRamdisk m addr) file sub (entriesAt addr file) := by
  obtain ⟨hdata, hheaders, -⟩ := hl.parts hwf hsize
  have hpacked : t.packedSize = 16 + 80 * t.blocks + t.data.length := rfl
  cases hd with
  | root =>
    obtain ⟨hent, hbehind⟩ := entries_headers hwf hheaders (by omega) (by omega) (by omega)
    refine ⟨rfl, hent, hbehind, fun i d => ?_, by omega⟩
    have hat := hl.at_image
    rw [Listing.image, at_append, at_append, at_append] at hat
    obtain ⟨⟨⟨-, hroot⟩, -⟩, -⟩ := hat
    simp only [List.length_append, length_leBytes] at hroot
    have hle := t.length_le_blocks
    exact hroot.load_leBytes (by omega)
  | @below q k _ hk hfind =>
    obtain ⟨pos', hat, hlen, hblocks, hsub⟩ := at_headers_of_index hwf hheaders hk hfind
    have hfirst : addr + 16 + 80 * (k + 1) = addr + 16 + 80 * k + 80 := by omega
    rw [hfirst] at hat
    obtain ⟨hent, hbehind⟩ := entries_headers hsub hat (by omega) (by omega) (by omega)
    refine ⟨advance_of_lt (k := 1) (by omega), hent, hbehind, fun i d => ?_, by omega⟩
    obtain ⟨h, x, hhead, hfind', hx, -⟩ := hl.isNode hwf hsize hk
    rw [hfind] at hfind'
    obtain rfl := Option.some.inj hfind'
    exact hhead.size.trans hx.2.1

end Image

/-! ### Call after call -/

/-- What a call leaves its caller. -/
structure Report where
  ptr : ℕ
  records : List Dirent
  ret : ℕ

namespace Report

/-- The names in the buffers. -/
def written (reports : List Report) : List (List UInt8) :=
  reports.flatMap fun r => r.records.map Dirent.name

/-- The names that a caller finds in front of what was returned. -/
def found (reports : List Report) : List (List UInt8) :=
  reports.flatMap fun r => (Dirent.found (r.ptr + r.ret) r.records).map Dirent.name

end Report

section Calls

variable (m : Mem) (rd : Ramdisk)

/-- **Calls until one returns 0**, each with the next of the buffers. -/
def readAll (n : ℕ) : ℕ → (ℕ → ℕ × ℕ) → RamdiskFileEntry → Option (List Report)
  | 0, _, _ => none
  | rounds + 1, bufs, entry => do
      let (records, ret, entry) ← ramdiskReadDirents64 m rd n (bufs 0).1 (bufs 0).2 entry
      if ret = 0 then return [⟨(bufs 0).1, records, ret⟩]
      else return ⟨(bufs 0).1, records, ret⟩ :: (← readAll n rounds (fun i => bufs (i + 1)) entry)

/-- The calls come to an end, and leave these names in the buffers. -/
def Lists (bufs : ℕ → ℕ × ℕ) (entry : RamdiskFileEntry) (names : List (List UInt8)) : Prop :=
  ∃ n rounds reports, readAll m rd n rounds bufs entry = some reports ∧
    Report.written reports = names

/-- And the caller finds these names in them. -/
def Shows (bufs : ℕ → ℕ × ℕ) (entry : RamdiskFileEntry) (names : List (List UInt8)) : Prop :=
  ∃ n rounds reports, readAll m rd n rounds bufs entry = some reports ∧
    Report.written reports = names ∧ Report.found reports = names

end Calls

/-- Buffers large enough for any single one of the entries. -/
def LargeFor (names : List (List UInt8)) (bufs : ℕ → ℕ × ℕ) : Prop :=
  ∀ i, ∀ name ∈ names, direntSize + name.length + 1 ≤ (bufs i).2

/-- **A directory with nothing in the directories in it**, or the root; and somewhere behind
its entries there is a `NUL`. -/
structure Listable (m : Mem) (first : ℕ) (sub : Listing) (file : Option ℕ) : Prop where
  flat : file = none ∨ sub.blocks = sub.length
  ends : sub = .nil ∨ ∃ i, fileName m (first + 80 * sub.blocks) i = 0

/-- **Names so short** that 24 bytes for each record reach into the last record. -/
def ShortNames (names : List (List UInt8)) : Prop :=
  names.length + names.dropLast.flatten.length < 25

section Runs

variable {m : Mem} {rd : Ramdisk} {n rounds first i d k : ℕ} {bufs : ℕ → ℕ × ℕ}
variable {sub : Listing} {file : Option ℕ} {entry : RamdiskFileEntry} {reports : List Report}
variable {names : List (List UInt8)}

theorem found_sublist (reports : List Report) :
    (Report.found reports).Sublist (Report.written reports) := by
  refine List.Sublist.flatMap_right reports fun r _ => ?_
  exact (List.takeWhile_sublist _).map _

theorem Entries.length_lt {a : ℕ} (h : Entries m a names) : ∀ name ∈ names, name.length < 64 := by
  induction names generalizing a with
  | nil => simp
  | cons name names ih => exact List.forall_mem_cons.mpr ⟨h.1.2, ih h.2⟩

/-- Part of the names are short, too. -/
theorem ShortNames.take_drop (h : ShortNames names) : ShortNames ((names.drop i).take k) := by
  have hsub : (((names.drop i).take k).dropLast).Sublist names.dropLast := by
    rw [List.dropLast_take_eq_take_dropLast, List.dropLast_drop_eq_drop_dropLast]
    exact (List.take_sublist _ _).trans (List.drop_sublist _ _)
  have hlen := hsub.flatten.length_le
  have hle : ((names.drop i).take k).length ≤ names.length :=
    ((List.take_sublist _ _).trans (List.drop_sublist _ _)).length_le
  rw [ShortNames] at h ⊢
  omega

/-- **A call, somewhere in the directory.** -/
theorem DirAt.call (h : DirAt m rd file sub first) (hl : Listable m first sub file) (hn : 64 ≤ n)
    (hend : sub = .nil ∨ ∃ len, strlen n (fileName m (first + 80 * sub.blocks)) = some len)
    (ptr count : ℕ) (hi : i ≤ sub.length) : ∃ k ≤ sub.length - i,
      ramdiskReadDirents64 m rd n ptr count ⟨file, i, d⟩ =
          some (laid ptr ((sub.names.drop i).take k), k * direntSize, ⟨file, i + k, d⟩) ∧
        (i < sub.length → (∀ name ∈ sub.names, direntSize + name.length + 1 ≤ count) → 0 < k) ∧
        (direntSize * sub.length + 64 ≤ count → k = sub.length - i) := by
  have hmax : maxEnts m rd ⟨file, i, d⟩ = sub.length := by
    rw [h.max_eq]
    rcases hl.flat with rfl | heq
    · rfl
    · cases file <;> simp [heq]
  have hlength := sub.length_names
  rcases hi.lt_or_eq with hlt | rfl
  · obtain ⟨len, hlen⟩ := hend.resolve_left (by rintro rfl; simp [Listing.length] at hlt)
    have hdrop : (sub.names.drop i).length = sub.length - i := by rw [List.length_drop, hlength]
    have hcurrent : unreadEntry m rd ⟨file, i, d⟩ = (nextEntry m)^[i] first :=
      congrArg _ h.first_eq
    have hbehind : (nextEntry m)^[(sub.names.drop i).length] ((nextEntry m)^[i] first) =
        first + 80 * sub.blocks := by
      rw [hdrop, ← Function.iterate_add_apply, Nat.sub_add_cancel hi, h.behind]
    obtain ⟨k, hk, hloop, hpos, hbig⟩ := direntLoop_entries ptr count i
      (h.entries.drop (k := i) (by omega)) hn (by rw [hbehind]; exact hlen)
      (Nat.lt_succ_self count)
    rw [hdrop] at hk hloop hbig
    have hsum : i + (sub.length - i) = sub.length := by omega
    have hlt32 : k < 2 ^ 32 := by
      have hblocks := h.blocks_lt
      have hle := sub.length_le_blocks
      omega
    refine ⟨k, hk, ?_, fun _ hfits => ?_, fun hlarge => hbig ?_⟩
    · rw [ramdiskReadDirents64, hmax, if_neg (by simp only; omega), hcurrent]
      rw [hsum] at hloop
      simp only [hloop, Option.bind_eq_bind, Option.bind_some, Option.pure_def, length_laid]
      rw [List.length_take_of_le (by omega), Nat.mod_eq_of_lt hlt32]
    · obtain ⟨name, rest, hcons⟩ : ∃ name rest, sub.names.drop i = name :: rest :=
        List.exists_cons_of_length_pos (by omega)
      refine hpos name (by rw [hcons]; rfl) (hfits name ?_)
      exact List.mem_of_mem_drop (hcons ▸ List.mem_cons_self)
    · exact le_trans (by gcongr; omega) hlarge
  · refine ⟨0, Nat.zero_le _, ?_, fun hlt => absurd hlt (lt_irrefl _), fun _ => by omega⟩
    rw [ramdiskReadDirents64, if_pos hmax.le]
    simp [laid]

/-- **The whole listing**, from anywhere in the directory and with any buffers that are large
enough. -/
theorem DirAt.readAll_eq (h : DirAt m rd file sub first) (hl : Listable m first sub file)
    (hn : 64 ≤ n)
    (hend : sub = .nil ∨ ∃ len, strlen n (fileName m (first + 80 * sub.blocks)) = some len)
    (hbufs : LargeFor sub.names bufs) (hi : i ≤ sub.length) : ∃ rounds reports,
      readAll m rd n rounds bufs ⟨file, i, d⟩ = some reports ∧
        Report.written reports = sub.names.drop i ∧
        (ShortNames sub.names → Report.found reports = sub.names.drop i) := by
  have hlength := sub.length_names
  have hsize : direntSize = 24 := rfl
  -- by induction on the number of entries that are left
  induction hleft : sub.length - i using Nat.strong_induction_on generalizing i bufs with
  | _ left ih =>
    subst hleft
    obtain ⟨k, hk, hcall, hpos, -⟩ := h.call hl hn hend (d := d) (bufs 0).1 (bufs 0).2 hi
    rcases hi.lt_or_eq with hlt | rfl
    · have hkpos := hpos hlt (hbufs 0)
      obtain ⟨rounds, reports, hread, hwritten, hfound⟩ := ih (sub.length - (i + k)) (by omega)
        (i := i + k) (fun j => hbufs (j + 1)) (by omega) rfl
      have hsplit : (sub.names.drop i).take k ++ sub.names.drop (i + k) = sub.names.drop i := by
        rw [← List.drop_drop, List.take_append_drop]
      refine ⟨rounds + 1, ⟨(bufs 0).1, laid (bufs 0).1 ((sub.names.drop i).take k),
        k * direntSize⟩ :: reports, ?_, ?_, fun hshort => ?_⟩
      · rw [readAll]
        simp only [hcall, Option.bind_eq_bind, Option.bind_some, hread]
        rw [if_neg (by rw [hsize]; omega)]
        rfl
      · rw [Report.written] at hwritten ⊢
        rw [List.flatMap_cons, hwritten, map_name_laid, hsplit]
      · have hpart := hshort.take_drop (i := i) (k := k)
        have hlen : ((sub.names.drop i).take k).length = k :=
          List.length_take_of_le (by rw [List.length_drop]; omega)
        have hall := (found_laid_iff (p := (bufs 0).1) (e := (bufs 0).1 + k * direntSize)
          (List.ne_nil_of_length_pos (hlen.symm ▸ hkpos))).mpr (by
            rw [ShortNames, hlen] at hpart
            rw [hlen, hsize]
            omega)
        rw [Report.found] at hfound ⊢
        rw [List.flatMap_cons, hfound hshort, hall, map_name_laid, hsplit]
    · obtain rfl : k = 0 := by omega
      refine ⟨1, [⟨(bufs 0).1, [], 0⟩], ?_, ?_, fun _ => ?_⟩
      · rw [readAll]
        simp [hcall, laid]
      · rw [← hlength, List.drop_length]
        rfl
      · rw [← hlength, List.drop_length]
        rfl

/-- The first of the calls. -/
theorem readAll_cases (h : readAll m rd n rounds bufs entry = some reports) :
    ∃ records ret entry' rest,
      ramdiskReadDirents64 m rd n (bufs 0).1 (bufs 0).2 entry = some (records, ret, entry') ∧
        reports = ⟨(bufs 0).1, records, ret⟩ :: rest := by
  cases rounds with
  | zero => simp [readAll] at h
  | succ rounds =>
    rw [readAll] at h
    obtain ⟨⟨records, ret, entry'⟩, hcall, h⟩ := Option.bind_eq_some_iff.mp h
    refine ⟨records, ret, entry', ?_⟩
    simp only at h
    split_ifs at h with hret
    · obtain rfl := Option.some.inj h
      exact ⟨[], hcall, rfl⟩
    · obtain ⟨rest, -, hrest⟩ := Option.bind_eq_some_iff.mp h
      exact ⟨rest, hcall, (Option.some.inj hrest).symm⟩

variable (d) in
/-- **A buffer so large that one call goes on to the end.** -/
theorem DirAt.exists_full (h : DirAt m rd file sub first) : ∃ count,
    direntSize * sub.length + 64 ≤ count ∧ LargeFor sub.names (fun _ => (0, count)) ∧
      ∀ n records ret entry',
        ramdiskReadDirents64 m rd n 0 count ⟨file, 0, d⟩ = some (records, ret, entry') →
          records.length = (file.elim sub.length fun _ => sub.blocks) ∧
          (records ≠ [] → ∃ i, fileName m ((nextEntry m)^[records.length] first) i = 0) := by
  set max := file.elim sub.length fun _ => sub.blocks with hmax
  obtain ⟨bound, hbound⟩ := exists_strlen_le (fun i => fileName m ((nextEntry m)^[i] first)) max
  have hentries := h.entries.length_lt
  have hsize : direntSize = 24 := rfl
  refine ⟨direntSize * max + bound + 1 + (direntSize * sub.length + 88), by omega,
    fun _ name hname => ?_, fun n records ret entry' hcall => ?_⟩
  · have hlt := hentries name hname
    simp only
    omega
  · rw [ramdiskReadDirents64, h.max_eq, ← hmax] at hcall
    split_ifs at hcall with hzero
    · simp only [Option.some.injEq, Prod.mk.injEq] at hcall
      obtain ⟨rfl, -, -⟩ := hcall
      simp only at hzero
      exact ⟨(Nat.le_zero.mp hzero).symm, fun hne => absurd rfl hne⟩
    · obtain ⟨⟨written, readPos⟩, hloop, hwritten⟩ := Option.bind_eq_some_iff.mp hcall
      simp only [Option.pure_def, Option.some.injEq, Prod.mk.injEq] at hwritten
      obtain ⟨rfl, -, -⟩ := hwritten
      have hcurrent : unreadEntry m rd ⟨file, 0, d⟩ = first := h.first_eq
      rw [hcurrent] at hloop
      obtain ⟨hpos, -⟩ := direntLoop_readPos hloop
      obtain ⟨hfull, len, hlen⟩ := direntLoop_full hloop (fun i hi => hbound i hi n)
        (by simp only [Nat.sub_zero]; omega) (Nat.zero_le _)
      have hlength : written.length = max := by
        simp only [Nat.zero_add] at hpos
        omega
      refine ⟨hlength, fun _ => ⟨len, ?_⟩⟩
      rw [hlength]
      exact (strlen_some hlen).1

/-- **What the listings say of the directory.** -/
theorem DirAt.listable (h : DirAt m rd file sub first)
    (hall : ∀ bufs, LargeFor sub.names bufs → Lists m rd bufs ⟨file, 0, d⟩ sub.names) :
    Listable m first sub file := by
  obtain ⟨count, -, hlarge, hfull⟩ := h.exists_full d
  obtain ⟨n, rounds, reports, hread, hwritten⟩ := hall _ hlarge
  obtain ⟨records, ret, entry', rest, hcall, rfl⟩ := readAll_cases hread
  obtain ⟨hlength, hnul⟩ := hfull n records ret entry' hcall
  have hle : records.length ≤ sub.length := by
    have hlen := congrArg List.length hwritten
    simp only [Report.written, List.flatMap_cons, List.length_append, List.length_map,
      sub.length_names] at hlen
    omega
  have hblocks := sub.length_le_blocks
  have hflat : file = none ∨ sub.blocks = sub.length := by
    cases file with
    | none => exact Or.inl rfl
    | some a =>
      have hmax : records.length = sub.blocks := hlength
      exact Or.inr (by omega)
  have hmax : records.length = sub.length := by
    rcases hflat with rfl | heq
    · exact hlength
    · cases file with
      | none => exact hlength
      | some a => exact hlength.trans heq
  refine ⟨hflat, ?_⟩
  by_cases hnil : records = []
  · left
    rw [hnil, List.length_nil] at hmax
    cases sub with
    | nil => rfl
    | file name content rest => simp [Listing.length] at hmax
    | dir name inner rest => simp [Listing.length] at hmax
  · right
    have hend := hnul hnil
    rwa [hmax, h.behind] at hend

/-- Enough rounds for all names, and for what is behind them. -/
theorem Listable.exists_rounds (h : Listable m first sub file) : ∃ n, 64 ≤ n ∧
    (sub = .nil ∨ ∃ len, strlen n (fileName m (first + 80 * sub.blocks)) = some len) := by
  rcases h.ends with hnil | ⟨i, hi⟩
  · exact ⟨64, le_rfl, Or.inl hnil⟩
  · obtain ⟨len, hlen⟩ := exists_strlen hi
    exact ⟨64 + (len + 1), Nat.le_add_right _ _, Or.inr ⟨len,
      (strlen_mono _).of_ge hlen (Nat.le_add_left _ _)⟩⟩

/-- **When the names are listed.** -/
theorem DirAt.lists_iff (h : DirAt m rd file sub first) :
    (∀ bufs, LargeFor sub.names bufs → Lists m rd bufs ⟨file, 0, d⟩ sub.names) ↔
      Listable m first sub file := by
  refine ⟨h.listable, fun hl bufs hbufs => ?_⟩
  obtain ⟨n, hn, hend⟩ := hl.exists_rounds
  obtain ⟨rounds, reports, hread, hwritten, -⟩ :=
    h.readAll_eq hl hn hend hbufs (Nat.zero_le _) (d := d)
  exact ⟨n, rounds, reports, hread, hwritten⟩

/-- **When a caller finds them**, too. -/
theorem DirAt.shows_iff (h : DirAt m rd file sub first) :
    (∀ bufs, LargeFor sub.names bufs → Shows m rd bufs ⟨file, 0, d⟩ sub.names) ↔
      Listable m first sub file ∧ ShortNames sub.names := by
  constructor
  · intro hall
    have hl : Listable m first sub file := h.listable fun bufs hbufs => by
      obtain ⟨n, rounds, reports, hread, hwritten, -⟩ := hall bufs hbufs
      exact ⟨n, rounds, reports, hread, hwritten⟩
    refine ⟨hl, ?_⟩
    -- one call for everything
    obtain ⟨count, -, hlarge, hfull⟩ := h.exists_full d
    obtain ⟨n, rounds, reports, hread, hwritten, hfound⟩ := hall _ hlarge
    obtain ⟨records, ret, entry', rest, hcall, rfl⟩ := readAll_cases hread
    have hlength : records.length = sub.names.length := by
      rw [(hfull n records ret entry' hcall).1, sub.length_names]
      rcases hl.flat with rfl | heq
      · rfl
      · cases file <;> simp [heq]
    rw [Report.written, List.flatMap_cons] at hwritten
    have hnames : records.map Dirent.name = sub.names := by
      refine (List.append_inj (hwritten.trans (List.append_nil _).symm) ?_).1
      rw [List.length_map, hlength]
    have hrest : Report.written rest = [] := by
      refine (List.append_inj (hwritten.trans (List.append_nil _).symm) ?_).2
      rw [List.length_map, hlength]
    have hlaid : records = laid 0 sub.names := by
      rw [← hnames]
      refine ramdiskReadDirents64_laid hcall fun r hr => ?_
      have hlt := h.entries.length_lt r.name (hnames ▸ List.mem_map_of_mem hr)
      have hsize : direntSize = 24 := rfl
      omega
    by_cases hnil : sub.names = []
    · rw [ShortNames, hnil]
      decide
    · have hlast : Report.found rest = [] := List.sublist_nil.mp (hrest ▸ found_sublist rest)
      rw [Report.found] at hlast hfound
      rw [List.flatMap_cons, hlast, List.append_nil] at hfound
      have hall : Dirent.found ret records = records := by
        refine (List.takeWhile_sublist _).eq_of_length ?_
        have hlen := congrArg List.length hfound
        rw [List.length_map, Nat.zero_add] at hlen
        exact hlen.trans hlength.symm
      rw [hlaid, found_laid_iff hnil] at hall
      have hblocks := h.blocks_lt
      have hle := sub.length_le_blocks
      have hret := (ramdiskReadDirents64_readPos hcall).1
      rw [hlength, sub.length_names, Nat.mod_eq_of_lt (by omega)] at hret
      have hpos : 0 < sub.names.length := List.length_pos_of_ne_nil hnil
      have hsize : direntSize = 24 := rfl
      rw [hret, hsize, sub.length_names] at hall
      rw [sub.length_names] at hpos
      rw [ShortNames, sub.length_names]
      omega
  · rintro ⟨hl, hshort⟩ bufs hbufs
    obtain ⟨n, hn, hend⟩ := hl.exists_rounds
    obtain ⟨rounds, reports, hread, hwritten, hfound⟩ :=
      h.readAll_eq hl hn hend hbufs (Nat.zero_le _) (d := d)
    exact ⟨n, rounds, reports, hread, hwritten, hfound hshort⟩

end Runs

/-- A directory with a directory with a file, and another file. -/
def nestedTree : Listing :=
  .dir [100] (.dir [101] (.file [102] [1] .nil) .nil) (.file [103] [2] .nil)

end Xana
