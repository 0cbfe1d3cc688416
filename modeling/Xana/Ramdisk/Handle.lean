import Mathlib.Algebra.Group.Int.Defs
import Xana.Lib.Runs
import Xana.Ramdisk.Device

/-!
# A handle of the ramdisk

`ramdisk_lseek` moves the position of a handle to wherever it is told, and `ramdisk_read`
copies from there. The handle of the root directory has no file, and only the read of a
position from the end, and every read, look at the file.

The end of the file is guarded by comparing `read_pos + size * nmemb` with the size. The sum
has 64 bits, so a request that is long enough comes out small, and is copied as it is
(`Xana.Handle.runSafe_iff` says that this and the missing file are all).
-/

namespace Xana

namespace Handle

/-- `SEEK_SET`. -/
def seekSet : ℤ := 0

/-- `SEEK_CUR`. -/
def seekCur : ℤ := 1

/-- `SEEK_END`. -/
def seekEnd : ℤ := 2

/-- An `off_t`, as an `uint64_t`. -/
def offset64 (offset : ℤ) : ℕ := (offset % 2 ^ 64).toNat

/-- An `uint64_t`, as an `off_t`. -/
def toOff (pos : ℕ) : ℤ := if pos < 2 ^ 63 then pos else (pos : ℤ) - 2 ^ 64

/-- `ramdisk_lseek`: what it returns, and the handle. Without a file there is no result where
its size is asked for. -/
def ramdiskLseek (m : Mem) (entry : RamdiskFileEntry) (offset whence : ℤ) :
    Option (ℤ × RamdiskFileEntry) :=
  let moved (pos : ℕ) : Option (ℤ × RamdiskFileEntry) :=
    some (toOff (pos % 2 ^ 64), { entry with readPos := pos % 2 ^ 64 })
  if whence = seekSet then moved (offset64 offset)
  else if whence = seekCur then moved (entry.readPos + offset64 offset)
  else if whence = seekEnd then do
    let file ← entry.file
    moved (fileSize m file + offset64 offset)
  else some (-eINVAL, entry)

/-- A handle, and the memory. -/
structure State where
  mem : Mem
  entry : RamdiskFileEntry

/-- A call with a handle. -/
inductive Call
  | lseek (offset whence : ℤ)
  | read (ptr size nmemb : ℕ)

/-- What a call reads of the ramdisk. -/
inductive Access
  /-- A field of a header, through the pointer of the handle. -/
  | header (file : Option ℕ)
  /-- Bytes of the data, by `memcpy`. -/
  | copy (src n : ℕ)

variable (rd : Ramdisk)

/-- The state after a call. -/
def step (s : State) : Call → Option State
  | .lseek offset whence =>
      (ramdiskLseek s.mem s.entry offset whence).map fun r => { s with entry := r.2 }
  | .read ptr size nmemb =>
      (ramdiskRead s.mem rd ptr size nmemb s.entry).map fun r => ⟨r.2.2, r.2.1⟩

/-- `bytes_to_read`, with the file at `file`. -/
def bytesToRead (s : State) (file size nmemb : ℕ) : ℕ :=
  if fileSize s.mem file < (s.entry.readPos + size * nmemb % 2 ^ 64) % 2 ^ 64 then
    fileSize s.mem file - s.entry.readPos
  else size * nmemb % 2 ^ 64

/-- What a call reads. -/
def accesses (s : State) : Call → List Access
  | .lseek _ whence => if whence = seekEnd then [.header s.entry.file] else []
  | .read _ size nmemb =>
      .header s.entry.file ::
        s.entry.file.elim [] fun file =>
          if magic s.mem file = fileEntry ∧ s.entry.readPos < fileSize s.mem file then
            [.copy (rd.data + fileData s.mem file + s.entry.readPos)
              (bytesToRead s file size nmemb)]
          else []

/-- **What a call may read**: a header that is there, and bytes of the file, no more than were
asked for. -/
def Access.Inside (s : State) : Call → Access → Prop
  | _, .header file => file ≠ none
  | .lseek _ _, .copy _ _ => False
  | .read _ size nmemb, .copy src n => ∃ file, s.entry.file = some file ∧
      rd.data + fileData s.mem file ≤ src ∧
      src + n ≤ rd.data + fileData s.mem file + fileSize s.mem file ∧ n ≤ size * nmemb

/-- The condition on a call: there is a file where one is looked at, and a request from before
the end of the file does not reach 2^64. -/
def CallOk (s : State) : Call → Prop
  | .lseek _ whence => whence = seekEnd → s.entry.file ≠ none
  | .read _ size nmemb => ∃ file, s.entry.file = some file ∧
      (magic s.mem file = fileEntry → s.entry.readPos < fileSize s.mem file →
        s.entry.readPos + size * nmemb % 2 ^ 64 < 2 ^ 64)

/-- A buffer at `ptr` after an access. -/
def Access.run (ptr : ℕ) (m : Mem) : Access → Mem
  | .header _ => m
  | .copy src n => memcpy m ptr src n

/-- **Every call of a sequence** reads what it may. -/
def RunSafe (s : State) : List Call → Prop
  | [] => True
  | c :: calls => (∀ a ∈ accesses rd s c, a.Inside rd s c) ∧
      ∀ s', step rd s c = some s' → RunSafe s' calls

/-- Every call of a sequence meets its condition, in the state it finds. -/
def RunOk (s : State) : List Call → Prop
  | [] => True
  | c :: calls => CallOk s c ∧ ∀ s', step rd s c = some s' → RunOk s' calls

/-! ### One call -/

section Call

variable {rd} {s s' : State} {c : Call} {calls : List Call} {file ptr size nmemb : ℕ}

theorem fileSize_lt (m : Mem) (a : ℕ) : fileSize m a < 2 ^ 32 := Mem.load_lt m (a + 70) 4

/-- **The bytes that a read copies** are all that it changes. -/
theorem mem_of_read (h : step rd s (.read ptr size nmemb) = some s') :
    s'.mem = (accesses rd s (.read ptr size nmemb)).foldl (Access.run ptr) s.mem := by
  simp only [step, ramdiskRead, accesses] at h ⊢
  cases hfile : s.entry.file with
  | none => simp [hfile] at h
  | some file =>
    rw [hfile] at h
    simp only [Option.bind_eq_bind, Option.bind_some, Option.elim_some] at h ⊢
    by_cases hm : magic s.mem file = fileEntry
    · by_cases hpos : s.entry.readPos < fileSize s.mem file
      · rw [if_neg (not_not.mpr hm), if_neg (Nat.not_le.mpr hpos)] at h
        rw [if_pos ⟨hm, hpos⟩]
        obtain rfl := Option.some.inj h
        rfl
      · rw [if_neg (not_not.mpr hm), if_pos (Nat.not_lt.mp hpos)] at h
        rw [if_neg fun hc => hpos hc.2]
        obtain rfl := Option.some.inj h
        rfl
    · rw [if_pos hm] at h
      rw [if_neg fun hc => hm hc.1]
      obtain rfl := Option.some.inj h
      rfl

variable (size nmemb) in
/-- A request from before the end stays in the file, unless the sum wraps around. -/
theorem bytesToRead_le_iff (hpos : s.entry.readPos < fileSize s.mem file) :
    s.entry.readPos + bytesToRead s file size nmemb ≤ fileSize s.mem file ∧
        bytesToRead s file size nmemb ≤ size * nmemb ↔
      s.entry.readPos + size * nmemb % 2 ^ 64 < 2 ^ 64 := by
  have hsize := fileSize_lt s.mem file
  have hmod := Nat.mod_lt (size * nmemb) (Nat.two_pow_pos 64)
  have hle := Nat.mod_le (size * nmemb) (2 ^ 64)
  rw [bytesToRead]
  generalize size * nmemb % 2 ^ 64 = w at *
  generalize size * nmemb = product at *
  constructor
  · intro h
    by_contra hwrap
    -- the sum comes out smaller than the position
    have hsum : (s.entry.readPos + w) % 2 ^ 64 = s.entry.readPos + w - 2 ^ 64 := by omega
    rw [hsum, if_neg (by omega)] at h
    omega
  · intro hlt
    rw [Nat.mod_eq_of_lt hlt]
    split_ifs <;> omega

/-- **What a call reads is what it may**, on the condition. -/
theorem accesses_inside : (∀ a ∈ accesses rd s c, a.Inside rd s c) ↔ CallOk s c := by
  cases c with
  | lseek offset whence =>
    simp only [accesses, CallOk]
    split_ifs with h
    · simp [Access.Inside, h]
    · simp [h]
  | read ptr size nmemb =>
    simp only [accesses, CallOk, List.forall_mem_cons]
    cases hfile : s.entry.file with
    | none => simp [Access.Inside]
    | some file =>
      simp only [Option.elim_some, Access.Inside, ne_eq, reduceCtorEq, not_false_eq_true, true_and,
        Option.some.injEq, exists_eq_left']
      by_cases h : magic s.mem file = fileEntry ∧ s.entry.readPos < fileSize s.mem file
      · have hiff := bytesToRead_le_iff size nmemb h.2
        rw [if_pos h, List.forall_mem_singleton]
        simp only [hfile, Option.some.injEq, exists_eq_left']
        constructor
        · rintro ⟨-, hle, hle'⟩ - -
          exact hiff.mp ⟨by omega, hle'⟩
        · intro hc
          obtain ⟨hle, hle'⟩ := hiff.mpr (hc h.1 h.2)
          exact ⟨by omega, by omega, hle'⟩
      · rw [if_neg h]
        simp only [List.not_mem_nil, false_imp_iff, implies_true, true_iff]
        exact fun hm hpos => absurd ⟨hm, hpos⟩ h

end Call

/-! ### Sequences of calls -/

/-- **A sequence of calls with a handle reads what it may** exactly if each call meets its
condition. -/
theorem runSafe_iff (rd : Ramdisk) (s : State) (calls : List Call) :
    RunSafe rd s calls ↔ RunOk rd s calls := by
  induction calls generalizing s with
  | nil => exact Iff.rfl
  | cons c calls ih =>
    rw [RunSafe, RunOk, accesses_inside]
    exact and_congr_right fun _ => forall₂_congr fun s' _ => ih s'

/-- A read of the root directory looks for its file. -/
theorem not_runSafe_root : ¬∀ (m : Mem) (rd : Ramdisk) (path : List UInt8) (flags n : ℕ)
    (part : ℕ → UInt8) (e : RamdiskFileEntry) (calls : List Call),
    ramdiskOpen m rd path flags part n = some (some e, 0) → RunSafe rd ⟨m, e⟩ calls := by
  intro hall
  have hopen : ramdiskOpen (fun _ => 0) ⟨0, 16, 16⟩ [slash] 0 (fun _ => 0) 0 =
      some (some ⟨none, 0, 1⟩, 0) := by decide
  have hsafe := hall _ _ _ _ _ _ _ [.read 0 1 1] hopen
  have hheader := hsafe.1 (.header none) (by simp [accesses])
  exact hheader rfl

end Handle

end Xana
