import Xana.Filesystem.Basic
import Xana.Filesystem.Path

/-!
# The ramdisk device

`ramdisk.c`, as far as opening and reading a file goes: `init_ramdisk_device`,
`ramdisk_get_path_header`, `ramdisk_open` and `ramdisk_read`. They read the image
where it lies in memory: a header is its address, and its fields are loads.

The loop of `ramdisk_get_path_header` ends only when it finds something or leaves
the header area, so the model gives it a number of rounds; a model run that needs
more has no result.
-/

namespace Xana

/-- `FILE_ENTRY`. -/
def fileEntry : ℕ := 0xBAE7

/-- `DIR_ENTRY`. -/
def dirEntry : ℕ := 0x7EAB

/-- `sizeof(ramdisk_file_t)`. -/
def headerSize : ℕ := 80

/-- `O_WRONLY`. -/
def oWRONLY : ℕ := 0o1

/-- `O_RDWR`. -/
def oRDWR : ℕ := 0o2

/-- `O_DIRECTORY`. -/
def oDIRECTORY : ℕ := 0o200000

/-- `EINVAL`. -/
def eINVAL : ℤ := 22

/-- `ENOTDIR`. -/
def eNOTDIR : ℤ := 20

/-- `ramdisk_t`. -/
structure Ramdisk where
  hdr : ℕ
  files : ℕ
  data : ℕ

/-- What `init_ramdisk_device` puts in `boot_ramdisk`. -/
def initRamdisk (m : Mem) (addr : ℕ) : Ramdisk where
  hdr := addr
  files := addr + 16
  data := addr + m.load (addr + 8) 4

/-! ### The fields of a `ramdisk_file_t` -/

section Fields

variable (m : Mem) (a : ℕ)

/-- `magic`. -/
def magic : ℕ := m.load a 2

/-- `file_data`. -/
def fileData : ℕ := m.load (a + 2) 4

/-- `file_name`. -/
def fileName : ℕ → UInt8 := fun i => m (a + 6 + i)

/-- `size`. -/
def fileSize : ℕ := m.load (a + 70) 4

end Fields

/-! ### The functions -/

/-- `current` moved on by `n` headers. -/
def advance (current n : ℕ) : ℕ := (current + headerSize * n) % 2 ^ 64

/-- The loop of `ramdisk_get_path_header`, in at most `n` rounds. `part` is the
buffer as the round finds it. -/
def headerLoop (m : Mem) (rd : Ramdisk) (path : List UInt8) :
    ℕ → ℕ → ℕ → (ℕ → UInt8) → Option (Option ℕ)
  | 0, _, _, _ => none
  | n + 1, current, i, part => do
      let part := getPathPart path part i
      -- the test at the end of the loop body
      let next (current i : ℕ) : Option (Option ℕ) :=
        if rd.data ≤ current then some none else headerLoop m rd path n current i part
      if magic m current = fileEntry then
        let differ ← strcmp (path.length + 1) part (fileName m current)
        if differ = 0 then return some current else next (advance current 1) i
      else if magic m current = dirEntry then
        let differ ← strcmp (path.length + 1) part (fileName m current)
        if differ = 0 then
          if i = (getPathDepth path + (2 ^ 32 - 1)) % 2 ^ 32 then return some current
          else next (advance current 1) (i + 1)
        else next (advance current ((fileSize m current + 1) % 2 ^ 32)) i
      else next current i

/-- `ramdisk_get_path_header`, in at most `n` rounds. -/
def ramdiskGetPathHeader (m : Mem) (rd : Ramdisk) (path : List UInt8) (part : ℕ → UInt8) (n : ℕ) :
    Option (Option ℕ) :=
  if chars path 0 ≠ slash then some none else headerLoop m rd path n rd.files 0 part

/-- `ramdisk_file_entry_t`. -/
structure RamdiskFileEntry where
  file : Option ℕ
  readPos : ℕ
  dependents : ℕ
  deriving DecidableEq, Repr

/-- `ramdisk_open`: the `pointer` and the `value` it returns. -/
def ramdiskOpen (m : Mem) (rd : Ramdisk) (path : List UInt8) (flags : ℕ) (part : ℕ → UInt8)
    (n : ℕ) : Option (Option RamdiskFileEntry × ℤ) :=
  if flags &&& oWRONLY ≠ 0 ∨ flags &&& oRDWR ≠ 0 then some (none, -eOPNOTSUPP)
  else if strncmp 2 (chars path) (chars [slash]) = 0 ∨ chars path 0 = 0 then
    some (some ⟨none, 0, 1⟩, 0)
  else if chars path 0 ≠ slash then some (none, -eINVAL)
  else do
    match ← ramdiskGetPathHeader m rd path part n with
    | none => return (none, -eNOENT)
    | some file =>
        if magic m file = fileEntry ∧ flags &&& oDIRECTORY ≠ 0 then return (none, -eNOTDIR)
        else return (some ⟨some file, 0, 1⟩, 0)

/-- `ramdisk_read`: what it returns, the handle and the memory after it. Without
a file there is no result. -/
def ramdiskRead (m : Mem) (rd : Ramdisk) (ptr size nmemb : ℕ) (entry : RamdiskFileEntry) :
    Option (ℕ × RamdiskFileEntry × Mem) := do
  let file ← entry.file
  if magic m file ≠ fileEntry then return (2 ^ 64 - eOPNOTSUPP.toNat, entry, m)
  else if fileSize m file ≤ entry.readPos then return (0, entry, m)
  else
    let wanted := size * nmemb % 2 ^ 64
    let bytesToRead :=
      if fileSize m file < (entry.readPos + wanted) % 2 ^ 64 then
        fileSize m file - entry.readPos
      else wanted
    let m' := memcpy m ptr (rd.data + fileData m file + entry.readPos) bytesToRead
    return (bytesToRead, { entry with readPos := (entry.readPos + bytesToRead) % 2 ^ 64 }, m')

end Xana
