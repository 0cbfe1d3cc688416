import Xana.Filesystem.Path
import Xana.Ramdisk.Device

/-!
# Writing a ramdisk

`ramdisk.py`: how a directory tree becomes an image. `order_recursive` lists the
paths of the tree in preorder, with a slash behind those of directories, and
notes under its path how many headers are below each directory. The rest of
`main` then goes through that list of paths twice, once for the headers and once
for the contents, and asks the file system about each path again.

A path is a string of ASCII characters. Whatever raises an exception, or makes
`main` return early, leaves no image.
-/

namespace Xana

/-- **A directory**, in the order in which `os.listdir` lists it. -/
inductive Listing
  | nil
  | file (name content : List UInt8) (rest : Listing)
  | dir (name : List UInt8) (sub rest : Listing)
  deriving DecidableEq, Repr

/-- What a path leads to. -/
inductive Found
  | file (content : List UInt8)
  | dir (sub : Listing)
  deriving DecidableEq, Repr

namespace Listing

/-- What a list of names leads to, from a directory. -/
def find : Listing → List (List UInt8) → Option Found
  | nil, _ => none
  | _, [] => none
  | file name content rest, n :: names =>
      if n = name then if names = [] then some (.file content) else none
      else rest.find (n :: names)
  | dir name sub rest, n :: names =>
      if n = name then if names = [] then some (.dir sub) else sub.find names
      else rest.find (n :: names)

@[simp] theorem nil_find (q : List (List UInt8)) : nil.find q = none := rfl

@[simp] theorem find_nil (t : Listing) : t.find [] = none := by cases t <;> rfl

theorem find_file (name content : List UInt8) (rest : Listing) (n : List UInt8)
    (names : List (List UInt8)) : (file name content rest).find (n :: names) =
      if n = name then if names = [] then some (.file content) else none
      else rest.find (n :: names) := rfl

theorem find_dir (name : List UInt8) (sub rest : Listing) (n : List UInt8)
    (names : List (List UInt8)) : (dir name sub rest).find (n :: names) =
      if n = name then if names = [] then some (.dir sub) else sub.find names
      else rest.find (n :: names) := rfl

/-- The number of entries of a directory. -/
def length : Listing → ℕ
  | nil => 0
  | file _ _ rest | dir _ _ rest => rest.length + 1

end Listing

/-! ### `order_recursive` -/

/-- The variables that `order_recursive` works on. -/
structure Order where
  order : List (List UInt8)
  numFiles : ℕ
  headersNum : ℕ
  headerSz : List UInt8 → Option ℕ

namespace Order

/-- `header_sz_dict[path] = headers_num - headers_pre`. -/
def setHeaderSz (o : Order) (path : List UInt8) (headersPre : ℕ) : Order :=
  { o with headerSz := Function.update o.headerSz path (some (o.headersNum - headersPre)) }

/-- What is done for a file. -/
def addFile (o : Order) (path : List UInt8) : Order :=
  { o with order := o.order ++ [path], numFiles := o.numFiles + 1, headersNum := o.headersNum + 1 }

/-- What is done for a directory before its entries. -/
def addDir (o : Order) (path : List UInt8) : Order :=
  { o with order := o.order ++ [path], headersNum := o.headersNum + 1 }

end Order

/-- The loop of `order_recursive`, the call for a subdirectory being its loop and
the assignment behind it. -/
def orderLoop : Listing → List UInt8 → Order → Order
  | .nil, _, o => o
  | .file name _ rest, path, o => orderLoop rest path (o.addFile (path ++ name))
  | .dir name sub rest, path, o =>
      let thisDir := path ++ name ++ [slash]
      let o := o.addDir thisDir
      orderLoop rest path ((orderLoop sub thisDir o).setHeaderSz thisDir o.headersNum)

/-- `order_recursive`. -/
def orderRecursive (inp : Listing) (path : List UInt8) (o : Order) : Order :=
  (orderLoop inp path o).setHeaderSz path o.headersNum

/-! ### The headers and the contents -/

/-- `struct.pack`, for an unsigned number of `w` bytes. -/
def pack (w n : ℕ) : Option (List UInt8) := if n < 256 ^ w then some (leBytes w n) else none

/-- `s.split("/")[-1]`. -/
def lastPart (s : List UInt8) : List UInt8 := (s.reverse.takeWhile (· ≠ slash)).reverse

/-- The 64 bytes written for the name at the end of a path: less the slash behind
it, if there is one. -/
def packName (path : List UInt8) : Option (List UInt8) :=
  let sentName := lastPart (if path.getLast? = some slash then path.dropLast else path)
  if 63 < sentName.length then none
  else if sentName.all (· < 128) then
    some (sentName ++ List.replicate (64 - sentName.length) 0)
  else none

section Main

variable (tree : Listing) (o : Order)

/-- One round of the first loop: the bytes it writes, and `file_bytepos`. -/
def writeHeader (path : List UInt8) (fileBytepos : ℕ) : Option (List UInt8 × ℕ) :=
  if path.getLast? = some slash then do
    let magic ← pack 2 dirEntry
    let .dir sub ← tree.find (components path) | none
    let numFiles ← pack 4 sub.length
    let name ← packName path
    let blocks ← pack 4 (← o.headerSz path)
    return (magic ++ numFiles ++ name ++ blocks ++ List.replicate 6 0, fileBytepos)
  else do
    let magic ← pack 2 fileEntry
    let offset ← pack 4 fileBytepos
    let .file content ← tree.find (components path) | none
    let name ← packName path
    let size ← pack 4 content.length
    return (magic ++ offset ++ name ++ size ++ List.replicate 6 0, fileBytepos + content.length)

/-- The first loop. -/
def writeHeaders : List (List UInt8) → ℕ → Option (List UInt8 × ℕ)
  | [], fileBytepos => some ([], fileBytepos)
  | path :: paths, fileBytepos => do
      let (header, fileBytepos) ← writeHeader tree o path fileBytepos
      let (headers, fileBytepos) ← writeHeaders paths fileBytepos
      return (header ++ headers, fileBytepos)

/-- The second loop. -/
def writeFiles : List (List UInt8) → Option (List UInt8)
  | [] => some []
  | path :: paths =>
      if path.getLast? = some slash then writeFiles paths
      else do
        let .file content ← tree.find (components path) | none
        return content ++ (← writeFiles paths)

end Main

/-- `main`: the image of a tree. -/
def writeRamdisk (tree : Listing) : Option (List UInt8) := do
  let o := orderRecursive tree [] ⟨[], 0, 0, fun _ => none⟩
  let numFiles ← pack 4 o.numFiles
  let headersSz ← pack 4 (o.headersNum * 80 + 16)
  let rootFiles ← pack 4 tree.length
  let (headers, fileBytepos) ← writeHeaders tree o o.order 0
  let totalSz ← pack 4 (16 + headers.length + fileBytepos)
  let data ← writeFiles tree o.order
  return totalSz ++ numFiles ++ headersSz ++ rootFiles ++ headers ++ data

/-! ### The layout

What an image looks like, without paths. -/

/-- The fields of a header. -/
structure Header where
  magic : ℕ
  fileData : ℕ
  name : List UInt8
  size : ℕ

/-- The 80 bytes of a header. -/
def Header.bytes (h : Header) : List UInt8 :=
  leBytes 2 h.magic ++ leBytes 4 h.fileData ++
    (h.name ++ List.replicate (64 - h.name.length) 0) ++ leBytes 4 h.size ++ List.replicate 6 0

namespace Listing

/-- The number of headers of a tree. -/
def blocks : Listing → ℕ
  | nil => 0
  | file _ _ rest => rest.blocks + 1
  | dir _ sub rest => sub.blocks + rest.blocks + 1

/-- The number of files of a tree. -/
def files : Listing → ℕ
  | nil => 0
  | file _ _ rest => rest.files + 1
  | dir _ sub rest => sub.files + rest.files

/-- The contents of all files, in preorder. -/
def data : Listing → List UInt8
  | nil => []
  | file _ content rest => content ++ rest.data
  | dir _ sub rest => sub.data ++ rest.data

/-- **The headers of a tree**, in preorder, when its contents begin at `pos`. -/
def headers : Listing → ℕ → List Header
  | nil, _ => []
  | file name content rest, pos =>
      ⟨fileEntry, pos, name, content.length⟩ :: rest.headers (pos + content.length)
  | dir name sub rest, pos =>
      ⟨dirEntry, sub.length, name, sub.blocks⟩ ::
        (sub.headers pos ++ rest.headers (pos + sub.data.length))

/-- The names in a directory. -/
def names : Listing → List (List UInt8)
  | nil => []
  | file name _ rest | dir name _ rest => name :: rest.names

/-- The size of the image. -/
def packedSize (t : Listing) : ℕ := 16 + 80 * t.blocks + t.data.length

end Listing

/-- A name that a file may have in the tree: 1 to 63 ASCII characters, none of
them `NUL` or a slash. -/
structure IsFileName (n : List UInt8) : Prop where
  isName : IsName n
  length_le : n.length ≤ 63
  ascii : n.all (· < 128)
  noNul : 0 ∉ n

instance : DecidablePred IsFileName := fun n =>
  decidable_of_iff (IsName n ∧ n.length ≤ 63 ∧ n.all (· < 128) ∧ 0 ∉ n)
    ⟨fun ⟨h₁, h₂, h₃, h₄⟩ => ⟨h₁, h₂, h₃, h₄⟩, fun ⟨h₁, h₂, h₃, h₄⟩ => ⟨h₁, h₂, h₃, h₄⟩⟩

/-- The names are names, and unique within each directory. -/
def Listing.WellFormed : Listing → Prop
  | .nil => True
  | .file name _ rest => IsFileName name ∧ name ∉ rest.names ∧ rest.WellFormed
  | .dir name sub rest =>
      IsFileName name ∧ name ∉ rest.names ∧ sub.WellFormed ∧ rest.WellFormed

/-- Whether a tree is well formed. -/
def Listing.decidableWellFormed : (t : Listing) → Decidable t.WellFormed
  | .nil => inferInstanceAs (Decidable True)
  | .file name _ rest =>
      have := rest.decidableWellFormed
      inferInstanceAs (Decidable (IsFileName name ∧ name ∉ rest.names ∧ rest.WellFormed))
  | .dir name sub rest =>
      have := sub.decidableWellFormed
      have := rest.decidableWellFormed
      inferInstanceAs
        (Decidable (IsFileName name ∧ name ∉ rest.names ∧ sub.WellFormed ∧ rest.WellFormed))

instance : DecidablePred Listing.WellFormed := Listing.decidableWellFormed

end Xana
