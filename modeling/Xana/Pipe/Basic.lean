import Xana.Lib.Ring

/-!
# Pipes

The object behind the two ends of a pipe, and the callbacks of `pipe.c` that
work on its buffer: `pipe_read`, `pipe_write`, `pipe_select` and the part of
`kpipe` that makes it. They look neither at the process that calls nor at the
descriptor the call comes through.

Forgetting who depends on a pipe leaves a ring buffer (`Xana.Pipe.ring`), and the
two transfer loops are the loops of `Xana.Ring` on it
(`Xana.Pipe.readLoop_ring`, `Xana.Pipe.writeLoop_ring`). That gives what one call
does to the queue of buffered bytes: `Xana.pipeRead_spec`, `Xana.pipeWrite_spec`.
-/

namespace Xana

/-- `PIPE_SIZE`. -/
def pipeSize : ℕ := 0x1000 * 16

/-- `pipe_t`, less the fields nothing reads (`flags`, `write_fd`, `read_fd`).
`buffer i` is the byte at `pipe->buffer + i`. -/
structure Pipe where
  buffer : ℕ → UInt8
  readPos : ℕ
  writePos : ℕ
  size : ℕ
  readDependents : ℕ
  writeDependents : ℕ

/-- The pipe `kpipe` makes, in memory that held `mem`. -/
def Pipe.new (mem : ℕ → UInt8) : Pipe where
  buffer := fun i => if i < pipeSize then 0 else mem i
  readPos := 0
  writePos := 0
  size := 0
  readDependents := 1
  writeDependents := 1

/-- `size * nmemb`, as a `size_t`. -/
def request (size nmemb : ℕ) : ℕ := size * nmemb % 2 ^ 64

namespace Pipe

/-- The part of the loop body of `pipe_read` behind the byte's transfer. -/
def readByte (pipe : Pipe) : Pipe :=
  { pipe with
    readPos := if pipe.readPos + 1 = pipeSize then 0 else pipe.readPos + 1
    size := pipe.size - 1 }

/-- The loop of `pipe_read`, with `toRead` bytes still to go: the bytes it stores
at `ptr`, in order. -/
def readLoop : ℕ → Pipe → List UInt8 × Pipe
  | 0, pipe => ([], pipe)
  | toRead + 1, pipe =>
      if pipe.size = 0 then ([], pipe)
      else
        let rest := readLoop toRead pipe.readByte
        (pipe.buffer pipe.readPos :: rest.1, rest.2)

/-- The loop body of `pipe_write`. -/
def writeByte (pipe : Pipe) (byte : UInt8) : Pipe :=
  { pipe with
    buffer := Function.update pipe.buffer pipe.writePos byte
    writePos := if pipe.writePos + 1 = pipeSize then 0 else pipe.writePos + 1
    size := pipe.size + 1 }

/-- The loop of `pipe_write`, with `toWrite` bytes still to go after `written`:
the value of `written` at the end. -/
def writeLoop (ptr : ℕ → UInt8) : ℕ → ℕ → Pipe → ℕ × Pipe
  | 0, written, pipe => (written, pipe)
  | toWrite + 1, written, pipe =>
      if pipe.size = pipeSize then (written, pipe)
      else writeLoop ptr toWrite (written + 1) (pipe.writeByte (ptr written))

end Pipe

/-- `pipe_read`: the bytes stored at `ptr`. Their number is what it returns. -/
def pipeRead (size nmemb : ℕ) (pipe : Pipe) : List UInt8 × Pipe :=
  pipe.readLoop (request size nmemb)

/-- `pipe_write`: the number of bytes accepted from `ptr`. -/
def pipeWrite (ptr : ℕ → UInt8) (size nmemb : ℕ) (pipe : Pipe) : ℕ × Pipe :=
  pipe.writeLoop ptr (request size nmemb) 0

/-- The `type` argument of a `select` callback. -/
inductive SelectType
  | read
  | write
  | error
  deriving DecidableEq, Repr

/-- `pipe_select`. -/
def pipeSelect (pipe : Pipe) : SelectType → ℕ
  | .read => if 0 < pipe.size then 1 else 0
  | .write => if pipe.size < pipeSize then 1 else 0
  | .error => 0

/-! ### A pipe is a ring buffer -/

namespace Pipe

/-- The ring buffer in a pipe. -/
def ring (pipe : Pipe) : Ring UInt8 where
  buffer := pipe.buffer
  readPos := pipe.readPos
  writePos := pipe.writePos
  size := pipe.size

/-- The buffered bytes, oldest first. -/
def contents (pipe : Pipe) : List UInt8 := pipe.ring.contents pipeSize

/-- **The pipe invariant**: its cursors and its count agree. -/
def Valid (pipe : Pipe) : Prop := pipe.ring.Valid pipeSize

variable {pipe : Pipe}

@[simp] theorem length_contents : pipe.contents.length = pipe.size := Ring.length_contents

theorem readByte_ring : pipe.readByte.ring = pipe.ring.get pipeSize := rfl

theorem writeByte_ring {byte : UInt8} :
    (pipe.writeByte byte).ring = pipe.ring.put pipeSize byte := rfl

theorem valid_new (mem : ℕ → UInt8) : (Pipe.new mem).Valid where
  size_le := Nat.zero_le _
  readPos_lt := Nat.zero_lt_succ _
  writePos_eq := rfl

theorem readLoop_ring : ∀ (n : ℕ) (pipe : Pipe),
    (pipe.readLoop n).1 = (pipe.ring.getUpTo pipeSize n).1 ∧
      (pipe.readLoop n).2.ring = (pipe.ring.getUpTo pipeSize n).2
  | 0, pipe => ⟨rfl, rfl⟩
  | n + 1, pipe => by
    obtain ⟨h1, h2⟩ := readLoop_ring n pipe.readByte
    rw [readByte_ring] at h1 h2
    have hsize : pipe.ring.size = pipe.size := rfl
    rw [readLoop, Ring.getUpTo, hsize]
    split_ifs with hz
    · exact ⟨rfl, rfl⟩
    · exact ⟨congrArg _ h1, h2⟩

theorem writeLoop_ring (ptr : ℕ → UInt8) : ∀ (n written : ℕ) (pipe : Pipe),
    (pipe.writeLoop ptr n written).1 = (pipe.ring.putUpTo pipeSize ptr n written).1 ∧
      (pipe.writeLoop ptr n written).2.ring = (pipe.ring.putUpTo pipeSize ptr n written).2
  | 0, written, pipe => ⟨rfl, rfl⟩
  | n + 1, written, pipe => by
    obtain ⟨h1, h2⟩ := writeLoop_ring ptr n (written + 1) (pipe.writeByte (ptr written))
    rw [writeByte_ring] at h1 h2
    have hsize : pipe.ring.size = pipe.size := rfl
    rw [writeLoop, Ring.putUpTo, hsize]
    split_ifs with hf
    · exact ⟨rfl, rfl⟩
    · exact ⟨h1, h2⟩

end Pipe

variable {pipe : Pipe}

/-- **What one `pipe_read` does to the queue**: it takes the request, or all
there is, from the front. -/
theorem pipeRead_spec (h : pipe.Valid) (size nmemb : ℕ) :
    (pipeRead size nmemb pipe).1 = pipe.contents.take (request size nmemb) ∧
      (pipeRead size nmemb pipe).2.Valid ∧
      (pipeRead size nmemb pipe).2.contents = pipe.contents.drop (request size nmemb) := by
  obtain ⟨h1, h2⟩ := Pipe.readLoop_ring (request size nmemb) pipe
  obtain ⟨g1, g2, g3⟩ := Ring.getUpTo_spec (request size nmemb) h
  rw [← h1] at g1
  rw [← h2] at g2 g3
  exact ⟨g1, g2, g3⟩

/-- **What one `pipe_write` does to the queue**: it appends the request, or as
much of it as there is room for. -/
theorem pipeWrite_spec (h : pipe.Valid) (ptr : ℕ → UInt8) (size nmemb : ℕ) :
    (pipeWrite ptr size nmemb pipe).1 = min (request size nmemb) (pipeSize - pipe.size) ∧
      (pipeWrite ptr size nmemb pipe).2.Valid ∧
      (pipeWrite ptr size nmemb pipe).2.contents =
        pipe.contents ++ (List.range (pipeWrite ptr size nmemb pipe).1).map ptr := by
  obtain ⟨h1, h2⟩ := Pipe.writeLoop_ring ptr (request size nmemb) 0 pipe
  obtain ⟨g1, g2, g3⟩ := Ring.putUpTo_spec ptr (request size nmemb) 0 h
  have hn : (pipeWrite ptr size nmemb pipe).1 =
      min (request size nmemb) (pipeSize - pipe.size) := by
    rw [pipeWrite, h1, g1, Nat.zero_add]
    rfl
  rw [← h2] at g2 g3
  refine ⟨hn, g2, g3.trans ?_⟩
  rw [hn, List.range_eq_range']
  rfl

end Xana
