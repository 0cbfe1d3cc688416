import Xana.Lib.Runs
import Xana.Pipe.Basic

/-!
# A pipe is a first-in-first-out queue

Over a run of reads and writes of any sizes, by whomever, a pipe is an unbounded
queue seen through a bounded window: what has been read, followed by what is
buffered, is what has been accepted (`Xana.PipeRun.Fifo.returned_append`). The
window only ever decides *how much* a call transfers, and `pipe_select` announces
exactly whether that is nothing.
-/

namespace Xana

/-- A pipe with the history of its reads and writes. -/
structure PipeRun where
  pipe : Pipe
  /-- The bytes accepted by all writes so far, in order. -/
  accepted : List UInt8
  /-- The bytes returned by all reads so far, in order. -/
  returned : List UInt8

namespace PipeRun

/-- A call, with its arguments: `ptr i` is the byte at `ptr + i`. -/
inductive Act
  | read (size nmemb : ℕ)
  | write (ptr : ℕ → UInt8) (size nmemb : ℕ)

/-- One call. -/
def step (s : PipeRun) : Act → PipeRun
  | .read size nmemb =>
      { s with
        pipe := (pipeRead size nmemb s.pipe).2
        returned := s.returned ++ (pipeRead size nmemb s.pipe).1 }
  | .write ptr size nmemb =>
      { s with
        pipe := (pipeWrite ptr size nmemb s.pipe).2
        accepted := s.accepted ++
          (List.range (pipeWrite ptr size nmemb s.pipe).1).map ptr }

/-- The step relation of a pipe. -/
abbrev Steps (s : PipeRun) (a : Act) (s' : PipeRun) : Prop := s' = s.step a

/-- A pipe `kpipe` has just made, with no history. -/
def IsNew (s : PipeRun) : Prop := ∃ mem, s = ⟨Pipe.new mem, [], []⟩

/-- **What a pipe does as a queue.** -/
structure Fifo (s : PipeRun) : Prop where
  /-- No more than `PIPE_SIZE` bytes are buffered. -/
  size_le : s.pipe.size ≤ pipeSize
  /-- The read cursor is in range. -/
  readPos_lt : s.pipe.readPos < pipeSize
  /-- The write cursor is in range. -/
  writePos_lt : s.pipe.writePos < pipeSize
  /-- The write cursor is `size` ahead of the read cursor. -/
  writePos_eq : s.pipe.writePos = (s.pipe.readPos + s.pipe.size) % pipeSize
  /-- What was read and what is buffered is what was accepted. -/
  returned_append : s.returned ++ s.pipe.contents = s.accepted
  /-- A write accepts what there is room for. -/
  write_eq : ∀ ptr size nmemb,
    (pipeWrite ptr size nmemb s.pipe).1 = min (request size nmemb) (pipeSize - s.pipe.size)
  /-- A read returns what there is. -/
  read_eq : ∀ size nmemb,
    (pipeRead size nmemb s.pipe).1.length = min (request size nmemb) s.pipe.size
  /-- Selecting for reading says whether a read would transfer a byte. -/
  select_read : pipeSelect s.pipe .read = 1 ↔ (pipeRead 1 1 s.pipe).1.length = 1
  /-- Selecting for writing says whether a write would transfer a byte. -/
  select_write : ∀ ptr, pipeSelect s.pipe .write = 1 ↔ (pipeWrite ptr 1 1 s.pipe).1 = 1

/-- **The invariant**: the numbers agree, and nothing was lost. -/
def Inv (s : PipeRun) : Prop :=
  s.pipe.Valid ∧ s.returned ++ s.pipe.contents = s.accepted

variable {s s' : PipeRun}

/-- **The step lemma.** -/
theorem Inv.step (h : s.Inv) (a : Act) : (s.step a).Inv := by
  obtain ⟨hv, heq⟩ := h
  cases a with
  | read size nmemb =>
    obtain ⟨h1, h2, h3⟩ := pipeRead_spec hv size nmemb
    refine ⟨h2, ?_⟩
    change (s.returned ++ (pipeRead size nmemb s.pipe).1) ++
      (pipeRead size nmemb s.pipe).2.contents = s.accepted
    rw [h3, h1, List.append_assoc, List.take_append_drop, heq]
  | write ptr size nmemb =>
    obtain ⟨-, h2, h3⟩ := pipeWrite_spec hv ptr size nmemb
    refine ⟨h2, ?_⟩
    change s.returned ++ (pipeWrite ptr size nmemb s.pipe).2.contents = s.accepted ++ _
    rw [h3, ← List.append_assoc, heq]

/-- **The run lemma.** -/
theorem inv_of_reach (h : Reach Steps anyStep IsNew s) : s.Inv := by
  refine Reach.invariant (P := Inv) (fun t ht => ?_) (fun t a t' ht _ hs => ?_) h
  · obtain ⟨mem, rfl⟩ := ht
    exact ⟨Pipe.valid_new mem, rfl⟩
  · rw [hs]
    exact ht.step a

/-- Everything a pipe promises follows from the invariant. -/
theorem Inv.fifo (h : s.Inv) : s.Fifo := by
  obtain ⟨hv, heq⟩ := h
  have hwrite := fun ptr size nmemb => (pipeWrite_spec hv ptr size nmemb).1
  have hread : ∀ size nmemb,
      (pipeRead size nmemb s.pipe).1.length = min (request size nmemb) s.pipe.size := by
    intro size nmemb
    rw [(pipeRead_spec hv size nmemb).1, List.length_take, Pipe.length_contents]
  have hone : request 1 1 = 1 := by decide
  refine ⟨hv.size_le, hv.readPos_lt, hv.writePos_lt, hv.writePos_eq, heq, hwrite, hread, ?_,
    fun ptr => ?_⟩
  · rw [hread, hone]
    simp only [pipeSelect, ite_eq_left_iff]
    omega
  · rw [hwrite, hone]
    simp only [pipeSelect, ite_eq_left_iff]
    omega

/-- **A pipe is a FIFO queue**: in every state a run of reads and writes reaches
from a new pipe. -/
theorem fifo_of_reach (h : Reach Steps anyStep IsNew s) : s.Fifo := (inv_of_reach h).fifo

/-- Three bytes in, two out, and one more in. -/
theorem fifo_of_reach_three : ∃ s : PipeRun, s.Fifo ∧ s.returned = [0, 1] ∧
    s.pipe.contents = [2, 0] ∧ s.accepted = [0, 1, 2, 0] := by
  refine ⟨_, fifo_of_reach (.step (.step (.step (.init ⟨fun _ => 0, rfl⟩) trivial
    (a := .write Nat.toUInt8 1 3) rfl) trivial (a := .read 1 2) rfl) trivial
    (a := .write Nat.toUInt8 1 1) rfl), ?_, ?_, ?_⟩
  all_goals decide

end PipeRun

end Xana
