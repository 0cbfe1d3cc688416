import Xana.Lib.Runs
import Xana.Tty.Basic

/-!
# The terminal without `ICANON`

With `ICANON` clear a backspace is a character like any other, nobody waits for a
newline, and a terminal should be a queue of bytes: what all reads have returned,
followed by what is pending, is what was pushed, whatever the sizes of the reads.

The branch of `tty_read` for this mode copies at most as many bytes as it is asked
for, but it reports the number of pending bytes, and it empties the buffer. A read
that asks for less than what is pending so returns more than it was asked for, and
the rest is lost. In a run without such reads the terminal is a queue
(`Xana.RawRun.lossless_of_reach`, which also says that each such read does the harm).
-/

namespace Xana

section Functions

variable {tty : Tty} {size nmemb : ℕ} {mem : ℕ → UInt8} {c : UInt8}

/-- A raw read does not wait. -/
theorem ttyRead_raw (hraw : tty.lflag.getLsbD icanon = false) : ttyRead size nmemb tty =
    some (tty.contents.take (request size nmemb), tty.bufferPos, { tty with bufferPos := 0 }) := by
  have hcopied : stored tty.buffer (min tty.bufferPos (request size nmemb)) =
      tty.contents.take (request size nmemb) := by
    rw [Tty.contents, take_stored, min_comm]
  rw [ttyRead, if_neg (by simp [hraw]), hcopied]

/-- **What pushing does** to the pending bytes, with `ICANON` clear. -/
theorem ttyPush_raw (mem : ℕ → UInt8) (hraw : tty.lflag.getLsbD icanon = false) (h : tty.Fits)
    (hlt : tty.bufferPos < 2 ^ 15) :
    (ttyPush mem c tty).2.Fits ∧
      (ttyPush mem c tty).2.contents = tty.contents ++ [tty.mapped c] := by
  obtain ⟨hfits, hsame, hpos, hroom⟩ := h.grow mem hlt
  obtain ⟨hfits', hstore⟩ := hfits.store (c := tty.mapped c) (by omega)
  have hpush : (ttyPush mem c tty).2 = (tty.grow mem).store (tty.mapped c) := by
    rw [ttyPush, if_neg (by simp [hraw])]
  rw [hpush]
  exact ⟨hfits', hstore.trans (by rw [hsame])⟩

end Functions

/-! ### Runs -/

/-- A read that has returned: the bytes that it was asked for, the bytes that it
stored, and the number that it reported. -/
structure RawRead where
  request : ℕ
  bytes : List UInt8
  reported : ℕ

/-- A terminal, the reads so far, and the bytes pushed so far, a carriage return under
`ICRNL` being the newline that it stands for. -/
structure RawRun where
  tty : Tty
  reads : List RawRead
  pushed : List UInt8

namespace RawRun

/-- What happens to a terminal. -/
inductive Act
  /-- A character; a block that is allocated held `mem`. -/
  | push (mem : ℕ → UInt8) (c : UInt8)
  | read (size nmemb : ℕ)
  /-- The request `TCSETS` of `tty_ioctl`. -/
  | setFlags (iflag lflag : BitVec 32)

/-- The conditions of every run: `ICANON` stays clear, and no more than 32768 bytes are
pending. -/
def Bounded (s : RawRun) : Act → Prop
  | .push _ _ => s.tty.bufferPos < 32768
  | .read _ _ => True
  | .setFlags _ lflag => lflag.getLsbD icanon = false

/-- **A read asks for all that is pending.** -/
def Asks (s : RawRun) : Act → Prop
  | .read size nmemb => s.tty.bufferPos ≤ request size nmemb
  | .push _ _ | .setFlags _ _ => True

/-- The conditions of a run in which nothing is lost. -/
def Ok (s : RawRun) (a : Act) : Prop := s.Bounded a ∧ s.Asks a

/-- One step. -/
def step (s : RawRun) : Act → Option RawRun
  | .push mem c =>
      some { s with tty := (ttyPush mem c s.tty).2, pushed := s.pushed ++ [s.tty.mapped c] }
  | .read size nmemb => (ttyRead size nmemb s.tty).map fun r =>
      { s with tty := r.2.2, reads := s.reads ++ [⟨request size nmemb, r.1, r.2.1⟩] }
  | .setFlags iflag lflag => some { s with tty := { s.tty with iflag, lflag } }

/-- A terminal with `ICANON` clear, what is pending in it being the first that was
pushed. -/
def IsRaw (s : RawRun) : Prop :=
  s.tty.Fits ∧ s.tty.lflag.getLsbD icanon = false ∧ s.reads = [] ∧ s.pushed = s.tty.contents

/-- The runs whose steps all meet `ok`. -/
abbrev Run (ok : RawRun → Act → Prop) : RawRun → Prop :=
  Reach (fun s a s' => s.step a = some s') ok IsRaw

/-- What all reads have returned. -/
def returned (s : RawRun) : List UInt8 := s.reads.flatMap fun r => r.bytes

/-- **The terminal is a queue.** -/
structure Lossless (s : RawRun) : Prop where
  /-- No read returns more than it is asked for, -/
  reported_le : ∀ r ∈ s.reads, r.reported ≤ r.request
  /-- or fewer bytes than it reports, -/
  length_eq : ∀ r ∈ s.reads, r.bytes.length = r.reported
  /-- and no byte is lost. -/
  pushed_eq : s.returned ++ s.tty.contents = s.pushed

/-- **The invariant.** -/
structure Inv (s : RawRun) : Prop where
  raw : s.tty.lflag.getLsbD icanon = false
  fits : s.tty.Fits
  lossless : s.Lossless

variable {s s' : RawRun} {a : Act}

/-- The terminal behind a read, and what is added to the reads. -/
theorem Inv.read (h : s.Inv) (size nmemb : ℕ) : s.step (.read size nmemb) = some
    { s with
      tty := { s.tty with bufferPos := 0 }
      reads := s.reads ++
        [⟨request size nmemb, s.tty.contents.take (request size nmemb), s.tty.bufferPos⟩] } := by
  rw [step, ttyRead_raw h.raw]
  rfl

/-- **A read that asks for all that is pending, and only such a read, loses nothing.** -/
theorem Inv.lossless_read_iff (h : s.Inv) {size nmemb : ℕ}
    (hs : s.step (.read size nmemb) = some s') :
    s'.Lossless ↔ s.tty.bufferPos ≤ request size nmemb := by
  rw [h.read] at hs
  obtain rfl := Option.some.inj hs
  constructor
  · rintro ⟨hle, -, -⟩
    -- already the number that the read reports is too large otherwise
    exact hle _ (List.mem_append_right _ (List.mem_singleton_self _))
  · intro hle
    have htake : s.tty.contents.take (request size nmemb) = s.tty.contents :=
      List.take_of_length_le (by rwa [Tty.length_contents])
    obtain ⟨hreported, hlength, hpushed⟩ := h.lossless
    refine ⟨fun r hr => ?_, fun r hr => ?_, ?_⟩
    · rcases List.mem_append.mp hr with hr | hr
      · exact hreported r hr
      · rw [List.mem_singleton.mp hr]
        exact hle
    · rcases List.mem_append.mp hr with hr | hr
      · exact hlength r hr
      · rw [List.mem_singleton.mp hr]
        show (s.tty.contents.take (request size nmemb)).length = s.tty.bufferPos
        rw [htake, Tty.length_contents]
    · rw [← hpushed]
      show (s.reads ++ [_]).flatMap _ ++ [] = _
      rw [List.flatMap_append, htake, List.flatMap_singleton, List.append_nil]
      rfl

/-- **The step lemma.** -/
theorem Inv.step (h : s.Inv) (hok : s.Ok a) (hs : s.step a = some s') : s'.Inv := by
  cases a with
  | push mem c =>
    obtain rfl := Option.some.inj hs
    obtain ⟨hfits, hpush⟩ := ttyPush_raw (c := c) mem h.raw h.fits hok.1
    refine ⟨by simpa using h.raw, hfits, ⟨h.lossless.reported_le, h.lossless.length_eq, ?_⟩⟩
    show s.returned ++ (ttyPush mem c s.tty).2.contents = s.pushed ++ [s.tty.mapped c]
    rw [hpush, ← h.lossless.pushed_eq, List.append_assoc]
  | read size nmemb =>
    have hlossless := (h.lossless_read_iff hs).mpr hok.2
    rw [h.read] at hs
    obtain rfl := Option.some.inj hs
    exact ⟨h.raw, ⟨Nat.zero_le _, h.fits.size_pos, h.fits.size_lt⟩, hlossless⟩
  | setFlags iflag lflag =>
    obtain rfl := Option.some.inj hs
    obtain ⟨hle, hlength, hpushed⟩ := h.lossless
    exact ⟨hok.1, ⟨h.fits.pos_le, h.fits.size_pos, h.fits.size_lt⟩, ⟨hle, hlength, hpushed⟩⟩

/-- **The run lemma.** -/
theorem inv_of_reach (h : Run Ok s) : s.Inv := by
  refine Reach.invariant (P := Inv) ?_ (fun t a t' ht hok hs => ht.step hok hs) h
  rintro t ⟨hfits, hraw, hreads, hpushed⟩
  refine ⟨hraw, hfits, ⟨?_, ?_, ?_⟩⟩
  · simp [hreads]
  · simp [hreads]
  · simp [returned, hreads, hpushed]

/-- **A raw terminal loses nothing as long as every read asks for all that is pending**,
and the first read that asks for less loses something. -/
theorem lossless_of_reach (h : Run Ok s) : s.Lossless ∧ ∀ size nmemb s',
    s.step (.read size nmemb) = some s' →
      (s'.Lossless ↔ s.tty.bufferPos ≤ request size nmemb) :=
  ⟨(inv_of_reach h).lossless, fun _ _ _ hs => (inv_of_reach h).lossless_read_iff hs⟩

/-- A new terminal whose flags are all cleared. -/
def start : RawRun := ⟨{ Tty.create (fun _ => 0) with iflag := 0, lflag := 0 }, [], []⟩

theorem isRaw_start : start.IsRaw :=
  have hfits : (Tty.create fun _ => 0).Fits := Tty.fits_create
  ⟨⟨Nat.zero_le _, hfits.size_pos, hfits.size_lt⟩, rfl, rfl, rfl⟩

/-- A key pressed in a reached state. -/
theorem run_push (mem : ℕ → UInt8) (c : UInt8) (h : Run Ok s) (hlt : s.tty.bufferPos < 32768) :
    Run Ok { s with tty := (ttyPush mem c s.tty).2, pushed := s.pushed ++ [s.tty.mapped c] } :=
  Reach.step (a := Act.push mem c) h ⟨hlt, trivial⟩ rfl

/-- The keys `a` and `b`. -/
theorem exists_ab : ∃ s, Run Ok s ∧ s.tty.bufferPos = 2 ∧ s.tty.contents = [97, 98] ∧
    s.reads = [] ∧ s.pushed = [97, 98] := by
  have ha := run_push (fun _ => 0) 97 (.init isRaw_start) (by decide)
  have hb := run_push (fun _ => 0) 98 ha (by decide)
  exact ⟨_, hb, rfl, rfl, rfl, rfl⟩

/-- The keys `a` and `b`, and a read of two bytes. -/
theorem lossless_of_reach_ab : ∃ s : RawRun, s.Lossless ∧ s.returned = [97, 98] := by
  obtain ⟨s, hs, hpos, hab, hreads, -⟩ := exists_ab
  have hasks : s.tty.bufferPos ≤ request 1 2 := by
    rw [hpos]
    decide
  have hread := Reach.step (a := Act.read 1 2) hs ⟨trivial, hasks⟩ ((inv_of_reach hs).read 1 2)
  refine ⟨_, (lossless_of_reach hread).1, ?_⟩
  simp only [returned, hreads, hab]
  rfl

/-- The keys `a` and `b`, and a read of one byte: it reports two bytes, and the `b` is
gone. -/
theorem exists_reach_not_lossless : ∃ s : RawRun, Run Bounded s ∧ ¬s.Lossless ∧
    s.pushed = [97, 98] ∧ s.returned ++ s.tty.contents = [97] := by
  obtain ⟨s, hs, hpos, hab, hreads, hpushed⟩ := exists_ab
  have hinv := inv_of_reach hs
  have hbounded : Run Bounded s := hs.mono fun t a ht => ht.1
  have hread := Reach.step (a := Act.read 1 1) hbounded trivial (hinv.read 1 1)
  refine ⟨_, hread, ?_, hpushed, ?_⟩
  · rw [hinv.lossless_read_iff (hinv.read 1 1), hpos]
    decide
  · simp only [returned, hreads, hab]
    rfl

end RawRun

end Xana
