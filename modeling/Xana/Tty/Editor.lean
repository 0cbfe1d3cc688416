import Xana.Lib.Runs
import Xana.Tty.Basic

/-!
# The terminal is a line editor

A line editor keeps a list of bytes. A character goes behind it, a backspace takes
away the last, and a read takes from its front what the reader asks for, but not more
than one line. This is what a terminal with `ICANON` set does, whatever is pushed and
read in whatever order (`Xana.TtyRun.refines_of_reach`), as long as no more than 32768
bytes are pending.
-/

namespace Xana

/-! ### The line editor -/

namespace LineEditor

/-- What becomes of the pending bytes with a character. A carriage return counts as a
newline if `crnl` holds. -/
def push (crnl : Bool) (c : UInt8) (pending : List UInt8) : List UInt8 :=
  if c = backspace then pending.dropLast
  else pending ++ [if crnl ∧ c = carriageReturn then newline else c]

/-- The number of bytes a read takes. -/
def readable (request : ℕ) (pending : List UInt8) : ℕ := min request (lineLength pending)

end LineEditor

/-! ### Runs -/

/-- A terminal, and the line editor that it should be. -/
structure TtyRun where
  tty : Tty
  pending : List UInt8

namespace TtyRun

/-- What happens to a terminal. -/
inductive Act
  /-- A key; a block that is allocated held `mem`. -/
  | push (mem : ℕ → UInt8) (c : UInt8)
  | read (size nmemb : ℕ)
  /-- The request `TCSETS` of `tty_ioctl`. -/
  | setFlags (iflag lflag : BitVec 32)

/-- The conditions of a run: `ICANON` stays set, a read is issued when a newline is
pending, and no more than 32768 bytes are pending. -/
def Ok (s : TtyRun) : Act → Prop
  | .push _ c => (LineEditor.push (s.tty.iflag.getLsbD icrnl) c s.pending).length ≤ 32768
  | .read _ _ => newline ∈ s.pending
  | .setFlags _ lflag => lflag.getLsbD icanon = true

instance (s : TtyRun) : (a : Act) → Decidable (s.Ok a)
  | .push _ c =>
      inferInstanceAs (Decidable
        ((LineEditor.push (s.tty.iflag.getLsbD icrnl) c s.pending).length ≤ 32768))
  | .read _ _ => inferInstanceAs (Decidable (newline ∈ s.pending))
  | .setFlags _ lflag => inferInstanceAs (Decidable (lflag.getLsbD icanon = true))

/-- One step of the two. -/
def Steps (s : TtyRun) : Act → TtyRun → Prop
  | .push mem c, s' =>
      s' = ⟨(ttyPush mem c s.tty).2, LineEditor.push (s.tty.iflag.getLsbD icrnl) c s.pending⟩
  | .read size nmemb, s' =>
      (∃ line i, ttyRead size nmemb s.tty = some (line, i, s'.tty)) ∧
        s'.pending = s.pending.drop (LineEditor.readable (request size nmemb) s.pending)
  | .setFlags iflag lflag, s' => s' = { s with tty := { s.tty with iflag, lflag } }

/-- A terminal that `create_tty` has just made. -/
def IsNew (s : TtyRun) : Prop := ∃ mem, s = ⟨Tty.create mem, []⟩

/-- **What makes a terminal a line editor.** -/
structure Refines (s : TtyRun) : Prop where
  /-- The pending bytes are the editor's, -/
  contents_eq : s.tty.contents = s.pending
  /-- and they are in the buffer. -/
  pos_le : s.tty.bufferPos ≤ s.tty.bufferSize
  /-- A read returns the first line, or what it asks for of it, and removes just that. -/
  read_eq : newline ∈ s.pending → ∀ size nmemb, ∃ tty',
    ttyRead size nmemb s.tty =
      some (s.pending.take (LineEditor.readable (request size nmemb) s.pending),
        LineEditor.readable (request size nmemb) s.pending, tty') ∧
    tty'.contents = s.pending.drop (LineEditor.readable (request size nmemb) s.pending)
  /-- Selecting for reading says whether a read returns without waiting. -/
  select_eq : ∀ size nmemb, ttySelect s.tty .read = 1 ↔ (ttyRead size nmemb s.tty).isSome

/-- **The invariant.** -/
structure Inv (s : TtyRun) : Prop where
  canonical : s.tty.lflag.getLsbD icanon = true
  fits : s.tty.Fits
  contents_eq : s.tty.contents = s.pending

variable {s s' : TtyRun} {a : Act}

/-- The editor's character is the terminal's. -/
theorem push_eq {tty : Tty} {c : UInt8} (pending : List UInt8) :
    LineEditor.push (tty.iflag.getLsbD icrnl) c pending =
      if tty.mapped c = backspace then pending.dropLast else pending ++ [tty.mapped c] := by
  rw [LineEditor.push, Tty.mapped]
  by_cases hcr : tty.iflag.getLsbD icrnl = true ∧ c = carriageReturn
  · rw [if_pos hcr, hcr.2]
    simp only [carriageReturn, backspace, newline]
    rfl
  · rw [if_neg hcr]

theorem Inv.pos_lt (h : s.Inv) : s.tty.bufferPos < 2 ^ 16 :=
  h.fits.pos_le.trans_lt h.fits.size_lt

/-- **The step lemma.** -/
theorem Inv.step (h : s.Inv) (hok : s.Ok a) (hs : s.Steps a s') : s'.Inv := by
  obtain ⟨hcanon, hfits, heq⟩ := h
  cases a with
  | push mem c =>
    rw [Steps] at hs
    subst hs
    rw [Ok, push_eq] at hok
    have hlt : s.tty.mapped c ≠ backspace → s.tty.bufferPos < 2 ^ 15 := by
      intro hback
      rw [if_neg hback, List.length_append, ← heq, Tty.length_contents, List.length_singleton]
        at hok
      omega
    obtain ⟨hfits', hpush⟩ := ttyPush_contents mem hcanon hfits hlt
    refine ⟨by simpa using hcanon, hfits', ?_⟩
    rw [hpush, push_eq, heq]
  | read size nmemb =>
    obtain ⟨⟨line, i, hread⟩, hpending⟩ := hs
    rw [Ok, ← heq] at hok
    obtain ⟨tty', hread', hdrop, hpos, hsize, -, hlflag⟩ :=
      ttyRead_contents size nmemb hcanon
        (hfits.pos_le.trans_lt hfits.size_lt) hok
    rw [hread'] at hread
    simp only [Option.some.injEq, Prod.mk.injEq] at hread
    obtain ⟨-, -, rfl⟩ := hread
    refine ⟨by rw [hlflag, hcanon], ⟨hpos.trans (hfits.pos_le.trans hsize.ge), ?_, ?_⟩, ?_⟩
    · rw [hsize]
      exact hfits.size_pos
    · rw [hsize]
      exact hfits.size_lt
    · rw [hdrop, hpending, heq]
      rfl
  | setFlags iflag lflag =>
    rw [Steps] at hs
    subst hs
    exact ⟨hok, ⟨hfits.pos_le, hfits.size_pos, hfits.size_lt⟩, heq⟩

/-- **The run lemma.** -/
theorem inv_of_reach (h : Reach Steps Ok IsNew s) : s.Inv := by
  refine Reach.invariant (P := Inv) ?_ (fun t a t' ht hok hs => ht.step hok hs) h
  rintro t ⟨mem, rfl⟩
  exact ⟨Tty.canonical_create, Tty.fits_create, Tty.contents_create⟩

theorem Inv.refines (h : s.Inv) : s.Refines := by
  refine ⟨h.contents_eq, h.fits.pos_le, fun hnl size nmemb => ?_, fun size nmemb => ?_⟩
  · rw [← h.contents_eq] at hnl ⊢
    obtain ⟨tty', hread, hdrop, -⟩ := ttyRead_contents size nmemb h.canonical h.pos_lt hnl
    exact ⟨tty', hread, hdrop⟩
  · rw [ttySelect_read_iff, if_pos h.canonical, ttyRead_isSome_iff h.canonical]

/-- **A terminal is a line editor**, in every state that pushes and reads lead to. -/
theorem refines_of_reach (h : Reach Steps Ok IsNew s) : s.Refines := (inv_of_reach h).refines

/-- A key pressed in a reached state. -/
theorem reach_push (mem : ℕ → UInt8) (c : UInt8) (h : Reach Steps Ok IsNew s)
    (hok : s.Ok (.push mem c)) : Reach Steps Ok IsNew
      ⟨(ttyPush mem c s.tty).2, LineEditor.push (s.tty.iflag.getLsbD icrnl) c s.pending⟩ :=
  h.step hok rfl

/-- A read that returns, in a reached state. -/
theorem reach_read {size nmemb i : ℕ} {line : List UInt8} {tty : Tty}
    (h : Reach Steps Ok IsNew s) (hok : s.Ok (.read size nmemb))
    (hread : ttyRead size nmemb s.tty = some (line, i, tty)) : Reach Steps Ok IsNew
      ⟨tty, s.pending.drop (LineEditor.readable (request size nmemb) s.pending)⟩ :=
  h.step hok ⟨⟨line, i, hread⟩, rfl⟩

/-- `a`, a mistyped `b` that is taken back, and the return key; then a read of one
byte, which leaves the newline. -/
theorem refines_of_reach_key : ∃ s : TtyRun, s.Refines ∧ s.pending = [newline] := by
  have hnew : Reach Steps Ok IsNew ⟨Tty.create fun _ => 0, []⟩ := .init ⟨_, rfl⟩
  have ha := reach_push (fun _ => 0) 97 hnew (by decide)
  have hb := reach_push (fun _ => 0) 98 ha (by decide)
  have hback := reach_push (fun _ => 0) backspace hb (by decide)
  have hreturn := reach_push (fun _ => 0) carriageReturn hback (by decide)
  obtain ⟨⟨line, i, tty⟩, hread⟩ := Option.isSome_iff_exists.mp
    (by decide : (ttyRead 1 1 (ttyPush (fun _ => 0) carriageReturn
      (ttyPush (fun _ => 0) backspace (ttyPush (fun _ => 0) 98
        (ttyPush (fun _ => 0) 97 (Tty.create fun _ => 0)).2).2).2).2).isSome)
  refine ⟨_, refines_of_reach (reach_read hreturn (by decide) hread), ?_⟩
  show List.drop _ [97, newline] = [newline]
  decide

end TtyRun

end Xana
