import Mathlib.Data.List.DropRight
import Xana.Tty.Capacity

/-!
# What a terminal has promised

A terminal with `ICANON` set is readable once a newline is pending, and whoever has been
told so waits no longer. The lines that are pending should then stay until they are read,
whatever is typed: a backspace edits the line that is not finished.

`tty_push` does not look where the unfinished line starts. A backspace takes back the last
byte that is pending, and if nothing has been typed since the return key, that is the
newline. And in a buffer that has outgrown its 16-bit size (`Xana.TtyBlock.room_of_reach`)
a character loses all that is pending. Everything else keeps the finished lines
(`Xana.TtyBlock.lines_prefix`), and these two do not.
-/

namespace Xana

/-- The finished lines: the pending bytes up to the last newline. -/
def Tty.lines (tty : Tty) : List UInt8 := tty.contents.rdropWhile (· ≠ newline)

/-- The characters `typed`, pushed one after the other. Each comes with what the block held
that is allocated for it. -/
def Tty.pushAll (tty : Tty) (typed : List ((ℕ → UInt8) × UInt8)) : Tty :=
  typed.foldl (fun tty key => (ttyPush key.1 key.2 tty).2) tty

/-- **The character does no harm to the first `n` bytes**: a backspace finds more than these
pending, and any other character finds a buffer that holds what is pending. -/
def Tty.Spares (n : ℕ) (tty : Tty) (c : UInt8) : Prop :=
  if tty.mapped c = backspace then n < tty.bufferPos else tty.bufferPos ≤ tty.bufferSize

instance (n : ℕ) (tty : Tty) (c : UInt8) : Decidable (tty.Spares n c) :=
  inferInstanceAs (Decidable
    (if tty.mapped c = backspace then n < tty.bufferPos else tty.bufferPos ≤ tty.bufferSize))

/-- Each of the characters does no harm to the first `n` bytes. -/
def Tty.SparesAll (n : ℕ) : Tty → List ((ℕ → UInt8) × UInt8) → Prop
  | _, [] => True
  | tty, key :: typed => tty.Spares n key.2 ∧ SparesAll n (ttyPush key.1 key.2 tty).2 typed

section Lines

variable {tty : Tty} {c : UInt8} {mem : ℕ → UInt8} {lines : List UInt8}

theorem Tty.lines_prefix_contents : tty.lines <+: tty.contents := List.rdropWhile_prefix _ _

/-- The finished lines end in a newline. -/
theorem Tty.newline_mem_lines (h : newline ∈ tty.contents) : newline ∈ tty.lines := by
  have hne : tty.lines ≠ [] := by
    rw [Tty.lines, Ne, List.rdropWhile_eq_nil_iff]
    exact fun hall => of_decide_eq_true (hall newline h) rfl
  have hlast : ¬decide (tty.lines.getLast hne ≠ newline) = true := List.rdropWhile_last_not _ _ hne
  have heq : tty.lines.getLast hne = newline := by simpa using hlast
  exact heq ▸ List.getLast_mem hne

/-- A backspace that finds more than the lines pending leaves them. -/
theorem ttyPush_lines_of_erases (hlines : lines <+: tty.contents) (hback : tty.Erases c)
    (hlt : lines.length < tty.bufferPos) : lines <+: (ttyPush mem c tty).2.contents := by
  have hdrop : (ttyPush mem c tty).2.contents = tty.contents.dropLast := by
    rw [ttyPush_of_erases hback, if_pos (Nat.zero_lt_of_lt hlt)]
    exact stored_sub_one
  rw [hdrop, List.dropLast_eq_take]
  refine List.prefix_take_iff.mpr ⟨hlines, ?_⟩
  rw [Tty.length_contents]
  omega

/-- A backspace that finds just the lines pending takes the last newline. -/
theorem not_ttyPush_lines_of_erases (hne : lines ≠ []) (hback : tty.Erases c)
    (hle : tty.bufferPos ≤ lines.length) : ¬lines <+: (ttyPush mem c tty).2.contents := by
  intro hlines
  have hpos : 0 < lines.length := List.length_pos_iff.mpr hne
  have hlength := hlines.length_le
  rw [Tty.length_contents, ttyPush_of_erases hback] at hlength
  dsimp only at hlength
  split_ifs at hlength <;> omega

/-- **A character that finds room** goes behind what is pending. -/
theorem ttyPush_contents_of_room (hback : ¬tty.Erases c) (hle : tty.bufferPos ≤ tty.bufferSize)
    (hlt : tty.bufferPos + 1 < 2 ^ 16) :
    (ttyPush mem c tty).2.contents = tty.contents ++ [tty.mapped c] := by
  have hkept : stored (tty.grow mem).buffer tty.bufferPos = tty.contents := by
    refine stored_congr fun i hi => ?_
    rw [Tty.grow]
    split_ifs
    · exact if_pos (hi.trans_le hle)
    · rfl
  rw [ttyPush_of_not_erases hback, Tty.contents, Tty.store, Tty.grow_bufferPos,
    Nat.mod_eq_of_lt hlt, stored_push, hkept]

/-- **A character in a buffer whose size is 0**: what is pending is what the new block
held. -/
theorem not_ttyPush_lines_of_size (hne : lines ≠ []) (hback : ¬tty.Erases c)
    (hsize : tty.bufferSize = 0) (hpos : 0 < tty.bufferPos) :
    ∃ mem, ¬lines <+: (ttyPush mem c tty).2.contents := by
  obtain ⟨b, rest, rfl⟩ := List.exists_cons_of_ne_nil hne
  obtain ⟨other, hother⟩ : ∃ other : UInt8, other ≠ b := by
    by_cases hb : b = 0
    · exact ⟨1, by rw [hb]; decide⟩
    · exact ⟨0, Ne.symm hb⟩
  refine ⟨fun _ => other, fun hlines => ?_⟩
  obtain ⟨tail, htail⟩ := hlines
  have hlength := congrArg List.length htail
  have hfirst := congrArg (·[0]?) htail
  rw [ttyPush_of_not_erases hback, Tty.contents, length_stored] at hlength
  have hstored : 0 < (stored ((tty.grow fun _ => other).store (tty.mapped c)).buffer
      ((tty.grow fun _ => other).store (tty.mapped c)).bufferPos).length := by
    rw [length_stored, ← hlength]
    exact Nat.succ_pos _
  simp only [List.cons_append, List.getElem?_cons_zero] at hfirst
  rw [ttyPush_of_not_erases hback, Tty.contents, List.getElem?_eq_getElem hstored,
    getElem_stored] at hfirst
  have hheld : ((tty.grow fun _ => other).store (tty.mapped c)).buffer 0 = other := by
    rw [Tty.store, Tty.grow_bufferPos, Tty.grow_of_full (by omega)]
    dsimp only
    rw [Function.update_of_ne hpos.ne, if_neg (by omega)]
  rw [hheld] at hfirst
  exact hother (Option.some.inj hfirst).symm

@[simp] theorem Tty.pushAll_lflag (typed : List ((ℕ → UInt8) × UInt8)) :
    (tty.pushAll typed).lflag = tty.lflag := by
  induction typed generalizing tty with
  | nil => rfl
  | cons key typed ih => exact ih.trans ttyPush_lflag

end Lines

namespace TtyBlock

variable {s s' : TtyBlock} {a : Act} {c : UInt8} {mem : ℕ → UInt8} {lines : List UInt8}

/-- **The invariant of every run**: the buffer has room, or its size counts as 0. -/
def Inv (s : TtyBlock) : Prop := s.Sized ∨ s.tty.bufferSize = 0

/-- **The step lemma.** -/
theorem Inv.step (h : s.Inv) (hs : s.step a = some s') : s'.Inv := by
  rcases h with h | h
  · by_cases hok : s.Ok a
    · exact Or.inl (h.step hok hs)
    · -- only a character can fail to meet the condition
      cases a with
      | push mem c =>
        obtain ⟨hback, hfull⟩ := not_or.mp hok
        obtain rfl := Option.some.inj hs
        exact Or.inr (h.push_of_full mem hback (Nat.not_lt.mp hfull)).1
      | read size nmemb => exact absurd trivial hok
      | setFlags iflag lflag => exact absurd trivial hok
  · refine Or.inr ?_
    cases a with
    | push mem c =>
      obtain rfl := Option.some.inj hs
      show (ttyPush mem c s.tty).2.bufferSize = 0
      by_cases hback : s.tty.Erases c
      · rw [ttyPush_of_erases hback]
        exact h
      · rw [ttyPush_of_not_erases hback, Tty.store, Tty.grow_of_full (by omega)]
        show s.tty.bufferSize * 2 % 2 ^ 16 = 0
        omega
    | read size nmemb =>
      obtain ⟨⟨line, i, tty⟩, hread, rfl⟩ := Option.map_eq_some_iff.mp hs
      exact (ttyRead_cursors hread).2.trans h
    | setFlags iflag lflag =>
      obtain rfl := Option.some.inj hs
      exact h

/-- **The run lemma.** -/
theorem inv_of_reach (h : Run anyStep s) : s.Inv :=
  Reach.invariant (P := Inv) (fun _ hnew => Or.inl (sized_of_isNew hnew))
    (fun _ _ _ ht _ hs => ht.step hs) h

/-- What is typed in a reached state reaches a state. -/
theorem exists_run_pushAll (h : Run anyStep s) (typed : List ((ℕ → UInt8) × UInt8)) :
    ∃ s', Run anyStep s' ∧ s'.tty = s.tty.pushAll typed := by
  induction typed generalizing s with
  | nil => exact ⟨s, h, rfl⟩
  | cons key typed ih => exact ih (h.step (a := Act.push key.1 key.2) trivial rfl)

/-- **One character spares the lines**, and any other than those that `Tty.Spares` admits
can harm them. -/
theorem Inv.spares_iff (h : s.Inv) (hcanon : s.tty.lflag.getLsbD icanon = true)
    (hne : lines ≠ []) (hlines : lines <+: s.tty.contents) :
    (∀ mem, lines <+: (ttyPush mem c s.tty).2.contents) ↔ s.tty.Spares lines.length c := by
  have hpos : 0 < s.tty.bufferPos := by
    rw [← Tty.length_contents]
    exact (List.length_pos_iff.mpr hne).trans_le hlines.length_le
  rw [Tty.Spares]
  by_cases hback : s.tty.mapped c = backspace
  · rw [if_pos hback]
    constructor
    · intro hall
      by_contra hlt
      exact not_ttyPush_lines_of_erases hne ⟨hcanon, hback⟩ (Nat.not_lt.mp hlt) (hall s.tty.buffer)
    · exact fun hlt mem => ttyPush_lines_of_erases hlines ⟨hcanon, hback⟩ hlt
  · have hstores : ¬s.tty.Erases c := fun herases => hback herases.2
    rw [if_neg hback]
    constructor
    · intro hall
      by_contra hlt
      have hsize : s.tty.bufferSize = 0 := by
        refine h.resolve_left fun hsized => ?_
        exact hlt hsized.room.pos_le
      obtain ⟨mem, hmem⟩ := not_ttyPush_lines_of_size hne hstores hsize hpos
      exact hmem (hall mem)
    · intro hle mem
      have hsized : s.Sized := by
        refine h.resolve_right fun hsize => ?_
        omega
      have := hsized.size_le
      rw [ttyPush_contents_of_room hstores hle (by omega)]
      exact hlines.trans (List.prefix_append _ _)

/-- **The lines stay**, whatever is typed that spares them. -/
theorem lines_prefix (h : Run anyStep s) (hcanon : s.tty.lflag.getLsbD icanon = true)
    (hne : lines ≠ []) (hlines : lines <+: s.tty.contents) {typed : List ((ℕ → UInt8) × UInt8)}
    (hspares : s.tty.SparesAll lines.length typed) : lines <+: (s.tty.pushAll typed).contents := by
  induction typed generalizing s with
  | nil => exact hlines
  | cons key typed ih =>
    have hstep : Run anyStep (s.push key.1 key.2) :=
      h.step (a := Act.push key.1 key.2) trivial rfl
    have hkept := ((inv_of_reach h).spares_iff hcanon hne hlines).mpr hspares.1 key.1
    exact ih hstep (ttyPush_lflag.symm ▸ hcanon) hkept hspares.2

/-- The return key in a new terminal. -/
def entered : TtyBlock := start.push (fun _ => 0) carriageReturn

theorem run_entered : Run anyStep entered :=
  .step (a := Act.push (fun _ => 0) carriageReturn) (.init ⟨_, rfl⟩) trivial rfl

end TtyBlock

end Xana
