import Xana.Video.Buffer

/-!
# The cursor stays on the screen

A character that is put moves the cursor past one edge at most, and the end of
`video_putc` puts it right (`Xana.Screen.onScreen_put`). Two things take it off the
screen: a backspace at the first cell, and the sequence that sets the cursor, whose
numbers nothing checks. In every run without them the cursor is on the screen after each
call, and what has been drawn lies on the screen (`Xana.cursor_of_reach`).

A sequence is echoed with the cursor where it is, so its last character may be such a
backspace, on a screen of one row. If it is an `ESC`, the wrong buffer is freed; what the
console does after that is not asked here, for its buffer is not its own.
-/

namespace Xana

namespace Screen

variable {screen : Screen} {p : Cursor} {c : UInt8} {cs : List UInt8} {colors : Colors} {d : Draw}

/-- Characters that are not control characters leave the cursor on the screen. -/
theorem onScreen_putAll (hv : screen.Valid) (h : screen.OnScreen p)
    (hcs : ∀ c ∈ cs, control c = none) : screen.OnScreen (screen.putAll cs p) := by
  induction cs generalizing p with
  | nil => exact h
  | cons c cs ih =>
    have hc := hcs c List.mem_cons_self
    refine ih (onScreen_put hv h ?_) fun d hd => hcs d (List.mem_cons_of_mem _ hd)
    simp [NotBackspaceAtOrigin, hc]

/-- They are drawn on it. -/
theorem inside_drawAll (hv : screen.Valid) (h : screen.OnScreen p)
    (hcs : ∀ c ∈ cs, control c = none) (hd : d ∈ screen.drawAll colors cs p) : d.Inside screen := by
  induction cs generalizing p with
  | nil => simp [drawAll] at hd
  | cons c cs ih =>
    have hc := hcs c List.mem_cons_self
    have hb : NotBackspaceAtOrigin c p := by simp [NotBackspaceAtOrigin, hc]
    rcases List.mem_append.mp hd with hd | hd
    · exact inside_draw hv h hb hd
    · exact ih (onScreen_put hv h hb) (fun e he => hcs e (List.mem_cons_of_mem _ he)) hd

end Screen

/-! ### The condition -/

/-- The characters of the sequence that `c` ends. -/
def Console.typed (s : Console) (c : UInt8) : ℕ → UInt8 :=
  fun i => if i < s.escapeSequenceLength then s.sequence i else c

/-- **The end of a sequence**: the numbers of one that sets the cursor are those of a
cell, the first that of its column; and one that is echoed does not end in a backspace
that is put at the first cell. -/
structure EndsOnScreen (screen : Screen) (c : UInt8) (s : Console) : Prop where
  home : c = 72 → 1 < s.escapeSequenceLength → ∀ n row col,
    homeNumbers n (s.typed c) 0 0 0 = some (row, col) →
      0 < row ∧ row ≤ screen.cols ∧ 0 < col ∧ col ≤ screen.rows
  echo : c ≠ 109 → c ≠ 74 → c ≠ 72 → Screen.NotBackspaceAtOrigin c
    (screen.putAll (s.machine.mem.read s.escapeSequence s.escapeSequenceLength) s.cursor)

/-- **The condition.** The buffer is the console's own, and the character fits. -/
def KeepsCursor (screen : Screen) (s : Console) : ConsoleAct → Prop
  | .putc _ c => s.Lawful ∧
      (s.inEscapeSequence = false → Screen.NotBackspaceAtOrigin c s.cursor) ∧
      (s.inEscapeSequence = true → 0 < s.escapeSequenceLength →
        s.Fits ∧ (inSequence c = false → EndsOnScreen screen c s))
  | .heap _ => True

/-! ### The invariant -/

/-- The cursor is on the screen, and all that has been drawn lies on it. -/
structure Console.Shown (screen : Screen) (s : Console) : Prop where
  onScreen : screen.OnScreen s.cursor
  inside : ∀ d ∈ s.drawn, d.Inside screen

/-- The buffer is another one than that which is held. -/
def Console.Dangling (s : Console) : Prop :=
  s.inEscapeSequence = true ∧ owned s.events ≠ some [s.escapeSequence]

theorem Console.Lawful.not_dangling {s : Console} (h : s.Lawful) : ¬s.Dangling := by
  rintro ⟨hin, hne⟩
  have howned := h.owned
  rw [if_pos hin] at howned
  exact hne howned

section Steps

variable {src : FrameSource} {screen : Screen} {s s' : Console} {c : UInt8} {n k : ℕ}

open Console

theorem Console.Shown.display (hv : screen.Valid) (h : s.Shown screen)
    (hb : Screen.NotBackspaceAtOrigin c s.cursor) : (s.display screen c).Shown screen := by
  refine ⟨Screen.onScreen_put hv h.onScreen hb, fun d hd => ?_⟩
  rcases List.mem_append.mp hd with hd | hd
  · exact h.inside d hd
  · exact Screen.inside_draw hv h.onScreen hb hd

theorem Console.Shown.echoed {cs : List UInt8} (hv : screen.Valid) (h : s.Shown screen)
    (hcs : ∀ c ∈ cs, control c = none) : (s.echoed screen cs).Shown screen := by
  refine ⟨Screen.onScreen_putAll hv h.onScreen hcs, fun d hd => ?_⟩
  rcases List.mem_append.mp hd with hd | hd
  · exact h.inside d hd
  · exact Screen.inside_drawAll hv h.onScreen hcs hd

theorem Console.Shown.eraseInDisplay (hv : screen.Valid) (h : s.Shown screen) {seq : ℕ → UInt8} :
    ∀ d ∈ eraseInDisplay screen seq s, d.Inside screen := by
  intro d hd
  rw [Xana.eraseInDisplay] at hd
  split_ifs at hd
  · rw [List.mem_singleton.mp hd]
    trivial
  · exact Screen.inside_clearUp h.onScreen hd
  · exact Screen.inside_clearDown hv h.onScreen hd

/-! ### The sequence that sets the cursor -/

/-- The loop stops at the first `H`. -/
theorem homeNumbers_congr {f g : ℕ → UInt8} {j row col i : ℕ} (hfg : ∀ i ≤ j, f i = g i)
    (hj : f j = 72) : homeNumbers n f row col i = homeNumbers n g row col i := by
  induction n generalizing f g j row col i with
  | zero => rfl
  | succ n ih =>
    have h0 := hfg 0 (Nat.zero_le j)
    by_cases hH : f 0 = 72
    · have hH' : g 0 = 72 := by rwa [← h0]
      rw [homeNumbers, homeNumbers, if_pos hH, if_pos hH']
    · obtain ⟨j, rfl⟩ : ∃ k, j = k + 1 := by
        refine ⟨j - 1, ?_⟩
        rcases Nat.eq_zero_or_pos j with rfl | hpos
        · exact absurd hj hH
        · omega
      have hrest : ∀ row col i, homeNumbers n (fun k => f (k + 1)) row col i =
          homeNumbers n (fun k => g (k + 1)) row col i := fun row col i =>
        ih (j := j) (fun k hk => hfg (k + 1) (by omega)) hj
      simp only [homeNumbers, h0, hrest]

/-- The cell that the numbers name. -/
theorem onScreen_homeCursor {row col : ℕ} (hv : screen.Valid) (hrow : 0 < row)
    (hrow' : row ≤ screen.cols)
    (hcol : 0 < col) (hcol' : col ≤ screen.rows) : screen.OnScreen (homeCursor row col) := by
  have hcols := hv.cols_lt
  have hrows := hv.rows_lt
  constructor
  · show (row + 2 ^ 32 - 1) % 2 ^ 32 < screen.cols
    omega
  · show (col + 2 ^ 32 - 1) % 2 ^ 32 < screen.rows
    omega

/-! ### The end of a sequence -/

theorem EndsOnScreen.congr (h : EndsOnScreen screen c s) (hsame : s.SameSequence s') :
    EndsOnScreen screen c s' := by
  have htyped : s'.typed c = s.typed c := by
    funext i
    simp only [typed, hsame.length_eq]
    split_ifs with hi
    · exact hsame.sequence_eq i hi
    · rfl
  have hread : s'.machine.mem.read s'.escapeSequence s'.escapeSequenceLength =
      s.machine.mem.read s.escapeSequence s.escapeSequenceLength := by
    rw [hsame.length_eq]
    exact Mem.read_eq_read fun i hi => hsame.sequence_eq i hi
  constructor
  · rw [htyped, hsame.length_eq]
    exact h.home
  · rw [hread, hsame.cursor]
    exact h.echo

/-- The characters of a sequence are neither `NUL` nor commands. -/
theorem ne_of_seqChar {i : ℕ} (h : seqChar i c = true) : c ≠ 0 ∧ c ≠ 109 ∧ c ≠ 74 ∧ c ≠ 72 := by
  refine ⟨?_, ?_, ?_, ?_⟩
  all_goals
    rintro rfl
    rw [seqChar] at h
    split_ifs at h
    · simp at h
    · simp [inSequence, isDigit] at h

theorem eq_of_strlen {f : ℕ → UInt8} {j length : ℕ} (hf : ∀ i < j, f i ≠ 0) (hj : f j = 0)
    (h : strlen n f = some length) : length = j := by
  induction n generalizing f j length with
  | zero => simp [strlen] at h
  | succ n ih =>
    rw [strlen] at h
    split_ifs at h with h0
    · obtain ⟨k, hk, rfl⟩ := Option.map_eq_some_iff.mp h
      cases j with
      | zero => exact absurd hj h0
      | succ j => rw [ih (fun i hi => hf (i + 1) (by omega)) hj hk]
    · obtain rfl := Option.some.inj h
      simp only [not_not] at h0
      rcases Nat.eq_zero_or_pos j with rfl | hpos
      · rfl
      · exact absurd h0 (hf 0 hpos)

/-- The last character that is echoed, whatever it is. -/
theorem exists_putPlain_of_echo {L : ℕ} (hs : s.inEscapeSequence = false)
    (hlen : s.escapeSequenceLength = L + 1)
    (hne : ∀ i < L, control (s.sequence i) = none)
    (h : echoSequence (videoPutc src screen n) k 0 s = some s') :
    ∃ s₁ k₁, s₁ = s.echoed screen (s.machine.mem.read s.escapeSequence L) ∧
      putPlain src screen k₁ (s.sequence L)
        { s₁ with events := .use s₁.escapeSequence :: s₁.events } = some s' := by
  have hat : Mem.At s.machine.mem (s.escapeSequence + 0)
      (s.machine.mem.read s.escapeSequence L) := by
    rw [Mem.At, Mem.length_read, add_zero]
  have hne' : ∀ c ∈ s.machine.mem.read s.escapeSequence L, control c ≠ some .escape := by
    intro c hc
    obtain ⟨i, hi, rfl⟩ := List.mem_iff_getElem.mp hc
    rw [Mem.length_read] at hi
    rw [← hat.apply (by rwa [Mem.length_read])]
    have hnone : control (s.sequence i) = none := hne i hi
    show control (s.sequence i) ≠ _
    rw [hnone]
    simp
  obtain ⟨k', hk'⟩ := exists_echoSequence hs hat hne' (by rw [Mem.length_read]; omega) h
  rw [Mem.length_read, zero_add] at hk'
  obtain ⟨s₁, hs₁⟩ : ∃ s₁, s₁ = s.echoed screen (s.machine.mem.read s.escapeSequence L) := ⟨_, rfl⟩
  rw [← hs₁] at hk'
  have hin₁ : s₁.inEscapeSequence = false := by rw [hs₁]; exact hs
  have hlen₁ : s₁.escapeSequenceLength = L + 1 := by rw [hs₁]; exact hlen
  have hseq₁ : s₁.sequence L = s.sequence L := by rw [hs₁]; rfl
  cases k' with
  | zero => simp [echoSequence] at hk'
  | succ k' =>
    rw [echoSequence, if_pos (by omega), Option.bind_eq_bind, Option.bind_eq_some_iff,
      hseq₁] at hk'
    obtain ⟨s₂, hput, hrest⟩ := hk'
    obtain ⟨k₁, hplain⟩ :=
      exists_putPlain (s := { s₁ with events := .use s₁.escapeSequence :: s₁.events }) hin₁ hput
    -- either way the loop is at its end
    have hend : ¬L + 1 < s₂.escapeSequenceLength := by
      rcases putPlain_cases hplain with ⟨-, p, m, -, rfl⟩ | ⟨-, rfl⟩
      · show ¬L + 1 < 0
        omega
      · show ¬L + 1 < s₁.escapeSequenceLength
        omega
    cases k' with
    | zero => simp [echoSequence] at hrest
    | succ k' =>
      rw [echoSequence, if_neg hend] at hrest
      obtain rfl := Option.some.inj hrest
      exact ⟨s₁, k₁, hs₁, hplain⟩

/-- The character that a console displays when it ends a sequence, `ESC` or not. -/
theorem Console.Shown.putPlain (hv : screen.Valid) (h : s.Shown screen)
    (hb : Screen.NotBackspaceAtOrigin c s.cursor) (hput : putPlain src screen n c s = some s') :
    s'.Shown screen := by
  rcases putPlain_cases hput with ⟨-, p, m, -, rfl⟩ | ⟨-, rfl⟩
  · exact Shown.display hv (s := s.begun p m) ⟨h.onScreen, h.inside⟩ hb
  · exact h.display hv hb

section Ended

variable (hroomy : s.Roomy)
include hroomy

/-- The characters in front of the last one. -/
theorem Console.Roomy.read_storeChar :
    (s.storeChar c).machine.mem.read (s.storeChar c).escapeSequence s.escapeSequenceLength =
      s.machine.mem.read s.escapeSequence s.escapeSequenceLength := by
  refine Mem.read_eq_read fun i hi => ?_
  have hseq := hroomy.sequence_storeChar (c := c) i
  rw [if_neg (by omega), if_neg (by omega)] at hseq
  exact hseq

/-- The command is the last character, unless that is `NUL`. -/
theorem Console.Roomy.command (hpos : 0 < s.escapeSequenceLength) {length : ℕ}
    (hlen : strlen n (s.storeChar c).sequence = some length) :
    ∃ command, (s.storeChar c).machine.mem ((s.storeChar c).escapeSequence + length - 1) = command ∧
      (command = c ∨ c = 0 ∧ command ≠ 109 ∧ command ≠ 74 ∧ command ≠ 72) := by
  have hseq := hroomy.sequence_storeChar (c := c)
  have hchars := hroomy.holding.chars
  have hbefore : ∀ i < s.escapeSequenceLength, (s.storeChar c).sequence i = s.sequence i := by
    intro i hi
    rw [hseq, if_neg (by omega), if_neg (by omega)]
  have hlast : (s.storeChar c).sequence s.escapeSequenceLength = c := by
    rw [hseq, if_neg (by omega), if_pos rfl]
  have hnonzero : ∀ i < s.escapeSequenceLength, (s.storeChar c).sequence i ≠ 0 := by
    intro i hi
    rw [hbefore i hi]
    exact (ne_of_seqChar (hchars i hi)).1
  refine ⟨_, rfl, ?_⟩
  by_cases hc : c = 0
  · obtain rfl := eq_of_strlen hnonzero (hlast.trans hc) hlen
    have haddr : (s.storeChar c).escapeSequence + s.escapeSequenceLength - 1 =
        (s.storeChar c).escapeSequence + (s.escapeSequenceLength - 1) := by omega
    rw [haddr]
    have hchar := ne_of_seqChar (hchars (s.escapeSequenceLength - 1) (by omega))
    rw [← hbefore _ (by omega)] at hchar
    exact Or.inr ⟨hc, hchar.2⟩
  · have hnonzero' : ∀ i < s.escapeSequenceLength + 1, (s.storeChar c).sequence i ≠ 0 := by
      intro i hi
      rcases Nat.lt_succ_iff_lt_or_eq.mp hi with hi | rfl
      · exact hnonzero i hi
      · rwa [hlast]
    obtain rfl := eq_of_strlen hnonzero' (by rw [hseq, if_pos rfl]) hlen
    exact Or.inl hlast

/-- The characters that are echoed. -/
theorem Console.Roomy.echo (hs : s.inEscapeSequence = false)
    (h : echoSequence (videoPutc src screen n) k 0
      { s.storeChar c with events := .use s.escapeSequence :: (s.storeChar c).events } = some s') :
    ∃ s₁ k₁, s₁ = ({ s.storeChar c with
        events := .use s.escapeSequence :: (s.storeChar c).events }).echoed screen
          (s.machine.mem.read s.escapeSequence s.escapeSequenceLength) ∧
      putPlain src screen k₁ c { s₁ with events := .use s₁.escapeSequence :: s₁.events } =
      some s' := by
  have hseq := hroomy.sequence_storeChar (c := c)
  have hne : ∀ i < s.escapeSequenceLength, control ((s.storeChar c).sequence i) = none := by
    intro i hi
    rw [hseq, if_neg (by omega), if_neg (by omega)]
    exact control_of_seqChar (hroomy.holding.chars i hi)
  obtain ⟨s₁, k₁, hs₁, hput⟩ := exists_putPlain_of_echo
    (s := { s.storeChar c with events := .use s.escapeSequence :: (s.storeChar c).events })
    hs (hroomy.length_storeChar (c := c)) hne h
  have hread := hroomy.read_storeChar (c := c)
  have hlast : (s.storeChar c).sequence s.escapeSequenceLength = c := by
    rw [hseq, if_neg (by omega), if_pos rfl]
  refine ⟨s₁, k₁, ?_, ?_⟩
  · rw [hs₁]
    exact congrArg (echoed screen · _) hread
  · rw [← hput]
    exact congrArg (Xana.putPlain src screen k₁ · _) hlast.symm

/-- No character in front of the last one is a control character. -/
theorem Console.Roomy.control_read {d : UInt8}
    (hd : d ∈ s.machine.mem.read s.escapeSequence s.escapeSequenceLength) : control d = none := by
  obtain ⟨i, hi, rfl⟩ := List.mem_iff_getElem.mp hd
  have hi' := hi
  rw [Mem.length_read] at hi'
  have hget := Mem.getElem?_read (m := s.machine.mem) (a := s.escapeSequence) hi'
  rw [List.getElem?_eq_getElem hi, Option.some.injEq] at hget
  rw [hget]
  exact control_of_seqChar (hroomy.holding.chars i hi')

/-- **Parsing a sequence leaves the cursor on the screen.** -/
theorem Console.Roomy.shown_parse (hv : screen.Valid) (hs : s.inEscapeSequence = false)
    (hpos : 0 < s.escapeSequenceLength) (hend : EndsOnScreen screen c s) (hshown : s.Shown screen)
    (h : parseEscapeSequence screen k (videoPutc src screen n) (s.storeChar c) = some s') :
    s'.Shown screen := by
  obtain ⟨length, hlen, hcases⟩ := parse_cases h
  obtain ⟨command, hcommand, hlast⟩ := hroomy.command hpos hlen
  simp only [hcommand] at hcases
  rcases hcases with ⟨-, colors, rfl⟩ | ⟨-, rfl⟩ | ⟨hH, cursor, hhome, rfl⟩ | ⟨hm, hJ, hH, hecho⟩
  · exact ⟨hshown.onScreen, hshown.inside⟩
  · refine ⟨hshown.onScreen, fun d hd => ?_⟩
    rcases List.mem_append.mp hd with hd | hd
    · exact hshown.inside d hd
    · exact Shown.eraseInDisplay (s := { s.storeChar c with
        events := .use (s.storeChar c).escapeSequence :: (s.storeChar c).events }) hv
        ⟨hshown.onScreen, hshown.inside⟩ d hd
  · -- the cursor is set
    refine ⟨?_, hshown.inside⟩
    have hc : c = 72 := by
      rcases hlast with rfl | ⟨-, -, -, hne⟩
      · exact hH
      · exact absurd hH hne
    have hseq := hroomy.sequence_storeChar (c := c)
    show screen.OnScreen cursor
    rw [handleHome] at hhome
    split_ifs at hhome with h1
    · obtain rfl := Option.some.inj hhome
      exact ⟨hv.cols_pos, hv.rows_pos⟩
    · obtain ⟨⟨row, col⟩, hnumbers, rfl⟩ := Option.map_eq_some_iff.mp hhome
      have hlong : 1 < s.escapeSequenceLength := by
        by_contra hshort
        refine h1 ?_
        rw [hseq, if_neg (by omega), if_pos (by omega), hc]
      have hsame : ∀ i ≤ s.escapeSequenceLength, (s.storeChar c).sequence i = s.typed c i := by
        intro i hi
        rw [hseq, typed, if_neg (by omega)]
        split_ifs with h₁ h₂ h₂
        · omega
        · rfl
        · rfl
        · omega
      have hstop : (s.storeChar c).sequence s.escapeSequenceLength = 72 := by
        rw [hseq, if_neg (by omega), if_pos rfl, hc]
      rw [homeNumbers_congr hsame hstop] at hnumbers
      obtain ⟨hrow, hrow', hcol, hcol'⟩ := hend.home hc hlong k row col hnumbers
      exact onScreen_homeCursor hv hrow hrow' hcol hcol'
  · -- the sequence is echoed
    obtain ⟨s₁, k₁, hs₁, hput⟩ := hroomy.echo hs hecho
    have hcmd : c ≠ 109 ∧ c ≠ 74 ∧ c ≠ 72 := by
      rcases hlast with rfl | ⟨rfl, -⟩
      · exact ⟨hm, hJ, hH⟩
      · exact ⟨by decide, by decide, by decide⟩
    have hb : Screen.NotBackspaceAtOrigin c s₁.cursor := by
      rw [hs₁]
      exact hend.echo hcmd.1 hcmd.2.1 hcmd.2.2
    have hshown₁ : s₁.Shown screen := by
      rw [hs₁]
      exact Shown.echoed hv ⟨hshown.onScreen, hshown.inside⟩ fun d hd => hroomy.control_read hd
    exact Shown.putPlain (s := { s₁ with events := .use s₁.escapeSequence :: s₁.events }) hv
      ⟨hshown₁.onScreen, hshown₁.inside⟩ hb hput

/-- **An `ESC` at the end of a sequence** leaves the console with a buffer that it does not
hold. -/
theorem Console.Roomy.dangling_parse {m : Machine} (hs : s.inEscapeSequence = false)
    (hpos : 0 < s.escapeSequenceLength) (hc : control c = some .escape)
    (hwrap : s'.machine.kheapEnd + 0xFFF + 2 ^ 32 < 2 ^ 64)
    (h : parseEscapeSequence screen k (videoPutc src screen n) (s.storeChar c) = some s') :
    Dangling { s' with machine := m, events := .free s'.escapeSequence :: s'.events } := by
  obtain ⟨length, hlen, hcases⟩ := parse_cases h
  obtain ⟨command, hcommand, hlast⟩ := hroomy.command hpos hlen
  simp only [hcommand] at hcases
  have hcmd : c ≠ 109 ∧ c ≠ 74 ∧ c ≠ 72 ∧ c ≠ 0 := by
    refine ⟨?_, ?_, ?_, ?_⟩
    all_goals
      rintro rfl
      revert hc
      decide
  obtain rfl : command = c := hlast.resolve_right fun h0 => hcmd.2.2.2 h0.1
  rcases hcases with ⟨hm, -⟩ | ⟨hJ, -⟩ | ⟨hH, -⟩ | ⟨-, -, -, hecho⟩
  · exact absurd hm hcmd.1
  · exact absurd hJ hcmd.2.1
  · exact absurd hH hcmd.2.2.1
  · obtain ⟨s₁, k₁, hs₁, hput⟩ := hroomy.echo hs hecho
    rcases putPlain_cases hput with ⟨-, p, m', halloc, rfl⟩ | ⟨hne, -⟩
    · have hmachine : s₁.machine = (s.storeChar command).machine := by rw [hs₁]; rfl
      have hesc : s₁.escapeSequence = s.escapeSequence := by rw [hs₁]; rfl
      have howned : owned s₁.events = some [s.escapeSequence] := by
        have hparsed := owned_use (hroomy.owned_storeChar (c := command)) List.mem_cons_self
        rw [hs₁]
        exact owned_uses hparsed List.mem_cons_self _
      have hwrap' : m'.kheapEnd + 0xFFF + 2 ^ 32 < 2 ^ 64 := hwrap
      simp only [hmachine] at halloc
      -- the new buffer is not the old one
      obtain ⟨-, -, -, hfresh⟩ := hroomy.heap_storeChar.kmalloc (by omega) halloc
      have hp : s.escapeSequence ≠ p := hfresh _ hroomy.holding.live
      have hused := owned_use howned (p := s.escapeSequence) (by simp)
      have hbegun :=
        owned_use (owned_alloc hused (p := p) (by simpa using hp.symm)) (p := p) (by simp)
      have hfreed := owned_free hbegun (p := p) (by simp)
      rw [List.erase_cons_head] at hfreed
      refine ⟨rfl, ?_⟩
      show owned (.free p :: .use p :: .alloc p :: .use s₁.escapeSequence :: s₁.events) ≠ some [p]
      rw [hesc, hfreed]
      simpa using hp
    · exact absurd hc hne

end Ended

/-- **A sequence that is refused** does not set the cursor: the byte in front of its buffer
is that of a header. -/
theorem Console.Inv.shown_refused (hinv : s.Inv) (hv : screen.Valid)
    (hs : s.inEscapeSequence = true)
    (h0 : s.escapeSequenceLength = 0) (hshown : s.Shown screen)
    (h : parseEscapeSequence screen k (videoPutc src screen n)
      ({ s with inEscapeSequence := false }.display screen 91) = some s') : s'.Shown screen := by
  have hhold := hinv.inside hs
  have hput : ({ s with inEscapeSequence := false }.display screen 91).Shown screen :=
    Shown.display hv ⟨hshown.onScreen, hshown.inside⟩
      (by simp [Screen.NotBackspaceAtOrigin, control])
  obtain ⟨length, hlen, hcases⟩ := parse_cases h
  obtain rfl : length = 0 := eq_of_strlen (j := 0) (by simp) (hhold.nul h0) hlen
  obtain ⟨s₀, hs₀⟩ : ∃ s₀, s₀ = { s with inEscapeSequence := false }.display screen 91 := ⟨_, rfl⟩
  have hbefore : s₀.machine.mem (s₀.escapeSequence + 0 - 1) = 0 ∨
      s₀.machine.mem (s₀.escapeSequence + 0 - 1) = 255 := by
    rw [hs₀]
    exact hinv.heap.byte_before hinv.kheap_le hhold.live rfl
  have hlen₀ : s₀.escapeSequenceLength = 0 := by rw [hs₀]; exact h0
  rw [← hs₀] at hcases hput
  rcases hcases with ⟨-, colors, rfl⟩ | ⟨-, rfl⟩ | ⟨hH, -⟩ | ⟨-, -, -, hecho⟩
  · exact ⟨hput.onScreen, hput.inside⟩
  · refine ⟨hput.onScreen, fun d hd => ?_⟩
    rcases List.mem_append.mp hd with hd | hd
    · exact hput.inside d hd
    · exact Shown.eraseInDisplay (s := { s₀ with events := .use s₀.escapeSequence :: s₀.events }) hv
        ⟨hput.onScreen, hput.inside⟩ d hd
  · rw [hH] at hbefore
    simp at hbefore
  · cases k with
    | zero => simp [echoSequence] at hecho
    | succ k =>
      rw [echoSequence, if_neg (by simp [hlen₀])] at hecho
      obtain rfl := Option.some.inj hecho
      exact ⟨hput.onScreen, hput.inside⟩

/-- What holds between calls. -/
structure Console.CursorInv (screen : Screen) (s : Console) : Prop where
  shown : s.Shown screen
  buffer : s.Inv ∨ s.Dangling

/-- **`video_putc` keeps the cursor on the screen.** -/
theorem Console.CursorInv.putc (hv : screen.Valid) (h : s.CursorInv screen)
    (hok : KeepsCursor screen s (.putc n c))
    (hwrap : s'.machine.kheapEnd + 0xFFF + 2 ^ 32 < 2 ^ 64)
    (hput : videoPutc src screen n c s = some s') : s'.CursorInv screen := by
  obtain ⟨hlawful, hplain, hseq⟩ := hok
  have hinv : s.Inv := h.buffer.resolve_right hlawful.not_dangling
  have hshown := h.shown
  rcases hs : s.inEscapeSequence with _ | _
  · -- outside a sequence
    have hinv' : s'.Inv := hinv.putc (n := n) (fun hin => by simp [hs] at hin) hwrap hput
    obtain ⟨k, hput'⟩ := exists_putPlain hs hput
    exact ⟨hshown.putPlain hv (hplain hs) hput', Or.inl hinv'⟩
  · obtain ⟨k, s₁, hstep, hend⟩ :=
      sequence_cases hinv hs (fun hpos => (hseq hs hpos).1) hwrap hput
    -- the buffer, if the character is not `ESC`
    have hinv' : control c ≠ some .escape ∨ s.escapeSequenceLength = 0 → s'.Inv := by
      intro hc
      refine hinv.putc (n := n) ?_ hwrap hput
      intro _ hpos
      exact ⟨hc.resolve_right (by omega), (hseq hs hpos).1⟩
    cases hstep with
    | refused h0 hc =>
      obtain ⟨s₂, m, hparse, hfree, rfl⟩ :=
        (hend.resolve_left fun hin => by simp [Console.display] at hin).2
      have hshown₂ := hinv.shown_refused hv hs h0 hshown hparse
      exact ⟨⟨hshown₂.onScreen, hshown₂.inside⟩, Or.inl (hinv' (Or.inr h0))⟩
    | stored s₂ hroomy hsame hc =>
      have hin : (s₂.storeChar c).inEscapeSequence = true := hsame.inEscapeSequence.trans hs
      obtain rfl := (hend.resolve_right fun hcon => by rw [hin] at hcon; simp at hcon).2
      refine ⟨⟨?_, ?_⟩, Or.inl (hinv' (Or.inl ?_))⟩
      · show screen.OnScreen s₂.cursor
        rw [hsame.cursor]
        exact hshown.onScreen
      · show ∀ d ∈ s₂.drawn, d.Inside screen
        rw [hsame.drawn]
        exact hshown.inside
      · rw [control_of_seqChar hc]
        simp
    | ended s₃ hroomy hsame hpos hc =>
      obtain ⟨s₂, m, hparse, hfree, rfl⟩ :=
        (hend.resolve_left fun hin => by simp [Console.storeChar] at hin).2
      have hroomy' : Roomy { s₃ with inEscapeSequence := false } := hroomy.leave
      have hends := ((hseq hs hpos).2 hc).congr hsame
      have hpos' : 0 < s₃.escapeSequenceLength := by rwa [hsame.length_eq]
      have hshown₃ : Shown screen { s₃ with inEscapeSequence := false } := by
        refine ⟨?_, ?_⟩
        · show screen.OnScreen s₃.cursor
          rw [hsame.cursor]
          exact hshown.onScreen
        · show ∀ d ∈ s₃.drawn, d.Inside screen
          rw [hsame.drawn]
          exact hshown.inside
      have hshown₂ := hroomy'.shown_parse hv rfl hpos' ⟨hends.home, hends.echo⟩ hshown₃ hparse
      refine ⟨⟨hshown₂.onScreen, hshown₂.inside⟩, ?_⟩
      by_cases hesc : control c = some .escape
      · have hk₁ := hroomy'.heap_storeChar (c := c).kheap_pos.ne'
        have hg := heapGrows_parse hk₁ rfl hparse
        have hfreed := kheapEnd_of_kfree hfree (by rwa [hg.kheap])
        simp only at hwrap
        exact Or.inr (hroomy'.dangling_parse rfl hpos' hesc (by rwa [← hfreed]) hparse)
      · exact Or.inl (hinv' (Or.inl hesc))

/-- **Others keep it.** -/
theorem Console.CursorInv.heapCall {m : Machine} {c : HeapCall} (h : s.CursorInv screen)
    (hspare : ∀ p ∈ s.held, c.Spares s.machine p) (hs : HeapStep src s.machine c m) :
    CursorInv screen { s with machine := m } := by
  refine ⟨⟨h.shown.onScreen, h.shown.inside⟩, ?_⟩
  rcases h.buffer with hinv | hdangling
  · exact Or.inl (hinv.heapCall hspare hs)
  · exact Or.inr hdangling

theorem ConsoleInit.cursorInv (hv : screen.Valid) (h : ConsoleInit src s) : s.CursorInv screen := by
  refine ⟨⟨?_, ?_⟩, Or.inl h.inv⟩
  · rw [h.cursor]
    exact ⟨hv.cols_pos, hv.rows_pos⟩
  · rw [h.drawn]
    simp

/-- **The cursor is on the screen** in every state that is reached, and so is all that has
been drawn. -/
theorem cursor_of_reach (hv : screen.Valid)
    (h : Reach (ConsoleStep src screen) (KeepsCursor screen) (ConsoleInit src) s) :
    screen.OnScreen s.cursor ∧ ∀ d ∈ s.drawn, d.Inside screen := by
  have hinv : s.CursorInv screen := by
    refine h.invariant (P := CursorInv screen) (fun _ hi => hi.cursorInv hv) ?_
    rintro s act s' hinv hok hs
    cases act with
    | putc n c => exact hinv.putc hv hok hs.2 hs.1
    | heap c =>
      obtain ⟨hspare, m, hstep, rfl⟩ := hs
      exact hinv.heapCall hspare hstep
  exact ⟨hinv.shown.onScreen, hinv.shown.inside⟩

end Steps

/-! ### A cursor that leaves the screen -/

theorem bootScreen_valid : bootScreen.Valid :=
  ⟨by decide, by decide, by decide, by decide, by decide⟩

/-- A character that is put first. -/
theorem putc_first {src : FrameSource} {screen : Screen} {m : Machine} {c : UInt8}
    (hc : control c ≠ some .escape) :
    videoPutc src screen 1 c (bootConsole m) = some ((bootConsole m).display screen c) := by
  rw [videoPutc, if_neg (by simp [bootConsole]), putPlain_of_ne hc]

theorem cursor_of_reach_letter : ∃ s : Console, s.drawn ≠ [] ∧ bootScreen.OnScreen s.cursor ∧
    ∀ d ∈ s.drawn, d.Inside bootScreen := by
  obtain ⟨m, hinit, hwrap⟩ := exists_consoleInit
  have hstep : ConsoleStep bootFrames bootScreen (bootConsole m) (.putc 1 65)
      ((bootConsole m).display bootScreen 65) := ⟨putc_first (by decide), hwrap⟩
  have hok : KeepsCursor bootScreen (bootConsole m) (.putc 1 65) := by
    refine ⟨hinit.inv.lawful, fun _ => ?_, fun hin => ?_⟩
    · rintro ⟨hc, -⟩
      revert hc
      decide
    · simp [bootConsole] at hin
  refine ⟨_, ?_, cursor_of_reach bootScreen_valid ((Reach.init hinit).step hok hstep)⟩
  simp [Console.display, Screen.draw, Screen.drawChar, control]

/-- The cursor does not stay on the screen: a backspace at the first cell. -/
theorem not_onScreen : ¬∀ (src : FrameSource) (screen : Screen) (s : Console), screen.Valid →
    Reach (ConsoleStep src screen) anyStep (ConsoleInit src) s →
      screen.OnScreen s.cursor ∧ ∀ d ∈ s.drawn, d.Inside screen := by
  intro hall
  obtain ⟨m, hinit, hwrap⟩ := exists_consoleInit
  have hstep : ConsoleStep bootFrames bootScreen (bootConsole m) (.putc 1 8)
      ((bootConsole m).display bootScreen 8) := ⟨putc_first (by decide), hwrap⟩
  have hreach : Reach (ConsoleStep bootFrames bootScreen) anyStep (ConsoleInit bootFrames) _ :=
    (Reach.init hinit).step trivial hstep
  obtain ⟨-, hy⟩ := (hall _ _ _ bootScreen_valid hreach).1
  have hcursor : ((bootConsole m).display bootScreen 8).cursor = ⟨87, 4294967294⟩ := by
    simp [Console.display, bootConsole, Screen.put, Screen.move, Screen.wrapX,
      Screen.wrapY, control, Screen.cols, Screen.rows, bootScreen, fontWidth]
  rw [hcursor] at hy
  simp [Screen.rows, bootScreen] at hy

end Xana
