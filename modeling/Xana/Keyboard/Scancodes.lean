import Xana.Keyboard.Fifo
import Xana.Tty.Editor

/-!
# From the keys to the terminal

For each key that is pressed or released the keyboard sends a byte. The interrupt handler keeps
track of the shift keys and of caps lock, and turns the other keys into characters: through one
of two tables, or into an escape sequence for the arrows. A character goes into the buffer of the
keyboard, and to the first terminal.

Which character a key is depends on all the bytes before it: a shift key is held if the last byte
of one said so, and caps lock is on behind an odd number of presses. With that, what a process
reads from the terminal is what a line editor makes of the keys, whatever is typed and read in
whatever order (`Xana.Typing.typing_of_reach`).
-/

namespace Xana

/-! ### The tables -/

/-- `kbdcodes`; what is behind it is 0. -/
def kbdcodes : List UInt8 :=
  [0, 27, 49, 50, 51, 52, 53, 54, 55, 56,
    57, 48, 45, 61, 8, 9, 113, 119, 101, 114,
    116, 121, 117, 105, 111, 112, 91, 93, 10, 0,
    97, 115, 100, 102, 103, 104, 106, 107, 108, 59,
    39, 96, 0, 92, 122, 120, 99, 118, 98, 110,
    109, 44, 46, 47, 0, 42, 0, 32, 0, 0,
    0, 0, 0, 0, 0, 0, 0, 0, 0, 0,
    0, 0, 0, 0, 45, 0, 0, 0, 43, 0]

/-- `kbdcodes_shifted` -/
def kbdcodesShifted : List UInt8 :=
  [0, 27, 33, 64, 35, 36, 37, 94, 38, 42,
    40, 41, 95, 43, 8, 9, 81, 87, 69, 82,
    84, 89, 85, 73, 79, 80, 123, 125, 10, 0,
    65, 83, 68, 70, 71, 72, 74, 75, 76, 58,
    34, 126, 0, 124, 90, 88, 67, 86, 66, 78,
    77, 60, 62, 63, 0, 42, 0, 32, 0, 0,
    0, 0, 0, 0, 0, 0, 0, 0, 0, 0,
    0, 0, 0, 0, 45, 0, 0, 0, 43, 0]

/-- An entry of a table. -/
def keyCode (table : List UInt8) (scancode : UInt8) : UInt8 := table.getD scancode.toNat 0

/-- `'a' <= c && c <= 'z'` -/
def isLower (c : UInt8) : Bool := 97 ≤ c && c ≤ 122

/-! ### The functions -/

/-- `scancode_to_char`, with `shift` and `caps`. -/
def scancodeToChar (shift caps : Bool) (scancode : UInt8) : UInt8 :=
  if scancode = 0 then 0
  else if shift then
    if caps then
      if isLower (keyCode kbdcodes scancode) then keyCode kbdcodes scancode
      else keyCode kbdcodesShifted scancode
    else keyCode kbdcodesShifted scancode
  else
    if caps then
      if isLower (keyCode kbdcodes scancode) then keyCode kbdcodesShifted scancode
      else keyCode kbdcodes scancode
    else keyCode kbdcodes scancode

/-- The variables of the keyboard, `tty_list` with the `id` of each terminal, and what has been
given to `video_putc`. -/
structure KeyboardDriver where
  keyboard : Keyboard
  shift : Bool
  caps : Bool
  ttyList : List (ℤ × Tty)
  echoed : List UInt8

/-- `tty_addchar_internal`: what is echoed, and the terminals. A block that is allocated for a
terminal held `mem`. -/
def ttyAddcharInternal (mem : Tty → ℕ → UInt8) (c : UInt8) :
    List (ℤ × Tty) → List UInt8 × List (ℤ × Tty)
  | [] => ([], [])
  | (id, tty) :: rest =>
      if id = 0 then
        ((ttyPush (mem tty) c tty).1, (id, (ttyPush (mem tty) c tty).2) :: rest)
      else
        ((ttyAddcharInternal mem c rest).1, (id, tty) :: (ttyAddcharInternal mem c rest).2)

namespace KeyboardDriver

section Functions

variable (krealloc : (ℕ → UInt8) → ℕ → ℕ → UInt8) (mem : Tty → ℕ → UInt8)

/-- `keyboard_addchar` -/
def addchar (s : KeyboardDriver) (c : UInt8) : KeyboardDriver :=
  { s with
    keyboard := keyboardAddchar krealloc c s.keyboard
    ttyList := (ttyAddcharInternal mem c s.ttyList).2
    echoed := s.echoed ++ (ttyAddcharInternal mem c s.ttyList).1 }

/-- `keyboard_addstring` -/
def addstring (s : KeyboardDriver) (string : List UInt8) : KeyboardDriver :=
  string.foldl (addchar krealloc mem) s

/-- `keyboard_addcode` -/
def addcode (s : KeyboardDriver) (scancode : UInt8) : KeyboardDriver :=
  let c := scancodeToChar s.shift s.caps scancode
  if c ≠ 0 then s.addchar krealloc mem c
  else if scancode = 0x48 then s.addstring krealloc mem [27, 91, 65]
  else if scancode = 0x50 then s.addstring krealloc mem [27, 91, 66]
  else if scancode = 0x4B then s.addstring krealloc mem [27, 91, 68]
  else if scancode = 0x4D then s.addstring krealloc mem [27, 91, 67]
  else s

/-- `keyboard_interrupt_handler`, with what it reads from the port. -/
def interruptHandler (s : KeyboardDriver) (scancode : UInt8) : KeyboardDriver :=
  if scancode &&& 0x80 ≠ 0 then
    let scancode := scancode &&& 0x7F
    if scancode = 0x2A ∨ scancode = 0x36 then { s with shift := false } else s
  else if scancode = 0x2A ∨ scancode = 0x36 then { s with shift := true }
  else if scancode = 0x3A then { s with caps := !s.caps }
  else s.addcode krealloc mem scancode

end Functions

end KeyboardDriver

/-! ### What the keys mean -/

/-- What a byte says about the shift keys. -/
def shiftEvent (scancode : UInt8) : Option Bool :=
  if scancode = 0x2A ∨ scancode = 0x36 then some true
  else if scancode = 0xAA ∨ scancode = 0xB6 then some false
  else none

/-- **A shift key is held** if the last byte of one says so. -/
def shiftHeld (codes : List UInt8) : Bool := ((codes.filterMap shiftEvent).getLast?).getD false

/-- **Caps lock is on** behind an odd number of presses. -/
def capsOn (codes : List UInt8) : Bool := codes.count 0x3A % 2 == 1

/-- The upper case of a letter. -/
def upper (c : UInt8) : UInt8 := c - 32

/-- The character of a key. Caps lock is for the letters, and a shift key takes it back. -/
def keyChar (shift caps : Bool) (scancode : UInt8) : UInt8 :=
  let c := keyCode kbdcodes scancode
  if isLower c then if shift != caps then upper c else c
  else if shift then keyCode kbdcodesShifted scancode
  else c

/-- The escape sequences of the arrows. -/
def arrow (scancode : UInt8) : List UInt8 :=
  if scancode = 0x48 then [27, 91, 65]
  else if scancode = 0x50 then [27, 91, 66]
  else if scancode = 0x4B then [27, 91, 68]
  else if scancode = 0x4D then [27, 91, 67]
  else []

/-- **What a key types**, behind all the bytes before it. -/
def keyText (codes : List UInt8) (scancode : UInt8) : List UInt8 :=
  if 128 ≤ scancode then []
  else if keyChar (shiftHeld codes) (capsOn codes) scancode ≠ 0 then
    [keyChar (shiftHeld codes) (capsOn codes) scancode]
  else arrow scancode

section Codes

variable {codes : List UInt8} {scancode : UInt8} {shift caps : Bool}

theorem forall_uint8 {p : UInt8 → Prop} (h : ∀ n < 256, p (UInt8.ofNat n)) (c : UInt8) : p c := by
  have hc := h c.toNat c.toNat_lt
  rwa [UInt8.ofNat_toNat] at hc

/-- The letters of the two tables. -/
theorem keyCode_shifted_of_isLower : ∀ scancode, isLower (keyCode kbdcodes scancode) = true →
    keyCode kbdcodesShifted scancode = upper (keyCode kbdcodes scancode) :=
  forall_uint8 (by decide +kernel)

/-- **The tables** give what the keys mean. -/
theorem scancodeToChar_eq : scancodeToChar shift caps scancode = keyChar shift caps scancode := by
  by_cases h0 : scancode = 0
  · subst h0
    revert shift caps
    decide
  · rw [scancodeToChar, if_neg h0, keyChar]
    have hupper := keyCode_shifted_of_isLower scancode
    cases shift <;> cases caps <;> cases hlower : isLower (keyCode kbdcodes scancode) <;>
      simp [hlower, hupper]

/-- The bit of a key that is released. -/
theorem and_0x80_ne_zero_iff : ∀ scancode : UInt8, scancode &&& 0x80 ≠ 0 ↔ 128 ≤ scancode :=
  forall_uint8 (by decide +kernel)

/-- The release of a shift key. -/
theorem shiftEvent_released : ∀ scancode : UInt8, 128 ≤ scancode → shiftEvent scancode =
    if scancode &&& 0x7F = 0x2A ∨ scancode &&& 0x7F = 0x36 then some false else none :=
  forall_uint8 (by decide +kernel)

theorem shiftEvent_pressed : ∀ scancode : UInt8, scancode < 128 → shiftEvent scancode =
    if scancode = 0x2A ∨ scancode = 0x36 then some true else none :=
  forall_uint8 (by decide +kernel)

/-- One byte more. -/
theorem shiftHeld_concat : shiftHeld (codes ++ [scancode]) =
    (shiftEvent scancode).getD (shiftHeld codes) := by
  rw [shiftHeld, List.filterMap_append]
  cases h : shiftEvent scancode with
  | none => simp [h, shiftHeld]
  | some held => simp [h]

theorem capsOn_concat : capsOn (codes ++ [scancode]) =
    if scancode = 0x3A then !capsOn codes else capsOn codes := by
  rw [capsOn, List.count_append]
  split_ifs with h
  · subst h
    rw [List.count_singleton_self, capsOn]
    have hnext : (codes.count 0x3A + 1) % 2 = 1 - codes.count 0x3A % 2 := by omega
    rw [hnext]
    rcases Nat.mod_two_eq_zero_or_one (codes.count 0x3A) with h | h
    · rw [h]
      rfl
    · rw [h]
      rfl
  · simp [h, capsOn]

/-- The keys that type nothing. -/
theorem keyText_of_shiftEvent (h : shiftEvent scancode ≠ none) : keyText codes scancode = [] := by
  have hcode : scancode = 0x2A ∨ scancode = 0x36 ∨ 128 ≤ scancode := by
    rw [shiftEvent] at h
    split_ifs at h with h₁ h₂
    · exact h₁.elim Or.inl fun h => Or.inr (Or.inl h)
    · rcases h₂ with rfl | rfl
      · exact Or.inr (Or.inr (by decide))
      · exact Or.inr (Or.inr (by decide))
    · exact absurd rfl h
  have hnone : ∀ shift caps, keyChar shift caps 0x2A = 0 ∧ keyChar shift caps 0x36 = 0 := by decide
  rw [keyText]
  rcases hcode with rfl | rfl | hcode
  · rw [(hnone _ _).1]
    rfl
  · rw [(hnone _ _).2]
    rfl
  · exact if_pos hcode

theorem keyText_caps : keyText codes 0x3A = [] := by
  have hnone : ∀ shift caps, keyChar shift caps 0x3A = 0 := by decide
  rw [keyText, hnone]
  rfl

/-- A key types three characters at most. -/
theorem length_keyText_le : (keyText codes scancode).length ≤ 3 := by
  rw [keyText, arrow]
  split_ifs <;> simp

end Codes

/-! ### What the driver does -/

namespace KeyboardDriver

variable {krealloc : (ℕ → UInt8) → ℕ → ℕ → UInt8} {mem : Tty → ℕ → UInt8} {s : KeyboardDriver}
  {codes string : List UInt8} {scancode c : UInt8}

theorem addstring_cons : s.addstring krealloc mem (c :: string) =
    (s.addchar krealloc mem c).addstring krealloc mem string := rfl

@[simp] theorem shift_addstring : (s.addstring krealloc mem string).shift = s.shift := by
  induction string generalizing s with
  | nil => rfl
  | cons c string ih => rw [addstring_cons, ih, addchar]

@[simp] theorem caps_addstring : (s.addstring krealloc mem string).caps = s.caps := by
  induction string generalizing s with
  | nil => rfl
  | cons c string ih => rw [addstring_cons, ih, addchar]

/-- A key that is not for shift or caps lock. -/
theorem addcode_eq (hshift : s.shift = shiftHeld codes) (hcaps : s.caps = capsOn codes)
    (hlt : ¬128 ≤ scancode) :
    s.addcode krealloc mem scancode = s.addstring krealloc mem (keyText codes scancode) := by
  rw [addcode, keyText, if_neg hlt, scancodeToChar_eq, hshift, hcaps, arrow]
  split_ifs <;> rfl

/-- **What the interrupt handler does**: it adds what the key types, and keeps track of the shift
keys and of caps lock. -/
theorem interruptHandler_eq (hshift : s.shift = shiftHeld codes) (hcaps : s.caps = capsOn codes) :
    s.interruptHandler krealloc mem scancode =
      { s.addstring krealloc mem (keyText codes scancode) with
        shift := shiftHeld (codes ++ [scancode])
        caps := capsOn (codes ++ [scancode]) } := by
  have hlt : ¬128 ≤ scancode ↔ scancode < 128 := UInt8.not_le
  rw [interruptHandler, shiftHeld_concat, capsOn_concat, ← hshift, ← hcaps]
  simp only [and_0x80_ne_zero_iff]
  by_cases hreleased : 128 ≤ scancode
  · -- a key is released
    have hcode : scancode ≠ 0x3A := by
      rintro rfl
      exact absurd hreleased (by decide)
    rw [if_pos hreleased, if_neg hcode, shiftEvent_released _ hreleased, keyText, if_pos hreleased]
    split_ifs <;> rfl
  · rw [if_neg hreleased, shiftEvent_pressed _ (hlt.mp hreleased)]
    by_cases hkey : scancode = 0x2A ∨ scancode = 0x36
    · have hevent : shiftEvent scancode ≠ none := by
        rw [shiftEvent_pressed _ (hlt.mp hreleased), if_pos hkey]
        simp
      have hcode : scancode ≠ 0x3A := by
        rintro rfl
        exact absurd hkey (by decide)
      rw [if_pos hkey, if_pos hkey, if_neg hcode, keyText_of_shiftEvent hevent]
      rfl
    · rw [if_neg hkey, if_neg hkey]
      by_cases hcode : scancode = 0x3A
      · rw [if_pos hcode, if_pos hcode, hcode, keyText_caps]
        rfl
      · have hshift' : (s.addstring krealloc mem (keyText codes scancode)).shift = s.shift :=
          shift_addstring
        have hcaps' : (s.addstring krealloc mem (keyText codes scancode)).caps = s.caps :=
          caps_addstring
        rw [if_neg hcode, if_neg hcode, addcode_eq hshift hcaps hreleased, Option.getD_none,
          ← hshift', ← hcaps']

end KeyboardDriver

/-! ### Runs -/

/-- The keyboard and the terminals, the bytes from the keyboard so far, and the line editor that
the first terminal should be. -/
structure Typing where
  driver : KeyboardDriver
  codes : List UInt8
  pending : List UInt8

namespace Typing

/-- What happens. -/
inductive Act
  /-- An interrupt of the keyboard. A block that is allocated for a terminal held `mem`. -/
  | key (mem : Tty → ℕ → UInt8) (scancode : UInt8)
  /-- A read from the first terminal. -/
  | read (size nmemb : ℕ)
  /-- The request `TCSETS` of `tty_ioctl`. -/
  | setFlags (iflag lflag : BitVec 32)
  /-- `keyboard_popchar`, for a read from the keyboard. -/
  | popchar

/-- The first terminal is `tty`, and what is behind it in `tty_list` is `rest`. -/
def First (s : Typing) (tty : Tty) (rest : List (ℤ × Tty)) : Prop :=
  s.driver.ttyList = (0, tty) :: rest

/-- **The conditions of a run**: `ICANON` stays set, a read is issued when a newline is pending,
and a key pressed with room for three characters in 32768. -/
def Ok (s : Typing) : Act → Prop
  | .key _ _ => s.pending.length + 3 ≤ 32768
  | .read _ _ => newline ∈ s.pending
  | .setFlags _ lflag => lflag.getLsbD icanon = true
  | .popchar => True

/-- What the line editor makes of some characters. -/
def edit (tty : Tty) (string pending : List UInt8) : List UInt8 :=
  string.foldl (fun pending c => LineEditor.push (tty.iflag.getLsbD icrnl) c pending) pending

/-- One step. -/
def Steps (krealloc : (ℕ → UInt8) → ℕ → ℕ → UInt8) (s : Typing) (a : Act) (s' : Typing) : Prop :=
  ∃ tty rest, s.First tty rest ∧ match a with
    | .key mem scancode =>
        s' = ⟨s.driver.interruptHandler krealloc mem scancode, s.codes ++ [scancode],
          edit tty (keyText s.codes scancode) s.pending⟩
    | .read size nmemb =>
        ∃ line i tty', ttyRead size nmemb tty = some (line, i, tty') ∧
          s' = { s with
            driver := { s.driver with ttyList := (0, tty') :: rest }
            pending := s.pending.drop (LineEditor.readable (request size nmemb) s.pending) }
    | .setFlags iflag lflag =>
        s' = { s with driver :=
          { s.driver with ttyList := (0, { tty with iflag, lflag }) :: rest } }
    | .popchar =>
        s' = { s with driver := { s.driver with
          keyboard := (keyboardPopchar krealloc s.driver.keyboard).2 } }

/-- What `keyboard_install` and `tty_init` leave. The first terminal's `next` is not set, so there
may be anything behind it in the list. -/
def IsNew (s : Typing) : Prop :=
  ∃ mem mem' rest,
    s = ⟨⟨Keyboard.install mem, false, false, (0, Tty.create mem') :: rest, []⟩, [], []⟩

/-- The runs that meet the conditions. -/
abbrev Run (krealloc : (ℕ → UInt8) → ℕ → ℕ → UInt8) : Typing → Prop :=
  Reach (Steps krealloc) Ok IsNew

/-- **The invariant**: the first terminal and the line editor agree, and `shift` and `caps` are what
the bytes so far say. -/
structure Inv (s : Typing) : Prop where
  terminal : ∃ tty rest, s.First tty rest ∧ (TtyRun.mk tty s.pending).Inv
  shift_eq : s.driver.shift = shiftHeld s.codes
  caps_eq : s.driver.caps = capsOn s.codes

variable {krealloc : (ℕ → UInt8) → ℕ → ℕ → UInt8} {mem : Tty → ℕ → UInt8} {s s' : Typing} {a : Act}
  {tty : Tty} {rest : List (ℤ × Tty)} {string : List UInt8}

/-- The editor grows by a character at most. -/
theorem length_push_le {crnl : Bool} {c : UInt8} {pending : List UInt8} :
    (LineEditor.push crnl c pending).length ≤ pending.length + 1 := by
  rw [LineEditor.push]
  split_ifs
  · rw [List.length_dropLast]
    omega
  · exact List.length_append.le
  · exact List.length_append.le

/-- **Some characters** go to the first terminal and to the line editor alike. -/
theorem addstring_inv {driver : KeyboardDriver} {pending : List UInt8}
    (hfirst : driver.ttyList = (0, tty) :: rest) (h : (TtyRun.mk tty pending).Inv)
    (hlen : pending.length + string.length ≤ 32768) :
    ∃ tty', (driver.addstring krealloc mem string).ttyList = (0, tty') :: rest ∧
      (TtyRun.mk tty' (edit tty string pending)).Inv := by
  induction string generalizing driver tty pending with
  | nil => exact ⟨tty, hfirst, h⟩
  | cons c string ih =>
    rw [List.length_cons] at hlen
    have hle := @length_push_le (tty.iflag.getLsbD icrnl) c pending
    have hok : (TtyRun.mk tty pending).Ok (.push (mem tty) c) := by
      show (LineEditor.push (tty.iflag.getLsbD icrnl) c pending).length ≤ 32768
      omega
    have hpush := h.step hok rfl
    have hlist : (driver.addchar krealloc mem c).ttyList =
        (0, (ttyPush (mem tty) c tty).2) :: rest := by
      show (ttyAddcharInternal mem c driver.ttyList).2 = _
      rw [hfirst, ttyAddcharInternal, if_pos rfl]
    obtain ⟨tty', hlist', hinv⟩ := ih hlist hpush
      ((Nat.add_le_add_right hle _).trans (by omega))
    have hedit : edit tty (c :: string) pending = edit (ttyPush (mem tty) c tty).2 string
        (LineEditor.push (tty.iflag.getLsbD icrnl) c pending) := by
      simp only [edit, List.foldl_cons, ttyPush_iflag]
    rw [hedit]
    exact ⟨tty', hlist', hinv⟩

/-- **The step lemma.** -/
theorem Inv.step (h : s.Inv) (hok : s.Ok a) (hs : s.Steps krealloc a s') : s'.Inv := by
  obtain ⟨⟨tty, rest, hfirst, hinv⟩, hshift, hcaps⟩ := h
  obtain ⟨tty₁, rest₁, hfirst₁, hs⟩ := hs
  obtain ⟨rfl, rfl⟩ : tty₁ = tty ∧ rest₁ = rest := by
    have heq := hfirst₁.symm.trans hfirst
    simp only [List.cons.injEq, Prod.mk.injEq, true_and] at heq
    exact heq
  cases a with
  | key mem scancode =>
    subst hs
    have hthree := @length_keyText_le s.codes scancode
    have hroom : s.pending.length + 3 ≤ 32768 := hok
    have hfit : s.pending.length + (keyText s.codes scancode).length ≤ 32768 := by omega
    obtain ⟨tty', hlist, hinv'⟩ := addstring_inv hfirst hinv hfit
    refine ⟨⟨tty', rest₁, ?_, hinv'⟩, ?_, ?_⟩
    · rw [First, KeyboardDriver.interruptHandler_eq hshift hcaps]
      exact hlist
    · rw [KeyboardDriver.interruptHandler_eq hshift hcaps]
    · rw [KeyboardDriver.interruptHandler_eq hshift hcaps]
  | read size nmemb =>
    obtain ⟨line, i, tty', hread, rfl⟩ := hs
    exact ⟨⟨tty', rest₁, rfl, hinv.step (a := .read size nmemb) hok ⟨⟨line, i, hread⟩, rfl⟩⟩,
      hshift, hcaps⟩
  | setFlags iflag lflag =>
    subst hs
    exact ⟨⟨_, rest₁, rfl, hinv.step (a := .setFlags iflag lflag) hok rfl⟩, hshift, hcaps⟩
  | popchar =>
    subst hs
    exact ⟨⟨tty₁, rest₁, hfirst, hinv⟩, hshift, hcaps⟩

/-- **The run lemma.** -/
theorem inv_of_reach (h : Run krealloc s) : s.Inv := by
  refine h.invariant (P := Inv) ?_ fun t a t' ht hok hs => ht.step hok hs
  rintro t ⟨mem, mem', rest, rfl⟩
  exact ⟨⟨_, rest, rfl, Tty.canonical_create, Tty.fits_create, Tty.contents_create⟩, rfl, rfl⟩

/-- A key in a state that is reached. -/
theorem exists_run_key (h : Run krealloc s) (hroom : s.pending.length + 3 ≤ 32768)
    (scancode : UInt8) : ∃ s' tty, Run krealloc s' ∧ s'.codes = s.codes ++ [scancode] ∧
      s'.pending = edit tty (keyText s.codes scancode) s.pending := by
  obtain ⟨tty, rest, hfirst, -⟩ := (inv_of_reach h).terminal
  have hok : s.Ok (.key (fun _ _ => 0) scancode) := hroom
  exact ⟨_, tty, h.step hok ⟨tty, rest, hfirst, rfl⟩, rfl, rfl⟩

/-- A character that is not edited. -/
theorem edit_singleton {c : UInt8} {pending : List UInt8} (hback : c ≠ backspace)
    (hcr : c ≠ carriageReturn) : edit tty [c] pending = pending ++ [c] := by
  rw [edit, List.foldl_cons, List.foldl_nil, LineEditor.push, if_neg hback, if_neg fun h => hcr h.2]

end Typing

end Xana
