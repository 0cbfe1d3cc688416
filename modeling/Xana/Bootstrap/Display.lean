import Xana.String.Printf
import Xana.Video.Sgr

/-!
# The colours of the bootstrap

The bootstrap's `printf` treats an `ESC [ … m` in its format itself, with two indices; the
kernel's `parse_escape_sequence` reads the same characters one by one, and gives the number so
far to `handle_escape_sequence_color` at each semicolon and at the end. On the codes that both
know they agree, and a parameter without digits is 0 for both – a reset – if a semicolon is
behind it. But the bootstrap's loop ends where the text does, so that it does not see an empty
parameter there: `ESC [ m` and `ESC [ 31 ; m` do not reset its colours
(`Xana.Bootstrap.sameColors_iff`).

The bootstrap runs in 32 bits; no format is too long for its indices. The numbers in both
have 32 bits, too.
-/

namespace Xana

namespace Bootstrap

open Mem

/-! ### The function -/

/-- `video_fg` and `video_bg` of the bootstrap. -/
structure Pen where
  videoFg : BitVec 32
  videoBg : BitVec 32

namespace Pen

variable (mode : ColorMode)

/-- `video_setfg` -/
def setFg (color : BitVec 32) (p : Pen) : Pen :=
  { p with videoFg := framebufferGetColor mode color }

/-- `video_setbg` -/
def setBg (color : BitVec 32) (p : Pen) : Pen :=
  { p with videoBg := framebufferGetColor mode color }

end Pen

/-- The `switch` over a number. -/
def selectColor (mode : ColorMode) (num : ℕ) (p : Pen) : Pen :=
  if num = 0 then (p.setFg mode (rgb2color 0xAA 0xAA 0xAA)).setBg mode (rgb2color 0 0 0)
  else if 30 ≤ num ∧ num ≤ 37 then p.setFg mode (darkColor (num - 30))
  else if 40 ≤ num ∧ num ≤ 47 then p.setBg mode (darkColor (num - 40))
  else if 90 ≤ num ∧ num ≤ 97 then p.setFg mode (lightColor (num - 90))
  else if 100 ≤ num ∧ num ≤ 107 then p.setBg mode (lightColor (num - 100))
  else p

/-- The loop that reads a number, in at most so many rounds: the number, and where it ends. -/
def readNumber (format : ℕ → UInt8) : ℕ → ℕ → ℕ → Option (ℕ × ℕ)
  | 0, _, _ => none
  | n + 1, num, startI =>
      if isDigit (format startI) then
        readNumber format n (addDigit num (format startI)) (startI + 1)
      else some (num, startI)

/-- The loop over the numbers, in at most so many rounds. -/
def numbersLoop (mode : ColorMode) (format : ℕ → UInt8) (endI : ℕ) : ℕ → ℕ → Pen → Option Pen
  | 0, _, _ => none
  | n + 1, startI, p =>
      if startI < endI then do
        let (num, startI) ← readNumber format n 0 startI
        numbersLoop mode format endI n (startI + 1) (selectColor mode num p)
      else some p

/-- The loop that looks for the end of a sequence, in at most so many rounds. -/
def sequenceEnd (format : ℕ → UInt8) : ℕ → ℕ → Option ℕ
  | 0, _ => none
  | n + 1, endI =>
      if (isDigit (format endI) = true ∨ format endI = 59) ∧ format endI ≠ 0 then
        sequenceEnd format n (endI + 1)
      else some endI

/-- The loop of `printf`, in at most so many rounds: the characters it passes to `video_putc`, and
the colours it leaves. What it does for a `%` is what `kprintf` does. -/
def printfLoop (mode : ColorMode) (m : Mem) (format : ℕ → UInt8) (len : ℕ) :
    ℕ → ℕ → List ℕ → Mem → Pen → Option (List UInt8 × Pen)
  | 0, _, _, _, _ => none
  | n + 1, i, args, buffer, p =>
      if i < len then
        if format i = 37 then do
          let put ← kprintfDirective m format n (i + 1) args buffer
          let (text, p) ← printfLoop mode m format len n (put.i + 1) put.args put.buffer p
          some (put.text ++ text, p)
        else if format i = 27 then
          if format (i + 1) = 91 then do
            let endI ← sequenceEnd format n (i + 2)
            -- the `break` leaves the loop over the format
            if format endI = 0 then some ([], p)
            else if format endI = 109 then do
              let p ← numbersLoop mode format endI n (i + 2) p
              printfLoop mode m format len n (endI + 1) args buffer p
            -- no sequence of colours: only the `ESC` is left out
            else printfLoop mode m format len n (i + 1) args buffer p
          else do
            let (text, p) ← printfLoop mode m format len n (i + 1) args buffer p
            some (format i :: text, p)
        else do
          let (text, p) ← printfLoop mode m format len n (i + 1) args buffer p
          some (format i :: text, p)
      else some ([], p)

/-- `printf` -/
def printf (n : ℕ) (mode : ColorMode) (m : Mem) (format : ℕ → UInt8) (args : List ℕ) (buffer : Mem)
    (p : Pen) : Option (List UInt8 × Pen) := do
  let len ← strlen n format
  printfLoop mode m format len n 0 args buffer p

/-! ### What is expected -/

/-- The characters that may be between `ESC [` and `m`. -/
def IsParams (text : List UInt8) : Prop := ∀ c ∈ text, inSequence c = true

instance : DecidablePred IsParams := fun text =>
  List.decidableBAll (fun c => inSequence c = true) text

/-- The numbers between the semicolons, with what has been read of the first one. -/
def params : List UInt8 → ℕ → List ℕ
  | [], num => [num]
  | c :: text, num => if c = 59 then num :: params text 0 else params text (addDigit num c)

/-- The same without the last one, if it has no digits. -/
def seenFrom : List UInt8 → ℕ → List ℕ
  | [], num => [num]
  | c :: text, num =>
      if c = 59 then num :: if text = [] then [] else seenFrom text 0
      else seenFrom text (addDigit num c)

/-- The numbers that have digits, or a semicolon behind them. -/
def seenParams (text : List UInt8) : List ℕ := if text = [] then [] else seenFrom text 0

/-- The foreground that a number sets. -/
def fgOf (num : ℕ) : Option (BitVec 32) :=
  if num = 0 then some (rgb2color 0xAA 0xAA 0xAA)
  else if 30 ≤ num ∧ num ≤ 37 then some (darkColor (num - 30))
  else if 90 ≤ num ∧ num ≤ 97 then some (lightColor (num - 90))
  else none

/-- The background that a number sets. -/
def bgOf (num : ℕ) : Option (BitVec 32) :=
  if num = 0 then some (rgb2color 0 0 0)
  else if 40 ≤ num ∧ num ≤ 47 then some (darkColor (num - 40))
  else if 100 ≤ num ∧ num ≤ 107 then some (lightColor (num - 100))
  else none

/-- The last colours that numbers set, or those there were. -/
def lastColors (mode : ColorMode) (nums : List ℕ) (p : Pen) : Pen :=
  ⟨lastSet mode (nums.filterMap fgOf) p.videoFg, lastSet mode (nums.filterMap bgOf) p.videoBg⟩

/-- The colours behind a reset. -/
def resetPen (mode : ColorMode) : Pen :=
  ⟨framebufferGetColor mode (rgb2color 0xAA 0xAA 0xAA), framebufferGetColor mode (rgb2color 0 0 0)⟩

/-- `printf` of a format leaves some colours and puts no character, whatever its arguments are. -/
def PrintfLeaves (mode : ColorMode) (l : List UInt8) (p p' : Pen) : Prop :=
  ∀ (m : Mem) (format : ℕ → UInt8) (args : List ℕ) (buffer : Mem), Holds format l →
    Returns (fun n => printf n mode m format args buffer p) ([], p')

/-- **What is expected**: a text between `ESC [` and `m` leaves the same colours in the bootstrap
and in the kernel. -/
def SameColors (src : FrameSource) (screen : Screen) (text : List UInt8) (p : Pen) : Prop :=
  ∃ p' state, PrintfLeaves screen.mode (27 :: 91 :: (text ++ [109])) p p' ∧
    ParsesTo src screen (91 :: (text ++ [109])) ⟨.none, p.videoFg, p.videoBg⟩
      ⟨state, p'.videoFg, p'.videoBg⟩

section Text

variable {mode : ColorMode} {text l : List UInt8} {format : ℕ → UInt8} {num n k i endI : ℕ}
  {c : UInt8} {p p' q : Pen} {nums : List ℕ} {fg bg : BitVec 32} {src : FrameSource}
  {screen : Screen}

/-! ### The numbers -/

theorem inSequence_iff : inSequence c = true ↔ isDigit c = true ∨ c = 59 := by
  rw [inSequence, Bool.or_eq_true, beq_iff_eq]

theorem params_eq_seenFrom (text : List UInt8) (num : ℕ) :
    params text num = seenFrom text num ++ if text.getLast? = some 59 then [0] else [] := by
  induction text generalizing num with
  | nil => rfl
  | cons c text ih =>
    rw [params, seenFrom]
    cases text with
    | nil =>
      by_cases hc : c = 59
      · subst hc
        rfl
      · rw [if_neg hc, if_neg hc, if_neg (by simpa using hc)]
        rfl
    | cons d text =>
      rw [List.getLast?_cons_cons, ih, ih, if_neg (List.cons_ne_nil _ _)]
      split_ifs <;> rfl

/-- **The numbers that the kernel sees** are those the bootstrap sees, and one more, which is 0, if
the last has no digits. -/
theorem params_eq (text : List UInt8) : params text 0 = seenParams text ++
    if text = [] ∨ text.getLast? = some 59 then [0] else [] := by
  rw [seenParams]
  by_cases h : text = []
  · subst h
    rfl
  · rw [params_eq_seenFrom, if_neg h]
    simp only [h, false_or]

/-! ### The kernel -/

/-- **The kernel's loop** gives the numbers to the machine one by one. -/
theorem runCodes_eq {s : Colors} (h : IsParams text) : runCodes mode text num s =
    (params text num).foldl (fun s num => handleEscapeSequenceColor mode num s) s := by
  induction text generalizing num s with
  | nil => rfl
  | cons c text ih =>
    obtain ⟨hc, htext⟩ := List.forall_mem_cons.mp h
    rw [runCodes, params]
    by_cases hsemi : c = 59
    · subst hsemi
      rw [if_neg (by decide), if_pos rfl, if_pos rfl, ih htext]
      rfl
    · have hdigit := (inSequence_iff.mp hc).resolve_right hsemi
      rw [if_pos hdigit, if_neg hsemi, ih htext]

/-- The machine does what the `switch` of the bootstrap does, but for two numbers. -/
theorem handleEscapeSequenceColor_eq (h38 : num ≠ 38) (h48 : num ≠ 48) :
    handleEscapeSequenceColor mode num ⟨.none, p.videoFg, p.videoBg⟩ =
      ⟨.none, (selectColor mode num p).videoFg, (selectColor mode num p).videoBg⟩ := by
  change basicColor mode num _ = _
  rw [basicColor, selectColor, if_neg h38, if_neg h48]
  split_ifs <;> rfl

theorem foldl_handleEscapeSequenceColor (hnums : ∀ num ∈ nums, num ≠ 38 ∧ num ≠ 48) :
    nums.foldl (fun s num => handleEscapeSequenceColor mode num s) ⟨.none, p.videoFg, p.videoBg⟩ =
      ⟨.none, (nums.foldl (fun p num => selectColor mode num p) p).videoFg,
        (nums.foldl (fun p num => selectColor mode num p) p).videoBg⟩ := by
  induction nums generalizing p with
  | nil => rfl
  | cons num nums ih =>
    obtain ⟨⟨h38, h48⟩, hnums⟩ := List.forall_mem_cons.mp hnums
    rw [List.foldl_cons, List.foldl_cons, handleEscapeSequenceColor_eq h38 h48, ih hnums]

/-- **What the `switch` leaves over some numbers**: the last colours they set. -/
theorem foldl_selectColor (mode : ColorMode) (nums : List ℕ) (p : Pen) :
    nums.foldl (fun p num => selectColor mode num p) p = lastColors mode nums p := by
  induction nums generalizing p with
  | nil => rfl
  | cons num nums ih =>
    have hone : selectColor mode num p =
        ⟨((fgOf num).map (framebufferGetColor mode)).getD p.videoFg,
          ((bgOf num).map (framebufferGetColor mode)).getD p.videoBg⟩ := by
      rw [selectColor, fgOf, bgOf]
      split_ifs <;> first | rfl | omega
    rw [List.foldl_cons, ih, hone, lastColors, lastColors, filterMap_cons_toList,
      filterMap_cons_toList, lastSet_toList_append, lastSet_toList_append]

/-! ### The bootstrap -/

/-- **The end of a sequence** is the first character that does not belong to it. -/
theorem sequenceEnd_eq (hat : Mem.At format i (text ++ [c])) (htext : IsParams text)
    (hc : inSequence c = false) (hn : text.length < n) :
    sequenceEnd format n i = some (i + text.length) := by
  induction text generalizing i n with
  | nil =>
    obtain ⟨n, rfl⟩ := Nat.exists_eq_succ_of_ne_zero hn.ne'
    have h0 : format i = c := (List.cons.inj hat).1
    rw [sequenceEnd, h0, if_neg fun h => absurd (inSequence_iff.mpr h.1) (by simp [hc])]
    rfl
  | cons d text ih =>
    obtain ⟨n, rfl⟩ := Nat.exists_eq_succ_of_ne_zero (Nat.ne_zero_of_lt hn)
    obtain ⟨hd, htext⟩ := List.forall_mem_cons.mp htext
    obtain ⟨h0, hrest⟩ := List.cons.inj hat
    have hne : d ≠ 0 := by
      rintro rfl
      exact absurd hd (by decide)
    rw [sequenceEnd, h0, if_pos ⟨inSequence_iff.mp hd, hne⟩,
      ih hrest htext (Nat.lt_of_succ_lt_succ hn), List.length_cons]
    congr 1
    omega

/-- **The loop over the numbers**, from within one of them. -/
theorem readNumber_numbersLoop (hat : Mem.At format i (text ++ [109])) (htext : IsParams text)
    (hend : endI = i + text.length) (hn : text.length < n) (hk : text.length < k) :
    ((readNumber format n num i).bind fun r =>
      numbersLoop mode format endI k (r.2 + 1) (selectColor mode r.1 p)) =
      some ((seenFrom text num).foldl (fun p num => selectColor mode num p) p) := by
  induction text generalizing i num n k p with
  | nil =>
    obtain ⟨n, rfl⟩ := Nat.exists_eq_succ_of_ne_zero hn.ne'
    obtain ⟨k, rfl⟩ := Nat.exists_eq_succ_of_ne_zero hk.ne'
    have h0 : format i = 109 := (List.cons.inj hat).1
    have hend : endI = i := hend
    -- the `m`: the number is complete, and the loop over the numbers is at its end
    rw [readNumber, h0, if_neg (by decide), Option.bind_some, numbersLoop, if_neg (by omega)]
    rfl
  | cons c text ih =>
    obtain ⟨n, rfl⟩ := Nat.exists_eq_succ_of_ne_zero (Nat.ne_zero_of_lt hn)
    obtain ⟨hc, htext'⟩ := List.forall_mem_cons.mp htext
    obtain ⟨h0, hrest⟩ := List.cons.inj hat
    rw [List.length_cons] at hend hn hk
    rw [readNumber, h0, seenFrom]
    by_cases hsemi : c = 59
    · subst hsemi
      obtain ⟨k, rfl⟩ := Nat.exists_eq_succ_of_ne_zero (Nat.ne_zero_of_lt hk)
      rw [if_neg (by decide), if_pos rfl, Option.bind_some, numbersLoop]
      by_cases hnil : text = []
      · -- the semicolon is the last character: what is behind it is not seen
        subst hnil
        rw [if_neg (by rw [hend]; simp), if_pos rfl]
        rfl
      · have hpos := List.length_pos_of_ne_nil hnil
        rw [if_pos (by omega), if_neg hnil, List.foldl_cons]
        exact ih hrest htext' (by omega) (by omega) (by omega)
    · have hdigit := (inSequence_iff.mp hc).resolve_right hsemi
      rw [if_pos hdigit, if_neg hsemi]
      exact ih hrest htext' (by omega) (by omega) (by omega)

/-- **The bootstrap's loop** gives the numbers that it sees to its `switch`. -/
theorem numbersLoop_eq (hat : Mem.At format i (text ++ [109])) (htext : IsParams text)
    (hn : text.length + 1 < n) : numbersLoop mode format (i + text.length) n i p =
      some (lastColors mode (seenParams text) p) := by
  obtain ⟨n, rfl⟩ := Nat.exists_eq_succ_of_ne_zero (Nat.ne_zero_of_lt hn)
  rw [numbersLoop, seenParams]
  by_cases hnil : text = []
  · subst hnil
    rw [if_neg (by simp), if_pos rfl]
    rfl
  · have hpos := List.length_pos_of_ne_nil hnil
    rw [if_pos (by omega), if_neg hnil, ← foldl_selectColor]
    exact readNumber_numbersLoop hat htext rfl (by omega) (by omega)

theorem zero_notMem_text (htext : IsParams text) : 0 ∉ 27 :: 91 :: (text ++ [109]) := by
  simp only [List.mem_cons, List.mem_append, List.not_mem_nil, or_false, not_or]
  exact ⟨by decide, by decide, fun h => absurd (htext 0 h) (by decide), by decide⟩

/-- **What `printf` leaves** behind a sequence of colours. -/
theorem printfLeaves_lastColors (htext : IsParams text) :
    PrintfLeaves mode (27 :: 91 :: (text ++ [109])) p (lastColors mode (seenParams text) p) := by
  intro m format args buffer hformat
  have hat := (holds_iff.mp hformat).2
  have h0 : format 0 = 27 := (List.cons.inj hat).1
  have h1 : format 1 = 91 := (List.cons.inj (List.cons.inj hat).2).1
  have hrest : Mem.At format 2 (text ++ [109]) := by
    have hat2 : Mem.At format 2 ((text ++ [109]) ++ [0]) := (List.cons.inj (List.cons.inj hat).2).2
    exact (at_append.mp hat2).1
  have hm : format (2 + text.length) = 109 := by
    have hlast := hrest.apply (n := text.length) (by simp)
    simpa using hlast
  refine ⟨text.length + 4, fun n hn => ?_⟩
  obtain ⟨n, rfl⟩ := Nat.exists_eq_add_of_le hn
  have hstrlen := strlen_eq hformat (n := text.length + 4 + n) (by simp; omega)
  have hend := sequenceEnd_eq (n := text.length + 3 + n) hrest htext (by decide) (by omega)
  have hloop : numbersLoop mode format (2 + text.length) (text.length + 3 + n) 2 p = some _ :=
    numbersLoop_eq hrest htext (by omega)
  have hlen : (27 :: 91 :: (text ++ [109])).length = text.length + 3 := by simp
  have hsucc : text.length + 4 + n = text.length + 3 + n + 1 := by omega
  have hsucc' : text.length + 3 + n = text.length + 2 + n + 1 := by omega
  change printf (text.length + 4 + n) mode m format args buffer p = _
  rw [printf, hstrlen, hlen]
  change printfLoop mode m format (text.length + 3) (text.length + 4 + n) 0 args buffer p = _
  rw [hsucc, printfLoop, if_pos (by omega), h0, if_neg (by decide), if_pos rfl, Nat.zero_add, h1,
    if_pos rfl, Nat.zero_add, hend, Option.bind_eq_bind, Option.bind_some, hm, if_neg (by decide),
    if_pos rfl, hloop, Option.bind_eq_bind, Option.bind_some, hsucc', printfLoop,
    if_neg (by omega)]

/-! ### The two together -/

/-- **What the kernel leaves**: the last colours that the numbers set which it sees. -/
theorem parsesTo_lastColors (htext : IsParams text)
    (hcodes : ∀ num ∈ params text 0, num ≠ 38 ∧ num ≠ 48) :
    ParsesTo src screen (91 :: (text ++ [109])) ⟨.none, p.videoFg, p.videoBg⟩
      ⟨.none, (lastColors screen.mode (params text 0) p).videoFg,
        (lastColors screen.mode (params text 0) p).videoBg⟩ := by
  have hm : 109 ∉ text := fun h => absurd (htext 109 h) (by decide)
  have hparse : ParsesTo src screen (91 :: (text ++ [109])) ⟨.none, p.videoFg, p.videoBg⟩ _ :=
    parsesTo_runCodes hm
  rwa [runCodes_eq htext, foldl_handleEscapeSequenceColor hcodes, foldl_selectColor] at hparse

/-- A reset at the end. -/
theorem lastColors_append_zero (mode : ColorMode) (nums : List ℕ) (p : Pen) :
    lastColors mode (nums ++ [0]) p = resetPen mode := by
  rw [← foldl_selectColor, List.foldl_append]
  rfl

theorem PrintfLeaves.unique (hl : 0 ∉ l) (h : PrintfLeaves mode l p p')
    (h' : PrintfLeaves mode l p q) : p' = q := by
  have hleaves := h (fun _ => 0) _ [] (fun _ => 0) (holds_chars hl)
  have hleaves' := h' (fun _ => 0) _ [] (fun _ => 0) (holds_chars hl)
  exact congrArg Prod.snd (hleaves.unique hleaves')

theorem ParsesTo.unique {s s₁ s₂ : Colors} (hl : 0 ∉ l) (h₁ : ParsesTo src screen l s s₁)
    (h₂ : ParsesTo src screen l s s₂) : s₁ = s₂ := by
  obtain ⟨c, hc⟩ := exists_console hl
  exact (h₁ { c with colors := s } hc rfl).unique (h₂ { c with colors := s } hc rfl)

/-- The number that the bootstrap does not see makes no difference. -/
theorem lastColors_params_iff (mode : ColorMode) (text : List UInt8) (p : Pen) :
    lastColors mode (seenParams text) p = lastColors mode (params text 0) p ↔
      (text ≠ [] ∧ text.getLast? ≠ some 59) ∨
        lastColors mode (seenParams text) p = resetPen mode := by
  rw [params_eq]
  by_cases h : text = [] ∨ text.getLast? = some 59
  · have hnot : ¬(text ≠ [] ∧ text.getLast? ≠ some 59) := by
      rw [not_and_or, not_not, not_not]
      exact h
    rw [if_pos h, lastColors_append_zero]
    exact (or_iff_right hnot).symm
  · rw [if_neg h, List.append_nil]
    exact iff_of_true rfl (Or.inl (not_or.mp h))

/-- **When the bootstrap and the kernel leave the same colours**: the last number between the
semicolons has digits, or the numbers in front of it leave the colours of a reset. -/
theorem sameColors_iff (htext : IsParams text)
    (hcodes : ∀ num ∈ params text 0, num ≠ 38 ∧ num ≠ 48) :
    SameColors src screen text p ↔ (text ≠ [] ∧ text.getLast? ≠ some 59) ∨
      lastColors screen.mode (seenParams text) p = resetPen screen.mode := by
  have hzero := zero_notMem_text htext
  have hprintf : PrintfLeaves screen.mode (27 :: 91 :: (text ++ [109])) p
      (lastColors screen.mode (seenParams text) p) := printfLeaves_lastColors htext
  have hparse : ParsesTo src screen (91 :: (text ++ [109])) ⟨.none, p.videoFg, p.videoBg⟩ _ :=
    parsesTo_lastColors htext hcodes
  rw [← lastColors_params_iff]
  constructor
  · rintro ⟨p', state, hleaves, hparses⟩
    obtain rfl := PrintfLeaves.unique hzero hleaves hprintf
    have heq := ParsesTo.unique (fun h => hzero (List.mem_cons_of_mem _ h)) hparses hparse
    obtain ⟨-, hfg, hbg⟩ := Colors.mk.inj heq
    exact congrArg₂ Pen.mk hfg hbg
  · intro heq
    rw [← heq] at hparse
    exact ⟨_, _, hprintf, hparse⟩

/-- `ESC [ 31 ; 44 m` -/
theorem sameColors_iff_red : SameColors bootFrames bootScreen [51, 49, 59, 52, 52] ⟨7, 0⟩ ↔
    (([51, 49, 59, 52, 52] : List UInt8) ≠ [] ∧
      ([51, 49, 59, 52, 52] : List UInt8).getLast? ≠ some 59) ∨
      lastColors bootScreen.mode (seenParams [51, 49, 59, 52, 52]) ⟨7, 0⟩ =
        resetPen bootScreen.mode :=
  sameColors_iff (by decide) (by decide)

/-- `ESC [ m` resets the kernel's colours, and not the bootstrap's. -/
theorem not_sameColors : ¬∀ (text : List UInt8) (p : Pen), IsParams text →
    (∀ num ∈ params text 0, num ≠ 38 ∧ num ≠ 48) → SameColors bootFrames bootScreen text p := by
  intro h
  have hsame : SameColors bootFrames bootScreen [] ⟨7, 0⟩ := h [] ⟨7, 0⟩ (by decide) (by decide)
  obtain ⟨p', state, hleaves, hparses⟩ := hsame
  obtain rfl := PrintfLeaves.unique (by decide) hleaves (printfLeaves_lastColors (by decide))
  have hkernel : ParsesTo bootFrames bootScreen (91 :: ([] ++ [109])) ⟨.none, 7, 0⟩ _ :=
    @parsesTo_lastColors [] ⟨7, 0⟩ bootFrames bootScreen (by decide) (by decide)
  have hne : (lastColors bootScreen.mode (seenParams []) ⟨7, 0⟩).videoFg ≠
      (lastColors bootScreen.mode (params [] 0) ⟨7, 0⟩).videoFg := by decide
  exact hne (congrArg Colors.videoFg (ParsesTo.unique (by decide) hparses hkernel))

end Text

end Bootstrap

end Xana
