import Xana.Video.Buffer

/-!
# Several colour codes in one sequence

`ESC [ 1 ; 38 ; 5 ; 12 ; 44 m` is meant to be what `ESC [ 1 m`, `ESC [ 38 ; 5 ; 12 m` and
`ESC [ 44 m` are one after the other. The parser reads decimal numbers, and the machine
behind it (`Xana.handleEscapeSequenceColor`) must be back in `ANSI_STATE_NONE` behind every
item: an item is one number, or three for one of the 256 colours.

`Xana.runCodes` is what the loop of the parser computes, over the characters of the
sequence; over numbers with semicolons between them it is a fold of the machine
(`Xana.runCodes_params`).
-/

namespace Xana

open Mem

/-! ### Items -/

/-- The codes that set a colour by themselves, or nothing. -/
def IsBasicCode (code : ℕ) : Prop :=
  code = 0 ∨ code = 1 ∨ code = 4 ∨ (30 ≤ code ∧ code ≤ 37) ∨ (40 ≤ code ∧ code ≤ 47) ∨
    (90 ≤ code ∧ code ≤ 97) ∨ (100 ≤ code ∧ code ≤ 107)

/-- **An item**: a code, or one of 256 colours for the foreground or the background. -/
inductive SgrItem
  | basic (code : ℕ) (h : IsBasicCode code)
  | foreground (n : UInt8)
  | background (n : UInt8)

namespace SgrItem

/-- The parameters of an item. -/
def codes : SgrItem → List ℕ
  | basic code _ => [code]
  | foreground n => [38, 5, n.toNat]
  | background n => [48, 5, n.toNat]

/-- The foreground that an item sets. -/
def fg : SgrItem → Option (BitVec 32)
  | basic code _ =>
      if code = 0 then some (rgb2color 0xAA 0xAA 0xAA)
      else if 30 ≤ code ∧ code ≤ 37 then some (darkColor (code - 30))
      else if 90 ≤ code ∧ code ≤ 97 then some (lightColor (code - 90))
      else none
  | foreground n => some (ansi216ToRgb n.toNat)
  | background _ => none

/-- The background that an item sets. -/
def bg : SgrItem → Option (BitVec 32)
  | basic code _ =>
      if code = 0 then some (rgb2color 0 0 0)
      else if 40 ≤ code ∧ code ≤ 47 then some (darkColor (code - 40))
      else if 100 ≤ code ∧ code ≤ 107 then some (lightColor (code - 100))
      else none
  | foreground _ => none
  | background n => some (ansi216ToRgb n.toNat)

end SgrItem

/-- A number in decimal. -/
def decimal (n : ℕ) : List UInt8 := (Nat.toDigits 10 n).map Char.toUInt8

/-- The parameters of a sequence, with semicolons between them. -/
def paramText : List ℕ → List UInt8
  | [] => []
  | [code] => decimal code
  | code :: codes => decimal code ++ 59 :: paramText codes

/-- **The sequence for some items**: `[`, their parameters, and `m`. -/
def sgrText (items : List SgrItem) : List UInt8 :=
  91 :: (paramText (items.flatMap SgrItem.codes) ++ [109])

/-- The last of some values, or what was there. -/
def lastSet (mode : ColorMode) (set : List (BitVec 32)) (old : BitVec 32) : BitVec 32 :=
  (set.getLast?.map (framebufferGetColor mode)).getD old

/-! ### The loop of the parser -/

/-- What the loop computes over the characters before the `m`. -/
def runCodes (mode : ColorMode) : List UInt8 → ℕ → Colors → Colors
  | [], color, s => handleEscapeSequenceColor mode color s
  | c :: text, color, s =>
      if isDigit c then runCodes mode text (addDigit color c) s
      else if c = 59 then runCodes mode text 0 (handleEscapeSequenceColor mode color s)
      else runCodes mode text color s

section Loop

variable {mode : ColorMode} {text l : List UInt8} {seq : ℕ → UInt8} {color code n v : ℕ}
  {s : Colors} {codes : List ℕ}

/-- **What the loop computes**, from the `k`-th character on. -/
theorem colorCodes_eq {k : ℕ} (hseq : Mem.At seq k (text ++ [109])) (hm : 109 ∉ text)
    (hn : text.length < n) :
    colorCodes mode n (fun i => seq (k + i)) color s = some (runCodes mode text color s) := by
  induction text generalizing k color s n with
  | nil =>
    obtain ⟨n, rfl⟩ := Nat.exists_eq_succ_of_ne_zero hn.ne'
    have h0 : seq (k + 0) = 109 := by simpa [Mem.At, Mem.read] using hseq
    rw [colorCodes, if_pos h0]
    rfl
  | cons c text ih =>
    obtain ⟨n, rfl⟩ := Nat.exists_eq_succ_of_ne_zero (Nat.ne_zero_of_lt hn)
    rw [List.mem_cons, not_or] at hm
    obtain ⟨h0, hrest⟩ := List.cons.inj hseq
    have hshift : (fun i => seq (k + (i + 1))) = fun i => seq (k + 1 + i) := by
      funext i
      rw [add_assoc, add_comm 1 i]
    have hlen : text.length < n := Nat.lt_of_succ_lt_succ hn
    have h0' : seq (k + 0) = c := h0
    rw [colorCodes, h0', if_neg fun h => hm.1 h.symm, runCodes, hshift]
    split_ifs
    · exact ih hrest hm.2 hlen
    · exact ih hrest hm.2 hlen
    · exact ih hrest hm.2 hlen

/-! ### Numbers -/

theorem toNat_toUInt8 {d : Char} (hd : d.isDigit = true) :
    d.toUInt8.toNat = d.toNat ∧ 48 ≤ d.toNat ∧ d.toNat ≤ 57 := by
  simp only [Char.isDigit, Bool.and_eq_true, decide_eq_true_eq, ge_iff_le, UInt32.le_iff_toNat_le]
    at hd
  obtain ⟨hle, hge⟩ := hd
  have hval : d.val.toNat = d.toNat := rfl
  have hlow : '0'.val.toNat = 48 := rfl
  have hhigh : '9'.val.toNat = 57 := rfl
  rw [hval] at hle hge
  refine ⟨?_, by omega, by omega⟩
  rw [Char.toUInt8, UInt32.toNat_toUInt8, hval]
  omega

theorem isDigit_of_mem_decimal {c : UInt8} (hc : c ∈ decimal n) : isDigit c = true := by
  obtain ⟨d, hd, rfl⟩ := List.mem_map.mp hc
  obtain ⟨heq, hle, hge⟩ := toNat_toUInt8 (Nat.isDigit_of_mem_toDigits (by decide) (by decide) hd)
  simp only [isDigit, Bool.and_eq_true, decide_eq_true_eq, UInt8.le_iff_toNat_le, heq]
  exact ⟨hle, hge⟩

theorem le_ofDigitChars (digits : List Char) (v : ℕ) : v ≤ Nat.ofDigitChars 10 digits v := by
  rw [Nat.ofDigitChars_eq_ofDigitChars_zero]
  exact (Nat.le_mul_of_pos_left v (Nat.pow_pos (by decide))).trans (Nat.le_add_right _ _)

/-- The digits of a number that fits give the number. -/
theorem foldl_addDigit {digits : List Char} (hdigits : ∀ d ∈ digits, d.isDigit = true)
    (hlt : Nat.ofDigitChars 10 digits v < 2 ^ 32) :
    (digits.map Char.toUInt8).foldl addDigit v = Nat.ofDigitChars 10 digits v := by
  induction digits generalizing v with
  | nil => simp
  | cons d digits ih =>
    obtain ⟨hd, hdigits⟩ := List.forall_mem_cons.mp hdigits
    rw [Nat.ofDigitChars_cons] at hlt ⊢
    have hle := le_ofDigitChars digits (10 * v + (d.toNat - '0'.toNat))
    have hstep : addDigit v d.toUInt8 = 10 * v + (d.toNat - '0'.toNat) := by
      rw [addDigit, (toNat_toUInt8 hd).1, mul_comm]
      exact Nat.mod_eq_of_lt (hle.trans_lt hlt)
    rw [List.map_cons, List.foldl_cons, hstep]
    exact ih hdigits hlt

theorem foldl_decimal (hn : n < 2 ^ 32) : (decimal n).foldl addDigit 0 = n := by
  rw [decimal, foldl_addDigit (fun d hd => Nat.isDigit_of_mem_toDigits (by decide) (by decide) hd)]
  · exact Nat.ofDigitChars_ten_toDigits
  · rwa [Nat.ofDigitChars_ten_toDigits]

theorem runCodes_digits (hl : ∀ c ∈ l, isDigit c = true) :
    runCodes mode (l ++ text) color s = runCodes mode text (l.foldl addDigit color) s := by
  induction l generalizing color with
  | nil => rfl
  | cons c l ih =>
    obtain ⟨hc, hl⟩ := List.forall_mem_cons.mp hl
    rw [List.cons_append, runCodes, if_pos hc, ih hl]
    rfl

/-- **A list of parameters goes through the machine one by one.** -/
theorem runCodes_params (hcodes : ∀ c ∈ codes, c < 2 ^ 32) (hne : codes ≠ []) :
    runCodes mode (paramText codes) 0 s =
      codes.foldl (fun s code => handleEscapeSequenceColor mode code s) s := by
  induction codes generalizing s with
  | nil => exact absurd rfl hne
  | cons code codes ih =>
    obtain ⟨hcode, hcodes⟩ := List.forall_mem_cons.mp hcodes
    have hdigits := fun c (hc : c ∈ decimal code) => isDigit_of_mem_decimal hc
    cases codes with
    | nil =>
      have hlast : runCodes mode (decimal code ++ []) 0 s =
          runCodes mode [] ((decimal code).foldl addDigit 0) s := runCodes_digits hdigits
      rw [List.append_nil, foldl_decimal hcode] at hlast
      exact hlast
    | cons next codes =>
      rw [paramText, runCodes_digits hdigits, foldl_decimal hcode, runCodes,
        if_neg (by decide), if_pos rfl, ih hcodes (List.cons_ne_nil _ _)]
      · rfl
      · exact fun h => absurd h (List.cons_ne_nil _ _)

end Loop

/-! ### One item, and several -/

section Items

variable {mode : ColorMode} {s : Colors} {items : List SgrItem} {set : List (BitVec 32)}
  {old : BitVec 32}

/-- The machine over the parameters of some items. -/
def runItems (mode : ColorMode) (items : List SgrItem) (s : Colors) : Colors :=
  (items.flatMap SgrItem.codes).foldl (fun s code => handleEscapeSequenceColor mode code s) s

theorem runItems_cons (i : SgrItem) :
    runItems mode (i :: items) s = runItems mode items (runItems mode [i] s) := by
  simp only [runItems, List.flatMap_cons, List.flatMap_nil, List.append_nil, List.foldl_append]

/-- **Behind an item the machine is where it was**, and the item's colours are set. -/
theorem runItems_singleton (i : SgrItem) (hs : s.state = .none) : runItems mode [i] s =
    ⟨.none, (i.fg.map (framebufferGetColor mode)).getD s.videoFg,
      (i.bg.map (framebufferGetColor mode)).getD s.videoBg⟩ := by
  obtain ⟨state, fg, bg⟩ := s
  obtain rfl : state = .none := hs
  cases i with
  | basic code h =>
    have hstep : runItems mode [.basic code h] ⟨.none, fg, bg⟩ =
        basicColor mode code ⟨.none, fg, bg⟩ := rfl
    rw [hstep, basicColor, SgrItem.fg, SgrItem.bg]
    rw [IsBasicCode] at h
    split_ifs <;> first | rfl | omega
  | foreground n =>
    have hn := n.toNat_lt
    simp [runItems, SgrItem.codes, SgrItem.fg, SgrItem.bg, handleEscapeSequenceColor, basicColor,
      Colors.setFg, Nat.mod_eq_of_lt hn]
  | background n =>
    have hn := n.toNat_lt
    simp [runItems, SgrItem.codes, SgrItem.fg, SgrItem.bg, handleEscapeSequenceColor, basicColor,
      Colors.setBg, Nat.mod_eq_of_lt hn]

theorem lastSet_toList_append (o : Option (BitVec 32)) : lastSet mode (o.toList ++ set) old =
    lastSet mode set ((o.map (framebufferGetColor mode)).getD old) := by
  cases o with
  | none => rfl
  | some color =>
    cases set with
    | nil => rfl
    | cons c set =>
      have hlast : (some color).toList ++ c :: set = [color] ++ (c :: set) := rfl
      rw [lastSet, lastSet, hlast, List.getLast?_append_of_ne_nil _ (List.cons_ne_nil _ _)]
      cases h : (c :: set).getLast? with
      | none => exact absurd (List.getLast?_eq_none_iff.mp h) (List.cons_ne_nil _ _)
      | some d => rfl

theorem filterMap_cons_toList {α : Type*} {l : List α} {f : α → Option (BitVec 32)} (i : α) :
    (i :: l).filterMap f = (f i).toList ++ l.filterMap f := by
  cases h : f i with
  | none => simp [h]
  | some c => simp [h]

/-- **Behind some items the last of each kind counts.** -/
theorem runItems_eq (hs : s.state = .none) : runItems mode items s =
    ⟨.none, lastSet mode (items.filterMap SgrItem.fg) s.videoFg,
      lastSet mode (items.filterMap SgrItem.bg) s.videoBg⟩ := by
  induction items generalizing s with
  | nil =>
    obtain ⟨state, fg, bg⟩ := s
    obtain rfl : state = .none := hs
    rfl
  | cons i items ih =>
    rw [runItems_cons, runItems_singleton i hs, ih rfl, filterMap_cons_toList,
      filterMap_cons_toList, lastSet_toList_append, lastSet_toList_append]

theorem codes_lt (i : SgrItem) : ∀ c ∈ i.codes, c < 2 ^ 32 := by
  cases i with
  | basic code h =>
    rw [IsBasicCode] at h
    simp only [SgrItem.codes, List.mem_singleton, forall_eq]
    omega
  | foreground n =>
    have hn := n.toNat_lt
    simp only [SgrItem.codes, List.mem_cons, List.not_mem_nil, or_false]
    rintro c (rfl | rfl | rfl) <;> omega
  | background n =>
    have hn := n.toNat_lt
    simp only [SgrItem.codes, List.mem_cons, List.not_mem_nil, or_false]
    rintro c (rfl | rfl | rfl) <;> omega

theorem codes_ne_nil (hne : items ≠ []) : items.flatMap SgrItem.codes ≠ [] := by
  obtain ⟨i, items, rfl⟩ := List.exists_cons_of_ne_nil hne
  cases i <;> simp [SgrItem.codes]

end Items

/-! ### The parser -/

section Parser

variable {mode : ColorMode} {codes : List ℕ} {items : List SgrItem} {s s' : Colors} {c : Console}
  {text : List UInt8} {d : UInt8}
variable (src : FrameSource) (screen : Screen)

/-- `parse_escape_sequence` of a text leads from some colours to others, whatever else the
console is like. -/
def ParsesTo (text : List UInt8) (s s' : Colors) : Prop :=
  ∀ c : Console, Holds c.sequence text → c.colors = s →
    Returns (fun n => (parseEscapeSequence screen n (videoPutc src screen n) c).map Console.colors)
      s'

/-- Each item is parsed as a sequence of its own. -/
def ParsedInOrder : List SgrItem → Colors → Colors → Prop
  | [], s, s' => s' = s
  | i :: items, s, s' =>
      ∃ s₁, ParsesTo src screen (sgrText [i]) s s₁ ∧ ParsedInOrder items s₁ s'

variable {src screen}

/-- The last character of a sequence. -/
theorem Console.command_eq (h : Holds c.sequence (text ++ [d])) :
    c.machine.mem (c.escapeSequence + (text ++ [d]).length - 1) = d := by
  have hat := (holds_iff.mp h).2
  rw [at_append] at hat
  have hlast := hat.1.apply (n := text.length) (by simp)
  simpa [Console.sequence, Nat.add_assoc] using hlast

/-- A console that holds a text in its buffer. -/
theorem exists_console (h : 0 ∉ text) : ∃ c : Console, Holds c.sequence text := by
  obtain ⟨m, -⟩ := exists_consoleInit
  refine ⟨{ bootConsole { m with mem := chars text } with escapeSequence := 0 }, ?_⟩
  have hsame :
      Console.sequence { bootConsole { m with mem := chars text } with escapeSequence := 0 } =
      chars text := funext fun i => congrArg (chars text) (Nat.zero_add i)
  rw [hsame]
  exact holds_chars h

theorem mem_paramText {d : UInt8} (hd : d ∈ paramText codes) : isDigit d = true ∨ d = 59 := by
  induction codes with
  | nil => simp [paramText] at hd
  | cons code codes ih =>
    cases codes with
    | nil => exact Or.inl (isDigit_of_mem_decimal hd)
    | cons next codes =>
      rw [paramText, List.mem_append, List.mem_cons] at hd
      rcases hd with hd | rfl | hd
      · exact Or.inl (isDigit_of_mem_decimal hd)
      · exact Or.inr rfl
      · exact ih hd
      · exact fun h => absurd h (List.cons_ne_nil _ _)

/-- **The parser runs the loop over the characters** in front of the `m`. -/
theorem parsesTo_runCodes (hm : 109 ∉ text) :
    ParsesTo src screen (91 :: (text ++ [109])) s (runCodes screen.mode text 0 s) := by
  rintro c hc rfl
  have hm' : 109 ∉ 91 :: text := by
    rw [List.mem_cons, not_or]
    exact ⟨by decide, hm⟩
  have hat : Mem.At c.sequence 0 ((91 :: text) ++ [109]) := by
    have h := (holds_iff.mp hc).2
    rw [at_append] at h
    exact h.1
  have hrun : runCodes screen.mode (91 :: text) 0 c.colors =
      runCodes screen.mode text 0 c.colors := by
    rw [runCodes, if_neg (by decide), if_neg (by decide)]
  have hcommand : c.machine.mem (c.escapeSequence + (91 :: text ++ [109]).length - 1) = 109 :=
    Console.command_eq hc
  refine ⟨text.length + 3, fun n hn => ?_⟩
  have hcolors : colorCodes screen.mode n (fun i => Console.sequence c (0 + i)) 0 c.colors =
      some (runCodes screen.mode (91 :: text) 0 c.colors) :=
    colorCodes_eq hat hm' (by simp only [List.length_cons]; omega)
  simp only [Nat.zero_add] at hcolors
  have hlen := strlen_eq hc (n := n) (by simp; omega)
  simp only [List.cons_append] at hcommand
  simp only [parseEscapeSequence, hlen, Option.bind_eq_bind, Option.bind_some, hcommand, if_true,
    hcolors, hrun, Option.pure_def, Option.map_some]

/-- **The parser runs the machine over the parameters.** -/
theorem parsesTo_sgrText (hne : items ≠ []) :
    ParsesTo src screen (sgrText items) s (runItems screen.mode items s) := by
  have hm : 109 ∉ paramText (items.flatMap SgrItem.codes) := by
    intro hmem
    rcases mem_paramText hmem with h | h
    · exact absurd h (by decide)
    · exact absurd h (by decide)
  have hrun : runCodes screen.mode (paramText (items.flatMap SgrItem.codes)) 0 s =
      runItems screen.mode items s := by
    refine runCodes_params ?_ (codes_ne_nil hne)
    intro code hcode
    obtain ⟨i, -, hi⟩ := List.mem_flatMap.mp hcode
    exact codes_lt i code hi
  rw [← hrun]
  exact parsesTo_runCodes hm

theorem parsedInOrder_runItems (hs : s.state = .none) :
    ParsedInOrder src screen items s (runItems screen.mode items s) := by
  induction items generalizing s with
  | nil => rfl
  | cons i items ih =>
    refine ⟨runItems screen.mode [i] s, parsesTo_sgrText (List.cons_ne_nil _ _), ?_⟩
    have hcons : runItems screen.mode (i :: items) s =
        runItems screen.mode items (runItems screen.mode [i] s) := runItems_cons i
    rw [hcons]
    exact ih (congrArg Colors.state (runItems_singleton i hs))

/-- **One sequence for several items does what their own sequences do one after the other.** -/
theorem sgr_composes (hne : items ≠ []) (hs : s.state = .none) : ∃ s',
    ParsesTo src screen (sgrText items) s s' ∧ ParsedInOrder src screen items s s' ∧
      s'.state = .none ∧
      s'.videoFg = lastSet screen.mode (items.filterMap SgrItem.fg) s.videoFg ∧
      s'.videoBg = lastSet screen.mode (items.filterMap SgrItem.bg) s.videoBg := by
  refine ⟨runItems screen.mode items s, parsesTo_sgrText hne, parsedInOrder_runItems hs, ?_⟩
  rw [runItems_eq hs]
  exact ⟨rfl, rfl, rfl⟩

theorem sgr_composes_red : ∃ s',
    ParsesTo bootFrames bootScreen (sgrText [.basic 31 (by simp [IsBasicCode]), .foreground 9])
        ⟨.none, 0, 0⟩ s' ∧ s'.state = .none ∧ s'.videoFg = rgb2color 255 0 0 ∧ s'.videoBg = 0 := by
  obtain ⟨s', hparse, -, hstate, hfg, hbg⟩ := @sgr_composes
    [.basic 31 (by simp [IsBasicCode]), .foreground 9] ⟨.none, 0, 0⟩ bootFrames bootScreen
    (List.cons_ne_nil _ _) rfl
  refine ⟨s', hparse, hstate, hfg.trans ?_, hbg.trans ?_⟩
  · simp [lastSet, SgrItem.fg, ansi216ToRgb, lowRgb, framebufferGetColor, bootScreen]
  · simp [lastSet, SgrItem.bg]

end Parser

end Xana
