import Mathlib.Data.List.GetD
import Xana.Device.Objects

/-!
# Names under `/dev`

`device_open` takes a name apart: the first two or three letters say which class of devices
it is of, and what follows from the first digit on is its number. Nothing is asked about what
is in front of that digit, and `atoi` takes every character behind it for a digit. The number
goes into a `dev_t`, of 16 bits. And the test for a bare `tty` looks at the character three
behind the first digit, or behind the end of the name, where there is what the stack held
before.

So more names open a device than there are devices, and a name can open the device of
another (`Xana.Names.opensAsNamed_iff`).

| name | what it is taken for |
|---|---|
| `fb0` | number 0 |
| `fbcon0` | number 0 |
| `fb65536` | number 0 |
| `tty123` | `tty0` |
| `tty1` | `tty0`, or number 1 |
-/

namespace Xana

namespace Names

/-! ### The functions -/

/-- The lists of registered devices. -/
inductive DeviceClass
  | xandisk
  | keyboard
  | framebuffer
  | tty
  deriving DecidableEq

/-- The letters that a name of a class begins with. -/
def DeviceClass.word : DeviceClass → List UInt8
  | xandisk => [120, 100]
  | keyboard => [107, 98]
  | framebuffer => [102, 98]
  | tty => [116, 116, 121]

/-- A registered device: where it is, its `id`, and what its `open` callback returns. -/
structure NamedDevice where
  addr : ℕ
  id : ℕ
  openFunc : List UInt8 → ℕ → Opened

/-- `device_open_data_t`. -/
structure DeviceOpenData where
  data : ℕ
  device : NamedDevice

/-- A `char`, which is signed. -/
def charValue (c : UInt8) : ℤ := if c.toNat < 128 then c.toNat else c.toNat - 256

/-- The loop of `atoi`, in at most so many rounds. The `int64_t` wraps. -/
def atoiLoop : ℕ → (ℕ → UInt8) → ℤ → Option ℤ
  | 0, _, _ => none
  | n + 1, str, res =>
      if str 0 ≠ 0 then
        atoiLoop n (fun i => str (i + 1)) ((res * 10 + charValue (str 0) - 48) % 2 ^ 64)
      else some res

/-- `atoi`. -/
def atoi (n : ℕ) (str : ℕ → UInt8) : Option ℤ := atoiLoop n str 0

/-- The loop that looks for the first digit, in at most so many rounds. -/
def firstNumberLoop (part : ℕ → UInt8) : ℕ → ℕ → Option ℕ
  | 0, _ => none
  | n + 1, i =>
      if (charValue (part i) < 48 ∨ 57 < charValue (part i)) ∧ part i ≠ 0 then
        firstNumberLoop part n (i + 1)
      else some i

/-- What `device_open_helper` does with the device that it finds. -/
def openFound (found : Option NamedDevice) (path : List UInt8) (flags : ℕ) :
    Except ℤ DeviceOpenData :=
  match found with
  | none => .error (-eNODEV)
  | some d =>
      let openData := d.openFunc path flags
      if openData.value ≠ 0 then .error openData.value else .ok ⟨openData.pointer, d⟩

/-- `device_open_helper`: a `dev_t` has 16 bits. -/
def deviceOpenHelper (n : ℕ) (deviceList : List NamedDevice) (part : ℕ → UInt8) (firstNumber : ℕ)
    (path : List UInt8) (flags : ℕ) : Option (Except ℤ DeviceOpenData) :=
  if part firstNumber = 0 then some (.error (-eNODEV))
  else
    (atoi n fun i => part (firstNumber + i)).map fun number =>
      openFound (deviceList.find? fun d => d.id = (number % 2 ^ 16).toNat) path flags

/-- `tty_part`. -/
def ttyPart : List UInt8 := [slash, 116, 116, 121, 48]

/-- `device_open`, with what is on the stack where `part` is, and behind it: a name longer than the
buffer goes on there. -/
def deviceOpen (n : ℕ) (devices : DeviceClass → List NamedDevice) (stack : ℕ → UInt8)
    (path : List UInt8) (flags : ℕ) : Option (Except ℤ DeviceOpenData) :=
  if path.head? ≠ some slash then some (.error (-eINVAL))
  else if getPathDepth path = 1 then
    let part := getPathPart path stack 0
    (firstNumberLoop part n 0).bind fun firstNumber =>
      if strncmp 2 part (chars DeviceClass.xandisk.word) = 0 then
        deviceOpenHelper n (devices .xandisk) part firstNumber path flags
      else if strncmp 2 part (chars DeviceClass.keyboard.word) = 0 then
        deviceOpenHelper n (devices .keyboard) part firstNumber path flags
      else if strncmp 2 part (chars DeviceClass.framebuffer.word) = 0 then
        deviceOpenHelper n (devices .framebuffer) part firstNumber path flags
      else if strncmp 3 part (chars DeviceClass.tty.word) = 0 then
        if part (firstNumber + 3) = 0 then
          deviceOpenHelper n (devices .tty) (chars (ttyPart.drop 1)) 3 ttyPart flags
        else deviceOpenHelper n (devices .tty) part firstNumber path flags
      else some (.error (-eNODEV))
  else some (.error (-eNODEV))

/-! ### What a name means, and what it is taken for -/

/-- A digit. -/
def IsNumber (c : UInt8) : Prop := 48 ≤ charValue c ∧ charValue c ≤ 57

instance : DecidablePred IsNumber := fun c =>
  inferInstanceAs (Decidable (48 ≤ charValue c ∧ charValue c ≤ 57))

/-- The number that digits are a numeral of. -/
def numeral (digits : List UInt8) : ℕ := digits.foldl (fun n c => n * 10 + (c.toNat - 48)) 0

/-- **What a name means**: a bare `tty` is `tty0`, and otherwise a numeral follows the letters of
the class. -/
def Means (name : List UInt8) (c : DeviceClass) (n : ℕ) : Prop :=
  name = DeviceClass.tty.word ∧ c = .tty ∧ n = 0 ∨
    ∃ digits, name = c.word ++ digits ∧ digits ≠ [] ∧ (∀ d ∈ digits, IsNumber d) ∧
      n = numeral digits

/-- A device of the class with the number is registered. -/
def IsRegistered (devices : DeviceClass → List NamedDevice) (c : DeviceClass) (n : ℕ) : Prop :=
  ∃ d ∈ devices c, d.id = n

/-- **What is expected**: the device that is opened is the one that the name means, and a name that
means none is answered with `-ENODEV`. -/
structure OpensAsNamed (devices : DeviceClass → List NamedDevice) (name : List UInt8)
    (r : Except ℤ DeviceOpenData) : Prop where
  opened : ∀ data, r = .ok data → ∃ c, data.device ∈ devices c ∧ Means name c data.device.id
  other : (∀ c n, Means name c n → ¬IsRegistered devices c n) → r = .error (-eNODEV)

/-- The class with whose letters a name begins. -/
def classOf (name : List UInt8) : Option DeviceClass :=
  if DeviceClass.xandisk.word <+: name then some .xandisk
  else if DeviceClass.keyboard.word <+: name then some .keyboard
  else if DeviceClass.framebuffer.word <+: name then some .framebuffer
  else if DeviceClass.tty.word <+: name then some .tty
  else none

/-- Where the first digit of a name is, or its end. -/
def firstDigit (name : List UInt8) : ℕ := (name.takeWhile fun c => ¬IsNumber c).length

/-- What `atoi` makes of characters. -/
def numberOf (l : List UInt8) : ℤ := l.foldl (fun res c => (res * 10 + charValue c - 48) % 2 ^ 64) 0

/-- What is three behind the first digit, or behind the end, is a `NUL`. -/
def NulBehind (stack : ℕ → UInt8) (name : List UInt8) : Prop :=
  firstDigit name + 3 = name.length ∨
    name.length < firstDigit name + 3 ∧ stack (firstDigit name + 3) = 0

instance (stack : ℕ → UInt8) (name : List UInt8) : Decidable (NulBehind stack name) :=
  inferInstanceAs (Decidable (_ ∨ _ ∧ _))

/-- **What a name is taken for**: a class, a number, and the path that is passed on. -/
def taken (stack : ℕ → UInt8) (name : List UInt8) : Option (DeviceClass × ℕ × List UInt8) :=
  (classOf name).bind fun c =>
    if c = .tty ∧ NulBehind stack name then some (.tty, 0, ttyPart)
    else if firstDigit name = name.length then none
    else some (c, (numberOf (name.drop (firstDigit name)) % 2 ^ 16).toNat, slash :: name)

/-- **When a name opens what it means**: the device that it is taken for, if there is one, is the
one that it means, or cannot be opened; and if the name means no device, it cannot be opened
for the reason that there is none. -/
def NameOk (devices : DeviceClass → List NamedDevice) (stack : ℕ → UInt8) (name : List UInt8)
    (flags : ℕ) : Prop :=
  ∀ c n path d, taken stack name = some (c, n, path) → (devices c).find? (·.id = n) = some d →
    Means name c n ∨ (d.openFunc path flags).value ≠ 0 ∧
      ((∃ n', Means name c n' ∧ IsRegistered devices c n') ∨
        (d.openFunc path flags).value = -eNODEV)

section Lists

variable {l name : List UInt8} {part str stack : ℕ → UInt8} {n i flags : ℕ} {res : ℤ}
variable {c c' : DeviceClass} {devices : DeviceClass → List NamedDevice} {path : List UInt8}

/-! ### The loops -/

theorem atoiLoop_eq (h : Holds str l) (hn : l.length < n) : atoiLoop n str res =
    some (l.foldl (fun res c => (res * 10 + charValue c - 48) % 2 ^ 64) res) := by
  induction l generalizing n str res with
  | nil =>
    obtain ⟨n, rfl⟩ := Nat.exists_eq_succ_of_ne_zero hn.ne'
    have h0 : str 0 = 0 := h
    rw [atoiLoop, if_neg (not_not.mpr h0)]
    rfl
  | cons c l ih =>
    obtain ⟨n, rfl⟩ := Nat.exists_eq_succ_of_ne_zero (Nat.ne_zero_of_lt hn)
    obtain ⟨h0, hc, hrest⟩ := h
    rw [atoiLoop, h0, if_pos hc, ih hrest (Nat.lt_of_succ_lt_succ hn)]
    rfl

theorem firstNumberLoop_eq (h : Holds (fun j => part (i + j)) l) (hn : l.length < n) :
    firstNumberLoop part n i = some (i + firstDigit l) := by
  induction l generalizing n i with
  | nil =>
    obtain ⟨n, rfl⟩ := Nat.exists_eq_succ_of_ne_zero hn.ne'
    have h0 : part i = 0 := h
    rw [firstNumberLoop, if_neg fun hc => hc.2 h0]
    rfl
  | cons c l ih =>
    obtain ⟨n, rfl⟩ := Nat.exists_eq_succ_of_ne_zero (Nat.ne_zero_of_lt hn)
    obtain ⟨h0, hc, hrest⟩ := h
    have h0 : part i = c := h0
    have hshift : (fun j => part (i + 1 + j)) = fun j => part (i + (j + 1)) := by
      funext j
      rw [add_assoc, add_comm 1 j]
    rw [firstNumberLoop, h0, firstDigit]
    by_cases hd : IsNumber c
    · rw [if_neg, List.takeWhile_cons_of_neg (by simpa using hd)]
      · rfl
      · rintro ⟨hlt | hlt, -⟩
        · exact absurd hd.1 (not_le.mpr hlt)
        · exact absurd hd.2 (not_le.mpr hlt)
    · have hnot : charValue c < 48 ∨ 57 < charValue c := by
        rw [IsNumber, not_and_or, not_le, not_le] at hd
        exact hd
      rw [if_pos ⟨hnot, hc⟩, List.takeWhile_cons_of_pos (by simpa using hd),
        ih (by rw [hshift]; exact hrest) (Nat.lt_of_succ_lt_succ hn), firstDigit, List.length_cons,
        add_assoc, add_comm 1]

/-- **`strncmp`** with the letters of a class. -/
theorem strncmp_holds_iff (hl : 0 ∉ l) (h : Holds part name) :
    strncmp l.length part (chars l) = 0 ↔ l <+: name := by
  rw [strncmp_eq_zero_iff h (holds_chars hl), List.take_length, List.prefix_iff_eq_take, eq_comm]

theorem firstDigit_le (name : List UInt8) : firstDigit name ≤ name.length :=
  (List.takeWhile_prefix _).length_le

/-- The buffer from the first digit on. -/
theorem holds_firstDigit (hnul : 0 ∉ name) :
    Holds (fun j => copyPart stack name (firstDigit name + j)) (name.drop (firstDigit name)) := by
  have hholds := holds_copyPart stack hnul
  rw [← List.take_append_drop (firstDigit name) name] at hholds
  have hdrop := hholds.drop
  rwa [List.take_append_drop, List.length_take, Nat.min_eq_left (firstDigit_le name)] at hdrop

/-- **What the helper does** with a name. -/
theorem deviceOpenHelper_eq (hnul : 0 ∉ name) (hn : name.length < n) (list : List NamedDevice) :
    deviceOpenHelper n list (copyPart stack name) (firstDigit name) path flags = some
      (if firstDigit name = name.length then .error (-eNODEV)
      else openFound (list.find? fun d =>
        d.id = (numberOf (name.drop (firstDigit name)) % 2 ^ 16).toNat) path flags) := by
  have hle := firstDigit_le name
  have hpart := (holds_copyPart stack hnul).apply hle
  rw [deviceOpenHelper, hpart]
  by_cases hend : firstDigit name = name.length
  · rw [if_pos hend, if_pos (by rw [hend, List.getD_eq_default _ _ le_rfl])]
  · have hlt : firstDigit name < name.length := Nat.lt_of_le_of_ne hle hend
    have hne : name.getD (firstDigit name) 0 ≠ 0 := by
      rw [List.getD_eq_getElem _ _ hlt]
      exact fun h0 => hnul (h0 ▸ List.getElem_mem hlt)
    have hatoi : atoi n (fun i => copyPart stack name (firstDigit name + i)) =
        some (numberOf (name.drop (firstDigit name))) :=
      atoiLoop_eq (holds_firstDigit hnul) (by rw [List.length_drop]; omega)
    rw [if_neg hne, if_neg hend, hatoi]
    rfl

/-- **A bare `tty`** is `tty0`. -/
theorem deviceOpenHelper_ttyPart (hn : 1 < n) (list : List NamedDevice) :
    deviceOpenHelper n list (chars (ttyPart.drop 1)) 3 ttyPart flags =
      some (openFound (list.find? fun d => d.id = 0) ttyPart flags) := by
  have hholds : Holds (fun i => chars (ttyPart.drop 1) (3 + i)) [48] := ⟨rfl, by decide, rfl⟩
  rw [deviceOpenHelper, if_neg (by decide), atoi, atoiLoop_eq hholds hn]
  rfl

/-- The character that the test for a bare `tty` looks at. -/
theorem copyPart_eq_zero_iff (hnul : 0 ∉ name) :
    copyPart stack name (firstDigit name + 3) = 0 ↔ NulBehind stack name := by
  rw [copyPart, NulBehind]
  rcases Nat.lt_trichotomy (firstDigit name + 3) name.length with hlt | heq | hgt
  · rw [if_pos hlt, List.getD_eq_getElem _ _ hlt]
    refine iff_of_false (fun h0 => hnul (h0 ▸ List.getElem_mem hlt)) ?_
    omega
  · rw [if_neg heq.not_lt, if_pos heq]
    exact iff_of_true rfl (Or.inl heq)
  · rw [if_neg (not_lt.mpr hgt.le), if_neg hgt.ne']
    constructor
    · exact fun h0 => Or.inr ⟨hgt, h0⟩
    · rintro (heq | ⟨-, h0⟩)
      · exact absurd heq hgt.ne'
      · exact h0

/-- What is opened for a name, by what it is taken for. -/
def openTaken (devices : DeviceClass → List NamedDevice) (flags : ℕ) :
    Option (DeviceClass × ℕ × List UInt8) → Except ℤ DeviceOpenData
  | none => .error (-eNODEV)
  | some (c, n, path) => openFound ((devices c).find? fun d => d.id = n) path flags

/-- **`device_open`** opens what a name is taken for. -/
theorem deviceOpen_returns (hname : IsName name) (hnul : 0 ∉ name) :
    Returns (fun n => deviceOpen n devices stack (slash :: name) flags)
      (openTaken devices flags (taken stack name)) := by
  obtain ⟨hne, hslash⟩ := hname
  have hdepth : getPathDepth (slash :: name) = 1 := by
    have hcomps : componentsFrom (slash :: (name ++ [])) = name :: componentsFrom [] :=
      componentsFrom_slash_append ⟨hne, hslash⟩ (Or.inl rfl)
    rw [List.append_nil] at hcomps
    rw [getPathDepth_eq_length, hcomps]
    rfl
  have hhead : name.head? ≠ some slash := fun h => hslash (List.mem_of_mem_head? h)
  have htake : name.takeWhile (· ≠ slash) = name := by
    have h : (name ++ []).takeWhile (· ≠ slash) = name :=
      takeWhile_append_of_name hslash (Or.inl rfl)
    rwa [List.append_nil] at h
  have hpart : getPathPart (slash :: name) stack 0 = copyPart stack name := by
    rw [getPathPart, partLoop, if_pos rfl, if_neg hhead, if_pos rfl, htake]
  have hholds := holds_copyPart stack hnul
  have hword : ∀ c : DeviceClass,
      strncmp c.word.length (copyPart stack name) (chars c.word) = 0 ↔ c.word <+: name :=
    fun c => strncmp_holds_iff (by cases c <;> decide) hholds
  refine ⟨name.length + 2, fun n hn => ?_⟩
  have hfirst : firstNumberLoop (copyPart stack name) n 0 = some (0 + firstDigit name) :=
    firstNumberLoop_eq (by simpa only [Nat.zero_add] using hholds) (by omega)
  have hx := hword .xandisk
  have hk := hword .keyboard
  have hf := hword .framebuffer
  have ht := hword .tty
  have hlen2 : DeviceClass.xandisk.word.length = 2 ∧ DeviceClass.keyboard.word.length = 2 ∧
    DeviceClass.framebuffer.word.length = 2 ∧ DeviceClass.tty.word.length = 3 := by decide
  rw [hlen2.1] at hx
  rw [hlen2.2.1] at hk
  rw [hlen2.2.2.1] at hf
  rw [hlen2.2.2.2] at ht
  have hhelper : ∀ list, deviceOpenHelper n list (copyPart stack name) (firstDigit name)
      (slash :: name) flags = _ := deviceOpenHelper_eq hnul (by omega)
  have htty : ∀ list, deviceOpenHelper n list (chars (ttyPart.drop 1)) 3 ttyPart flags = _ :=
    deviceOpenHelper_ttyPart (by omega)
  simp only [deviceOpen, List.head?_cons, ne_eq, not_true_eq_false, if_false,
    hdepth, if_true, hpart,
    hfirst, Option.bind_some, Nat.zero_add, hx, hk, hf, ht, hhelper, taken, classOf,
    copyPart_eq_zero_iff hnul, htty]
  -- the branches differ in the class only, and `tty` in the NUL behind the word
  have hnumber : ∀ c, ¬(c = .tty ∧ NulBehind stack name) → some
      (if firstDigit name = name.length then .error (-eNODEV)
      else openFound ((devices c).find? fun d =>
        d.id = (numberOf (name.drop (firstDigit name)) % 2 ^ 16).toNat) (slash :: name) flags) =
      some (openTaken devices flags (if c = .tty ∧ NulBehind stack name then some (.tty, 0, ttyPart)
        else if firstDigit name = name.length then none
        else some (c, (numberOf (name.drop (firstDigit name)) % 2 ^ 16).toNat,
          slash :: name))) := by
    intro c hc
    rw [if_neg hc]
    split_ifs
    · rfl
    · rfl
  by_cases hx' : DeviceClass.xandisk.word <+: name
  · rw [if_pos hx', if_pos hx']
    exact hnumber .xandisk fun h => absurd h.1 (by decide)
  rw [if_neg hx', if_neg hx']
  by_cases hk' : DeviceClass.keyboard.word <+: name
  · rw [if_pos hk', if_pos hk']
    exact hnumber .keyboard fun h => absurd h.1 (by decide)
  rw [if_neg hk', if_neg hk']
  by_cases hf' : DeviceClass.framebuffer.word <+: name
  · rw [if_pos hf', if_pos hf']
    exact hnumber .framebuffer fun h => absurd h.1 (by decide)
  rw [if_neg hf', if_neg hf']
  by_cases ht' : DeviceClass.tty.word <+: name
  · rw [if_pos ht', if_pos ht', Option.bind_some]
    by_cases hbehind : NulBehind stack name
    · rw [if_pos hbehind, if_pos ⟨rfl, hbehind⟩]
      rfl
    · rw [if_neg hbehind]
      exact hnumber .tty fun h => hbehind h.2
  · rw [if_neg ht', if_neg ht']
    rfl

/-! ### Classes -/

theorem classOf_begins (h : classOf name = some c) : c.word <+: name := by
  rw [classOf] at h
  split_ifs at h <;> obtain rfl := Option.some.inj h <;> assumption

/-- The letters of two classes begin differently. -/
theorem word_inj (h : c.word <+: name) (h' : c'.word <+: name) : c = c' := by
  have hhead : ∀ {c : DeviceClass}, c.word <+: name → name.head? = c.word.head? := by
    rintro c ⟨t, rfl⟩
    cases c <;> rfl
  have heq : c.word.head? = c'.word.head? := (hhead h).symm.trans (hhead h')
  cases c <;> cases c' <;> first | rfl | exact absurd heq (by decide)

theorem Means.begins (h : Means name c i) : c.word <+: name := by
  rcases h with ⟨rfl, rfl, -⟩ | ⟨digits, rfl, -⟩
  · exact List.prefix_refl _
  · exact List.prefix_append ..

/-- What a name means is of the class that it is taken for. -/
theorem Means.class_eq {t : ℕ × List UInt8} (h : Means name c' i)
    (ht : taken stack name = some (c, t)) : c' = c := by
  obtain ⟨c₀, hclass, ht⟩ := Option.bind_eq_some_iff.mp ht
  obtain rfl := word_inj h.begins (classOf_begins hclass)
  split_ifs at ht with htty
  · obtain ⟨rfl, -⟩ := htty
    exact congrArg Prod.fst (Option.some.inj ht)
  · exact congrArg Prod.fst (Option.some.inj ht)

/-! ### The names that open what they mean -/

/-- A name is taken for a device that is there. -/
theorem opensAsNamed_openFound_iff {d : NamedDevice} (ht : taken stack name = some (c, n, path))
    (hmem : d ∈ devices c) (hid : d.id = n) :
    OpensAsNamed devices name (openFound (some d) path flags) ↔ Means name c n ∨
      (d.openFunc path flags).value ≠ 0 ∧ ((∃ n', Means name c n' ∧ IsRegistered devices c n') ∨
        (d.openFunc path flags).value = -eNODEV) := by
  by_cases hmeans : Means name c n
  · refine iff_of_true ⟨fun data h => ?_, fun hnone => ?_⟩ (Or.inl hmeans)
    · rw [openFound] at h
      split_ifs at h
      obtain rfl := Except.ok.inj h
      exact ⟨c, hmem, hid.symm ▸ hmeans⟩
    · exact absurd ⟨d, hmem, hid⟩ (hnone c n hmeans)
  rw [or_iff_right hmeans]
  by_cases hv : (d.openFunc path flags).value = 0
  · -- it is opened, and is not what the name means
    refine iff_of_false (fun h => ?_) fun h => h.1 hv
    obtain ⟨c', -, hm⟩ := h.opened ⟨(d.openFunc path flags).pointer, d⟩ (if_neg (not_not.mpr hv))
    obtain rfl := hm.class_eq ht
    exact hmeans (hid ▸ hm)
  · have herror : openFound (some d) path flags = .error (d.openFunc path flags).value := if_pos hv
    rw [herror, and_iff_right hv]
    constructor
    · intro h
      by_cases hreg : ∃ n', Means name c n' ∧ IsRegistered devices c n'
      · exact Or.inl hreg
      · refine Or.inr (Except.error.inj (h.other fun c' n' hm hr => hreg ?_))
        obtain rfl := hm.class_eq ht
        exact ⟨n', hm, hr⟩
    · rintro (⟨n', hm, hr⟩ | heq)
      · exact ⟨fun data h => absurd h (by simp), fun hnone => absurd hr (hnone c n' hm)⟩
      · exact ⟨fun data h => absurd h (by simp), fun _ => by rw [heq]⟩

theorem classOf_eq_some_iff : classOf name = some c ↔ c.word <+: name := by
  refine ⟨classOf_begins, fun h => ?_⟩
  cases hclass : classOf name with
  | some c' => rw [word_inj (classOf_begins hclass) h]
  | none =>
    rw [classOf] at hclass
    split_ifs at hclass
    cases c <;> contradiction

/-- `atoi` of digits. -/
theorem numberOf_digits (h : ∀ d ∈ l, IsNumber d) : numberOf l = (numeral l : ℤ) % 2 ^ 64 := by
  have hfold : ∀ (l : List UInt8) (n : ℕ), (∀ d ∈ l, IsNumber d) →
      l.foldl (fun res c => (res * 10 + charValue c - 48) % 2 ^ 64) ((n : ℤ) % 2 ^ 64) =
        (l.foldl (fun n c => n * 10 + (c.toNat - 48)) n : ℕ) % 2 ^ 64 := by
    intro l
    induction l with
    | nil => exact fun n _ => rfl
    | cons c l ih =>
      intro n hl
      obtain ⟨⟨hle, hge⟩, hl⟩ := List.forall_mem_cons.mp hl
      have hstep : ((n : ℤ) % 2 ^ 64 * 10 + charValue c - 48) % 2 ^ 64 =
          ((n * 10 + (c.toNat - 48) : ℕ) : ℤ) % 2 ^ 64 := by
        have hlt := c.toNat_lt
        rw [charValue] at hle hge ⊢
        split_ifs at hle hge ⊢ <;> omega
      rw [List.foldl_cons, List.foldl_cons, hstep]
      exact ih _ hl
  exact hfold l 0 h

/-- The first digit of a numeral behind letters. -/
theorem firstDigit_word (hne : l ≠ []) (hl : ∀ d ∈ l, IsNumber d) :
    firstDigit (c.word ++ l) = c.word.length := by
  have hword : ∀ a ∈ c.word, decide (¬IsNumber a) = true := by
    cases c <;> simp [DeviceClass.word, IsNumber, charValue]
  obtain ⟨d, l, rfl⟩ := List.exists_cons_of_ne_nil hne
  have hd : (d :: l).takeWhile (fun a => ¬IsNumber a) = [] :=
    List.takeWhile_cons_of_neg (by simpa using hl d List.mem_cons_self)
  rw [firstDigit, List.takeWhile_append_of_pos hword, hd, List.append_nil]

/-- **A name with a number of 16 bits opens what it means**, but for terminals whose number is not
looked at. -/
theorem nameOk_of_means (h : Means name c i) (hi : i < 2 ^ 16)
    (htty : c = .tty → NulBehind stack name → i = 0) : NameOk devices stack name flags := by
  intro c' n' path' d ht _
  obtain rfl := h.class_eq ht
  refine Or.inl ?_
  have hclass := classOf_eq_some_iff.mpr h.begins
  rw [taken, hclass, Option.bind_some] at ht
  split_ifs at ht with hbehind hend
  · obtain ⟨rfl, hbehind⟩ := hbehind
    obtain rfl := htty rfl hbehind
    obtain rfl : 0 = n' := by simpa using congrArg (·.map (·.2.1)) ht
    exact h
  · have hn' := congrArg (·.map (·.2.1)) ht
    rcases h with ⟨rfl, rfl, rfl⟩ | ⟨digits, rfl, hne, hdigits, rfl⟩
    · exact absurd (by decide) hend
    · rw [firstDigit_word hne hdigits, List.drop_left, numberOf_digits hdigits] at hn'
      obtain rfl : numeral digits = n' := by
        simp only [Option.map_some, Option.some.injEq] at hn'
        omega
      exact Or.inr ⟨digits, rfl, hne, hdigits, rfl⟩

end Lists

/-! ### One framebuffer -/

/-- A device with the number 0 that can be opened. -/
def framebuffer0 : NamedDevice := ⟨0x1000, 0, fun _ _ => openedAt 0x2000⟩

/-- It is the only one. -/
def oneFramebuffer : DeviceClass → List NamedDevice
  | .framebuffer => [framebuffer0]
  | _ => []

end Names

end Xana
