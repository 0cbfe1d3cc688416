import Mathlib.Algebra.Group.Nat.Even
import Xana.Lib.Runs
import Xana.Tty.Basic

/-!
# Reading from the keyboard

`kbd_device_read` takes characters from the keyboard's buffer until it has as many as it
was asked for, or a newline. A backspace takes back the last character of the line, and
with none to take back it is stored itself.

Only an ordinary character looks at the size. A backspace that fills a request of one byte
goes unnoticed, so the next character is stored behind it. That is the one case: a read of
two bytes or more stays inside, and so does a read of one byte that comes to its character
with none stored (`Xana.kbdDeviceRead_inside_iff`). For such a read each backspace of a pair
is stored and taken back.
-/

namespace Xana

/-- What `kbd_device_read` stores through its pointer. -/
inductive LineStore
  /-- A character of the line. -/
  | char (index : ℕ) (code : UInt8)
  /-- A 0 in the place of one. -/
  | erase (index : ℕ)
deriving DecidableEq

/-- The index that is written. -/
def LineStore.index : LineStore → ℕ
  | .char index _ => index
  | .erase index => index

/-- A read from the keyboard that is under way: the stores so far, the characters given to
`kprintf`, and `written`, which is a `uint32_t`. -/
structure LineRead where
  stores : List LineStore
  printed : List UInt8
  written : ℕ

namespace LineRead

/-- A read that starts. -/
def start : LineRead := ⟨[], [], 0⟩

/-- The loop body of `kbd_device_read`, up to the test of the size. -/
def take (r : LineRead) (code : UInt8) : LineRead :=
  if code = 0 then r
  else if code = backspace then
    if 0 < r.written then
      { stores := r.stores ++ [.erase (r.written - 1)]
        printed := r.printed ++ [backspace, 32, backspace]
        written := r.written - 1 }
    else
      { stores := r.stores ++ [.char r.written code]
        printed := r.printed ++ [backspace, 32, backspace]
        written := (r.written + 1) % 2 ^ 32 }
  else
    { stores := r.stores ++ [.char r.written code]
      printed := r.printed ++ [code]
      written := (r.written + 1) % 2 ^ 32 }

/-- The test behind an ordinary character. -/
def Returns (size : ℕ) (r : LineRead) (code : UInt8) : Prop :=
  code ≠ 0 ∧ code ≠ backspace ∧ (size ≤ r.written ∨ code = newline)

instance (size : ℕ) (r : LineRead) (code : UInt8) : Decidable (r.Returns size code) :=
  inferInstanceAs (Decidable (code ≠ 0 ∧ code ≠ backspace ∧ (size ≤ r.written ∨ code = newline)))

/-- The loop of `kbd_device_read`. The `codes` are what `keyboard_popchar` returns, call
after call, which is 0 while nothing is buffered. There is no result if it goes on. -/
def loop (size : ℕ) : LineRead → List UInt8 → Option LineRead
  | _, [] => none
  | r, code :: codes =>
      if (r.take code).Returns size code then some (r.take code)
      else loop size (r.take code) codes

end LineRead

/-- `kbd_device_read`: it returns what is `written` at the end. -/
def kbdDeviceRead (nmemb count : ℕ) (codes : List UInt8) : Option LineRead :=
  LineRead.start.loop (request nmemb count) codes

/-- The number of backspaces before the first ordinary character. -/
def leadingBackspaces (codes : List UInt8) : ℕ :=
  ((codes.filter (· ≠ 0)).takeWhile (· = backspace)).length

/-- **A read of `n` bytes stays inside them.** -/
structure LineRead.Inside (n : ℕ) (r : LineRead) : Prop where
  /-- It stores in the `n` bytes, -/
  index_lt : ∀ store ∈ r.stores, store.index < n
  /-- it returns no more, -/
  written_le : r.written ≤ n
  /-- and what it takes back is a character that it has stored. -/
  erased : ∀ before index after, r.stores = before ++ .erase index :: after →
    ∃ code, .char index code ∈ before

section Leading

variable {codes : List UInt8} {code : UInt8}

theorem leadingBackspaces_zero : leadingBackspaces (0 :: codes) = leadingBackspaces codes := by
  rw [leadingBackspaces, List.filter_cons_of_neg (by simp)]
  rfl

theorem leadingBackspaces_backspace :
    leadingBackspaces (backspace :: codes) = leadingBackspaces codes + 1 := by
  rw [leadingBackspaces, List.filter_cons_of_pos (by decide),
    List.takeWhile_cons_of_pos (by decide), List.length_cons, leadingBackspaces]

theorem leadingBackspaces_ordinary (h0 : code ≠ 0) (hback : code ≠ backspace) :
    leadingBackspaces (code :: codes) = 0 := by
  rw [leadingBackspaces, List.filter_cons_of_pos (by simpa using h0),
    List.takeWhile_cons_of_neg (by simpa using hback), List.length_nil]

end Leading

namespace LineRead

variable {r r' : LineRead} {code : UInt8} {codes : List UInt8} {n size : ℕ}

/-! ### One character -/

theorem take_zero : r.take 0 = r := if_pos rfl

theorem take_backspace_of_pos (h : 0 < r.written) : r.take backspace =
    ⟨r.stores ++ [.erase (r.written - 1)], r.printed ++ [backspace, 32, backspace],
      r.written - 1⟩ := by
  rw [take, if_neg (by decide), if_pos rfl, if_pos h]

theorem take_backspace_of_zero (h : r.written = 0) : r.take backspace =
    ⟨r.stores ++ [.char 0 backspace], r.printed ++ [backspace, 32, backspace], 1⟩ := by
  rw [take, if_neg (by decide), if_pos rfl, if_neg (by omega), h]
  rfl

theorem take_ordinary (h0 : code ≠ 0) (hback : code ≠ backspace) : r.take code =
    ⟨r.stores ++ [.char r.written code], r.printed ++ [code], (r.written + 1) % 2 ^ 32⟩ := by
  rw [take, if_neg h0, if_neg hback]

theorem not_returns_zero : ¬r.Returns size 0 := fun h => h.1 rfl

theorem not_returns_backspace : ¬r.Returns size backspace := fun h => h.2.1 rfl

theorem loop_of_not_returns (h : ¬(r.take code).Returns size code) :
    r.loop size (code :: codes) = (r.take code).loop size codes := if_neg h

theorem loop_of_returns (h : (r.take code).Returns size code) :
    r.loop size (code :: codes) = some (r.take code) := if_pos h

/-! ### The invariant -/

/-- **What the stores so far have done**: they are in the first `n` bytes, what has been
taken back had been stored, and so has what is written now. -/
structure Inv (n : ℕ) (r : LineRead) : Prop where
  index_lt : ∀ store ∈ r.stores, store.index < n
  erased : ∀ before index after, r.stores = before ++ .erase index :: after →
    ∃ code, .char index code ∈ before
  stored : ∀ i < r.written, ∃ code, .char i code ∈ r.stores

theorem inv_start : start.Inv n :=
  ⟨List.forall_mem_nil _, fun _ _ _ h => absurd h (by simp [start]), fun _ hi =>
    absurd hi (Nat.not_lt_zero _)⟩

/-- The stores before one that takes back, when there is one store more. -/
theorem split_concat {stores before after : List LineStore} {x y : LineStore}
    (h : stores ++ [x] = before ++ y :: after) :
    (before = stores ∧ y = x) ∨ ∃ rest, stores = before ++ y :: rest := by
  rcases List.eq_nil_or_concat after with rfl | ⟨rest, last, rfl⟩
  · obtain ⟨hstores, hlast⟩ := List.append_inj' h rfl
    exact Or.inl ⟨hstores.symm, (List.cons.inj hlast).1.symm⟩
  · rw [List.concat_eq_append, ← List.cons_append, ← List.append_assoc] at h
    exact Or.inr ⟨rest, (List.append_inj' h rfl).1⟩

/-- **A character** behind what is written. -/
theorem Inv.char (h : r.Inv n) (hlt : r.written < n) (code : UInt8) (printed : List UInt8)
    {written : ℕ} (hw : written ≤ r.written + 1) :
    Inv n ⟨r.stores ++ [.char r.written code], printed, written⟩ := by
  refine ⟨?_, ?_, ?_⟩
  · intro store hstore
    rcases List.mem_append.mp hstore with hstore | hstore
    · exact h.index_lt store hstore
    · rw [List.mem_singleton.mp hstore]
      exact hlt
  · intro before index after heq
    rcases split_concat heq with ⟨-, hy⟩ | ⟨rest, hstores⟩
    · cases hy
    · exact h.erased before index rest hstores
  · intro i hi
    rcases Nat.lt_or_ge i r.written with hold | hnew
    · obtain ⟨old, hmem⟩ := h.stored i hold
      exact ⟨old, List.mem_append_left _ hmem⟩
    · obtain rfl : i = r.written := by
        dsimp only at hi
        omega
      exact ⟨code, List.mem_append_right _ (List.mem_singleton_self _)⟩

/-- **A character taken back**: it is the last of those that are written. -/
theorem Inv.erase (h : r.Inv n) (hpos : 0 < r.written) {printed : List UInt8} :
    Inv n ⟨r.stores ++ [.erase (r.written - 1)], printed, r.written - 1⟩ := by
  obtain ⟨last, hlast⟩ := h.stored (r.written - 1) (by omega)
  refine ⟨?_, ?_, ?_⟩
  · intro store hstore
    rcases List.mem_append.mp hstore with hstore | hstore
    · exact h.index_lt store hstore
    · rw [List.mem_singleton.mp hstore]
      have hlt := h.index_lt _ hlast
      exact hlt
  · intro before index after heq
    rcases split_concat heq with ⟨rfl, hy⟩ | ⟨rest, hstores⟩
    · obtain rfl := LineStore.erase.inj hy
      exact ⟨last, hlast⟩
    · exact h.erased before index rest hstores
  · intro i hi
    obtain ⟨old, hmem⟩ := h.stored i (hi.trans_le (Nat.sub_le _ _))
    exact ⟨old, List.mem_append_left _ hmem⟩

/-- **There is room for the next character that is stored**: fewer than `n` are written, and
in a request of one byte, the backspaces still to come leave none there. -/
def Room (n written : ℕ) (codes : List UInt8) : Prop :=
  2 ≤ n ∧ written < n ∨ n = 1 ∧ written ≤ 1 ∧ Even (written + leadingBackspaces codes)

/-- **The loop lemma**: where there is room, the read stays inside. -/
theorem Inv.loop (h : r.Inv n) (hroom : Room n r.written codes)
    (hloop : r.loop n codes = some r') : r'.Inside n := by
  induction codes generalizing r with
  | nil => cases hloop
  | cons code codes ih =>
    by_cases h0 : code = 0
    · subst h0
      rw [loop_of_not_returns not_returns_zero, take_zero] at hloop
      rw [Room, leadingBackspaces_zero] at hroom
      exact ih h hroom hloop
    by_cases hback : code = backspace
    · subst hback
      rw [loop_of_not_returns not_returns_backspace] at hloop
      rw [Room, leadingBackspaces_backspace] at hroom
      rcases Nat.eq_zero_or_pos r.written with hnone | hsome
      · rw [take_backspace_of_zero hnone] at hloop
        have hlt : r.written < n := by omega
        have hone : 1 ≤ r.written + 1 := Nat.le_add_left _ _
        have hchar := h.char hlt backspace (r.printed ++ [backspace, 32, backspace]) hone
        rw [hnone] at hchar
        refine ih hchar ?_ hloop
        rcases hroom with ⟨htwo, -⟩ | ⟨hone, -, heven⟩
        · exact Or.inl ⟨htwo, htwo⟩
        · refine Or.inr ⟨hone, le_rfl, ?_⟩
          rwa [hnone, zero_add, add_comm] at heven
      · rw [take_backspace_of_pos hsome] at hloop
        refine ih (h.erase hsome) ?_ hloop
        rcases hroom with ⟨htwo, hlt⟩ | ⟨hone, hle, heven⟩
        · exact Or.inl ⟨htwo, (Nat.sub_le _ _).trans_lt hlt⟩
        · refine Or.inr ⟨hone, (Nat.sub_le _ _).trans hle, ?_⟩
          dsimp only
          rw [Nat.even_iff] at heven ⊢
          omega
    · rw [Room, leadingBackspaces_ordinary h0 hback] at hroom
      have hlt : r.written < n := by
        rcases hroom with ⟨-, hlt⟩ | ⟨rfl, hle, heven⟩
        · exact hlt
        · rw [add_zero, Nat.even_iff] at heven
          omega
      have hmod : (r.written + 1) % 2 ^ 32 ≤ r.written + 1 := Nat.mod_le _ _
      have hchar := h.char hlt code (r.printed ++ [code]) hmod
      rw [← take_ordinary h0 hback] at hchar
      by_cases hreturns : (r.take code).Returns n code
      · rw [loop_of_returns hreturns] at hloop
        obtain rfl := Option.some.inj hloop
        refine ⟨hchar.index_lt, ?_, hchar.erased⟩
        rw [take_ordinary h0 hback]
        exact hmod.trans hlt
      · rw [loop_of_not_returns hreturns] at hloop
        refine ih hchar ?_ hloop
        -- a request of one byte is full
        have hmore : ¬n ≤ (r.take code).written := fun hle => hreturns ⟨h0, hback, Or.inl hle⟩
        rcases hroom with ⟨htwo, -⟩ | ⟨rfl, hle, -⟩
        · exact Or.inl ⟨htwo, Nat.not_le.mp hmore⟩
        · rw [take_ordinary h0 hback] at hmore
          dsimp only at hmore
          omega

/-- **A request of one byte that a backspace has filled**: the next character goes behind
it. -/
theorem loop_one_of_odd (hle : r.written ≤ 1) (hodd : ¬Even (r.written + leadingBackspaces codes))
    (hloop : r.loop 1 codes = some r') : r'.written = 2 := by
  induction codes generalizing r with
  | nil => cases hloop
  | cons code codes ih =>
    rw [Nat.even_iff] at hodd
    by_cases h0 : code = 0
    · subst h0
      rw [loop_of_not_returns not_returns_zero, take_zero] at hloop
      rw [leadingBackspaces_zero, ← Nat.even_iff] at hodd
      exact ih hle hodd hloop
    by_cases hback : code = backspace
    · subst hback
      rw [loop_of_not_returns not_returns_backspace] at hloop
      rw [leadingBackspaces_backspace] at hodd
      rcases Nat.eq_zero_or_pos r.written with hnone | hsome
      · rw [take_backspace_of_zero hnone] at hloop
        refine ih (le_refl 1) ?_ hloop
        dsimp only
        rw [Nat.even_iff]
        omega
      · rw [take_backspace_of_pos hsome] at hloop
        refine ih ((Nat.sub_le _ _).trans hle) ?_ hloop
        dsimp only
        rw [Nat.even_iff]
        omega
    · rw [leadingBackspaces_ordinary h0 hback] at hodd
      have hone : r.written = 1 := by omega
      have htwo : (r.take code).written = 2 := by
        rw [take_ordinary h0 hback, hone]
        rfl
      rw [loop_of_returns ⟨h0, hback, Or.inl (htwo ▸ Nat.le_succ 1)⟩] at hloop
      obtain rfl := Option.some.inj hloop
      exact htwo

end LineRead

/-- **A read from the keyboard stays inside what it was asked for** if that is two bytes or
more, or if an even number of backspaces comes before the first ordinary character. No
other does. -/
theorem kbdDeviceRead_inside_iff {nmemb count : ℕ} {codes : List UInt8} {r : LineRead}
    (hn : 1 ≤ request nmemb count) (h : kbdDeviceRead nmemb count codes = some r) :
    r.Inside (request nmemb count) ↔
      2 ≤ request nmemb count ∨ Even (leadingBackspaces codes) := by
  have hstart : LineRead.start.written + leadingBackspaces codes = leadingBackspaces codes :=
    Nat.zero_add _
  constructor
  · intro hinside
    by_contra hno
    obtain ⟨hone, hodd⟩ := not_or.mp hno
    obtain heq : request nmemb count = 1 := by omega
    rw [kbdDeviceRead, heq] at h
    rw [heq] at hinside
    have htwo := LineRead.loop_one_of_odd (Nat.zero_le 1) (hstart.symm ▸ hodd) h
    exact absurd hinside.written_le (by omega)
  · intro hok
    refine LineRead.inv_start.loop ?_ h
    rw [LineRead.Room, hstart]
    rcases Nat.lt_or_ge 1 (request nmemb count) with htwo | hle
    · exact Or.inl ⟨htwo, hn⟩
    · exact Or.inr ⟨by omega, Nat.zero_le 1, hok.resolve_left (by omega)⟩

/-- A read of one byte, with two backspaces and an `a` buffered. -/
theorem kbdDeviceRead_inside_pair :
    ∃ r, kbdDeviceRead 1 1 [backspace, backspace, 97] = some r ∧ r.Inside (request 1 1) := by
  have hread : kbdDeviceRead 1 1 [backspace, backspace, 97] = some _ := rfl
  exact ⟨_, hread, (kbdDeviceRead_inside_iff (by decide) hread).mpr (Or.inr (by decide))⟩

/-- A read of one byte, with a backspace and an `a` buffered: it stores two bytes. -/
theorem not_kbdDeviceRead_inside : ∃ r, kbdDeviceRead 1 1 [backspace, 97] = some r ∧
    r.stores = [.char 0 backspace, .char 1 97] ∧ r.written = 2 ∧ ¬r.Inside (request 1 1) :=
  ⟨_, rfl, rfl, rfl, fun h => absurd h.written_le (by decide)⟩

end Xana
