import Mathlib.Algebra.Order.Group.Nat
import Mathlib.Data.List.Basic

/-!
# Memory as bytes

A memory is a function from addresses to bytes. Numbers are stored in it as
`w` little-endian bytes (`Mem.store`, `Mem.load`); strings and
images are lists of bytes at an address (`Mem.At`).

Everything an access can rely on comes from two facts: a range that has just been
written reads back as what was written (`Mem.read_write_self`), and a range that
the write does not touch reads back as before
(`Mem.read_write_of_disjoint`).
-/

namespace Xana

/-! ### Little-endian numbers -/

/-- The `w` low bytes of `n`, least significant first. -/
def leBytes : ℕ → ℕ → List UInt8
  | 0, _ => []
  | w + 1, n => UInt8.ofNat n :: leBytes w (n / 256)

/-- The number that bytes stand for, least significant first. -/
def leNat : List UInt8 → ℕ
  | [] => 0
  | b :: bs => b.toNat + 256 * leNat bs

@[simp] theorem leBytes_zero (n : ℕ) : leBytes 0 n = [] := rfl

theorem leBytes_succ (w n : ℕ) : leBytes (w + 1) n = UInt8.ofNat n :: leBytes w (n / 256) := rfl

@[simp] theorem leNat_nil : leNat [] = 0 := rfl

theorem leNat_cons (b : UInt8) (bs : List UInt8) : leNat (b :: bs) = b.toNat + 256 * leNat bs := rfl

@[simp] theorem length_leBytes (w n : ℕ) : (leBytes w n).length = w := by
  induction w generalizing n with
  | zero => rfl
  | succ w ih => rw [leBytes_succ, List.length_cons, ih]

theorem leNat_leBytes (w n : ℕ) : leNat (leBytes w n) = n % 256 ^ w := by
  induction w generalizing n with
  | zero => simp [Nat.mod_one]
  | succ w ih =>
    have hbyte : (UInt8.ofNat n).toNat = n % 256 := UInt8.toNat_ofNat' ..
    rw [leBytes_succ, leNat_cons, ih, hbyte, pow_succ', Nat.mod_mul]

/-- A number that fits in its bytes is what they stand for. -/
theorem leNat_leBytes_of_lt {w n : ℕ} (h : n < 256 ^ w) : leNat (leBytes w n) = n := by
  rw [leNat_leBytes, Nat.mod_eq_of_lt h]

theorem leNat_lt (l : List UInt8) : leNat l < 256 ^ l.length := by
  induction l with
  | nil => simp
  | cons b bs ih =>
    have hb : b.toNat < 256 := b.toNat_lt
    rw [leNat_cons, List.length_cons, pow_succ]
    omega

/-- Bytes are what the number they stand for is stored as. -/
theorem leBytes_leNat (l : List UInt8) : leBytes l.length (leNat l) = l := by
  induction l with
  | nil => rfl
  | cons b bs ih =>
    have hb : b.toNat < 256 := b.toNat_lt
    have hdiv : (b.toNat + 256 * leNat bs) / 256 = leNat bs := by omega
    have hbyte : UInt8.ofNat (b.toNat + 256 * leNat bs) = b := by
      refine UInt8.toNat_inj.mp ((UInt8.toNat_ofNat' ..).trans ?_)
      change (b.toNat + 256 * leNat bs) % 256 = b.toNat
      omega
    rw [leNat_cons, List.length_cons, leBytes_succ, hdiv, ih, hbyte]

/-- A number in some of its bytes and the rest. -/
theorem leBytes_add (w k n : ℕ) : leBytes (w + k) n = leBytes w n ++ leBytes k (n / 256 ^ w) := by
  induction w generalizing n with
  | zero => simp
  | succ w ih =>
    rw [Nat.add_right_comm, leBytes_succ, leBytes_succ, ih, Nat.div_div_eq_div_mul, ← pow_succ']
    rfl

/-- Only what fits in the bytes counts. -/
theorem leBytes_congr {w n n' : ℕ} (h : n % 256 ^ w = n' % 256 ^ w) :
    leBytes w n = leBytes w n' := by
  have hnat : leNat (leBytes w n) = leNat (leBytes w n') := by rw [leNat_leBytes, leNat_leBytes, h]
  have hself := leBytes_leNat (leBytes w n)
  have hself' := leBytes_leNat (leBytes w n')
  rw [length_leBytes] at hself hself'
  rw [← hself, hnat, hself']

theorem leNat_append (l₁ l₂ : List UInt8) :
    leNat (l₁ ++ l₂) = leNat l₁ + 256 ^ l₁.length * leNat l₂ := by
  induction l₁ with
  | nil => simp
  | cons b l₁ ih =>
    rw [List.cons_append, leNat_cons, leNat_cons, ih, List.length_cons, pow_succ', Nat.mul_add,
      Nat.mul_assoc, Nat.add_assoc]

/-! ### Memory -/

/-- A byte at every address. -/
abbrev Mem := ℕ → UInt8

namespace Mem

/-- The `n` bytes from `a` on. -/
def read (m : Mem) : ℕ → ℕ → List UInt8
  | _, 0 => []
  | a, n + 1 => m a :: read m (a + 1) n

/-- The memory with the bytes `l` from `a` on. -/
def write (m : Mem) (a : ℕ) (l : List UInt8) : Mem :=
  fun b => if a ≤ b ∧ b < a + l.length then l.getD (b - a) 0 else m b

/-- The number in the `w` bytes from `a` on. -/
def load (m : Mem) (a w : ℕ) : ℕ := leNat (m.read a w)

/-- The memory with a number in the `w` bytes from `a` on. -/
def store (m : Mem) (a w n : ℕ) : Mem := m.write a (leBytes w n)

/-- The bytes `l` are in memory from `a` on. -/
def At (m : Mem) (a : ℕ) (l : List UInt8) : Prop := m.read a l.length = l

variable {m m' : Mem} {a b n k w v : ℕ} {l l₁ l₂ : List UInt8}

@[simp] theorem read_zero (m : Mem) (a : ℕ) : m.read a 0 = [] := rfl

theorem read_succ (m : Mem) (a n : ℕ) : m.read a (n + 1) = m a :: m.read (a + 1) n := rfl

@[simp] theorem length_read (m : Mem) (a n : ℕ) : (m.read a n).length = n := by
  induction n generalizing a with
  | zero => rfl
  | succ n ih => rw [read_succ, List.length_cons, ih]

theorem read_add (m : Mem) (a n k : ℕ) : m.read a (n + k) = m.read a n ++ m.read (a + n) k := by
  induction n generalizing a with
  | zero => simp
  | succ n ih =>
    have hadd : n + 1 + k = n + k + 1 := by omega
    rw [hadd, read_succ, read_succ, ih, List.cons_append, add_right_comm, add_assoc a n 1]

theorem getElem?_read (h : n < k) : (m.read a k)[n]? = some (m (a + n)) := by
  induction k generalizing a n with
  | zero => omega
  | succ k ih =>
    cases n with
    | zero => rfl
    | succ n =>
      rw [read_succ, List.getElem?_cons_succ, ih (by omega), add_assoc, add_comm 1 n]

theorem read_congr (h : ∀ i < n, m' (a + i) = m (a + i)) : m'.read a n = m.read a n := by
  induction n generalizing a with
  | zero => rfl
  | succ n ih =>
    rw [read_succ, read_succ, ih fun i hi => ?_]
    · exact congrArg (· :: _) (h 0 (Nat.zero_lt_succ n))
    · have hi' := h (i + 1) (by omega)
      rwa [add_comm i 1, ← add_assoc] at hi'

/-- The same bytes elsewhere. -/
theorem read_eq_read (h : ∀ i < n, m' (b + i) = m (a + i)) : m'.read b n = m.read a n := by
  induction n generalizing a b with
  | zero => rfl
  | succ n ih =>
    have h0 := h 0 n.succ_pos
    rw [read_succ, read_succ, ih fun i hi => ?_]
    · exact congrArg (· :: _) h0
    · have hsucc := h (i + 1) (Nat.succ_lt_succ hi)
      rwa [add_comm i 1, ← add_assoc, ← add_assoc] at hsucc

theorem load_congr (h : ∀ i < w, m' (a + i) = m (a + i)) : m'.load a w = m.load a w := by
  rw [load, load, read_congr h]

theorem load_lt (m : Mem) (a w : ℕ) : m.load a w < 256 ^ w := by
  have hlt := leNat_lt (m.read a w)
  rwa [length_read] at hlt

/-! ### Reading what was written -/

theorem write_of_notMem (h : b < a ∨ a + l.length ≤ b) : m.write a l b = m b :=
  if_neg (by omega)

theorem write_add (h : n < l.length) : m.write a l (a + n) = l[n] := by
  rw [write, if_pos (by omega), Nat.add_sub_cancel_left, List.getD_eq_getElem?_getD,
    List.getElem?_eq_getElem h, Option.getD_some]

theorem write_nil (m : Mem) (a : ℕ) : m.write a [] = m :=
  funext fun _ => write_of_notMem (by rw [List.length_nil]; omega)

/-- **A range that was written.** -/
theorem read_write_self (m : Mem) (a : ℕ) (l : List UInt8) : (m.write a l).At a l := by
  refine List.ext_getElem? fun n => ?_
  by_cases hn : n < l.length
  · rw [getElem?_read hn, write_add hn, List.getElem?_eq_getElem hn]
  · rw [List.getElem?_eq_none (by simpa using hn), List.getElem?_eq_none (by omega)]

/-- **A range that was not.** -/
theorem read_write_of_disjoint (h : a + n ≤ b ∨ b + l.length ≤ a) :
    (m.write b l).read a n = m.read a n :=
  read_congr fun _ _ => write_of_notMem (by omega)

theorem load_store_self (h : v < 256 ^ w) : (m.store a w v).load a w = v := by
  have hread := read_write_self m a (leBytes w v)
  rw [At, length_leBytes] at hread
  rw [load, store, hread, leNat_leBytes_of_lt h]

theorem load_store_of_disjoint (h : a + n ≤ b ∨ b + w ≤ a) :
    (m.store b w v).load a n = m.load a n := by
  rw [load, load, store, read_write_of_disjoint (by simpa using h)]

theorem store_of_notMem (h : b < a ∨ a + w ≤ b) : m.store a w v b = m b :=
  write_of_notMem (by simpa using h)

/-- A write of one byte. -/
theorem write_singleton (m : Mem) (a : ℕ) (c : UInt8) : m.write a [c] = Function.update m a c := by
  funext b
  by_cases hb : b = a
  · subst hb
    rw [Function.update_self]
    exact write_add (n := 0) (by simp)
  · rw [Function.update_of_ne hb, write_of_notMem (by rw [List.length_singleton]; omega)]

/-- Two adjacent writes are one. -/
theorem write_write (m : Mem) (a : ℕ) (l₁ l₂ : List UInt8) :
    (m.write a l₁).write (a + l₁.length) l₂ = m.write a (l₁ ++ l₂) := by
  funext b
  by_cases hb : a ≤ b ∧ b < a + (l₁ ++ l₂).length
  · obtain ⟨n, rfl⟩ := Nat.exists_eq_add_of_le hb.1
    rw [List.length_append] at hb
    rw [write_add (by rw [List.length_append]; omega)]
    by_cases hn : n < l₁.length
    · rw [write_of_notMem (by omega), write_add hn, List.getElem_append_left hn]
    · obtain ⟨k, rfl⟩ := Nat.exists_eq_add_of_le (Nat.le_of_not_lt hn)
      rw [← add_assoc, write_add (by omega), List.getElem_append_right (by omega)]
      simp
  · rw [List.length_append] at hb
    rw [write_of_notMem (by omega), write_of_notMem (by omega),
      write_of_notMem (by rw [List.length_append]; omega)]

/-- Two writes that are apart. -/
theorem write_comm (h : a + l₁.length ≤ b ∨ b + l₂.length ≤ a) :
    (m.write a l₁).write b l₂ = (m.write b l₂).write a l₁ := by
  funext c
  by_cases hc : b ≤ c ∧ c < b + l₂.length
  · rw [write_of_notMem (m := m.write b l₂) (by omega), Mem.write, if_pos hc, Mem.write, if_pos hc]
  · rw [write_of_notMem (m := m.write a l₁) (by omega), Mem.write, Mem.write]
    split_ifs
    · rfl
    · rw [write_of_notMem (by omega)]

/-! ### Bytes at an address -/

@[simp] theorem at_nil : m.At a [] := rfl

theorem at_append : m.At a (l₁ ++ l₂) ↔ m.At a l₁ ∧ m.At (a + l₁.length) l₂ := by
  rw [At, List.length_append, read_add]
  constructor
  · intro h
    exact List.append_inj h (length_read ..)
  · rintro ⟨h₁, h₂⟩
    rw [h₁, h₂]

/-- A number among the bytes. -/
theorem At.load_leBytes (h : m.At a (leBytes w v)) (hv : v < 256 ^ w) : m.load a w = v := by
  rw [At, length_leBytes] at h
  rw [load, h, leNat_leBytes_of_lt hv]

theorem At.apply (h : m.At a l) (hn : n < l.length) : m (a + n) = l[n] := by
  have hget : (m.read a l.length)[n]? = l[n]? := by rw [h]
  rw [getElem?_read hn, List.getElem?_eq_getElem hn] at hget
  exact Option.some.inj hget

/-- A part of the bytes. -/
theorem At.read_drop (h : m.At a l) (hk : n + k ≤ l.length) :
    m.read (a + n) k = (l.drop n).take k := by
  have hsplit : l = l.take n ++ ((l.drop n).take k ++ (l.drop n).drop k) := by
    rw [List.take_append_drop, List.take_append_drop]
  have hlen : (l.take n).length = n := List.length_take_of_le (by omega)
  rw [hsplit, at_append, at_append, hlen] at h
  have hmid := h.2.1
  rwa [At, List.length_take_of_le (by rw [List.length_drop]; omega)] at hmid

theorem At.congr (h : m.At a l) (hm : ∀ i < l.length, m' (a + i) = m (a + i)) : m'.At a l :=
  (read_congr hm).trans h

/-! ### Several writes -/

/-- The memory with several lists of bytes, each at its address, one after the other. -/
def writes (m : Mem) (ws : List (ℕ × List UInt8)) : Mem := ws.foldl (fun m w => m.write w.1 w.2) m

variable {ws : List (ℕ × List UInt8)} {x : ℕ × List UInt8}

theorem writes_cons : m.writes (x :: ws) = (m.write x.1 x.2).writes ws := rfl

theorem writes_of_notMem (h : ∀ w ∈ ws, b < w.1 ∨ w.1 + w.2.length ≤ b) : m.writes ws b = m b := by
  induction ws generalizing m with
  | nil => rfl
  | cons w ws ih =>
    obtain ⟨hw, hws⟩ := List.forall_mem_cons.mp h
    exact (ih hws).trans (write_of_notMem hw)

/-- **Writes that are apart** are all there. -/
theorem at_writes (h : ws.Pairwise fun w w' => w.1 + w.2.length ≤ w'.1 ∨ w'.1 + w'.2.length ≤ w.1)
    (hx : x ∈ ws) : (m.writes ws).At x.1 x.2 := by
  induction ws generalizing m with
  | nil => exact absurd hx List.not_mem_nil
  | cons w ws ih =>
    obtain ⟨hw, hws⟩ := List.pairwise_cons.mp h
    rcases List.mem_cons.mp hx with rfl | hx
    · refine (read_write_self m x.1 x.2).congr fun i hi => ?_
      refine writes_of_notMem (m := m.write x.1 x.2) fun w' hw' => ?_
      have hapart := hw w' hw'
      omega
    · exact ih hws hx

end Mem

end Xana
