import Xana.Lib.Memory

/-!
# Records with a type and a size

A sequence of records in memory: each begins with its type and its size, in 32 bits, and the
next one lies at the next multiple of 8 behind it; a type of 0 ends the sequence
(`Xana.RecordsAt`). A loop that goes from one to the next folds over the records with their
addresses (`Xana.eachRecord_eq`).
-/

namespace Xana

/-- A record, its size aside. -/
structure Record where
  type : ℕ
  payload : List UInt8

namespace Record

variable (r : Record)

/-- The size, which counts itself and the type. -/
def size : ℕ := 8 + r.payload.length

/-- The size up to the next record. -/
def room : ℕ := (r.size + 7) / 8 * 8

/-- A record as it lies in memory. -/
def bytes : List UInt8 := leBytes 4 r.type ++ (leBytes 4 r.size ++ r.payload)

/-- Type and size are what 32 bits can say, and the type does not end the sequence. -/
structure Fits : Prop where
  type_ne : r.type ≠ 0
  type_lt : r.type < 2 ^ 32
  size_lt : r.size + 7 < 2 ^ 32

instance : Decidable r.Fits :=
  decidable_of_iff (r.type ≠ 0 ∧ r.type < 2 ^ 32 ∧ r.size + 7 < 2 ^ 32)
    ⟨fun h => ⟨h.1, h.2.1, h.2.2⟩, fun h => ⟨h.type_ne, h.type_lt, h.size_lt⟩⟩

end Record

/-- The records are in memory from an address on. -/
def RecordsAt (m : Mem) : ℕ → List Record → Prop
  | a, [] => m.load a 4 = 0
  | a, r :: rs => (r.Fits ∧ m.At a r.bytes) ∧ RecordsAt m (a + r.room) rs

/-- The records one behind the other, each up to a multiple of 8, and the end. -/
def image : List Record → List UInt8
  | [] => leBytes 4 0
  | r :: rs => r.bytes ++ (List.replicate (r.room - r.size) 0 ++ image rs)

/-- The room that the records take. -/
def recordsRoom : List Record → ℕ
  | [] => 0
  | r :: rs => r.room + recordsRoom rs

/-- The records with their addresses. -/
def located : ℕ → List Record → List (ℕ × Record)
  | _, [] => []
  | a, r :: rs => (a, r) :: located (a + r.room) rs

/-- A loop over the records, in at most so many rounds. `next` is the address of the next
record, from that of the record and its size. -/
def eachRecord {σ : Type*} (next : ℕ → ℕ → ℕ) (m : Mem) (body : σ → ℕ → Option σ) :
    ℕ → σ → ℕ → Option σ
  | 0, _, _ => none
  | n + 1, s, a =>
      if m.load a 4 = 0 then some s
      else (body s a).bind fun s => eachRecord next m body n s (next a (m.load (a + 4) 4))

section Loop

variable {σ : Type*} {m : Mem} {a n : ℕ} {r : Record} {rs : List Record} {x : ℕ × Record}
variable {next : ℕ → ℕ → ℕ} {body : σ → ℕ → Option σ} {s : σ}

theorem Record.Fits.load_type (h : r.Fits) (hat : m.At a r.bytes) : m.load a 4 = r.type :=
  (Mem.at_append.mp hat).1.load_leBytes h.type_lt

theorem Record.Fits.load_size (h : r.Fits) (hat : m.At a r.bytes) : m.load (a + 4) 4 = r.size := by
  have hsize := (Mem.at_append.mp (Mem.at_append.mp hat).2).1
  rw [length_leBytes] at hsize
  exact hsize.load_leBytes (by have := h.size_lt; omega)

/-- What is in a record lies behind its type and its size. -/
theorem Record.payload_at (hat : m.At a r.bytes) : m.At (a + 8) r.payload := by
  have hpayload := (Mem.at_append.mp (Mem.at_append.mp hat).2).2
  rwa [length_leBytes, length_leBytes] at hpayload

theorem size_le_room (r : Record) : r.size ≤ r.room := by
  rw [Record.room]
  omega

theorem length_bytes (r : Record) : r.bytes.length = r.size := by
  simp only [Record.bytes, Record.size, List.length_append, length_leBytes]
  omega

/-- **An image of records** is a sequence of them. -/
theorem recordsAt_image (hfits : ∀ r ∈ rs, r.Fits) (h : m.At a (image rs)) : RecordsAt m a rs := by
  induction rs generalizing a with
  | nil => exact h.load_leBytes (by decide)
  | cons r rs ih =>
    obtain ⟨hr, hrs⟩ := List.forall_mem_cons.mp hfits
    obtain ⟨hbytes, hrest⟩ := Mem.at_append.mp h
    obtain ⟨-, himage⟩ := Mem.at_append.mp hrest
    rw [List.length_replicate, length_bytes, add_assoc, Nat.add_sub_cancel' (size_le_room r)]
      at himage
    exact ⟨⟨hr, hbytes⟩, ih hrs himage⟩

/-- The records are in any memory that has the same bytes in their place. -/
theorem RecordsAt.congr {m' : Mem} (h : RecordsAt m a rs)
    (hm : ∀ b, a ≤ b → b < a + recordsRoom rs + 4 → m' b = m b) : RecordsAt m' a rs := by
  induction rs generalizing a with
  | nil =>
    refine Eq.trans (Mem.load_congr fun i hi => hm _ (by omega) ?_) h
    rw [recordsRoom]
    omega
  | cons r rs ih =>
    obtain ⟨⟨hfits, hat⟩, hrest⟩ := h
    rw [recordsRoom] at hm
    have hroom := size_le_room r
    refine ⟨⟨hfits, hat.congr fun i hi => hm _ (by omega) ?_⟩,
      ih hrest fun b hle hlt => hm b (by omega) (by omega)⟩
    rw [length_bytes] at hi
    omega

/-- A record of the sequence is in memory. -/
theorem RecordsAt.at (h : RecordsAt m a rs) (hx : x ∈ located a rs) :
    x.2.Fits ∧ m.At x.1 x.2.bytes := by
  induction rs generalizing a with
  | nil => exact absurd hx List.not_mem_nil
  | cons r rs ih =>
    rcases List.mem_cons.mp hx with rfl | hx
    · exact h.1
    · exact ih h.2 hx

/-- A record lies before the end of the sequence. -/
theorem add_room_le (hx : x ∈ located a rs) :
    a ≤ x.1 ∧ x.1 + x.2.room ≤ a + recordsRoom rs := by
  induction rs generalizing a with
  | nil => exact absurd hx List.not_mem_nil
  | cons r rs ih =>
    rw [recordsRoom]
    rcases List.mem_cons.mp hx with rfl | hx
    · exact ⟨le_rfl, by dsimp only; omega⟩
    · have := ih hx
      omega

theorem map_snd_located (a : ℕ) (rs : List Record) : (located a rs).map Prod.snd = rs := by
  induction rs generalizing a with
  | nil => rfl
  | cons r rs ih => rw [located, List.map_cons, ih]

/-- **A loop over the records** does what it does with one, for each of them in turn. -/
theorem eachRecord_eq (h : RecordsAt m a rs)
    (hnext : ∀ x ∈ located a rs, next x.1 x.2.size = x.1 + x.2.room) (hn : rs.length < n) :
    eachRecord next m body n s a = (located a rs).foldlM (fun s x => body s x.1) s := by
  induction rs generalizing a n s with
  | nil =>
    obtain ⟨n, rfl⟩ := Nat.exists_eq_add_of_le' hn
    exact if_pos h
  | cons r rs ih =>
    obtain ⟨n, rfl⟩ := Nat.exists_eq_add_of_le' (Nat.zero_lt_of_lt hn)
    obtain ⟨⟨hfits, hat⟩, hrest⟩ := h
    have hfirst : next a r.size = a + r.room := hnext (a, r) List.mem_cons_self
    rw [eachRecord, hfits.load_type hat, hfits.load_size hat, if_neg hfits.type_ne, hfirst, located,
      List.foldlM_cons]
    refine congrArg (Option.bind _) (funext fun s => ?_)
    exact ih hrest (fun x hx => hnext x (List.mem_cons_of_mem _ hx)) (Nat.succ_lt_succ_iff.mp hn)

end Loop

end Xana
