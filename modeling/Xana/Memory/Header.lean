import Xana.Lib.Memory
import Xana.Lib.Tiling

/-!
# Heap headers in memory

`heap_header_t` is packed, so its fields are loads at fixed distances from the
header's address: `magic` at 0, `length` at 4, `free` at 12, `next` at 13 and
`prev` at 21, 29 bytes in all. `header` reads all five; a setter changes its field
and nothing else (`header_setNext_self` and the like), and no header that lies
apart from it (`header_setNext`).
-/

namespace Xana

open Mem

/-- `sizeof(heap_header_t)`. -/
def heapHeaderSize : ℕ := 29

/-- `HEAP_MAGIC`. -/
def heapMagic : ℕ := 0xFEAF2004

/-- `heap_header_t`. -/
@[ext] structure HeapHeader where
  magic : ℕ
  length : ℕ
  free : Bool
  next : ℕ
  prev : ℕ
  deriving DecidableEq, Repr

theorem HeapHeader.with_prev {x : HeapHeader} {p : ℕ} (h : x.prev = p) :
    { x with prev := p } = x := by
  subst h
  rfl

/-- The header at an address. -/
def header (m : Mem) (h : ℕ) : HeapHeader where
  magic := m.load h 4
  length := m.load (h + 4) 8
  free := m.load (h + 12) 1 != 0
  next := m.load (h + 13) 8
  prev := m.load (h + 21) 8

/-- `header->magic = v;` -/
def setMagic (m : Mem) (h v : ℕ) : Mem := m.store h 4 v

/-- `header->length = v;` -/
def setLength (m : Mem) (h v : ℕ) : Mem := m.store (h + 4) 8 v

/-- `header->free = v;` -/
def setFree (m : Mem) (h : ℕ) (v : Bool) : Mem := m.store (h + 12) 1 v.toNat

/-- `header->next = v;` -/
def setNext (m : Mem) (h v : ℕ) : Mem := m.store (h + 13) 8 v

/-- `header->prev = v;` -/
def setPrev (m : Mem) (h v : ℕ) : Mem := m.store (h + 21) 8 v

section Header

variable {m m' : Mem} {h k b w v : ℕ} {f : Bool}

/-- A header is its bytes. -/
theorem header_congr (hm : ∀ x, h ≤ x → x < h + 29 → m' x = m x) : header m' h = header m h := by
  have hload : ∀ off w, off + w ≤ 29 → m'.load (h + off) w = m.load (h + off) w :=
    fun off w hw => load_congr fun i hi => hm _ (by omega) (by omega)
  have h0 := hload 0 4 (by omega)
  rw [add_zero] at h0
  simp only [header, h0, hload 4 8 (by omega), hload 12 1 (by omega), hload 13 8 (by omega),
    hload 21 8 (by omega)]

theorem header_store_of_apart (hb : h + 29 ≤ b ∨ b + w ≤ h) :
    header (m.store b w v) h = header m h :=
  header_congr fun _ _ _ => store_of_notMem (by omega)

/-! ### One field, one header -/

theorem header_setMagic_self (hv : v < 2 ^ 32) :
    header (setMagic m h v) h = { header m h with magic := v } := by
  ext <;> simp only [header, setMagic]
  · exact load_store_self hv
  all_goals rw [load_store_of_disjoint (by omega)]

theorem header_setLength_self (hv : v < 2 ^ 64) :
    header (setLength m h v) h = { header m h with length := v } := by
  ext <;> simp only [header, setLength]
  case length => exact load_store_self hv
  all_goals rw [load_store_of_disjoint (by omega)]

theorem header_setFree_self : header (setFree m h f) h = { header m h with free := f } := by
  ext <;> simp only [header, setFree]
  case free =>
    have hf : f.toNat < 256 ^ 1 := by cases f <;> decide
    rw [load_store_self hf]
    cases f <;> rfl
  all_goals rw [load_store_of_disjoint (by omega)]

theorem header_setNext_self (hv : v < 2 ^ 64) :
    header (setNext m h v) h = { header m h with next := v } := by
  ext <;> simp only [header, setNext]
  case next => exact load_store_self hv
  all_goals rw [load_store_of_disjoint (by omega)]

theorem header_setPrev_self (hv : v < 2 ^ 64) :
    header (setPrev m h v) h = { header m h with prev := v } := by
  ext <;> simp only [header, setPrev]
  case prev => exact load_store_self hv
  all_goals rw [load_store_of_disjoint (by omega)]

theorem next_lt (m : Mem) (h : ℕ) : (header m h).next < 2 ^ 64 := load_lt m (h + 13) 8

section Apart

variable (hk : h + 29 ≤ k ∨ k + 29 ≤ h)
include hk

theorem header_setMagic : header (setMagic m k v) h = header m h :=
  header_store_of_apart (by omega)

theorem header_setLength : header (setLength m k v) h = header m h :=
  header_store_of_apart (by omega)

theorem header_setFree : header (setFree m k f) h = header m h :=
  header_store_of_apart (by omega)

theorem header_setNext : header (setNext m k v) h = header m h :=
  header_store_of_apart (by omega)

theorem header_setPrev : header (setPrev m k v) h = header m h :=
  header_store_of_apart (by omega)

end Apart

section Bytes

variable {x : ℕ} (hx : x < h ∨ h + 29 ≤ x)
include hx

theorem setMagic_of_notMem : setMagic m h v x = m x := store_of_notMem (by omega)

theorem setLength_of_notMem : setLength m h v x = m x := store_of_notMem (by omega)

theorem setFree_of_notMem : setFree m h f x = m x := store_of_notMem (by omega)

theorem setNext_of_notMem : setNext m h v x = m x := store_of_notMem (by omega)

theorem setPrev_of_notMem : setPrev m h v x = m x := store_of_notMem (by omega)

end Bytes

end Header

end Xana
