import Xana.Memory.PageMap

/-!
# The page tables that the loader builds

The 32-bit loader has a `memory.c` of its own: `kmalloc_a` takes memory that is never given
back, below the kernel, and `map_page` and `map_page_2mb` enter pages of 4 KiB and of 2 MiB
in tables of the kind that the kernel uses later. An entry that is a page of 2 MiB has no
table behind it, so its place in `virt` stays `0`, and `virt` is all that `map_page` looks
at.

The processor does not read `virt`: `State.translate` goes through the entries.
-/

namespace Xana

namespace Bootstrap

open Forest

/-- `KERNEL_LOAD_ADDR`. -/
def kernelLoadAddr : ℕ := 0x800000

/-- The heap of the loader, and its tables. All other memory is left out. -/
structure State where
  kheapLoc : ℕ
  dirs : ℕ → PageDirectory
  tabs : ℕ → PageTable

/-! ### Assignments -/

namespace State

variable (b : State) (d i v : ℕ)

/-- `d->virt[i] = v;` -/
def setVirt : State :=
  { b with
    dirs := Function.update b.dirs d
      { b.dirs d with virt := Function.update (b.dirs d).virt i v } }

/-- `d->entries[i] = v;` -/
def setEntry : State :=
  { b with
    dirs := Function.update b.dirs d
      { b.dirs d with entries := Function.update (b.dirs d).entries i v } }

/-- `d->is_full[i] = full;` -/
def setFull (full : Bool) : State :=
  { b with
    dirs := Function.update b.dirs d
      { b.dirs d with isFull := Function.update (b.dirs d).isFull i full } }

/-- `d->phys_addr = v;` -/
def setPhysAddr : State :=
  { b with dirs := Function.update b.dirs d { b.dirs d with physAddr := v } }

/-- `d->pt_entry[i] = v;` -/
def setPtEntry : State :=
  { b with tabs := Function.update b.tabs d (Function.update (b.tabs d) i v) }

/-- `memset(d, 0, sizeof(page_directory_t));` -/
def clearDir : State := { b with dirs := Function.update b.dirs d PageDirectory.zero }

/-- `memset(d, 0, sizeof(page_table_t));` -/
def clearTab : State := { b with tabs := Function.update b.tabs d fun _ => 0 }

end State

/-! ### The functions -/

section Functions

variable (b : State)

/-- `kmalloc_a`, which stops the loader when it is out of memory. -/
def kmallocA (size align : ℕ) : Option (ℕ × State) :=
  let aligned := (b.kheapLoc + align - 1) % 2 ^ 32 &&& (2 ^ 32 - 1 - (align - 1))
  if (aligned + size) % 2 ^ 32 < kernelLoadAddr then
    some (aligned, { b with kheapLoc := (aligned + size) % 2 ^ 32 })
  else none

/-- What each `if` of `map_page` and `map_page_2mb` does for a table of `size` bytes: where
there is none in slot `i` of `d`, a new one is put there, by `memset` made empty. -/
def newTable (size : ℕ) (memset : State → ℕ → State) (d i : ℕ) (isKernel isWriteable : Bool) :
    Option State :=
  if (b.dirs d).virt i ≠ 0 then some b
  else do
    let (allocAddr, b) ← kmallocA b size 0x1000
    let b := b.setVirt d i (allocAddr + virtMemOffset)
    let b := (memset b allocAddr).setFull d i false
    return b.setEntry d i (allocAddr ||| entryFlags isKernel isWriteable)

/-- The `if` for a directory. -/
def newDirectory : ℕ → ℕ → Bool → Bool → Option State :=
  newTable b pageDirectorySize State.clearDir

/-- The `if` for a page table. -/
def newPageTable : ℕ → ℕ → Bool → Bool → Option State :=
  newTable b pageTableSize State.clearTab

/-- The table in a slot: `(page_directory_t *)(uint32_t)(d->virt[i])`. -/
def tableIn (d i : ℕ) : ℕ := (b.dirs d).virt i % 2 ^ 32

/-- `map_page`. -/
def mapPage (virt phys : ℕ) (isKernel isWriteable : Bool) (root : ℕ) : Option (Bool × State) := do
  let b ← newDirectory b root (pml4Index virt) isKernel isWriteable
  let pdpt := tableIn b root (pml4Index virt)
  let b ← newDirectory b pdpt (pdptIndex virt) isKernel isWriteable
  let pd := tableIn b pdpt (pdptIndex virt)
  let b ← newPageTable b pd (pdIndex virt) isKernel isWriteable
  let pt := tableIn b pd (pdIndex virt)
  if b.tabs pt (ptIndex virt) ≠ 0 then return (false, b)
  else
    return (true, b.setPtEntry pt (ptIndex virt)
      (frameAddr phys ||| entryFlags isKernel isWriteable))

/-- `map_page_2mb`. -/
def mapPage2mb (virt phys : ℕ) (isKernel isWriteable : Bool) (root : ℕ) :
    Option (Bool × State) := do
  let b ← newDirectory b root (pml4Index virt) isKernel isWriteable
  let pdpt := tableIn b root (pml4Index virt)
  let b ← newDirectory b pdpt (pdptIndex virt) isKernel isWriteable
  let pd := tableIn b pdpt (pdptIndex virt)
  return (true, b.setEntry pd (pdIndex virt)
    ((phys &&& 0xFFFFFFFFFFE00000) ||| entryFlags isKernel isWriteable ||| 1 <<< 7))

end Functions

/-! ### The processor -/

/-- An entry is there. -/
def present (entry : ℕ) : Bool := entry &&& 1 ≠ 0

/-- An entry of a directory is a page. -/
def isPage (entry : ℕ) : Bool := entry &&& 1 <<< 7 ≠ 0

/-- The address in an entry that is for `2 ^ n` bytes. -/
def addrBits (n entry : ℕ) : ℕ := entry / 2 ^ n * 2 ^ n

namespace State

variable (b : State)

/-- The last step of a translation, in a page table. -/
def translatePt (pt virt : ℕ) : Option ℕ :=
  let entry := b.tabs pt (ptIndex virt)
  if !present entry then none else some (addrBits 12 entry + virt % 2 ^ 12)

/-- A translation from a page directory on. -/
def translatePd (pd virt : ℕ) : Option ℕ :=
  let entry := (b.dirs pd).entries (pdIndex virt)
  if !present entry then none
  else if isPage entry then some (addrBits 21 entry + virt % 2 ^ 21)
  else b.translatePt (addrBits 12 entry) virt

/-- A translation from a page directory pointer table on. -/
def translatePdpt (pdpt virt : ℕ) : Option ℕ :=
  let entry := (b.dirs pdpt).entries (pdptIndex virt)
  if !present entry then none
  else if isPage entry then some (addrBits 30 entry + virt % 2 ^ 30)
  else b.translatePd (addrBits 12 entry) virt

/-- **What the processor makes of an address**, with `root` in `cr3`: the tables are found
through the addresses in their entries. The loader sets none of the bits behind an
address. -/
def translate (root virt : ℕ) : Option ℕ :=
  let entry := (b.dirs root).entries (pml4Index virt)
  if !present entry then none else b.translatePdpt (addrBits 12 entry) virt

end State

/-! ### The tables of a root -/

/-- The table that a place in `virt` stands for, if there is one. -/
def tableAt (virt : ℕ) : Option ℕ := if virt = 0 then none else some (virt % 2 ^ 32)

/-- The table in a slot of a directory. -/
def State.kid (b : State) (d i : ℕ) : Option ℕ := tableAt ((b.dirs d).virt i)

/-- The slots of the tables of one root. -/
def TableKey (root r : ℕ) (p : List ℕ) : Prop := r = root ∧ p.length ≤ 3

/-- **The invariant of the loader's tables**: they are unshared, they lie in the memory that
has been taken, and the entries lead the processor where `virt` leads the loader. -/
structure Linked (b : State) (root : ℕ) : Prop where
  kheapLoc_lt : b.kheapLoc < kernelLoadAddr
  unshared : Unshared b.kid (TableKey root)
  aligned : ∀ {p t}, p.length ≤ 3 → walk b.kid root p = some t → t % 0x1000 = 0
  end_le : ∀ {p t}, p.length ≤ 3 → walk b.kid root p = some t →
    t + tableSize p.length ≤ b.kheapLoc
  entry_of_some : ∀ {p d i t}, p.length < 3 → walk b.kid root p = some d → b.kid d i = some t →
    (b.dirs d).entries i = t ||| 3
  entry_of_none : ∀ {p d i}, p.length < 2 → walk b.kid root p = some d → b.kid d i = none →
    (b.dirs d).entries i = 0

section Setters

variable {b : State} {d i a j v p n t : ℕ} {f : Bool}

@[simp] theorem tableAt_zero : tableAt 0 = none := rfl

theorem tableAt_add (hv : 0 < v) (hlt : v < 2 ^ 32) : tableAt (v + virtMemOffset) = some v := by
  have hmod : (v + virtMemOffset) % 2 ^ 32 = v := by
    rw [virtMemOffset]
    omega
  rw [tableAt, if_neg (by omega), hmod]

theorem State.kid_setVirt (hv : 0 < v) (hlt : v < 2 ^ 32) :
    (b.setVirt d i (v + virtMemOffset)).kid a j =
      if a = d ∧ j = i then some v else b.kid a j := by
  simp only [State.kid, State.setVirt]
  by_cases ha : a = d
  · subst ha
    by_cases hj : j = i
    · subst hj
      simp [tableAt_add hv hlt]
    · simp [hj]
  · simp [ha]

theorem State.kid_congr {b' : State} (h : ∀ a, (b'.dirs a).virt = (b.dirs a).virt) :
    b'.kid = b.kid := by
  funext a j
  simp only [State.kid, h]

@[simp] theorem State.kid_setEntry : (b.setEntry d i v).kid = b.kid := by
  refine State.kid_congr fun a => ?_
  simp only [State.setEntry]
  by_cases ha : a = d
  · subst ha
    rw [Function.update_self]
  · rw [Function.update_of_ne ha]

@[simp] theorem State.kid_setFull : (b.setFull d i f).kid = b.kid := by
  refine State.kid_congr fun a => ?_
  simp only [State.setFull]
  by_cases ha : a = d
  · subst ha
    rw [Function.update_self]
  · rw [Function.update_of_ne ha]

@[simp] theorem State.kid_setPtEntry : (b.setPtEntry d i v).kid = b.kid := rfl

@[simp] theorem State.kid_clearTab : (b.clearTab p).kid = b.kid := rfl

theorem State.kid_clearDir : (b.clearDir p).kid a j = if a = p then none else b.kid a j := by
  simp only [State.kid, State.clearDir]
  by_cases ha : a = p
  · subst ha
    rw [Function.update_self, if_pos rfl]
    rfl
  · rw [Function.update_of_ne ha, if_neg ha]

theorem State.kid_eq_none : b.kid d i = none ↔ (b.dirs d).virt i = 0 := by
  rw [State.kid, tableAt]
  split_ifs with h <;> simp [h]

theorem State.tableIn_of_kid (h : b.kid d i = some t) : tableIn b d i = t := by
  rw [State.kid, tableAt] at h
  split_ifs at h
  exact Option.some.inj h

end Setters

/-! ### A new table -/

/-- The new table `t` is put in the slot `i` of `d`, `n` slots from the root. -/
structure Put (b b' : State) (d i t n : ℕ) : Prop where
  grafted : Grafted b.kid b'.kid d i t
  dirs : ∀ a, a ≠ t → a ≠ d → b'.dirs a = b.dirs a
  entry : (b'.dirs d).entries i = t ||| 3
  entries : ∀ j, j ≠ i → (b'.dirs d).entries j = (b.dirs d).entries j
  tabs : ∀ a, a ≠ t → b'.tabs a = b.tabs a
  newDir : n < 3 → b'.dirs t = PageDirectory.zero
  newTab : n = 3 → b'.tabs t = fun _ => 0
  kheapLoc : b'.kheapLoc = t + tableSize n

section NewTable

variable {b b' : State} {root d i t n : ℕ} {p q : List ℕ}

/-- **`kmalloc_a` takes the next page-aligned memory.** -/
theorem kmallocA_eq {size : ℕ} (hb : b.kheapLoc < kernelLoadAddr) (hsize : size < 2 ^ 31) :
    kmallocA b size 0x1000 =
      if (b.kheapLoc + 0xFFF) / 0x1000 * 0x1000 + size < kernelLoadAddr then
        some ((b.kheapLoc + 0xFFF) / 0x1000 * 0x1000,
          { b with kheapLoc := (b.kheapLoc + 0xFFF) / 0x1000 * 0x1000 + size })
      else none := by
  rw [kernelLoadAddr] at *
  have hmask : (b.kheapLoc + 0x1000 - 1) % 2 ^ 32 &&& (2 ^ 32 - 1 - (0x1000 - 1)) =
      (b.kheapLoc + 0xFFF) / 0x1000 * 0x1000 := by
    have hsplit : 2 ^ 32 - 1 - (0x1000 - 1) = (2 ^ 32 - 1) &&& 0xFFFFFFFFFFFFF000 := by decide
    rw [Nat.add_sub_assoc (by decide), Nat.mod_eq_of_lt (by omega), hsplit, ← Nat.and_assoc,
      Nat.and_two_pow_sub_one_eq_mod, Nat.mod_eq_of_lt (by omega)]
    exact and_pageMask (by omega)
  have hmod : ((b.kheapLoc + 0xFFF) / 0x1000 * 0x1000 + size) % 2 ^ 32 =
      (b.kheapLoc + 0xFFF) / 0x1000 * 0x1000 + size := Nat.mod_eq_of_lt (by omega)
  rw [kmallocA]
  simp only [hmask, hmod, kernelLoadAddr]

/-- A directory is put in a slot. -/
theorem put_dir (ht : 0 < t) (hlt : t < 2 ^ 32) (hd : t ≠ d) (hn : n < 3) :
    Put b ((((({ b with kheapLoc := t + tableSize n } : State).setVirt d i
      (t + virtMemOffset)).clearDir t).setFull d i false).setEntry d i (t ||| 3)) d i t n where
  grafted := by
    constructor
    · rw [State.kid_setEntry, State.kid_setFull, State.kid_clearDir, if_neg hd.symm,
        State.kid_setVirt ht hlt, if_pos ⟨rfl, rfl⟩]
    · intro a j ha haj
      rw [State.kid_setEntry, State.kid_setFull, State.kid_clearDir, if_neg ha,
        State.kid_setVirt ht hlt, if_neg haj]
      rfl
  dirs := by
    intro a hat had
    simp [State.setVirt, State.clearDir, State.setFull, State.setEntry, hat, had]
  entry := by simp [State.setEntry]
  entries := by
    intro j hj
    simp [State.setVirt, State.clearDir, State.setFull, State.setEntry, hd.symm, hj]
  tabs := fun _ _ => rfl
  newDir := by
    intro _
    simp [State.setVirt, State.clearDir, State.setFull, State.setEntry, hd]
  newTab := fun h => absurd h hn.ne
  kheapLoc := rfl

/-- A page table is put in a slot. -/
theorem put_tab (ht : 0 < t) (hlt : t < 2 ^ 32) :
    Put b ((((({ b with kheapLoc := t + tableSize 3 } : State).setVirt d i
      (t + virtMemOffset)).clearTab t).setFull d i false).setEntry d i (t ||| 3)) d i t 3 where
  grafted := by
    constructor
    · rw [State.kid_setEntry, State.kid_setFull, State.kid_clearTab, State.kid_setVirt ht hlt,
        if_pos ⟨rfl, rfl⟩]
    · intro a j _ haj
      rw [State.kid_setEntry, State.kid_setFull, State.kid_clearTab, State.kid_setVirt ht hlt,
        if_neg haj]
      rfl
  dirs := by
    intro a _ had
    simp [State.setVirt, State.clearTab, State.setFull, State.setEntry, had]
  entry := by simp [State.setEntry]
  entries := by
    intro j hj
    simp [State.setVirt, State.clearTab, State.setFull, State.setEntry, hj]
  tabs := fun a ha => Function.update_of_ne ha _ _
  newDir := fun h => absurd h (by omega)
  newTab := fun _ => Function.update_self _ _ _
  kheapLoc := rfl

/-- **What an `if` does**: nothing where there is a table, and otherwise a new one is put in
the slot, in the memory behind all that has been taken. -/
theorem newTable_cases {size : ℕ} {memset : State → ℕ → State} (hb : b.kheapLoc < kernelLoadAddr)
    (hpos : 0 < b.kheapLoc) (hd : d < b.kheapLoc) (hsize : size = tableSize n)
    (hmemset : n < 3 ∧ memset = State.clearDir ∨ n = 3 ∧ memset = State.clearTab)
    (h : newTable b size memset d i true true = some b') :
    (∃ t, b.kid d i = some t ∧ b' = b) ∨
    (b.kid d i = none ∧ ∃ t, t = (b.kheapLoc + 0xFFF) / 0x1000 * 0x1000 ∧
      b'.kheapLoc < kernelLoadAddr ∧ Put b b' d i t n) := by
  rw [newTable] at h
  split_ifs at h with hvirt
  · refine Or.inl ?_
    obtain rfl := Option.some.inj h
    cases hkid : b.kid d i with
    | none => exact absurd (State.kid_eq_none.mp hkid) hvirt
    | some t => exact ⟨t, rfl, rfl⟩
  · refine Or.inr ⟨State.kid_eq_none.mpr (not_not.mp hvirt), _, rfl, ?_⟩
    have hlt : size < 2 ^ 31 := by
      rw [hsize, tableSize]
      split_ifs <;> decide
    rw [kmallocA_eq hb hlt] at h
    rw [kernelLoadAddr] at hb
    have hle : b.kheapLoc ≤ (b.kheapLoc + 0xFFF) / 0x1000 * 0x1000 := by omega
    have hlt : (b.kheapLoc + 0xFFF) / 0x1000 * 0x1000 < 2 ^ 32 := by omega
    generalize (b.kheapLoc + 0xFFF) / 0x1000 * 0x1000 = t at h hle hlt ⊢
    by_cases hroom : t + size < kernelLoadAddr
    · have hflags : entryFlags true true = 3 := rfl
      rw [if_pos hroom, Option.bind_eq_bind, Option.bind_some, hflags, hsize] at h
      rw [hsize] at hroom
      have hput : Put b b' d i t n := by
        rw [← Option.some.inj h]
        obtain ⟨hn, rfl⟩ | ⟨rfl, rfl⟩ := hmemset
        · exact put_dir (hpos.trans_le hle) hlt (hd.trans_le hle).ne' hn
        · exact put_tab (hpos.trans_le hle) hlt
      refine ⟨?_, hput⟩
      rw [hput.kheapLoc]
      exact hroom
    · rw [if_neg hroom] at h
      exact absurd h (by simp)

/-- Room that is enough for a table, wherever the heap ends. -/
def tableRoom : ℕ := 0x4000

theorem tableSize_add_le (n : ℕ) : tableSize n + 0xFFF < tableRoom := by
  rw [tableSize]
  split_ifs <;> decide

/-- Where there is a table, nothing happens. -/
theorem newTable_of_kid {size : ℕ} {memset : State → ℕ → State} (h : b.kid d i = some t) :
    newTable b size memset d i true true = some b := by
  have hvirt : (b.dirs d).virt i ≠ 0 := fun hzero => by
    rw [State.kid_eq_none.mpr hzero] at h
    exact absurd h (by simp)
  rw [newTable, if_pos hvirt]

/-- **An `if` returns** if there is room for a table. -/
theorem newTable_returns {size : ℕ} {memset : State → ℕ → State} (hsize : size = tableSize n)
    (hmemset : ∀ b a, (memset b a).kheapLoc = b.kheapLoc) (d i : ℕ)
    (hroom : b.kheapLoc + tableRoom ≤ kernelLoadAddr) :
    ∃ b', newTable b size memset d i true true = some b' ∧
      b'.kheapLoc ≤ b.kheapLoc + tableRoom := by
  have hle := tableSize_add_le n
  rw [← hsize] at hle
  have hlimit : kernelLoadAddr = 0x800000 := rfl
  have hlt : b.kheapLoc < kernelLoadAddr := by omega
  rw [newTable]
  split_ifs with hvirt
  · exact ⟨b, rfl, Nat.le_add_right _ _⟩
  · rw [kmallocA_eq hlt (by omega), if_pos (by omega)]
    refine ⟨_, rfl, ?_⟩
    change (memset _ _).kheapLoc ≤ _
    rw [hmemset]
    change (b.kheapLoc + 0xFFF) / 0x1000 * 0x1000 + size ≤ _
    omega

/-- **What an `if` has done** for the slot `i` behind the slots `p`. -/
structure Ensured (b b' : State) (root : ℕ) (p : List ℕ) (i : ℕ) : Prop where
  linked : Linked b' root
  slot : ∃ t, walk b'.kid root (p ++ [i]) = some t
  others : ∀ {q}, q.length ≤ 3 → q ≠ p ++ [i] → walk b'.kid root q = walk b.kid root q
  kept : walk b.kid root (p ++ [i]) ≠ none → b' = b
  taken : walk b.kid root (p ++ [i]) = none →
    b'.kheapLoc = (b.kheapLoc + 0xFFF) / 0x1000 * 0x1000 + tableSize (p.length + 1)
  tabs : ∀ {q a}, q.length ≤ 3 → walk b.kid root q = some a → b'.tabs a = b.tabs a
  entries : ∀ {q a j}, q.length ≤ 3 → walk b.kid root q = some a → ¬(q = p ∧ j = i) →
    (b'.dirs a).entries j = (b.dirs a).entries j
  newTab : walk b.kid root (p ++ [i]) = none → p.length = 2 →
    ∀ {t}, walk b'.kid root (p ++ [i]) = some t → b'.tabs t = fun _ => 0
  newDir : walk b.kid root (p ++ [i]) = none → p.length < 2 →
    ∀ {t}, walk b'.kid root (p ++ [i]) = some t → b'.dirs t = PageDirectory.zero

namespace Linked

section Put

variable (h : Linked b root) (hp : p.length < 3) (hd : walk b.kid root p = some d)
  (hnone : b.kid d i = none) (ht : t = (b.kheapLoc + 0xFFF) / 0x1000 * 0x1000)
  (hput : Put b b' d i t (p.length + 1))
include h ht

/-- The new table is not one of those in use. -/
theorem ne_new (hq : q.length ≤ 3) : walk b.kid root q ≠ some t := by
  intro hw
  have hend := h.end_le hq hw
  have hpos := tableSize_pos q.length
  omega

include hp hd hnone hput

/-- Which tables the slots lead to. -/
theorem walk_put (hq : q.length ≤ 3) :
    walk b'.kid root q = if q = p ++ [i] then some t else walk b.kid root q := by
  rw [h.unshared.walk_graft hput.grafted ⟨rfl, hp.le⟩ hd hnone ?_ ?_ ⟨rfl, hq⟩]
  · simp only [true_and]
  · rintro r q ⟨rfl, hq⟩
    exact h.ne_new ht hq
  · rintro j ⟨-, hj⟩
    simp only [List.length_append, List.length_singleton] at hj
    rw [State.kid, hput.newDir (by omega)]
    rfl

/-- **A new table keeps the invariant.** -/
theorem put (hlt : b'.kheapLoc < kernelLoadAddr) : Linked b' root := by
  have hpos : 0 < b.kheapLoc := by
    have hend := h.end_le (p := []) (by simp) rfl
    have hsize := tableSize_pos ([] : List ℕ).length
    omega
  have hne := fun {q : List ℕ} (hq : q.length ≤ 3) => h.ne_new ht hq
  have hwalk := fun {q : List ℕ} (hq : q.length ≤ 3) => h.walk_put hp hd hnone ht hput hq
  have htd : t ≠ d := fun heq => hne hp.le (heq ▸ hd)
  have hkheap := hput.kheapLoc
  have hnewSlot : ∀ j, p.length + 1 < 3 → b'.kid t j = none := by
    intro j hlen
    rw [State.kid, hput.newDir hlen]
    rfl
  constructor
  · exact hlt
  · refine h.unshared.graft hput.grafted ⟨rfl, hp.le⟩ hd hnone ?_ ?_
    · rintro r q ⟨rfl, hq⟩
      exact hne hq
    · rintro j ⟨-, hj⟩
      simp only [List.length_append, List.length_singleton] at hj
      exact hnewSlot j (by omega)
  · intro q a hq hw
    rw [hwalk hq] at hw
    split_ifs at hw with hc
    · obtain rfl := Option.some.inj hw
      omega
    · exact h.aligned hq hw
  · intro q a hq hw
    rw [hwalk hq] at hw
    split_ifs at hw with hc
    · obtain rfl := Option.some.inj hw
      rw [hc, List.length_append, List.length_singleton, hkheap]
    · have hend := h.end_le hq hw
      have hpos' := tableSize_pos (p.length + 1)
      omega
  · -- the entries of tables that are there
    intro q a j u hq hw hkid
    rw [hwalk hq.le] at hw
    split_ifs at hw with hc
    · obtain rfl := Option.some.inj hw
      rw [hc, List.length_append, List.length_singleton] at hq
      rw [hnewSlot j hq] at hkid
      exact absurd hkid (by simp)
    · have hat : a ≠ t := fun heq => hne hq.le (heq ▸ hw)
      by_cases hslot : a = d ∧ j = i
      · obtain ⟨rfl, rfl⟩ := hslot
        rw [hput.grafted.slot] at hkid
        obtain rfl := Option.some.inj hkid
        exact hput.entry
      · rw [hput.grafted.other a j hat hslot] at hkid
        by_cases had : a = d
        · subst had
          rw [hput.entries j fun hj => hslot ⟨rfl, hj⟩]
          exact h.entry_of_some hq hw hkid
        · rw [hput.dirs a hat had]
          exact h.entry_of_some hq hw hkid
  · -- the entries of slots without a table
    intro q a j hq hw hkid
    rw [hwalk (by omega)] at hw
    split_ifs at hw with hc
    · obtain rfl := Option.some.inj hw
      rw [hc, List.length_append, List.length_singleton] at hq
      rw [hput.newDir (by omega)]
      rfl
    · have hat : a ≠ t := fun heq => hne (by omega) (heq ▸ hw)
      by_cases hslot : a = d ∧ j = i
      · obtain ⟨rfl, rfl⟩ := hslot
        rw [hput.grafted.slot] at hkid
        exact absurd hkid (by simp)
      · rw [hput.grafted.other a j hat hslot] at hkid
        by_cases had : a = d
        · subst had
          rw [hput.entries j fun hj => hslot ⟨rfl, hj⟩]
          exact h.entry_of_none hq hw hkid
        · rw [hput.dirs a hat had]
          exact h.entry_of_none hq hw hkid

end Put

theorem lt_kheapLoc (h : Linked b root) (hd : walk b.kid root p = some d) (hp : p.length ≤ 3) :
    d < b.kheapLoc := by
  have hend := h.end_le hp hd
  have hsize := tableSize_pos p.length
  omega

/-- **After an `if` there is a table in the slot.** -/
theorem ensured (h : Linked b root) {size : ℕ} {memset : State → ℕ → State}
    (hp : p.length < 3) (hd : walk b.kid root p = some d) (hsize : size = tableSize (p.length + 1))
    (hmemset : p.length + 1 < 3 ∧ memset = State.clearDir ∨
      p.length + 1 = 3 ∧ memset = State.clearTab)
    (hrun : newTable b size memset d i true true = some b') : Ensured b b' root p i := by
  have hlt := h.lt_kheapLoc hd hp.le
  have hslot : walk b.kid root (p ++ [i]) = b.kid d i := by rw [walk_concat, hd, Option.bind_some]
  obtain ⟨t, hkid, rfl⟩ | ⟨hnone, t, ht, hkheap, hput⟩ :=
    newTable_cases h.kheapLoc_lt (by omega) hlt hsize hmemset hrun
  · have hwalk := hslot.trans hkid
    exact ⟨h, ⟨t, hwalk⟩, fun _ _ => rfl, fun _ => rfl, fun hn => absurd (hwalk.symm.trans hn)
      (by simp), fun _ _ => rfl, fun _ _ _ => rfl, fun hn => absurd (hwalk.symm.trans hn) (by simp),
      fun hn => absurd (hwalk.symm.trans hn) (by simp)⟩
  · have hwalk := fun {q : List ℕ} (hq : q.length ≤ 3) => h.walk_put hp hd hnone ht hput hq
    have hlen : (p ++ [i]).length ≤ 3 := by
      rw [List.length_append, List.length_singleton]
      omega
    have hnew : walk b'.kid root (p ++ [i]) = some t := by rw [hwalk hlen, if_pos rfl]
    constructor
    · exact h.put hp hd hnone ht hput hkheap
    · exact ⟨t, hnew⟩
    · intro q hq hne
      rw [hwalk hq, if_neg hne]
    · intro hs
      rw [hslot, hnone] at hs
      exact absurd rfl hs
    · intro _
      rw [hput.kheapLoc, ht]
    · intro q a hq hw
      refine hput.tabs a ?_
      rintro rfl
      exact h.ne_new ht hq hw
    · intro q a j hq hw hne
      have hat : a ≠ t := by
        rintro rfl
        exact h.ne_new ht hq hw
      by_cases had : a = d
      · subst had
        refine hput.entries j fun hj => hne ⟨?_, hj⟩
        exact (h.unshared.inj ⟨rfl, hq⟩ ⟨rfl, hp.le⟩ hw hd).2
      · rw [hput.dirs a hat had]
    · intro _ hlen' u hu
      rw [hnew] at hu
      obtain rfl := Option.some.inj hu
      exact hput.newTab (by omega)
    · intro _ hlen' u hu
      rw [hnew] at hu
      obtain rfl := Option.some.inj hu
      exact hput.newDir (by omega)

end Linked

end NewTable

end Bootstrap

end Xana
