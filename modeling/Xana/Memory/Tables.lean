import Xana.Lib.Forest
import Xana.Memory.AddressSpace

/-!
# Page tables as trees

A page directory is the root of a tree of tables, three levels deep: its slots lead
through `virt`, and the slots of a page table hold the entries. `Machine.entry` is
the entry for an address.

`TreeInv` is the invariant: the tables of some keys are unshared and lie in chunks
that are in use. Putting a new table in an empty slot (`TablePut`) keeps it, and
changes no entry (`TreeInv.put`); an entry that is written changes for the
addresses of its page alone (`TreeInv.entry_setPtEntry`).
-/

namespace Xana

open Forest

/-- The table in a slot of a directory. -/
def Machine.kid (m : Machine) (d i : ℕ) : Option ℕ := pointer ((m.dirs d).virt i)

/-- The slots on the way to the page table of an address. -/
def slots (virt : ℕ) : List ℕ := [pml4Index virt, pdptIndex virt, pdIndex virt]

/-- The number of a page: bits 12 to 47 of its addresses. -/
def pageOf (virt : ℕ) : ℕ := virt / 0x1000 % 2 ^ 36

/-- The entry for an address, which is `0` where there is no page. -/
def Machine.entry (m : Machine) (root virt : ℕ) : ℕ :=
  match walk m.kid root (slots virt) with
  | none => 0
  | some pt => m.tabs pt (ptIndex virt)

/-- The size of a table that a path of `n` slots leads to. -/
def tableSize (n : ℕ) : ℕ := if n < 3 then pageDirectorySize else pageTableSize

/-- A table of `n` bytes at `t` is in use: it is a chunk of the heap, or it was there
before the heap. -/
def Held (m : Machine) (live : List Chunk) (t n : ℕ) : Prop :=
  ⟨t, n, true⟩ ∈ live ∨ t + n ≤ m.kheap

/-- A chunk of the heap that overlaps no other. -/
structure Fresh (m : Machine) (live : List Chunk) (u : Chunk) : Prop where
  pos : 0 < u.ptr
  le_ptr : m.kheap ≤ u.ptr
  size_pos : 0 < u.size
  apart : ∀ v ∈ live, u.Apart v

/-- **The invariant of page tables**, of those that the keys lead to. -/
structure TreeInv (m : Machine) (live : List Chunk) (key : ℕ → List ℕ → Prop) : Prop where
  unshared : Unshared m.kid key
  length_le : ∀ {r p}, key r p → p.length ≤ 3
  held : ∀ {r p t}, key r p → walk m.kid r p = some t → Held m live t (tableSize p.length)

/-- The new table `t` is put in the slot `i` of `d`. -/
structure TablePut (m m' : Machine) (d i t n : ℕ) : Prop where
  grafted : Grafted m.kid m'.kid d i t
  rest : m' = { m with dirs := m'.dirs, tabs := m'.tabs }
  dirs : ∀ a, a ≠ t → a ≠ d → m'.dirs a = m.dirs a
  entries : t ≠ d → ∀ j, j ≠ i → (m'.dirs d).entries j = (m.dirs d).entries j
  tabs : ∀ a, a ≠ t → m'.tabs a = m.tabs a
  newDir : n < 3 → t ≠ d → m'.dirs t = PageDirectory.zero
  newTab : n = 3 → ∀ j, m'.tabs t j = 0

/-- **The tables of some keys are as they were.** -/
def KeptTables (keep : ℕ → List ℕ → Prop) (m m' : Machine) : Prop :=
  ∀ r p t, keep r p → walk m.kid r p = some t →
    (p.length < 3 → m'.dirs t = m.dirs t) ∧ (p.length = 3 → m'.tabs t = m.tabs t)

section Indices

variable {v v' : ℕ}

theorem tableSize_pos (n : ℕ) : 0 < tableSize n := by
  rw [tableSize]
  split_ifs <;> decide

/-- **The four indices together are the number of the page.** -/
theorem pageOf_eq_iff : pageOf v = pageOf v' ↔ slots v = slots v' ∧ ptIndex v = ptIndex v' := by
  simp only [pageOf, slots, List.cons.injEq, and_true, pml4Index_eq, pdptIndex_eq, pdIndex_eq,
    ptIndex_eq]
  constructor
  · intro h
    omega
  · intro h
    omega

end Indices

theorem Machine.virt_of_kid {m : Machine} {d i t : ℕ} (h : m.kid d i = some t) :
    (m.dirs d).virt i = t ∧ t ≠ 0 := by
  obtain ⟨rfl, h0⟩ := pointer_eq_some.mp h
  exact ⟨rfl, h0⟩

theorem Machine.virt_of_kid_none {m : Machine} {d i : ℕ} (h : m.kid d i = none) :
    (m.dirs d).virt i = 0 := pointer_eq_none.mp h

/-! ### The setters -/

section Setters

variable {m : Machine} {d i a j v p : ℕ} {f : Bool}

theorem Machine.kid_setVirt :
    (m.setVirt d i v).kid a j = if a = d ∧ j = i then pointer v else m.kid a j := by
  simp only [Machine.kid, Machine.setVirt]
  by_cases ha : a = d
  · subst ha
    rw [Function.update_self]
    by_cases hj : j = i
    · subst hj
      simp
    · simp [hj]
  · simp [ha]

theorem Machine.kid_congr {m m' : Machine} (h : ∀ a, (m'.dirs a).virt = (m.dirs a).virt) :
    m'.kid = m.kid := by
  funext a j
  simp only [Machine.kid, h]

@[simp] theorem Machine.kid_setEntry : (m.setEntry d i v).kid = m.kid := by
  refine Machine.kid_congr fun a => ?_
  simp only [Machine.setEntry]
  by_cases ha : a = d
  · subst ha
    rw [Function.update_self]
  · rw [Function.update_of_ne ha]

@[simp] theorem Machine.kid_setFull : (m.setFull d i f).kid = m.kid := by
  refine Machine.kid_congr fun a => ?_
  simp only [Machine.setFull]
  by_cases ha : a = d
  · subst ha
    rw [Function.update_self]
  · rw [Function.update_of_ne ha]

@[simp] theorem Machine.kid_setPhysAddr : (m.setPhysAddr d v).kid = m.kid := by
  refine Machine.kid_congr fun a => ?_
  simp only [Machine.setPhysAddr]
  by_cases ha : a = d
  · subst ha
    rw [Function.update_self]
  · rw [Function.update_of_ne ha]

@[simp] theorem Machine.kid_setPtEntry : (m.setPtEntry d i v).kid = m.kid := rfl

@[simp] theorem Machine.kid_markFrame : (m.markFrame v f).kid = m.kid := rfl

@[simp] theorem Machine.kid_clearTab : (m.clearTab p).kid = m.kid := rfl

theorem Machine.kid_clearDir : (m.clearDir p).kid a j = if a = p then none else m.kid a j := by
  simp only [Machine.kid, Machine.clearDir]
  by_cases ha : a = p
  · subst ha
    rw [Function.update_self, if_pos rfl]
    rfl
  · rw [Function.update_of_ne ha, if_neg ha]

end Setters

/-! ### Walks and entries -/

section Trees

variable {m m' : Machine} {live live' : List Chunk} {key : ℕ → List ℕ → Prop}
variable {r r' d i t n v v' e : ℕ} {p q : List ℕ}

theorem entry_of_walk (h : walk m.kid r (slots v) = some t) :
    m.entry r v = m.tabs t (ptIndex v) := by
  rw [Machine.entry, h]

theorem entry_of_none (h : walk m.kid r (slots v) = none) : m.entry r v = 0 := by
  rw [Machine.entry, h]

/-- Where there is an entry, there is a page table. -/
theorem exists_walk_of_entry (h : m.entry r v ≠ 0) :
    ∃ t, walk m.kid r (slots v) = some t ∧ m.tabs t (ptIndex v) = m.entry r v := by
  cases hw : walk m.kid r (slots v) with
  | none => exact absurd (entry_of_none hw) h
  | some t => exact ⟨t, rfl, (entry_of_walk hw).symm⟩

/-- The tables on the way to an address. -/
theorem walk_slots :
    walk m.kid r (slots v) = some t ↔ ∃ pdpt pd, m.kid r (pml4Index v) = some pdpt ∧
    m.kid pdpt (pdptIndex v) = some pd ∧ m.kid pd (pdIndex v) = some t := by
  simp only [slots, walk_cons, walk_nil, Option.bind_eq_some_iff, Option.some.injEq,
    exists_eq_right]
  constructor
  · rintro ⟨pdpt, h₁, pd, h₂, h₃⟩
    exact ⟨pdpt, pd, h₁, h₂, h₃⟩
  · rintro ⟨pdpt, pd, h₁, h₂, h₃⟩
    exact ⟨pdpt, h₁, pd, h₂, h₃⟩

/-- Addresses of one page have one entry. -/
theorem entry_congr (h : pageOf v = pageOf v') : m.entry r v = m.entry r v' := by
  obtain ⟨hslots, hpt⟩ := pageOf_eq_iff.mp h
  rw [Machine.entry, Machine.entry, hslots, hpt]

/-- A fresh chunk is not a table in use. -/
theorem Fresh.ne_of_held {u : Chunk} (hf : Fresh m live u) (ht : Held m live t n) (hn : 0 < n) :
    t ≠ u.ptr := by
  rintro rfl
  obtain ⟨-, hle, hsize, hapart⟩ := hf
  rcases ht with ht | ht
  · rcases hapart _ ht with h | h <;> simp only at h <;> omega
  · omega

namespace KeptTables

variable {keep keep' : ℕ → List ℕ → Prop} {m'' : Machine}

theorem refl (m : Machine) : KeptTables keep m m := fun _ _ _ _ _ => ⟨fun _ => rfl, fun _ => rfl⟩

/-- Fewer keys. -/
theorem mono (h : KeptTables keep m m') (hkeep : ∀ r p, keep' r p → keep r p) :
    KeptTables keep' m m' := fun r p t hp hw => h r p t (hkeep _ _ hp) hw

/-- A slot of a table that is kept. -/
theorem walk_concat (h : KeptTables keep m m') (hp : keep r p) (hlen : p.length < 3)
    (hwalk : walk m'.kid r p = walk m.kid r p) :
    walk m'.kid r (p ++ [i]) = walk m.kid r (p ++ [i]) := by
  rw [Forest.walk_concat, Forest.walk_concat, hwalk]
  cases hw : walk m.kid r p with
  | none => rfl
  | some d =>
    show m'.kid d i = m.kid d i
    rw [Machine.kid, Machine.kid, (h r p d hp hw).1 hlen]

/-- **Tables that are kept are found where they were.** -/
theorem walk_eq (h : KeptTables keep m m') (hinit : ∀ {r p i}, keep r (p ++ [i]) → keep r p)
    (hlen : ∀ {r p}, keep r p → p.length ≤ 3) (hp : keep r p) :
    walk m'.kid r p = walk m.kid r p := by
  induction p using List.reverseRecOn with
  | nil => rfl
  | append_singleton p i ih =>
    have hle := hlen hp
    rw [List.length_append, List.length_singleton] at hle
    exact h.walk_concat (hinit hp) (by omega) (ih (hinit hp))

theorem trans (h : KeptTables keep m m') (hinit : ∀ {r p i}, keep r (p ++ [i]) → keep r p)
    (hlen : ∀ {r p}, keep r p → p.length ≤ 3) (h' : KeptTables keep m' m'') :
    KeptTables keep m m'' := by
  intro r p t hp hw
  obtain ⟨hd, ht⟩ := h r p t hp hw
  rw [← h.walk_eq hinit hlen hp] at hw
  obtain ⟨hd', ht'⟩ := h' r p t hp hw
  exact ⟨fun hlt => (hd' hlt).trans (hd hlt), fun heq => (ht' heq).trans (ht heq)⟩

/-- The entries of page tables that are kept. -/
theorem entry_eq (h : KeptTables keep m m') (hv : keep r (slots v))
    (hwalk : walk m'.kid r (slots v) = walk m.kid r (slots v)) : m'.entry r v = m.entry r v := by
  cases hw : walk m.kid r (slots v) with
  | none => rw [entry_of_none hw, entry_of_none (hwalk.trans hw)]
  | some t => rw [entry_of_walk hw, entry_of_walk (hwalk.trans hw), (h r _ t hv hw).2 rfl]

end KeptTables

namespace TreeInv

theorem mono (h : TreeInv m live key) (hlive : live ⊆ live') : TreeInv m live' key where
  unshared := h.unshared
  length_le := h.length_le
  held hp hw := (h.held hp hw).imp (fun hu => hlive hu) id

/-- Two keys to one table are one key. -/
theorem inj (h : TreeInv m live key) (hp : key r p) (hq : key r' q) (hw : walk m.kid r p = some t)
    (hw' : walk m.kid r' q = some t) : r = r' ∧ p = q := h.unshared.inj hp hq hw hw'

/-- The tables and the heap are as they were. -/
theorem congr (h : TreeInv m live key) (hwalk : ∀ r p, key r p → walk m'.kid r p = walk m.kid r p)
    (hkheap : m'.kheap = m.kheap) : TreeInv m' live key where
  unshared := h.unshared.congr hwalk
  length_le := h.length_le
  held := by
    intro r p t hp hw
    rw [hwalk r p hp] at hw
    exact (h.held hp hw).imp id fun hle => by rwa [hkheap]

theorem ne_of_fresh {u : Chunk} (h : TreeInv m live key) (hf : Fresh m live u) :
    ∀ r p, key r p → walk m.kid r p ≠ some u.ptr :=
  fun _ _ hp hw => hf.ne_of_held (h.held hp hw) (tableSize_pos _) rfl

section Put

variable (h : TreeInv m live key) (hne : ∀ r p, key r p → walk m.kid r p ≠ some t)
  (hp : key r p) (hd : walk m.kid r p = some d) (hnone : m.kid d i = none)
  (hput : TablePut m m' d i t (p.length + 1))
include h hne hp hd hnone hput

/-- Which tables the keys lead to. -/
theorem walk_put (hq : key r' q) :
    walk m'.kid r' q = if r' = r ∧ q = p ++ [i] then some t else walk m.kid r' q := by
  have htd : t ≠ d := fun heq => hne r p hp (heq ▸ hd)
  refine h.unshared.walk_graft hput.grafted hp hd hnone hne ?_ hq
  intro j hj
  have hlen := h.length_le hj
  simp only [List.length_append, List.length_singleton] at hlen
  rw [Machine.kid, hput.newDir (by omega) htd]
  rfl

/-- **A new table keeps the invariant.** -/
theorem put (hheld : Held m live' t (tableSize (p.length + 1))) (hsub : live ⊆ live') :
    TreeInv m' live' key where
  unshared := by
    have htd : t ≠ d := fun heq => hne r p hp (heq ▸ hd)
    refine h.unshared.graft hput.grafted hp hd hnone hne ?_
    intro j hj
    have hlen := h.length_le hj
    simp only [List.length_append, List.length_singleton] at hlen
    rw [Machine.kid, hput.newDir (by omega) htd]
    rfl
  length_le := h.length_le
  held := by
    intro r' q a hq hw
    rw [h.walk_put hne hp hd hnone hput hq] at hw
    have hkheap : m'.kheap = m.kheap := by rw [hput.rest]
    rw [Held, hkheap]
    split_ifs at hw with hc
    · obtain ⟨rfl, rfl⟩ := hc
      obtain rfl := Option.some.inj hw
      rw [List.length_append]
      exact hheld
    · exact (h.held hq hw).imp (fun hu => hsub hu) id

/-- **A new table changes no entry.** -/
theorem entry_put (hv : key r' (slots v)) : m'.entry r' v = m.entry r' v := by
  have hw := h.walk_put hne hp hd hnone hput hv
  by_cases hc : r' = r ∧ slots v = p ++ [i]
  · obtain ⟨rfl, hslots⟩ := hc
    rw [if_pos ⟨rfl, hslots⟩] at hw
    have hlen : p.length + 1 = 3 := by
      have hlen := congrArg List.length hslots
      simpa [slots] using hlen.symm
    have hold : walk m.kid r' (slots v) = none := by
      rw [hslots, walk_concat, hd]
      exact hnone
    rw [entry_of_walk hw, entry_of_none hold, hput.newTab hlen]
  · rw [if_neg hc] at hw
    cases hold : walk m.kid r' (slots v) with
    | none => rw [entry_of_none hold, entry_of_none (hw.trans hold)]
    | some a =>
      rw [entry_of_walk hold, entry_of_walk (hw.trans hold), hput.tabs a]
      rintro rfl
      exact hne r' _ hv hold

end Put

/-- **An entry that is written changes for its page alone.** -/
theorem entry_setPtEntry (h : TreeInv m live key) (hv : key r (slots v))
    (hw : walk m.kid r (slots v) = some t) (hv' : key r' (slots v')) :
    (m.setPtEntry t (ptIndex v) e).entry r' v' =
      if r' = r ∧ pageOf v' = pageOf v then e else m.entry r' v' := by
  cases hw' : walk m.kid r' (slots v') with
  | none =>
    have hw'' : walk (m.setPtEntry t (ptIndex v) e).kid r' (slots v') = none := hw'
    rw [entry_of_none hw'', if_neg, entry_of_none hw']
    rintro ⟨rfl, hpage⟩
    rw [(pageOf_eq_iff.mp hpage).1, hw] at hw'
    exact absurd hw' (by simp)
  | some a =>
    have hw'' : walk (m.setPtEntry t (ptIndex v) e).kid r' (slots v') = some a := hw'
    rw [entry_of_walk hw'', entry_of_walk hw']
    show Function.update m.tabs t (Function.update (m.tabs t) (ptIndex v) e) a (ptIndex v') = _
    by_cases hat : a = t
    · subst hat
      obtain ⟨rfl, hslots⟩ := h.inj hv' hv hw' hw
      rw [Function.update_self]
      by_cases hpt : ptIndex v' = ptIndex v
      · rw [hpt, Function.update_self, if_pos ⟨rfl, pageOf_eq_iff.mpr ⟨hslots, hpt⟩⟩]
      · rw [Function.update_of_ne hpt, if_neg fun hc => hpt (pageOf_eq_iff.mp hc.2).2]
    · rw [Function.update_of_ne hat, if_neg]
      rintro ⟨rfl, hpage⟩
      rw [(pageOf_eq_iff.mp hpage).1, hw] at hw'
      exact hat (Option.some.inj hw').symm

end TreeInv

end Trees

end Xana
