import Xana.Memory.Clone

/-!
# Releasing an address space

`free_page_directory` visits the tables of an address space from below: it clears the
bits of the frames in a page table, and gives the table back, then the directory it is
in, and so on. `Released` says what is gone when the table behind a path has been given
back: the bits of the frames behind that path, and no others.

Of `kfree_a` only this is used: it frees the block it is given, and no table changes.
-/

namespace Xana

open Forest

/-- **`kfree_a` frees the block it is given.** -/
def Frees (kfreeA : Machine → ℕ → Option Machine) : Prop :=
  ∀ (m : Machine) (p size : ℕ), ⟨p, size, true⟩ ∈ m.live →
    ∃ mem, kfreeA m p = some { m with mem := mem, live := without m.live p }

/-- The frame `f` is that of a user page of `c`, behind the path `q`. -/
def FrameBehind (m : Machine) (c : ℕ) (q : List ℕ) (f : ℕ) : Prop :=
  ∃ v, UserAddr v ∧ q <+: pathOf v ∧ m.entry c v ≠ 0 ∧ frameAddr (m.entry c v) / 0x1000 = f / 0x1000

/-- The table at `t` is one of `c`, behind the path `q`. -/
def TableBehind (m : Machine) (c : ℕ) (q : List ℕ) (t : ℕ) : Prop :=
  ∃ p, UserPath p ∧ q <+: p ∧ walk m.kid c p = some t

/-- **Some frames and tables have been given back** between `x` and `x'`. -/
structure Released (frame table : ℕ → Prop) (x x' : Machine) : Prop where
  rest : x' = { x with mem := x'.mem, live := x'.live, bitmap := x'.bitmap }
  bitmap : x.bitmap.isSome → x'.bitmap.isSome
  bits : ∀ f, x.bitmap.isSome → (x'.frameUsed f = true ↔ x.frameUsed f = true ∧ ¬frame f)
  live : ∀ u, u ∈ x'.live ↔ u ∈ x.live ∧ ¬table u.ptr

section Released

variable {m x y x' : Machine} {c t i : ℕ} {q : List ℕ}
variable {frame frame' table table' : ℕ → Prop}

theorem Released.refl (x : Machine) : Released (fun _ => False) (fun _ => False) x x where
  rest := rfl
  bitmap := id
  bits := fun _ _ => by simp
  live := fun _ => by simp

theorem Released.congr (h : Released frame table x x') (hf : ∀ f, frame' f ↔ frame f)
    (ht : ∀ t, table' t ↔ table t) : Released frame' table' x x' where
  rest := h.rest
  bitmap := h.bitmap
  bits := fun f hb => by rw [h.bits f hb, hf]
  live := fun u => by rw [h.live, ht]

theorem Released.trans (h : Released frame table x y) (h' : Released frame' table' y x') :
    Released (fun f => frame f ∨ frame' f) (fun t => table t ∨ table' t) x x' where
  rest := by
    rw [h'.rest, h.rest]
  bitmap := fun hb => h'.bitmap (h.bitmap hb)
  bits := by
    intro f hb
    rw [h'.bits f (h.bitmap hb), h.bits f hb, and_assoc, not_or]
  live := fun u => by rw [h'.live, h.live, and_assoc, not_or]

/-- What entries and tables are is not changed. -/
theorem Released.same (h : Released frame table x x') :
    x'.dirs = x.dirs ∧ x'.tabs = x.tabs ∧ x'.kid = x.kid ∧ ∀ r v, x'.entry r v = x.entry r v := by
  have hd : x'.dirs = x.dirs := by rw [h.rest]
  have ht : x'.tabs = x.tabs := by rw [h.rest]
  have hk : x'.kid = x.kid := by
    funext a j
    rw [Machine.kid, Machine.kid, hd]
  exact ⟨hd, ht, hk, fun r v => by rw [Machine.entry, Machine.entry, hk, ht]⟩

/-- One block is freed. -/
theorem Frees.released {kfreeA : Machine → ℕ → Option Machine} (h : Frees kfreeA) {size : ℕ}
    (hlive : ⟨t, size, true⟩ ∈ x.live) :
    ∃ x', kfreeA x t = some x' ∧ Released (fun _ => False) (fun a => a = t) x x' := by
  obtain ⟨mem, hmem⟩ := h x t size hlive
  refine ⟨_, hmem, rfl, id, fun f _ => by simp [Machine.frameUsed], fun u => ?_⟩
  simp [without]

end Released

section Release

variable {kfreeA : Machine → ℕ → Option Machine} {roots : List ℕ} {x x' y : Machine} {c t i n k : ℕ}
variable {q : List ℕ} {free : ℕ → Machine → Option Machine}

/-- The tables of an address space, each of which is a chunk. -/
structure OwnTables (c : ℕ) (roots : List ℕ) (x : Machine) : Prop where
  tree : TreeInv x x.live (SpaceKey x.kernelPml4 (c :: roots))
  live : ∀ {q t}, UserPath q → walk x.kid c q = some t → ⟨t, tableSize q.length, true⟩ ∈ x.live

/-- **A function gives back the table** it is called with, and all behind it. `x` is the
machine at the beginning of the whole call, and `y` that at the beginning of this one. -/
def ReleasesTable (x : Machine) (c k : ℕ) (free : ℕ → Machine → Option Machine) : Prop :=
  ∀ q t y frame table, q.length = k → UserPath q → walk x.kid c q = some t →
    Released frame table x y → (∀ a, TableBehind x c q a → ¬table a) →
    ∃ y', free t y = some y' ∧ Released (FrameBehind x c q) (TableBehind x c q) y y'

/-- Behind a path there is what is behind one of its slots, and the table itself. -/
theorem tableBehind_iff (hq : UserPath q) (hw : walk x.kid c q = some t) {a : ℕ} :
    TableBehind x c q a ↔ a = t ∨ ∃ i, TableBehind x c (q ++ [i]) a := by
  constructor
  · rintro ⟨p, hp, ⟨s, rfl⟩, hwp⟩
    cases s with
    | nil =>
      rw [List.append_nil, hw] at hwp
      exact Or.inl (Option.some.inj hwp).symm
    | cons i s => exact Or.inr ⟨i, _, hp, ⟨s, by simp⟩, hwp⟩
  · rintro (rfl | ⟨i, p, hp, hpre, hwp⟩)
    · exact ⟨q, hq, List.prefix_refl _, hw⟩
    · exact ⟨p, hp, (List.prefix_append _ _).trans hpre, hwp⟩

theorem frameBehind_iff (hlen : q.length ≤ 3) {f : ℕ} :
    FrameBehind x c q f ↔ ∃ i, FrameBehind x c (q ++ [i]) f := by
  constructor
  · rintro ⟨v, hv, hpre, hne, hf⟩
    obtain ⟨i, hi, -⟩ := exists_next_slot hpre hlen
    exact ⟨i, v, hv, hi, hne, hf⟩
  · rintro ⟨i, v, hv, hpre, hne, hf⟩
    exact ⟨v, hv, (List.prefix_append _ _).trans hpre, hne, hf⟩

/-- The slots of a table behind `q` that the loops visit. -/
def slotCount (k : ℕ) : ℕ := if k = 0 then 511 else 512

theorem exists_slot_lt (hlen : q.length ≤ 3) {f : ℕ} (h : FrameBehind x c q f) :
    ∃ i < slotCount q.length, FrameBehind x c (q ++ [i]) f := by
  obtain ⟨v, hv, hpre, hne, hf⟩ := h
  obtain ⟨i, hi, hlt, hroot⟩ := exists_next_slot hpre hlen
  refine ⟨i, ?_, v, hv, hi, hne, hf⟩
  rw [slotCount]
  split_ifs with h0
  · exact hroot hv (List.length_eq_zero_iff.mp h0)
  · exact hlt

/-- A table behind a slot is behind one that the loops visit. -/
theorem lt_slotCount {a : ℕ} (h : TableBehind x c (q ++ [i]) a) : i < slotCount q.length := by
  obtain ⟨p, hp, ⟨s, rfl⟩, -⟩ := h
  rw [slotCount]
  split_ifs with h0
  · obtain rfl := List.length_eq_zero_iff.mp h0
    exact hp.head i rfl
  · exact hp.lt i (by simp)

namespace OwnTables

/-- What is behind two slots, or behind a slot and the table it is in, is apart. -/
theorem eq_of_behind (h : OwnTables c roots x) {p p' : List ℕ} {a : ℕ} (hp : UserPath p)
    (hp' : UserPath p') (hw : walk x.kid c p = some a) (hw' : walk x.kid c p' = some a) : p = p' :=
  (h.tree.inj (hp.userHalf (Or.inr List.mem_cons_self)).1
    (hp'.userHalf (Or.inr List.mem_cons_self)).1 hw hw').2

/-- **A loop over the slots of a table, and the table itself.** -/
theorem releasesTable (h : OwnTables c roots x) (hfree : Frees kfreeA) (hk : k ≤ 3)
    (body : ℕ → ℕ → Machine → Option Machine)
    (hbody : ∀ q t i y frame table, q.length = k → UserPath q → walk x.kid c q = some t →
      i < slotCount k → Released frame table x y → (∀ a, TableBehind x c (q ++ [i]) a → ¬table a) →
      ∃ y', body t i y = some y' ∧
        Released (FrameBehind x c (q ++ [i])) (TableBehind x c (q ++ [i])) y y') :
    ReleasesTable x c k fun t y => (forSlots (body t) (slotCount k) y).bind (kfreeA · t) := by
  intro q t y frame table hlen hq hw hrel hnot
  -- the slots below `n` have been gone through
  have hloop : ∀ n ≤ slotCount k, ∃ y', forSlots (body t) n y = some y' ∧
      Released (fun f => ∃ j < n, FrameBehind x c (q ++ [j]) f)
        (fun a => ∃ j < n, TableBehind x c (q ++ [j]) a) y y' := by
    intro n hn
    induction n with
    | zero => exact ⟨y, rfl, (Released.refl y).congr (fun f => by simp) fun a => by simp⟩
    | succ n ih =>
      obtain ⟨z, hz, hrelz⟩ := ih (by omega)
      have hapart : ∀ a, TableBehind x c (q ++ [n]) a →
          ¬(table a ∨ ∃ j < n, TableBehind x c (q ++ [j]) a) := by
        rintro a ha (hta | ⟨j, hj, p', hp', hpre', hw'⟩)
        · exact hnot a ((tableBehind_iff hq hw).mpr (Or.inr ⟨n, ha⟩)) hta
        · obtain ⟨p, hp, hpre, hwp⟩ := ha
          obtain rfl := h.eq_of_behind hp hp' hwp hw'
          have heq := next_slot_unique hpre hpre'
          omega
      obtain ⟨y', hy', hrel'⟩ := hbody q t n z _ _ hlen hq hw (by omega) (hrel.trans hrelz) hapart
      refine ⟨y', ?_, (hrelz.trans hrel').congr (fun f => ?_) fun a => ?_⟩
      · rw [forSlots, hz]
        exact hy'
      · simp only [Nat.lt_succ_iff_lt_or_eq, or_and_right, exists_or, exists_eq_left]
      · simp only [Nat.lt_succ_iff_lt_or_eq, or_and_right, exists_or, exists_eq_left]
  obtain ⟨z, hz, hrelz⟩ := hloop _ le_rfl
  have hself : ¬(table t ∨ ∃ j < slotCount k, TableBehind x c (q ++ [j]) t) := by
    rintro (hta | ⟨j, -, p, hp, hpre, hwp⟩)
    · exact hnot t ((tableBehind_iff hq hw).mpr (Or.inl rfl)) hta
    · obtain rfl := h.eq_of_behind hq hp hw hwp
      have hle := hpre.length_le
      rw [List.length_append, List.length_singleton] at hle
      omega
  have hlive : ⟨t, tableSize q.length, true⟩ ∈ z.live :=
    ((hrel.trans hrelz).live _).mpr ⟨h.live hq hw, hself⟩
  obtain ⟨y', hy', hrel'⟩ := hfree.released hlive
  refine ⟨y', ?_, (hrelz.trans hrel').congr (fun f => ?_) fun a => ?_⟩
  · show (forSlots (body t) (slotCount k) y).bind (fun z => kfreeA z t) = some y'
    rw [hz]
    exact hy'
  · rw [or_false]
    constructor
    · intro hf
      rw [← hlen]
      exact exists_slot_lt (by omega) hf
    · rintro ⟨j, -, hj⟩
      exact (frameBehind_iff (by omega)).mpr ⟨j, hj⟩
  · rw [tableBehind_iff hq hw, or_comm]
    refine or_congr ⟨?_, ?_⟩ Iff.rfl
    · rintro ⟨j, hj⟩
      refine ⟨j, ?_, hj⟩
      rw [← hlen]
      exact lt_slotCount hj
    · rintro ⟨j, -, hj⟩
      exact ⟨j, hj⟩

/-- The body of the outer loops. -/
theorem releasesSlot (hlt : k < 3) (hrec : ReleasesTable x c (k + 1) free) {y : Machine}
    {frame table : ℕ → Prop} (hlen : q.length = k) (hq : UserPath q) (hw : walk x.kid c q = some t)
    (hi : i < slotCount k) (hrel : Released frame table x y)
    (hnot : ∀ a, TableBehind x c (q ++ [i]) a → ¬table a) :
    ∃ y', freeSlot free t i y = some y' ∧
      Released (FrameBehind x c (q ++ [i])) (TableBehind x c (q ++ [i])) y y' := by
  obtain ⟨hdirs, -, -, -⟩ := hrel.same
  have hwi : walk x.kid c (q ++ [i]) = x.kid t i := by
    rw [walk_concat, hw]
    rfl
  rw [freeSlot, hdirs]
  split_ifs with h0
  · -- there is nothing behind the slot
    have hnone : walk x.kid c (q ++ [i]) = none := hwi.trans (pointer_eq_none.mpr h0)
    refine ⟨y, rfl, (Released.refl y).congr (fun f => iff_false_intro ?_) fun a =>
      iff_false_intro ?_⟩
    · rintro ⟨v, hv, hpre, hne, -⟩
      exact hne (entry_of_no_table (le_slots_of_le_pathOf hpre (by simp; omega)) hnone)
    · rintro ⟨p, -, ⟨s, rfl⟩, hwp⟩
      rw [walk_append, hnone] at hwp
      exact absurd hwp (by simp)
  · have hpath : UserPath (q ++ [i]) := by
      rw [slotCount] at hi
      refine hq.concat (by omega) (by split_ifs at hi <;> omega) ?_
      rintro rfl
      have hk : k = 0 := hlen.symm
      rwa [if_pos hk] at hi
    exact hrec (q ++ [i]) _ y frame table (by simp; omega) hpath
      (hwi.trans (pointer_of_pos (Nat.pos_of_ne_zero h0))) hrel hnot

/-- The body of the innermost loop. -/
theorem releasesEntry {y : Machine} {frame table : ℕ → Prop} (hlen : q.length = 3)
    (hq : UserPath q) (hw : walk x.kid c q = some t) (hi : i < 512)
    (hrel : Released frame table x y) :
    ∃ y', freeEntry t i y = some y' ∧
      Released (FrameBehind x c (q ++ [i])) (TableBehind x c (q ++ [i])) y y' := by
  obtain ⟨-, htabs, -, -⟩ := hrel.same
  obtain ⟨v, hv, hslots, hpt⟩ := exists_userAddr hq hlen hi
  have hentry : x.entry c v = x.tabs t i := by rw [entry_of_walk (hslots.symm ▸ hw), hpt]
  have hframe : ∀ f, FrameBehind x c (q ++ [i]) f ↔
      x.tabs t i ≠ 0 ∧ frameAddr (x.tabs t i) / 0x1000 = f / 0x1000 := by
    intro f
    rw [← hentry]
    constructor
    · rintro ⟨v', hv', hpre, hne, hf⟩
      have heq := hpre.eq_of_length (by simp [pathOf, slots, hlen])
      rw [pathOf] at heq
      obtain ⟨h₁, h₂⟩ := List.append_inj' heq rfl
      have hpage : pageOf v' = pageOf v :=
        pageOf_eq_iff.mpr ⟨h₁.symm.trans hslots.symm, by rw [hpt]; simpa using h₂.symm⟩
      rw [entry_congr hpage] at hne hf
      exact ⟨hne, hf⟩
    · rintro ⟨hne, hf⟩
      have hpath : q ++ [i] = pathOf v := by rw [pathOf, hslots, hpt]
      exact ⟨v, hv, hpath ▸ List.prefix_refl _, hne, hf⟩
  have htable : ∀ a, ¬TableBehind x c (q ++ [i]) a := by
    rintro a ⟨p, hp, hpre, -⟩
    have hle := hpre.length_le.trans hp.length_le
    rw [List.length_append, hlen, List.length_singleton] at hle
    omega
  rw [freeEntry, htabs]
  split_ifs with h0
  · refine ⟨y, rfl, (Released.refl y).congr (fun f => ?_) fun a => iff_false_intro (htable a)⟩
    rw [hframe]
    simp [h0]
  · refine ⟨_, rfl, rfl, fun hb => isSome_bitmap_markFrame.mpr hb, fun f hb => ?_, fun u => ?_⟩
    · rw [frameUsed_markFrame hb, hframe]
      by_cases hf : f / 0x1000 = frameAddr (x.tabs t i) / 0x1000
      · simp [hf, h0]
      · have hf' : ¬frameAddr (x.tabs t i) / 0x1000 = f / 0x1000 := fun heq => hf heq.symm
        simp [hf, hf']
    · show u ∈ y.live ↔ _
      simp [htable]

/-- **`free_page_directory`** gives back what is behind its root, and the root. -/
theorem freePageDirectory (h : OwnTables c roots x) (hfree : Frees kfreeA) :
    ∃ x', Xana.freePageDirectory kfreeA c x = some x' ∧
      Released (FrameBehind x c []) (TableBehind x c []) x x' := by
  have htab : ReleasesTable x c 3 (freeTab kfreeA) :=
    h.releasesTable hfree le_rfl freeEntry fun q t i y frame table hlen hq hw hi hrel _ =>
      releasesEntry hlen hq hw hi hrel
  have hpd : ReleasesTable x c 2 (freePd kfreeA) :=
    h.releasesTable hfree (by omega) (freeSlot (freeTab kfreeA))
      fun q t i y frame table hlen hq hw hi hrel hnot =>
        releasesSlot (by omega) htab hlen hq hw hi hrel hnot
  have hpdpt : ReleasesTable x c 1 (freePdpt kfreeA) :=
    h.releasesTable hfree (by omega) (freeSlot (freePd kfreeA))
      fun q t i y frame table hlen hq hw hi hrel hnot =>
        releasesSlot (by omega) hpd hlen hq hw hi hrel hnot
  have hroot : ReleasesTable x c 0 fun d y => Xana.freePageDirectory kfreeA d y :=
    h.releasesTable hfree (by omega) (freeSlot (freePdpt kfreeA))
      fun q t i y frame table hlen hq hw hi hrel hnot =>
        releasesSlot (by omega) hpdpt hlen hq hw hi hrel hnot
  have hnil : UserPath [] := ⟨by simp, by simp, by simp⟩
  exact hroot [] c x _ _ rfl hnil rfl (Released.refl x) fun _ _ => id

end OwnTables

end Release

end Xana
