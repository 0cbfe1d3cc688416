import Xana.Bootstrap.Paging

/-!
# What the loader's tables map

`Mappings` says what tables are for: some blocks of 2 MiB lead to a frame of that size, and
some pages of 4 KiB to a page frame. A block that has a page of its own is mapped by its
pages alone, whatever it led to before.

`Shows b root w` says that the tables of `root` are those of `w`. Then the processor
translates as `w` does (`Shows.translate_eq`), `map_page` enters one page, where there is
none (`Shows.mapPage`), and `map_page_2mb` one block (`Shows.mapPage2mb`).
-/

namespace Xana

namespace Bootstrap

open Forest

/-- The number of the 2 MiB block of an address: bits 21 to 47. -/
def blockOf (virt : ℕ) : ℕ := virt / 2 ^ 21 % 2 ^ 27

/-- **Page tables by what they map**: pages, and blocks, to the numbers of frames of their
size. -/
structure Mappings where
  pages : ℕ → Option ℕ
  large : ℕ → Option ℕ

namespace Mappings

/-- A block has a page of its own. -/
def Split (w : Mappings) (k : ℕ) : Prop := ∃ q, q / 512 = k ∧ w.pages q ≠ none

open Classical in
/-- Where an address is. -/
noncomputable def translate (w : Mappings) (virt : ℕ) : Option ℕ :=
  if w.Split (blockOf virt) then (w.pages (pageOf virt)).map fun f => f * 2 ^ 12 + virt % 2 ^ 12
  else (w.large (blockOf virt)).map fun f => f * 2 ^ 21 + virt % 2 ^ 21

/-- A page is entered, unless there is one. -/
def enterPage (w : Mappings) (q f : ℕ) : Mappings :=
  { w with pages := Function.update w.pages q (some ((w.pages q).getD f)) }

/-- A block is entered. -/
def enterLarge (w : Mappings) (k f : ℕ) : Mappings :=
  { w with large := Function.update w.large k (some f) }

end Mappings

/-! ### The tables of an address -/

section Tables

variable (b : State) (root virt : ℕ)

/-- The page table of an address. -/
def pageTable : Option ℕ := walk b.kid root (slots virt)

/-- The entry for an address in its page directory, which is `0` where there is none. -/
def blockEntry : ℕ :=
  (walk b.kid root [pml4Index virt, pdptIndex virt]).elim 0 fun d =>
    (b.dirs d).entries (pdIndex virt)

end Tables

/-- The entry for a frame of `2 ^ n` bytes. -/
def entryOf (n flags : ℕ) (frame : Option ℕ) : ℕ := frame.elim 0 fun f => f * 2 ^ n ||| flags

/-- **The tables of `root` are those of `w`.** -/
structure Shows (b : State) (root : ℕ) (w : Mappings) : Prop where
  linked : Linked b root
  split : ∀ v, pageTable b root v ≠ none ↔ w.Split (blockOf v)
  page : ∀ {v t}, pageTable b root v = some t →
    b.tabs t (ptIndex v) = entryOf 12 3 (w.pages (pageOf v))
  large : ∀ {v}, pageTable b root v = none →
    blockEntry b root v = entryOf 21 0x83 (w.large (blockOf v))

section Indices

variable {v v' : ℕ}

theorem blockOf_eq : blockOf v = pageOf v / 512 := by
  rw [blockOf, pageOf]
  omega

/-- **Three indices together are the number of the block.** -/
theorem slots_eq_iff : slots v = slots v' ↔ blockOf v = blockOf v' := by
  simp only [blockOf, slots, List.cons.injEq, and_true, pml4Index_eq, pdptIndex_eq, pdIndex_eq]
  constructor
  · intro h
    omega
  · intro h
    omega

theorem slots_ne_of_length {p : List ℕ} (h : p.length ≠ 3) : slots v ≠ p := by
  rintro rfl
  exact h rfl

end Indices

section Entries

variable {a f n flags : ℕ}

theorem addrBits_or (hflags : flags < 2 ^ n) : addrBits n (f * 2 ^ n ||| flags) = f * 2 ^ n := by
  have hor : f * 2 ^ n ||| flags = 2 ^ n * f + flags := by
    rw [Nat.mul_comm, Nat.two_pow_add_eq_or_of_lt hflags]
  have hdiv : (2 ^ n * f + flags) / 2 ^ n = f := by
    rw [Nat.mul_add_div (Nat.two_pow_pos n), Nat.div_eq_of_lt hflags, Nat.add_zero]
  rw [addrBits, hor, hdiv]

theorem addrBits_table (ha : a % 0x1000 = 0) : addrBits 12 (a ||| 3) = a := by
  have hmul : a = a / 0x1000 * 2 ^ 12 := by omega
  rw [hmul]
  exact addrBits_or (by decide)

theorem present_or (hflags : present flags = true) : present (a ||| flags) = true := by
  rw [present, decide_eq_true_eq] at hflags ⊢
  rw [Nat.and_or_distrib_right]
  intro hzero
  exact hflags (Nat.or_eq_zero_iff.mp hzero).2

theorem isPage_or (ha : a % 0x1000 = 0) : isPage (a ||| flags) = isPage flags := by
  have hmod : (a &&& 1 <<< 7) % 2 ^ 12 = 0 := by
    rw [Nat.and_mod_two_pow, ha, Nat.zero_and]
  have hle : a &&& 1 <<< 7 ≤ 1 <<< 7 := Nat.and_le_right
  have hzero : a &&& 1 <<< 7 = 0 := by
    rw [Nat.mod_eq_of_lt (hle.trans_lt (by decide))] at hmod
    exact hmod
  rw [isPage, isPage, Nat.and_or_distrib_right, hzero, Nat.zero_or]

@[simp] theorem present_zero : present 0 = false := rfl

@[simp] theorem entryOf_none : entryOf n flags none = 0 := rfl

theorem entryOf_some : entryOf n flags (some f) = f * 2 ^ n ||| flags := rfl

theorem addrBits_entryOf (hflags : flags < 2 ^ n) :
    addrBits n (entryOf n flags (some f)) = f * 2 ^ n := addrBits_or hflags

theorem present_entryOf (hflags : present flags = true) :
    present (entryOf n flags (some f)) = true := present_or hflags

theorem isPage_entryOf (hn : 12 ≤ n) : isPage (entryOf n flags (some f)) = isPage flags := by
  refine isPage_or ?_
  obtain ⟨k, rfl⟩ := Nat.exists_eq_add_of_le hn
  rw [pow_add, ← mul_assoc, mul_right_comm]
  exact Nat.mul_mod_left _ _

theorem entryOf_eq_zero {o : Option ℕ} (hflags : flags ≠ 0) : entryOf n flags o = 0 ↔ o = none := by
  cases o with
  | none => simp
  | some f =>
    rw [entryOf_some, Nat.or_eq_zero_iff]
    simp [hflags]

end Entries

/-! ### The processor -/

section Translate

variable {b : State} {root v d t : ℕ} {w : Mappings}

/-- The processor finds a table where the loader does. -/
theorem Linked.entry_eq {p : List ℕ} {i : ℕ} (h : Linked b root) (hp : p.length < 3)
    (hd : walk b.kid root p = some d) (hi : b.kid d i = some t) :
    present ((b.dirs d).entries i) = true ∧ isPage ((b.dirs d).entries i) = false ∧
      addrBits 12 ((b.dirs d).entries i) = t := by
  have hlen : (p ++ [i]).length ≤ 3 := by
    rw [List.length_append, List.length_singleton]
    omega
  have ht : walk b.kid root (p ++ [i]) = some t := by rw [walk_concat, hd, Option.bind_some, hi]
  have haligned := h.aligned hlen ht
  rw [h.entry_of_some hp hd hi, present_or rfl, isPage_or haligned, addrBits_table haligned]
  exact ⟨rfl, rfl, rfl⟩

/-- A translation begins in the page directory, where there is one. -/
theorem Linked.translate_eq (h : Linked b root) :
    b.translate root v = (walk b.kid root [pml4Index v, pdptIndex v]).bind fun d =>
      b.translatePd d v := by
  rw [walk_cons]
  cases h₄ : b.kid root (pml4Index v) with
  | none =>
    have hentry := h.entry_of_none (p := []) (by decide) rfl h₄
    simp [State.translate, hentry]
  | some pdpt =>
    have hpdpt : walk b.kid root [pml4Index v] = some pdpt := by rw [walk_cons, h₄]; rfl
    obtain ⟨hpresent, -, haddr⟩ := h.entry_eq (p := []) (by decide) rfl h₄
    have hstep : b.translate root v = b.translatePdpt pdpt v := by
      simp [State.translate, hpresent, haddr]
    rw [hstep, Option.bind_some, walk_cons]
    cases h₃ : b.kid pdpt (pdptIndex v) with
    | none =>
      have hentry := h.entry_of_none (by simp) hpdpt h₃
      simp [State.translatePdpt, hentry]
    | some pd =>
      obtain ⟨hpresent, hpage, haddr⟩ := h.entry_eq (by simp) hpdpt h₃
      simp [State.translatePdpt, hpresent, hpage, haddr]

/-- **The processor translates as the mappings do.** -/
theorem Shows.translate_eq (h : Shows b root w) : b.translate root v = w.translate v := by
  rw [h.linked.translate_eq, Mappings.translate]
  have hpt : pageTable b root v = (walk b.kid root [pml4Index v, pdptIndex v]).bind fun d =>
      b.kid d (pdIndex v) := walk_concat (p := [pml4Index v, pdptIndex v])
  have hblock : blockEntry b root v = (walk b.kid root [pml4Index v, pdptIndex v]).elim 0 fun d =>
      (b.dirs d).entries (pdIndex v) := rfl
  by_cases hsplit : w.Split (blockOf v)
  · rw [if_pos hsplit]
    obtain ⟨t, ht⟩ := Option.ne_none_iff_exists'.mp ((h.split v).mpr hsplit)
    have hpage := h.page ht
    rw [hpt] at ht
    obtain ⟨pd, hpd, hkid⟩ := Option.bind_eq_some_iff.mp ht
    obtain ⟨hpresent, hnot, haddr⟩ := h.linked.entry_eq (by simp) hpd hkid
    rw [hpd, Option.bind_some]
    simp only [State.translatePd, hpresent, hnot, haddr, State.translatePt, hpage]
    cases w.pages (pageOf v) with
    | none => rfl
    | some f =>
      rw [present_entryOf rfl, addrBits_entryOf (by decide)]
      rfl
  · rw [if_neg hsplit]
    have hnone : pageTable b root v = none := by
      by_contra hne
      exact hsplit ((h.split v).mp hne)
    have hlarge := h.large hnone
    rw [hblock] at hlarge
    cases hpd : walk b.kid root [pml4Index v, pdptIndex v] with
    | none =>
      rw [hpd] at hlarge
      rw [(entryOf_eq_zero (by decide)).mp hlarge.symm]
      rfl
    | some pd =>
      rw [hpd] at hlarge
      simp only [Option.elim_some] at hlarge
      rw [Option.bind_some]
      simp only [State.translatePd, hlarge]
      cases w.large (blockOf v) with
      | none => rfl
      | some f =>
        rw [present_entryOf rfl, isPage_entryOf (by decide), addrBits_entryOf (by decide)]
        rfl

end Translate

/-! ### One `if` -/

section Ensured

variable {b b' : State} {root v virt d t i f : ℕ} {w : Mappings} {p : List ℕ}

/-- A new directory is not seen in the mappings. -/
theorem Ensured.shows (he : Ensured b b' root p i) (hp : p.length < 2) (h : Shows b root w) :
    Shows b' root w := by
  have hlen : (p ++ [i]).length ≠ 3 := by
    rw [List.length_append, List.length_singleton]
    omega
  have htable : ∀ v, pageTable b' root v = pageTable b root v := fun v =>
    he.others (Nat.le_refl 3) (slots_ne_of_length hlen)
  have hblock : ∀ v, blockEntry b' root v = blockEntry b root v := by
    intro v
    have hdirs := fun a => he.entries (q := [pml4Index v, pdptIndex v]) (a := a) (j := pdIndex v)
      (by simp)
    by_cases hq : [pml4Index v, pdptIndex v] = p ++ [i]
    · cases hw : walk b.kid root [pml4Index v, pdptIndex v] with
      | some a => rw [he.kept (by rw [← hq, hw]; simp)]
      | none =>
        obtain ⟨t, ht⟩ := he.slot
        have hnew := he.newDir (by rw [← hq, hw]) hp ht
        rw [blockEntry, blockEntry, hw, hq, ht, Option.elim_some, hnew]
        rfl
    · have hwalk := he.others (q := [pml4Index v, pdptIndex v]) (by simp) hq
      rw [blockEntry, blockEntry, hwalk]
      cases hw : walk b.kid root [pml4Index v, pdptIndex v] with
      | none => rfl
      | some a =>
        refine hdirs a hw fun hc => ?_
        rw [← hc.1] at hp
        simp at hp
  constructor
  · exact he.linked
  · intro v
    rw [htable]
    exact h.split v
  · intro v t ht
    rw [htable] at ht
    rw [he.tabs (q := slots v) (Nat.le_refl 3) ht]
    exact h.page ht
  · intro v hv
    rw [htable] at hv
    rw [hblock]
    exact h.large hv

/-- The tables of `root` are those of `w`, but for a page table `t` for the block of `virt`, in
which there may be no page yet. -/
structure Opened (b : State) (root : ℕ) (w : Mappings) (virt t : ℕ) : Prop where
  linked : Linked b root
  table : pageTable b root virt = some t
  split : ∀ v, slots v ≠ slots virt → (pageTable b root v ≠ none ↔ w.Split (blockOf v))
  page : ∀ {v t}, pageTable b root v = some t →
    b.tabs t (ptIndex v) = entryOf 12 3 (w.pages (pageOf v))
  large : ∀ {v}, pageTable b root v = none →
    blockEntry b root v = entryOf 21 0x83 (w.large (blockOf v))

/-- A page that is there is in a block that is split. -/
theorem Mappings.split_of_page (h : w.pages (pageOf v) ≠ none) : w.Split (blockOf v) :=
  ⟨pageOf v, blockOf_eq.symm, h⟩

theorem Ensured.opened (he : Ensured b b' root [pml4Index virt, pdptIndex virt] (pdIndex virt))
    (h : Shows b root w) : ∃ t, Opened b' root w virt t := by
  obtain ⟨t, ht⟩ := he.slot
  have hslots : [pml4Index virt, pdptIndex virt] ++ [pdIndex virt] = slots virt := rfl
  rw [hslots] at ht
  refine ⟨t, ?_⟩
  by_cases hold : pageTable b root virt = none
  · have hnot : ¬w.Split (blockOf virt) := fun hc => (h.split virt).mpr hc hold
    have htable : ∀ {v}, slots v ≠ slots virt → pageTable b' root v = pageTable b root v :=
      fun hv => he.others (Nat.le_refl 3) hv
    have hzero := he.newTab hold rfl ht
    constructor
    · exact he.linked
    · exact ht
    · intro v hv
      rw [htable hv]
      exact h.split v
    · intro v t' ht'
      by_cases hv : slots v = slots virt
      · rw [pageTable, hv, ht] at ht'
        obtain rfl := Option.some.inj ht'
        have hnone : w.pages (pageOf v) = none := by
          by_contra hpage
          exact hnot (slots_eq_iff.mp hv ▸ w.split_of_page hpage)
        rw [hzero, hnone]
        rfl
      · rw [htable hv] at ht'
        rw [he.tabs (q := slots v) (Nat.le_refl 3) ht']
        exact h.page ht'
    · intro v hv
      have hne : slots v ≠ slots virt := fun hc => by
        rw [pageTable, hc, ht] at hv
        exact absurd hv (by simp)
      have hlen : [pml4Index v, pdptIndex v] ≠ slots virt := fun hc =>
        absurd (congrArg List.length hc) (by simp [slots])
      have hwalk := he.others (q := [pml4Index v, pdptIndex v]) (by simp) hlen
      have hlarge := h.large ((htable hne).symm.trans hv)
      rw [← hlarge, blockEntry, blockEntry, hwalk]
      cases hw : walk b.kid root [pml4Index v, pdptIndex v] with
      | none => rfl
      | some a =>
        refine he.entries (by simp) hw fun hc => hne ?_
        obtain ⟨h₁, h₂⟩ := hc
        simp only [List.cons.injEq, and_true] at h₁
        rw [slots, slots, h₁.1, h₁.2, h₂]
  · obtain rfl := he.kept hold
    exact ⟨h.linked, ht, fun v _ => h.split v, h.page, h.large⟩

end Ensured

/-! ### The two functions -/

section Mapping

variable {b b' b₁ b₂ : State} {root virt phys t i₄ i₃ f g q k : ℕ} {w : Mappings} {r : Bool}

/-- Of the loader, what is about the tables alone. -/
theorem Linked.setPtEntry (h : Linked b root) (t i v : ℕ) : Linked (b.setPtEntry t i v) root :=
  ⟨h.kheapLoc_lt, h.unshared, h.aligned, h.end_le, h.entry_of_some, h.entry_of_none⟩

theorem Mappings.enterPage_of_some (h : w.pages q = some g) : w.enterPage q f = w := by
  have hupdate : Function.update w.pages q (some ((w.pages q).getD f)) = w.pages := by
    rw [h, Option.getD_some, ← h, Function.update_eq_self]
  rw [enterPage, hupdate]

theorem Mappings.split_enterPage : (w.enterPage q f).Split k ↔ q / 512 = k ∨ w.Split k := by
  constructor
  · rintro ⟨q', hk, hpage⟩
    by_cases hq : q' = q
    · exact Or.inl (hq ▸ hk)
    · rw [enterPage] at hpage
      simp only [Function.update_of_ne hq] at hpage
      exact Or.inr ⟨q', hk, hpage⟩
  · rintro (hk | ⟨q', hk, hpage⟩)
    · exact ⟨q, hk, by simp [enterPage]⟩
    · refine ⟨q', hk, ?_⟩
      by_cases hq : q' = q
      · simp [enterPage, hq]
      · simpa [enterPage, hq] using hpage

/-- **A page is entered** in its table, unless there is one. -/
theorem Opened.enter (h : Opened b root w virt t) (f : ℕ) :
    Shows (if b.tabs t (ptIndex virt) ≠ 0 then b else
      b.setPtEntry t (ptIndex virt) (f * 2 ^ 12 ||| 3)) root (w.enterPage (pageOf virt) f) := by
  have hentry := h.page h.table
  have hsplit : ∀ v, pageTable b root v ≠ none ↔
      (w.enterPage (pageOf virt) f).Split (blockOf v) := by
    intro v
    rw [Mappings.split_enterPage, ← blockOf_eq, ← slots_eq_iff]
    by_cases hv : slots v = slots virt
    · refine iff_of_true ?_ (Or.inl hv.symm)
      rw [pageTable, hv]
      exact Option.ne_none_iff_exists'.mpr ⟨t, h.table⟩
    · rw [h.split v hv, or_iff_right fun hc => hv hc.symm]
  cases hpage : w.pages (pageOf virt) with
  | some g =>
    have hne : b.tabs t (ptIndex virt) ≠ 0 := by
      rw [hentry, hpage, Ne, entryOf_eq_zero (by decide)]
      simp
    rw [if_pos hne]
    rw [w.enterPage_of_some hpage] at hsplit ⊢
    exact ⟨h.linked, hsplit, h.page, h.large⟩
  | none =>
    have hzero : b.tabs t (ptIndex virt) = 0 := by rw [hentry, hpage]; rfl
    rw [if_neg (not_not.mpr hzero)]
    constructor
    · exact h.linked.setPtEntry _ _ _
    · exact hsplit
    · intro v t' ht'
      replace ht' : pageTable b root v = some t' := ht'
      by_cases hv : pageOf v = pageOf virt
      · obtain ⟨hslots, hpt⟩ := pageOf_eq_iff.mp hv
        rw [pageTable, hslots] at ht'
        obtain rfl := Option.some.inj (ht'.symm.trans h.table)
        rw [hv, hpt]
        simp [State.setPtEntry, Mappings.enterPage, hpage, entryOf_some]
      · have hother : (b.setPtEntry t (ptIndex virt) (f * 2 ^ 12 ||| 3)).tabs t' (ptIndex v) =
            b.tabs t' (ptIndex v) := by
          by_cases htt : t' = t
          · subst htt
            have hpt : ptIndex v ≠ ptIndex virt := fun hc => hv
              (pageOf_eq_iff.mpr ⟨(h.linked.unshared.inj ⟨rfl, le_rfl⟩ ⟨rfl, le_rfl⟩ ht' h.table).2,
                hc⟩)
            simp [State.setPtEntry, hpt]
          · simp [State.setPtEntry, htt]
        rw [hother, h.page ht']
        simp [Mappings.enterPage, hv]
    · intro v hv
      exact h.large hv

/-- The first two `if`s of both functions. -/
theorem Linked.directories (h : Linked b root) (h₁ : newDirectory b root i₄ true true = some b₁)
    (h₂ : newDirectory b₁ (tableIn b₁ root i₄) i₃ true true = some b₂) :
    Ensured b b₁ root [] i₄ ∧ Ensured b₁ b₂ root [i₄] i₃ ∧
      walk b₂.kid root [i₄, i₃] = some (tableIn b₂ (tableIn b₁ root i₄) i₃) := by
  have he₁ : Ensured b b₁ root [] i₄ :=
    h.ensured (by simp) rfl rfl (Or.inl ⟨by simp, rfl⟩) h₁
  obtain ⟨t₄, ht₄⟩ := he₁.slot
  have hkid : b₁.kid root i₄ = some t₄ := by rwa [walk_concat] at ht₄
  rw [State.tableIn_of_kid hkid] at h₂ ⊢
  have he₂ : Ensured b₁ b₂ root [i₄] i₃ :=
    he₁.linked.ensured (by simp) ht₄ rfl (Or.inl ⟨by simp, rfl⟩) h₂
  obtain ⟨t₃, ht₃⟩ := he₂.slot
  have ht₄' : walk b₂.kid root [i₄] = some t₄ := (he₂.others (by simp) (by simp)).trans ht₄
  have hkid₂ : b₂.kid t₄ i₃ = some t₃ := by rwa [walk_concat, ht₄'] at ht₃
  refine ⟨he₁, he₂, ?_⟩
  rw [State.tableIn_of_kid hkid₂]
  exact ht₃

/-- **`map_page`** enters a page. -/
theorem Shows.mapPage (h : Shows b root w) (hphys : phys < 2 ^ 64)
    (hrun : mapPage b virt phys true true root = some (r, b')) :
    Shows b' root (w.enterPage (pageOf virt) (phys / 2 ^ 12)) := by
  simp only [Bootstrap.mapPage, Option.bind_eq_bind, Option.bind_eq_some_iff] at hrun
  obtain ⟨b₁, h₁, b₂, h₂, b₃, h₃, hrun⟩ := hrun
  obtain ⟨he₁, he₂, hpd⟩ := h.linked.directories h₁ h₂
  have he₃ : Ensured b₂ b₃ root [pml4Index virt, pdptIndex virt] (pdIndex virt) :=
    he₂.linked.ensured (by simp) hpd rfl (Or.inr ⟨rfl, rfl⟩) h₃
  obtain ⟨t, ht⟩ := he₃.opened (he₂.shows (by simp) (he₁.shows (by simp) h))
  have htable : tableIn b₃ (tableIn b₂ (tableIn b₁ root (pml4Index virt)) (pdptIndex virt))
      (pdIndex virt) = t := by
    refine State.tableIn_of_kid ?_
    have hwalk := he₃.others (q := [pml4Index virt, pdptIndex virt]) (by simp) (by simp)
    have hslot : walk b₃.kid root ([pml4Index virt, pdptIndex virt] ++ [pdIndex virt]) = some t :=
      ht.table
    rwa [walk_concat, hwalk, hpd] at hslot
  have hframe : frameAddr phys ||| entryFlags true true = phys / 2 ^ 12 * 2 ^ 12 ||| 3 := by
    rw [frameAddr, and_pageMask hphys]
    rfl
  have henter := ht.enter (phys / 2 ^ 12)
  rw [htable, hframe] at hrun
  split_ifs at hrun henter with hne
  · obtain ⟨-, rfl⟩ := Prod.mk.inj (Option.some.inj hrun)
    exact henter
  · obtain ⟨-, rfl⟩ := Prod.mk.inj (Option.some.inj hrun)
    exact henter

/-- An entry of a page directory that has no page table there. -/
theorem Linked.setEntry (h : Linked b root) {d i : ℕ} (hd : walk b.kid root [i₄, i₃] = some d)
    (hi : b.kid d i = none) (v : ℕ) : Linked (b.setEntry d i v) root := by
  have hdirs : ∀ {a j}, ¬(a = d ∧ j = i) →
      ((b.setEntry d i v).dirs a).entries j = (b.dirs a).entries j := by
    intro a j hne
    by_cases ha : a = d
    · subst ha
      have hj : j ≠ i := fun hj => hne ⟨rfl, hj⟩
      simp [State.setEntry, hj]
    · simp [State.setEntry, ha]
  constructor
  · exact h.kheapLoc_lt
  · rw [State.kid_setEntry]
    exact h.unshared
  · rw [State.kid_setEntry]
    exact h.aligned
  · rw [State.kid_setEntry]
    exact h.end_le
  · intro p a j t hp hw hkid
    rw [State.kid_setEntry] at hw hkid
    rw [hdirs]
    · exact h.entry_of_some hp hw hkid
    · rintro ⟨rfl, rfl⟩
      rw [hi] at hkid
      exact absurd hkid (by simp)
  · intro p a j hp hw hkid
    rw [State.kid_setEntry] at hw hkid
    rw [hdirs]
    · exact h.entry_of_none hp hw hkid
    · rintro ⟨rfl, rfl⟩
      have hpath := (h.unshared.inj ⟨rfl, by omega⟩ ⟨rfl, by simp⟩ hw hd).2
      rw [hpath] at hp
      simp at hp

/-- **`map_page_2mb`** enters a block, where there is no page. -/
theorem Shows.mapPage2mb (h : Shows b root w) (hphys : phys < 2 ^ 64)
    (hsplit : ¬w.Split (blockOf virt))
    (hrun : mapPage2mb b virt phys true true root = some (r, b')) :
    Shows b' root (w.enterLarge (blockOf virt) (phys / 2 ^ 21)) := by
  simp only [Bootstrap.mapPage2mb, Option.bind_eq_bind, Option.bind_eq_some_iff] at hrun
  obtain ⟨b₁, h₁, b₂, h₂, hrun⟩ := hrun
  obtain ⟨he₁, he₂, hpd⟩ := h.linked.directories h₁ h₂
  have hshows := he₂.shows (by simp) (he₁.shows (by simp) h)
  have hvalue : (phys &&& 0xFFFFFFFFFFE00000) ||| entryFlags true true ||| 1 <<< 7 =
      phys / 2 ^ 21 * 2 ^ 21 ||| 0x83 := by
    have hmask : phys &&& 0xFFFFFFFFFFE00000 = phys / 2 ^ 21 * 2 ^ 21 :=
      and_highMask (n := 21) (by decide) hphys
    have hflags : entryFlags true true ||| 1 <<< 7 = 0x83 := by decide
    rw [hmask, Nat.or_assoc, hflags]
  obtain ⟨-, rfl⟩ := Prod.mk.inj (Option.some.inj hrun)
  rw [hvalue]
  generalize tableIn b₂ (tableIn b₁ root (pml4Index virt)) (pdptIndex virt) = d at hpd ⊢
  have hnone : pageTable b₂ root virt = none := by
    by_contra hne
    exact hsplit ((hshows.split virt).mp hne)
  have hkid : b₂.kid d (pdIndex virt) = none := by
    have hslot : walk b₂.kid root ([pml4Index virt, pdptIndex virt] ++ [pdIndex virt]) = none :=
      hnone
    rwa [walk_concat, hpd] at hslot
  have htable : ∀ v, pageTable (b₂.setEntry d (pdIndex virt) (phys / 2 ^ 21 * 2 ^ 21 ||| 0x83))
      root v = pageTable b₂ root v := fun v => by rw [pageTable, pageTable, State.kid_setEntry]
  constructor
  · exact hshows.linked.setEntry hpd hkid _
  · intro v
    rw [htable]
    exact hshows.split v
  · intro v t ht
    rw [htable] at ht
    exact hshows.page ht
  · intro v hv
    rw [htable] at hv
    have hlarge := hshows.large hv
    rw [blockEntry, State.kid_setEntry]
    by_cases hslots : slots v = slots virt
    · have hblock := slots_eq_iff.mp hslots
      simp only [slots, List.cons.injEq, and_true] at hslots
      have hentry : ∀ e, ((b₂.setEntry d (pdIndex virt) e).dirs d).entries (pdIndex virt) = e := by
        intro e
        simp [State.setEntry]
      have hnew : (w.enterLarge (blockOf virt) (phys / 2 ^ 21)).large (blockOf virt) =
          some (phys / 2 ^ 21) := Function.update_self _ _ _
      rw [hslots.1, hslots.2.1, hslots.2.2, hpd, hblock, Option.elim_some, hentry, hnew,
        entryOf_some]
    · have hblock : blockOf v ≠ blockOf virt := fun hc => hslots (slots_eq_iff.mpr hc)
      have hsame : (w.enterLarge (blockOf virt) (phys / 2 ^ 21)).large (blockOf v) =
          w.large (blockOf v) := by simp [Mappings.enterLarge, hblock]
      rw [hsame, ← hlarge, blockEntry]
      cases hw : walk b₂.kid root [pml4Index v, pdptIndex v] with
      | none => rfl
      | some a =>
        by_cases ha : a = d
        · subst ha
          have hpath := (hshows.linked.unshared.inj ⟨rfl, by simp⟩ ⟨rfl, by simp⟩ hw hpd).2
          simp only [List.cons.injEq, and_true] at hpath
          have hj : pdIndex v ≠ pdIndex virt := fun hc => hslots (by
            rw [slots, slots, hpath.1, hpath.2, hc])
          simp [State.setEntry, hj]
        · simp [State.setEntry, ha]

end Mapping

/-! ### Returning -/

section Returning

variable {b : State} {root d t i₄ i₃ : ℕ}

theorem newDirectory_returns (d i : ℕ) (hroom : b.kheapLoc + tableRoom ≤ kernelLoadAddr) :
    ∃ b', newDirectory b d i true true = some b' ∧ b'.kheapLoc ≤ b.kheapLoc + tableRoom := by
  have hsize : pageDirectorySize = tableSize 0 := by simp [tableSize]
  have hmemset : ∀ b a, (State.clearDir b a).kheapLoc = b.kheapLoc := fun _ _ => rfl
  exact newTable_returns hsize hmemset d i hroom

theorem newPageTable_returns (d i : ℕ) (hroom : b.kheapLoc + tableRoom ≤ kernelLoadAddr) :
    ∃ b', newPageTable b d i true true = some b' ∧ b'.kheapLoc ≤ b.kheapLoc + tableRoom := by
  have hsize : pageTableSize = tableSize 3 := by simp [tableSize]
  have hmemset : ∀ b a, (State.clearTab b a).kheapLoc = b.kheapLoc := fun _ _ => rfl
  exact newTable_returns hsize hmemset d i hroom

/-- The first two `if`s of both functions, if there is room. -/
theorem directories_returns (root i₄ i₃ : ℕ)
    (hroom : b.kheapLoc + 2 * tableRoom ≤ kernelLoadAddr) :
    ∃ b₁ b₂, newDirectory b root i₄ true true = some b₁ ∧
      newDirectory b₁ (tableIn b₁ root i₄) i₃ true true = some b₂ ∧
      b₂.kheapLoc ≤ b.kheapLoc + 2 * tableRoom := by
  obtain ⟨b₁, h₁, hle₁⟩ := newDirectory_returns root i₄ (by omega : b.kheapLoc + tableRoom ≤ _)
  obtain ⟨b₂, h₂, hle₂⟩ := newDirectory_returns (tableIn b₁ root i₄) i₃
    (by omega : b₁.kheapLoc + tableRoom ≤ _)
  exact ⟨b₁, b₂, h₁, h₂, by omega⟩

/-- The first two `if`s, where there is a page directory. -/
theorem directories_of_walk (hd : walk b.kid root [i₄, i₃] = some d) :
    newDirectory b root i₄ true true = some b ∧
      newDirectory b (tableIn b root i₄) i₃ true true = some b ∧
      tableIn b (tableIn b root i₄) i₃ = d := by
  rw [walk_cons] at hd
  obtain ⟨t₄, ht₄, hd⟩ := Option.bind_eq_some_iff.mp hd
  rw [walk_cons] at hd
  obtain ⟨t₃, ht₃, hd⟩ := Option.bind_eq_some_iff.mp hd
  obtain rfl : t₃ = d := Option.some.inj hd
  rw [State.tableIn_of_kid ht₄]
  exact ⟨newTable_of_kid ht₄, newTable_of_kid ht₃, State.tableIn_of_kid ht₃⟩

/-- **`map_page` returns** if there is room for three tables. -/
theorem mapPage_returns (virt phys root : ℕ)
    (hroom : b.kheapLoc + 3 * tableRoom ≤ kernelLoadAddr) :
    ∃ r b', mapPage b virt phys true true root = some (r, b') ∧
      b'.kheapLoc ≤ b.kheapLoc + 3 * tableRoom := by
  obtain ⟨b₁, b₂, h₁, h₂, hle⟩ := directories_returns root (pml4Index virt) (pdptIndex virt)
    (by omega : b.kheapLoc + 2 * tableRoom ≤ _)
  obtain ⟨b₃, h₃, hle₃⟩ := newPageTable_returns
    (tableIn b₂ (tableIn b₁ root (pml4Index virt)) (pdptIndex virt)) (pdIndex virt)
    (by omega : b₂.kheapLoc + tableRoom ≤ _)
  simp only [mapPage, h₁, h₂, h₃, Option.bind_eq_bind, Option.bind_some]
  split_ifs
  · exact ⟨_, _, rfl, by omega⟩
  · refine ⟨_, _, rfl, ?_⟩
    change b₃.kheapLoc ≤ _
    omega

/-- Where there is a page table it needs none. -/
theorem mapPage_of_table {virt : ℕ} (phys : ℕ) (ht : pageTable b root virt = some t) :
    ∃ r b', mapPage b virt phys true true root = some (r, b') ∧ b'.kheapLoc = b.kheapLoc := by
  have hslots : slots virt = [pml4Index virt, pdptIndex virt] ++ [pdIndex virt] := rfl
  rw [pageTable, hslots, walk_concat] at ht
  obtain ⟨d, hd, hkid⟩ := Option.bind_eq_some_iff.mp ht
  obtain ⟨h₁, h₂, hpd⟩ := directories_of_walk hd
  have h₃ : newPageTable b d (pdIndex virt) true true = some b := newTable_of_kid hkid
  simp only [mapPage, h₁, h₂, hpd, h₃, Option.bind_eq_bind, Option.bind_some]
  split_ifs
  · exact ⟨_, _, rfl, rfl⟩
  · exact ⟨_, _, rfl, rfl⟩

/-- **`map_page_2mb` returns** if there is room for two tables. -/
theorem mapPage2mb_returns (virt phys root : ℕ)
    (hroom : b.kheapLoc + 2 * tableRoom ≤ kernelLoadAddr) :
    ∃ r b', mapPage2mb b virt phys true true root = some (r, b') ∧
      b'.kheapLoc ≤ b.kheapLoc + 2 * tableRoom := by
  obtain ⟨b₁, b₂, h₁, h₂, hle⟩ := directories_returns root (pml4Index virt) (pdptIndex virt) hroom
  simp only [mapPage2mb, h₁, h₂, Option.bind_eq_bind, Option.bind_some]
  exact ⟨_, _, rfl, hle⟩

/-- Where there is a page directory it needs none. -/
theorem mapPage2mb_of_walk {virt : ℕ} (phys : ℕ)
    (hd : walk b.kid root [pml4Index virt, pdptIndex virt] = some d) :
    ∃ r b', mapPage2mb b virt phys true true root = some (r, b') ∧
      b'.kheapLoc = b.kheapLoc := by
  obtain ⟨h₁, h₂, -⟩ := directories_of_walk hd
  simp only [mapPage2mb, h₁, h₂, Option.bind_eq_bind, Option.bind_some]
  exact ⟨_, _, rfl, rfl⟩

end Returning

end Bootstrap

end Xana
