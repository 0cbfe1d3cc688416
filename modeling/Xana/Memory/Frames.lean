import Xana.Memory.Growth

/-!
# Frames and the entries that lead to them

`FramesInv` says of some entries, the leaves, that their frames are marked and that no
two of them have one frame. An entry for a frame that was not marked keeps it
(`FramesInv.add`), and such an entry is what growth of the heap adds.

The other half of the file is about the tables: a new root, or a new table in a user
half, keeps `KernelInv`.
-/

namespace Xana

open Forest

/-- **No frame is the target of two leaves**, and those that are the target of one are
marked. `leaf` says which entries are meant. -/
structure FramesInv (leaf : ℕ → ℕ → Prop) (m : Machine) : Prop where
  used : ∀ {r v}, leaf r v → m.entry r v ≠ 0 → m.frameUsed (frameAddr (m.entry r v)) = true
  inj : ∀ {r r' v v'}, leaf r v → leaf r' v' → m.entry r v ≠ 0 → m.entry r' v' ≠ 0 →
    frameAddr (m.entry r v) = frameAddr (m.entry r' v') → r = r' ∧ pageOf v = pageOf v'

section Bits

variable {m : Machine} {phys f e : ℕ}

theorem frameAddr_mod (e : ℕ) : frameAddr e % 0x1000 = 0 := by
  have hand := Nat.and_mod_two_pow (a := e) (b := 0xFFFFFFFFFFFFF000) (n := 12)
  rw [frameAddr]
  exact hand.trans (Nat.and_zero _)

/-- All addresses of a frame have one bit. -/
theorem frameUsed_of_div (h : phys / 0x1000 = f / 0x1000) : m.frameUsed phys = m.frameUsed f := by
  rw [Machine.frameUsed, Machine.frameUsed, h]

/-- An address that is marked lies in no frame that is clear. -/
theorem div_ne_of_clear (hf : m.frameUsed f = true) (hp : m.frameUsed phys = false) :
    f / 0x1000 ≠ phys / 0x1000 := by
  intro heq
  rw [frameUsed_of_div heq, hp] at hf
  exact absurd hf (by simp)

theorem frameUsed_markFrame (hb : m.bitmap.isSome) {used : Bool} :
    (m.markFrame phys used).frameUsed f =
      if f / 0x1000 = phys / 0x1000 then used else m.frameUsed f := by
  obtain ⟨b, hb⟩ := Option.isSome_iff_exists.mp hb
  simp only [Machine.frameUsed, Machine.markFrame, hb, Option.map_some]
  exact Function.update_apply b _ used _

end Bits

section Frames

variable {leaf leaf' : ℕ → ℕ → Prop} {m m' : Machine} {roots : List ℕ} {r₀ v₀ e phys : ℕ}

/-- No leaf is new. -/
theorem FramesInv.congr (h : FramesInv leaf m)
    (hused : ∀ f, m.frameUsed f = true → m'.frameUsed f = true)
    (hentry : ∀ {r v}, leaf' r v → m'.entry r v ≠ 0 → leaf r v ∧ m'.entry r v = m.entry r v) :
    FramesInv leaf' m' where
  used := by
    intro r v hl hne
    obtain ⟨hl, he⟩ := hentry hl hne
    rw [he] at hne ⊢
    exact hused _ (h.used hl hne)
  inj := by
    intro r r' v v' hl hl' hne hne' heq
    obtain ⟨hl, he⟩ := hentry hl hne
    obtain ⟨hl', he'⟩ := hentry hl' hne'
    rw [he, he'] at heq
    rw [he] at hne
    rw [he'] at hne'
    exact h.inj hl hl' hne hne' heq

/-- **A leaf for a frame that was not marked.** -/
theorem FramesInv.add (h : FramesInv leaf m) (hclear : m.frameUsed phys = false)
    (he : frameAddr e = phys) (hmark : m'.frameUsed phys = true)
    (hused : ∀ f, m.frameUsed f = true → m'.frameUsed f = true)
    (hentry : ∀ {r v}, leaf' r v → m'.entry r v ≠ 0 →
      r = r₀ ∧ pageOf v = pageOf v₀ ∧ m'.entry r v = e ∨ leaf r v ∧ m'.entry r v = m.entry r v) :
    FramesInv leaf' m' where
  used := by
    intro r v hl hne
    rcases hentry hl hne with ⟨-, -, hv⟩ | ⟨hl, hv⟩
    · rwa [hv, he]
    · rw [hv] at hne ⊢
      exact hused _ (h.used hl hne)
  inj := by
    have hold : ∀ {r v}, leaf r v → m'.entry r v = m.entry r v → m'.entry r v ≠ 0 →
        frameAddr (m'.entry r v) ≠ phys := by
      intro r v hl hv hne heq
      rw [hv] at hne heq
      have hu := h.used hl hne
      rw [heq, hclear] at hu
      exact absurd hu (by simp)
    intro r r' v v' hl hl' hne hne' heq
    rcases hentry hl hne with ⟨rfl, hp, hv⟩ | ⟨hl, hv⟩ <;>
      rcases hentry hl' hne' with ⟨rfl, hp', hv'⟩ | ⟨hl', hv'⟩
    · exact ⟨rfl, hp.trans hp'.symm⟩
    · rw [hv, he] at heq
      exact absurd heq.symm (hold hl' hv' hne')
    · rw [hv', he] at heq
      exact absurd heq (hold hl hv hne)
    · rw [hv, hv'] at heq
      rw [hv] at hne
      rw [hv'] at hne'
      exact h.inj hl hl' hne hne' heq

/-- **The frames that have been taken since** `m`: those of the leaves, which were not marked
then, and no others. -/
structure NewFrames (leaf : ℕ → ℕ → Prop) (m x : Machine) : Prop where
  frames : FramesInv leaf x
  bitmap : x.bitmap.isSome
  marked : ∀ f, m.frameUsed f = true → x.frameUsed f = true
  clear : ∀ {r v}, leaf r v → x.entry r v ≠ 0 → m.frameUsed (frameAddr (x.entry r v)) = false
  only : ∀ f, x.frameUsed f = true → m.frameUsed f = true ∨ ∃ r v, leaf r v ∧
    x.entry r v ≠ 0 ∧ frameAddr (x.entry r v) / 0x1000 = f / 0x1000

namespace NewFrames

variable {x x' : Machine}

/-- The same leaves, and the same bits. -/
theorem congr (h : NewFrames leaf m x) (hbitmap : x'.bitmap = x.bitmap)
    (hentry : ∀ {r v}, leaf r v → x'.entry r v = x.entry r v) : NewFrames leaf m x' := by
  have hused : ∀ f, x'.frameUsed f = x.frameUsed f := fun f => Machine.frameUsed_congr hbitmap
  refine ⟨?_, by rw [hbitmap]; exact h.bitmap, ?_, ?_, ?_⟩
  · exact h.frames.congr (fun f hf => by rwa [hused]) fun hl _ => ⟨hl, hentry hl⟩
  · intro f hf
    rw [hused]
    exact h.marked f hf
  · intro r v hl hne
    rw [hentry hl] at hne ⊢
    exact h.clear hl hne
  · intro f hf
    rw [hused] at hf
    refine (h.only f hf).imp id ?_
    rintro ⟨r, v, hl, hne, heq⟩
    exact ⟨r, v, hl, by rwa [hentry hl], by rwa [hentry hl]⟩

/-- **One more frame is taken**, for a page that was absent. -/
theorem add (r₀ v₀ : ℕ) (h : NewFrames leaf m x) (hclear : x.frameUsed phys = false)
    (he : frameAddr e = phys) (he0 : e ≠ 0)
    (hbitmap : x'.bitmap = x.bitmap.map fun b => Function.update b (phys / 0x1000) true)
    (hnew : leaf' r₀ v₀) (habsent : x.entry r₀ v₀ = 0) (hsub : ∀ {r v}, leaf r v → leaf' r v)
    (hleaf : ∀ {r v}, leaf' r v → r = r₀ ∧ pageOf v = pageOf v₀ ∨ leaf r v)
    (hentry : ∀ {r v}, leaf' r v → x'.entry r v =
      if r = r₀ ∧ pageOf v = pageOf v₀ then e else x.entry r v) : NewFrames leaf' m x' := by
  have hmark :
      ∀ f, x'.frameUsed f = if f / 0x1000 = phys / 0x1000 then true else x.frameUsed f := by
    intro f
    rw [← frameUsed_markFrame h.bitmap]
    exact Machine.frameUsed_congr hbitmap
  have hused : ∀ f, x.frameUsed f = true → x'.frameUsed f = true := by
    intro f hf
    rw [hmark, hf]
    simp
  have hcase : ∀ {r v}, leaf' r v →
      r = r₀ ∧ pageOf v = pageOf v₀ ∧ x'.entry r v = e ∨ leaf r v ∧ x'.entry r v = x.entry r v := by
    intro r v hl
    by_cases hc : r = r₀ ∧ pageOf v = pageOf v₀
    · exact Or.inl ⟨hc.1, hc.2, by rw [hentry hl, if_pos hc]⟩
    · exact Or.inr ⟨(hleaf hl).resolve_left hc, by rw [hentry hl, if_neg hc]⟩
  refine ⟨?_, ?_, fun f hf => hused f (h.marked f hf), ?_, ?_⟩
  · refine h.frames.add hclear he ?_ hused fun hl _ => hcase hl
    rw [hmark, if_pos rfl]
  · rw [hbitmap, Option.isSome_map]
    exact h.bitmap
  · intro r v hl hne
    rcases hcase hl with ⟨-, -, hv⟩ | ⟨hl, hv⟩
    · rw [hv, he]
      by_contra hc
      rw [h.marked phys (by simpa using hc)] at hclear
      exact absurd hclear (by simp)
    · rw [hv] at hne ⊢
      exact h.clear hl hne
  · intro f hf
    rw [hmark] at hf
    split_ifs at hf with hphys
    · refine Or.inr ⟨r₀, v₀, hnew, ?_, ?_⟩ <;> rw [hentry hnew, if_pos ⟨rfl, rfl⟩]
      · exact he0
      · rw [he, hphys]
    · refine (h.only f hf).imp id ?_
      rintro ⟨r, v, hl, hne, heq⟩
      have hsame : x'.entry r v = x.entry r v := by
        rw [hentry (hsub hl), if_neg]
        rintro ⟨rfl, hpage⟩
        rw [entry_congr hpage] at hne
        exact hne habsent
      exact ⟨r, v, hsub hl, by rwa [hsame], by rwa [hsame]⟩

end NewFrames

end Frames

/-! ### Growth -/

section Growth

variable {m m' : Machine} {roots : List ℕ} {r v : ℕ}

theorem GrowEvent.same (h : GrowEvent roots m m') :
    SameTables roots m m' ∧ m'.kernelPml4 = m.kernelPml4 ∧ m'.kheap = m.kheap ∧
      m.kheapEnd ≤ m'.kheapEnd ∧ m'.ram = m.ram := by
  rcases h with h | ⟨phys, h⟩
  · exact ⟨h.tables, h.kernelPml4, h.kheap, h.kheapEnd.ge, h.ram⟩
  · refine ⟨h.tables, h.kernelPml4, h.kheap, ?_, h.ram⟩
    rw [h.kheapEnd]
    exact Nat.le_add_right _ _

/-- **Growth leaves the tables of user addresses alone.** -/
theorem Growth.same (h : Growth roots m m') :
    SameTables roots m m' ∧ m'.kernelPml4 = m.kernelPml4 ∧ m'.kheap = m.kheap ∧
      m.kheapEnd ≤ m'.kheapEnd ∧ m'.ram = m.ram := by
  induction h with
  | refl => exact ⟨KeptTables.refl m, rfl, rfl, le_rfl, rfl⟩
  | tail _ hev ih =>
    obtain ⟨ht, hp, hk, hle, hr⟩ := ih
    obtain ⟨ht', hp', hk', hle', hr'⟩ := hev.same
    exact ⟨ht.trans hp ht', hp'.trans hp, hk'.trans hk, hle.trans hle', hr'.trans hr⟩

/-- An address in a user half. -/
theorem userHalf_slots {k : ℕ} (hr : r = k ∨ r ∈ roots) (hv : UserAddr v) :
    UserHalf k roots r (slots v) := by
  have hpath : OnPath (UserKey r) r v := onPath_userKey hv
  obtain ⟨-, -, hhead⟩ := hpath.pt
  refine ⟨⟨hr.imp id fun hr => ⟨hr, hhead⟩, by simp [slots]⟩, ?_⟩
  intro hc
  exact hv.2 (Option.some.inj hc)

theorem SameTables.entry_eq (h : SameTables roots m m') (hr : r = m.kernelPml4 ∨ r ∈ roots)
    (hv : UserAddr v) : m'.entry r v = m.entry r v :=
  KeptTables.entry_eq h (userHalf_slots hr hv) (h.walk_eq (userHalf_slots hr hv))

end Growth

/-! ### Tables of user halves -/

section Tables

variable {m m' : Machine} {live : List Chunk} {roots : List ℕ} {r c d i t : ℕ} {q : List ℕ}

theorem SpaceKey.of_insert {k : ℕ} (h : SpaceKey k (c :: roots) r q) (hr : r ≠ c) :
    SpaceKey k roots r q := by
  obtain ⟨hr' | ⟨hmem, hhead⟩, hlen⟩ := h
  · exact ⟨Or.inl hr', hlen⟩
  · exact ⟨Or.inr ⟨(List.mem_cons.mp hmem).resolve_left hr, hhead⟩, hlen⟩

theorem SpaceKey.insert {k : ℕ} (h : SpaceKey k roots r q) : SpaceKey k (c :: roots) r q := by
  obtain ⟨hr, hlen⟩ := h
  exact ⟨hr.imp id fun hr => ⟨List.mem_cons_of_mem _ hr.1, hr.2⟩, hlen⟩

theorem UserHalf.insert {k : ℕ} (h : UserHalf k roots r q) : UserHalf k (c :: roots) r q :=
  ⟨h.1.insert, h.2⟩

theorem SpaceKey.init {k : ℕ} (h : SpaceKey k roots r (q ++ [i])) : SpaceKey k roots r q := by
  obtain ⟨hr, hlen⟩ := h
  rw [List.length_append] at hlen
  cases q with
  | nil => exact ⟨hr.imp id fun hr => ⟨hr.1, by simp⟩, by simp⟩
  | cons j q => exact ⟨hr, by omega⟩

/-- The root of an address space whose tables lie in fresh memory is not the kernel's. -/
theorem KernelInv.kernelPml4_ne {u : Chunk} (h : KernelInv m live roots) (hf : Fresh m live u) :
    m.kernelPml4 ≠ u.ptr := by
  intro heq
  exact h.tree.ne_of_fresh hf m.kernelPml4 [] (spaceKey_kernel _ _ (by simp)) (congrArg some heq)

/-- **A new address space**, whose directory is empty. -/
theorem KernelInv.insertRoot (h : KernelInv m live roots)
    (hf : Fresh m live ⟨c, pageDirectorySize, true⟩) (hdirs : ∀ a, a ≠ c → m'.dirs a = m.dirs a)
    (hzero : ∀ i, (m'.dirs c).virt i = 0) (hrest : m' = { m with dirs := m'.dirs }) :
    KernelInv m' (⟨c, pageDirectorySize, true⟩ :: live) (c :: roots) ∧ SameTables roots m m' ∧
      ∀ v, m'.entry m.kernelPml4 v = m.entry m.kernelPml4 v := by
  have hk : m'.kheap = m.kheap := by rw [hrest]
  have hp : m'.kernelPml4 = m.kernelPml4 := by rw [hrest]
  have htabs : m'.tabs = m.tabs := by rw [hrest]
  have hpre : preallocs m' = preallocs m := by rw [hrest]; rfl
  have hne := h.tree.ne_of_fresh hf
  have hwalk : ∀ {r q}, SpaceKey m.kernelPml4 roots r q → walk m'.kid r q = walk m.kid r q := by
    intro r q hq
    refine walk_congr SpaceKey.init (fun q i d hqi hw => ?_) hq
    rw [Machine.kid, Machine.kid, hdirs d]
    rintro rfl
    exact hne _ _ hqi.init hw
  have hkid : ∀ i, m'.kid c i = none := fun i => pointer_eq_none.mpr (hzero i)
  -- nothing is behind the new directory
  have hnil : ∀ {p t}, walk m'.kid c p = some t → p = [] ∧ t = c := by
    intro p t hw
    cases p with
    | nil => exact ⟨rfl, (Option.some.inj hw).symm⟩
    | cons i p =>
      rw [walk_cons, hkid] at hw
      exact absurd hw (by simp)
  refine ⟨⟨⟨?_, fun hq => hq.2, ?_⟩,
    ?_, by rw [hpre]; exact h.distinct, by rw [hk]; exact h.kheap_le, ?_⟩, ?_, ?_⟩
  · rw [hp]
    refine (h.tree.unshared.congr fun _ _ => hwalk).insert (c := c) SpaceKey.init ?_ ?_ ?_
    · exact fun _ _ hq hr => hq.of_insert hr
    · intro r q hq
      rw [hwalk hq]
      exact hne r q hq
    · exact fun i _ => hkid i
  · rw [hp]
    intro r q t hq hw
    rw [Held, hk]
    by_cases hr : r = c
    · subst hr
      obtain ⟨rfl, rfl⟩ := hnil hw
      exact Or.inl List.mem_cons_self
    · have hq := hq.of_insert hr
      rw [hwalk hq] at hw
      exact (h.tree.held hq hw).imp (List.mem_cons_of_mem _) id
  · rw [hpre, hp]
    intro x hx hx0
    obtain ⟨hheld, hnex⟩ := h.prealloc x hx hx0
    refine ⟨hheld.imp (List.mem_cons_of_mem _) fun hle => by rwa [hk], ?_⟩
    intro r q hq hw
    by_cases hr : r = c
    · subst hr
      exact h.prealloc_ne hf hx hx0 (hnil hw).2
    · have hq := hq.of_insert hr
      rw [hwalk hq] at hw
      exact hnex r q hq hw
  · rw [hp, Machine.kid, hdirs _ (h.kernelPml4_ne hf)]
    exact h.kernelHalf
  · intro r q t hq hw
    rw [htabs]
    refine ⟨fun _ => hdirs t ?_, fun _ => rfl⟩
    rintro rfl
    exact hne r q hq.1 hw
  · intro v
    have hv : SpaceKey m.kernelPml4 roots m.kernelPml4 (slots v) :=
      spaceKey_kernel _ _ (by simp [slots])
    rw [Machine.entry, Machine.entry, hwalk hv, htabs]

/-- **A new table in a user half.** -/
theorem KernelInv.putTable (h : KernelInv m live roots)
    (hf : Fresh m live ⟨t, tableSize (q.length + 1), true⟩)
    (hqi : UserHalf m.kernelPml4 roots r (q ++ [i])) (hd : walk m.kid r q = some d)
    (hnone : m.kid d i = none) (hput : TablePut m m' d i t (q.length + 1)) :
    KernelInv m' (⟨t, tableSize (q.length + 1), true⟩ :: live) roots ∧
      (∀ {r v}, SpaceKey m.kernelPml4 roots r (slots v) → m'.entry r v = m.entry r v) ∧
      (∀ {r' p}, SpaceKey m.kernelPml4 roots r' p → walk m'.kid r' p =
        if r' = r ∧ p = q ++ [i] then some t else walk m.kid r' p) ∧
      KeptTables (fun r' p => UserHalf m.kernelPml4 roots r' p ∧ ¬(r' = r ∧ p = q)) m m' := by
  have hk : m'.kheap = m.kheap := by rw [hput.rest]
  have hp : m'.kernelPml4 = m.kernelPml4 := by rw [hput.rest]
  have hpre : preallocs m' = preallocs m := by rw [hput.rest]; rfl
  have hne := h.tree.ne_of_fresh hf
  have hq := hqi.init.1
  have hwalk : ∀ {r' p}, SpaceKey m.kernelPml4 roots r' p → walk m'.kid r' p =
      if r' = r ∧ p = q ++ [i] then some t else walk m.kid r' p := fun hp' =>
    h.tree.walk_put hne hq hd hnone hput hp'
  refine ⟨⟨?_, ?_, by rw [hpre]; exact h.distinct, by rw [hk]; exact h.kheap_le, ?_⟩, ?_, hwalk, ?_⟩
  · rw [hp]
    exact h.tree.put hne hq hd hnone hput (Or.inl List.mem_cons_self) (List.subset_cons_self _ _)
  · rw [hpre, hp]
    intro x hx hx0
    obtain ⟨hheld, hnex⟩ := h.prealloc x hx hx0
    refine ⟨hheld.imp (List.mem_cons_of_mem _) fun hle => by rwa [hk], ?_⟩
    intro r' p hrp
    rw [hwalk hrp]
    split_ifs
    · exact fun heq => h.prealloc_ne hf hx hx0 (Option.some.inj heq).symm
    · exact hnex r' p hrp
  · have hslot : ¬(m.kernelPml4 = d ∧ 511 = i) := by
      rintro ⟨rfl, rfl⟩
      obtain ⟨-, rfl⟩ := h.tree.inj (spaceKey_kernel _ _ (by simp)) hq walk_nil hd
      exact hqi.2 rfl
    rw [hp, hput.grafted.other _ _ (h.kernelPml4_ne hf) hslot]
    exact h.kernelHalf
  · exact fun hv => h.tree.entry_put hne hq hd hnone hput hv
  · rintro r' p s ⟨hrp, hnot⟩ hw
    have hst : s ≠ t := by
      rintro rfl
      exact hne r' p hrp.1 hw
    have hsd : s ≠ d := by
      rintro rfl
      exact hnot (h.tree.inj hrp.1 hq hw hd)
    exact ⟨fun _ => hput.dirs s hst hsd, fun _ => hput.tabs s hst⟩

end Tables

end Xana
