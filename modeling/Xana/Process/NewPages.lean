import Xana.Process.Arguments
import Xana.Process.Brk
import Xana.Process.Segments

/-!
# Pages that are new to a process

A page is mapped by a page fault in a region, by `kbrk`, by `load_elf64`, and for the stack that
`create_process` and `kexecv` make. The frame is one that nobody uses; what its last owner left
in it is still there. So what the process reads afterwards depends on it, unless every byte of
the page is written in the same step (`Xana.sameReads_iff`). `kbrk` writes them all
(`Xana.clears_kbrk`). `load_elf64` writes the bytes of the segments, and not what is in front of
or behind them in their pages. A page fault writes nothing, and neither do the other two: the
`memset` of `kexecv` clears the stack of the image that is about to be replaced.

Each of the steps is a list of operations like those of the loader.
-/

namespace Xana

open Mem

/-- The bytes that an operation writes. -/
def LoadOp.Writes : LoadOp → ℕ → Prop
  | read _ _, _ => False
  | map _, _ => False
  | copy dest _ len, a =>
      dest ≤ a ∧ (a < dest + headLength dest len ∨ a < dest + (len - headLength dest len))
  | zero dest len, a => dest ≤ a ∧ a < dest + len

/-! ### The steps -/

/-- What `page_fault_error` maps, if it recovers. -/
def pageFaultOps (regions : List BrkRegion) (faultingAddress : ℕ) : List LoadOp :=
  if ∃ r ∈ regions, r.start ≤ faultingAddress ∧ faultingAddress < r.endAddr then
    [.map (pageStart faultingAddress)]
  else []

/-- What `kbrk` maps and clears. -/
def kbrkOps (brkStart location : ℕ) : List LoadOp :=
  if location < brkStart ∨ pageStart brkStart = pageAlignUp location then []
  else if pageStart brkStart ≤ pageAlignUp location then
    (pagesFrom (pageStart brkStart)
      ((pageAlignUp location - pageStart brkStart) / 0x1000 + 1)).flatMap
      fun i => [.map i, .zero i 0x1000]
  else []

/-- The pages of a stack, from the top down. The sum and the product are those of `uint32_t`s. -/
def stackOps (pages : ℕ) : List LoadOp :=
  (List.range pages).map fun i => .map (virtMemOffset - (i + 1) * 0x1000 % 2 ^ 32)

/-- `stack_size_pages` of `create_process`. -/
def stackSizePages (stackSize : ℕ) : ℕ :=
  (if stackSize % 0x1000 ≠ 0 then stackSize / 0x1000 + 1 else stackSize / 0x1000) % 2 ^ 32

/-- A step that gives a process new pages. -/
inductive NewPages
  | pageFault (regions : List BrkRegion) (faultingAddress : ℕ)
  | kbrk (brkStart location : ℕ)
  | loadElf64 (image : Mem)
  | createProcess (stackSize : ℕ)
  | kexecv

/-- What it does to the new or the old address space of the process. -/
def NewPages.ops : NewPages → List LoadOp
  | pageFault regions faultingAddress => pageFaultOps regions faultingAddress
  | kbrk brkStart location => kbrkOps brkStart location
  | loadElf64 image => (Xana.loadElf64 image).1
  | createProcess stackSize => stackOps (stackSizePages stackSize)
  | kexecv => stackOps (processInitialStack / 0x1000)

/-- What it copies from. -/
def NewPages.image : NewPages → Mem
  | loadElf64 image => image
  | _ => fun _ => 0

/-- The step. -/
def NewPages.run (src : FrameSource) (step : NewPages) (s : UserSpace) : Option UserSpace :=
  runOps src step.image step.ops s

/-! ### What should hold -/

/-- Two states that differ in frames that are not in use only. -/
structure Alike (s t : UserSpace) : Prop where
  pages : t.pages = s.pages
  used : t.used = s.used
  ram : ∀ a, s.used (a / 0x1000) = true → t.ram a = s.ram a

/-- **The process reads the same** after the step, whatever is in the frames that are not in
use. -/
def SameReads (src : FrameSource) (step : NewPages) (s : UserSpace) : Prop :=
  ∀ t, Alike s t → ∀ s' t', step.run src s = some s' → step.run src t = some t' →
    ∀ a, t'.read a = s'.read a

/-- **Every byte of a page that is new is written.** -/
def Clears (ops : List LoadOp) (s : UserSpace) : Prop :=
  ∀ a, UserByte a → s.pages (pageOf a) = none →
    (∃ virt, LoadOp.map virt ∈ ops ∧ pageOf virt = pageOf a) → ∃ op ∈ ops, op.Writes a

/-! ### One run -/

/-- **What a step does**: pages stay where they are, new ones are in frames that were not in use,
and a byte that is not written is what it was in memory. -/
structure Effect (written mapped : ℕ → Prop) (s s' : UserSpace) : Prop where
  kept : ∀ v f, s.pages v = some f → s'.pages v = some f
  fresh : ∀ v f, s'.pages v = some f → s.pages v = some f ∨ s.used (f / 0x1000) = false
  used : ∀ k, s.used k = true → s'.used k = true
  there : ∀ v, s'.pages v ≠ none ↔ s.pages v ≠ none ∨ mapped v
  ram : ∀ a f, UserByte a → f % 0x1000 = 0 → (∀ v, s'.pages v = some f → v = pageOf a) →
    ¬written a → s'.ram (f + a % 0x1000) = s.ram (f + a % 0x1000)

section Run

variable {s s' t u : UserSpace} {src : FrameSource} {image : Mem} {op : LoadOp} {ops : List LoadOp}
  {w w' m m' : ℕ → Prop} {virt a b : ℕ} {x : UInt8} {l : List UInt8}

theorem Effect.refl : Effect (fun _ => False) (fun _ => False) s s where
  kept _ _ h := h
  fresh _ _ h := Or.inl h
  used _ h := h
  there _ := (or_false _).symm ▸ Iff.rfl
  ram _ _ _ _ _ _ := rfl

theorem Effect.trans (h : Effect w m s t) (h' : Effect w' m' t u) :
    Effect (fun a => w a ∨ w' a) (fun v => m v ∨ m' v) s u where
  kept v f hv := h'.kept v f (h.kept v f hv)
  fresh v f hv := by
    rcases h'.fresh v f hv with ht | hfree
    · exact h.fresh v f ht
    · refine Or.inr ?_
      by_contra hused
      exact Bool.false_ne_true (hfree.symm.trans (h.used _ (eq_true_of_ne_false hused)))
  used k hk := h'.used k (h.used k hk)
  there v := by rw [h'.there, h.there, or_assoc]
  ram a f hu hal hv hw := by
    obtain ⟨hw, hw'⟩ := not_or.mp hw
    rw [h'.ram a f hu hal hv hw', h.ram a f hu hal (fun v ht => hv v (h'.kept v f ht)) hw]

/-- The same bytes and pages, said in another way. -/
theorem Effect.congr (h : Effect w m s t) (hw : ∀ a, w a ↔ w' a) (hm : ∀ v, m v ↔ m' v) :
    Effect w' m' s t :=
  funext (fun a => propext (hw a)) ▸ funext (fun v => propext (hm v)) ▸ h

theorem effect_mapNext (h : s.mapNext src virt = some s') :
    Effect (fun _ => False) (fun v => pageOf virt = v) s s' := by
  have hmaps := UserSpace.maps_of_mapNext h
  obtain ⟨-, phys, hfree, -, rfl⟩ := UserSpace.mapNext_eq_some_iff.mp h
  refine ⟨fun v f hv => ?_, fun v f hv => ?_, fun k hk => ?_, fun v => ?_, fun a f _ _ _ _ => ?_⟩
  · rw [hmaps.kept v (Or.inr (hv ▸ Option.some_ne_none f)), hv]
  · rcases eq_or_ne v (pageOf virt) with rfl | hne
    · rw [UserSpace.mapPage_pages] at hv
      split_ifs at hv
      · rw [Function.update_self] at hv
        exact Or.inr (Option.some.inj hv ▸ hfree.1)
      · exact Or.inl hv
    · exact Or.inl (hmaps.kept v (Or.inl hne) ▸ hv)
  · rw [UserSpace.mapPage_used]
    split_ifs
    · rcases eq_or_ne k (phys / 0x1000) with rfl | hne
      · exact Function.update_self ..
      · rwa [Function.update_of_ne hne]
    · exact hk
  · rcases eq_or_ne v (pageOf virt) with rfl | hne
    · exact iff_of_true hmaps.mapped (Or.inr rfl)
    · rw [hmaps.kept v (Or.inl hne)]
      exact (or_iff_left hne.symm).symm
  · rw [hmaps.ram]

theorem effect_put (h : s.put b x = some s') :
    Effect (fun a => a = b) (fun _ => False) s s' := by
  obtain ⟨g, hg, rfl⟩ := Option.map_eq_some_iff.mp h
  obtain ⟨hub, hpb⟩ := Option.ite_none_right_eq_some.mp hg
  refine ⟨fun _ _ hv => hv, fun _ _ hv => Or.inl hv, fun _ hk => hk, fun v => (or_iff_left id).symm,
    fun a f hu hal hv hne => Function.update_of_ne (fun heq => hne ?_) _ _⟩
  have hgal := s.aligned hpb
  obtain rfl : g = f := by omega
  exact UserSpace.eq_of_pageOf hu hub (hv _ hpb).symm (Nat.add_left_cancel heq)

theorem effect_write (h : s.write b l = some s') :
    Effect (fun a => b ≤ a ∧ a < b + l.length) (fun _ => False) s s' := by
  induction l generalizing s b with
  | nil =>
    obtain rfl := Option.some.inj h
    exact Effect.refl.congr (fun a => by simp) fun _ => Iff.rfl
  | cons x l ih =>
    obtain ⟨t, ht, hs⟩ := Option.bind_eq_some_iff.mp h
    refine ((effect_put ht).trans (ih hs)).congr (fun a => ?_) fun _ => or_self_iff
    rw [List.length_cons]
    omega

theorem effect_run (h : op.run src image s = some s') :
    Effect op.Writes (fun v => ∃ virt, op = .map virt ∧ pageOf virt = v) s s' := by
  cases op with
  | read off len =>
    obtain rfl := Option.some.inj h
    exact Effect.refl.congr (fun a => Iff.rfl) fun v => by simp
  | map virt => exact (effect_mapNext h).congr (fun a => Iff.rfl) fun v => by simp
  | copy dest off len =>
    obtain ⟨t, ht, hs⟩ := Option.bind_eq_some_iff.mp h
    refine ((effect_write ht).trans (effect_write hs)).congr (fun a => ?_) fun v => by simp
    rw [length_read, length_read]
    exact and_or_left.symm
  | zero dest len =>
    refine (effect_write h).congr (fun a => ?_) fun v => by simp
    rw [List.length_replicate]
    rfl

/-- **The operations, in order.** -/
theorem effect_runOps (h : runOps src image ops s = some s') :
    Effect (fun a => ∃ op ∈ ops, op.Writes a)
      (fun v => ∃ virt, LoadOp.map virt ∈ ops ∧ pageOf virt = v) s s' := by
  induction ops generalizing s with
  | nil =>
    obtain rfl := Option.some.inj h
    exact Effect.refl.congr (fun a => by simp) fun v => by simp
  | cons op ops ih =>
    obtain ⟨t, ht, hs⟩ := Option.bind_eq_some_iff.mp h
    refine ((effect_run ht).trans (ih hs)).congr (fun a => ?_) fun v => ?_
    · exact (List.exists_mem_cons_iff (fun op => LoadOp.Writes op a) op ops).symm
    · simp only [List.mem_cons, or_and_right, exists_or, eq_comm]

end Run

/-! ### Two runs -/

/-- Two states with the same pages, in which some bytes are there and the same. -/
structure Agree (w : ℕ → Prop) (s t : UserSpace) : Prop where
  pages : t.pages = s.pages
  used : t.used = s.used
  read : ∀ a, w a → s.frameOf a ≠ none ∧ t.read a = s.read a

section TwoRuns

variable {s s' t : UserSpace} {src : FrameSource} {image : Mem} {op : LoadOp} {ops : List LoadOp}
  {step : NewPages} {w w' : ℕ → Prop} {virt a b : ℕ} {l : List UInt8}

theorem Agree.congr (h : Agree w s t) (hw : ∀ a, w a ↔ w' a) : Agree w' s t :=
  funext (fun a => propext (hw a)) ▸ h

theorem Agree.mapNext (h : Agree w s t) (hs : s.mapNext src virt = some s') :
    ∃ t', t.mapNext src virt = some t' ∧ Agree w s' t' := by
  have hmaps := UserSpace.maps_of_mapNext hs
  obtain ⟨hvirt, phys, hfree, hnext, rfl⟩ := UserSpace.mapNext_eq_some_iff.mp hs
  have hfree' : t.used (phys / 0x1000) = false ∧ phys % 0x1000 = 0 := h.used ▸ hfree
  have ht : t.mapNext src virt = some (t.mapPage virt phys hfree') :=
    UserSpace.mapNext_eq_some_iff.mpr ⟨hvirt, phys, hfree', h.used ▸ hnext, rfl⟩
  refine ⟨_, ht, ?_, ?_, fun a ha => ?_⟩
  · rw [UserSpace.mapPage_pages, UserSpace.mapPage_pages, h.pages]
  · rw [UserSpace.mapPage_used, UserSpace.mapPage_used, h.pages, h.used]
  · obtain ⟨hthere, hread⟩ := h.read a ha
    have hpage : s.pages (pageOf a) ≠ none := fun hnone => hthere (by
      rw [UserSpace.frameOf, hnone, ite_self])
    rw [UserSpace.frameOf, hmaps.kept _ (Or.inr hpage), hmaps.read_of_mapped (Or.inr hpage),
      (UserSpace.maps_of_mapNext ht).read_of_mapped (Or.inr (h.pages ▸ hpage))]
    exact ⟨hthere, hread⟩

theorem Agree.write (h : Agree w s t) (hs : s.write b l = some s') :
    ∃ t', t.write b l = some t' ∧ Agree (fun a => w a ∨ b ≤ a ∧ a < b + l.length) s' t' := by
  have hthere := UserSpace.write_isSome_iff.mp (Option.isSome_iff_exists.mpr ⟨s', hs⟩)
  obtain ⟨t', ht⟩ := Option.isSome_iff_exists.mp (UserSpace.write_isSome_iff.mpr fun i hi => by
    rw [UserSpace.frameOf_congr h.pages]
    exact hthere i hi : (t.write b l).isSome)
  have hws := UserSpace.writes_of_write hs
  have hwt := UserSpace.writes_of_write ht
  refine ⟨t', ht, ?_, ?_, fun a ha => ?_⟩
  · rw [hwt.pages, hws.pages, h.pages]
  · rw [hwt.used, hws.used, h.used]
  · rw [UserSpace.frameOf_congr hws.pages]
    by_cases hin : b ≤ a ∧ a < b + l.length
    · obtain ⟨i, rfl⟩ := Nat.exists_eq_add_of_le hin.1
      have hi : i < l.length := by omega
      rw [hwt.read_mem i hi, hws.read_mem i hi]
      exact ⟨Option.isSome_iff_ne_none.mp (hthere i hi), rfl⟩
    · rw [hwt.read_of_notMem a (by omega), hws.read_of_notMem a (by omega)]
      exact h.read a (ha.resolve_right hin)

theorem Agree.run (h : Agree w s t) (hs : op.run src image s = some s') :
    ∃ t', op.run src image t = some t' ∧ Agree (fun a => w a ∨ op.Writes a) s' t' := by
  cases op with
  | read off len =>
    obtain rfl := Option.some.inj hs
    exact ⟨t, rfl, h.congr fun a => (or_iff_left id).symm⟩
  | map virt =>
    obtain ⟨t', ht, hagree⟩ := h.mapNext hs
    exact ⟨t', ht, hagree.congr fun a => (or_iff_left id).symm⟩
  | copy dest off len =>
    obtain ⟨u, hu, hs⟩ := Option.bind_eq_some_iff.mp hs
    obtain ⟨v, hv, hagree⟩ := h.write hu
    obtain ⟨t', ht, hagree⟩ := hagree.write hs
    refine ⟨t', Option.bind_eq_some_iff.mpr ⟨v, hv, ht⟩, hagree.congr fun a => ?_⟩
    rw [length_read, length_read, or_assoc]
    exact or_congr_right and_or_left.symm
  | zero dest len =>
    obtain ⟨t', ht, hagree⟩ := h.write hs
    refine ⟨t', ht, hagree.congr fun a => ?_⟩
    rw [List.length_replicate]
    rfl

theorem Agree.runOps (h : Agree w s t) (hs : runOps src image ops s = some s') :
    ∃ t', Xana.runOps src image ops t = some t' ∧
      Agree (fun a => w a ∨ ∃ op ∈ ops, op.Writes a) s' t' := by
  induction ops generalizing s t w with
  | nil =>
    obtain rfl := Option.some.inj hs
    exact ⟨t, rfl, h.congr fun a => by simp⟩
  | cons op ops ih =>
    obtain ⟨u, hu, hs⟩ := Option.bind_eq_some_iff.mp hs
    obtain ⟨v, hv, hagree⟩ := h.run hu
    obtain ⟨t', ht, hagree⟩ := ih hagree hs
    refine ⟨t', Option.bind_eq_some_iff.mpr ⟨v, hv, ht⟩, hagree.congr fun a => ?_⟩
    rw [or_assoc, List.exists_mem_cons_iff (fun op => LoadOp.Writes op a) op ops]

/-- In the beginning, the bytes that are there are the same. -/
theorem Alike.agree (h : Alike s t) : Agree (fun a => s.frameOf a ≠ none) s t where
  pages := h.pages
  used := h.used
  read a ha := by
    refine ⟨ha, ?_⟩
    obtain ⟨f, hf⟩ := Option.ne_none_iff_exists'.mp ha
    have hpage := (Option.ite_none_right_eq_some.mp hf).2
    have hal := s.aligned hpage
    have hframe : (f + a % 0x1000) / 0x1000 = f / 0x1000 := by omega
    rw [UserSpace.read, UserSpace.read, UserSpace.frameOf_congr h.pages, hf]
    exact congrArg some (h.ram _ (hframe ▸ s.used_of_page hpage))

/-- A byte that is new and not written is what it was in memory. -/
theorem exists_alike (hs : runOps src image ops s = some s') (hu : UserByte a)
    (hnone : s.pages (pageOf a) = none) (hthere : s'.pages (pageOf a) ≠ none)
    (hwrites : ¬∃ op ∈ ops, op.Writes a) :
    ∃ t t', Alike s t ∧ runOps src image ops t = some t' ∧ t'.read a ≠ s'.read a := by
  have heffect := effect_runOps hs
  obtain ⟨f, hf⟩ := Option.ne_none_iff_exists'.mp hthere
  have hal := s'.aligned hf
  have hfree : s.used (f / 0x1000) = false :=
    (heffect.fresh _ f hf).resolve_left fun hc => Option.some_ne_none f (hc.symm.trans hnone)
  have hframe : (f + a % 0x1000) / 0x1000 = f / 0x1000 := by omega
  have halike : Alike s (s.setRam (Function.update s.ram (f + a % 0x1000)
      (s.ram (f + a % 0x1000) + 1))) := by
    refine ⟨rfl, rfl, fun b hb => Function.update_of_ne ?_ _ _⟩
    rintro rfl
    rw [hframe, hfree] at hb
    exact Bool.false_ne_true hb
  obtain ⟨t', ht, hagree⟩ := halike.agree.runOps hs
  have heffect' := effect_runOps ht
  have hf' : t'.pages (pageOf a) = some f := hagree.pages ▸ hf
  refine ⟨_, t', halike, ht, ?_⟩
  rw [UserSpace.read, UserSpace.read, UserSpace.frameOf, UserSpace.frameOf, if_pos hu, if_pos hu,
    hf, hf', Option.map_some, Option.map_some,
    heffect.ram a f hu hal (fun v hv => s'.inj hv hf) hwrites,
    heffect'.ram a f hu hal (fun v hv => t'.inj hv hf') hwrites]
  intro heq
  have hsame : s.ram (f + a % 0x1000) + 1 = s.ram (f + a % 0x1000) :=
    (Function.update_self ..).symm.trans (Option.some.inj heq)
  exact absurd hsame (by simp)

end TwoRuns

/-! ### Which steps write -/

section Steps

variable {s s' : UserSpace} {src : FrameSource} {image : Mem} {op : LoadOp} {ops : List LoadOp}
  {p : BrkProcess} {virt a i k n newBrkPage location : ℕ}

/-- A page that is mapped is one of the user half. -/
theorem userByte_of_runOps (h : runOps src image ops s = some s') (hmap : LoadOp.map virt ∈ ops) :
    UserByte virt := by
  induction ops generalizing s with
  | nil => exact absurd hmap List.not_mem_nil
  | cons op ops ih =>
    obtain ⟨t, ht, hs⟩ := Option.bind_eq_some_iff.mp h
    rcases List.mem_cons.mp hmap with rfl | hmap
    · exact (UserSpace.mapNext_eq_some_iff.mp ht).1
    · exact ih hs hmap

/-- A step that writes nothing must not map a page that is new. -/
theorem clears_iff_of_maps (h : runOps src image ops s = some s')
    (hops : ∀ op ∈ ops, ∃ virt, op = .map virt) :
    Clears ops s ↔ ∀ virt, LoadOp.map virt ∈ ops → s.pages (pageOf virt) ≠ none := by
  constructor
  · intro hclears virt hmap hnone
    obtain ⟨op, hop, hwrites⟩ :=
      hclears virt (userByte_of_runOps h hmap) hnone ⟨virt, hmap, rfl⟩
    obtain ⟨virt', rfl⟩ := hops op hop
    exact hwrites
  · rintro h a - hnone ⟨virt, hmap, hpage⟩
    exact absurd (hpage ▸ hnone) (h virt hmap)

/-- **A page fault** must be in a page that is there. -/
theorem clears_pageFault_iff {regions : List BrkRegion} {faultingAddress : ℕ}
    (h : ((NewPages.pageFault regions faultingAddress).run src s).isSome) :
    Clears (NewPages.pageFault regions faultingAddress).ops s ↔
      ∀ virt, LoadOp.map virt ∈ pageFaultOps regions faultingAddress →
        s.pages (pageOf virt) ≠ none := by
  obtain ⟨s', hs⟩ := Option.isSome_iff_exists.mp h
  refine clears_iff_of_maps hs fun op hop => ?_
  rw [NewPages.ops, pageFaultOps] at hop
  split_ifs at hop
  · exact ⟨_, List.mem_singleton.mp hop⟩
  · exact absurd hop List.not_mem_nil

/-- **A stack** must have its pages already. -/
theorem clears_stack_iff {pages : ℕ} (h : runOps src image (stackOps pages) s = some s') :
    Clears (stackOps pages) s ↔
      ∀ virt, LoadOp.map virt ∈ stackOps pages → s.pages (pageOf virt) ≠ none := by
  refine clears_iff_of_maps h fun op hop => ?_
  obtain ⟨i, -, rfl⟩ := List.mem_map.mp hop
  exact ⟨_, rfl⟩

/-- The bytes of a page. -/
theorem mem_page (hi : i % 0x1000 = 0) (hui : UserByte i) (hua : UserByte a)
    (hpage : pageOf i = pageOf a) : i ≤ a ∧ a < i + 0x1000 := by
  have hoff : a % 0x1000 < 0x1000 := Nat.mod_lt a (by decide)
  have heq : i + a % 0x1000 = a := by
    refine UserSpace.eq_of_pageOf (UserSpace.userByte_add hi hui hoff) hua ?_ (by omega)
    rw [UserSpace.pageOf_add hi hoff, hpage]
  omega

theorem mod_of_mem_pagesFrom (hi : i % 0x1000 = 0) (hv : virt ∈ pagesFrom i n) :
    virt % 0x1000 = 0 := by
  induction n generalizing i with
  | zero => exact absurd hv List.not_mem_nil
  | succ n ih =>
    rcases List.mem_cons.mp hv with rfl | hv
    · exact hi
    · exact ih (by omega) hv

/-- **`kbrk`** writes every byte of its pages. -/
theorem clears_kbrk (h : ((NewPages.kbrk p.brkStart location).run src s).isSome) :
    Clears (NewPages.kbrk p.brkStart location).ops s := by
  obtain ⟨s', hs⟩ := Option.isSome_iff_exists.mp h
  rintro a hu - ⟨virt, hmap, hpage⟩
  have huser := userByte_of_runOps hs hmap
  rw [NewPages.ops, kbrkOps] at hmap ⊢
  split_ifs at hmap ⊢
  · exact absurd hmap List.not_mem_nil
  · obtain ⟨i, hi, hop⟩ := List.mem_flatMap.mp hmap
    obtain rfl : virt = i := by simpa using hop
    have hmod := mod_of_mem_pagesFrom (pageStart_mod p.brkStart) hi
    exact ⟨.zero virt 0x1000, List.mem_flatMap.mpr ⟨virt, hi, by simp⟩,
      mem_page hmod huser hu hpage⟩
  · exact absurd hmap List.not_mem_nil

/-- The loop of `kbrk` is its operations. -/
theorem runOps_of_growLoop (hk : i + k * 0x1000 = newBrkPage) (hlt : newBrkPage + 0x1000 < 2 ^ 64)
    (h : growLoop src newBrkPage n i s = some s') :
    runOps src image ((pagesFrom i (k + 1)).flatMap fun i => [.map i, .zero i 0x1000]) s =
      some s' := by
  induction k generalizing i n s with
  | zero =>
    obtain ⟨n, rfl⟩ := exists_succ_of_growLoop h
    obtain ⟨t, u, ht, hu, hrest⟩ := growLoop_succ h (by omega)
    rw [Nat.mod_eq_of_lt (by omega)] at hrest
    obtain ⟨n, rfl⟩ := exists_succ_of_growLoop hrest
    rw [growLoop, if_neg (by omega)] at hrest
    exact Option.bind_eq_some_iff.mpr ⟨t, ht, Option.bind_eq_some_iff.mpr ⟨u, hu, hrest⟩⟩
  | succ k ih =>
    obtain ⟨n, rfl⟩ := exists_succ_of_growLoop h
    obtain ⟨t, u, ht, hu, hrest⟩ := growLoop_succ h (by omega)
    rw [Nat.mod_eq_of_lt (by omega)] at hrest
    have hrec := ih (by omega) hrest
    exact Option.bind_eq_some_iff.mpr ⟨t, ht, Option.bind_eq_some_iff.mpr ⟨u, hu, hrec⟩⟩

/-- The pages that `kbrk` leaves are those of its operations. -/
theorem run_of_kbrk {r : ℕ} {p' : BrkProcess} (hlt : location < 2 ^ 64)
    (h : kbrk n src p location = some (r, p')) :
    (NewPages.kbrk p.brkStart location).run src p.space = some p'.space := by
  have hround := pageAlignUp_lt location hlt
  rw [NewPages.run, NewPages.ops, kbrkOps]
  by_cases hle : location < p.brkStart
  · rw [kbrk, if_pos hle] at h
    obtain ⟨-, rfl⟩ := Prod.mk.inj (Option.some.inj h)
    rw [if_pos (Or.inl hle)]
    rfl
  by_cases hsame : pageStart p.brkStart = pageAlignUp location
  · rw [kbrk_of_same (Nat.not_lt.mp hle) hsame] at h
    obtain ⟨-, rfl⟩ := Prod.mk.inj (Option.some.inj h)
    rw [if_pos (Or.inr hsame)]
    rfl
  rw [kbrk_of_ne (Nat.not_lt.mp hle) hsame] at h
  obtain ⟨space, hloop, heq⟩ := Option.map_eq_some_iff.mp h
  obtain ⟨-, rfl⟩ := Prod.mk.inj heq
  rw [if_neg (not_or.mpr ⟨hle, hsame⟩)]
  split_ifs with horder
  · have hmod := pageAlignUp_mod location
    have hmod' := pageStart_mod p.brkStart
    have hcount : pageStart p.brkStart +
        (pageAlignUp location - pageStart p.brkStart) / 0x1000 * 0x1000 = pageAlignUp location := by
      omega
    -- the last page is one of the user half
    have huser := userByte_of_growLoop hcount hround hloop le_rfl
    have hvirt : virtMemOffset = 2 ^ 64 - 2 ^ 39 := by decide
    rw [hcount, UserByte, hvirt] at huser
    exact runOps_of_growLoop hcount (by omega) hloop
  · obtain ⟨n, rfl⟩ := exists_succ_of_growLoop hloop
    rw [growLoop, if_neg horder] at hloop
    exact hloop

end Steps

end Xana
