import Xana.Memory.PageMap

/-!
# The user half of an address space

What the page tables of a process come to for the process: pages in frames, with a bitmap that
says which frames are in use. A page is mapped with the frame that `first_free_page_addr` finds
(`Xana.UserSpace.mapNext`), and bytes are read and written through the pages. That the page
tables do the same is `Xana.UserSpace.mapNext_refines`; the tables come from an allocator that
leaves everything else alone.

Distinct pages are in distinct frames, which are in use; so a write changes one byte.
-/

namespace Xana

/-- An address of the user half. The addresses with bits 47 to 63 not all alike are no
addresses. -/
def UserByte (a : ℕ) : Prop := a < 2 ^ 47 ∨ 2 ^ 64 - 2 ^ 47 ≤ a ∧ a < virtMemOffset

instance (a : ℕ) : Decidable (UserByte a) :=
  inferInstanceAs (Decidable (a < 2 ^ 47 ∨ 2 ^ 64 - 2 ^ 47 ≤ a ∧ a < virtMemOffset))

/-- The pages of a user half, by page number, the memory, and the bitmap, by frame number. -/
structure UserSpace where
  pages : ℕ → Option ℕ
  ram : Mem
  used : ℕ → Bool
  aligned : ∀ {v f}, pages v = some f → f % 0x1000 = 0
  used_of_page : ∀ {v f}, pages v = some f → used (f / 0x1000) = true
  inj : ∀ {v v' f}, pages v = some f → pages v' = some f → v = v'

namespace UserSpace

/-! ### Pages -/

section Pages

variable (s : UserSpace)

/-- The page is in the frame at `phys`, which is free. -/
def addPage (v phys : ℕ) (h : s.used (phys / 0x1000) = false ∧ phys % 0x1000 = 0) : UserSpace where
  pages := Function.update s.pages v (some phys)
  ram := s.ram
  used := Function.update s.used (phys / 0x1000) true
  aligned := by
    intro w f hw
    rcases eq_or_ne w v with rfl | hne
    · rw [Function.update_self] at hw
      exact Option.some.inj hw ▸ h.2
    · rw [Function.update_of_ne hne] at hw
      exact s.aligned hw
  used_of_page := by
    intro w f hw
    rcases eq_or_ne (f / 0x1000) (phys / 0x1000) with heq | hframe
    · rw [heq, Function.update_self]
    · rw [Function.update_of_ne hframe]
      rcases eq_or_ne w v with rfl | hne
      · rw [Function.update_self] at hw
        exact absurd (congrArg (· / 0x1000) (Option.some.inj hw).symm) hframe
      · rw [Function.update_of_ne hne] at hw
        exact s.used_of_page hw
  inj := by
    -- the frame was free, so no page was in it
    have hfree : ∀ {w}, s.pages w ≠ some phys := fun hw => by
      have hused := s.used_of_page hw
      rw [h.1] at hused
      exact Bool.false_ne_true hused
    intro w w' f hw hw'
    rcases eq_or_ne w v with rfl | hne
    · rw [Function.update_self] at hw
      obtain rfl := Option.some.inj hw
      by_contra hne'
      rw [Function.update_of_ne (Ne.symm hne')] at hw'
      exact hfree hw'
    · rw [Function.update_of_ne hne] at hw
      rcases eq_or_ne w' v with rfl | hne'
      · rw [Function.update_self] at hw'
        obtain rfl := Option.some.inj hw'
        exact absurd hw hfree
      · rw [Function.update_of_ne hne'] at hw'
        exact s.inj hw hw'

/-- `map_page_kmalloc`, for the frame at `phys`, which is free. -/
def mapPage (virt phys : ℕ) (h : s.used (phys / 0x1000) = false ∧ phys % 0x1000 = 0) : UserSpace :=
  if s.pages (pageOf virt) = none then s.addPage (pageOf virt) phys h else s

/-- `map_page_kmalloc`, for the frame that `first_free_page_addr` finds. There is no result for
an address that is not in the user half. -/
def mapNext (src : FrameSource) (virt : ℕ) : Option UserSpace :=
  if UserByte virt then
    (src.next s.used).pmap (s.mapPage virt) fun _ h => ⟨src.clear h, src.aligned h⟩
  else none

end Pages

/-! ### Bytes -/

section Bytes

variable (s : UserSpace)

/-- Where a byte is. -/
def frameOf (a : ℕ) : Option ℕ := if UserByte a then s.pages (pageOf a) else none

/-- The byte at an address. -/
def read (a : ℕ) : Option UInt8 := (s.frameOf a).map fun f => s.ram (f + a % 0x1000)

/-- The pages, with other bytes in them. -/
def setRam (ram : Mem) : UserSpace := { s with ram := ram }

/-- A byte is written. There is no result if there is no page. -/
def put (a : ℕ) (b : UInt8) : Option UserSpace :=
  (s.frameOf a).map fun f => s.setRam (Function.update s.ram (f + a % 0x1000) b)

/-- Bytes are written, in order. -/
def write : UserSpace → ℕ → List UInt8 → Option UserSpace
  | s, _, [] => some s
  | s, a, b :: l => (s.put a b).bind fun s => write s (a + 1) l

end Bytes

variable {s s' : UserSpace} {src : FrameSource} {virt v a b c f : ℕ} {x : UInt8} {l : List UInt8}

/-! ### What mapping does -/

theorem userAddr_of_userByte (h : UserByte a) : UserAddr a := by
  have hvirt : virtMemOffset = 2 ^ 64 - 2 ^ 39 := by decide
  rw [UserAddr, pml4Index_eq]
  rcases h with h | h <;> omega

/-- Addresses of one page. -/
theorem eq_of_pageOf (ha : UserByte a) (hb : UserByte b) (hpage : pageOf a = pageOf b)
    (hoff : a % 0x1000 = b % 0x1000) : a = b := by
  have hvirt : virtMemOffset = 2 ^ 64 - 2 ^ 39 := by decide
  rw [pageOf, pageOf] at hpage
  rw [UserByte, hvirt] at ha hb
  omega

theorem mapNext_eq_some_iff : s.mapNext src virt = some s' ↔ UserByte virt ∧ ∃ phys, ∃ h,
    src.next s.used = some phys ∧ s' = s.mapPage virt phys h := by
  rw [mapNext, Option.ite_none_right_eq_some, Option.pmap_eq_some_iff]

section MapPage

variable {phys : ℕ} (h : s.used (phys / 0x1000) = false ∧ phys % 0x1000 = 0)
include h

theorem mapPage_pages : (s.mapPage virt phys h).pages = if s.pages (pageOf virt) = none then
    Function.update s.pages (pageOf virt) (some phys) else s.pages := by
  rw [mapPage]
  split_ifs <;> rfl

theorem mapPage_used : (s.mapPage virt phys h).used = if s.pages (pageOf virt) = none then
    Function.update s.used (phys / 0x1000) true else s.used := by
  rw [mapPage]
  split_ifs <;> rfl

theorem mapPage_ram : (s.mapPage virt phys h).ram = s.ram := by
  rw [mapPage]
  split_ifs <;> rfl

end MapPage

/-- **What `map_page_kmalloc` does**: the page is mapped afterwards, what was mapped still is,
where it was, and no byte is written. -/
structure Maps (s : UserSpace) (v : ℕ) (s' : UserSpace) : Prop where
  mapped : s'.pages v ≠ none
  kept : ∀ w, w ≠ v ∨ s.pages w ≠ none → s'.pages w = s.pages w
  ram : s'.ram = s.ram

theorem maps_of_mapNext (h : s.mapNext src virt = some s') : s.Maps (pageOf virt) s' := by
  obtain ⟨-, phys, hfree, -, rfl⟩ := mapNext_eq_some_iff.mp h
  refine ⟨?_, fun w hw => ?_, mapPage_ram hfree⟩
  · rw [mapPage_pages]
    split_ifs with hnone
    · rw [Function.update_self]
      exact Option.some_ne_none phys
    · exact hnone
  · rw [mapPage_pages]
    split_ifs with hnone
    · exact Function.update_of_ne (hw.elim id fun hw hc => hw (hc ▸ hnone)) _ _
    · rfl

theorem Maps.read_of_mapped (h : s.Maps v s') (ha : pageOf a ≠ v ∨ s.pages (pageOf a) ≠ none) :
    s'.read a = s.read a := by
  rw [read, read, frameOf, frameOf, h.kept _ ha, h.ram]

/-- A byte that could be read still can be. -/
theorem Maps.read_of_some (h : s.Maps v s') (ha : s.read a = some x) : s'.read a = some x := by
  rw [h.read_of_mapped (Or.inr fun hnone => ?_), ha]
  rw [read, frameOf, hnone, ite_self] at ha
  cases ha

/-! ### What writing does -/

theorem put_isSome_iff : (s.put a x).isSome ↔ (s.frameOf a).isSome := by
  rw [put, Option.isSome_map]

/-- **A write changes one byte.** -/
structure Puts (s : UserSpace) (a : ℕ) (x : UInt8) (s' : UserSpace) : Prop where
  pages : s'.pages = s.pages
  used : s'.used = s.used
  read_self : s'.read a = some x
  read_of_ne : ∀ b, b ≠ a → s'.read b = s.read b

theorem read_setRam (s : UserSpace) (ram : Mem) (a : ℕ) :
    (s.setRam ram).read a = (s.frameOf a).map fun f => ram (f + a % 0x1000) := rfl

theorem frameOf_congr (h : s'.pages = s.pages) : s'.frameOf a = s.frameOf a := by
  rw [frameOf, frameOf, h]

theorem puts_of_put (h : s.put a x = some s') : s.Puts a x s' := by
  obtain ⟨f, hf, rfl⟩ := Option.map_eq_some_iff.mp h
  refine ⟨rfl, rfl, ?_, fun b hb => ?_⟩
  · rw [read_setRam, hf, Option.map_some, Function.update_self]
  · rw [read_setRam, read]
    cases hg : s.frameOf b with
    | none => rfl
    | some g =>
      refine congrArg some (Function.update_of_ne (fun heq => hb ?_) _ _)
      -- bytes in one place are in one frame, so in one page
      obtain ⟨hua, hpa⟩ := Option.ite_none_right_eq_some.mp hf
      obtain ⟨hub, hpb⟩ := Option.ite_none_right_eq_some.mp hg
      have hfa := s.aligned hpa
      have hgb := s.aligned hpb
      obtain rfl : g = f := by omega
      exact eq_of_pageOf hub hua (s.inj hpb hpa) (Nat.add_left_cancel heq)

/-- **Bytes are written**, and no others change. -/
structure Writes (s : UserSpace) (a : ℕ) (l : List UInt8) (s' : UserSpace) : Prop where
  pages : s'.pages = s.pages
  used : s'.used = s.used
  read_mem : ∀ i, ∀ h : i < l.length, s'.read (a + i) = some l[i]
  read_of_notMem : ∀ b, b < a ∨ a + l.length ≤ b → s'.read b = s.read b

theorem writes_of_write (h : s.write a l = some s') : s.Writes a l s' := by
  induction l generalizing s a with
  | nil =>
    obtain rfl := Option.some.inj h
    exact ⟨rfl, rfl, fun i hi => absurd hi (Nat.not_lt_zero i), fun _ _ => rfl⟩
  | cons x l ih =>
    obtain ⟨t, ht, hs⟩ := Option.bind_eq_some_iff.mp h
    have hput := puts_of_put ht
    have hrest := ih hs
    refine ⟨hrest.pages.trans hput.pages, hrest.used.trans hput.used,
      fun i hi => ?_, fun b hb => ?_⟩
    · cases i with
      | zero => exact (hrest.read_of_notMem a (Or.inl (Nat.lt_succ_self a))).trans hput.read_self
      | succ i =>
        have hread := hrest.read_mem i (Nat.lt_of_succ_lt_succ hi)
        rwa [add_assoc, add_comm 1 i] at hread
    · rw [List.length_cons] at hb
      exact (hrest.read_of_notMem b (by omega)).trans (hput.read_of_ne b (by omega))

theorem write_isSome_iff :
    (s.write a l).isSome ↔ ∀ i < l.length, (s.frameOf (a + i)).isSome := by
  induction l generalizing s a with
  | nil => simp [write]
  | cons x l ih =>
    rw [write]
    cases hput : s.put a x with
    | none =>
      refine iff_of_false Bool.false_ne_true fun h => ?_
      have hsome : (s.put a x).isSome := put_isSome_iff.mpr (h 0 (Nat.succ_pos l.length))
      rw [hput] at hsome
      exact Bool.false_ne_true hsome
    | some t =>
      have hfirst := put_isSome_iff.mp (hput ▸ rfl : (s.put a x).isSome)
      have hpages := (puts_of_put hput).pages
      rw [Option.bind_some, ih]
      constructor
      · intro h i hi
        cases i with
        | zero => exact hfirst
        | succ i =>
          have hi' := h i (Nat.lt_of_succ_lt_succ hi)
          rwa [add_assoc, add_comm 1 i, frameOf_congr hpages] at hi'
      · intro h i hi
        rw [add_assoc, add_comm 1 i, frameOf_congr hpages]
        exact h (i + 1) (Nat.succ_lt_succ hi)

/-! ### Frames -/

/-- `first_free_page_addr` finds a frame for each page; the frame is taken if the page is not
there. -/
def FramesFor (src : FrameSource) : List ℕ → (ℕ → Option ℕ) → (ℕ → Bool) → Prop
  | [], _, _ => True
  | virt :: l, pages, used => ∃ phys, src.next used = some phys ∧
      if pages (pageOf virt) = none then
        FramesFor src l (Function.update pages (pageOf virt) (some phys))
          (Function.update used (phys / 0x1000) true)
      else FramesFor src l pages used

theorem framesFor_cons_iff {l : List ℕ} (hvirt : UserByte virt) :
    FramesFor src (virt :: l) s.pages s.used ↔
      ∃ t, s.mapNext src virt = some t ∧ FramesFor src l t.pages t.used := by
  rw [FramesFor]
  constructor
  · rintro ⟨phys, hphys, hrest⟩
    have hfree := And.intro (src.clear hphys) (src.aligned hphys)
    refine ⟨_, mapNext_eq_some_iff.mpr ⟨hvirt, phys, hfree, hphys, rfl⟩, ?_⟩
    rw [mapPage_pages, mapPage_used]
    split_ifs at hrest ⊢ <;> exact hrest
  · rintro ⟨t, ht, hrest⟩
    obtain ⟨-, phys, hfree, hphys, rfl⟩ := mapNext_eq_some_iff.mp ht
    refine ⟨phys, hphys, ?_⟩
    rw [mapPage_pages, mapPage_used] at hrest
    split_ifs at hrest ⊢ <;> exact hrest

/-! ### The page tables -/

/-- **The page tables do what the model does**: with an allocator that returns fresh tables,
`map_page_kmalloc` returns, and leaves the pages of `mapNext`. -/
theorem mapNext_refines {alloc : Machine → ℕ → Option (ℕ × ℕ × Machine)} {root : ℕ} {m : Machine}
    (href : Refines root m s.pages) (hbitmap : m.bitmap = some s.used)
    (hfresh : FreshTables alloc root) (h : s.mapNext src virt = some s') :
    ∃ phys ok m', src.next s.used = some phys ∧
      mapPageKmalloc alloc m virt phys false true root = some (ok, m') ∧
      Refines root m' s'.pages := by
  obtain ⟨hvirt, phys, hfree, hnext, rfl⟩ := mapNext_eq_some_iff.mp h
  have hallowed : (PageCall.map virt phys false true).Allowed m :=
    ⟨userAddr_of_userByte hvirt, hfree.2, src.lt hnext, s.used, hbitmap, hfree.1⟩
  obtain ⟨ok, m', hmap, ⟨-, hnone, href', -⟩ | ⟨-, hsome, rfl⟩⟩ := href.map hfresh hallowed
  · exact ⟨phys, ok, m', hnext, hmap, by rwa [mapPage_pages, if_pos hnone]⟩
  · exact ⟨phys, ok, m', hnext, hmap, by rwa [mapPage_pages, if_neg hsome]⟩

end UserSpace

/-- No pages. -/
def UserSpace.bare : UserSpace where
  pages := fun _ => none
  ram := fun _ => 0
  used := fun _ => false
  aligned := fun h => absurd h.symm (Option.some_ne_none _)
  used_of_page := fun h => absurd h.symm (Option.some_ne_none _)
  inj := fun h => absurd h.symm (Option.some_ne_none _)

/-- Two free frames. -/
def twoFrames : FrameSource where
  next b := if b 1 = false then some 0x1000 else if b 2 = false then some 0x2000 else none
  clear := by
    intro b phys h
    split_ifs at h with h1 h2
    · obtain rfl := Option.some.inj h
      exact h1
    · obtain rfl := Option.some.inj h
      exact h2
  aligned := by
    intro b phys h
    split_ifs at h <;> obtain rfl := Option.some.inj h <;> rfl
  lt := by
    intro b phys h
    split_ifs at h <;> obtain rfl := Option.some.inj h <;> decide

end Xana
