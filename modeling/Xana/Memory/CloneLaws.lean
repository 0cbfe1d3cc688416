import Xana.Memory.HeapLaws
import Xana.Memory.Release

/-!
# What holds of a copy

`clone_page_directory` returns a copy of an address space (`CloneLaws`), and
`free_page_directory` gives back what the copy took (`cloneLaws_of_clone`). What is left is
the beginning of the call, where the new directory is allocated, and its end, where slot 511
of the PML4 is shared.
-/

namespace Xana

open Forest

/-- **The laws of a copy**, which `clone_page_directory` makes of `directory` at `new` between
`m` and `m'`. -/
structure CloneLaws (m : Machine) (directory new : ℕ) (m' : Machine) : Prop where
  /-- The same pages. -/
  page : ∀ v, UserAddr v → (m'.entry new v ≠ 0 ↔ m.entry directory v ≠ 0)
  flags : ∀ v, UserAddr v → m'.entry new v &&& 0xFFF = m.entry directory v &&& 0xFFF
  bytes : ∀ v, UserAddr v → m.entry directory v ≠ 0 → ∀ k < 0x1000,
    m'.ram (frameAddr (m'.entry new v) + k) = m.ram (frameAddr (m.entry directory v) + k)
  /-- They are on frames that were not marked, and are now. -/
  clear : ∀ v, UserAddr v → m'.entry new v ≠ 0 → m.frameUsed (frameAddr (m'.entry new v)) = false
  marked : ∀ v, UserAddr v → m'.entry new v ≠ 0 → m'.frameUsed (frameAddr (m'.entry new v)) = true
  distinct : ∀ v v', UserAddr v → UserAddr v' → m'.entry new v ≠ 0 → m'.entry new v' ≠ 0 →
    frameAddr (m'.entry new v) = frameAddr (m'.entry new v') → pageOf v = pageOf v'
  /-- Slot 511 is shared. -/
  kernel : (m'.dirs new).virt 511 = (m.dirs directory).virt 511 ∧
    (m'.dirs new).entries 511 = (m.dirs directory).entries 511 ∧
    (m'.dirs new).isFull 511 = (m.dirs directory).isFull 511
  /-- The tables and pages of `directory` are as they were. -/
  tables : KeptTables (UserKey directory) m m'
  ram : ∀ v, UserAddr v → m.entry directory v ≠ 0 → ∀ k < 0x1000,
    m'.ram (frameAddr (m.entry directory v) + k) = m.ram (frameAddr (m.entry directory v) + k)

/-- The frame `f` is that of a page by which the heap has grown. -/
def HeapFrame (m m' : Machine) (f : ℕ) : Prop :=
  ∃ v, m.kheapEnd < v ∧ v ≤ m'.kheapEnd ∧ m'.entry m.kernelPml4 v ≠ 0 ∧
    frameAddr (m'.entry m.kernelPml4 v) / 0x1000 = f / 0x1000

/-- **What `free_page_directory` does to a copy** that has just been made. -/
structure FreeLaws (m : Machine) (new : ℕ) (m' m'' : Machine) : Prop where
  /-- It clears the bits of the copy's frames, and no others. -/
  bits : ∀ f, m''.frameUsed f = true ↔ m'.frameUsed f = true ∧ ¬∃ v, UserAddr v ∧
    m'.entry new v ≠ 0 ∧ frameAddr (m'.entry new v) / 0x1000 = f / 0x1000
  /-- The bitmap is the one before the copy, apart from growth of the heap. -/
  before : ∀ f, m''.frameUsed f = true ↔ m.frameUsed f = true ∨ HeapFrame m m' f

section Clone

variable {m m' x : Machine} {directory c n : ℕ} {roots : List ℕ} {l : List Block}
  {src : FrameSource}

/-- **The beginning of the call.** -/
theorem cloneInv_init (directory : ℕ) (hheap : HeapInv m l) (hkernel : KernelInv m m.live roots)
    (hbitmap : m.bitmap.isSome) (hwrap : x.kheapEnd + 0xFFF + pageDirectorySize < 2 ^ 64)
    (hcall : kmallocA src n m pageDirectorySize = some (c, x)) (phys : ℕ) :
    CloneInv m directory c roots ((x.clearDir c).setPhysAddr c phys) ∧
      ∀ i, ((x.clearDir c).setPhysAddr c phys).kid c i = none := by
  obtain ⟨-, -, ⟨l₁, hheap₁⟩, -⟩ := hheap.kmallocInt hwrap hcall
  obtain ⟨⟨L, hlive, hsub, hkern₁⟩, hgrow⟩ := hheap.kmallocInt_grows hkernel hwrap hcall
  have hfresh := hheap₁.fresh hlive (by simp [pageDirectorySize])
  obtain ⟨hsame₁, hp₁, -, -, -⟩ := hgrow.same
  -- only the directory `c` has been written, and it is empty
  obtain ⟨x', hx'⟩ : ∃ x', (x.clearDir c).setPhysAddr c phys = x' := ⟨_, rfl⟩
  have hdirs : ∀ a, a ≠ c → x'.dirs a = x.dirs a := by
    intro a ha
    simp [← hx', Machine.clearDir, Machine.setPhysAddr, ha]
  have hzero : ∀ i, (x'.dirs c).virt i = 0 := by
    intro i
    simp [← hx', Machine.clearDir, Machine.setPhysAddr, PageDirectory.zero]
  have hrest : x' = { x with dirs := x'.dirs } := by rw [← hx']; rfl
  obtain ⟨hkern, hsame₂, hkentry⟩ := hkern₁.insertRoot hfresh hdirs hzero hrest
  have hlive' : x'.live = ⟨c, pageDirectorySize, true⟩ :: L := by
    rw [hrest]
    exact hlive
  have hkid : ∀ i, x'.kid c i = none := fun i => pointer_eq_none.mpr (hzero i)
  have hcopies : Copies m directory none x := by
    have hmod := hheap.end_mod
    exact (copies_refl hbitmap (by omega)).growth (fun r hr => absurd hr (by simp)) hgrow
  have huser : ∀ v, x'.entry c v = 0 := by
    intro v
    refine entry_of_none ?_
    rw [slots, walk_cons, hkid]
    rfl
  rw [hx']
  refine ⟨⟨⟨l₁, ?_⟩, ?_, ?_, ?_, ?_, ?_, ?_⟩, hkid⟩
  · refine hheap₁.congr ?_
    rw [hrest]
    exact ⟨rfl, rfl, rfl, rfl, rfl⟩
  · rw [hlive']
    exact hkern
  · rw [← hp₁]
    exact (hkern₁.kernelPml4_ne hfresh).symm
  · intro hmem
    exact hkern₁.tree.ne_of_fresh hfresh c [] ⟨Or.inr ⟨hmem, by simp⟩, by simp⟩ rfl
  · exact hsame₁.trans hp₁ hsame₂
  · intro q t _ hw
    cases q with
    | nil =>
      obtain rfl := Option.some.inj hw
      rw [hlive']
      exact List.mem_cons_self
    | cons i q =>
      rw [walk_cons, hkid] at hw
      exact absurd hw (by simp)
  · -- no entry has been added
    have hend : x'.kheapEnd = x.kheapEnd := by rw [hrest]
    have hb : x'.bitmap = x.bitmap := by rw [hrest]
    have hram : x'.ram = x.ram := by rw [hrest]
    have hke : ∀ v, x'.entry m.kernelPml4 v = x.entry m.kernelPml4 v := by
      rw [← hp₁]
      exact hkentry
    have hleaf : ∀ {r v}, NewLeaf m (some c) x'.kheapEnd r v → x'.entry r v ≠ 0 →
        NewLeaf m none x.kheapEnd r v ∧ x'.entry r v = x.entry r v := by
      rintro r v (⟨hr, -⟩ | ⟨rfl, hlt, hle⟩) hne
      · obtain rfl : c = r := by simpa using hr
        exact absurd (huser v) hne
      · exact ⟨Or.inr ⟨rfl, hlt, by rwa [← hend]⟩, hke v⟩
    have hused : ∀ f, x'.frameUsed f = x.frameUsed f := fun f => Machine.frameUsed_congr hb
    refine ⟨⟨?_, by rw [hb]; exact hcopies.frames.bitmap, ?_, ?_, ?_⟩, ?_, ?_, ?_, ?_, ?_, ?_, ?_⟩
    · exact hcopies.frames.frames.congr (fun f hf => by rwa [hused]) hleaf
    · intro f hf
      rw [hused]
      exact hcopies.frames.marked f hf
    · intro r v hl hne
      obtain ⟨hl', he⟩ := hleaf hl hne
      rw [he] at hne ⊢
      exact hcopies.frames.clear hl' hne
    · intro f hf
      rw [hused] at hf
      refine (hcopies.frames.only f hf).imp id ?_
      rintro ⟨r, v, hl | ⟨rfl, hlt, hle⟩, hne, heq⟩
      · exact absurd hl.1 (by simp)
      · refine ⟨_, v, Or.inr ⟨rfl, hlt, by rwa [hend]⟩, by rwa [hke], by rwa [hke]⟩
    · intro v hlt hle
      rw [hke]
      exact hcopies.heap v hlt (by rwa [← hend])
    · intro v h511 hne
      rw [hke]
      exact hcopies.kernel v h511 hne
    · rw [hram]
      exact hcopies.ram
    · intro r hr v _ hne
      obtain rfl : c = r := by simpa using hr
      exact absurd (huser v) hne
    · rw [hrest]
      exact hcopies.kernelPml4
    · rw [hend]
      exact hcopies.kheapEnd_le
    · rw [hend]
      exact hcopies.end_mod

/-- **The end of the call**: slot 511 of the new directory is set. -/
theorem CloneInv.setKernelSlot (h : CloneInv m directory c roots x) (v e : ℕ) (f : Bool) :
    CloneInv m directory c roots (((x.setVirt c 511 v).setEntry c 511 e).setFull c 511 f) ∧
      (∀ a, a ≠ c → (((x.setVirt c 511 v).setEntry c 511 e).setFull c 511 f).dirs a = x.dirs a) ∧
      ∀ v', UserAddr v' →
        (((x.setVirt c 511 v).setEntry c 511 e).setFull c 511 f).entry c v' = x.entry c v' := by
  obtain ⟨x', hx'⟩ : ∃ x', ((x.setVirt c 511 v).setEntry c 511 e).setFull c 511 f = x' := ⟨_, rfl⟩
  rw [hx']
  have hp := h.copies.kernelPml4
  have hc : c ∈ c :: roots := List.mem_cons_self
  have hrest : x' = { x with dirs := x'.dirs } := by rw [← hx']; rfl
  have htabs : x'.tabs = x.tabs := by rw [hrest]
  have hdirs : ∀ a, a ≠ c → x'.dirs a = x.dirs a := by
    intro a ha
    simp [← hx', Machine.setVirt, Machine.setEntry, Machine.setFull, ha]
  have hkid : ∀ {a j}, ¬(a = c ∧ j = 511) → x'.kid a j = x.kid a j := by
    intro a j haj
    rw [← hx', Machine.kid_setFull, Machine.kid_setEntry, Machine.kid_setVirt, if_neg haj]
  have hwalk :
      ∀ r q, SpaceKey x.kernelPml4 (c :: roots) r q → walk x'.kid r q = walk x.kid r q := by
    intro r q hq
    refine walk_congr SpaceKey.init (fun q i d hqi hw => hkid ?_) hq
    rintro ⟨hdc, rfl⟩
    rw [hdc] at hw
    -- the root of the copy is behind no other path, and slot 511 is in no path of it
    have hroot : SpaceKey x.kernelPml4 (c :: roots) c [] := ⟨Or.inr ⟨hc, by simp⟩, by simp⟩
    obtain ⟨rfl, rfl⟩ := h.kernel.tree.inj hqi.init hroot hw rfl
    rcases hqi.1 with hk | hk
    · exact h.ne_kernel (hk.trans hp)
    · exact absurd (hk.2 511 rfl) (by omega)
  have hentry : ∀ {r v}, SpaceKey x.kernelPml4 (c :: roots) r (slots v) →
      x'.entry r v = x.entry r v := by
    intro r v hv
    rw [Machine.entry, Machine.entry, hwalk r _ hv, htabs]
  have huser : ∀ v, UserAddr v → x'.entry c v = x.entry c v := fun v hv =>
    hentry (userHalf_slots (Or.inr hc) hv).1
  have hlive : x'.live = x.live := by rw [hrest]
  refine ⟨⟨?_, ?_, h.ne_kernel, h.notMem, ?_, ?_, ?_⟩, hdirs, huser⟩
  · obtain ⟨l, hheap⟩ := h.heap
    refine ⟨l, hheap.congr ?_⟩
    rw [hrest]
    exact ⟨rfl, rfl, rfl, rfl, rfl⟩
  · rw [hlive]
    refine h.kernel.congr_walk hwalk ?_ ?_ ?_
    · rw [hrest]
      rfl
    · rw [hrest]
    · rw [hrest]
  · refine h.same.trans hp ?_
    intro r q t hq hw
    rw [htabs]
    refine ⟨fun _ => hdirs t ?_, fun _ => rfl⟩
    rintro rfl
    have hroot : SpaceKey x.kernelPml4 (t :: roots) t [] := ⟨Or.inr ⟨hc, by simp⟩, by simp⟩
    obtain ⟨rfl, -⟩ := h.kernel.tree.inj hq.insert.1 hroot hw rfl
    rcases hq.1.1 with hk | hk
    · exact h.ne_kernel (hk.trans hp)
    · exact h.notMem hk.1
  · intro q t hq hw
    rw [hwalk _ _ (hq.userHalf (Or.inr hc)).1] at hw
    rw [hlive]
    exact h.tables hq hw
  · refine h.copies.congr ?_ ?_ ?_ ?_ ?_ ?_
    · intro r hr v hv
      obtain rfl : c = r := by simpa using hr
      exact huser v hv
    · intro v _
      rw [← hp]
      exact hentry (spaceKey_kernel _ _ (by simp [slots]))
    all_goals rw [hrest]

/-- The heap may grow during a call. -/
theorem grown_clonePageDirectory (hk : m.kheap ≠ 0)
    (hclone : clonePageDirectory src (kmallocA src n) directory m = some (c, m')) : Grown m m' := by
  simp only [clonePageDirectory, Option.bind_eq_bind, Option.bind_eq_some_iff, Option.pure_def,
    Option.some.injEq, Prod.mk.injEq] at hclone
  obtain ⟨⟨c', x₁⟩, hcall, x₃, hloop, rfl, rfl⟩ := hclone
  simp only at hcall hloop
  have hg₁ : Grown m x₁ := grown_kmallocInt hk hcall
  have hg₃ := growsHeap_forSlots (growsHeap_cloneSlot sameHeap_clearDir growsHeap_clonePdpt
    directory c') _ x₃ hloop (by rw [← hg₁.kheap] at hk; exact hk)
  exact hg₁.trans ⟨hg₃.kheap, hg₃.kernelPml4, hg₃.kheapEnd, hg₃.live⟩

/-- **`clone_page_directory`.** -/
theorem cloneInv_of_clone (hheap : HeapInv m l) (hkernel : KernelInv m m.live roots)
    (hbitmap : m.bitmap.isSome) (hdirectory : directory = m.kernelPml4 ∨ directory ∈ roots)
    (hpages : UserPages m directory) (hwrap : m'.kheapEnd + 0xFFF + pageDirectorySize < 2 ^ 64)
    (hclone : clonePageDirectory src (kmallocA src n) directory m = some (c, m')) :
    CloneInv m directory c roots m' ∧
      (∀ v, UserAddr v → m.entry directory v ≠ 0 → m'.entry c v ≠ 0) ∧
      (m'.dirs c).virt 511 = (m.dirs directory).virt 511 ∧
      (m'.dirs c).entries 511 = (m.dirs directory).entries 511 ∧
      (m'.dirs c).isFull 511 = (m.dirs directory).isFull 511 := by
  simp only [clonePageDirectory, Option.bind_eq_bind, Option.bind_eq_some_iff, Option.pure_def,
    Option.some.injEq] at hclone
  obtain ⟨⟨c', x₁⟩, hcall, x₃, hloop, hres⟩ := hclone
  obtain ⟨rfl, hm'⟩ := Prod.mk.inj hres
  simp only at hcall hloop hm'
  have hg₁ : Grown m x₁ := grown_kmallocInt hheap.kheap_pos.ne' hcall
  obtain ⟨x₂, hx₂⟩ : ∃ x₂, (x₁.clearDir c').setPhysAddr c'
      (virtToPhys (x₁.clearDir c') c' (x₁.clearDir c').kernelPml4) = x₂ := ⟨_, rfl⟩
  rw [hx₂] at hloop
  have hg₂ : Grown x₁ x₂ := by
    rw [← hx₂]
    exact ⟨rfl, rfl, ⟨0, rfl⟩, fun _ hu => hu⟩
  have hg₃ : Grown x₂ x₃ := by
    refine growsHeap_forSlots
      (growsHeap_cloneSlot sameHeap_clearDir growsHeap_clonePdpt directory c')
      x₂ x₃ hloop ?_
    rw [hg₂.kheap, hg₁.kheap]
    exact hheap.kheap_pos.ne'
  have hend : m'.kheapEnd = x₃.kheapEnd := by rw [← hm']; rfl
  have hle₂ := hg₂.le
  have hle₃ := hg₃.le
  obtain ⟨hinv₂, hempty⟩ :=
    cloneInv_init directory hheap hkernel hbitmap (by omega) hcall
      (virtToPhys (x₁.clearDir c') c' (x₁.clearDir c').kernelPml4)
  rw [hx₂] at hinv₂ hempty
  have hnil : UserPath [] := ⟨by simp, by simp, by simp⟩
  -- the loop copies the user half, and slot 511 is taken over after it
  have hcopied : Copied m directory c' roots [] x₂ x₃ :=
    copiesTable_user (s := n) hpages hdirectory [] directory c' x₂ x₃ rfl hnil rfl rfl hinv₂
      (fun _ => hempty) (by omega) (by omega) hloop
  have hne : directory ≠ c' := by
    rintro rfl
    rcases hdirectory with hk | hk
    · exact hinv₂.ne_kernel hk
    · exact hinv₂.notMem hk
  have hsame : x₃.dirs directory = m.dirs directory := by
    refine (hcopied.inv.same directory [] directory (hnil.userHalf hdirectory) rfl).1 ?_
    simp
  obtain ⟨hinv', -, hentry⟩ := hcopied.inv.setKernelSlot ((m.dirs directory).virt 511)
    ((m.dirs directory).entries 511) ((m.dirs directory).isFull 511)
  have hdirs : ∀ v, (x₃.setVirt c' 511 v).dirs directory = x₃.dirs directory := fun v =>
    Function.update_of_ne hne _ _
  have hdirs' :
      ∀ v e, ((x₃.setVirt c' 511 v).setEntry c' 511 e).dirs directory = x₃.dirs directory :=
    fun v e => (Function.update_of_ne hne _ _).trans (hdirs v)
  rw [hdirs', hdirs, hsame] at hm'
  rw [hm'] at hinv' hentry
  refine ⟨hinv', ?_, ?_, ?_, ?_⟩
  · intro v hv hne
    rw [hentry v hv]
    exact hcopied.pages v hv List.nil_prefix hne
  all_goals
    rw [← hm']
    simp [Machine.setVirt, Machine.setEntry, Machine.setFull]

/-- An entry of the copy is that of a page of its own. -/
theorem CloneInv.exists_page (h : CloneInv m directory c roots m') {v : ℕ} (hv : UserAddr v)
    (hne : m'.entry c v ≠ 0) : PageCopy m m' (m.entry directory v) (m'.entry c v) :=
  h.copies.page c rfl v hv hne

/-- **The laws of a copy follow from the invariant.** -/
theorem CloneInv.laws (h : CloneInv m directory c roots m') (hpages : UserPages m directory)
    (hdirectory : directory = m.kernelPml4 ∨ directory ∈ roots)
    (hall : ∀ v, UserAddr v → m.entry directory v ≠ 0 → m'.entry c v ≠ 0)
    (hkernel : (m'.dirs c).virt 511 = (m.dirs directory).virt 511 ∧
      (m'.dirs c).entries 511 = (m.dirs directory).entries 511 ∧
      (m'.dirs c).isFull 511 = (m.dirs directory).isFull 511) : CloneLaws m directory c m' where
  page := fun v hv => ⟨fun hne => (h.exists_page hv hne).ne, hall v hv⟩
  flags := by
    intro v hv
    by_cases hne : m.entry directory v = 0
    · have hc : m'.entry c v = 0 := by
        by_contra hc
        exact (h.exists_page hv hc).ne hne
      rw [hne, hc]
    · exact (h.exists_page hv (hall v hv hne)).flags
  bytes := fun v hv hne => (h.exists_page hv (hall v hv hne)).bytes
  clear := fun v hv hne => h.copies.frames.clear (Or.inl ⟨rfl, hv⟩) hne
  marked := fun v hv hne => h.copies.frames.frames.used (Or.inl ⟨rfl, hv⟩) hne
  distinct := by
    intro v v' hv hv' hne hne' heq
    exact (h.copies.frames.frames.inj (Or.inl ⟨rfl, hv⟩) (Or.inl ⟨rfl, hv'⟩) hne hne' heq).2
  kernel := hkernel
  tables := by
    refine h.same.mono ?_
    rintro r q ⟨rfl, hlen, hhead⟩
    refine ⟨⟨hdirectory.imp id fun hmem => ⟨hmem, hhead⟩, hlen⟩, fun hc => ?_⟩
    exact absurd (hhead 511 hc) (by omega)
  ram := by
    intro v hv hne k hk
    have hmod := frameAddr_mod (m.entry directory v)
    refine h.copies.ram _ ?_
    rw [frameUsed_of_div (f := frameAddr (m.entry directory v)) (by omega)]
    exact hpages.used v hv hne

/-- **What is given back.** -/
theorem CloneInv.freeLaws (h : CloneInv m directory c roots m')
    {kfreeA : Machine → ℕ → Option Machine} (hfree : Frees kfreeA) :
    ∃ m'', freePageDirectory kfreeA c m' = some m'' ∧ FreeLaws m c m' m'' := by
  have hown : OwnTables c roots m' := ⟨h.kernel.tree, h.tables⟩
  obtain ⟨m'', hm'', hrel⟩ := hown.freePageDirectory hfree
  have hbits : ∀ f, m''.frameUsed f = true ↔ m'.frameUsed f = true ∧ ¬∃ v, UserAddr v ∧
      m'.entry c v ≠ 0 ∧ frameAddr (m'.entry c v) / 0x1000 = f / 0x1000 := by
    intro f
    rw [hrel.bits f h.copies.frames.bitmap]
    simp [FrameBehind]
  refine ⟨m'', hm'', hbits, fun f => ?_⟩
  rw [hbits]
  constructor
  · rintro ⟨hused, hnot⟩
    refine (h.copies.frames.only f hused).imp id ?_
    rintro ⟨r, v, ⟨hr, hv⟩ | ⟨rfl, hlt, hle⟩, hne, heq⟩
    · obtain rfl : c = r := by simpa using hr
      exact absurd ⟨v, hv, hne, heq⟩ hnot
    · exact ⟨v, hlt, hle, hne, heq⟩
  · rintro (hused | ⟨v, hlt, hle, hne, heq⟩)
    · refine ⟨h.copies.frames.marked f hused, ?_⟩
      rintro ⟨v, hv, hne, heq⟩
      have hclear := h.copies.frames.clear (Or.inl ⟨rfl, hv⟩) hne
      rw [frameUsed_of_div heq, hused] at hclear
      exact absurd hclear (by simp)
    · have hleaf : NewLeaf m (some c) m'.kheapEnd m.kernelPml4 v := Or.inr ⟨rfl, hlt, hle⟩
      refine ⟨?_, ?_⟩
      · rw [← frameUsed_of_div heq]
        exact h.copies.frames.frames.used hleaf hne
      · rintro ⟨v', hv', hne', heq'⟩
        have hframe : frameAddr (m'.entry c v') = frameAddr (m'.entry m.kernelPml4 v) := by
          have h₁ := frameAddr_mod (m'.entry c v')
          have h₂ := frameAddr_mod (m'.entry m.kernelPml4 v)
          omega
        exact h.ne_kernel (h.copies.frames.frames.inj (Or.inl ⟨rfl, hv'⟩) hleaf hne' hne hframe).1

end Clone

/-! ### A machine with an address space -/

section Copy

/-- Where the heap of `copyMachine` begins. -/
def copyHeap : ℕ := 0xFFFFFF8040000000

/-- A machine with one free block of 2 MiB, and an address space at `0x10000` whose user half
is empty. -/
def copyMachine : Machine where
  mem := setLength (setMagic (setFree (fun _ => 0) copyHeap true) copyHeap heapMagic)
    copyHeap 0x1FFFE2
  ram := fun _ => 0
  kheap := copyHeap
  kheapEnd := 0xFFFFFF80401FFFFF
  live := []
  dirs := fun d => if d = 0x1000 then { PageDirectory.zero with virt := fun i =>
    if i = 511 then 0x4000 else 0 } else PageDirectory.zero
  tabs := fun _ _ => 0
  kernelPml4 := 0x1000
  preallocPdpt := 0
  preallocPd := 0
  preallocPt := 0
  bitmap := some (usedBelow 16)

theorem heapInv_copyMachine : HeapInv copyMachine [⟨0x1FFFE2, none⟩] where
  listed := ⟨by decide, trivial⟩
  ne_nil := by simp
  end_eq := rfl
  placed := ⟨by simp, trivial⟩
  noFreePair := noFreePair_singleton _
  live := List.Perm.refl []
  kheap_pos := by decide
  end_mod := by decide
  lt := by decide

theorem kid_copyMachine {d i : ℕ} :
    copyMachine.kid d i = if d = 0x1000 ∧ i = 511 then some 0x4000 else none := by
  by_cases hd : d = 0x1000
  · by_cases hi : i = 511 <;> simp [Machine.kid, copyMachine, hd, hi, pointer]
  · simp [Machine.kid, copyMachine, hd, PageDirectory.zero]

/-- The tables there are. -/
theorem walk_copyMachine {r t : ℕ} {q : List ℕ} (h : walk copyMachine.kid r q = some t) :
    q = [] ∧ t = r ∨ q = [511] ∧ r = 0x1000 ∧ t = 0x4000 := by
  cases q with
  | nil => exact Or.inl ⟨rfl, (Option.some.inj h).symm⟩
  | cons i q =>
    rw [walk_cons, kid_copyMachine] at h
    split_ifs at h with hi
    · obtain ⟨rfl, rfl⟩ := hi
      cases q with
      | nil => exact Or.inr ⟨rfl, rfl, (Option.some.inj h).symm⟩
      | cons j q =>
        rw [Option.bind_some, walk_cons, kid_copyMachine, if_neg (by omega)] at h
        exact absurd h (by simp)
    · exact absurd h (by simp)

theorem kernelInv_copyMachine : KernelInv copyMachine [] [0x10000] where
  tree := by
    have hroot : ∀ {r q}, SpaceKey copyMachine.kernelPml4 [0x10000] r q → r = 0x1000 ∨
        r = 0x10000 := by
      rintro r q ⟨hr | hr, -⟩
      · exact Or.inl hr
      · exact Or.inr (by simpa using hr.1)
    refine ⟨⟨SpaceKey.init, ?_⟩, fun hq => hq.2, ?_⟩
    · intro r r' t q q' hq hq' hw hw'
      have hr := hroot hq
      have hr' := hroot hq'
      rcases walk_copyMachine hw with ⟨rfl, rfl⟩ | ⟨rfl, rfl, rfl⟩ <;>
        rcases walk_copyMachine hw' with ⟨rfl, h⟩ | ⟨rfl, rfl, h⟩
      · exact ⟨h, rfl⟩
      · omega
      · omega
      · exact ⟨rfl, rfl⟩
    · intro r q t hq hw
      have hr := hroot hq
      have hsize : tableSize q.length ≤ 8712 := by
        rw [tableSize]
        split_ifs <;> decide
      have hk : copyMachine.kheap = 0xFFFFFF8040000000 := rfl
      refine Or.inr ?_
      rcases walk_copyMachine hw with ⟨rfl, rfl⟩ | ⟨rfl, rfl, rfl⟩ <;> omega
  prealloc := by
    rw [forall_preallocs]
    exact ⟨fun h => absurd rfl h, fun h => absurd rfl h, fun h => absurd rfl h⟩
  distinct := by
    rw [pairwise_preallocs]
    exact ⟨⟨fun h => absurd rfl h, fun h => absurd rfl h⟩, fun h => absurd rfl h⟩
  kheap_le := by decide
  kernelHalf := by
    rw [kid_copyMachine, if_pos ⟨rfl, rfl⟩]
    simp

theorem userPages_copyMachine : UserPages copyMachine 0x10000 := by
  have hzero : ∀ v, UserAddr v → copyMachine.entry 0x10000 v = 0 := by
    intro v _
    refine entry_of_none ?_
    rw [slots, walk_cons, kid_copyMachine, if_neg (by omega)]
    rfl
  exact ⟨fun v hv hne => absurd (hzero v hv) hne, fun v hv => by rw [hzero v hv]; decide,
    fun v hv hne => absurd (hzero v hv) hne⟩

end Copy

end Xana
