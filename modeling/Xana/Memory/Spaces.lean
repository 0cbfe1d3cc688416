import Xana.Memory.CloneLaws
import Xana.Memory.Room

/-!
# Machines in order

What a caller of `kmalloc` and of `clone_page_directory` has to know. `MachineInv` is the
invariant: the heap is cut into blocks, and the tables of the address spaces are apart. A
call of `kmalloc` keeps it, and its block is new (`MachineInv.kmallocInt`); what a process
sees of its memory is the same before and after (`Growth.sameMemory`).
-/

namespace Xana

open Forest

/-- **The memory of a machine is in order**, with the address spaces at `roots`. -/
structure MachineInv (roots : List ℕ) (m : Machine) : Prop where
  heap : ∃ l, HeapInv m l
  kernel : KernelInv m m.live roots
  bitmap : m.bitmap.isSome

/-- There is a block at `p`, or what was there before the heap. -/
def InUse (m : Machine) (p : ℕ) : Prop := (∃ u ∈ m.live, u.ptr = p) ∨ p < m.kheap

/-- **What calls of `kmalloc` do.** -/
structure Extended (roots : List ℕ) (m m' : Machine) : Prop where
  inv : MachineInv roots m'
  growth : Growth roots m m'
  live : m.live ⊆ m'.live

/-- **What one call of `kmalloc` does**, the chunk being `u`. -/
structure Allocated (roots : List ℕ) (m m' : Machine) (u : Chunk) : Prop where
  extended : Extended roots m m'
  mem : u ∈ m'.live
  new : ¬InUse m u.ptr

/-- **The memory of a process looks the same**: the address space at `r'` has in `m'` the
pages, flags and bytes that the one at `r` has in `m`. -/
structure SameMemory (m : Machine) (r : ℕ) (m' : Machine) (r' : ℕ) : Prop where
  page : ∀ v, UserAddr v → (m'.entry r' v ≠ 0 ↔ m.entry r v ≠ 0)
  flags : ∀ v, UserAddr v → m'.entry r' v &&& 0xFFF = m.entry r v &&& 0xFFF
  bytes : ∀ v, UserAddr v → m.entry r v ≠ 0 → ∀ k < 0x1000,
    m'.ram (frameAddr (m'.entry r' v) + k) = m.ram (frameAddr (m.entry r v) + k)

section Spaces

variable {m m' m'' : Machine} {roots : List ℕ} {c directory n p r r' r'' size : ℕ} {u : Chunk}
variable {src : FrameSource} {align : Bool}

theorem SameMemory.refl (m : Machine) (r : ℕ) : SameMemory m r m r :=
  ⟨fun _ _ => Iff.rfl, fun _ _ => rfl, fun _ _ _ _ _ => rfl⟩

theorem SameMemory.trans (h : SameMemory m r m' r') (h' : SameMemory m' r' m'' r'') :
    SameMemory m r m'' r'' where
  page := fun v hv => (h'.page v hv).trans (h.page v hv)
  flags := fun v hv => (h'.flags v hv).trans (h.flags v hv)
  bytes := by
    intro v hv hne k hk
    rw [h'.bytes v hv ((h.page v hv).mpr hne) k hk, h.bytes v hv hne k hk]

theorem SameMemory.symm (h : SameMemory m r m' r') : SameMemory m' r' m r where
  page := fun v hv => (h.page v hv).symm
  flags := fun v hv => (h.flags v hv).symm
  bytes := fun v hv hne k hk => (h.bytes v hv ((h.page v hv).mp hne) k hk).symm

/-- Growth of the heap is not seen. -/
theorem Growth.sameMemory (h : Growth roots m m') (hr : r = m.kernelPml4 ∨ r ∈ roots) :
    SameMemory m r m' r := by
  obtain ⟨hsame, -, -, -, hram⟩ := h.same
  have hentry : ∀ v, UserAddr v → m'.entry r v = m.entry r v := fun v hv =>
    SameTables.entry_eq hsame hr hv
  refine ⟨fun v hv => by rw [hentry v hv], fun v hv => by rw [hentry v hv], fun v hv _ k _ => ?_⟩
  rw [hentry v hv, hram]

theorem Growth.bitmap_isSome (h : Growth roots m m') (hb : m.bitmap.isSome) : m'.bitmap.isSome := by
  induction h with
  | refl => exact hb
  | tail _ hev ih =>
    rcases hev with hev | ⟨phys, hev⟩
    · rw [hev.bitmap]
      exact ih
    · rw [hev.bitmap]
      simpa using ih

/-- **`kmalloc_int` on a machine that is in order.** -/
theorem MachineInv.kmallocInt (h : MachineInv roots m) (hpos : 0 < size)
    (hwrap : m'.kheapEnd + 0xFFF + size < 2 ^ 64)
    (hcall : Xana.kmallocInt src n m size align = some (p, m')) :
    Allocated roots m m' ⟨p, size, align⟩ := by
  obtain ⟨⟨l, hheap⟩, hkernel, hbitmap⟩ := h
  obtain ⟨-, -, ⟨l', hheap'⟩, -⟩ := hheap.kmallocInt hwrap hcall
  obtain ⟨⟨L, hlive, hsub, hkernel'⟩, hgrow⟩ := hheap.kmallocInt_grows hkernel hwrap hcall
  obtain ⟨-, -, hk, -, -⟩ := hgrow.same
  have hfresh := hheap'.fresh hlive hpos
  have hL : L ⊆ m'.live := by
    rw [hlive]
    exact List.subset_cons_self _ _
  refine ⟨⟨⟨⟨l', hheap'⟩, hkernel'.mono hL, hgrow.bitmap_isSome hbitmap⟩, hgrow,
    List.Subset.trans hsub hL⟩, ?_, ?_⟩
  · rw [hlive]
    exact List.mem_cons_self
  · rintro (⟨v, hv, hptr⟩ | hlt)
    · -- the new chunk does not begin where an older one does
      have horder := (hheap'.live.pairwise_iff fun {_ _} => Ne.symm).mp
        ((hheap'.placed.pairwise_lt (by decide)).imp fun hlt => hlt.ne)
      rw [hlive] at horder
      exact (List.pairwise_cons.mp horder).1 v (hsub hv) hptr.symm
    · have hle := hfresh.le_ptr
      simp only at hlt hle
      omega

theorem Extended.refl (h : MachineInv roots m) : Extended roots m m := ⟨h, .refl, fun _ hu => hu⟩

theorem Extended.trans (h : Extended roots m m') (h' : Extended roots m' m'') :
    Extended roots m m'' :=
  ⟨h'.inv, h.growth.trans h'.growth, List.Subset.trans h.live h'.live⟩

theorem Extended.kheap (h : Extended roots m m') : m'.kheap = m.kheap := h.growth.same.2.2.1

theorem Extended.kheapEnd_le (h : Extended roots m m') : m.kheapEnd ≤ m'.kheapEnd :=
  h.growth.same.2.2.2.1

theorem InUse.mono (hp : InUse m p) (hlive : m.live ⊆ m'.live) (hk : m'.kheap = m.kheap) :
    InUse m' p := by
  rcases hp with ⟨v, hv, rfl⟩ | hlt
  · exact Or.inl ⟨v, hlive hv, rfl⟩
  · exact Or.inr (by rwa [hk])

theorem Extended.inUse (h : Extended roots m m') (hp : InUse m p) : InUse m' p :=
  hp.mono h.live h.kheap

theorem Allocated.inUse (h : Allocated roots m m' u) : InUse m' u.ptr := Or.inl ⟨u, h.mem, rfl⟩

theorem Allocated.ne (h : Allocated roots m m' u) (hp : InUse m p) : p ≠ u.ptr := by
  rintro rfl
  exact h.new hp

/-! ### Copies -/

theorem UserKey.init {root i : ℕ} {q : List ℕ} (h : UserKey root r (q ++ [i])) :
    UserKey root r q := by
  obtain ⟨hr, hlen, hhead⟩ := h
  rw [List.length_append] at hlen
  refine ⟨hr, by omega, ?_⟩
  cases q with
  | nil => simp
  | cons j q => exact hhead

/-- A copy of an address space has its pages. -/
theorem CloneLaws.sameMemory (h : CloneLaws m directory c m') : SameMemory m directory m' c :=
  ⟨h.page, h.flags, h.bytes⟩

/-- The address space that is copied is as it was. -/
theorem CloneLaws.sameMemory_self (h : CloneLaws m directory c m') :
    SameMemory m directory m' directory := by
  have hentry : ∀ v, UserAddr v → m'.entry directory v = m.entry directory v := by
    intro v hv
    have hkey : UserKey directory directory (slots v) := (onPath_userKey hv).pt
    exact h.tables.entry_eq hkey (h.tables.walk_eq UserKey.init (fun hq => hq.2.1) hkey)
  refine ⟨fun v hv => by rw [hentry v hv], fun v hv => by rw [hentry v hv], ?_⟩
  intro v hv hne k hk
  rw [hentry v hv]
  exact h.ram v hv hne k hk

/-- **`clone_page_directory` on a machine that is in order.** -/
theorem MachineInv.clone (h : MachineInv roots m)
    (hdirectory : directory = m.kernelPml4 ∨ directory ∈ roots) (hpages : UserPages m directory)
    (hwrap : m'.kheapEnd + 0xFFF + pageDirectorySize < 2 ^ 64)
    (hclone : clonePageDirectory src (kmallocA src n) directory m = some (c, m')) :
    MachineInv (c :: roots) m' ∧ CloneLaws m directory c m' ∧ Grown m m' := by
  obtain ⟨⟨l, hheap⟩, hkernel, hbitmap⟩ := h
  obtain ⟨hinv, hall, hslot⟩ :=
    cloneInv_of_clone hheap hkernel hbitmap hdirectory hpages hwrap hclone
  exact ⟨⟨hinv.heap, hinv.kernel, hinv.copies.frames.bitmap⟩,
    hinv.laws hpages hdirectory hall hslot, grown_clonePageDirectory hheap.kheap_pos.ne' hclone⟩

/-! ### With room in the heap -/

/-- A loop whose body does nothing. -/
theorem forSlots_self {f : ℕ → Machine → Option Machine} (h : ∀ i < n, f i m = some m) :
    forSlots f n m = some m := by
  induction n with
  | zero => rfl
  | succ n ih =>
    rw [forSlots, ih fun i hi => h i (by omega)]
    exact h n (Nat.lt_succ_self n)

/-- **A directory with an empty user half is copied**, if there is room for another one. -/
theorem HasRoom.clone_empty (h : HasRoom m n) (src : FrameSource) (k : ℕ)
    (hempty : ∀ i < 511, (m.dirs directory).virt i = 0) (hlt : directory < m.kheap)
    (hn : roomFor pageDirectorySize < n) (hwrap : m.kheapEnd + 0xFFF + pageDirectorySize < 2 ^ 64) :
    ∃ c m', clonePageDirectory src (kmallocA src (k + 1)) directory m = some (c, m') ∧
      HasRoom m' (n - roomFor pageDirectorySize) ∧ m'.kheapEnd = m.kheapEnd := by
  obtain ⟨c, mem, hcall, hroom⟩ := h.kmallocInt src k true (by decide) hn hwrap
  obtain ⟨m₁, hm₁⟩ : ∃ m₁, { m with mem := mem, live := ⟨c, pageDirectorySize, true⟩ :: m.live } =
    m₁ := ⟨_, rfl⟩
  rw [hm₁] at hcall hroom
  obtain ⟨l, hheap⟩ := hroom.heap
  have hfresh : Fresh m₁ m.live ⟨c, pageDirectorySize, true⟩ :=
    hheap.fresh (by rw [← hm₁]) (by simp [pageDirectorySize])
  have hne : directory ≠ c := by
    have hle := hfresh.le_ptr
    rw [← hm₁] at hle
    simp only at hle
    omega
  have hdirs : m₁.dirs = m.dirs := by rw [← hm₁]
  have hloop : ∀ {x : Machine} {copy : ℕ → ℕ → Machine → Option Machine},
      x.dirs directory = m.dirs directory →
      forSlots (cloneSlot (kmallocA src (k + 1)) pageDirectorySize Machine.clearDir
        copy directory c)
        511 x = some x := by
    intro x copy hx
    refine forSlots_self fun i hi => ?_
    rw [cloneSlot, if_pos]
    rw [hx]
    exact hempty i hi
  obtain ⟨x, hx⟩ : ∃ x, (m₁.clearDir c).setPhysAddr c
    (virtToPhys (m₁.clearDir c) c (m₁.clearDir c).kernelPml4) = x := ⟨_, rfl⟩
  have hdir : x.dirs directory = m.dirs directory := by
    rw [← hx, Machine.setPhysAddr, Machine.clearDir]
    simp [hne, hdirs]
  have hsame : ∀ v e f, SameHeap m₁ (((x.setVirt c 511 v).setEntry c 511 e).setFull c 511 f) := by
    intro v e f
    rw [← hx]
    exact ⟨rfl, rfl, rfl, rfl, rfl⟩
  have hend : m₁.kheapEnd = m.kheapEnd := by rw [← hm₁]
  have hrun : ∃ v e f, clonePageDirectory src (kmallocA src (k + 1)) directory m =
      some (c, ((x.setVirt c 511 v).setEntry c 511 e).setFull c 511 f) := by
    simp only [clonePageDirectory, kmallocA, Option.bind_eq_bind, hcall, Option.bind_some, hx]
    rw [hloop hdir]
    exact ⟨_, _, _, rfl⟩
  obtain ⟨v, e, f, hrun⟩ := hrun
  exact ⟨c, _, hrun, hroom.congr (hsame v e f), (hsame v e f).kheapEnd.trans hend⟩

end Spaces

end Xana
