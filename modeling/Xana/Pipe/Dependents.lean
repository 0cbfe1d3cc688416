import Mathlib.Data.Multiset.Count
import Mathlib.Data.Multiset.Filter
import Xana.Filesystem.Basic
import Xana.Pipe.Basic

/-!
# Who depends on a pipe

A pipe is shared: every descriptor of one of its ends, in whatever table, counts
as a *dependent* of that end, and whoever closes the last one frees the pipe and
its buffer. This file has the callbacks of `pipe.c` that count – `pipe_close`,
`pipe_dup`, `pipe_clone`, and the part of `kpipe` that makes a pipe – and what
they do to the memory the pipes live in (`Xana.PipeHeap`).

The callbacks know nothing of tables. What the counts mean is said relative to a
multiset `M` of descriptors, the ones there are (`Xana.PipeInv`): a callback that
is called when a descriptor is duplicated adds one to `M`
(`Xana.PipeInv.share`), and one that is called when a descriptor is closed takes
one out of it (`Xana.PipeInv.close`).
-/

namespace Xana

/-- The memory of the pipes: the `pipe_t` at an address, the address its `buffer`
field holds, and the blocks in use. Every block `kmalloc` has returned is on the
list `made`, and every block `kfree` has been given on the list `freed`. -/
structure PipeHeap where
  pipe : Addr → Pipe
  buffer : Addr → Addr
  allocated : Finset Addr
  made : List Addr
  freed : List Addr

/-- `&pipe_device_in`, the device of the end one writes to. -/
def pipeDeviceIn : ℕ := 0

/-- `&pipe_device_out`, the device of the end one reads from. -/
def pipeDeviceOut : ℕ := 1

/-- The devices of the two ends. -/
def IsEnd (device : ℕ) : Prop := device = pipeDeviceIn ∨ device = pipeDeviceOut

instance (device : ℕ) : Decidable (IsEnd device) :=
  inferInstanceAs (Decidable (device = pipeDeviceIn ∨ device = pipeDeviceOut))

/-! ### The callbacks -/

/-- `n--`, for a `uint64_t`. -/
def decrement (n : ℕ) : ℕ := if n = 0 then 2 ^ 64 - 1 else n - 1

namespace Pipe

/-- The counting of `pipe_close`. -/
def dropDependent (device : ℕ) (pipe : Pipe) : Pipe :=
  if device = pipeDeviceIn then { pipe with writeDependents := decrement pipe.writeDependents }
  else if device = pipeDeviceOut then
    { pipe with readDependents := decrement pipe.readDependents }
  else pipe

/-- The counting of `pipe_dup` and of `pipe_clone`. There is no room in memory
for the descriptors it would take to make a count wrap around. -/
def addDependent (device : ℕ) (pipe : Pipe) : Pipe :=
  if device = pipeDeviceIn then { pipe with writeDependents := pipe.writeDependents + 1 }
  else if device = pipeDeviceOut then { pipe with readDependents := pipe.readDependents + 1 }
  else pipe

/-- The count of an end. -/
def dependents (device : ℕ) (pipe : Pipe) : ℕ :=
  if device = pipeDeviceIn then pipe.writeDependents else pipe.readDependents

end Pipe

namespace PipeHeap

/-- Change the `pipe_t` at `x`. -/
def setPipe (h : PipeHeap) (x : Addr) (pipe : Pipe) : PipeHeap :=
  { h with pipe := Function.update h.pipe x pipe }

/-- `kmalloc`. -/
def kmalloc (h : PipeHeap) (m : Kmalloc) : Addr × PipeHeap :=
  let b := m.addr h.allocated
  (b, { h with allocated := insert b h.allocated, made := b :: h.made })

/-- `kfree`. -/
def kfree (h : PipeHeap) (b : Addr) : PipeHeap :=
  { h with allocated := h.allocated.erase b, freed := b :: h.freed }

end PipeHeap

/-- `pipe_close`. -/
def pipeClose (device : ℕ) (data : Addr) (h : PipeHeap) : PipeHeap :=
  let h := h.setPipe data ((h.pipe data).dropDependent device)
  if (h.pipe data).readDependents = 0 ∧ (h.pipe data).writeDependents = 0 then
    (h.kfree (h.buffer data)).kfree data
  else h

/-- The common body of `pipe_dup` and `pipe_clone`. -/
def pipeShare (device : ℕ) (data : Addr) (h : PipeHeap) : Addr × PipeHeap :=
  (data, h.setPipe data ((h.pipe data).addDependent device))

/-- `pipe_dup`. -/
def pipeDup : ℕ → Addr → PipeHeap → Addr × PipeHeap := pipeShare

/-- `pipe_clone`. -/
def pipeClone : ℕ → Addr → PipeHeap → Addr × PipeHeap := pipeShare

/-- The part of `kpipe` that makes the pipe. -/
def makePipe (m : Kmalloc) (h : PipeHeap) : Addr × PipeHeap :=
  let (pipe, h) := h.kmalloc m
  let (buffer, h) := h.kmalloc m
  (pipe, { h.setPipe pipe (Pipe.new (h.pipe pipe).buffer) with
    buffer := Function.update h.buffer pipe buffer })

/-! ### Counting -/

namespace Pipe

variable {pipe : Pipe} {d d' : ℕ}

theorem dependents_addDependent (hd : IsEnd d) (hd' : IsEnd d') :
    (pipe.addDependent d).dependents d' = pipe.dependents d' + if d = d' then 1 else 0 := by
  rcases hd with rfl | rfl <;> rcases hd' with rfl | rfl <;> rfl

theorem dependents_dropDependent (hd : IsEnd d) (hd' : IsEnd d')
    (hpos : 0 < pipe.dependents d) :
    (pipe.dropDependent d).dependents d' + (if d = d' then 1 else 0) = pipe.dependents d' := by
  have hdec : ∀ n, 0 < n → decrement n + 1 = n := fun n hn => by
    rw [decrement, if_neg hn.ne']
    omega
  rcases hd with rfl | rfl <;> rcases hd' with rfl | rfl
  · exact hdec _ hpos
  · rfl
  · rfl
  · exact hdec _ hpos

/-- Both counts are zero when those of both ends are. -/
theorem dependents_eq_zero_iff :
    pipe.readDependents = 0 ∧ pipe.writeDependents = 0 ↔ ∀ d, IsEnd d → pipe.dependents d = 0 := by
  constructor
  · rintro ⟨hr, hw⟩ d (rfl | rfl)
    · exact hw
    · exact hr
  · intro h
    exact ⟨h pipeDeviceOut (Or.inr rfl), h pipeDeviceIn (Or.inl rfl)⟩

end Pipe

section Refs

/-- The descriptors of one end of a pipe. -/
def refs (M : Multiset Entry) (d : ℕ) (x : Addr) : ℕ :=
  M.countP fun e => e.device = d ∧ e.data = x

/-- Some descriptor refers to the pipe. -/
def Used (M : Multiset Entry) (x : Addr) : Prop := ∃ d, IsEnd d ∧ 0 < refs M d x

variable {M M' : Multiset Entry} {e e' : Entry} {d : ℕ} {x y : Addr}

theorem refs_cons (e : Entry) (M : Multiset Entry) (d : ℕ) (x : Addr) :
    refs (e ::ₘ M) d x = refs M d x + if e.device = d ∧ e.data = x then 1 else 0 :=
  Multiset.countP_cons _ _ _

theorem used_of_mem (he : e ∈ M) (hend : IsEnd e.device) : Used M e.data :=
  ⟨e.device, hend, Multiset.countP_pos.mpr ⟨e, he, rfl, rfl⟩⟩

theorem used_cons : Used (e ::ₘ M) x ↔ (IsEnd e.device ∧ e.data = x) ∨ Used M x := by
  constructor
  · rintro ⟨d, hd, hpos⟩
    rw [refs_cons] at hpos
    by_cases he : e.device = d ∧ e.data = x
    · exact Or.inl ⟨he.1 ▸ hd, he.2⟩
    · rw [if_neg he] at hpos
      exact Or.inr ⟨d, hd, hpos⟩
  · rintro (⟨hend, rfl⟩ | ⟨d, hd, hpos⟩)
    · exact used_of_mem (Multiset.mem_cons_self e M) hend
    · rw [← Multiset.singleton_add]
      refine ⟨d, hd, hpos.trans_le ?_⟩
      exact Multiset.countP_le_of_le _ (Multiset.le_add_left M {e})

/-- A descriptor of another device is no reference to a pipe. -/
theorem refs_cons_of_not (he : ¬IsEnd e.device) (hd : IsEnd d) :
    refs (e ::ₘ M) d x = refs M d x := by
  have hne : ¬(e.device = d ∧ e.data = x) := fun hc => he (hc.1 ▸ hd)
  rw [refs_cons, if_neg hne, Nat.add_zero]

theorem not_used_iff : ¬Used M x ↔ ∀ d, IsEnd d → refs M d x = 0 := by
  constructor
  · intro h d hd
    by_contra hne
    exact h ⟨d, hd, Nat.pos_of_ne_zero hne⟩
  · rintro h ⟨d, hd, hpos⟩
    exact hpos.ne' (h d hd)

end Refs

/-! ### The invariant -/

/-- **The counts are right** when `M` are the descriptors there are. -/
structure PipeInv (M : Multiset Entry) (h : PipeHeap) : Prop where
  /-- The count of an end is the number of its descriptors. -/
  count : ∀ x d, Used M x → IsEnd d → (h.pipe x).dependents d = refs M d x
  /-- A pipe that a descriptor refers to is in use, and so is its buffer. -/
  alloc : ∀ x, Used M x → x ∈ h.allocated ∧ h.buffer x ∈ h.allocated
  /-- No two of these blocks are one. -/
  separate : ∀ x y, Used M x → Used M y → h.buffer x ≠ y ∧ (h.buffer x = h.buffer y → x = y)
  /-- No other block is in use. -/
  inUse : ∀ b ∈ h.allocated, ∃ x, Used M x ∧ (b = x ∨ b = h.buffer x)
  /-- A block in use has been freed once less than made, and any other as often. -/
  balanced : ∀ b, h.made.count b = h.freed.count b + if b ∈ h.allocated then 1 else 0

/-- **What a call frees**: nothing, and every pipe keeps a descriptor; or the
blocks of the one pipe that has lost its last descriptor. -/
def Releases (M : Multiset Entry) (h : PipeHeap) (M' : Multiset Entry) (h' : PipeHeap) : Prop :=
  (h'.freed = h.freed ∧ ∀ y, Used M y → Used M' y) ∨
    ∃ x, Used M x ∧ ¬Used M' x ∧ (∀ y, y ≠ x → Used M y → Used M' y) ∧
      h'.freed = x :: h.buffer x :: h.freed

namespace PipeInv

variable {M M' : Multiset Entry} {h h' : PipeHeap} {e e' : Entry}

/-- Only the descriptors of pipes matter. -/
theorem congr (hi : PipeInv M h) (hr : ∀ d x, IsEnd d → refs M' d x = refs M d x) :
    PipeInv M' h := by
  have hu : ∀ x, Used M' x ↔ Used M x := fun x =>
    exists_congr fun d => and_congr_right fun hd => by rw [hr d x hd]
  refine ⟨fun x d hx hd => ?_, fun x hx => hi.alloc x ((hu x).mp hx),
    fun x y hx hy => hi.separate x y ((hu x).mp hx) ((hu y).mp hy), fun b hb => ?_, hi.balanced⟩
  · rw [hr d x hd]
    exact hi.count x d ((hu x).mp hx) hd
  · obtain ⟨x, hx, hbx⟩ := hi.inUse b hb
    exact ⟨x, (hu x).mpr hx, hbx⟩

theorem of_cons_of_not (hi : PipeInv (e ::ₘ M) h) (he : ¬IsEnd e.device) : PipeInv M h :=
  hi.congr fun _ _ hd => (refs_cons_of_not he hd).symm

theorem cons_of_not (hi : PipeInv M h) (he : ¬IsEnd e.device) : PipeInv (e ::ₘ M) h :=
  hi.congr fun _ _ hd => refs_cons_of_not he hd

/-- **Duplicating a descriptor** of a pipe. -/
theorem share (hi : PipeInv M h) (he : e ∈ M) (hend : IsEnd e.device)
    (hdev : e'.device = e.device) (hdata : e'.data = e.data) :
    PipeInv (e' ::ₘ M) (pipeShare e.device e.data h).2 := by
  have hused : ∀ x, Used (e' ::ₘ M) x ↔ Used M x := fun x => by
    rw [used_cons, hdev, hdata, or_iff_right_of_imp]
    rintro ⟨-, rfl⟩
    exact used_of_mem he hend
  refine ⟨fun x d hx hd => ?_, fun x hx => hi.alloc x ((hused x).mp hx),
    fun x y hx hy => hi.separate x y ((hused x).mp hx) ((hused y).mp hy), fun b hb => ?_,
    hi.balanced⟩
  · have hcount := hi.count x d ((hused x).mp hx) hd
    rw [refs_cons, hdev, hdata, ← hcount]
    by_cases hxe : x = e.data
    · subst hxe
      have hpipe : (pipeShare e.device e.data h).2.pipe e.data =
          (h.pipe e.data).addDependent e.device := Function.update_self ..
      rw [hpipe, Pipe.dependents_addDependent hend hd]
      simp
    · have hpipe : (pipeShare e.device e.data h).2.pipe x = h.pipe x :=
        Function.update_of_ne hxe _ _
      rw [hpipe, if_neg fun hc => hxe hc.2.symm, Nat.add_zero]
  · obtain ⟨x, hx, hbx⟩ := hi.inUse b hb
    exact ⟨x, (hused x).mpr hx, hbx⟩

/-- The memory after the counting of a `pipe_close`. -/
def drop (h : PipeHeap) (d : ℕ) (x : Addr) : PipeHeap :=
  h.setPipe x ((h.pipe x).dropDependent d)

/-- The counting of a `pipe_close` is right. -/
theorem dependents_drop (hi : PipeInv (e ::ₘ M) h) (hend : IsEnd e.device) {d : ℕ}
    (hd : IsEnd d) :
    ((drop h e.device e.data).pipe e.data).dependents d = refs M d e.data := by
  have hused : Used (e ::ₘ M) e.data := used_of_mem (Multiset.mem_cons_self e M) hend
  have hcount := hi.count e.data d hused hd
  have hself := hi.count e.data e.device hused hend
  rw [refs_cons, if_pos ⟨rfl, rfl⟩] at hself
  rw [refs_cons] at hcount
  have hdrop := (h.pipe e.data).dependents_dropDependent hend hd (by omega)
  have hpipe : (drop h e.device e.data).pipe e.data =
      (h.pipe e.data).dropDependent e.device := Function.update_self ..
  rw [hpipe]
  simp only [and_true] at hcount
  omega

/-- **Closing a descriptor of a pipe that has others** frees nothing. -/
theorem close_of_used (hi : PipeInv (e ::ₘ M) h) (hend : IsEnd e.device) (hu : Used M e.data) :
    PipeInv M (drop h e.device e.data) := by
  have hused : ∀ x, Used M x → Used (e ::ₘ M) x := fun x hx => used_cons.mpr (Or.inr hx)
  refine ⟨fun x d hx hd => ?_, fun x hx => hi.alloc x (hused x hx),
    fun x y hx hy => hi.separate x y (hused x hx) (hused y hy), fun b hb => ?_, hi.balanced⟩
  · by_cases hxe : x = e.data
    · rw [hxe]
      exact hi.dependents_drop hend hd
    · have hpipe : (drop h e.device e.data).pipe x = h.pipe x := Function.update_of_ne hxe _ _
      have hne : ¬(e.device = d ∧ e.data = x) := fun hc => hxe hc.2.symm
      rw [hpipe, hi.count x d (hused x hx) hd, refs_cons, if_neg hne, Nat.add_zero]
  · obtain ⟨x, hx, hbx⟩ := hi.inUse b hb
    rcases used_cons.mp hx with ⟨-, rfl⟩ | hx
    · exact ⟨_, hu, hbx⟩
    · exact ⟨x, hx, hbx⟩

/-- **Closing the last descriptor of a pipe** frees its two blocks. -/
theorem close_of_not_used (hi : PipeInv (e ::ₘ M) h) (hend : IsEnd e.device)
    (hu : ¬Used M e.data) :
    PipeInv M (((drop h e.device e.data).kfree (h.buffer e.data)).kfree e.data) := by
  have hused : ∀ x, Used M x → Used (e ::ₘ M) x := fun x hx => used_cons.mpr (Or.inr hx)
  have hlast : Used (e ::ₘ M) e.data := used_of_mem (Multiset.mem_cons_self e M) hend
  have hne : ∀ x, Used M x → x ≠ e.data := fun x hx hc => hu (hc ▸ hx)
  have hbuf : h.buffer e.data ≠ e.data := (hi.separate _ _ hlast hlast).1
  refine ⟨fun x d hx hd => ?_, fun x hx => ⟨?_, ?_⟩,
    fun x y hx hy => hi.separate x y (hused x hx) (hused y hy), fun b hb => ?_, fun b => ?_⟩
  · have hpipe : (drop h e.device e.data).pipe x = h.pipe x :=
      Function.update_of_ne (hne x hx) _ _
    have hnot : ¬(e.device = d ∧ e.data = x) := fun hc => hne x hx hc.2.symm
    have hcount := hi.count x d (hused x hx) hd
    rw [refs_cons, if_neg hnot, Nat.add_zero] at hcount
    change ((drop h e.device e.data).pipe x).dependents d = refs M d x
    rw [hpipe, hcount]
  · have hxb : x ≠ h.buffer e.data := fun hc => (hi.separate _ x hlast (hused x hx)).1 hc.symm
    exact Finset.mem_erase.mpr ⟨hne x hx, Finset.mem_erase.mpr ⟨hxb, (hi.alloc x (hused x hx)).1⟩⟩
  · obtain ⟨h₁, -⟩ := hi.separate x _ (hused x hx) hlast
    have h₂ : h.buffer x ≠ h.buffer e.data := fun hc =>
      hne x hx ((hi.separate x _ (hused x hx) hlast).2 hc)
    exact Finset.mem_erase.mpr ⟨h₁, Finset.mem_erase.mpr ⟨h₂, (hi.alloc x (hused x hx)).2⟩⟩
  · obtain ⟨hb₁, hb⟩ := Finset.mem_erase.mp hb
    obtain ⟨hb₂, hb⟩ := Finset.mem_erase.mp hb
    obtain ⟨x, hx, hbx⟩ := hi.inUse b hb
    rcases used_cons.mp hx with ⟨-, rfl⟩ | hx
    · rcases hbx with rfl | rfl
      · exact absurd rfl hb₁
      · exact absurd rfl hb₂
    · exact ⟨x, hx, hbx⟩
  · -- both blocks were in use, and are two
    have hbal := hi.balanced b
    obtain ⟨ha₁, ha₂⟩ := hi.alloc _ hlast
    change h.made.count b = (e.data :: h.buffer e.data :: h.freed).count b +
      if b ∈ (h.allocated.erase (h.buffer e.data)).erase e.data then 1 else 0
    rw [hbal, List.count_cons, List.count_cons]
    by_cases h₁ : b = e.data
    · subst h₁
      simp [ha₁, hbuf]
    · by_cases h₂ : b = h.buffer e.data
      · subst h₂
        simp [ha₂, hbuf, hbuf.symm]
      · simp [h₁, h₂, Ne.symm h₁, Ne.symm h₂]

/-- **Closing a descriptor** of a pipe. -/
theorem close (hi : PipeInv (e ::ₘ M) h) (hend : IsEnd e.device) :
    PipeInv M (pipeClose e.device e.data h) ∧
      Releases (e ::ₘ M) h M (pipeClose e.device e.data h) := by
  have hlast : Used (e ::ₘ M) e.data := used_of_mem (Multiset.mem_cons_self e M) hend
  have htest : ((drop h e.device e.data).pipe e.data).readDependents = 0 ∧
      ((drop h e.device e.data).pipe e.data).writeDependents = 0 ↔ ¬Used M e.data := by
    rw [Pipe.dependents_eq_zero_iff, not_used_iff]
    exact forall₂_congr fun d hd => by rw [hi.dependents_drop hend hd]
  have hkeep : ∀ y, y ≠ e.data → Used (e ::ₘ M) y → Used M y := fun y hy hu => by
    rcases used_cons.mp hu with ⟨-, rfl⟩ | hu
    · exact absurd rfl hy
    · exact hu
  by_cases hu : Used M e.data
  · have hclose : pipeClose e.device e.data h = drop h e.device e.data :=
      if_neg (htest.not.mpr (not_not.mpr hu))
    rw [hclose]
    refine ⟨hi.close_of_used hend hu, Or.inl ⟨rfl, fun y hy => ?_⟩⟩
    by_cases hye : y = e.data
    · rwa [hye]
    · exact hkeep y hye hy
  · have hclose : pipeClose e.device e.data h =
        ((drop h e.device e.data).kfree (h.buffer e.data)).kfree e.data := if_pos (htest.mpr hu)
    rw [hclose]
    exact ⟨hi.close_of_not_used hend hu, Or.inr ⟨e.data, hlast, hu, hkeep, rfl⟩⟩

/-- **Making a pipe**, with a descriptor of each end. -/
theorem make (hi : PipeInv M h) (m : Kmalloc) {e₁ e₂ : Entry}
    (h₁ : e₁.device = pipeDeviceOut) (h₂ : e₂.device = pipeDeviceIn)
    (hd₁ : e₁.data = (makePipe m h).1) (hd₂ : e₂.data = (makePipe m h).1) :
    PipeInv (e₂ ::ₘ e₁ ::ₘ M) (makePipe m h).2 := by
  set x := m.addr h.allocated
  set y := m.addr (insert x h.allocated)
  have hx : x ∉ h.allocated := m.fresh _
  have hy : y ∉ insert x h.allocated := m.fresh _
  obtain ⟨hyx, hy'⟩ : y ≠ x ∧ y ∉ h.allocated := by simpa [not_or] using hy
  replace hd₁ : e₁.data = x := hd₁
  replace hd₂ : e₂.data = x := hd₂
  -- the one new pipe is `x`, and nothing in use is at `x` or at its buffer `y`
  have hused : ∀ z, Used (e₂ ::ₘ e₁ ::ₘ M) z ↔ z = x ∨ Used M z := fun z => by
    rw [used_cons, used_cons, h₁, h₂, hd₁, hd₂]
    constructor
    · rintro (⟨-, rfl⟩ | ⟨-, rfl⟩ | hz)
      · exact Or.inl rfl
      · exact Or.inl rfl
      · exact Or.inr hz
    · rintro (rfl | hz)
      · exact Or.inl ⟨Or.inl rfl, rfl⟩
      · exact Or.inr (Or.inr hz)
  have hnx : ¬Used M x := fun hc => hx (hi.alloc x hc).1
  have hold : ∀ z, Used M z → z ≠ x ∧ z ≠ y ∧ h.buffer z ≠ x ∧ h.buffer z ≠ y := fun z hz => by
    obtain ⟨ha, hb⟩ := hi.alloc z hz
    exact ⟨ne_of_mem_of_not_mem ha hx, ne_of_mem_of_not_mem ha hy', ne_of_mem_of_not_mem hb hx,
      ne_of_mem_of_not_mem hb hy'⟩
  have hbufx : (makePipe m h).2.buffer x = y := Function.update_self ..
  have hbuf : ∀ z, Used M z → (makePipe m h).2.buffer z = h.buffer z := fun z hz =>
    Function.update_of_ne (hold z hz).1 _ _
  have halloc : (makePipe m h).2.allocated = insert y (insert x h.allocated) := rfl
  refine ⟨fun z d hz hd => ?_, fun z hz => ?_, fun z w hz hw => ?_, fun b hb => ?_, fun b => ?_⟩
  · rw [refs_cons, refs_cons, h₁, h₂, hd₁, hd₂]
    rcases (hused z).mp hz with rfl | hz
    · have hpipe : (makePipe m h).2.pipe x = Pipe.new (h.pipe x).buffer :=
        Function.update_self ..
      rw [hpipe, not_used_iff.mp hnx d hd]
      rcases hd with rfl | rfl <;> simp [Pipe.dependents, Pipe.new, pipeDeviceIn, pipeDeviceOut]
    · have hne := (hold z hz).1
      have hpipe : (makePipe m h).2.pipe z = h.pipe z := Function.update_of_ne hne _ _
      rw [hpipe, hi.count z d hz hd, if_neg fun hc => hne hc.2.symm, if_neg fun hc => hne hc.2.symm,
        Nat.add_zero]
  · rw [halloc]
    rcases (hused z).mp hz with rfl | hz
    · rw [hbufx]
      simp
    · rw [hbuf z hz]
      obtain ⟨ha, hb⟩ := hi.alloc z hz
      exact ⟨by simp [ha], by simp [hb]⟩
  · rcases (hused z).mp hz with rfl | hz <;> rcases (hused w).mp hw with rfl | hw
    · exact ⟨by rwa [hbufx], fun _ => rfl⟩
    · obtain ⟨h1, h2, h3, h4⟩ := hold w hw
      rw [hbufx, hbuf w hw]
      exact ⟨h2.symm, fun hc => absurd hc.symm h4⟩
    · obtain ⟨h1, h2, h3, h4⟩ := hold z hz
      rw [hbufx, hbuf z hz]
      exact ⟨h3, fun hc => absurd hc h4⟩
    · rw [hbuf z hz, hbuf w hw]
      exact hi.separate z w hz hw
  · rw [halloc, Finset.mem_insert, Finset.mem_insert] at hb
    rcases hb with rfl | rfl | hb
    · exact ⟨x, (hused x).mpr (Or.inl rfl), Or.inr hbufx.symm⟩
    · exact ⟨x, (hused x).mpr (Or.inl rfl), Or.inl rfl⟩
    · obtain ⟨z, hz, hbz⟩ := hi.inUse b hb
      exact ⟨z, (hused z).mpr (Or.inr hz), by rwa [hbuf z hz]⟩
  · -- two blocks have been made, and none has been freed
    have hbal := hi.balanced b
    change (y :: x :: h.made).count b = h.freed.count b +
      if b ∈ insert y (insert x h.allocated) then 1 else 0
    rw [List.count_cons, List.count_cons, hbal]
    by_cases hby : b = y
    · subst hby
      simp [hy', hyx, hyx.symm]
    · by_cases hbx : b = x
      · subst hbx
        simp [hx, hyx, hyx.symm]
      · simp [hby, hbx, Ne.symm hby, Ne.symm hbx]

end PipeInv

end Xana
