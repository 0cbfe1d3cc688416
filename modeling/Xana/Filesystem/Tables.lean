import Mathlib.Data.List.Pairwise
import Mathlib.Data.Finset.Card
import Xana.Filesystem.Basic

/-!
# The shape of the descriptor tables

Every table is a finite chain of nodes in use, no node is on two tables, and the
descriptor numbers along a table are strictly increasing (`Xana.Fs.Tables`). They are
not negative either, unless `kdup2` is given a negative number, and so the shape has a
lower bound of the numbers as a parameter, which is 0 where nothing else is said.

Two edits are all that ever happens to a table: a node is spliced in between two
neighbours (`Xana.Fs.Tables.insert`) or out of them (`Xana.Fs.Tables.remove`).

On tables of this shape each function of `Xana.Filesystem.Basic` has an equation
that says what it computes, and these equations are all that later proofs use:
`Xana.Fs.kfopen_cases`, `Xana.Fs.kpipe_spec`, `Xana.Fs.kfclose_of_mem`,
`Xana.Fs.kdup2_cases` and `Xana.Fs.kfork_spec`.
-/

namespace Xana

namespace Fs

open Chain

variable {σ : Type}

/-- **The shape of the tables**, `L p` being the nodes on the table of `p`, and `lo` a
lower bound of the numbers. -/
structure Tables (s : Fs σ) (L : ℕ → List Addr) (lo : ℤ := 0) : Prop where
  /-- Each table is a finite chain. -/
  seg : ∀ p, Seg s.next (s.heads p) (L p) none
  /-- Its nodes are in use. -/
  alloc : ∀ p, ∀ a ∈ L p, a ∈ s.allocated
  /-- No node is on two tables. -/
  disjoint : ∀ p q, p ≠ q → ∀ a ∈ L p, a ∉ L q
  /-- The numbers are strictly increasing. -/
  sorted : ∀ p, ((L p).map s.id).Pairwise (· < ·)
  /-- No number is below the bound, -/
  lo_le : ∀ p, ∀ a ∈ L p, lo ≤ s.id a
  /-- which is not above the number that an empty table begins with. -/
  lo_nonpos : lo ≤ 0
  /-- Only processes there are have descriptors. -/
  absent : ∀ p, p ∉ s.procs → L p = []

variable {s s' : Fs σ} {L : ℕ → List Addr} {lo : ℤ} {p q : ℕ} {a b fd : Addr} {l₁ l₂ : List Addr}

/-! ### Fields -/

@[simp] theorem setEntry_next (e : Entry) : (s.setEntry a e).next = s.next := rfl

@[simp] theorem setEntry_heads (e : Entry) : (s.setEntry a e).heads = s.heads := rfl

@[simp] theorem setEntry_dev (e : Entry) : (s.setEntry a e).dev = s.dev := rfl

@[simp] theorem setEntry_procs (e : Entry) : (s.setEntry a e).procs = s.procs := rfl

@[simp] theorem setEntry_allocated (e : Entry) : (s.setEntry a e).allocated = s.allocated := rfl

@[simp] theorem setDev_entry (dev : σ) : (s.setDev dev).entry = s.entry := rfl

@[simp] theorem setDev_id (dev : σ) : (s.setDev dev).id = s.id := rfl

@[simp] theorem setDev_dev (dev : σ) : (s.setDev dev).dev = dev := rfl

@[simp] theorem setDev_procs (dev : σ) : (s.setDev dev).procs = s.procs := rfl

@[simp] theorem setDev_allocated (dev : σ) : (s.setDev dev).allocated = s.allocated := rfl

@[simp] theorem kmalloc_entry (m : Kmalloc) : (s.kmalloc m).2.entry = s.entry := rfl

@[simp] theorem kmalloc_dev (m : Kmalloc) : (s.kmalloc m).2.dev = s.dev := rfl

@[simp] theorem kmalloc_procs (m : Kmalloc) : (s.kmalloc m).2.procs = s.procs := rfl

@[simp] theorem link_entry (x : Option Addr) (prev : Option Addr) :
    (s.link p x prev).entry = s.entry := by cases prev <;> rfl

@[simp] theorem link_id (x : Option Addr) (prev : Option Addr) : (s.link p x prev).id = s.id := by
  cases prev <;> rfl

@[simp] theorem link_allocated (x : Option Addr) (prev : Option Addr) :
    (s.link p x prev).allocated = s.allocated := by cases prev <;> rfl

@[simp] theorem link_procs (x : Option Addr) (prev : Option Addr) :
    (s.link p x prev).procs = s.procs := by cases prev <;> rfl

@[simp] theorem link_dev (x : Option Addr) (prev : Option Addr) :
    (s.link p x prev).dev = s.dev := by cases prev <;> rfl

theorem link_heads_of_ne (x : Option Addr) (prev : Option Addr) (h : q ≠ p) :
    (s.link p x prev).heads q = s.heads q := by
  cases prev
  · exact Function.update_of_ne h _ _
  · rfl

theorem link_next_of_ne {x prev : Option Addr} (h : prev ≠ some a) :
    (s.link p x prev).next a = s.next a := by
  cases prev with
  | none => rfl
  | some b => exact Function.update_of_ne (fun hc => h (by rw [hc])) _ _

/-! ### The two edits, as states -/

/-- The descriptors once the node `fd` has been put between `k₁` and `k₂`. -/
def spliceIn (s : Fs σ) (p : ℕ) (k₁ k₂ : List Addr) (fd : Addr) : Fs σ :=
  (s.link p (some fd) k₁.getLast?).setNext fd k₂.head?

@[simp] theorem spliceIn_entry (k₁ k₂ : List Addr) : (s.spliceIn p k₁ k₂ fd).entry = s.entry := by
  simp [spliceIn, setNext]

@[simp] theorem spliceIn_allocated (k₁ k₂ : List Addr) :
    (s.spliceIn p k₁ k₂ fd).allocated = s.allocated := by simp [spliceIn, setNext]

@[simp] theorem spliceIn_dev (k₁ k₂ : List Addr) : (s.spliceIn p k₁ k₂ fd).dev = s.dev := by
  simp [spliceIn, setNext]

@[simp] theorem spliceIn_procs (k₁ k₂ : List Addr) : (s.spliceIn p k₁ k₂ fd).procs = s.procs := by
  simp [spliceIn, setNext]

/-- The descriptors once `kfclose` has spliced `c` out between `k₁` and `k₂`. -/
def spliceOut (s : Fs σ) (p : ℕ) (k₁ k₂ : List Addr) (c : Addr) : Fs σ :=
  (s.link p k₂.head? k₁.getLast?).kfree c

@[simp] theorem spliceOut_entry (k₁ k₂ : List Addr) : (s.spliceOut p k₁ k₂ a).entry = s.entry := by
  simp [spliceOut, Fs.kfree]

@[simp] theorem spliceOut_id (k₁ k₂ : List Addr) : (s.spliceOut p k₁ k₂ a).id = s.id := by
  funext b
  simp [Fs.id]

@[simp] theorem spliceOut_dev (k₁ k₂ : List Addr) : (s.spliceOut p k₁ k₂ a).dev = s.dev := by
  simp [spliceOut, Fs.kfree]

@[simp] theorem spliceOut_procs (k₁ k₂ : List Addr) : (s.spliceOut p k₁ k₂ a).procs = s.procs := by
  simp [spliceOut, Fs.kfree]

/-! ### What the shape gives -/

namespace Tables

theorem nodup (h : s.Tables L lo) (p : ℕ) : (L p).Nodup := (h.seg p).nodup

/-- A table has no more nodes than there are blocks in use. -/
theorem length_le (h : s.Tables L lo) (p : ℕ) : (L p).length ≤ s.allocated.card := by
  classical
  rw [← List.toFinset_card_of_nodup (h.nodup p)]
  refine Finset.card_le_card fun a ha => ?_
  exact h.alloc p a (List.mem_toFinset.mp ha)

/-- The nodes read off a table are the nodes on it. -/
theorem chain_eq (h : s.Tables L lo) : s.chain = L := by
  funext p
  exact (h.seg p).collect_eq (h.length_le p)

theorem of_mem (h : s.Tables L lo) (ha : a ∈ L p) : p ∈ s.procs := by
  by_contra hc
  rw [h.absent p hc] at ha
  simp at ha

/-- Splitting a table splits its order. -/
theorem sorted_split (h : s.Tables L lo) (hL : L p = l₁ ++ l₂) :
    (l₁.map s.id).Pairwise (· < ·) ∧ (l₂.map s.id).Pairwise (· < ·) ∧
      ∀ a ∈ l₁, ∀ b ∈ l₂, s.id a < s.id b := by
  have hs := h.sorted p
  rw [hL, List.map_append, List.pairwise_append] at hs
  exact ⟨hs.1, hs.2.1, fun a ha b hb =>
    hs.2.2 _ (List.mem_map_of_mem ha) _ (List.mem_map_of_mem hb)⟩

/-- The numbers around a node of a table. -/
theorem sorted_mid (h : s.Tables L lo) (hL : L p = l₁ ++ a :: l₂) :
    (∀ b ∈ l₁, s.id b < s.id a) ∧ ∀ b ∈ l₂, s.id a < s.id b := by
  obtain ⟨-, h₂, h₁⟩ := h.sorted_split hL
  rw [List.map_cons, List.pairwise_cons] at h₂
  exact ⟨fun b hb => h₁ b hb a (by simp), fun b hb => h₂.1 _ (List.mem_map_of_mem hb)⟩

/-- A number stands for one node of a table. -/
theorem eq_of_id (h : s.Tables L lo) (ha : a ∈ L p) (hb : b ∈ L p) (hid : s.id a = s.id b) :
    a = b := by
  obtain ⟨l₁, l₂, hL⟩ := List.append_of_mem hb
  obtain ⟨hlt₁, hlt₂⟩ := h.sorted_mid hL
  rw [hL] at ha
  rcases List.mem_append.mp ha with ha | ha
  · exact absurd hid (hlt₁ a ha).ne
  · rcases List.mem_cons.mp ha with rfl | ha
    · rfl
    · exact absurd hid (hlt₂ a ha).ne'

/-- The shape reads the links, the numbers, the blocks in use and the
processes. -/
theorem congr (h : s.Tables L lo) (hn : s'.next = s.next) (hh : s'.heads = s.heads)
    (hi : ∀ p, ∀ a ∈ L p, s'.id a = s.id a) (ha : s.allocated ⊆ s'.allocated)
    (hp : s'.procs = s.procs) : s'.Tables L lo where
  seg := fun p => by rw [hn, hh]; exact h.seg p
  alloc := fun p a hm => ha (h.alloc p a hm)
  disjoint := h.disjoint
  sorted := fun p => by rw [List.map_congr_left (hi p)]; exact h.sorted p
  lo_le := fun p a hm => by rw [hi p a hm]; exact h.lo_le p a hm
  lo_nonpos := h.lo_nonpos
  absent := fun p hm => h.absent p (hp ▸ hm)

/-- Filling in a node that is on no table changes none. -/
theorem setEntry (h : s.Tables L lo) (hfd : ∀ q, fd ∉ L q) (e : Entry) :
    (s.setEntry fd e).Tables L lo := by
  refine h.congr rfl rfl (fun p a ha => ?_) subset_rfl rfl
  have hne : a ≠ fd := fun hc => hfd p (hc ▸ ha)
  simp [Fs.id, Fs.setEntry, hne]

theorem setDev (h : s.Tables L lo) (dev : σ) : (s.setDev dev).Tables L lo :=
  h.congr rfl rfl (fun _ _ _ => rfl) subset_rfl rfl

/-- A block that has just been handed out is on no table. -/
theorem kmalloc (h : s.Tables L lo) (m : Kmalloc) :
    (s.kmalloc m).2.Tables L lo ∧ (s.kmalloc m).1 ∈ (s.kmalloc m).2.allocated ∧
      ∀ q, (s.kmalloc m).1 ∉ L q :=
  ⟨h.congr rfl rfl (fun _ _ _ => rfl) (Finset.subset_insert _ _) rfl,
    Finset.mem_insert_self _ _, fun q hq => m.fresh _ (h.alloc q _ hq)⟩

/-- A smaller bound. -/
theorem mono (h : s.Tables L lo) {lo' : ℤ} (hle : lo' ≤ lo) : s.Tables L lo' where
  seg := h.seg
  alloc := h.alloc
  disjoint := h.disjoint
  sorted := h.sorted
  lo_le := fun p a ha => hle.trans (h.lo_le p a ha)
  lo_nonpos := hle.trans h.lo_nonpos
  absent := h.absent

/-- A block on no table can be freed. -/
theorem kfree (h : s.Tables L lo) (hb : ∀ q, b ∉ L q) : (s.kfree b).Tables L lo where
  seg := h.seg
  alloc := fun p a ha =>
    Finset.mem_erase.mpr ⟨fun hc => hb p (hc ▸ ha), h.alloc p a ha⟩
  disjoint := h.disjoint
  sorted := h.sorted
  lo_le := h.lo_le
  lo_nonpos := h.lo_nonpos
  absent := h.absent

/-! ### The two edits -/

/-- Linking the nodes `l₁` of a table to another chain makes them one chain, and
leaves the other tables alone. -/
theorem seg_link (h : s.Tables L lo) (hL : L p = l₁ ++ l₂) {x : Option Addr} {m : List Addr}
    {next : Addr → Option Addr}
    (hnext : ∀ r, ∀ a ∈ L r, a ∉ m → next a = (s.link p x l₁.getLast?).next a)
    (hdisj : ∀ a ∈ l₁, a ∉ m) (hm : Seg next x m none) (hother : ∀ r, r ≠ p → ∀ a ∈ L r, a ∉ m)
    (r : ℕ) :
    Seg next ((s.link p x l₁.getLast?).heads r) (Function.update L p (l₁ ++ m) r) none := by
  have hseg := h.seg p
  rw [hL] at hseg
  rcases eq_or_ne r p with rfl | hr
  · rw [Function.update_self]
    refine hseg.splice (fun a ha hlast => ?_) (fun a hlast => ?_) ?_ hm
    · rw [hnext r a (hL ▸ List.mem_append_left _ ha) (hdisj a ha), link_next_of_ne hlast]
    · have ha : a ∈ l₁ := List.mem_of_getLast? hlast
      rw [hnext r a (hL ▸ List.mem_append_left _ ha) (hdisj a ha), hlast]
      exact Function.update_self _ _ _
    · rcases l₁.eq_nil_or_concat' with rfl | ⟨l, c, rfl⟩
      · exact Function.update_self _ _ _
      · rw [List.getLast?_concat, if_neg (by simp)]
        rfl
  · rw [Function.update_of_ne hr, link_heads_of_ne _ _ hr]
    refine (seg_congr fun a ha => ?_).mp (h.seg r)
    rw [hnext r a ha (hother r hr a ha), link_next_of_ne fun hlast => ?_]
    have hap : a ∈ L p := hL ▸ List.mem_append_left _ (List.mem_of_getLast? hlast)
    exact h.disjoint r p hr a ha hap

/-- The rest of a table is a chain from where its first part ends. -/
theorem seg_right (h : s.Tables L lo) (hL : L p = l₁ ++ l₂) : Seg s.next l₂.head? l₂ none := by
  have hseg := h.seg p
  rw [hL] at hseg
  obtain ⟨r, -, hr⟩ := seg_append.mp hseg
  exact hr.head_eq ▸ hr

/-- The successor of a node of a table. -/
theorem next_eq (h : s.Tables L lo) (hL : L p = l₁ ++ a :: l₂) : s.next a = l₂.head? :=
  (h.seg_right hL).2.head_eq

/-- Replacing the nodes of one table by others keeps the shape when the links say
so and the new nodes are on no other table and in order. -/
theorem replace (h : s.Tables L lo) (hp : p ∈ s.procs) {m : List Addr}
    (hseg : ∀ r, Seg s'.next (s'.heads r) (Function.update L p m r) none)
    (hid : s'.id = s.id) (hal : s'.allocated = s.allocated) (hpr : s'.procs = s.procs)
    (hm : ∀ a ∈ m, a ∈ s.allocated ∧ lo ≤ s.id a ∧ ∀ q, q ≠ p → a ∉ L q)
    (hsorted : (m.map s.id).Pairwise (· < ·)) : s'.Tables (Function.update L p m) lo where
  seg := hseg
  alloc := by
    rw [hal, Function.forall_update_iff L fun _ l => ∀ a ∈ l, a ∈ s.allocated]
    exact ⟨fun a ha => (hm a ha).1, fun r _ => h.alloc r⟩
  disjoint := fun r q hrq a ha => by
    rcases eq_or_ne r p with rfl | hr
    · rw [Function.update_self] at ha
      rw [Function.update_of_ne hrq.symm]
      exact (hm a ha).2.2 q hrq.symm
    · rw [Function.update_of_ne hr] at ha
      rcases eq_or_ne q p with rfl | hq
      · rw [Function.update_self]
        exact fun hc => (hm a hc).2.2 r hr ha
      · rw [Function.update_of_ne hq]
        exact h.disjoint r q hrq a ha
  sorted := by
    rw [hid, Function.forall_update_iff L fun _ l => (l.map s.id).Pairwise (· < ·)]
    exact ⟨hsorted, fun r _ => h.sorted r⟩
  lo_le := by
    rw [hid, Function.forall_update_iff L fun _ l => ∀ a ∈ l, lo ≤ s.id a]
    exact ⟨fun a ha => (hm a ha).2.1, fun r _ => h.lo_le r⟩
  lo_nonpos := h.lo_nonpos
  absent := fun r hr => by
    have hne : r ≠ p := fun hc => hr (hpr ▸ hc ▸ hp)
    rw [Function.update_of_ne hne]
    exact h.absent r (hpr ▸ hr)

/-- **Splicing a node in.** -/
theorem insert (h : s.Tables L lo) (hp : p ∈ s.procs) (hL : L p = l₁ ++ l₂)
    (hal : fd ∈ s.allocated) (hfd : ∀ q, fd ∉ L q) (hpos : lo ≤ s.id fd)
    (hlt₁ : ∀ a ∈ l₁, s.id a < s.id fd) (hlt₂ : ∀ a ∈ l₂, s.id fd < s.id a) :
    (s.spliceIn p l₁ l₂ fd).Tables (Function.update L p (l₁ ++ fd :: l₂)) lo := by
  have hmem₂ : ∀ a ∈ l₂, a ∈ L p := fun a ha => hL ▸ List.mem_append_right l₁ ha
  have hdisj₂ : ∀ a ∈ l₁, a ∉ l₂ := fun a ha hc =>
    List.disjoint_of_nodup_append (hL ▸ h.nodup p) ha hc
  have hnefd : ∀ r, ∀ a ∈ L r, a ≠ fd := fun r a ha hc => hfd r (hc ▸ ha)
  refine h.replace hp (fun r => ?_) (by simp [Fs.id, funext_iff]) (by simp) (by simp)
    (fun a ha => ?_) ?_
  · refine h.seg_link hL (m := fd :: l₂) (fun r a ha hm => ?_) (fun a ha hc => ?_) ?_
      (fun r hr a ha hc => ?_) r
    · exact Function.update_of_ne (hnefd r a ha) _ _
    · rcases List.mem_cons.mp hc with rfl | hc
      · exact hfd p (hL ▸ List.mem_append_left _ ha)
      · exact hdisj₂ a ha hc
    · have hself : (s.spliceIn p l₁ l₂ fd).next fd = l₂.head? := Function.update_self _ _ _
      rw [seg_cons, hself]
      refine ⟨rfl, (seg_congr fun a ha => ?_).mp (h.seg_right hL)⟩
      have hne : a ≠ fd := hnefd p a (hmem₂ a ha)
      refine ((Function.update_of_ne hne _ _).trans (link_next_of_ne fun hlast => ?_)).symm
      exact hdisj₂ a (List.mem_of_getLast? hlast) ha
    · rcases List.mem_cons.mp hc with rfl | hc
      · exact hfd r ha
      · exact h.disjoint r p hr a ha (hmem₂ a hc)
  · rcases List.mem_append.mp ha with ha | ha
    · have hap : a ∈ L p := hL ▸ List.mem_append_left _ ha
      exact ⟨h.alloc p a hap, h.lo_le p a hap, fun q hq => h.disjoint p q hq.symm a hap⟩
    · rcases List.mem_cons.mp ha with rfl | ha
      · exact ⟨hal, hpos, fun q _ => hfd q⟩
      · have hap := hmem₂ a ha
        exact ⟨h.alloc p a hap, h.lo_le p a hap, fun q hq => h.disjoint p q hq.symm a hap⟩
  · obtain ⟨h₁, h₂, h₁₂⟩ := h.sorted_split hL
    rw [List.map_append, List.map_cons, List.pairwise_append, List.pairwise_cons]
    simp only [List.forall_mem_map, List.forall_mem_cons]
    exact ⟨h₁, ⟨hlt₂, h₂⟩, fun a ha => ⟨hlt₁ a ha, fun b hb => h₁₂ a ha b hb⟩⟩

/-- **Splicing a node out.** -/
theorem remove (h : s.Tables L lo) (hL : L p = l₁ ++ b :: l₂) :
    (s.link p l₂.head? l₁.getLast?).Tables (Function.update L p (l₁ ++ l₂)) lo ∧
      ∀ q, b ∉ Function.update L p (l₁ ++ l₂) q := by
  have hp : p ∈ s.procs := h.of_mem (a := b) (by simp [hL])
  have hnodup : (l₁ ++ b :: l₂).Nodup := hL ▸ h.nodup p
  have hb : b ∉ l₁ ++ l₂ := (List.nodup_middle.mp hnodup |> List.nodup_cons.mp).1
  have hsub : ∀ a ∈ l₁ ++ l₂, a ∈ L p := fun a ha => by
    rw [hL]
    rcases List.mem_append.mp ha with ha | ha
    · exact List.mem_append_left _ ha
    · exact List.mem_append_right _ (List.mem_cons_of_mem b ha)
  have hdisj : ∀ a ∈ l₁, a ∉ l₂ := fun a ha hc =>
    List.disjoint_of_nodup_append hnodup ha (List.mem_cons_of_mem b hc)
  refine ⟨h.replace hp (fun r => ?_) (by simp) (by simp) (by simp) (fun a ha => ?_) ?_, ?_⟩
  · refine h.seg_link hL (fun _ _ _ _ => rfl) hdisj ?_ (fun r hr a ha hc => ?_) r
    · have hL' : L p = (l₁ ++ [b]) ++ l₂ := by simp [hL]
      have hright : Seg s.next l₂.head? l₂ none := h.seg_right hL'
      refine (seg_congr fun a ha => (link_next_of_ne fun hlast => ?_).symm).mp hright
      exact hdisj a (List.mem_of_getLast? hlast) ha
    · exact h.disjoint r p hr a ha (hsub a (List.mem_append_right _ hc))
  · have hap := hsub a ha
    exact ⟨h.alloc p a hap, h.lo_le p a hap, fun q hq => h.disjoint p q hq.symm a hap⟩
  · obtain ⟨h₁, h₂, h₁₂⟩ := h.sorted_split hL
    rw [List.map_append, List.pairwise_append]
    simp only [List.forall_mem_map]
    rw [List.map_cons, List.pairwise_cons] at h₂
    exact ⟨h₁, h₂.2, fun a ha c hc => h₁₂ a ha c (List.mem_cons_of_mem b hc)⟩
  · intro q
    rcases eq_or_ne q p with rfl | hq
    · rwa [Function.update_self]
    · rw [Function.update_of_ne hq]
      exact h.disjoint p q hq.symm b (by simp [hL])

end Tables

/-! ### Looking for a descriptor -/

/-- Either a number is on a table, at one place, or it is not. -/
theorem Tables.split_or (L : ℕ → List Addr) (s : Fs σ) (p : ℕ) (i : ℤ) :
    (∃ l₁ a l₂, L p = l₁ ++ a :: l₂ ∧ s.id a = i) ∨ ∀ a ∈ L p, s.id a ≠ i := by
  by_cases h : ∃ a ∈ L p, s.id a = i
  · obtain ⟨a, ha, hi⟩ := h
    obtain ⟨l₁, l₂, hL⟩ := List.append_of_mem ha
    exact Or.inl ⟨l₁, a, l₂, hL, hi⟩
  · push Not at h
    exact Or.inr h

theorem Tables.fuel_lt (h : s.Tables L lo) (hL : L p = l₁ ++ l₂) : l₁.length < s.fuel := by
  have hlen := h.length_le p
  rw [hL, List.length_append] at hlen
  exact Nat.lt_succ_of_le ((Nat.le_add_right _ _).trans hlen)

/-- Where a loop over a table stops. -/
theorem Tables.walk_eq (h : s.Tables L lo) (hL : L p = l₁ ++ l₂) {stop : Option Addr → Addr → Bool}
    (hpass : Passed stop none l₁) (hstop : ∀ a ∈ l₂.head?, stop l₁.getLast? a = true) :
    walk s.next stop s.fuel none (s.heads p) = some (l₁.getLast?, l₂.head?) := by
  have hseg := h.seg p
  rw [hL] at hseg
  have hwalk := Chain.walk_eq hseg (h.fuel_lt hL) hpass (by simpa using hstop)
  rwa [Option.or_none] at hwalk

theorem findDescriptor_of_mem (h : s.Tables L lo) (hL : L p = l₁ ++ a :: l₂) :
    s.findDescriptor p (s.id a) = some (l₁.getLast?, some a) := by
  refine h.walk_eq hL (Passed.of_forall fun b hb => ?_) (by simp)
  simpa using ((h.sorted_mid hL).1 b hb).ne

theorem findDescriptor_of_notMem (h : s.Tables L lo) {i : ℤ} (hi : ∀ a ∈ L p, s.id a ≠ i) :
    s.findDescriptor p i = some ((L p).getLast?, none) :=
  h.walk_eq (List.append_nil _).symm (Passed.of_forall fun b hb => by simpa using hi b hb)
    (by simp)

/-- **A call has put a node on a table**: between the nodes `k₁` and `k₂`, which
are what is left of the table of `p`, stands the new node `fd`, filled in with
`e`. -/
structure Spliced (s s' : Fs σ) (L : ℕ → List Addr) (p : ℕ) (k₁ k₂ : List Addr) (fd : Addr)
    (e : Entry) (lo : ℤ := 0) : Prop where
  tables : s'.Tables (Function.update L p (k₁ ++ fd :: k₂)) lo
  entry : s'.entry = Function.update s.entry fd e
  procs : s'.procs = s.procs
  fresh : ∀ q, fd ∉ L q

/-! ### `add_descriptor` -/

/-- Where `add_descriptor` stops: behind some node, in front of a gap or at the
end. -/
theorem exists_gap (h : s.Tables L lo) (hne : L p ≠ []) :
    ∃ l₁ a l₂, L p = l₁ ++ [a] ++ l₂ ∧
      walk s.next s.gapBefore s.fuel none (s.heads p) = some (some a, l₂.head?) ∧
        Passed s.gapBefore none (l₁ ++ [a]) ∧ ∀ b ∈ l₂, s.id a + 1 < s.id b := by
  obtain ⟨l₁, l₂, hL, hpass, hstop⟩ := exists_passed s.gapBefore none (L p)
  have hwalk := h.walk_eq hL hpass (by simpa using hstop)
  rcases l₁.eq_nil_or_concat' with rfl | ⟨l, a, rfl⟩
  -- the first node is never stopped at
  · cases l₂ with
    | nil => exact absurd hL hne
    | cons b l => simp [gapBefore] at hstop
  · rw [List.getLast?_concat] at hwalk hstop
    refine ⟨l, a, l₂, hL, hwalk, hpass, fun b hb => ?_⟩
    cases l₂ with
    | nil => simp at hb
    | cons c l' =>
      have hc : s.id a + 1 < s.id c := by simpa [gapBefore] using hstop
      rcases List.mem_cons.mp hb with rfl | hb
      · exact hc
      · exact hc.trans ((h.sorted_mid hL).2 b hb)

/-- **What `add_descriptor` does**: it gives the node a number that was free and
puts it in its place. -/
theorem addDescriptor_spec (h : s.Tables L lo) (hp : p ∈ s.procs) (hal : fd ∈ s.allocated)
    (hfd : ∀ q, fd ∉ L q) :
    ∃ i l₁ l₂ s', s.addDescriptor p fd = some (i, s') ∧ L p = l₁ ++ l₂ ∧ lo ≤ i ∧
      (∀ a ∈ L p, s.id a ≠ i) ∧
      Spliced s s' L p l₁ l₂ fd { s.entry fd with descriptorId := i } lo ∧
      s'.dev = s.dev ∧ s'.allocated = s.allocated := by
  have hid : ∀ i : ℤ, (s.setId fd i).id fd = i := fun i => by simp [Fs.id, setId, setEntry]
  have hidne : ∀ i : ℤ, ∀ a ∈ L p, (s.setId fd i).id a = s.id a := fun i a ha => by
    have hne : a ≠ fd := fun hc => hfd p (hc ▸ ha)
    simp [Fs.id, setId, setEntry, hne]
  by_cases hne : L p = []
  · have hhead : s.heads p = none := (h.seg p).head_eq.trans (by rw [hne]; rfl)
    have hset : (s.setId fd 0).Tables L lo := h.setEntry hfd _
    refine ⟨0, [], [], _, ?_, hne, h.lo_nonpos, by simp [hne],
      ⟨hset.insert hp hne hal hfd ?_ (by simp) (by simp), rfl, rfl, hfd⟩, rfl, rfl⟩
    · rw [addDescriptor, hhead]
      rfl
    · rw [hid]
      exact h.lo_nonpos
  · obtain ⟨l₁, a, l₂, hL, hwalk, -, hgap⟩ := exists_gap h hne
    have hset : (s.setId fd (s.id a + 1)).Tables L lo := h.setEntry hfd _
    obtain ⟨b, l, hbl⟩ := List.exists_cons_of_ne_nil hne
    have hhead : s.heads p = some b := (h.seg p).head_eq.trans (by rw [hbl]; rfl)
    have hlt : ∀ c ∈ l₁ ++ [a], s.id c < s.id a + 1 := fun c hc => by
      rcases List.mem_append.mp hc with hc | hc
      · have hL' : L p = l₁ ++ a :: l₂ := by simpa using hL
        have hlt := (h.sorted_mid hL').1 c hc
        omega
      · rw [List.mem_singleton.mp hc]
        omega
    have ha : a ∈ L p := by simp [hL]
    have hafd : a ≠ fd := fun hc => hfd p (hc ▸ ha)
    have hpos := h.lo_le p a ha
    refine ⟨s.id a + 1, l₁ ++ [a], l₂, _, ?_, hL, by omega, fun c hc => ?_,
      ⟨hset.insert hp hL hal hfd ?_ (fun c hc => ?_) (fun c hc => ?_), ?_, ?_, hfd⟩, ?_, ?_⟩
    · rw [hhead] at hwalk
      rw [addDescriptor, hhead]
      simp only [hwalk, Option.bind_eq_bind, Option.bind_some, Option.pure_def]
      rw [spliceIn, List.getLast?_concat]
      simp only [link, setNext]
      rw [Function.update_comm hafd]
    · rcases List.mem_append.mp (hL ▸ hc) with hc | hc
      · exact (hlt c hc).ne
      · exact (hgap c hc).ne'
    · rw [hid]
      omega
    · rw [hid, hidne _ _ (hL ▸ List.mem_append_left _ hc)]
      exact hlt c hc
    · rw [hid, hidne _ _ (hL ▸ List.mem_append_right _ hc)]
      exact hgap c hc
    · simp [setId, setEntry]
    · simp [setId, setEntry]
    · simp [setId, setEntry]
    · simp [setId, setEntry]

/-! ### `kfopen` and `kpipe` -/

/-- **What `kfopen` does**: it opens what the path leads to; on an error no more than the
device's state changes, and else a descriptor of the opened device is spliced in under a
free number. -/
theorem kfopen_resolved (h : s.Tables L lo) (v : Vfs σ) (m : Kmalloc) (hp : p ∈ s.procs)
    {path : List UInt8} {flags : ℕ} {r : ℤ} (hs : s.kfopen v m p path flags = some (r, s')) :
    (r < 0 ∧ s' = s) ∨
      ∃ device rest openFunc returned dev,
        v.getPathDevice path p s.dev = some (some (device, rest)) ∧
        (v.device device).openFunc = some openFunc ∧
        openFunc rest flags s.dev = some (returned, dev) ∧
        ((returned.value ≠ 0 ∧ r < 0 ∧ s' = s.setDev dev) ∨
          ∃ k₁ k₂, returned.value = 0 ∧ lo ≤ r ∧ L p = k₁ ++ k₂ ∧ (∀ a ∈ L p, s.id a ≠ r) ∧
            s'.dev = dev ∧
            Spliced s s' L p k₁ k₂ (m.addr s.allocated)
              ⟨r, flags, device, returned.pointer⟩ lo) := by
  obtain ⟨resolution, hpath, hs⟩ := Option.bind_eq_some_iff.mp hs
  rcases resolution with _ | ⟨device, rest⟩
  · obtain ⟨rfl, rfl⟩ := Prod.mk.inj (Option.some.inj hs)
    exact Or.inl ⟨by decide, rfl⟩
  cases hopen : (v.device device).openFunc with
  | none =>
    simp only [hopen] at hs
    obtain ⟨rfl, rfl⟩ := Prod.mk.inj (Option.some.inj hs)
    exact Or.inl ⟨by decide, rfl⟩
  | some openFunc =>
    simp only [hopen] at hs
    obtain ⟨⟨returned, dev⟩, hret, hs⟩ := Option.bind_eq_some_iff.mp hs
    refine Or.inr ⟨device, rest, openFunc, returned, dev, hpath, hopen, hret, ?_⟩
    simp only at hs
    split_ifs at hs with hval
    · obtain ⟨rfl, rfl⟩ := Prod.mk.inj (Option.some.inj hs)
      exact Or.inl ⟨hval, lt_of_le_of_ne returned.value_le hval, rfl⟩
    · obtain ⟨htab, hal, hfresh⟩ := (h.setDev dev).kmalloc m
      obtain ⟨i, k₁, k₂, t, hadd, hL, hi, hfree, hspl, hdev, -⟩ :=
        addDescriptor_spec (htab.setEntry hfresh ⟨0, flags, device, returned.pointer⟩)
          (p := p) hp hal hfresh
      obtain ⟨rfl, rfl⟩ := Prod.mk.inj (Option.some.inj (hadd.symm.trans hs))
      refine Or.inr ⟨k₁, k₂, not_not.mp hval, hi, hL, fun a ha => ?_, hdev, hspl.tables, ?_,
        hspl.procs, hfresh⟩
      · have hne : a ≠ m.addr s.allocated := ne_of_mem_of_not_mem ha (hfresh p)
        have hfa := hfree a ha
        simpa [Fs.id, Fs.setEntry, setDev_allocated, Fs.kmalloc, hne] using hfa
      · rw [hspl.entry]
        simp [Fs.setEntry, Fs.kmalloc]

/-- `kfopen`, whatever the path leads to. -/
theorem kfopen_cases (h : s.Tables L lo) (v : Vfs σ) (m : Kmalloc) (hp : p ∈ s.procs)
    {path : List UInt8} {flags : ℕ} {r : ℤ} (hs : s.kfopen v m p path flags = some (r, s')) :
    (r < 0 ∧ s' = s) ∨
      ∃ device rest openFunc returned dev,
        (v.device device).openFunc = some openFunc ∧
        openFunc rest flags s.dev = some (returned, dev) ∧
        ((r < 0 ∧ s' = s.setDev dev) ∨
          ∃ k₁ k₂, returned.value = 0 ∧ lo ≤ r ∧ L p = k₁ ++ k₂ ∧ (∀ a ∈ L p, s.id a ≠ r) ∧
            s'.dev = dev ∧
            Spliced s s' L p k₁ k₂ (m.addr s.allocated)
              ⟨r, flags, device, returned.pointer⟩ lo) := by
  refine (kfopen_resolved h v m hp hs).imp_right ?_
  rintro ⟨device, rest, openFunc, returned, dev, -, hopen, hret, hdone⟩
  exact ⟨device, rest, openFunc, returned, dev, hopen, hret, hdone.imp_left And.right⟩

/-- **What `kpipe` does**: it splices in two descriptors of the new pipe, the read
end and the write end, under two free numbers. -/
theorem kpipe_spec (h : s.Tables L lo) (v : Vfs σ) (m mp : Kmalloc) (hp : p ∈ s.procs) :
    ∃ i j s' fd₁ fd₂ k₁ k₂ l₁ l₂, s.kpipe v m p mp = some ((i, j), s') ∧ lo ≤ i ∧ lo ≤ j ∧ i ≠ j ∧
      (∀ a ∈ L p, s.id a ≠ i ∧ s.id a ≠ j) ∧ L p = k₁ ++ k₂ ∧ k₁ ++ fd₁ :: k₂ = l₁ ++ l₂ ∧
      fd₁ ≠ fd₂ ∧ (∀ q, fd₁ ∉ L q ∧ fd₂ ∉ L q) ∧
      s'.Tables (Function.update L p (l₁ ++ fd₂ :: l₂)) lo ∧
      s'.entry = Function.update (Function.update s.entry fd₁
        ⟨i, 0, v.pipeDeviceOut, (v.newPipe mp s.dev).1⟩) fd₂
        ⟨j, 0, v.pipeDeviceIn, (v.newPipe mp s.dev).1⟩ ∧
      s'.procs = s.procs ∧ s'.dev = (v.newPipe mp s.dev).2 := by
  set pipe := (v.newPipe mp s.dev).1
  set dev := (v.newPipe mp s.dev).2
  set fd₁ := m.addr s.allocated
  set fd₂ := m.addr (insert fd₁ s.allocated)
  -- the state in which both nodes are filled in and none is linked
  set t := ((((s.setDev dev).kmalloc m).2.setEntry fd₁ ⟨0, 0, v.pipeDeviceOut, pipe⟩).kmalloc
    m).2.setEntry fd₂ ⟨0, 0, v.pipeDeviceIn, pipe⟩ with ht
  obtain ⟨htab₁, -, hfresh₁⟩ := (h.setDev dev).kmalloc m
  obtain ⟨htab₂, -, hfresh₂⟩ :=
    (htab₁.setEntry hfresh₁ ⟨0, 0, v.pipeDeviceOut, pipe⟩).kmalloc m
  have htab : t.Tables L lo := htab₂.setEntry hfresh₂ _
  have hne : fd₁ ≠ fd₂ :=
    ne_of_mem_of_not_mem (Finset.mem_insert_self fd₁ s.allocated) (m.fresh _)
  have hentry : t.entry = Function.update (Function.update s.entry fd₁
      ⟨0, 0, v.pipeDeviceOut, pipe⟩) fd₂ ⟨0, 0, v.pipeDeviceIn, pipe⟩ := rfl
  have hal₁ : fd₁ ∈ t.allocated :=
    Finset.mem_insert_of_mem (Finset.mem_insert_self fd₁ s.allocated)
  have hal₂ : fd₂ ∈ t.allocated := Finset.mem_insert_self _ _
  have hold : ∀ a ∈ L p, t.id a = s.id a := fun a ha => by
    have h₁ : a ≠ fd₁ := ne_of_mem_of_not_mem ha (hfresh₁ p)
    have h₂ : a ≠ fd₂ := ne_of_mem_of_not_mem ha (hfresh₂ p)
    simp [Fs.id, hentry, h₁, h₂]
  obtain ⟨i, k₁, k₂, t₁, hadd₁, hL, hi, hfree₁, hspl₁, hdev₁, halloc₁⟩ :=
    addDescriptor_spec htab (p := p) hp hal₁ hfresh₁
  have hfd₂ : ∀ q, fd₂ ∉ Function.update L p (k₁ ++ fd₁ :: k₂) q := by
    rw [Function.forall_update_iff L fun _ l => fd₂ ∉ l]
    refine ⟨fun hc => ?_, fun q _ => hfresh₂ q⟩
    rcases List.mem_append.mp hc with hc | hc
    · exact hfresh₂ p (hL ▸ List.mem_append_left _ hc)
    · rcases List.mem_cons.mp hc with hc | hc
      · exact hne hc.symm
      · exact hfresh₂ p (hL ▸ List.mem_append_right _ hc)
  obtain ⟨j, l₁, l₂, t₂, hadd₂, hL₂, hj, hfree₂, hspl₂, hdev₂, -⟩ :=
    addDescriptor_spec hspl₁.tables (p := p) (hspl₁.procs ▸ hp) (halloc₁ ▸ hal₂) hfd₂
  rw [Function.update_self] at hL₂ hfree₂
  have hentry₁ : t₁.entry fd₁ = ⟨i, 0, v.pipeDeviceOut, pipe⟩ := by
    rw [hspl₁.entry, Function.update_self, hentry, Function.update_of_ne hne,
      Function.update_self]
  have hid₁ : ∀ a ∈ L p, t₁.id a = s.id a := fun a ha => by
    have h₁ : a ≠ fd₁ := ne_of_mem_of_not_mem ha (hfresh₁ p)
    rw [← hold a ha, Fs.id, hspl₁.entry, Function.update_of_ne h₁]
    rfl
  have hsub : ∀ a ∈ L p, a ∈ k₁ ++ fd₁ :: k₂ := fun a ha => by
    rw [hL] at ha
    exact List.mem_append.mpr ((List.mem_append.mp ha).imp_right (List.mem_cons_of_mem fd₁))
  refine ⟨i, j, t₂, fd₁, fd₂, k₁, k₂, l₁, l₂, ?_, hi, hj, ?_, fun a ha => ⟨?_, ?_⟩, hL, hL₂, hne,
    fun q => ⟨hfresh₁ q, hfresh₂ q⟩, ?_, ?_, ?_, ?_⟩
  · have hkpipe : s.kpipe v m p mp = (t.addDescriptor p fd₁).bind fun r =>
        (r.2.addDescriptor p fd₂).bind fun r' => some ((r.1, r'.1), r'.2) := rfl
    rw [hkpipe, hadd₁, Option.bind_some, hadd₂, Option.bind_some]
  · have hfd₁ := hfree₂ fd₁ (by simp)
    simpa [Fs.id, hentry₁] using hfd₁
  · rw [← hold a ha]
    exact hfree₁ a ha
  · rw [← hid₁ a ha]
    exact hfree₂ a (hsub a ha)
  · have htab' := hspl₂.tables
    rwa [Function.update_idem] at htab'
  · rw [hspl₂.entry, hspl₁.entry, hentry]
    simp only [Function.update_self, Function.update_of_ne hne, Function.update_of_ne hne.symm]
    rw [Function.update_comm hne, Function.update_idem, Function.update_comm hne.symm,
      Function.update_idem]
  · exact hspl₂.procs.trans hspl₁.procs
  · exact hdev₂.trans hdev₁

/-! ### `kfclose` -/

theorem kfclose_of_notMem (h : s.Tables L lo) (v : Vfs σ) {i : ℤ} (hi : ∀ a ∈ L p, s.id a ≠ i) :
    s.kfclose v p i = some (-eBADF, s) := by
  rw [kfclose, findDescriptor_of_notMem h hi]
  rfl

/-- **What `kfclose` does** to a descriptor that is there: the device is told, and
the node is spliced out and freed. -/
theorem kfclose_of_mem (h : s.Tables L lo) (v : Vfs σ) (hL : L p = l₁ ++ a :: l₂) :
    s.kfclose v p (s.id a) = (callClose v (s.entry a) s.dev).map fun dev =>
      (0, (s.setDev dev).spliceOut p l₁ l₂ a) := by
  rw [kfclose, findDescriptor_of_mem h hL]
  simp only [Option.bind_eq_bind, Option.bind_some, Option.pure_def, h.next_eq hL]
  cases callClose v (s.entry a) s.dev <;> rfl

/-- The tables after a descriptor has been spliced out and freed. -/
theorem Tables.spliceOut (h : s.Tables L lo) (hL : L p = l₁ ++ a :: l₂) :
    (s.spliceOut p l₁ l₂ a).Tables (Function.update L p (l₁ ++ l₂)) lo := by
  obtain ⟨hrem, hnot⟩ := h.remove hL
  exact hrem.kfree hnot

/-- The tables after one node has taken another's place and number. -/
theorem Tables.exchange (h : s.Tables L lo) (hL : L p = l₁ ++ a :: l₂) (hal : fd ∈ s.allocated)
    (hfd : ∀ q, fd ∉ L q) (hid : s.id fd = s.id a) :
    ((s.spliceOut p l₁ l₂ a).spliceIn p l₁ l₂ fd).Tables
      (Function.update L p (l₁ ++ fd :: l₂)) lo := by
  have ha : a ∈ L p := by simp [hL]
  have hne : fd ≠ a := fun hc => hfd p (hc ▸ ha)
  obtain ⟨hlt₁, hlt₂⟩ := h.sorted_mid hL
  have hfd' : ∀ q, fd ∉ Function.update L p (l₁ ++ l₂) q := by
    rw [Function.forall_update_iff L fun _ l => fd ∉ l]
    refine ⟨fun hc => hfd p ?_, fun q _ => hfd q⟩
    rw [hL]
    exact List.mem_append.mpr ((List.mem_append.mp hc).imp_right (List.mem_cons_of_mem a))
  have hal' : fd ∈ (s.spliceOut p l₁ l₂ a).allocated :=
    Finset.mem_erase.mpr ⟨hne, by simpa using hal⟩
  have hins := (h.spliceOut hL).insert (by simpa using h.of_mem ha)
    (Function.update_self p (l₁ ++ l₂) L) hal' hfd' ?_ (fun b hb => ?_) fun b hb => ?_
  · rwa [Function.update_idem] at hins
  · rw [spliceOut_id, hid]
    exact h.lo_le p a ha
  · rw [spliceOut_id, hid]
    exact hlt₁ b hb
  · rw [spliceOut_id, hid]
    exact hlt₂ b hb

/-! ### `kdup2` -/

theorem kdup2_of_notMem (h : s.Tables L lo) (v : Vfs σ) (m : Kmalloc) {oldfd newfd : ℤ}
    (hold : ∀ a ∈ L p, s.id a ≠ oldfd) : s.kdup2 v m p oldfd newfd = some (-eBADF, s) := by
  rw [kdup2, findDescriptor_of_notMem h hold]
  rfl

/-- A node of a table that is not its last has a successor. -/
theorem Tables.next_ne_none (h : s.Tables L lo) (hL : L p = l₁ ++ a :: l₂) (hb : b ∈ l₁) :
    s.next b ≠ none := by
  obtain ⟨k₁, k₂, rfl⟩ := List.append_of_mem hb
  have hL' : L p = k₁ ++ b :: (k₂ ++ a :: l₂) := by simp [hL]
  rw [h.next_eq hL']
  simp

/-- Where the inner loop of `kdup2` stops: at the first node whose number is not
smaller, or at the last. -/
theorem walk_placeFor (h : s.Tables L lo) {i : ℤ} (hL : L p = l₁ ++ a :: l₂)
    (hlt : ∀ b ∈ l₁, s.id b < i) (ha : i ≤ s.id a ∨ l₂ = []) :
    walk s.next (fun _ => s.placeFor i) s.fuel none (s.heads p) = some (l₁.getLast?, some a) := by
  have hpass : Passed (fun _ => s.placeFor i) none l₁ := Passed.of_forall fun b hb => by
    have hb' := hlt b hb
    obtain ⟨c, hc⟩ := Option.ne_none_iff_exists'.mp (h.next_ne_none hL hb)
    simp only [placeFor, hc, Option.isNone_some, Bool.or_false, Bool.or_eq_false_iff,
      decide_eq_false_iff_not]
    omega
  have hstop : s.placeFor i a = true := by
    simp only [placeFor, h.next_eq hL, Bool.or_eq_true, decide_eq_true_eq]
    rcases ha with ha | rfl
    · left
      omega
    · exact Or.inr rfl
  exact h.walk_eq hL hpass (by simpa using hstop)

/-- **The inner loop of `kdup2` on a number in use**: the descriptor that has it
is closed and freed, and the new node takes its place. -/
theorem placeDescriptor_of_mem (h : s.Tables L lo) (v : Vfs σ) (hL : L p = l₁ ++ a :: l₂) :
    s.placeDescriptor v p fd (s.id a) = (callClose v (s.entry a) s.dev).map fun dev =>
      (s.id a, ((s.setDev dev).spliceOut p l₁ l₂ a).spliceIn p l₁ l₂ fd) := by
  have hwalk := walk_placeFor h hL (h.sorted_mid hL).1 (Or.inl le_rfl)
  rw [placeDescriptor, hwalk]
  simp only [Option.bind_eq_bind, Option.bind_some, Option.pure_def, if_true,
    kfclose_of_mem h v hL]
  cases hclose : callClose v (s.entry a) s.dev with
  | none => rfl
  | some dev =>
    -- the `next` field of the node that was freed is what it was
    have hlast : l₁.getLast? ≠ some a := fun hc =>
      (List.nodup_append.mp (hL ▸ h.nodup p)).2.2 a (List.mem_of_getLast? hc) a (by simp) rfl
    have hnext : ((s.setDev dev).spliceOut p l₁ l₂ a).next a = l₂.head? :=
      (link_next_of_ne hlast).trans (h.next_eq hL)
    simp only [Option.map_some, Option.bind_some, spliceIn, ← hnext]

/-- **The inner loop of `kdup2` on a free number**: the new node goes where its
number belongs. -/
theorem placeDescriptor_of_notMem (h : s.Tables L lo) (v : Vfs σ) (hne : L p ≠ []) {i : ℤ}
    (hi : ∀ b ∈ L p, s.id b ≠ i) :
    ∃ k₁ k₂, L p = k₁ ++ k₂ ∧ (∀ b ∈ k₁, s.id b < i) ∧ (∀ b ∈ k₂, i < s.id b) ∧
      s.placeDescriptor v p fd i = some (i, s.spliceIn p k₁ k₂ fd) := by
  obtain ⟨k₁, k₂, hL, hpass, hstop⟩ :=
    exists_passed (fun _ b => decide (i < s.id b)) none (L p)
  have hlt : ∀ b ∈ k₁, s.id b < i := fun b hb => by
    have hle : ¬i < s.id b := by simpa using hpass.forall b hb
    have hneq := hi b (hL ▸ List.mem_append_left _ hb)
    omega
  cases k₂ with
  | cons c k =>
    have hc : i < s.id c := by simpa using hstop c rfl
    refine ⟨k₁, c :: k, hL, hlt, fun b hb => ?_, ?_⟩
    · rcases List.mem_cons.mp hb with rfl | hb
      · exact hc
      · exact hc.trans ((h.sorted_mid hL).2 b hb)
    · rw [placeDescriptor, walk_placeFor h hL hlt (Or.inl hc.le)]
      simp only [Option.bind_eq_bind, Option.bind_some, Option.pure_def, hc.ne', if_false, hc,
        if_true]
      rfl
  | nil =>
    -- every number is smaller: the loop stops at the last node
    obtain ⟨l, c, rfl⟩ := (k₁.eq_nil_or_concat').resolve_left fun hc => hne (by simp [hL, hc])
    have hc : s.id c < i := hlt c (by simp)
    refine ⟨l ++ [c], [], hL, hlt, by simp, ?_⟩
    have hL' : L p = l ++ c :: [] := by simpa using hL
    rw [placeDescriptor,
      walk_placeFor h hL' (fun b hb => hlt b (List.mem_append_left _ hb)) (Or.inr rfl)]
    simp only [Option.bind_eq_bind, Option.bind_some, Option.pure_def, hc.ne, if_false, hc.not_gt,
      spliceIn, List.getLast?_concat]
    rfl

/-- **What `kdup2` does**: nothing but allocate a node, when there is nothing to
duplicate; and else it splices a duplicate in where its number belongs – in place
of the descriptor that had the number, which is closed and freed, if there was
one. -/
theorem kdup2_cases (h : s.Tables L lo) (v : Vfs σ) (m : Kmalloc) {oldfd newfd r : ℤ}
    (hnew : lo ≤ newfd) (hs : s.kdup2 v m p oldfd newfd = some (r, s')) :
    (r < 0 ∧ (s' = s ∨ s' = (s.kmalloc m).2) ∧
      ∀ a ∈ L p, s.id a = oldfd → (v.device (s.entry a).device).dupFunc = none) ∨
      ∃ a dupFunc data dev k₁ k₂, r = newfd ∧ a ∈ L p ∧ s.id a = oldfd ∧
        (v.device (s.entry a).device).dupFunc = some dupFunc ∧
        dupFunc (s.entry a).data s.dev = some (data, dev) ∧
        Spliced s s' L p k₁ k₂ (m.addr s.allocated)
          ⟨newfd, dropCloexec (s.entry a).flags, (s.entry a).device, data⟩ lo ∧
        ((L p = k₁ ++ k₂ ∧ (∀ b ∈ L p, s.id b ≠ newfd) ∧ s'.dev = dev) ∨
          ∃ c, L p = k₁ ++ c :: k₂ ∧ s.id c = newfd ∧
            callClose v (s.entry c) dev = some s'.dev) := by
  rcases Tables.split_or L s p oldfd with ⟨l₁, a, l₂, hL, rfl⟩ | hold
  case inr =>
    rw [kdup2_of_notMem h v m hold] at hs
    obtain ⟨rfl, rfl⟩ := Prod.mk.inj (Option.some.inj hs)
    exact Or.inl ⟨by decide, Or.inl rfl, fun a ha hi => absurd hi (hold a ha)⟩
  rw [kdup2, findDescriptor_of_mem h hL] at hs
  simp only [Option.bind_eq_bind, Option.bind_some] at hs
  obtain ⟨hk, hal, hfresh⟩ := h.kmalloc m
  cases hfunc : (v.device (s.entry a).device).dupFunc with
  | none =>
    simp only [kmalloc, hfunc, Option.pure_def, Option.some.injEq, Prod.mk.injEq] at hs
    refine Or.inl ⟨by rw [← hs.1]; decide, Or.inr hs.2.symm, fun b hb hi => ?_⟩
    rw [h.eq_of_id hb (by simp [hL]) hi, hfunc]
  | some dupFunc =>
    simp only [kmalloc, hfunc] at hs
    obtain ⟨⟨data, dev⟩, hdup, hplace⟩ := Option.bind_eq_some_iff.mp hs
    set e : Entry := ⟨newfd, dropCloexec (s.entry a).flags, (s.entry a).device, data⟩
    set t := ((s.kmalloc m).2.setDev dev).setEntry (m.addr s.allocated) e with ht
    replace hplace : t.placeDescriptor v p (m.addr s.allocated) newfd = some (r, s') := hplace
    have htab : t.Tables L lo := (hk.setDev dev).setEntry hfresh e
    have hentry : t.entry = Function.update s.entry (m.addr s.allocated) e := rfl
    have hmem : a ∈ L p := by simp [hL]
    have hid : ∀ b ∈ L p, t.id b = s.id b := fun b hb => by
      have hne : b ≠ m.addr s.allocated := ne_of_mem_of_not_mem hb (hfresh p)
      simp [Fs.id, hentry, hne]
    have hold : ∀ b ∈ L p, t.entry b = s.entry b := fun b hb => by
      have hne : b ≠ m.addr s.allocated := ne_of_mem_of_not_mem hb (hfresh p)
      simp [hentry, hne]
    have hidfd : t.id (m.addr s.allocated) = newfd := by simp [Fs.id, hentry, e]
    right
    rcases Tables.split_or L t p newfd with ⟨k₁, c, k₂, hL', hc⟩ | hfree
    · -- the number is in use: its descriptor is closed and replaced
      have hcmem : c ∈ L p := by simp [hL']
      rw [← hc, placeDescriptor_of_mem htab v hL'] at hplace
      obtain ⟨dev', hclose, heq⟩ := Option.map_eq_some_iff.mp hplace
      obtain ⟨rfl, rfl⟩ := Prod.mk.inj heq
      refine ⟨a, dupFunc, data, dev, k₁, k₂, hc, hmem, rfl, hfunc, hdup,
        ⟨(htab.setDev dev').exchange hL' hal hfresh (hidfd.trans hc.symm), by simp [hentry, e],
          by simp [t], hfresh⟩, Or.inr ⟨c, hL', (hid c hcmem).symm.trans hc, ?_⟩⟩
      rw [← hold c hcmem]
      simpa [t] using hclose
    · -- the number is free
      obtain ⟨k₁, k₂, hL', hlt₁, hlt₂, hplace'⟩ :=
        placeDescriptor_of_notMem htab v (List.ne_nil_of_mem hmem) hfree
      rw [hplace'] at hplace
      obtain ⟨rfl, rfl⟩ := Prod.mk.inj (Option.some.inj hplace)
      refine ⟨a, dupFunc, data, dev, k₁, k₂, rfl, hmem, rfl, hfunc, hdup,
        ⟨htab.insert (h.of_mem hmem) hL' hal hfresh ?_ ?_ ?_, by simpa using hentry,
          by simp [t], hfresh⟩,
        Or.inl ⟨hL', fun b hb => hid b hb ▸ hfree b hb, by simp [t]⟩⟩
      · rw [hidfd]
        exact hnew
      · rwa [hidfd]
      · rwa [hidfd]

/-! ### `clone_file_descriptors` -/

/-- Every device clones its descriptor, in the order of the table: the new
descriptors. -/
def cloneAll (v : Vfs σ) : List Entry → σ → Option (List Entry × σ)
  | [], dev => some ([], dev)
  | e :: es, dev => do
      let cloneFunc ← (v.device e.device).cloneFunc
      let (data, dev) ← cloneFunc e.data dev
      let (es', dev) ← cloneAll v es dev
      return ({ e with data := data } :: es', dev)

/-- A node on no table can be linked to anything. -/
theorem Tables.setNext (h : s.Tables L lo) (hfd : ∀ q, fd ∉ L q) (x : Option Addr) :
    (s.setNext fd x).Tables L lo where
  seg := fun q => (seg_update_of_notMem (hfd q)).mpr (h.seg q)
  alloc := h.alloc
  disjoint := h.disjoint
  sorted := h.sorted
  lo_le := h.lo_le
  lo_nonpos := h.lo_nonpos
  absent := h.absent

/-- What the loop of `clone_file_descriptors` keeps: the nodes `M` built so far
are a chain of nodes in use that are on no table. -/
structure Built (s : Fs σ) (L : ℕ → List Addr) (lo : ℤ) (new : Option Addr) (M : List Addr) :
    Prop where
  tables : s.Tables L lo
  seg : Seg s.next new M none
  alloc : ∀ a ∈ M, a ∈ s.allocated
  fresh : ∀ a ∈ M, ∀ q, a ∉ L q

/-- The state of the loop after one more node `fd`, cloned from `e`. -/
def appendClone (s : Fs σ) (m : Kmalloc) (dev : σ) (e : Entry) : Fs σ :=
  (((s.kmalloc m).2.setDev dev).setEntry (m.addr s.allocated) e).setNext (m.addr s.allocated) none

section AppendClone

variable {new : Option Addr} {M : List Addr} (m : Kmalloc) (dev : σ) (e : Entry)

@[simp] theorem appendClone_heads : (s.appendClone m dev e).heads = s.heads := rfl

@[simp] theorem appendClone_procs : (s.appendClone m dev e).procs = s.procs := rfl

@[simp] theorem appendClone_dev : (s.appendClone m dev e).dev = dev := rfl

theorem appendClone_next :
    (s.appendClone m dev e).next = Function.update s.next (m.addr s.allocated) none := rfl

theorem appendClone_allocated :
    (s.appendClone m dev e).allocated = insert (m.addr s.allocated) s.allocated := rfl

/-- A node that is filled in and not linked yet leaves what was built alone. -/
theorem Built.appendClone (h : s.Built L lo new M) :
    (s.appendClone m dev e).Built L lo new M ∧ m.addr s.allocated ∉ M ∧
      ∀ q, m.addr s.allocated ∉ L q := by
  obtain ⟨htab, -, hfresh⟩ := h.tables.kmalloc m
  have hM : m.addr s.allocated ∉ M := fun hc => m.fresh _ (h.alloc _ hc)
  refine ⟨⟨((htab.setDev dev).setEntry hfresh e).setNext hfresh none, ?_, fun a ha => ?_,
    h.fresh⟩, hM, hfresh⟩
  · rw [appendClone_next]
    exact (seg_update_of_notMem hM).mpr h.seg
  · rw [appendClone_allocated]
    exact Finset.mem_insert_of_mem (h.alloc a ha)

/-- The first clone is the list. -/
theorem Built.first (h : s.Built L lo new []) :
    (s.appendClone m dev e).Built L lo (some (m.addr s.allocated)) [m.addr s.allocated] := by
  obtain ⟨hb, -, hfresh⟩ := h.appendClone m dev e
  refine ⟨hb.tables, ⟨rfl, Function.update_self _ _ _⟩, fun a ha => ?_, fun a ha => ?_⟩
  · rw [List.mem_singleton.mp ha]
    exact Finset.mem_insert_self _ _
  · rw [List.mem_singleton.mp ha]
    exact hfresh

/-- Every other clone is linked behind the last one. -/
theorem Built.append (h : s.Built L lo new (M ++ [a])) :
    ((s.appendClone m dev e).setNext a (some (m.addr s.allocated))).Built L lo new
      (M ++ [a] ++ [m.addr s.allocated]) := by
  obtain ⟨hb, hM, hfresh⟩ := h.appendClone m dev e
  have hne : m.addr s.allocated ≠ a := fun hc => hM (by simp [hc])
  refine ⟨hb.tables.setNext (hb.fresh a (by simp)) _,
    hb.seg.append_node (Function.update_self _ _ _) hne, fun b hbm => ?_, fun b hbm => ?_⟩
  · rcases List.mem_append.mp hbm with hbm | hbm
    · exact hb.alloc b hbm
    · rw [List.mem_singleton.mp hbm]
      exact Finset.mem_insert_self _ _
  · rcases List.mem_append.mp hbm with hbm | hbm
    · exact hb.fresh b hbm
    · rw [List.mem_singleton.mp hbm]
      exact hfresh

/-- **One round of the loop of `clone_file_descriptors`**, whichever way the new
node is linked. -/
theorem Built.round (h : s.Built L lo new M) (hc : a ∈ L p) {v : Vfs σ}
    {cloneFunc : ℕ → σ → Option (ℕ × σ)} {data : ℕ} {dev : σ}
    (hfunc : (v.device (s.entry a).device).cloneFunc = some cloneFunc)
    (hclone : cloneFunc (s.entry a).data s.dev = some (data, dev)) :
    ∃ new' t, t.Built L lo new' (M ++ [m.addr s.allocated]) ∧
      t.entry = Function.update s.entry (m.addr s.allocated) { s.entry a with data := data } ∧
      t.heads = s.heads ∧ t.procs = s.procs ∧ t.dev = dev ∧ s.allocated ⊆ t.allocated ∧
      (∀ b ∈ L p, t.next b = s.next b) ∧
      ∀ n, cloneLoop v m (n + 1) (some a) new M.getLast? s =
        cloneLoop v m n (s.next a) new' (M ++ [m.addr s.allocated]).getLast? t := by
  obtain ⟨-, -, hfresh⟩ := h.appendClone m dev { s.entry a with data := data }
  set e : Entry := { s.entry a with data := data }
  have hkeep : ∀ b ∈ L p, (s.appendClone m dev e).next b = s.next b := fun b hb => by
    rw [appendClone_next, Function.update_of_ne]
    exact ne_of_mem_of_not_mem hb (hfresh p)
  rcases M.eq_nil_or_concat' with rfl | ⟨M₀, b, rfl⟩
  · refine ⟨_, s.appendClone m dev e, h.first m dev e, rfl, rfl, rfl, rfl,
      Finset.subset_insert _ _, hkeep, fun n => ?_⟩
    rw [cloneLoop, ← hkeep a hc]
    simp only [kmalloc_entry, kmalloc_dev, hfunc, hclone, Option.bind_eq_bind, Option.bind_some]
    rfl
  · set t := (s.appendClone m dev e).setNext b (some (m.addr s.allocated))
    have hkeep' : ∀ c ∈ L p, t.next c = s.next c := fun c hc => by
      have hcb : c ≠ b := fun hcb => h.fresh b (by simp) p (hcb ▸ hc)
      exact (Function.update_of_ne hcb _ _).trans (hkeep c hc)
    refine ⟨new, t, h.append m dev e, rfl, rfl, rfl, rfl, Finset.subset_insert _ _, hkeep',
      fun n => ?_⟩
    rw [List.getLast?_concat, List.getLast?_concat, cloneLoop, ← hkeep' a hc]
    simp only [kmalloc_entry, kmalloc_dev, hfunc, hclone, Option.bind_eq_bind, Option.bind_some]
    rfl

end AppendClone

/-- **What the loop of `clone_file_descriptors` does**: it builds a chain of new
nodes that hold the clones, and changes no other node and no table. -/
theorem cloneLoop_spec (v : Vfs σ) (m : Kmalloc) {rest : List Addr} {n : ℕ}
    {cur new new' : Option Addr} {M : List Addr} (hb : s.Built L lo new M)
    (hcur : Seg s.next cur rest none) (hrest : ∀ a ∈ rest, a ∈ L p)
    (hs : cloneLoop v m n cur new M.getLast? s = some (new', s')) :
    ∃ M', s'.Built L lo new' (M ++ M') ∧ (∀ a ∈ s.allocated, s'.entry a = s.entry a) ∧
      s'.heads = s.heads ∧ s'.procs = s.procs ∧
      cloneAll v (rest.map s.entry) s.dev = some (M'.map s'.entry, s'.dev) := by
  induction rest generalizing n cur new M s with
  | nil =>
    obtain rfl : cur = none := hcur
    cases n with
    | zero => simp [cloneLoop] at hs
    | succ n =>
      obtain ⟨rfl, rfl⟩ := Prod.mk.inj (Option.some.inj hs)
      exact ⟨[], by simpa using hb, fun _ _ => rfl, rfl, rfl, rfl⟩
  | cons c rest ih =>
    obtain rfl : cur = some c := hcur.1
    have hc : c ∈ L p := hrest c (by simp)
    have hrest' : ∀ a ∈ rest, a ∈ L p := fun a ha => hrest a (List.mem_cons_of_mem c ha)
    cases n with
    | zero => simp [cloneLoop] at hs
    | succ n =>
      have hs' := hs
      rw [cloneLoop] at hs'
      simp only [Option.bind_eq_bind] at hs'
      obtain ⟨cloneFunc, hfunc, hs'⟩ := Option.bind_eq_some_iff.mp hs'
      obtain ⟨⟨data, dev⟩, hclone, -⟩ := Option.bind_eq_some_iff.mp hs'
      replace hfunc : (v.device (s.entry c).device).cloneFunc = some cloneFunc := hfunc
      replace hclone : cloneFunc (s.entry c).data s.dev = some (data, dev) := hclone
      obtain ⟨new₂, t, ht, hentry, hheads, hprocs, hdev, hsub, hnext, hloop⟩ :=
        hb.round m hc hfunc hclone
      have hold : ∀ a ∈ s.allocated, t.entry a = s.entry a := fun a ha => by
        rw [hentry, Function.update_of_ne]
        exact ne_of_mem_of_not_mem ha (m.fresh s.allocated)
      have hseg : Seg t.next (s.next c) rest none :=
        (seg_congr fun a ha => (hnext a (hrest' a ha)).symm).mp hcur.2
      rw [hloop n] at hs
      obtain ⟨M', h1, h2, h3, h4, h5⟩ := ih ht hseg hrest' hs
      refine ⟨m.addr s.allocated :: M', by simpa using h1,
        fun a ha => (h2 a (hsub ha)).trans (hold a ha), h3.trans hheads, h4.trans hprocs, ?_⟩
      have hmap : rest.map t.entry = rest.map s.entry := List.map_congr_left fun a ha =>
        hold a (hb.tables.alloc p a (hrest' a ha))
      have hfd : s'.entry (m.addr s.allocated) = { s.entry c with data := data } := by
        rw [h2 _ (ht.alloc _ (by simp)), hentry, Function.update_self]
      rw [hmap, hdev] at h5
      simp only [List.map_cons, cloneAll, hfunc, hclone, h5, hfd, Option.bind_eq_bind,
        Option.bind_some, Option.pure_def]

/-- The loop of `clone_file_descriptors` comes to the end of the list. -/
theorem cloneLoop_isSome {v : Vfs σ} (m : Kmalloc)
    (hv : ∀ d, ∃ f, (v.device d).cloneFunc = some f ∧ ∀ data dev, (f data dev).isSome)
    {rest : List Addr} {n : ℕ} {cur new : Option Addr} {M : List Addr} (hb : s.Built L lo new M)
    (hcur : Seg s.next cur rest none) (hrest : ∀ a ∈ rest, a ∈ L p) (hn : rest.length < n) :
    (cloneLoop v m n cur new M.getLast? s).isSome := by
  induction rest generalizing n cur new M s with
  | nil =>
    obtain rfl : cur = none := hcur
    obtain ⟨n, rfl⟩ := Nat.exists_eq_succ_of_ne_zero hn.ne'
    rfl
  | cons c rest ih =>
    obtain rfl : cur = some c := hcur.1
    obtain ⟨n, rfl⟩ := Nat.exists_eq_succ_of_ne_zero (Nat.ne_zero_of_lt hn)
    have hrest' : ∀ a ∈ rest, a ∈ L p := fun a ha => hrest a (List.mem_cons_of_mem c ha)
    obtain ⟨cloneFunc, hfunc, hret⟩ := hv (s.entry c).device
    obtain ⟨⟨data, dev⟩, hclone⟩ := Option.isSome_iff_exists.mp (hret (s.entry c).data s.dev)
    obtain ⟨new₂, t, ht, -, -, -, -, -, hnext, hloop⟩ :=
      hb.round m (hrest c (by simp)) hfunc hclone
    rw [hloop n]
    exact ih ht ((seg_congr fun a ha => (hnext a (hrest' a ha)).symm).mp hcur.2) hrest'
      (Nat.lt_of_succ_lt_succ hn)

/-- Cloning keeps the number and the device of every descriptor. -/
theorem cloneAll_map (v : Vfs σ) : ∀ {es es' : List Entry} {dev dev' : σ},
    cloneAll v es dev = some (es', dev') →
      es'.map (fun e => (e.descriptorId, e.device)) = es.map fun e => (e.descriptorId, e.device)
  | [], es', dev, dev', h => by
    obtain ⟨rfl, -⟩ := Prod.mk.inj (Option.some.inj h)
    rfl
  | e :: es, es', dev, dev', h => by
    simp only [cloneAll, Option.bind_eq_bind] at h
    obtain ⟨cloneFunc, -, h⟩ := Option.bind_eq_some_iff.mp h
    obtain ⟨⟨data, dev₁⟩, -, h⟩ := Option.bind_eq_some_iff.mp h
    obtain ⟨⟨es₁, dev₂⟩, hrest, h⟩ := Option.bind_eq_some_iff.mp h
    obtain ⟨rfl, -⟩ := Prod.mk.inj (Option.some.inj h)
    rw [List.map_cons, List.map_cons, cloneAll_map v hrest]

/-- **What `kfork` does to the tables**: the new process gets a table of its own
that holds the clones, and no other table changes. -/
theorem kfork_spec (h : s.Tables L lo) (v : Vfs σ) (m : Kmalloc) {c : ℕ} (hc : c ∉ s.procs)
    (hs : s.kfork v m p c = some s') :
    ∃ M, s'.Tables (Function.update L c M) lo ∧ (∀ q, ∀ a ∈ L q, s'.entry a = s.entry a) ∧
      s'.procs = insert c s.procs ∧
      cloneAll v ((L p).map s.entry) s.dev = some (M.map s'.entry, s'.dev) := by
  obtain ⟨⟨new, t⟩, hloop, hs⟩ := Option.bind_eq_some_iff.mp hs
  obtain rfl := Option.some.inj hs
  obtain ⟨M, hb, hentry, hheads, hprocs, hclone⟩ := cloneLoop_spec v m (p := p) (M := [])
    ⟨h, rfl, by simp, by simp⟩ (h.seg p) (fun _ ha => ha) hloop
  rw [List.nil_append] at hb
  have hold : ∀ q, ∀ a ∈ L q, t.entry a = s.entry a := fun q a ha => hentry a (h.alloc q a ha)
  have hids : M.map t.id = (L p).map s.id := by
    have hmap := congrArg (List.map Prod.fst) (cloneAll_map v hclone)
    simp only [List.map_map] at hmap
    exact hmap
  refine ⟨M, ⟨fun q => ?_, ?_, fun q r hqr a ha => ?_, ?_, ?_, h.lo_nonpos, fun q hq => ?_⟩, hold,
    ?_, hclone⟩
  · rcases eq_or_ne q c with rfl | hne
    · simpa using hb.seg
    · simpa [hne] using hb.tables.seg q
  · rw [Function.forall_update_iff L fun _ l => ∀ a ∈ l, a ∈ t.allocated]
    exact ⟨hb.alloc, fun q _ => hb.tables.alloc q⟩
  · rcases eq_or_ne q c with rfl | hq
    · rw [Function.update_self] at ha
      rw [Function.update_of_ne hqr.symm]
      exact hb.fresh a ha r
    · rw [Function.update_of_ne hq] at ha
      rcases eq_or_ne r c with rfl | hr
      · rw [Function.update_self]
        exact fun hM => hb.fresh a hM q ha
      · rw [Function.update_of_ne hr]
        exact h.disjoint q r hqr a ha
  · change ∀ q, ((Function.update L c M q).map t.id).Pairwise (· < ·)
    rw [Function.forall_update_iff L fun _ l => (l.map t.id).Pairwise (· < ·)]
    refine ⟨?_, fun q _ => hb.tables.sorted q⟩
    rw [hids]
    exact h.sorted p
  · change ∀ q, ∀ a ∈ Function.update L c M q, lo ≤ t.id a
    rw [Function.forall_update_iff L fun _ l => ∀ a ∈ l, lo ≤ t.id a]
    refine ⟨fun a ha => ?_, fun q _ => hb.tables.lo_le q⟩
    have hmem : t.id a ∈ (L p).map s.id := hids ▸ List.mem_map_of_mem ha
    obtain ⟨b, hb', hbi⟩ := List.mem_map.mp hmem
    exact hbi ▸ h.lo_le p b hb'
  · have hq' : q ≠ c ∧ q ∉ t.procs := by simpa using hq
    rw [Function.update_of_ne hq'.1]
    exact hb.tables.absent q hq'.2
  · rw [hprocs]

end Fs

end Xana