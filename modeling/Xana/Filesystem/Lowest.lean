import Mathlib.Order.Bounds.Basic
import Xana.Filesystem.Descriptors

/-!
# The number of a new descriptor

`add_descriptor` should give a new descriptor the smallest number that is free. It looks
for a gap between two neighbours of the table, and nothing looks in front of the first
node: when the descriptor 0 has been closed, the new one gets a number above the first
that is left.

What it does find is the least free number above the first number in use
(`Xana.Fs.addDescriptor_isLeast`), and 0 for an empty table. This is the least free
number there is if and only if the table does not begin above 0
(`Xana.Fs.addDescriptor_iff_of_reach`). The runs here are without a condition on what is
given to `kdup2`, so a table can also begin below 0.
-/

namespace Xana

namespace Fs

open Chain

variable {σ : Type} {v : Vfs σ} {s s' : Fs σ} {L : ℕ → List Addr} {lo : ℤ} {p : ℕ}

/-! ### All runs -/

/-- What `kfopen`, and `kpipe` for each of its ends, does with a descriptor that it has
filled in, its number aside. -/
def addEntry (s : Fs σ) (m : Kmalloc) (p : ℕ) (e : Entry) : Option (ℤ × Fs σ) :=
  ((s.kmalloc m).2.setEntry (s.kmalloc m).1 e).addDescriptor p (s.kmalloc m).1

/-- A call, or the part of one that adds a descriptor. -/
inductive AnyAct
  | call (a : Act)
  | add (p : ℕ) (e : Entry) (m : Kmalloc)

/-- The process that makes a call. -/
def AnyAct.caller : AnyAct → ℕ
  | .call a => a.caller
  | .add p _ _ => p

/-- One call, and any number may be given to `kdup2`. -/
def anyCall (v : Vfs σ) (s : Fs σ) : AnyAct → Option (Fs σ)
  | .call (.kdup2 p oldfd newfd m) => (s.kdup2 v m p oldfd newfd).map (·.2)
  | .call a => s.call v a
  | .add p e m => (s.addEntry m p e).map (·.2)

/-- A call by a process there is. -/
def anyCalls (v : Vfs σ) (s : Fs σ) (a : AnyAct) : Option (Fs σ) :=
  if a.caller ∈ s.procs then s.anyCall v a else none

/-- The states that any calls lead to. -/
abbrev AnyRun (v : Vfs σ) : Fs σ → Prop :=
  Reach (fun s a s' => s.anyCalls v a = some s') anyStep IsInit

theorem addEntry_spec (h : s.Tables L lo) (m : Kmalloc) (hp : p ∈ s.procs) (e : Entry) :
    ∃ i l₁ l₂ s', s.addEntry m p e = some (i, s') ∧ L p = l₁ ++ l₂ ∧
      Spliced s s' L p l₁ l₂ (m.addr s.allocated) { e with descriptorId := i } lo := by
  obtain ⟨htab, hal, hfresh⟩ := h.kmalloc m
  obtain ⟨i, l₁, l₂, t, hadd, hL, -, -, hspl, -, -⟩ :=
    addDescriptor_spec (htab.setEntry hfresh e) (p := p) hp hal hfresh
  refine ⟨i, l₁, l₂, t, hadd, hL, hspl.tables, ?_, hspl.procs, hfresh⟩
  rw [hspl.entry]
  simp [Fs.setEntry, Fs.kmalloc]

theorem kstat_tables (h : s.Tables L lo) (v : Vfs σ) (m : Kmalloc) (hp : p ∈ s.procs)
    {path : List UInt8} {r : ℤ} (hs : s.kstat v m p path = some (r, s')) :
    ∃ L', s'.Tables L' lo := by
  obtain ⟨⟨fd, s₁⟩, hopen, hs⟩ := Option.bind_eq_some_iff.mp hs
  obtain ⟨L₁, h₁⟩ := kfopen_tables h v m hp hopen
  simp only at hs
  split_ifs at hs with hfd
  · obtain ⟨-, rfl⟩ := Prod.mk.inj (Option.some.inj hs)
    exact ⟨L₁, h₁⟩
  · obtain ⟨⟨ret, s₂⟩, hstat, hs⟩ := Option.bind_eq_some_iff.mp hs
    obtain ⟨⟨r', s₃⟩, hclose, hs⟩ := Option.bind_eq_some_iff.mp hs
    obtain ⟨-, rfl⟩ := Prod.mk.inj (Option.some.inj hs)
    obtain ⟨dev, rfl⟩ := kfstat_dev hstat
    exact kfclose_tables (h₁.setDev dev) v hclose

/-- **The step lemma**: a negative number given to `kdup2` lowers the bound. -/
theorem Tables.anyCalls (h : s.Tables L lo) {a : AnyAct} (hs : s.anyCalls v a = some s') :
    ∃ L' lo', s'.Tables L' lo' := by
  rw [Fs.anyCalls] at hs
  split_ifs at hs with hp
  rcases a with a | ⟨p, e, m⟩
  case add =>
    obtain ⟨⟨i, t⟩, hadd, rfl⟩ := Option.map_eq_some_iff.mp hs
    obtain ⟨j, l₁, l₂, t', hadd', -, hspl⟩ := addEntry_spec h m hp e
    obtain ⟨-, rfl⟩ := Prod.mk.inj (Option.some.inj (hadd'.symm.trans hadd))
    exact ⟨_, lo, hspl.tables⟩
  cases a with
  | kfopen p path flags m =>
    obtain ⟨⟨r, t⟩, hcall, rfl⟩ := Option.map_eq_some_iff.mp hs
    obtain ⟨L', h'⟩ := kfopen_tables h v m hp hcall
    exact ⟨L', lo, h'⟩
  | kpipe p mp m =>
    obtain ⟨⟨r, t⟩, hcall, rfl⟩ := Option.map_eq_some_iff.mp hs
    obtain ⟨i, j, t', fd₁, fd₂, k₁, k₂, l₁, l₂, hpipe, -, -, -, -, -, -, -, -, htab, -⟩ :=
      kpipe_spec h v m mp hp
    obtain ⟨-, rfl⟩ := Prod.mk.inj (Option.some.inj (hpipe.symm.trans hcall))
    exact ⟨_, lo, htab⟩
  | kstat p path m =>
    obtain ⟨⟨r, t⟩, hcall, rfl⟩ := Option.map_eq_some_iff.mp hs
    obtain ⟨L', h'⟩ := kstat_tables h v m hp hcall
    exact ⟨L', lo, h'⟩
  | kdup2 p oldfd newfd m =>
    obtain ⟨⟨r, t⟩, hcall, rfl⟩ := Option.map_eq_some_iff.mp hs
    have hmin := h.mono (min_le_left lo newfd)
    obtain ⟨-, rfl | rfl, -⟩ | ⟨_, _, _, _, _, _, -, -, -, -, -, hspl, -⟩ :=
      kdup2_cases hmin v m (min_le_right lo newfd) hcall
    · exact ⟨L, lo, h⟩
    · exact ⟨L, lo, (h.kmalloc m).1⟩
    · exact ⟨_, _, hspl.tables⟩
  | kfclose p fd =>
    obtain ⟨⟨r, t⟩, hcall, rfl⟩ := Option.map_eq_some_iff.mp hs
    obtain ⟨L', h'⟩ := kfclose_tables h v hcall
    exact ⟨L', lo, h'⟩
  | kfork p c m =>
    rw [Fs.anyCall, Fs.call] at hs
    split_ifs at hs with hc
    · obtain ⟨M, htab, -⟩ := kfork_spec h v m hc hs
      exact ⟨_, lo, htab⟩
    · simp

/-- **The run lemma.** -/
theorem exists_tables_of_anyRun (h : AnyRun v s) : ∃ L lo, s.Tables L lo := by
  refine Reach.invariant (P := fun s => ∃ L lo, s.Tables L lo) (fun t ht => ⟨_, 0, ht.tables⟩)
    (fun t a t' ht _ hs => ?_) h
  obtain ⟨L, lo, ht⟩ := ht
  exact ht.anyCalls hs

/-! ### The gap -/

/-- Numbers that are passed without a gap: all numbers up to each of them. -/
theorem exists_id_of_passed {l : List Addr} {a b : Addr} {k : ℤ}
    (h : Passed s.gapBefore (some a) l) (hb : b ∈ l) (hlo : s.id a < k) (hhi : k ≤ s.id b) :
    ∃ c ∈ l, s.id c = k := by
  induction l generalizing a with
  | nil => simp at hb
  | cons c l ih =>
    obtain ⟨hgap, hrest⟩ := h
    have hc : s.id c ≤ s.id a + 1 := by simpa [gapBefore] using hgap
    rcases (show s.id c ≤ k by omega).eq_or_lt with hk | hk
    · exact ⟨c, List.mem_cons_self, hk⟩
    · rcases List.mem_cons.mp hb with rfl | hb
      · omega
      · obtain ⟨d, hd, hdk⟩ := ih hrest hb hk
        exact ⟨d, List.mem_cons_of_mem c hd, hdk⟩

/-- Where the table of a process begins; an empty table begins with 0. -/
def firstId (s : Fs σ) (p : ℕ) : ℤ := (s.ids p).headD 0

/-- No number is below the first. -/
theorem Tables.firstId_le (h : s.Tables L lo) {k : ℤ} (hk : k ∈ s.ids p) : s.firstId p ≤ k := by
  have hs := h.sorted p
  rw [← h.ids_eq] at hs
  rw [firstId]
  cases hids : s.ids p with
  | nil => simp [hids] at hk
  | cons i l =>
    rw [hids] at hs hk
    rcases List.mem_cons.mp hk with rfl | hk
    · exact le_rfl
    · exact ((List.pairwise_cons.mp hs).1 k hk).le

/-- **What `add_descriptor` finds**: the least number that is free from the first number
in use on. -/
theorem addDescriptor_isLeast (h : s.Tables L lo) {fd : Addr} {i : ℤ}
    (hs : s.addDescriptor p fd = some (i, s')) :
    IsLeast {k : ℤ | s.firstId p ≤ k ∧ k ∉ s.ids p} i := by
  by_cases hne : L p = []
  · have hhead : s.heads p = none := (h.seg p).head_eq.trans (by rw [hne]; rfl)
    rw [addDescriptor, hhead] at hs
    obtain ⟨rfl, -⟩ := Prod.mk.inj (Option.some.inj hs)
    have hids : s.ids p = [] := by rw [h.ids_eq, hne, List.map_nil]
    rw [firstId, hids]
    exact ⟨⟨le_rfl, List.not_mem_nil⟩, fun k hk => hk.1⟩
  · -- the walk stops at the first descriptor with a gap behind it
    obtain ⟨l₁, a, l₂, hL, hwalk, hpass, hgap⟩ := exists_gap h hne
    obtain ⟨b, l, hbl⟩ := List.exists_cons_of_ne_nil hne
    have hhead : s.heads p = some b := (h.seg p).head_eq.trans (by rw [hbl]; rfl)
    have hfirst : s.firstId p = s.id b := by
      rw [firstId, h.ids_eq, hbl]
      rfl
    rw [addDescriptor, hhead] at hs
    rw [hhead] at hwalk
    simp only [hwalk, Option.bind_eq_bind, Option.bind_some, Option.pure_def] at hs
    obtain ⟨rfl, -⟩ := Prod.mk.inj (Option.some.inj hs)
    have ha : s.id a ∈ s.ids p := h.mem_ids.mpr ⟨a, by simp [hL], rfl⟩
    refine ⟨⟨(h.firstId_le ha).trans (by omega), fun hmem => ?_⟩, ?_⟩
    · obtain ⟨c, hc, hid⟩ := h.mem_ids.mp hmem
      have hsorted := (h.sorted_mid (a := a) (by simpa using hL)).1
      rw [hL, List.append_assoc] at hc
      rcases List.mem_append.mp hc with hc | hc
      · have hlt := hsorted c hc
        omega
      · rcases List.mem_cons.mp hc with rfl | hc
        · omega
        · have hlt := hgap c hc
          omega
    · rintro k ⟨hfrom, hfree⟩
      by_contra hlt
      refine hfree (h.mem_ids.mpr ?_)
      rw [hfirst] at hfrom
      rcases hfrom.eq_or_lt with hk | hk
      · exact ⟨b, by simp [hbl], hk⟩
      · -- the numbers from the first on were passed without a gap
        obtain ⟨l', hl'⟩ : ∃ l', l₁ ++ [a] = b :: l' := by
          have hcons := hL.symm.trans hbl
          cases hl : l₁ ++ [a] with
          | nil => simp at hl
          | cons c l' =>
            rw [hl, List.cons_append] at hcons
            exact ⟨l', by rw [(List.cons.inj hcons).1]⟩
        rw [hl'] at hpass
        have hmem : a ∈ b :: l' := hl' ▸ List.mem_append_right _ (List.mem_singleton_self a)
        rcases List.mem_cons.mp hmem with rfl | hmem
        · omega
        · obtain ⟨c, hc, hck⟩ := exists_id_of_passed hpass.2 hmem hk (by omega)
          exact ⟨c, by rw [hL, hl']; simp [hc], hck⟩

/-- **The table does not begin above 0**, and if it begins below, the negative numbers
from there on are in use. -/
def LowInUse (s : Fs σ) (p : ℕ) : Prop :=
  s.firstId p ≤ 0 ∧ ∀ k, s.firstId p ≤ k → k < 0 → k ∈ s.ids p

/-- The least number that is free, and the least that is free from the first number in
use on. -/
theorem Tables.isLeast_iff (h : s.Tables L lo) {i : ℤ}
    (hi : IsLeast {k : ℤ | s.firstId p ≤ k ∧ k ∉ s.ids p} i) :
    IsLeast {k : ℤ | 0 ≤ k ∧ k ∉ s.ids p} i ↔ s.LowInUse p := by
  obtain ⟨⟨hfrom, hfree⟩, hleast⟩ := hi
  constructor
  · rintro ⟨⟨hpos, -⟩, hlow⟩
    refine ⟨?_, fun k hk hneg => ?_⟩
    · by_contra hfirst
      have hzero : (0 : ℤ) ∉ s.ids p := fun hc => hfirst (h.firstId_le hc)
      have hle := hlow ⟨le_rfl, hzero⟩
      omega
    · by_contra hc
      have hle := hleast ⟨hk, hc⟩
      omega
  · rintro ⟨hfirst, hneg⟩
    refine ⟨⟨?_, hfree⟩, ?_⟩
    · by_contra hc
      exact hfree (hneg i hfrom (by omega))
    · rintro k ⟨hk, hkfree⟩
      exact hleast ⟨hfirst.trans hk, hkfree⟩

/-- A node that has been filled in is on no table yet. -/
theorem Tables.ids_setEntry (h : s.Tables L lo) (m : Kmalloc) (e : Entry) :
    (((s.kmalloc m).2.setEntry (s.kmalloc m).1 e).ids p) = s.ids p := by
  obtain ⟨htab, hal, hfresh⟩ := h.kmalloc m
  rw [(htab.setEntry hfresh e).ids_eq, h.ids_eq]
  refine List.map_congr_left fun a ha => ?_
  have hne : a ≠ (s.kmalloc m).1 := ne_of_mem_of_not_mem ha (hfresh p)
  simp [Fs.id, Fs.setEntry, hne]

/-- **When a new descriptor gets the smallest free number**: in any state that calls lead
to, if and only if the table does not begin above 0, or below 0 with a gap. -/
theorem addDescriptor_iff_of_reach (h : AnyRun v s) (m : Kmalloc) (hp : p ∈ s.procs) (e : Entry) :
    ∃ i s', s.addEntry m p e = some (i, s') ∧ i ∉ s.ids p ∧ i ∈ s'.ids p ∧
      (IsLeast {k : ℤ | 0 ≤ k ∧ k ∉ s.ids p} i ↔ s.LowInUse p) := by
  obtain ⟨L, lo, ht⟩ := exists_tables_of_anyRun h
  obtain ⟨i, l₁, l₂, s', hadd, -, hspl⟩ := addEntry_spec ht m hp e
  obtain ⟨htab, hal, hfresh⟩ := ht.kmalloc m
  have hleast := addDescriptor_isLeast (htab.setEntry hfresh e) hadd
  rw [firstId, ht.ids_setEntry m e] at hleast
  have hmem : i ∈ s'.ids p := List.mem_map_of_mem hspl.mem_table
  exact ⟨i, s', hadd, hleast.1.2, hmem, ht.isLeast_iff hleast⟩

/-- The descriptors 0, 1 and 2, the second of which has been closed. -/
theorem addDescriptor_iff_of_reach_gap : ∃ s : Fs Unit, s.ids 0 = [0, 2] ∧
    ∃ i s', s.addEntry bump 0 ⟨0, 0, 0, 0⟩ = some (i, s') ∧
      IsLeast {k : ℤ | 0 ≤ k ∧ k ∉ s.ids 0} i := by
  have hrun : ((exec (anyCalls idleVfs) bootFs [.call (.kfopen 0 [] 0 bump),
      .call (.kfopen 0 [] 0 bump), .call (.kfopen 0 [] 0 bump), .call (.kfclose 0 1)]).map
        fun s => (s.ids 0, s.procs)) = some ([0, 2], {0}) := by decide +kernel
  obtain ⟨s, hs, hids⟩ := Option.map_eq_some_iff.mp hrun
  obtain ⟨hids, hprocs⟩ := Prod.mk.inj hids
  have hreach : AnyRun idleVfs s := Reach.of_exec (.init fun _ => rfl) hs
  obtain ⟨i, s', hadd, -, -, hiff⟩ :=
    addDescriptor_iff_of_reach hreach bump (p := 0) (by simp [hprocs]) ⟨0, 0, 0, 0⟩
  refine ⟨s, hids, i, s', hadd, hiff.mpr ⟨?_, fun k hk hneg => ?_⟩⟩
  · simp [firstId, hids]
  · simp only [firstId, hids, List.headD_cons] at hk
    omega

/-- The descriptors 0, 1 and 2, the first of which has been closed: the next is 3. -/
theorem exists_reach_not_least : ∃ s : Fs Unit, AnyRun idleVfs s ∧ 0 ∈ s.procs ∧
    s.ids 0 = [1, 2] ∧ ∃ s', s.addEntry bump 0 ⟨0, 0, 0, 0⟩ = some (3, s') ∧
      ¬IsLeast {k : ℤ | 0 ≤ k ∧ k ∉ s.ids 0} 3 := by
  have hrun : ((exec (anyCalls idleVfs) bootFs [.call (.kfopen 0 [] 0 bump),
      .call (.kfopen 0 [] 0 bump), .call (.kfopen 0 [] 0 bump), .call (.kfclose 0 0)]).map
        fun s => (s.ids 0, s.procs, (s.addEntry bump 0 ⟨0, 0, 0, 0⟩).map (·.1))) =
      some ([1, 2], {0}, some 3) := by decide +kernel
  obtain ⟨s, hs, hids⟩ := Option.map_eq_some_iff.mp hrun
  obtain ⟨hids, hprocs⟩ := Prod.mk.inj hids
  obtain ⟨hprocs, hadd⟩ := Prod.mk.inj hprocs
  obtain ⟨⟨i, s'⟩, hadd, rfl⟩ := Option.map_eq_some_iff.mp hadd
  refine ⟨s, Reach.of_exec (.init fun _ => rfl) hs, by simp [hprocs], hids, s', hadd, ?_⟩
  rintro ⟨-, hleast⟩
  have hle := hleast (show (0 : ℤ) ∈ {k : ℤ | 0 ≤ k ∧ k ∉ s.ids 0} by simp [hids])
  omega

end Fs

end Xana
