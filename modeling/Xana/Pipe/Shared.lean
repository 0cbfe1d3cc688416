import Xana.Filesystem.Population
import Xana.Pipe.Dependents

/-!
# Pipes shared between processes

The descriptor tables over the two pipe devices (`Xana.pipeVfs`): any other
devices, whose callbacks leave the pipes alone, may be there as well. In every
state a run of descriptor calls reaches, each pipe's counts are the numbers of
its descriptors in the tables of all processes, and a pipe is freed with its
buffer by the very call that takes its last descriptor away
(`Xana.Fs.pipeLaws_of_reach`).

A call changes the multiset of all descriptors (`Xana.Fs.descriptors`) as
`Xana.Filesystem.Population` says, and the callbacks it makes on the way keep `Xana.PipeInv`.
`kdup2` makes two of them: it duplicates, and then it closes what was there.
-/

namespace Xana

variable {τ : Type}

/-! ### The devices -/

/-- A device that leaves the pipes alone. -/
def Device.besidePipes (d : Device τ) : Device (PipeHeap × τ) where
  openFunc := d.openFunc.map fun f rest flags dev =>
    (f rest flags dev.2).map fun r => (r.1, dev.1, r.2)
  closeFunc := d.closeFunc.map fun f data dev => (f data dev.2).map fun t => (dev.1, t)
  dupFunc := d.dupFunc.map fun f data dev => (f data dev.2).map fun r => (r.1, dev.1, r.2)
  cloneFunc := d.cloneFunc.map fun f data dev => (f data dev.2).map fun r => (r.1, dev.1, r.2)
  statFunc := d.statFunc.map fun f data dev => (f data dev.2).map fun r => (r.1, dev.1, r.2)

/-- The callbacks `pipe_init` puts in either pipe device. -/
def pipeDevice (device : ℕ) : Device (PipeHeap × τ) where
  openFunc := none
  closeFunc := some fun data dev => some (pipeClose device data dev.1, dev.2)
  dupFunc := some fun data dev =>
    some ((pipeDup device data dev.1).1, (pipeDup device data dev.1).2, dev.2)
  cloneFunc := some fun data dev =>
    some ((pipeClone device data dev.1).1, (pipeClone device data dev.1).2, dev.2)
  statFunc := none

/-- The two pipe devices among the devices of `w`. -/
def pipeVfs (w : Vfs τ) : Vfs (PipeHeap × τ) where
  device d := if IsEnd d then pipeDevice d else (w.device d).besidePipes
  pipeDeviceIn := pipeDeviceIn
  pipeDeviceOut := pipeDeviceOut
  getPathDevice path p dev := w.getPathDevice path p dev.2
  newPipe m dev := ((makePipe m dev.1).1, (makePipe m dev.1).2, dev.2)

/-- What happens to the pipes when nothing is freed and no pipe gets its first or
loses its last descriptor. -/
def Quiet (M : Multiset Entry) (h : PipeHeap) (M' : Multiset Entry) (h' : PipeHeap) : Prop :=
  h'.freed = h.freed ∧ h'.buffer = h.buffer ∧ ∀ x, Used M' x ↔ Used M x

theorem Quiet.releases {M M' M'' : Multiset Entry} {h h' h'' : PipeHeap} (hq : Quiet M h M' h')
    (hr : Releases M' h' M'' h'') : Releases M h M'' h'' := by
  obtain ⟨hf, hb, hu⟩ := hq
  rcases hr with ⟨hf', hk⟩ | ⟨x, hx, hx', hk, hf'⟩
  · exact Or.inl ⟨hf'.trans hf, fun y hy => hk y ((hu y).mpr hy)⟩
  · refine Or.inr ⟨x, (hu x).mp hx, hx', fun y hy hyu => hk y hy ((hu y).mpr hyu), ?_⟩
    rw [hf', hf, hb]

theorem Releases.refl (M : Multiset Entry) (h : PipeHeap) : Releases M h M h :=
  Or.inl ⟨rfl, fun _ hy => hy⟩

section Callbacks

variable {w : Vfs τ} {M : Multiset Entry} {e : Entry} {dev dev' : PipeHeap × τ} {data : ℕ}

/-- `open` callbacks leave the pipes alone, and no end of a pipe has one. -/
theorem openFunc_spec {d : ℕ} {f : List UInt8 → ℕ → PipeHeap × τ → Option (Opened × PipeHeap × τ)}
    {rest : List UInt8} {flags : ℕ} {returned : Opened}
    (hf : ((pipeVfs w).device d).openFunc = some f)
    (hr : f rest flags dev = some (returned, dev')) : ¬IsEnd d ∧ dev'.1 = dev.1 := by
  by_cases hd : IsEnd d
  · simp [pipeVfs, hd, pipeDevice] at hf
  · simp only [pipeVfs, hd, if_false, Device.besidePipes, Option.map_eq_some_iff] at hf
    obtain ⟨f', -, rfl⟩ := hf
    obtain ⟨r, -, heq⟩ := Option.map_eq_some_iff.mp hr
    obtain ⟨-, rfl⟩ := Prod.mk.inj heq
    exact ⟨hd, rfl⟩

theorem statFunc_spec {d : ℕ} {f : ℕ → PipeHeap × τ → Option (ℤ × PipeHeap × τ)} {r : ℤ}
    (hf : ((pipeVfs w).device d).statFunc = some f) (hr : f data dev = some (r, dev')) :
    dev'.1 = dev.1 := by
  by_cases hd : IsEnd d
  · simp [pipeVfs, hd, pipeDevice] at hf
  · simp only [pipeVfs, hd, if_false, Device.besidePipes, Option.map_eq_some_iff] at hf
    obtain ⟨f', -, rfl⟩ := hf
    obtain ⟨r, -, heq⟩ := Option.map_eq_some_iff.mp hr
    obtain ⟨-, rfl⟩ := Prod.mk.inj heq
    rfl

/-- A descriptor that shares what another refers to, or refers to no pipe. -/
theorem PipeInv.shared (hi : PipeInv M dev.1) (he : e ∈ M) {e' : Entry}
    (hdev : e'.device = e.device)
    (hcall : if IsEnd e.device then e'.data = e.data ∧ dev'.1 = (pipeShare e.device e.data dev.1).2
      else dev'.1 = dev.1) :
    PipeInv (e' ::ₘ M) dev'.1 ∧ Quiet M dev.1 (e' ::ₘ M) dev'.1 := by
  split_ifs at hcall with hend
  · obtain ⟨hdata, hheap⟩ := hcall
    rw [hheap]
    refine ⟨hi.share he hend hdev hdata, rfl, rfl, fun x => ?_⟩
    rw [used_cons, hdev, hdata, or_iff_right_of_imp]
    rintro ⟨-, rfl⟩
    exact used_of_mem he hend
  · rw [hcall]
    have hend' : ¬IsEnd e'.device := hdev ▸ hend
    refine ⟨hi.cons_of_not hend', rfl, rfl, fun x => ?_⟩
    rw [used_cons, or_iff_right fun hc => hend' hc.1]

/-- Duplicating a descriptor. -/
theorem PipeInv.dup (hi : PipeInv M dev.1) (he : e ∈ M)
    {f : ℕ → PipeHeap × τ → Option (ℕ × PipeHeap × τ)}
    (hf : ((pipeVfs w).device e.device).dupFunc = some f)
    (hr : f e.data dev = some (data, dev')) (i : ℤ) (flags : ℕ) :
    PipeInv (⟨i, flags, e.device, data⟩ ::ₘ M) dev'.1 ∧
      Quiet M dev.1 (⟨i, flags, e.device, data⟩ ::ₘ M) dev'.1 := by
  refine hi.shared he rfl ?_
  split_ifs with hend
  · simp only [pipeVfs, hend, if_true, pipeDevice, Option.some.injEq] at hf
    subst hf
    obtain ⟨rfl, rfl⟩ := Prod.mk.inj (Option.some.inj hr)
    exact ⟨rfl, rfl⟩
  · simp only [pipeVfs, hend, if_false, Device.besidePipes, Option.map_eq_some_iff] at hf
    obtain ⟨f', -, rfl⟩ := hf
    obtain ⟨r, -, heq⟩ := Option.map_eq_some_iff.mp hr
    obtain ⟨-, rfl⟩ := Prod.mk.inj heq
    rfl

/-- Cloning a descriptor. -/
theorem PipeInv.clone (hi : PipeInv M dev.1) (he : e ∈ M)
    {f : ℕ → PipeHeap × τ → Option (ℕ × PipeHeap × τ)}
    (hf : ((pipeVfs w).device e.device).cloneFunc = some f)
    (hr : f e.data dev = some (data, dev')) :
    PipeInv ({ e with data := data } ::ₘ M) dev'.1 ∧
      Quiet M dev.1 ({ e with data := data } ::ₘ M) dev'.1 := by
  refine hi.shared he rfl ?_
  split_ifs with hend
  · simp only [pipeVfs, hend, if_true, pipeDevice, Option.some.injEq] at hf
    subst hf
    obtain ⟨rfl, rfl⟩ := Prod.mk.inj (Option.some.inj hr)
    exact ⟨rfl, rfl⟩
  · simp only [pipeVfs, hend, if_false, Device.besidePipes, Option.map_eq_some_iff] at hf
    obtain ⟨f', -, rfl⟩ := hf
    obtain ⟨r, -, heq⟩ := Option.map_eq_some_iff.mp hr
    obtain ⟨-, rfl⟩ := Prod.mk.inj heq
    rfl

/-- Closing a descriptor. -/
theorem PipeInv.callClose (hi : PipeInv (e ::ₘ M) dev.1)
    (hr : Fs.callClose (pipeVfs w) e dev = some dev') :
    PipeInv M dev'.1 ∧ Releases (e ::ₘ M) dev.1 M dev'.1 := by
  by_cases hend : IsEnd e.device
  · simp only [Fs.callClose, pipeVfs, hend, if_true, pipeDevice, Option.some.injEq] at hr
    subst hr
    exact hi.close hend
  · have hheap : dev'.1 = dev.1 := by
      simp only [Fs.callClose, pipeVfs, hend, if_false, Device.besidePipes] at hr
      cases hclose : (w.device e.device).closeFunc with
      | none =>
        simp only [hclose, Option.map_none, Option.some.injEq] at hr
        rw [hr]
      | some f =>
        simp only [hclose, Option.map_some, Option.map_eq_some_iff] at hr
        obtain ⟨t, -, rfl⟩ := hr
        rfl
    rw [hheap]
    refine ⟨hi.of_cons_of_not hend, Or.inl ⟨rfl, fun y hy => ?_⟩⟩
    exact (used_cons.mp hy).resolve_left fun hc => hend hc.1

/-- Cloning a table. -/
theorem PipeInv.cloneAll : ∀ {es es' : List Entry} {M : Multiset Entry} {dev dev' : PipeHeap × τ},
    PipeInv M dev.1 → (∀ e ∈ es, e ∈ M) → Fs.cloneAll (pipeVfs w) es dev = some (es', dev') →
      PipeInv (es' + M) dev'.1 ∧ Quiet M dev.1 (es' + M) dev'.1
  | [], es', M, dev, dev', hi, _, h => by
    obtain ⟨rfl, rfl⟩ := Prod.mk.inj (Option.some.inj h)
    rw [Multiset.coe_nil, zero_add]
    exact ⟨hi, rfl, rfl, fun _ => Iff.rfl⟩
  | e :: es, es', M, dev, dev', hi, hes, h => by
    simp only [Fs.cloneAll, Option.bind_eq_bind] at h
    obtain ⟨f, hf, h⟩ := Option.bind_eq_some_iff.mp h
    obtain ⟨⟨data, dev₁⟩, hr, h⟩ := Option.bind_eq_some_iff.mp h
    obtain ⟨⟨es₁, dev₂⟩, hrest, h⟩ := Option.bind_eq_some_iff.mp h
    obtain ⟨rfl, rfl⟩ := Prod.mk.inj (Option.some.inj h)
    obtain ⟨hi₁, hf₁, hb₁, hu₁⟩ := hi.clone (hes e (by simp)) hf hr
    obtain ⟨hi₂, hf₂, hb₂, hu₂⟩ := hi₁.cloneAll
      (fun e' he' => Multiset.mem_cons_of_mem (hes e' (List.mem_cons_of_mem e he'))) hrest
    have hsum : (es₁ : Multiset Entry) + ({ e with data := data } ::ₘ M) =
        (({ e with data := data } :: es₁ : List Entry) : Multiset Entry) + M := by
      rw [← Multiset.cons_coe, Multiset.add_cons, Multiset.cons_add]
    rw [hsum] at hi₂ hu₂
    exact ⟨hi₂, hf₂.trans hf₁, hb₂.trans hb₁, fun x => (hu₂ x).trans (hu₁ x)⟩

end Callbacks

namespace Fs

/-! ### One call -/

section Step

variable {w : Vfs τ} {s s' : Fs (PipeHeap × τ)} {L : ℕ → List Addr} {lo : ℤ} {p : ℕ}

/-- The counts are right, and the tables are tables. -/
def PipesCounted (s : Fs (PipeHeap × τ)) : Prop :=
  (∃ L, s.Tables L) ∧ PipeInv s.descriptors s.dev.1

/-- What the pipes and the descriptors are from one state to another when a call
leads there. -/
def Accounts (s s' : Fs (PipeHeap × τ)) : Prop :=
  PipesCounted s' ∧ Releases s.descriptors s.dev.1 s'.descriptors s'.dev.1

theorem PipesCounted.congr (h : PipesCounted s) (ht : ∃ L, s'.Tables L)
    (hd : s'.descriptors = s.descriptors) (hheap : s'.dev.1 = s.dev.1) : Accounts s s' := by
  rw [Accounts, PipesCounted, hd, hheap]
  exact ⟨⟨ht, h.2⟩, Releases.refl _ _⟩

theorem kfopen_accounts (ht : s.Tables L) (hi : PipeInv s.descriptors s.dev.1) (m : Kmalloc)
    (hp : p ∈ s.procs) {path : List UInt8} {flags : ℕ} {r : ℤ}
    (hs : s.kfopen (pipeVfs w) m p path flags = some (r, s')) :
    Accounts s s' ∧ Quiet s.descriptors s.dev.1 s'.descriptors s'.dev.1 := by
  obtain ⟨htab, ⟨hd, hdev⟩ | ⟨d, rest, f, returned, -, hf, hr, hdone⟩⟩ :=
    kfopen_descriptors ht (pipeVfs w) m hp hs
  · refine ⟨PipesCounted.congr ⟨⟨L, ht⟩, hi⟩ htab hd (by rw [hdev]), ?_⟩
    rw [hd, hdev]
    exact ⟨rfl, rfl, fun _ => Iff.rfl⟩
  obtain ⟨hend, hheap⟩ := openFunc_spec hf hr
  rcases hdone with ⟨-, hd⟩ | ⟨-, hd⟩
  · refine ⟨PipesCounted.congr ⟨⟨L, ht⟩, hi⟩ htab hd hheap, ?_⟩
    rw [hd, hheap]
    exact ⟨rfl, rfl, fun _ => Iff.rfl⟩
  · have hquiet : Quiet s.descriptors s.dev.1 s'.descriptors s'.dev.1 := by
      rw [hd, hheap]
      exact ⟨rfl, rfl, fun x => used_cons.trans (or_iff_right fun hc => hend hc.1)⟩
    refine ⟨⟨⟨htab, ?_⟩, hquiet.releases (Releases.refl _ _)⟩, hquiet⟩
    rw [hd, hheap]
    exact hi.cons_of_not hend

theorem kfclose_accounts (ht : s.Tables L) (hi : PipeInv s.descriptors s.dev.1) {fd r : ℤ}
    (hs : s.kfclose (pipeVfs w) p fd = some (r, s')) : Accounts s s' := by
  obtain ⟨htab, rfl | ⟨e, -, -, hclose, hd⟩⟩ := kfclose_descriptors ht (pipeVfs w) hs
  · exact ⟨⟨⟨L, ht⟩, hi⟩, Releases.refl _ _⟩
  · rw [← hd] at hi
    obtain ⟨hi', hrel⟩ := hi.callClose hclose
    rw [hd] at hrel
    exact ⟨⟨htab, hi'⟩, hrel⟩

theorem kfstat_heap {fd r : ℤ} (hs : s.kfstat (pipeVfs w) p fd = some (r, s')) :
    s'.dev.1 = s.dev.1 := by
  obtain ⟨⟨prev, current⟩, -, hs⟩ := Option.bind_eq_some_iff.mp hs
  cases current with
  | none =>
    obtain ⟨-, rfl⟩ := Prod.mk.inj (Option.some.inj hs)
    rfl
  | some current =>
    cases hstat : ((pipeVfs w).device (s.entry current).device).statFunc with
    | none =>
      simp only [hstat] at hs
      obtain ⟨-, rfl⟩ := Prod.mk.inj (Option.some.inj hs)
      rfl
    | some statFunc =>
      simp only [hstat] at hs
      obtain ⟨⟨ret, dev⟩, hret, hs⟩ := Option.bind_eq_some_iff.mp hs
      obtain ⟨-, rfl⟩ := Prod.mk.inj (Option.some.inj hs)
      exact statFunc_spec hstat hret

theorem kstat_accounts (ht : s.Tables L) (hi : PipeInv s.descriptors s.dev.1) (m : Kmalloc)
    (hp : p ∈ s.procs) {path : List UInt8} {r : ℤ}
    (hs : s.kstat (pipeVfs w) m p path = some (r, s')) : Accounts s s' := by
  obtain ⟨⟨fd, s₁⟩, hopen, hs⟩ := Option.bind_eq_some_iff.mp hs
  obtain ⟨hacc, hquiet⟩ := kfopen_accounts ht hi m hp hopen
  simp only at hs
  split_ifs at hs
  · obtain ⟨-, rfl⟩ := Prod.mk.inj (Option.some.inj hs)
    exact hacc
  · obtain ⟨⟨ret, s₂⟩, hstat, hs⟩ := Option.bind_eq_some_iff.mp hs
    obtain ⟨⟨r', s₃⟩, hclose, hs⟩ := Option.bind_eq_some_iff.mp hs
    obtain ⟨-, rfl⟩ := Prod.mk.inj (Option.some.inj hs)
    have hheap := kfstat_heap hstat
    obtain ⟨dev, rfl⟩ := kfstat_dev hstat
    obtain ⟨⟨⟨L₁, ht₁⟩, hi₁⟩, -⟩ := hacc
    replace hheap : dev.1 = s₁.dev.1 := hheap
    rw [← hheap] at hi₁ hquiet
    obtain ⟨hcount, hrel⟩ := kfclose_accounts (ht₁.setDev dev) hi₁ hclose
    exact ⟨hcount, hquiet.releases hrel⟩

/-- What `kdup2` does to the pipes, whatever the lower bound of the numbers. -/
theorem kdup2_pipes (ht : s.Tables L lo) (hi : PipeInv s.descriptors s.dev.1) (m : Kmalloc)
    (hp : p ∈ s.procs) {oldfd newfd r : ℤ} (hnew : lo ≤ newfd)
    (hs : s.kdup2 (pipeVfs w) m p oldfd newfd = some (r, s')) :
    (∃ L', s'.Tables L' lo) ∧ PipeInv s'.descriptors s'.dev.1 ∧
      Releases s.descriptors s.dev.1 s'.descriptors s'.dev.1 := by
  obtain ⟨htab, ⟨hd, hdev⟩ | ⟨e, he, f, data, dev, -, hf, hr, hrest⟩⟩ :=
    kdup2_descriptors ht (pipeVfs w) m hs
  · rw [hd, hdev]
    exact ⟨min_eq_left hnew ▸ htab, hi, Releases.refl _ _⟩
  rw [min_eq_left hnew] at htab
  obtain ⟨hi', hquiet⟩ := hi.dup (mem_descriptors hp he) hf hr newfd (dropCloexec e.flags)
  rcases hrest with ⟨hdev, hd⟩ | ⟨c, -, hclose, hd⟩
  · rw [← hd, ← hdev] at hi' hquiet
    exact ⟨htab, hi', hquiet.releases (Releases.refl _ _)⟩
  · -- the duplicate is there before the descriptor in its place is closed
    rw [← hd] at hi' hquiet
    obtain ⟨hi'', hrel⟩ := hi'.callClose hclose
    exact ⟨htab, hi'', hquiet.releases hrel⟩

theorem kdup2_accounts (ht : s.Tables L) (hi : PipeInv s.descriptors s.dev.1) (m : Kmalloc)
    (hp : p ∈ s.procs) {oldfd newfd r : ℤ} (hnew : 0 ≤ newfd)
    (hs : s.kdup2 (pipeVfs w) m p oldfd newfd = some (r, s')) : Accounts s s' := by
  obtain ⟨htab, hi', hrel⟩ := kdup2_pipes ht hi m hp hnew hs
  exact ⟨⟨htab, hi'⟩, hrel⟩

theorem kpipe_accounts (ht : s.Tables L) (hi : PipeInv s.descriptors s.dev.1) (m mp : Kmalloc)
    (hp : p ∈ s.procs) {ends : ℤ × ℤ} (hs : s.kpipe (pipeVfs w) m p mp = some (ends, s')) :
    Accounts s s' := by
  obtain ⟨i, j, t, fd₁, fd₂, k₁, k₂, l₁, l₂, hpipe, -, -, -, -, hL, hl, hne, hfresh, htab, hentry,
    hprocs, hdev⟩ := kpipe_spec ht (pipeVfs w) m mp hp
  obtain ⟨-, rfl⟩ := Prod.mk.inj (Option.some.inj (hpipe.symm.trans hs))
  set x := (makePipe mp s.dev.1).1
  have hd : t.descriptors =
      ⟨j, 0, pipeDeviceIn, x⟩ ::ₘ ⟨i, 0, pipeDeviceOut, x⟩ ::ₘ s.descriptors := by
    have hold : ∀ q, ∀ a ∈ L q, t.entry a = s.entry a := fun q a ha => by
      rw [hentry, Function.update_of_ne (ne_of_mem_of_not_mem ha (hfresh q).2),
        Function.update_of_ne (ne_of_mem_of_not_mem ha (hfresh q).1)]
    have hk : KeepsOthers s t p := fun q hq => by
      rw [htab.table_eq, Function.update_of_ne hq, ht.table_eq]
      exact List.map_congr_left (hold q)
    have hperm : (l₁ ++ fd₂ :: l₂).Perm (fd₂ :: fd₁ :: L p) := by
      refine List.perm_middle.trans (List.Perm.cons fd₂ ?_)
      rw [← hl, hL]
      exact List.perm_middle
    have hself : (t.table p : Multiset Entry) =
        ⟨j, 0, pipeDeviceIn, x⟩ ::ₘ ⟨i, 0, pipeDeviceOut, x⟩ ::ₘ (s.table p : Multiset Entry) := by
      have hcoe := Multiset.coe_eq_coe.mpr (hperm.map t.entry)
      rw [List.map_cons, List.map_cons, List.map_congr_left (hold p), ← ht.table_eq, hentry,
        Function.update_self, Function.update_of_ne hne, Function.update_self, ← hentry] at hcoe
      rw [htab.table_eq, Function.update_self]
      exact hcoe
    have hsum := descriptors_of_keepsOthers hk hp hprocs
    rw [hself, Multiset.add_cons, Multiset.add_cons, ← Multiset.cons_add,
      ← Multiset.cons_add] at hsum
    exact add_right_cancel hsum
  have hheap : t.dev.1 = (makePipe mp s.dev.1).2 := by rw [hdev]; rfl
  refine ⟨⟨⟨_, htab⟩, ?_⟩, Or.inl ⟨?_, fun y hy => ?_⟩⟩
  · rw [hd, hheap]
    exact hi.make mp rfl rfl rfl rfl
  · rw [hheap]
    rfl
  · rw [hd]
    exact used_cons.mpr (Or.inr (used_cons.mpr (Or.inr hy)))

theorem kfork_accounts (ht : s.Tables L) (hi : PipeInv s.descriptors s.dev.1) (m : Kmalloc)
    (hp : p ∈ s.procs) {c : ℕ} (hc : c ∉ s.procs)
    (hs : s.kfork (pipeVfs w) m p c = some s') : Accounts s s' := by
  obtain ⟨htab, es, hclone, hd⟩ := kfork_descriptors ht (pipeVfs w) m hc hs
  obtain ⟨hi', hquiet⟩ := hi.cloneAll (fun e he => mem_descriptors hp he) hclone
  rw [← hd] at hi' hquiet
  exact ⟨⟨htab, hi'⟩, hquiet.releases (Releases.refl _ _)⟩

/-- **The step lemma.** -/
theorem PipesCounted.step (h : PipesCounted s) {a : Act} (hs : Steps (pipeVfs w) s a s') :
    Accounts s s' := by
  obtain ⟨⟨L, ht⟩, hi⟩ := h
  rw [Steps, Fs.step] at hs
  split_ifs at hs with hp
  cases a with
  | kfopen p path flags m =>
    obtain ⟨⟨r, t⟩, hcall, rfl⟩ := Option.map_eq_some_iff.mp hs
    exact (kfopen_accounts ht hi m hp hcall).1
  | kpipe p mp m =>
    obtain ⟨⟨r, t⟩, hcall, rfl⟩ := Option.map_eq_some_iff.mp hs
    exact kpipe_accounts ht hi m mp hp hcall
  | kstat p path m =>
    obtain ⟨⟨r, t⟩, hcall, rfl⟩ := Option.map_eq_some_iff.mp hs
    exact kstat_accounts ht hi m hp hcall
  | kdup2 p oldfd newfd m =>
    rw [Fs.call] at hs
    split_ifs at hs with hnew
    obtain ⟨⟨r, t⟩, hcall, rfl⟩ := Option.map_eq_some_iff.mp hs
    exact kdup2_accounts ht hi m hp hnew hcall
  | kfclose p fd =>
    obtain ⟨⟨r, t⟩, hcall, rfl⟩ := Option.map_eq_some_iff.mp hs
    exact kfclose_accounts ht hi hcall
  | kfork p c m =>
    rw [Fs.call] at hs
    split_ifs at hs with hc
    exact kfork_accounts ht hi m hp hc hs

/-! ### Runs -/

/-- The states in which no process has a descriptor yet and there is no pipe. -/
def NoPipes (s : Fs (PipeHeap × τ)) : Prop :=
  s.IsInit ∧ s.dev.1.allocated = ∅ ∧ s.dev.1.made = [] ∧ s.dev.1.freed = []

theorem NoPipes.pipesCounted (h : s.NoPipes) : PipesCounted s := by
  obtain ⟨hinit, halloc, hmade, hfreed⟩ := h
  have hd : s.descriptors = 0 := Finset.sum_eq_zero fun p _ => by
    rw [hinit.tables.table_eq]
    rfl
  have hu : ∀ x, ¬Used s.descriptors x := fun x => not_used_iff.mpr fun d _ => by
    rw [hd]
    rfl
  refine ⟨⟨_, hinit.tables⟩, fun x _ hx => absurd hx (hu x), fun x hx => absurd hx (hu x),
    fun x _ hx => absurd hx (hu x), ?_, ?_⟩
  · simp [halloc]
  · simp [halloc, hmade, hfreed]

/-- **The run lemma.** -/
theorem pipesCounted_of_reach (h : Reach (Steps (pipeVfs w)) anyStep NoPipes s) :
    PipesCounted s :=
  Reach.invariant (fun _ ht => ht.pipesCounted) (fun _ _ _ ht _ hs => (ht.step hs).1) h

/-- **What holds of the pipes** in a state. -/
structure PipeLaws (w : Vfs τ) (s : Fs (PipeHeap × τ)) : Prop where
  /-- A process that does not exist has no descriptors. -/
  absent : ∀ p, p ∉ s.procs → s.table p = []
  /-- `read_dependents` is the number of descriptors of the read end. -/
  readDependents : ∀ x, Used s.descriptors x →
    (s.dev.1.pipe x).readDependents = refs s.descriptors pipeDeviceOut x
  /-- `write_dependents` is the number of descriptors of the write end. -/
  writeDependents : ∀ x, Used s.descriptors x →
    (s.dev.1.pipe x).writeDependents = refs s.descriptors pipeDeviceIn x
  /-- A pipe that a descriptor refers to has not been freed, nor has its buffer. -/
  alloc : ∀ x, Used s.descriptors x →
    x ∈ s.dev.1.allocated ∧ s.dev.1.buffer x ∈ s.dev.1.allocated
  /-- Every other pipe and buffer has. -/
  inUse : ∀ b ∈ s.dev.1.allocated,
    ∃ x, Used s.descriptors x ∧ (b = x ∨ b = s.dev.1.buffer x)
  /-- A block is never freed twice. -/
  balanced : ∀ b, s.dev.1.made.count b =
    s.dev.1.freed.count b + if b ∈ s.dev.1.allocated then 1 else 0
  /-- A call that takes a pipe's last descriptor away frees it and its buffer, and
  no other call frees anything. -/
  releases : ∀ a s', Steps (pipeVfs w) s a s' →
    Releases s.descriptors s.dev.1 s'.descriptors s'.dev.1

/-- One process, no descriptor and no pipe. -/
def bootPipes : Fs (PipeHeap × Unit) :=
  ⟨fun _ => ⟨0, 0, 0, 0⟩, fun _ => none, ∅, {0}, fun _ => none,
    ⟨fun _ => Pipe.new fun _ => 0, fun _ => 0, ∅, [], []⟩, ()⟩

end Step

end Fs

end Xana
