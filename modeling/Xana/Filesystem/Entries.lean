import Xana.Filesystem.Descriptors

/-!
# What holds of every descriptor

A rule for properties of single descriptors: what holds of the new descriptor of every `open`,
`dup` and `clone` callback and of the ends of a pipe, and is lost through no callback, holds of
every descriptor in every run (`Xana.Fs.EntryRule.of_reach`). The property may refer to the
state of the devices, which is where open data is. The descriptors that a run may duplicate can
be restricted (`Xana.Fs.DupsOnly`).
-/

namespace Xana

namespace Fs

variable {σ : Type}

/-- A property of descriptors is kept from one state of the devices to another. -/
def Keeps (Q : σ → Entry → Prop) (dev dev' : σ) : Prop := ∀ e, Q dev e → Q dev' e

theorem Keeps.refl (Q : σ → Entry → Prop) (dev : σ) : Keeps Q dev dev := fun _ he => he

/-- **What the callbacks do to a property** `Q` of descriptors, if no descriptor without the
property `P` is duplicated. -/
structure EntryRule (v : Vfs σ) (Q P : σ → Entry → Prop) : Prop where
  opened : ∀ {d f rest flags dev returned dev'}, (v.device d).openFunc = some f →
    f rest flags dev = some (returned, dev') →
      Keeps Q dev dev' ∧ (returned.value = 0 → ∀ i, Q dev' ⟨i, flags, d, returned.pointer⟩)
  dup : ∀ {e f dev data dev'}, Q dev e → P dev e → (v.device e.device).dupFunc = some f →
    f e.data dev = some (data, dev') →
      Keeps Q dev dev' ∧ ∀ i flags, Q dev' ⟨i, flags, e.device, data⟩
  clone : ∀ {e f dev data dev'}, Q dev e → (v.device e.device).cloneFunc = some f →
    f e.data dev = some (data, dev') → Keeps Q dev dev' ∧ Q dev' { e with data := data }
  stat : ∀ {d f data dev r dev'}, (v.device d).statFunc = some f →
    f data dev = some (r, dev') → Keeps Q dev dev'
  close : ∀ {e dev dev'}, callClose v e dev = some dev' → Keeps Q dev dev'
  pipe : ∀ m dev, Keeps Q dev (v.newPipe m dev).2 ∧
    ∀ i d, d = v.pipeDeviceOut ∨ d = v.pipeDeviceIn →
      Q (v.newPipe m dev).2 ⟨i, 0, d, (v.newPipe m dev).1⟩

/-- The steps that duplicate no descriptor without the property `P`. -/
def DupsOnly (P : σ → Entry → Prop) (s : Fs σ) : Act → Prop
  | .kdup2 p oldfd _ _ => ∀ e ∈ s.table p, e.descriptorId = oldfd → P s.dev e
  | _ => True

/-- A property of every descriptor. -/
def EntriesHold (Q : σ → Entry → Prop) (s : Fs σ) : Prop := ∀ p, ∀ e ∈ s.table p, Q s.dev e

section Rule

variable {v : Vfs σ} {Q P : σ → Entry → Prop} {s s' : Fs σ} {L : ℕ → List Addr} {lo : ℤ} {p q : ℕ}
variable {e e' : Entry} {dev : σ} {k₁ k₂ : List Addr} {fd : Addr}

theorem EntriesHold.congr (h : EntriesHold Q s) (ht : s'.table = s.table)
    (hk : Keeps Q s.dev s'.dev) : EntriesHold Q s' := fun p e he => hk e (h p e (ht ▸ he))

/-- What is on a table once a node has been put on one. -/
theorem Spliced.of_mem_table (h : Spliced s s' L p k₁ k₂ fd e lo) (hs : s.Tables L lo)
    (hk : ∀ a ∈ k₁ ++ k₂, a ∈ L p) (he : e' ∈ s'.table q) : e' = e ∨ e' ∈ s.table q := by
  by_cases hq : q = p
  · subst hq
    rw [h.tables.table_eq, Function.update_self] at he
    obtain ⟨a, ha, rfl⟩ := List.mem_map.mp he
    rcases List.mem_cons.mp (List.perm_middle.subset ha) with rfl | ha
    · exact Or.inl h.entry_self
    · refine Or.inr ?_
      rw [h.entry_of_mem (hk a ha), hs.table_eq]
      exact List.mem_map_of_mem (hk a ha)
  · exact Or.inr (h.table_of_ne hs hq ▸ he)

/-- A new node with the property. -/
theorem EntriesHold.spliced (h : EntriesHold Q s) (hspl : Spliced s s' L p k₁ k₂ fd e lo)
    (hs : s.Tables L lo) (hsub : ∀ a ∈ k₁ ++ k₂, a ∈ L p) (hk : Keeps Q s.dev s'.dev)
    (he : Q s'.dev e) : EntriesHold Q s' := by
  intro q e' he'
  rcases hspl.of_mem_table hs hsub he' with rfl | hold
  · exact he
  · exact hk e' (h q e' hold)

section Calls

variable (hrule : EntryRule v Q P) (h : EntriesHold Q s) (ht : s.Tables L)
include hrule h ht

theorem kfopen_entries (m : Kmalloc) (hp : p ∈ s.procs) {path : List UInt8} {flags : ℕ} {r : ℤ}
    (hs : s.kfopen v m p path flags = some (r, s')) :
    EntriesHold Q s' ∧ Keeps Q s.dev s'.dev := by
  obtain ⟨-, rfl⟩ | ⟨d, rest, f, returned, dev, hf, hr, herr | hok⟩ := kfopen_cases ht v m hp hs
  · exact ⟨h, Keeps.refl Q s'.dev⟩
  · obtain ⟨-, rfl⟩ := herr
    have hk := (hrule.opened hf hr).1
    exact ⟨h.congr rfl hk, hk⟩
  · obtain ⟨k₁, k₂, hvalue, -, hL, -, rfl, hspl⟩ := hok
    obtain ⟨hk, hnew⟩ := hrule.opened hf hr
    exact ⟨h.spliced hspl ht (fun a ha => hL ▸ ha) hk (hnew hvalue r), hk⟩

theorem kpipe_entries (m mp : Kmalloc) (hp : p ∈ s.procs) {ends : ℤ × ℤ}
    (hs : s.kpipe v m p mp = some (ends, s')) : EntriesHold Q s' := by
  obtain ⟨i, j, t, fd₁, fd₂, k₁, k₂, l₁, l₂, hpipe, -, -, -, -, hL, hl, hne, hfresh,
      htab, hentry, -,
    hdev⟩ := kpipe_spec ht v m mp hp
  obtain ⟨-, rfl⟩ := Prod.mk.inj (Option.some.inj (hpipe.symm.trans hs))
  obtain ⟨hk, hnew⟩ := hrule.pipe mp s.dev
  have hold : ∀ q, ∀ a ∈ L q, Q t.dev (t.entry a) := by
    intro q a ha
    rw [hentry, Function.update_of_ne (ne_of_mem_of_not_mem ha (hfresh q).2),
      Function.update_of_ne (ne_of_mem_of_not_mem ha (hfresh q).1), hdev]
    refine hk _ (h q _ ?_)
    rw [ht.table_eq]
    exact List.mem_map_of_mem ha
  intro q e he
  rw [htab.table_eq] at he
  obtain ⟨a, ha, rfl⟩ := List.mem_map.mp he
  by_cases hq : q = p
  · subst hq
    rw [Function.update_self] at ha
    rcases List.mem_cons.mp (List.perm_middle.subset ha) with rfl | ha
    · rw [hentry, Function.update_self, hdev]
      exact hnew j _ (Or.inr rfl)
    · rw [← hl] at ha
      rcases List.mem_cons.mp (List.perm_middle.subset ha) with rfl | ha
      · rw [hentry, Function.update_of_ne hne, Function.update_self, hdev]
        exact hnew i _ (Or.inl rfl)
      · exact hold q a (hL ▸ ha)
  · rw [Function.update_of_ne hq] at ha
    exact hold q a ha

theorem kfclose_entries {fd r : ℤ} (hs : s.kfclose v p fd = some (r, s')) :
    EntriesHold Q s' ∧ Keeps Q s.dev s'.dev := by
  rcases Tables.split_or L s p fd with ⟨l₁, a, l₂, hL, rfl⟩ | hfree
  · have hlaw := kfclose_law ht v hs
    rw [kfclose_of_mem ht v hL] at hs
    obtain ⟨dev, hclose, heq⟩ := Option.map_eq_some_iff.mp hs
    obtain ⟨rfl, rfl⟩ := Prod.mk.inj heq
    rw [if_pos le_rfl] at hlaw
    obtain ⟨-, htable, hothers⟩ := hlaw
    have hk : Keeps Q s.dev ((s.setDev dev).spliceOut p l₁ l₂ a).dev := by
      simpa using hrule.close hclose
    refine ⟨fun q e he => hk e (h q e ?_), hk⟩
    by_cases hq : q = p
    · subst hq
      rw [htable] at he
      exact List.mem_of_mem_filter he
    · rwa [hothers q hq] at he
  · rw [kfclose_of_notMem ht v hfree] at hs
    obtain ⟨-, rfl⟩ := Prod.mk.inj (Option.some.inj hs)
    exact ⟨h, Keeps.refl Q s.dev⟩

theorem kdup2_entries (m : Kmalloc) {oldfd newfd r : ℤ} (hnew : 0 ≤ newfd)
    (hok : ∀ e ∈ s.table p, e.descriptorId = oldfd → P s.dev e)
    (hs : s.kdup2 v m p oldfd newfd = some (r, s')) : EntriesHold Q s' := by
  obtain ⟨-, rfl | rfl, -⟩ | ⟨a, f, data, dev, k₁, k₂, -, ha, hid, hf, hr, hspl, hrest⟩ :=
    kdup2_cases ht v m hnew hs
  · exact h
  · refine h.congr (funext fun q => ?_) (Keeps.refl Q s.dev)
    rw [(ht.kmalloc m).1.table_eq, ht.table_eq]
    rfl
  · have hmem : s.entry a ∈ s.table p := by
      rw [ht.table_eq]
      exact List.mem_map_of_mem ha
    obtain ⟨hk, hdup⟩ := hrule.dup (h p _ hmem) (hok _ hmem hid) hf hr
    rcases hrest with ⟨hL, -, rfl⟩ | ⟨c, hL, -, hclose⟩
    · exact h.spliced hspl ht (fun a ha => hL ▸ ha) hk (hdup newfd _)
    · have hk' := hrule.close hclose
      refine h.spliced hspl ht (fun b hb => ?_) (fun e he => hk' e (hk e he))
        (hk' _ (hdup newfd _))
      rw [hL]
      exact (List.sublist_cons_self c k₂).append_left k₁ |>.subset hb

omit h ht in
theorem kfstat_keeps {fd r : ℤ} (hs : s.kfstat v p fd = some (r, s')) : Keeps Q s.dev s'.dev := by
  obtain ⟨⟨prev, current⟩, -, hs⟩ := Option.bind_eq_some_iff.mp hs
  cases current with
  | none =>
    obtain ⟨-, rfl⟩ := Prod.mk.inj (Option.some.inj hs)
    exact Keeps.refl Q s.dev
  | some current =>
    cases hstat : (v.device (s.entry current).device).statFunc with
    | none =>
      simp only [hstat] at hs
      obtain ⟨-, rfl⟩ := Prod.mk.inj (Option.some.inj hs)
      exact Keeps.refl Q s.dev
    | some statFunc =>
      simp only [hstat] at hs
      obtain ⟨⟨ret, dev⟩, hret, hs⟩ := Option.bind_eq_some_iff.mp hs
      obtain ⟨-, rfl⟩ := Prod.mk.inj (Option.some.inj hs)
      exact hrule.stat hstat hret

theorem kstat_entries (m : Kmalloc) (hp : p ∈ s.procs) {path : List UInt8} {r : ℤ}
    (hs : s.kstat v m p path = some (r, s')) : EntriesHold Q s' := by
  have htable := (kstat_law ht v m hp hs).2
  obtain ⟨⟨fd, s₁⟩, hopen, hs⟩ := Option.bind_eq_some_iff.mp hs
  obtain ⟨h₁, hk₁⟩ := kfopen_entries hrule h ht m hp hopen
  obtain ⟨L₁, ht₁⟩ := kfopen_tables ht v m hp hopen
  simp only at hs
  split_ifs at hs with hfd
  · obtain ⟨-, rfl⟩ := Prod.mk.inj (Option.some.inj hs)
    exact h₁
  · obtain ⟨⟨ret, s₂⟩, hstat, hs⟩ := Option.bind_eq_some_iff.mp hs
    obtain ⟨⟨r', s₃⟩, hclose, hs⟩ := Option.bind_eq_some_iff.mp hs
    obtain ⟨-, rfl⟩ := Prod.mk.inj (Option.some.inj hs)
    have hk₂ : Keeps Q s₁.dev s₂.dev := kfstat_keeps hrule hstat
    obtain ⟨dev, rfl⟩ := kfstat_dev hstat
    have h₂ : EntriesHold Q (s₁.setDev dev) := h₁.congr rfl hk₂
    exact (kfclose_entries hrule h₂ (ht₁.setDev dev) hclose).1

omit h ht in
theorem cloneAll_entries : ∀ {es es' : List Entry} {dev dev' : σ}, (∀ e ∈ es, Q dev e) →
    cloneAll v es dev = some (es', dev') → Keeps Q dev dev' ∧ ∀ e ∈ es', Q dev' e
  | [], es', dev, dev', _, hs => by
    obtain ⟨rfl, rfl⟩ := Prod.mk.inj (Option.some.inj hs)
    exact ⟨Keeps.refl Q dev, fun e he => absurd he List.not_mem_nil⟩
  | e :: es, es', dev, dev', hes, hs => by
    simp only [cloneAll, Option.bind_eq_bind] at hs
    obtain ⟨f, hf, hs⟩ := Option.bind_eq_some_iff.mp hs
    obtain ⟨⟨data, dev₁⟩, hr, hs⟩ := Option.bind_eq_some_iff.mp hs
    obtain ⟨⟨es₁, dev₂⟩, hrest, hs⟩ := Option.bind_eq_some_iff.mp hs
    obtain ⟨rfl, rfl⟩ := Prod.mk.inj (Option.some.inj hs)
    obtain ⟨he, hes⟩ := List.forall_mem_cons.mp hes
    obtain ⟨hk₁, hnew⟩ := hrule.clone he hf hr
    obtain ⟨hk₂, hnew₂⟩ := cloneAll_entries (fun e he => hk₁ e (hes e he)) hrest
    exact ⟨fun e he => hk₂ e (hk₁ e he), List.forall_mem_cons.mpr ⟨hk₂ _ hnew, hnew₂⟩⟩

theorem kfork_entries (m : Kmalloc) {c : ℕ} (hc : c ∉ s.procs) (hs : s.kfork v m p c = some s') :
    EntriesHold Q s' := by
  obtain ⟨M, htab, hentry, -, hclone⟩ := kfork_spec ht v m hc hs
  rw [← ht.table_eq] at hclone
  obtain ⟨hk, hnew⟩ := cloneAll_entries hrule (h p) hclone
  intro q e he
  by_cases hq : q = c
  · subst hq
    rw [htab.table_eq, Function.update_self] at he
    exact hnew e he
  · rw [htab.table_eq, Function.update_of_ne hq, List.map_congr_left (hentry q),
      ← ht.table_eq] at he
    exact hk e (h q e he)

end Calls

/-- **The step lemma.** -/
theorem EntriesHold.step (hrule : EntryRule v Q P) (h : EntriesHold Q s) (ht : s.Tables L) {a : Act}
    (hok : DupsOnly P s a) (hs : Steps v s a s') : EntriesHold Q s' := by
  rw [Steps, Fs.step] at hs
  split_ifs at hs with hp
  cases a with
  | kfopen p path flags m =>
    obtain ⟨⟨r, t⟩, hcall, rfl⟩ := Option.map_eq_some_iff.mp hs
    exact (kfopen_entries hrule h ht m hp hcall).1
  | kpipe p mp m =>
    obtain ⟨⟨r, t⟩, hcall, rfl⟩ := Option.map_eq_some_iff.mp hs
    exact kpipe_entries hrule h ht m mp hp hcall
  | kstat p path m =>
    obtain ⟨⟨r, t⟩, hcall, rfl⟩ := Option.map_eq_some_iff.mp hs
    exact kstat_entries hrule h ht m hp hcall
  | kdup2 p oldfd newfd m =>
    rw [Fs.call] at hs
    split_ifs at hs with hnew
    obtain ⟨⟨r, t⟩, hcall, rfl⟩ := Option.map_eq_some_iff.mp hs
    exact kdup2_entries hrule h ht m hnew hok hcall
  | kfclose p fd =>
    obtain ⟨⟨r, t⟩, hcall, rfl⟩ := Option.map_eq_some_iff.mp hs
    exact (kfclose_entries hrule h ht hcall).1
  | kfork p c m =>
    rw [Fs.call] at hs
    split_ifs at hs with hc
    exact kfork_entries hrule h ht m hc hs

/-- **The run lemma.** -/
theorem EntryRule.of_reach (hrule : EntryRule v Q P) (h : Reach (Steps v) (DupsOnly P) IsInit s) :
    EntriesHold Q s := by
  have hinv : (∃ L, s.Tables L) ∧ EntriesHold Q s := by
    refine h.invariant (P := fun s => (∃ L, s.Tables L) ∧ EntriesHold Q s) ?_ ?_
    · intro s hinit
      refine ⟨⟨_, hinit.tables⟩, fun p e he => ?_⟩
      rw [hinit.tables.table_eq] at he
      exact absurd he List.not_mem_nil
    · rintro s a s' ⟨⟨L, ht⟩, h⟩ hok hs
      exact ⟨ht.step hs, h.step hrule ht hok hs⟩
  exact hinv.2

end Rule

end Fs

end Xana
