import Xana.Lib.Gap
import Xana.Process.Queue

/-!
# The order of `process_list`

`first_free_pid` counts up along `process_list` and returns where it disagrees.
That number is free when the list is strictly increasing
(`Xana.ProcTable.firstFreePid_notMem`) – and keeping it so is left to
`add_process`, whose insertion loop is introduced by “sort by pid” and puts the
new node *behind* the first greater pid instead of in front of it. So a list
stays sorted for as long as every new pid goes to its end, that is, as long as a
process is only created while the listed pids have no gap
(`Xana.ProcTable.CreatesGapless`), and the first creation that fills a gap
unsorts it.
-/

namespace Xana

namespace ProcTable

/-- **The pids on the list are strictly increasing**, so pairwise distinct, and
the next pid handed out is none of them. -/
def PidsOrdered (s : ProcTable) : Prop :=
  s.pids.Pairwise (· < ·) ∧ s.firstFreePid ∉ s.pids

/-- The operations in which a process is only ever created with the pid
`first_free_pid` returns, as `create_process` does. -/
def createStep (s : ProcTable) : Act → Option ProcTable
  | .add process record =>
      if record.pid = s.firstFreePid then s.step (.add process record) else none
  | a => s.step a

/-- The step relation of creations, exits, ticks and reaps. -/
abbrev CreateSteps (s : ProcTable) (a : Act) (s' : ProcTable) : Prop := s.createStep a = some s'

/-- The condition under which the order survives: a process is created only
while the listed pids are `0, 1, 2, …` without a gap. -/
def CreatesGapless (s : ProcTable) : Act → Prop
  | .add _ _ => Gapless 0 s.pids
  | _ => True

instance (s : ProcTable) : (a : Act) → Decidable (s.CreatesGapless a)
  | .add _ _ => inferInstanceAs (Decidable (Gapless 0 s.pids))
  | .schedule _ | .exit _ | .reap _ => inferInstanceAs (Decidable True)

variable {s s' : ProcTable}

/-! ### `first_free_pid` -/

theorem firstFreePidFrom_eq (procs : Addr → Process) : ∀ (n : ℕ) (l : List Addr),
    firstFreePidFrom procs n l = firstGap n (l.map fun p => (procs p).pid)
  | n, [] => rfl
  | n, p :: l => by
    rw [firstFreePidFrom, List.map_cons, firstGap_cons, firstFreePidFrom_eq procs (n + 1) l]

theorem firstFreePid_eq (s : ProcTable) : s.firstFreePid = firstGap 0 s.pids :=
  firstFreePidFrom_eq s.procs 0 s.processList

/-- **What `first_free_pid` relies on**: on a strictly increasing list it returns
a pid that no listed process has. -/
theorem firstFreePid_notMem (h : s.pids.Pairwise (· < ·)) : s.firstFreePid ∉ s.pids := by
  rw [firstFreePid_eq]
  exact firstGap_notMem h fun b _ => Nat.zero_le b

theorem pidsOrdered_iff : s.PidsOrdered ↔ s.pids.Pairwise (· < ·) :=
  ⟨fun h => h.1, fun h => ⟨h, firstFreePid_notMem h⟩⟩

/-! ### The insertion loop and the order -/

section Insert

variable (procs : Addr → Process) (process : Addr)

/-- When no pid is greater, the process goes to the end. -/
theorem insertAfter_eq_append : ∀ {l : List Addr},
    (∀ q ∈ l, (procs q).pid ≤ (procs process).pid) →
    (insertAfter procs process l).1 = l ++ [process]
  | [], _ => rfl
  | a :: l, h => by
    have ha : ¬(procs process).pid < (procs a).pid := not_lt.mpr (h a (by simp))
    rw [insertAfter, if_neg ha, List.cons_append,
      ← insertAfter_eq_append fun q hq => h q (List.mem_cons_of_mem a hq)]

/-- **The insertion loop unsorts what it inserts into**: a greater pid ends up in
front of the new one. -/
theorem insertAfter_not_pairwise : ∀ {l : List Addr},
    (∃ q ∈ l, (procs process).pid < (procs q).pid) →
      ¬((insertAfter procs process l).1.map fun p => (procs p).pid).Pairwise (· < ·)
  | [], h => by simp at h
  | a :: l, h => by
    rw [insertAfter]
    split_ifs with ha
    · simp only [List.map_cons, List.pairwise_cons, List.mem_cons, not_and]
      intro hc
      exact absurd (hc _ (Or.inl rfl)) (by omega)
    · have hl : ∃ q ∈ l, (procs process).pid < (procs q).pid := by
        obtain ⟨q, hq, hlt⟩ := h
        rcases List.mem_cons.mp hq with rfl | hq
        · exact absurd hlt ha
        · exact ⟨q, hq, hlt⟩
      simp only [List.map_cons, List.pairwise_cons, not_and]
      exact fun _ => insertAfter_not_pairwise hl

end Insert

/-- The pids on the list after `add_process`. -/
theorem addProcess_pids {process first : Addr} {rest : List Addr}
    (hlist : s.processList = first :: rest) (hs : s.addProcess process = some s') :
    s'.pids = (first :: (insertAfter s.procs process rest).1).map fun p => (s.procs p).pid := by
  rw [addProcess, hlist] at hs
  rcases hr : insertAfter s.procs process rest with ⟨rest', _ | _⟩ <;> simp only [hr] at hs
  · cases hq : s.queue with
    | none =>
      rw [hq] at hs
      obtain rfl := Option.some.inj hs
      rfl
    | some h =>
      simp only [hq] at hs
      cases ht : s.queueTail with
      | none => simp [ht] at hs
      | some t =>
        simp only [ht] at hs
        obtain rfl := Option.some.inj hs
        simp [pids]
  · obtain rfl := Option.some.inj hs
    rfl

/-- **`add_process` and the order**: adding to a strictly increasing list leaves
it strictly increasing exactly when every listed pid is smaller. -/
theorem addProcess_pairwise_iff {process : Addr} (hp : s.pids.Pairwise (· < ·))
    (hs : s.addProcess process = some s') :
    s'.pids.Pairwise (· < ·) ↔ ∀ b ∈ s.pids, b < (s.procs process).pid := by
  cases hlist : s.processList with
  | nil =>
    rw [addProcess, hlist] at hs
    obtain rfl := Option.some.inj hs
    simp [pids, hlist]
  | cons first rest =>
    rw [addProcess_pids hlist hs]
    by_cases hle : ∀ q ∈ rest, (s.procs q).pid ≤ (s.procs process).pid
    · rw [insertAfter_eq_append _ _ hle, ← List.cons_append, ← hlist, List.map_append]
      simp only [List.map_cons, List.map_nil, List.pairwise_append, List.mem_singleton, forall_eq]
      exact ⟨fun h => h.2.2, fun h => ⟨hp, List.pairwise_singleton _ _, h⟩⟩
    · push Not at hle
      obtain ⟨q, hq, hlt⟩ := hle
      refine iff_of_false (fun hc => ?_) fun hc => ?_
      · exact insertAfter_not_pairwise s.procs process ⟨q, hq, hlt⟩ (List.pairwise_cons.mp hc).2
      · have hmem : (s.procs q).pid ∈ s.pids :=
          List.mem_map_of_mem (hlist ▸ List.mem_cons_of_mem first hq)
        exact absurd (hc _ hmem) (by omega)

/-! ### The other operations -/

/-- A switch moves processes on the queue, and no pid. -/
theorem switch_pids (hs : s.switch = some s') : s'.pids = s.pids := by
  rw [switch] at hs
  cases hq : s.queue with
  | none =>
    rw [hq] at hs
    rw [Option.some.inj hs]
  | some n =>
    simp only [hq] at hs
    obtain ⟨t, ht, rfl⟩ := Option.map_eq_some_iff.mp hs
    have hpids : (t.switchTo n).pids = t.pids := by simp [pids, switchTo]
    rw [hpids]
    split_ifs at ht
    · rw [putBack] at ht
      cases hn : s.nextOf n with
      | none =>
        simp only [hn] at ht
        obtain rfl := Option.some.inj ht
        rfl
      | some m =>
        simp only [hn] at ht
        cases htl : s.queueTail with
        | none => simp [htl] at ht
        | some u =>
          simp only [htl] at ht
          obtain rfl := Option.some.inj ht
          simp [pids]
    · obtain rfl := Option.some.inj ht
      rfl

theorem schedule_pids {handler : Bool} (hs : s.schedule handler = some s') : s'.pids = s.pids := by
  obtain ⟨t, ht, hd⟩ := Option.bind_eq_some_iff.mp hs
  obtain ⟨-, rfl | ⟨-, rfl⟩⟩ := dispatch_cases hd
  · exact switch_pids ht
  · rw [← switch_pids ht]
    simp [pids]

theorem processExit_pids {handler : Bool} (hs : s.processExit handler = some s') :
    s'.pids = s.pids := by
  rw [schedule_pids hs]
  simp [pids]

/-- Unlinking leaves a sublist. -/
theorem sublist_of_unlink {target : Addr} : ∀ {l l' : List Addr}, unlink target l = some l' →
    l'.Sublist l
  | [], l', h => absurd h (by simp [unlink])
  | a :: l, l', h => by
    rw [unlink] at h
    split_ifs at h with ha
    · obtain rfl := Option.some.inj h
      exact List.sublist_cons_self a l
    · obtain ⟨k, hk, rfl⟩ := Option.map_eq_some_iff.mp h
      exact (sublist_of_unlink hk).cons_cons a

/-- Reaping opens a gap and keeps the order. -/
theorem reap_pids {target : Addr} (hs : s.reap target = some s') : s'.pids.Sublist s.pids := by
  rw [reap] at hs
  split_ifs at hs
  obtain ⟨k, hk, rfl⟩ := Option.map_eq_some_iff.mp hs
  exact (sublist_of_unlink hk).map _

/-! ### Runs -/

/-- **A creation and the order**: on a strictly increasing list, the new pid
keeps it so exactly when there was no gap to fill. -/
theorem createStep_add_iff {process : Addr} {record : Process} (hp : s.pids.Pairwise (· < ·))
    (hs : s.createStep (.add process record) = some s') :
    s'.pids.Pairwise (· < ·) ↔ Gapless 0 s.pids := by
  rw [createStep] at hs
  split_ifs at hs with hpid
  obtain ⟨hnew, -, -, -, hadd⟩ := step_add hs
  set t : ProcTable := { s with procs := Function.update s.procs process record } with ht
  have htp : t.pids = s.pids := by
    refine List.map_congr_left fun q hq => ?_
    simp [ht, ne_of_mem_of_not_mem hq hnew]
  have hself : (t.procs process).pid = firstGap 0 s.pids := by
    simp [ht, hpid, firstFreePid_eq]
  rw [addProcess_pairwise_iff (htp ▸ hp) hadd, htp, hself]
  refine ⟨fun h => ?_, fun h => h.lt_firstGap⟩
  by_contra hg
  obtain ⟨b, hb, hlt⟩ := exists_firstGap_lt hp (fun b _ => Nat.zero_le b) hg
  exact absurd (h b hb) (by omega)

/-- **The step lemma**: from a strictly increasing list, an operation leads to one
exactly when it meets the condition. -/
theorem pidsOrdered_step_iff {a : Act} (h : s.PidsOrdered) (hs : s.CreateSteps a s') :
    s'.PidsOrdered ↔ s.CreatesGapless a := by
  rw [pidsOrdered_iff] at h ⊢
  cases a with
  | add process record => exact createStep_add_iff h hs
  | schedule handler => exact iff_of_true (schedule_pids hs ▸ h) trivial
  | exit handler => exact iff_of_true (processExit_pids hs ▸ h) trivial
  | reap target => exact iff_of_true (h.sublist (reap_pids hs)) trivial

/-- **The run lemma.** -/
theorem pidsOrdered_of_reach (h : Reach CreateSteps CreatesGapless IsInit s) :
    s.PidsOrdered := by
  refine Reach.invariant (P := PidsOrdered) (fun t ht => ?_) (fun t a t' ht ha hs => ?_) h
  · rw [ht, pidsOrdered_iff]
    exact List.pairwise_singleton _ _
  · exact (pidsOrdered_step_iff ht hs).mpr ha

/-- **The pids stay distinct and in order exactly while no gap is filled**: every
state of such a run has strictly increasing pids and a free one to hand out next,
and the first creation outside the condition ends that. -/
theorem pidsOrdered_iff_createsGapless (h : Reach CreateSteps CreatesGapless IsInit s) :
    s.PidsOrdered ∧ ∀ a s', s.CreateSteps a s' → (s'.PidsOrdered ↔ s.CreatesGapless a) :=
  ⟨pidsOrdered_of_reach h, fun _ _ hs => pidsOrdered_step_iff (pidsOrdered_of_reach h) hs⟩

/-- A run inside the condition: the process with the greatest pid exits, is
reaped and its pid is used again. -/
theorem pidsOrdered_iff_createsGapless_reuse :
    ∃ s, exec createStep processInit [.add 1 ⟨1, .initial, none⟩, .schedule false, .exit false,
        .reap 1, .add 2 ⟨1, .initial, none⟩] = some s ∧ s.PidsOrdered ∧ s.pids = [0, 1] := by
  refine ⟨_, rfl, (pidsOrdered_iff_createsGapless ?_).1, rfl⟩
  refine .step (.step (.step (.step (.step (.init rfl) ?_ (a := .add 1 ⟨1, .initial, none⟩) rfl)
    ?_ (a := .schedule false) rfl) ?_ (a := .exit false) rfl) ?_ (a := .reap 1) rfl)
    ?_ (a := .add 2 ⟨1, .initial, none⟩) rfl
  all_goals decide

/-- **A pid is handed out twice**: the process with pid `1` exits and is reaped,
pid `1` is handed out again and goes behind pid `2`, and from there on
`first_free_pid` no longer sees it. -/
theorem exists_reach_not_nodup_pids :
    ∃ s, Reach CreateSteps anyStep IsInit s ∧ s.pids = [0, 2, 1, 1] ∧
      ¬s.pids.Nodup ∧ ¬s.PidsOrdered := by
  have hrun : exec createStep processInit [.add 1 ⟨1, .initial, none⟩,
      .add 2 ⟨2, .initial, none⟩, .schedule false, .exit false, .reap 1,
      .add 3 ⟨1, .initial, none⟩, .add 4 ⟨1, .initial, none⟩] = some _ := rfl
  refine ⟨_, Reach.of_exec (.init rfl) hrun, rfl, by decide, ?_⟩
  exact fun hc => absurd hc.1 (by decide)

end ProcTable

end Xana
