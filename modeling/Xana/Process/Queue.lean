import Mathlib.Data.List.Nodup
import Xana.Lib.Runs
import Xana.Lib.Chain
import Xana.Process.Basic

/-!
# The run queue

Every process that can run is either the one running or on the chain from
`queue`, exactly once (`Xana.ProcTable.NoneDropped`) – as long as `add_process`
is called in a state it can handle (`Xana.ProcTable.Queueable`). It cannot handle
two:

* a pid that belongs before the end of `process_list` is put into the list by the
  early return of the insertion loop, and the queue is never reached;
* `schedule` refills a one-entry queue with the process it switches away from
  without touching `queue_tail`, which then names the process it switches *to*.
  Until the next tick, what `add_process` appends hangs off the current process
  and not off the queue.

The invariant `Xana.ProcTable.QueueInv` keeps the second state as a disjunct: the
tail is the last node of the chain, or the chain has one node and the tail is the
current process. It is why a tick repairs the tail and only `add_process` has to
be kept away from it.
-/

namespace Xana

namespace ProcTable

open Chain

/-- The list of nodes on the chain from `queue` along `queue_next`. -/
def QueueChain (s : ProcTable) (l : List Addr) : Prop := Seg s.nextOf s.queue l none

/-- **No runnable process is dropped from the run queue or queued twice.** -/
def NoneDropped (s : ProcTable) : Prop :=
  ∀ p ∈ s.processList, s.Runnable p →
    p = s.currentProcess ∨ ∃ l, s.QueueChain l ∧ l.count p = 1

/-- The states in which `add_process` queues what it is given: the pid goes to
the end of the list, and `queue_tail` is not the current process of a nonempty
queue. -/
def Queueable (s : ProcTable) : Act → Prop
  | .add _ record =>
      (∀ q ∈ s.processList.tail, (s.procs q).pid ≤ record.pid) ∧
        (s.queue = none ∨ s.queueTail ≠ some s.currentProcess)
  | _ => True

instance (s : ProcTable) : (a : Act) → Decidable (s.Queueable a)
  | .add _ record => inferInstanceAs (Decidable
      ((∀ q ∈ s.processList.tail, (s.procs q).pid ≤ record.pid) ∧
        (s.queue = none ∨ s.queueTail ≠ some s.currentProcess)))
  | .schedule _ | .exit _ | .reap _ => inferInstanceAs (Decidable True)

/-- The step relation of the process table. -/
abbrev Steps (s : ProcTable) (a : Act) (s' : ProcTable) : Prop := s.step a = some s'

/-- The states `process_init` starts from. -/
abbrev IsInit (s : ProcTable) : Prop := s = processInit

/-! ### The invariant -/

/-- What the two queue pointers and the `queue_next` fields look like between two
operations, the current process' own status left open: it may just have been
marked as exited. -/
structure QueueInv (s : ProcTable) (l : List Addr) : Prop where
  /-- The queue is a finite chain. -/
  chain : s.QueueChain l
  /-- The tail is the last node – or the queue has one node and the tail still
  names the process the last switch took from it. -/
  tail : l ≠ [] → s.queueTail = l.getLast? ∨
    (s.queueTail = some s.currentProcess ∧ l.length = 1)
  /-- The current process is not queued. -/
  cur_notMem : s.currentProcess ∉ l
  /-- The current process has no successor. -/
  cur_next : s.nextOf s.currentProcess = none
  /-- What is queued is listed and can run. -/
  mem : ∀ p ∈ l, p ∈ s.processList ∧ s.Runnable p
  /-- What is listed and can run is queued, or current. -/
  complete : ∀ p ∈ s.processList, s.Runnable p → p = s.currentProcess ∨ p ∈ l
  /-- The current process is listed. -/
  cur_mem : s.currentProcess ∈ s.processList

theorem QueueInv.nodup {s : ProcTable} {l : List Addr} (h : s.QueueInv l) : l.Nodup :=
  h.chain.nodup

theorem QueueInv.noneDropped {s : ProcTable} {l : List Addr} (h : s.QueueInv l) :
    s.NoneDropped := fun p hp hr =>
  (h.complete p hp hr).imp_right fun hpl =>
    ⟨l, h.chain, List.count_eq_one_of_mem h.nodup hpl⟩

/-! ### The switch

Between taking `n` off the queue and making it current, `n` stands where the
current process stands between two operations. -/

/-- The queue while `n` has been taken from it and is about to run. -/
structure TakenInv (s : ProcTable) (n : Addr) (l : List Addr) : Prop where
  /-- The queue is a finite chain. -/
  chain : s.QueueChain l
  /-- The tail is the last node – or the queue has one node and the tail still
  names the node taken. -/
  tail : l ≠ [] → s.queueTail = l.getLast? ∨ (s.queueTail = some n ∧ l.length = 1)
  /-- The node taken is off the queue. -/
  notMem : n ∉ l
  /-- What is queued is listed and can run. -/
  mem : ∀ p ∈ l, p ∈ s.processList ∧ s.Runnable p
  /-- What is listed and can run is queued, or was taken. -/
  complete : ∀ p ∈ s.processList, s.Runnable p → p = n ∨ p ∈ l
  /-- The node taken is listed. -/
  taken_mem : n ∈ s.processList

/-- Making the node taken current restores the invariant. -/
theorem TakenInv.switchTo {s : ProcTable} {n : Addr} {l : List Addr} (h : s.TakenInv n l) :
    (s.switchTo n).QueueInv l where
  chain := by
    rw [QueueChain, ProcTable.switchTo, setQueueNext_nextOf]
    exact (seg_update_of_notMem h.notMem).mpr h.chain
  tail := h.tail
  cur_notMem := h.notMem
  cur_next := by simp [ProcTable.switchTo]
  mem := fun p hp => ⟨(h.mem p hp).1, by simpa [Runnable, ProcTable.switchTo] using (h.mem p hp).2⟩
  complete := fun p hp hr => h.complete p hp (by simpa [Runnable, ProcTable.switchTo] using hr)
  cur_mem := h.taken_mem

variable {s s' : ProcTable} {n : Addr} {l : List Addr}

/-- A process that has exited is not put back. -/
theorem QueueInv.taken_of_exited (h : s.QueueInv (n :: l))
    (hrun : ¬s.Runnable s.currentProcess) :
    ({ s with queue := s.nextOf n } : ProcTable).TakenInv n l where
  chain := h.chain.2
  tail := fun hne => by
    rcases h.tail (by simp) with ht | ⟨-, hlen⟩
    · obtain ⟨m, l', rfl⟩ := List.exists_cons_of_ne_nil hne
      exact Or.inl (by rwa [List.getLast?_cons_cons] at ht)
    · have hnil : l = [] := by simpa using hlen
      exact absurd hnil hne
  notMem := (List.nodup_cons.mp h.nodup).1
  mem := fun p hp => h.mem p (List.mem_cons_of_mem n hp)
  complete := fun p hp hr => by
    rcases h.complete p hp hr with rfl | hpl
    · exact absurd hr hrun
    · exact List.mem_cons.mp hpl
  taken_mem := (h.mem n (by simp)).1

/-- A queue of one node is refilled with the process that ran, and the tail is
left behind. -/
theorem QueueInv.taken_of_refill (h : s.QueueInv [n]) (hrun : s.Runnable s.currentProcess) :
    ({ s with queue := some s.currentProcess } : ProcTable).TakenInv n [s.currentProcess] where
  chain := ⟨rfl, h.cur_next⟩
  tail := fun _ => by
    rcases h.tail (by simp) with ht | ⟨ht, -⟩
    · exact Or.inr ⟨by simpa using ht, rfl⟩
    · exact Or.inl (by simpa using ht)
  notMem := by simpa [eq_comm] using h.cur_notMem
  mem := fun p hp => by
    obtain rfl : p = s.currentProcess := by simpa using hp
    exact ⟨h.cur_mem, hrun⟩
  complete := fun p hp hr => by
    rcases h.complete p hp hr with rfl | hpl
    · exact Or.inr (by simp)
    · exact Or.inl (by simpa using hpl)
  taken_mem := (h.mem n (by simp)).1

/-- With two nodes or more, the tail is the last of them. -/
theorem QueueInv.tail_of_concat {t : Addr} (h : s.QueueInv (n :: (l ++ [t]))) :
    s.queueTail = some t := by
  rcases h.tail (by simp) with ht | ⟨-, hlen⟩
  · rw [ht, ← List.cons_append, List.getLast?_concat]
  · simp at hlen

/-- Behind the last of two nodes or more, the process that ran is appended. -/
theorem QueueInv.taken_of_append {t : Addr} (h : s.QueueInv (n :: (l ++ [t])))
    (hrun : s.Runnable s.currentProcess) :
    ({ s.setQueueNext t (some s.currentProcess) with
        queue := s.nextOf n, queueTail := some s.currentProcess } : ProcTable).TakenInv n
      (l ++ [t] ++ [s.currentProcess]) := by
  have hn := (List.nodup_cons.mp h.nodup).1
  have hcur : s.currentProcess ∉ n :: (l ++ [t]) := h.cur_notMem
  have hcurt : s.currentProcess ≠ t := fun hc => hcur (by simp [hc])
  have hchain : Seg s.nextOf (s.nextOf n) (l ++ [t]) none := h.chain.2
  refine ⟨?_, fun _ => Or.inl (by simp), ?_, fun p hp => ?_, fun p hp hr => ?_,
    (h.mem n (by simp)).1⟩
  · change Seg (s.setQueueNext t (some s.currentProcess)).nextOf (s.nextOf n) _ none
    rw [setQueueNext_nextOf]
    exact hchain.append_node h.cur_next hcurt
  · rw [List.mem_append, not_or]
    exact ⟨hn, fun hc => hcur (by simp [List.mem_singleton.mp hc])⟩
  · rcases List.mem_append.mp hp with hp | hp
    · have hpm := h.mem p (List.mem_cons_of_mem n hp)
      exact ⟨hpm.1, by simpa [Runnable] using hpm.2⟩
    · obtain rfl : p = s.currentProcess := by simpa using hp
      exact ⟨h.cur_mem, by simpa [Runnable] using hrun⟩
  · rcases h.complete p hp (by simpa [Runnable] using hr) with rfl | hpl
    · exact Or.inr (by simp)
    · rcases List.mem_cons.mp hpl with rfl | hpl
      · exact Or.inl rfl
      · exact Or.inr (List.mem_append_left _ hpl)

/-- **What a switch does to the queue**: its first node becomes current, and the
process that ran goes to the end if it can still run. -/
theorem QueueInv.switch_line (h : s.QueueInv l) (hs : s.switch = some s') :
    ∃ l', s'.QueueInv l' ∧
      (s.Runnable s.currentProcess → s'.currentProcess :: l' = l ++ [s.currentProcess]) ∧
      (¬s.Runnable s.currentProcess → l ≠ [] → s'.currentProcess :: l' = l) := by
  cases l with
  | nil =>
    have hq : s.queue = none := h.chain
    rw [ProcTable.switch, hq] at hs
    obtain rfl : s = s' := Option.some.inj hs
    exact ⟨[], h, fun _ => rfl, fun _ hne => absurd rfl hne⟩
  | cons n l =>
    have hq : s.queue = some n := h.chain.1
    have hrest : Seg s.nextOf (s.nextOf n) l none := h.chain.2
    rw [ProcTable.switch, hq] at hs
    simp only at hs
    split_ifs at hs with hrun
    · rcases l.eq_nil_or_concat' with rfl | ⟨l, t, rfl⟩
      · have hnext : s.nextOf n = none := hrest
        rw [putBack, hnext] at hs
        obtain rfl := Option.some.inj hs
        exact ⟨_, (h.taken_of_refill hrun).switchTo, fun _ => rfl, fun hno => absurd hrun hno⟩
      · obtain ⟨m, hnext⟩ : ∃ m, s.nextOf n = some m := by
          cases l with
          | nil => exact ⟨t, hrest.1⟩
          | cons m l => exact ⟨m, hrest.1⟩
        rw [putBack, hnext] at hs
        simp only [h.tail_of_concat] at hs
        obtain rfl := Option.some.inj hs
        have ht := (h.taken_of_append hrun).switchTo
        rw [hnext] at ht
        exact ⟨_, ht, fun _ => rfl, fun hno => absurd hrun hno⟩
    · obtain rfl := Option.some.inj hs
      exact ⟨l, (h.taken_of_exited hrun).switchTo, fun hyes => absurd hyes hrun, fun _ _ => rfl⟩

theorem QueueInv.switch (h : s.QueueInv l) (hs : s.switch = some s') : ∃ l', s'.QueueInv l' := by
  obtain ⟨l', hl', -⟩ := h.switch_line hs
  exact ⟨l', hl'⟩

/-! ### The other operations -/

/-- The invariant only reads the two pointers, the links, the list and who can
run. -/
theorem QueueInv.congr (h : s.QueueInv l) (hl : s'.processList = s.processList)
    (hq : s'.queue = s.queue) (ht : s'.queueTail = s.queueTail)
    (hc : s'.currentProcess = s.currentProcess) (hn : s'.nextOf = s.nextOf)
    (hr : ∀ p, s'.Runnable p ↔ s.Runnable p) : s'.QueueInv l where
  chain := by rw [QueueChain, hn, hq]; exact h.chain
  tail := by rw [ht, hc]; exact h.tail
  cur_notMem := by rw [hc]; exact h.cur_notMem
  cur_next := by rw [hn, hc]; exact h.cur_next
  mem := fun p hp => by rw [hl, hr]; exact h.mem p hp
  complete := fun p hp hrun => by
    rw [hc]
    exact h.complete p (hl ▸ hp) ((hr p).mp hrun)
  cur_mem := by rw [hc, hl]; exact h.cur_mem

/-- **What a dispatch does**: it returns only for a process that has not exited,
and at most makes its status `TASK_RUNNING`. -/
theorem dispatch_cases {handler : Bool} (hs : s.dispatch handler = some s') :
    (s.procs s.currentProcess).status ≠ .exited ∧
      (s' = s ∨ (s.Runnable s.currentProcess ∧ s' = s.setStatus s.currentProcess .running)) := by
  cases hst : (s.procs s.currentProcess).status <;> simp only [dispatch, hst] at hs
  case exited => exact absurd hs (by simp)
  case running => exact ⟨by simp, Or.inl (Option.some.inj hs).symm⟩
  case stopped =>
    split_ifs at hs
    exact ⟨by simp, Or.inl (Option.some.inj hs).symm⟩
  case waiting =>
    split_ifs at hs
    exact ⟨by simp, Or.inl (Option.some.inj hs).symm⟩
  case initial =>
    split_ifs at hs
    · exact ⟨by simp, Or.inl (Option.some.inj hs).symm⟩
    · exact ⟨by simp, Or.inr ⟨by simp [Runnable, hst], (Option.some.inj hs).symm⟩⟩
  case forked =>
    split_ifs at hs
    · exact ⟨by simp, Or.inl (Option.some.inj hs).symm⟩
    · exact ⟨by simp, Or.inr ⟨by simp [Runnable, hst], (Option.some.inj hs).symm⟩⟩

/-- Making a process that can run `TASK_RUNNING` changes nobody's readiness. -/
theorem runnable_setStatus_running {c : Addr} (hc : s.Runnable c) (p : Addr) :
    (s.setStatus c .running).Runnable p ↔ s.Runnable p := by
  rcases eq_or_ne p c with rfl | hp
  · exact iff_of_true (by simp [Runnable, setStatus_status_self]) hc
  · rw [Runnable, Runnable, setStatus_status_of_ne _ _ hp]

/-- **The invariant between two operations.** -/
def Inv (s : ProcTable) : Prop :=
  (∃ l, s.QueueInv l) ∧ (s.procs s.currentProcess).status ≠ .exited

theorem inv_processInit : Inv processInit := by
  refine ⟨⟨[], rfl, by simp, by simp, rfl, by simp, fun p hp _ => ?_, by simp [processInit]⟩,
    by simp [processInit]⟩
  exact Or.inl (by simpa [processInit] using hp)

theorem Inv.noneDropped (h : s.Inv) : s.NoneDropped := by
  obtain ⟨⟨l, hl⟩, -⟩ := h
  exact hl.noneDropped

/-- A tick keeps the queue in order, whoever just exited. -/
theorem QueueInv.schedule {handler : Bool} (h : s.QueueInv l)
    (hs : s.schedule handler = some s') : s'.Inv := by
  obtain ⟨t, ht, hd⟩ := Option.bind_eq_some_iff.mp hs
  obtain ⟨l', hl'⟩ := h.switch ht
  obtain ⟨halive, rfl | ⟨hrun, rfl⟩⟩ := dispatch_cases hd
  · exact ⟨⟨l', hl'⟩, halive⟩
  · refine ⟨⟨l', hl'.congr rfl rfl rfl rfl (by simp) (runnable_setStatus_running hrun)⟩, ?_⟩
    simp [setStatus_status_self]

/-- Marking the current process as exited keeps the queue in order. -/
theorem QueueInv.markExited (h : s.QueueInv l) :
    (s.setStatus s.currentProcess .exited).QueueInv l where
  chain := by rw [QueueChain, setStatus_nextOf]; exact h.chain
  tail := h.tail
  cur_notMem := h.cur_notMem
  cur_next := by rw [setStatus_nextOf]; exact h.cur_next
  mem := fun p hp => by
    have hne : p ≠ s.currentProcess := fun hc => h.cur_notMem (hc ▸ hp)
    rw [Runnable, setStatus_status_of_ne _ _ hne]
    exact h.mem p hp
  complete := fun p hp hrun => by
    rcases eq_or_ne p s.currentProcess with rfl | hne
    · exact Or.inl rfl
    · rw [Runnable, setStatus_status_of_ne _ _ hne] at hrun
      exact h.complete p hp hrun
  cur_mem := h.cur_mem

/-- The unlinking loop drops one occurrence of its target and keeps the rest. -/
theorem mem_unlink {target : Addr} : ∀ {l l' : List Addr}, unlink target l = some l' →
    (∀ p ∈ l', p ∈ l) ∧ ∀ p ∈ l, p ≠ target → p ∈ l'
  | [], l', h => absurd h (by simp [unlink])
  | a :: l, l', h => by
    rw [unlink] at h
    split_ifs at h with ha
    · obtain rfl := Option.some.inj h
      exact ⟨fun p hp => List.mem_cons_of_mem a hp,
        fun p hp hne => (List.mem_cons.mp hp).resolve_left (ha ▸ hne)⟩
    · obtain ⟨k, hk, rfl⟩ := Option.map_eq_some_iff.mp h
      obtain ⟨h1, h2⟩ := mem_unlink hk
      refine ⟨fun p hp => ?_, fun p hp hne => ?_⟩
      · exact List.mem_cons.mpr ((List.mem_cons.mp hp).imp_right (h1 p))
      · exact List.mem_cons.mpr ((List.mem_cons.mp hp).imp_right fun hpl => h2 p hpl hne)

/-- Reaping takes a process off the list that is neither queued nor running. -/
theorem Inv.reap {target : Addr} (h : s.Inv) (hs : s.reap target = some s') : s'.Inv := by
  obtain ⟨⟨l, hl⟩, halive⟩ := h
  rw [ProcTable.reap] at hs
  split_ifs at hs with hex
  obtain ⟨k, hk, rfl⟩ := Option.map_eq_some_iff.mp hs
  obtain ⟨hsub, hkeep⟩ := mem_unlink hk
  have hne : ∀ p, s.Runnable p → p ≠ target := fun p hp hc => hp.1 (hc ▸ hex)
  refine ⟨⟨l, hl.chain, hl.tail, hl.cur_notMem, hl.cur_next, fun p hp => ?_,
    fun p hp => hl.complete p (hsub p hp), ?_⟩, halive⟩
  · obtain ⟨hpl, hrun⟩ := hl.mem p hp
    exact ⟨hkeep p hpl (hne p hrun), hrun⟩
  · exact hkeep _ hl.cur_mem fun hc => halive (hc ▸ hex)

/-! ### Adding a process -/

/-- What the insertion loop returns: the list with the process in it, and
whether it went in before the end. -/
theorem insertAfter_spec (procs : Addr → Process) (process : Addr) : ∀ l : List Addr,
    (∀ p, p ∈ (insertAfter procs process l).1 ↔ p = process ∨ p ∈ l) ∧
      ((insertAfter procs process l).2 = false ↔
        ∀ q ∈ l, (procs q).pid ≤ (procs process).pid)
  | [] => by simp [insertAfter]
  | a :: l => by
    obtain ⟨h1, h2⟩ := insertAfter_spec procs process l
    rw [insertAfter]
    split_ifs with hlt
    · refine ⟨fun p => by simp [or_left_comm], ?_⟩
      simp only [List.mem_cons, forall_eq_or_imp]
      refine iff_of_false (by simp) ?_
      rintro ⟨hc, -⟩
      omega
    · refine ⟨fun p => by simp only [List.mem_cons, h1, or_left_comm], ?_⟩
      simp only [h2, List.mem_cons, forall_eq_or_imp]
      exact ⟨fun h => ⟨by omega, h⟩, fun h => h.2⟩

/-- **What `add_process` does**: the process is on the list afterwards; unless
its pid goes to the end, that is all, and else it becomes the queue or is hung
behind `queue_tail`. -/
theorem addProcess_cases {process first : Addr} {rest : List Addr}
    (hlist : s.processList = first :: rest) (hs : s.addProcess process = some s') :
    ∃ rest', (∀ p, p ∈ first :: rest' ↔ p = process ∨ p ∈ s.processList) ∧
      ((¬(∀ q ∈ rest, (s.procs q).pid ≤ (s.procs process).pid) ∧
          s' = { s with processList := first :: rest' }) ∨
        ((∀ q ∈ rest, (s.procs q).pid ≤ (s.procs process).pid) ∧ s.queue = none ∧
          s' = { s with processList := first :: rest', queue := some process,
                        queueTail := some process }) ∨
        ((∀ q ∈ rest, (s.procs q).pid ≤ (s.procs process).pid) ∧ s.queue ≠ none ∧
          ∃ t, s.queueTail = some t ∧
            s' = { s.setQueueNext t (some process) with
                    processList := first :: rest', queueTail := some process })) := by
  obtain ⟨hmem, hflag⟩ := insertAfter_spec s.procs process rest
  rw [addProcess, hlist] at hs
  rcases hr : insertAfter s.procs process rest with ⟨rest', _ | _⟩
  · rw [hr] at hmem hflag
    refine ⟨rest', fun p => by simp [hlist, hmem, or_left_comm], Or.inr ?_⟩
    have hle := hflag.mp rfl
    simp only [hr] at hs
    cases hq : s.queue with
    | none =>
      rw [hq] at hs
      exact Or.inl ⟨hle, rfl, (Option.some.inj hs).symm⟩
    | some h =>
      simp only [hq] at hs
      cases ht : s.queueTail with
      | none => rw [ht] at hs; exact absurd hs (by simp)
      | some t =>
        simp only [ht] at hs
        exact Or.inr ⟨hle, by simp, t, rfl, (Option.some.inj hs).symm⟩
  · rw [hr] at hmem hflag
    simp only [hr] at hs
    exact ⟨rest', fun p => by simp [hlist, hmem, or_left_comm],
      Or.inl ⟨fun hc => absurd (hflag.mpr hc) (by simp), (Option.some.inj hs).symm⟩⟩

/-- Filling in the record of a block that is not on the list disturbs nothing. -/
theorem QueueInv.record {p : Addr} (h : s.QueueInv l) (hp : p ∉ s.processList)
    (record : Process) :
    ({ s with procs := Function.update s.procs p record } : ProcTable).QueueInv l := by
  have hne : ∀ q ∈ s.processList, Function.update s.procs p record q = s.procs q :=
    fun q hq => Function.update_of_ne (ne_of_mem_of_not_mem hq hp) _ _
  refine ⟨?_, h.tail, h.cur_notMem, ?_, fun q hq => ?_, fun q hq hr => ?_, h.cur_mem⟩
  · refine (seg_congr fun q hq => ?_).mp h.chain
    simp only [nextOf, hne q (h.mem q hq).1]
  · simpa only [nextOf, hne _ h.cur_mem] using h.cur_next
  · simpa only [Runnable, hne q (h.mem q hq).1] using h.mem q hq
  · simp only [Runnable, hne q hq] at hr
    exact h.complete q hq hr

/-- A runnable process that is neither running nor on the chain is dropped. -/
theorem not_noneDropped {p : Addr} (hp : p ∈ s.processList) (hr : s.Runnable p)
    (hcur : p ≠ s.currentProcess) (hl : s.QueueChain l) (hpl : p ∉ l) : ¬s.NoneDropped := by
  intro h
  obtain ⟨l', hl', hcount⟩ := (h p hp hr).resolve_left hcur
  obtain rfl : l = l' := Seg.unique hl hl'
  exact hpl (List.count_pos_iff.mp (by omega))

/-- **Adding to a queue whose tail is right**: the process becomes the last node
of the chain. -/
theorem QueueInv.add {process : Addr} (h : s.QueueInv l) (hp : process ∉ s.processList)
    (hnext : s.nextOf process = none) (hrun : s.Runnable process)
    (hpid : ∀ q ∈ s.processList.tail, (s.procs q).pid ≤ (s.procs process).pid)
    (htail : s.queue = none ∨ s.queueTail ≠ some s.currentProcess)
    (hs : s.addProcess process = some s') : s'.QueueInv (l ++ [process]) := by
  obtain ⟨first, rest, hlist⟩ := List.exists_cons_of_ne_nil (List.ne_nil_of_mem h.cur_mem)
  have hpl : process ∉ l := fun hc => hp (h.mem process hc).1
  have hcur : process ≠ s.currentProcess := fun hc => hp (hc ▸ h.cur_mem)
  have hcur' : s.currentProcess ∉ l ++ [process] := by
    simpa [hcur.symm] using h.cur_notMem
  obtain ⟨rest', hmem, ⟨hnot, -⟩ | ⟨-, hq, rfl⟩ | ⟨-, hq, t, ht, rfl⟩⟩ :=
    addProcess_cases hlist hs
  · rw [hlist] at hpid
    exact absurd hpid hnot
  -- the queue was empty: the process is the queue
  · obtain rfl : l = [] := Seg.unique h.chain hq
    refine ⟨⟨rfl, hnext⟩, fun _ => Or.inl rfl, hcur', h.cur_next, fun p hpm => ?_,
      fun p hpm hr => ?_, (hmem _).mpr (Or.inr h.cur_mem)⟩
    · obtain rfl : p = process := by simpa using hpm
      exact ⟨(hmem p).mpr (Or.inl rfl), hrun⟩
    · rcases (hmem p).mp hpm with rfl | hpm
      · exact Or.inr (by simp)
      · exact Or.inl ((h.complete p hpm hr).resolve_right (by simp))
  -- the queue has a last node, and it is the tail: the process hangs behind it
  · have hne : l ≠ [] := by
      rintro rfl
      exact hq h.chain
    obtain ⟨l₀, t₀, rfl⟩ := l.eq_nil_or_concat'.resolve_left hne
    obtain rfl : t = t₀ := by
      rcases h.tail (by simp) with ht' | ⟨ht', -⟩
      · rw [ht, List.getLast?_concat] at ht'
        exact Option.some.inj ht'
      · exact absurd ht' (htail.resolve_left hq)
    have htp : process ≠ t := fun hc => hpl (by simp [hc])
    refine ⟨?_, fun _ => Or.inl (by simp), hcur', ?_, fun p hpm => ?_, fun p hpm hr => ?_,
      (hmem _).mpr (Or.inr h.cur_mem)⟩
    · change Seg (s.setQueueNext t (some process)).nextOf s.queue _ none
      rw [setQueueNext_nextOf]
      exact h.chain.append_node hnext htp
    · have hct : s.currentProcess ≠ t := fun hc => h.cur_notMem (by simp [hc])
      change (s.setQueueNext t (some process)).nextOf s.currentProcess = none
      rw [setQueueNext_nextOf, Function.update_of_ne hct]
      exact h.cur_next
    · rcases List.mem_append.mp hpm with hpm | hpm
      · obtain ⟨h1, h2⟩ := h.mem p hpm
        exact ⟨(hmem p).mpr (Or.inr h1), by simpa [Runnable] using h2⟩
      · obtain rfl : p = process := by simpa using hpm
        exact ⟨(hmem p).mpr (Or.inl rfl), by simpa [Runnable] using hrun⟩
    · rcases (hmem p).mp hpm with rfl | hpm
      · exact Or.inr (by simp)
      · exact (h.complete p hpm (by simpa [Runnable] using hr)).imp_right
          (List.mem_append_left [process])

/-- **Adding in any other state drops the process**: it is on the list, and the
chain from `queue` is what it was. -/
theorem QueueInv.dropped {process : Addr} (h : s.QueueInv l) (hp : process ∉ s.processList)
    (hrun : s.Runnable process)
    (hbad : ¬((∀ q ∈ s.processList.tail, (s.procs q).pid ≤ (s.procs process).pid) ∧
      (s.queue = none ∨ s.queueTail ≠ some s.currentProcess)))
    (hs : s.addProcess process = some s') : ¬s'.NoneDropped := by
  obtain ⟨first, rest, hlist⟩ := List.exists_cons_of_ne_nil (List.ne_nil_of_mem h.cur_mem)
  have hpl : process ∉ l := fun hc => hp (h.mem process hc).1
  have hcur : process ≠ s.currentProcess := fun hc => hp (hc ▸ h.cur_mem)
  rw [hlist, List.tail_cons] at hbad
  obtain ⟨rest', hmem, ⟨-, rfl⟩ | ⟨hpid, hq, -⟩ | ⟨hpid, hq, t, ht, rfl⟩⟩ :=
    addProcess_cases hlist hs
  · exact not_noneDropped ((hmem _).mpr (Or.inl rfl)) hrun hcur h.chain hpl
  · exact absurd ⟨hpid, Or.inl hq⟩ hbad
  · obtain rfl : t = s.currentProcess := by
      by_contra hne
      exact hbad ⟨hpid, Or.inr fun hc => hne (Option.some.inj (ht.symm.trans hc))⟩
    refine not_noneDropped ((hmem _).mpr (Or.inl rfl)) (by simpa [Runnable] using hrun) hcur
      (l := l) ?_ hpl
    change Seg (s.setQueueNext s.currentProcess (some process)).nextOf s.queue l none
    rw [setQueueNext_nextOf]
    exact (seg_update_of_notMem h.cur_notMem).mpr h.chain

/-! ### Runs -/

/-- What the guard of an `add` step leaves to know about the record. -/
theorem step_add {process : Addr} {record : Process}
    (hs : s.step (.add process record) = some s') :
    process ∉ s.processList ∧ record.queueNext = none ∧
      record.status ≠ .exited ∧ record.status ≠ .waiting ∧
      ({ s with procs := Function.update s.procs process record }).addProcess process
        = some s' := by
  rw [step] at hs
  split_ifs at hs with hg
  obtain ⟨hp, hnext, hst⟩ := hg
  refine ⟨hp, hnext, ?_, ?_, hs⟩ <;> rcases hst with h | h <;> simp [h]

/-- Reading the condition of an `add` step in the state with the record filled
in. -/
theorem queueable_record {process : Addr} {record : Process} (hp : process ∉ s.processList) :
    s.Queueable (.add process record) ↔
      (∀ q ∈ s.processList.tail, (Function.update s.procs process record q).pid
          ≤ (Function.update s.procs process record process).pid) ∧
        (s.queue = none ∨ s.queueTail ≠ some s.currentProcess) := by
  refine and_congr_left fun _ => forall₂_congr fun q hq => ?_
  have hqp : q ≠ process := fun hc => hp (hc ▸ List.mem_of_mem_tail hq)
  rw [Function.update_of_ne hqp, Function.update_self]

/-- **The step lemma**: an operation called in a state it can handle keeps the
invariant. -/
theorem Inv.step {a : Act} (h : s.Inv) (ha : s.Queueable a) (hs : s.Steps a s') : s'.Inv := by
  obtain ⟨⟨l, hl⟩, halive⟩ := h
  cases a with
  | add process record =>
    obtain ⟨hp, hnext, hex, hwait, hadd⟩ := step_add hs
    have hrec := hl.record hp record
    obtain ⟨hpid, htail⟩ := (queueable_record hp).mp ha
    have hinv := hrec.add hp (by simpa using hnext) (by simpa [Runnable] using ⟨hex, hwait⟩)
      hpid htail hadd
    refine ⟨⟨_, hinv⟩, ?_⟩
    have hcur : s.currentProcess ≠ process := fun hc => hp (hc ▸ hl.cur_mem)
    obtain ⟨first, rest, hlist⟩ := List.exists_cons_of_ne_nil (List.ne_nil_of_mem hl.cur_mem)
    obtain ⟨rest', -, ⟨-, rfl⟩ | ⟨-, -, rfl⟩ | ⟨-, -, t, -, rfl⟩⟩ :=
      addProcess_cases (s := { s with procs := Function.update s.procs process record })
        hlist hadd
    · simpa [hcur] using halive
    · simpa [hcur] using halive
    · simpa [hcur] using halive
  | schedule handler => exact hl.schedule hs
  | exit handler => exact hl.markExited.schedule hs
  | reap target => exact Inv.reap ⟨⟨l, hl⟩, halive⟩ hs

/-- **The run lemma.** -/
theorem inv_of_reach (h : Reach Steps Queueable IsInit s) : s.Inv := by
  refine Reach.invariant (P := Inv) (fun t ht => ?_) (fun _ _ _ => Inv.step) h
  rw [ht]
  exact inv_processInit

/-- From a state in which the queue is in order, the condition is exact: an
operation called outside it drops a process. -/
theorem Inv.noneDropped_iff {a : Act} (h : s.Inv) (hs : s.Steps a s') :
    s'.NoneDropped ↔ s.Queueable a := by
  refine ⟨fun hnd => ?_, fun ha => (h.step ha hs).noneDropped⟩
  by_contra hbad
  cases a with
  | add process record =>
    obtain ⟨⟨l, hl⟩, -⟩ := h
    obtain ⟨hp, -, hex, hwait, hadd⟩ := step_add hs
    rw [queueable_record hp] at hbad
    exact (hl.record hp record).dropped hp (by simpa [Runnable] using ⟨hex, hwait⟩) hbad hadd hnd
  | schedule handler => exact hbad trivial
  | exit handler => exact hbad trivial
  | reap target => exact hbad trivial

/-- **Nothing is dropped from the run queue exactly while `add_process` is called
in a state it can handle**: every state of such a run has every runnable process
current or queued once, and the first call outside the condition ends that. -/
theorem noneDropped_of_reach (h : Reach Steps Queueable IsInit s) :
    s.NoneDropped ∧ ∀ a s', s.Steps a s' → (s'.NoneDropped ↔ s.Queueable a) :=
  ⟨(inv_of_reach h).noneDropped, fun _ _ hs => (inv_of_reach h).noneDropped_iff hs⟩

/-- A run inside the condition: two processes are created before the first tick,
and one of them exits and is reaped. -/
theorem noneDropped_of_reach_twoProcesses :
    ∃ s, exec step processInit [.add 1 ⟨1, .initial, none⟩, .add 2 ⟨2, .initial, none⟩,
        .schedule false, .exit false, .reap 1] = some s ∧ s.NoneDropped ∧
      s.processList = [0, 2] ∧ s.currentProcess = 2 := by
  refine ⟨_, rfl, (noneDropped_of_reach ?_).1, rfl, rfl⟩
  refine .step (.step (.step (.step (.step (.init rfl) ?_ (a := .add 1 ⟨1, .initial, none⟩) rfl)
    ?_ (a := .add 2 ⟨2, .initial, none⟩) rfl) ?_ (a := .schedule false) rfl)
    ?_ (a := .exit false) rfl) ?_ (a := .reap 1) rfl
  all_goals decide

/-- **A process is lost**: the first tick gives the processor to the only other
process, that process forks, and the child hangs off it and not off the queue;
when the parent exits, nothing leads to the child any more. -/
theorem exists_reach_not_noneDropped :
    ∃ s, Reach Steps anyStep IsInit s ∧ ¬s.NoneDropped := by
  have hrun : exec step processInit [.add 1 ⟨1, .initial, none⟩, .schedule false,
      .add 2 ⟨2, .forked, none⟩, .exit false] = some _ := rfl
  refine ⟨_, Reach.of_exec (.init rfl) hrun, ?_⟩
  exact not_noneDropped (p := 2) (l := []) (by decide) (by decide) (by decide) rfl (by decide)

end ProcTable

end Xana
