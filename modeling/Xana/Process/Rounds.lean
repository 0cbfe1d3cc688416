import Xana.Process.Queue

/-!
# The scheduler as a line

The two pointers and the links of the run queue come to one line of processes: the one that
runs, and behind it those that wait (`Xana.ProcTable.Line`). A tick sends the first to the
end, an exit takes it out, `add_process` appends (`Xana.ProcTable.serve`). So a process has
to wait for those in front of it, once each, and for nobody else, whoever comes later
(`Xana.ProcTable.turn_of_reach`).
-/

namespace Xana

namespace ProcTable

/-- The line: the process that runs, and the queue behind it. -/
def Line (s : ProcTable) (ps : List Addr) : Prop :=
  ∃ l, s.QueueChain l ∧ ps = s.currentProcess :: l

/-- What an operation does to the line. -/
def serve (ps : List Addr) : Act → List Addr
  | .add process _ => ps ++ [process]
  | .schedule _ => ps.tail ++ ps.take 1
  | .exit _ => ps.tail
  | .reap _ => ps

/-- How often the processor goes to the next one in an operation. -/
def Act.turns : Act → ℕ
  | .schedule _ | .exit _ => 1
  | .add _ _ | .reap _ => 0

/-- And in several operations. -/
def turnsOf : List Act → ℕ
  | [] => 0
  | a :: as => a.turns + turnsOf as

/-! ### A place in the line -/

section Place

variable {ps : List Addr} {a : Act} {as : List Act} {i : ℕ} {p : Addr}

/-- **One operation** moves a process up by one place, or not at all. -/
theorem serve_getElem? (hp : ps[i]? = some p) (hi : a.turns ≤ i) :
    (serve ps a)[i - a.turns]? = some p := by
  have happend : ∀ {l l' : List Addr} {j : ℕ}, l[j]? = some p → (l ++ l')[j]? = some p :=
    fun hj => (List.getElem?_append_left (List.getElem?_eq_some_iff.mp hj).1).trans hj
  cases a with
  | add process record => exact happend hp
  | reap target => exact hp
  | exit handler =>
    obtain ⟨j, rfl⟩ := Nat.exists_eq_add_of_le' hi
    exact List.getElem?_tail.trans hp
  | schedule handler =>
    obtain ⟨j, rfl⟩ := Nat.exists_eq_add_of_le' hi
    exact happend (List.getElem?_tail.trans hp)

/-- **Operations** move a process up by as many places as there are turns. -/
theorem foldl_serve_getElem? (hp : ps[i]? = some p) (hi : turnsOf as ≤ i) :
    (as.foldl serve ps)[i - turnsOf as]? = some p := by
  induction as generalizing ps i with
  | nil => exact hp
  | cons a as ih =>
    rw [turnsOf] at hi ⊢
    rw [← Nat.sub_sub]
    exact ih (serve_getElem? hp (by omega)) (by omega)

end Place

/-! ### The queue is a line -/

section Line

variable {s s' : ProcTable} {l : List Addr} {a : Act}

/-- **Those in the line are those that can run.** -/
theorem QueueInv.mem_line (h : s.QueueInv l) (hcur : s.Runnable s.currentProcess) {p : Addr} :
    p ∈ s.currentProcess :: l ↔ p ∈ s.processList ∧ s.Runnable p := by
  rw [List.mem_cons]
  constructor
  · rintro (rfl | hp)
    · exact ⟨h.cur_mem, hcur⟩
    · exact h.mem p hp
  · exact fun ⟨hp, hr⟩ => h.complete p hp hr

/-- **A tick** on the line. -/
theorem QueueInv.schedule_line {handler : Bool} (h : s.QueueInv l)
    (hs : s.schedule handler = some s') : ∃ l', s'.QueueInv l' ∧
      (s.Runnable s.currentProcess → s'.currentProcess :: l' = l ++ [s.currentProcess]) ∧
      ((s.procs s.currentProcess).status = .exited → s'.currentProcess :: l' = l) := by
  obtain ⟨t, ht, hd⟩ := Option.bind_eq_some_iff.mp hs
  obtain ⟨l', hl', hrotate, htail⟩ := h.switch_line ht
  obtain ⟨halive, hst⟩ := dispatch_cases hd
  -- nobody is left to run when the last process exits, and the dispatch panics
  have hgone : (s.procs s.currentProcess).status = .exited → t.currentProcess :: l' = l := by
    intro hex
    refine htail (fun hrun => hrun.1 hex) ?_
    rintro rfl
    have hq : s.queue = none := h.chain
    rw [ProcTable.switch, hq] at ht
    obtain rfl := Option.some.inj ht
    exact halive hex
  rcases hst with rfl | ⟨hrun, rfl⟩
  · exact ⟨l', hl', hrotate, hgone⟩
  · exact ⟨l', hl'.congr rfl rfl rfl rfl (by simp) (runnable_setStatus_running hrun), hrotate,
      hgone⟩

/-- **The step lemma**: an operation called in a state it can handle does to the queue what it
does to the line. -/
theorem QueueInv.serve (h : s.QueueInv l) (hcur : s.Runnable s.currentProcess)
    (ha : s.Queueable a) (hs : s.Steps a s') :
    ∃ l', s'.QueueInv l' ∧ s'.currentProcess :: l' = ProcTable.serve (s.currentProcess :: l) a := by
  cases a with
  | add process record =>
    obtain ⟨hp, hnext, hex, hwait, hadd⟩ := step_add hs
    obtain ⟨hpid, htail⟩ := (queueable_record hp).mp ha
    refine ⟨_, (h.record hp record).add hp (by simpa using hnext)
      (by simpa [Runnable] using ⟨hex, hwait⟩) hpid htail hadd, ?_⟩
    obtain ⟨first, rest, hlist⟩ := List.exists_cons_of_ne_nil (List.ne_nil_of_mem h.cur_mem)
    obtain ⟨rest', -, ⟨-, rfl⟩ | ⟨-, -, rfl⟩ | ⟨-, -, t, -, rfl⟩⟩ :=
      addProcess_cases (s := { s with procs := Function.update s.procs process record })
        hlist hadd
    all_goals rfl
  | schedule handler =>
    obtain ⟨l', hl', hrotate, -⟩ := h.schedule_line hs
    exact ⟨l', hl', hrotate hcur⟩
  | exit handler =>
    obtain ⟨l', hl', -, htail⟩ := h.markExited.schedule_line hs
    exact ⟨l', hl', htail (setStatus_status_self s s.currentProcess .exited)⟩
  | reap target =>
    obtain ⟨⟨l', hl'⟩, -⟩ := Inv.reap ⟨⟨l, h⟩, hcur.1⟩ hs
    rw [Steps, ProcTable.step, ProcTable.reap] at hs
    split_ifs at hs
    obtain ⟨k, -, rfl⟩ := Option.map_eq_some_iff.mp hs
    obtain rfl : l' = l := Chain.Seg.unique hl'.chain h.chain
    exact ⟨l', hl', rfl⟩

end Line

/-! ### Runs -/

section Runs

variable {s s' : ProcTable} {ps : List Addr} {a : Act} {as : List Act}

/-- Nobody waits: `TASK_WAITING` is never set. -/
def NoneWaiting (s : ProcTable) : Prop := ∀ p, (s.procs p).status ≠ .waiting

theorem NoneWaiting.setStatus (h : s.NoneWaiting) (p : Addr) {st : TaskStatus}
    (hst : st ≠ .waiting) : (s.setStatus p st).NoneWaiting := by
  intro q
  rcases eq_or_ne q p with rfl | hq
  · rwa [setStatus_status_self]
  · rw [setStatus_status_of_ne _ _ hq]
    exact h q

/-- A switch marks nobody. -/
theorem switch_status (hs : s.switch = some s') (p : Addr) :
    (s'.procs p).status = (s.procs p).status := by
  rw [switch] at hs
  cases hq : s.queue with
  | none =>
    rw [hq] at hs
    rw [Option.some.inj hs]
  | some n =>
    simp only [hq, Option.map_eq_some_iff] at hs
    obtain ⟨t, ht, rfl⟩ := hs
    rw [switchTo, setQueueNext_status]
    split_ifs at ht
    · rw [putBack] at ht
      split at ht
      · obtain rfl := Option.some.inj ht
        rfl
      · split at ht
        · exact absurd ht (by simp)
        · obtain rfl := Option.some.inj ht
          exact setQueueNext_status ..
    · obtain rfl := Option.some.inj ht
      rfl

theorem NoneWaiting.schedule {handler : Bool} (h : s.NoneWaiting)
    (hs : s.schedule handler = some s') : s'.NoneWaiting := by
  obtain ⟨t, ht, hd⟩ := Option.bind_eq_some_iff.mp hs
  have hnone : t.NoneWaiting := fun p => by
    rw [switch_status ht]
    exact h p
  obtain ⟨-, rfl | ⟨-, rfl⟩⟩ := dispatch_cases hd
  · exact hnone
  · exact hnone.setStatus _ (by decide)

theorem NoneWaiting.step (h : s.NoneWaiting) (hs : s.Steps a s') : s'.NoneWaiting := by
  cases a with
  | add process record =>
    obtain ⟨-, -, -, hwait, hadd⟩ := step_add hs
    have hrecord : ∀ p, (Function.update s.procs process record p).status ≠ .waiting := by
      intro p
      rcases eq_or_ne p process with rfl | hp
      · rwa [Function.update_self]
      · rw [Function.update_of_ne hp]
        exact h p
    rw [addProcess] at hadd
    split at hadd
    · obtain rfl := Option.some.inj hadd
      exact hrecord
    · split at hadd
      · obtain rfl := Option.some.inj hadd
        exact hrecord
      · split at hadd
        · obtain rfl := Option.some.inj hadd
          exact hrecord
        · split at hadd
          · exact absurd hadd (by simp)
          · obtain rfl := Option.some.inj hadd
            intro p
            simpa using hrecord p
  | schedule handler => exact h.schedule hs
  | exit handler => exact (h.setStatus s.currentProcess (by decide)).schedule hs
  | reap target =>
    rw [Steps, ProcTable.step, ProcTable.reap] at hs
    split_ifs at hs
    obtain ⟨k, -, rfl⟩ := Option.map_eq_some_iff.mp hs
    exact h

/-- **Between two operations** the queue is in order, and the process that runs can run. -/
structure Lined (s : ProcTable) (l : List Addr) : Prop where
  queue : s.QueueInv l
  alive : (s.procs s.currentProcess).status ≠ .exited
  noneWaiting : s.NoneWaiting

theorem Lined.runnable {l : List Addr} (h : s.Lined l) : s.Runnable s.currentProcess :=
  ⟨h.alive, h.noneWaiting _⟩

theorem lined_of_reach (h : Reach Steps Queueable IsInit s) : ∃ l, s.Lined l := by
  obtain ⟨⟨l, hl⟩, halive⟩ := inv_of_reach h
  refine ⟨l, hl, halive, ?_⟩
  refine h.invariant (P := NoneWaiting) ?_ fun _ _ _ hw _ hs => hw.step hs
  rintro s rfl p
  exact (by decide : TaskStatus.running ≠ .waiting)

/-- **The run lemma**: operations do to the queue what they do to the line. -/
theorem Lined.exec {l : List Addr} (h : s.Lined l)
    (he : exec (guarded step Queueable) s as = some s') :
    ∃ l', s'.Lined l' ∧ s'.currentProcess :: l' = as.foldl serve (s.currentProcess :: l) := by
  induction as generalizing s l with
  | nil =>
    obtain rfl := Option.some.inj he
    exact ⟨l, h, rfl⟩
  | cons a as ih =>
    obtain ⟨t, ht, hrest⟩ := Option.bind_eq_some_iff.mp he
    rw [guarded] at ht
    split_ifs at ht with hok
    have halive : (t.procs t.currentProcess).status ≠ .exited :=
      (Inv.step ⟨⟨l, h.queue⟩, h.alive⟩ hok ht).2
    obtain ⟨l₁, hl₁, hserve⟩ := h.queue.serve h.runnable hok ht
    obtain ⟨l', hl', hline⟩ := ih ⟨hl₁, halive, h.noneWaiting.step ht⟩ hrest
    exact ⟨l', hl', by rw [hline, hserve, List.foldl_cons]⟩

/-- **Every process that can run gets its turn.** From any state in which the queue is in
order, whatever comes: the line holds those that can run, once each, and a process runs when
the processor has gone on as many times as there were others in front of it. -/
theorem turn_of_reach (h : Reach Steps Queueable IsInit s)
    (he : Xana.exec (guarded step Queueable) s as = some s') :
    ∃ ps, s.Line ps ∧ s'.Line (as.foldl serve ps) ∧ ps.Nodup ∧
      (∀ p, p ∈ ps ↔ p ∈ s.processList ∧ s.Runnable p) ∧
      ∀ i p, ps[i]? = some p → turnsOf as ≤ i →
        (as.foldl serve ps)[i - turnsOf as]? = some p ∧
          (turnsOf as = i → s'.currentProcess = p) := by
  obtain ⟨l, hl⟩ := lined_of_reach h
  obtain ⟨l', hl', hline⟩ := hl.exec he
  refine ⟨s.currentProcess :: l, ⟨l, hl.queue.chain, rfl⟩, ⟨l', hl'.queue.chain, hline.symm⟩,
    List.nodup_cons.mpr ⟨hl.queue.cur_notMem, hl.queue.nodup⟩,
    fun p => hl.queue.mem_line hl.runnable, fun i p hp hi => ?_⟩
  have hplace := foldl_serve_getElem? hp hi
  refine ⟨hplace, fun heq => ?_⟩
  rw [heq, Nat.sub_self, ← hline] at hplace
  exact Option.some.inj hplace

/-- Two processes are created, the idle process gives way to the first, that one forks and
exits, and the processor has come to the second. -/
theorem turn_of_reach_second :
    ∃ s s', Reach Steps Queueable IsInit s ∧ s.Line [0, 1, 2] ∧
      Xana.exec (guarded step Queueable) s
        [.schedule false, .add 3 ⟨3, .forked, none⟩, .exit false] = some s' ∧
      s'.currentProcess = 2 := by
  obtain ⟨s, hs⟩ : ∃ s, Xana.exec (guarded step Queueable) processInit
    [.add 1 ⟨1, .initial, none⟩, .add 2 ⟨2, .initial, none⟩] = some s := ⟨_, rfl⟩
  have hreach : Reach Steps Queueable IsInit s := Reach.of_guarded (.init rfl) hs
  have hline : s.Line [0, 1, 2] := by
    obtain rfl := Option.some.inj hs
    exact ⟨[1, 2], ⟨rfl, rfl, rfl⟩, rfl⟩
  obtain ⟨s', hs'⟩ : ∃ s', Xana.exec (guarded step Queueable) s
      [.schedule false, .add 3 ⟨3, .forked, none⟩, .exit false] = some s' := by
    obtain rfl := Option.some.inj hs
    exact ⟨_, rfl⟩
  refine ⟨s, s', hreach, hline, hs', ?_⟩
  obtain ⟨l, hl, hcons⟩ := hline
  obtain ⟨ps, ⟨l', hl', rfl⟩, -, -, -, hturn⟩ := turn_of_reach hreach hs'
  obtain rfl : l' = l := Chain.Seg.unique hl' hl
  exact (hturn 2 2 (by rw [← hcons]; rfl) (by decide)).2 rfl

end Runs

end ProcTable

end Xana
