import Xana.Signal.Return
import Xana.Syscall.Select

/-!
# What a user register indexes: all runs

The steps of a run are those of `Xana.Signals`, with the registers a system call is
entered with instead of what the called function makes of them: `syscall_handler`
looks its number up in `syscall_table`, and the functions of the numbers 13, 23 and
62 take their arguments from the saved registers. Since `kselect` lets other
processes run between two passes, a system call is not one step but several: its
entry, its function, a pass of `kselect`, its return.

A signal number that `kill` accepts is used later, by `check_signals`. So what has
to hold along a run is that the numbers on every queue are in range
(`Xana.Syscalls.State.Queued`).
-/

namespace Xana

namespace Syscalls

open Signals (Regs Stack Signal Mmu)

/-- `SIGSYS`. -/
def sigsys : ℤ := 31

/-- A register, passed as an `int`. -/
def int (reg : ℕ) : ℤ := Int.bmod reg (2 ^ 32)

/-- The numbers for which `syscall_init` installs a function. -/
def installed : List ℕ :=
  [0, 1, 2, 3, 4, 5, 8, 12, 13, 14, 15, 16, 22, 23, 33, 39, 57, 59, 60, 61, 62, 72, 79, 80, 96, 102,
    103, 104, 105, 106, 107, 109, 110, 111, 217]

/-- `syscall_table[rax] != NULL`, with whatever stands `behind` the table. -/
def syscallTable (behind : ℕ → Bool) (rax : ℕ) : Bool :=
  if rax < 512 then decide (rax ∈ installed) else behind rax

/-- The accesses of `krt_sigaction`. -/
def krtSigaction (signum : ℤ) (act oldact : ℕ) : List Access :=
  if Signals.sigMax ≤ signum then []
  else (if oldact ≠ 0 then [⟨.signalHandlers, signum⟩] else []) ++
    (if act ≠ 0 then [⟨.signalHandlers, signum⟩] else [])

/-- The accesses of `check_signals`: the two tests of the handler, and the argument
of `run_signal`. -/
def checkSignals (p : Signals.Process) (mmu : Mmu) (isAfterSyscall : Bool) : List Access :=
  match p.queuedSignals with
  | [] => []
  | signal :: _ =>
      if signal.handled then []
      else if signal.signalNumber = Signals.sigkill then []
      else
        let access : Access := ⟨.signalHandlers, signal.signalNumber⟩
        let handler := p.signalHandlers signal.signalNumber
        if handler = 0 then [access]
        else if mmu.isMappedUser handler = false then [access, access]
        else
          let rsp :=
            if isAfterSyscall then p.syscallRsp
            else if Signals.virtMemOffset ≤ p.interruptRegisters.rsp then p.userRsp
            else p.interruptRegisters.rsp
          if mmu.isMapped rsp then [access, access, access] else [access, access]

/-- The processes with their signals, and with the descriptors each may select on
and the signal that `syscall_handler` has ended it with. -/
structure State where
  signals : Signals.State
  files : Addr → List SelectFd
  termsig : Addr → Option ℤ

/-- `current_process->syscall_registers`. -/
def State.regs (s : State) : Regs := s.signals.current.syscallRegisters

/-- The operations: the entry of a system call, what `kill`, `rt_sigaction` and one
pass of `select` do, a change of the current process' descriptors, and all that is
left of `Xana.Signals.Act`. The arguments are what the functions find in the user's
memory, and the block that `kmalloc` returns. -/
inductive Act
  | enter (regs : Regs) (stack : Stack)
  | kill (block : Signal)
  | rtSigaction (handler : ℕ)
  | select (words : ℕ → Words)
  | files (fds : List SelectFd)
  | other (a : Signals.Act)

/-- The sets of a `select`, by the pointers to them. -/
def selectSetsOf (regs : Regs) (words : ℕ → Words) : List (ℕ × Option Words) :=
  [(0, if regs.rsi = 0 then none else some (words regs.rsi)),
    (1, if regs.rdx = 0 then none else some (words regs.rdx)),
    (2, if regs.r10 = 0 then none else some (words regs.r10))]

/-- What is left of `Xana.Signals.Act`, with its accesses. -/
def otherStep (s : State) (a : Signals.Act) : Option (List Access × State) :=
  match a with
  | .enterSyscall _ _ | .kill _ _ _ | .sigaction _ _ => none
  | .leaveSyscall rax mmu =>
      (Signals.step s.signals (.leaveSyscall rax mmu)).map fun t =>
        (checkSignals (s.signals.current.setReturn rax) mmu true, { s with signals := t })
  | .schedule next mmu =>
      (Signals.step s.signals (.schedule next mmu)).map fun t =>
        (checkSignals (s.signals.procs next) mmu false, { s with signals := t })
  | a => (Signals.step s.signals a).map fun t => ([], { s with signals := t })

/-- `process_kill`: it has no access of its own. -/
def killStep (s : State) (pid signum : ℤ) (block : Signal) : Option (List Access × State) :=
  (Signals.step s.signals (.kill pid signum block)).map fun t => ([], { s with signals := t })

/-- One operation, with the accesses it makes. -/
def step (behind : ℕ → Bool) (s : State) : Act → Option (List Access × State)
  | .enter regs stack =>
      (Signals.step s.signals (.enterSyscall regs stack)).map fun t =>
        ([⟨.syscallTable, regs.rax⟩],
          if syscallTable behind regs.rax then { s with signals := t }
          else
            { s with
              signals := t.setCurrent t.current.exit
              termsig := Function.update s.termsig t.currentProcess (some sigsys) })
  | .kill block =>
      if s.regs.rax = 62 then killStep s (int s.regs.rdi) (int s.regs.rsi) block else none
  | .rtSigaction handler =>
      if s.regs.rax = 13 ∧ s.signals.current.exited = false then
        some (krtSigaction (int s.regs.rdi) s.regs.rsi s.regs.rdx,
          if s.regs.rsi = 0 then s
          else
            { s with
              signals := s.signals.setCurrent
                (s.signals.current.sigaction (int s.regs.rdi) handler) })
      else none
  | .select words =>
      if s.regs.rax = 23 ∧ s.signals.current.exited = false then
        some ((selectPass (int s.regs.rdi) (selectSetsOf s.regs words)
          (s.files s.signals.currentProcess) 0 0).1, s)
      else none
  | .files fds =>
      some ([], { s with files := Function.update s.files s.signals.currentProcess fds })
  | .other a => otherStep s a

/-- The step relation. -/
def Steps (behind : ℕ → Bool) (s : State) (a : Act) (s' : State) : Prop :=
  ∃ log, step behind s a = some (log, s')

/-- The state after `process_init`. -/
def IsInit (s : State) : Prop := Signals.IsInit s.signals

/-! ### The property and its condition -/

/-- **A step keeps to the tables**: every access is in bounds, and a system call
number from 512 on ends the process with `SIGSYS`. -/
def Lawful (behind : ℕ → Bool) (s : State) (a : Act) : Prop :=
  ∀ log s', step behind s a = some (log, s') →
    (∀ access ∈ log, access.InBounds) ∧
      ∀ regs stack, a = .enter regs stack → 512 ≤ regs.rax →
        s'.termsig s.signals.currentProcess = some sigsys

/-- A signal number in the range of `signal_handlers`. -/
def SignalOk (signum : ℤ) : Prop := 0 ≤ signum ∧ signum < Signals.sigMax

instance : DecidablePred SignalOk := fun signum =>
  inferInstanceAs (Decidable (0 ≤ signum ∧ signum < Signals.sigMax))

/-- `kill` finds no process, or its number is in range. -/
def KillOk (s : State) (pid signum : ℤ) : Prop :=
  pid = 0 ∨ (∀ a ∈ s.signals.processList, (s.signals.procs a).pid ≠ pid) ∨ SignalOk signum

/-- **The condition.** A system call number is below 512; the signal number of
`rt_sigaction` is not negative, unless there is neither an action nor a place for
the old one; `select` stays inside the sets; and `kill` with a number out of range
finds no process. -/
def Ok (s : State) : Act → Prop
  | .enter regs _ => regs.rax < 512
  | .kill _ => KillOk s (int s.regs.rdi) (int s.regs.rsi)
  | .rtSigaction _ => 0 ≤ int s.regs.rdi ∨ s.regs.rsi = 0 ∧ s.regs.rdx = 0
  | .select words => SelectOk (int s.regs.rdi) (selectSetsOf s.regs words)
      (s.files s.signals.currentProcess) 0
  | _ => True

/-! ### The queues -/

/-- The numbers of the queued signals are in range. -/
def Queued (p : Signals.Process) : Prop :=
  ∀ signal ∈ p.queuedSignals, SignalOk signal.signalNumber

/-- **The invariant**: they are so for every process. -/
def State.Queued (s : State) : Prop := ∀ a, Syscalls.Queued (s.signals.procs a)

section Queues

variable {behind : ℕ → Bool} {p p' : Signals.Process} {s s' : State} {t : Signals.State}
variable {mmu : Mmu} {b : Bool} {signal : Signal}

theorem Queued.congr (h : Queued p) (hq : p'.queuedSignals = p.queuedSignals) : Queued p' := by
  rwa [Queued, hq]

theorem Queued.push (h : Queued p) (hs : SignalOk signal.signalNumber) (serial : ℕ) :
    Queued (p.push signal serial) := by
  intro other hmem
  rcases List.mem_cons.mp hmem with rfl | hmem
  · exact hs
  · exact h other hmem

theorem Queued.tail {next : List Signal} (h : Queued p) (hq : p.queuedSignals = signal :: next) :
    Queued { p with queuedSignals := next } := by
  intro other hmem
  exact h other (hq ▸ List.mem_cons_of_mem signal hmem)

theorem Queued.save {next : List Signal} (h : Queued p) (hq : p.queuedSignals = signal :: next)
    (hq' : p'.queuedSignals = p.save signal :: next) : Queued p' := by
  intro other hmem
  rw [hq'] at hmem
  rcases List.mem_cons.mp hmem with rfl | hmem
  · exact h signal (hq ▸ List.mem_cons_self)
  · exact h other (hq ▸ List.mem_cons_of_mem signal hmem)

theorem Queued.checkSignals (h : Queued p) (mmu : Mmu) (b : Bool) :
    Queued (p.checkSignals mmu b) := by
  rw [Signals.Process.checkSignals]
  cases hq : p.queuedSignals with
  | nil => exact h
  | cons signal next =>
    simp only
    split_ifs
    all_goals first
      | exact h
      | exact h.tail hq
      | exact h.save hq rfl

theorem Queued.krtSigret (h : Queued p) (hs : p.krtSigret = some p') : Queued p' := by
  obtain ⟨signal, next, stack, hq, -, rfl⟩ := Signals.Process.krtSigret_cases hs
  exact (h.tail hq).congr rfl

/-- Writing a record. -/
theorem queued_set {a : Addr} (h : ∀ c, Queued (t.procs c)) (hp : Queued p) (c : Addr) :
    Queued ((t.set a p).procs c) := by
  simp only [Signals.State.set]
  rcases eq_or_ne c a with rfl | hne
  · rwa [Function.update_self]
  · rw [Function.update_of_ne hne]
    exact h c

theorem queued_signalProcess {pid : ℤ} (h : ∀ c, Queued (t.procs c))
    (hs : (∀ a ∈ t.processList, (t.procs a).pid ≠ pid) ∨ SignalOk signal.signalNumber) (c : Addr) :
    Queued ((t.signalProcess pid signal).procs c) := by
  rw [Signals.State.signalProcess]
  cases hfind : t.processList.find? fun a => (t.procs a).pid = pid with
  | none => exact h c
  | some a =>
    rcases hs with hno | hok
    · have hpid := List.find?_some hfind
      exact absurd (by simpa using hpid) (hno a (List.mem_of_find?_eq_some hfind))
    · exact queued_set h ((h a).push hok _) c

theorem queued_processKill {pid signum : ℤ} {block : Signal} (h : ∀ c, Queued (t.procs c))
    (hs : pid = 0 ∨ (∀ a ∈ t.processList, (t.procs a).pid ≠ pid) ∨ SignalOk signum) (c : Addr) :
    Queued ((t.processKill pid signum block).procs c) := by
  rw [Signals.State.processKill]
  split_ifs with hpid
  · exact h c
  · exact queued_signalProcess h (hs.resolve_left hpid) c

/-- A `kill` that finds a process leaves its signal pending at the head. -/
theorem exists_processKill {pid : ℤ} (hpid : pid ≠ 0)
    (hmem : ¬∀ a ∈ t.processList, (t.procs a).pid ≠ pid) (signum : ℤ) (block : Signal) :
    ∃ target next, ((t.processKill pid signum block).procs target).queuedSignals =
      { block with
        signalNumber := signum, syscallStack := none, handled := false,
        serial := t.sent } :: next := by
  rw [Signals.State.processKill, if_neg hpid, Signals.State.signalProcess]
  cases hfind : t.processList.find? fun a => (t.procs a).pid = pid with
  | none =>
    refine absurd (fun a ha => ?_) hmem
    simpa using List.find?_eq_none.mp hfind a ha
  | some a =>
    refine ⟨a, (t.procs a).queuedSignals, ?_⟩
    simp [Signals.State.set, Signals.Process.push]

/-- **A step of `Xana.Signals` keeps the queues in range**, unless it is a `kill`. -/
theorem queued_signals {a : Signals.Act} {t' : Signals.State} (h : ∀ c, Queued (t.procs c))
    (hkill : ∀ pid signum block, a ≠ .kill pid signum block) (hs : Signals.step t a = some t')
    (c : Addr) : Queued (t'.procs c) := by
  have hcur : Queued t.current := h _
  rw [Signals.step.eq_def] at hs
  split at hs
  · -- a switch delivers to the process that comes next
    split_ifs at hs
    obtain rfl := Option.some.inj hs
    exact queued_set h ((h _).checkSignals _ false) c
  · split_ifs at hs
    cases a with
    | interrupt regs =>
      obtain rfl := Option.some.inj hs
      refine queued_set h ?_ c
      exact hcur.congr rfl
    | pageFault regs block =>
      obtain rfl := Option.some.inj hs
      have hin : Queued (t.current.interrupt regs) := hcur.congr rfl
      have hsegv : SignalOk Signals.sigsegv := by decide
      exact queued_signalProcess (queued_set h hin) (Or.inr hsegv) c
    | enterSyscall regs stack =>
      obtain rfl := Option.some.inj hs
      refine queued_set h ?_ c
      exact hcur.congr rfl
    | leaveSyscall rax mmu =>
      obtain rfl := Option.some.inj hs
      have hret : Queued (t.current.setReturn rax) := hcur.congr rfl
      exact queued_set h (hret.checkSignals mmu true) c
    | kill pid signum block => exact absurd rfl (hkill pid signum block)
    | sigaction signum handler =>
      obtain rfl := Option.some.inj hs
      refine queued_set h ?_ c
      rw [Signals.Process.sigaction]
      split_ifs
      · exact hcur
      · exact hcur.congr rfl
    | fork child block =>
      rw [Signals.actStep] at hs
      split_ifs at hs
      obtain rfl := Option.some.inj hs
      refine queued_set h ?_ c
      exact List.forall_mem_nil _
    | exec =>
      obtain rfl := Option.some.inj hs
      refine queued_set h ?_ c
      exact hcur.congr rfl
    | exit =>
      obtain rfl := Option.some.inj hs
      refine queued_set h ?_ c
      exact hcur.congr rfl
    | sigret regs stack =>
      obtain ⟨p', hp', rfl⟩ := Option.map_eq_some_iff.mp hs
      have hin : Queued (t.current.enterSyscall regs stack) := hcur.congr rfl
      exact queued_set h (hin.krtSigret hp') c
    | schedule next mmu => simp [Signals.actStep] at hs
    | reap target =>
      rw [Signals.actStep] at hs
      split_ifs at hs
      obtain rfl := Option.some.inj hs
      exact h c

/-- What the `kill` of `Xana.Signals` does. -/
theorem kill_eq {pid signum : ℤ} {block : Signal} {t' : Signals.State}
    (hs : Signals.step t (.kill pid signum block) = some t') :
    t' = t.processKill pid signum block := by
  rw [Signals.step.eq_def] at hs
  simp only at hs
  split_ifs at hs
  exact (Option.some.inj hs).symm

theorem killStep_eq {pid signum : ℤ} {block : Signal} {log : List Access}
    (hs : killStep s pid signum block = some (log, s')) :
    log = [] ∧ s' = { s with signals := s.signals.processKill pid signum block } := by
  obtain ⟨t, ht, heq⟩ := Option.map_eq_some_iff.mp hs
  obtain ⟨rfl, rfl⟩ := Prod.mk.inj heq
  rw [kill_eq ht]
  exact ⟨rfl, rfl⟩

theorem queued_killStep {pid signum : ℤ} {block : Signal} {log : List Access} (h : s.Queued)
    (hok : KillOk s pid signum) (hs : killStep s pid signum block = some (log, s')) :
    s'.Queued := by
  obtain ⟨-, rfl⟩ := killStep_eq hs
  exact queued_processKill h hok

/-- What is left of `Xana.Signals.Act` has its step, and is no `kill`. -/
theorem otherStep_cases {a : Signals.Act} {log : List Access}
    (hs : otherStep s a = some (log, s')) :
    ∃ t, Signals.step s.signals a = some t ∧ (∀ pid signum block, a ≠ .kill pid signum block) ∧
      s' = { s with signals := t } := by
  rw [otherStep.eq_def] at hs
  split at hs
  · simp at hs
  · simp at hs
  · simp at hs
  all_goals
    obtain ⟨t, ht, heq⟩ := Option.map_eq_some_iff.mp hs
    exact ⟨t, ht, by simp_all, (Prod.mk.inj heq).2.symm⟩

/-- **The step lemma.** -/
theorem queued_step {a : Act} (h : s.Queued) (hok : Ok s a) (hs : Steps behind s a s') :
    s'.Queued := by
  obtain ⟨log, hs⟩ := hs
  cases a with
  | enter regs stack =>
    obtain ⟨t, ht, heq⟩ := Option.map_eq_some_iff.mp hs
    have hqueued := queued_signals h (by simp) ht
    obtain rfl := (Prod.mk.inj heq).2
    split_ifs
    · exact hqueued
    · refine queued_set hqueued ?_
      exact (hqueued t.currentProcess).congr rfl
  | kill block =>
    simp only [step] at hs
    split_ifs at hs
    exact queued_killStep h hok hs
  | rtSigaction handler =>
    simp only [step] at hs
    split_ifs at hs
    · obtain rfl := (Prod.mk.inj (Option.some.inj hs)).2
      exact h
    · obtain rfl := (Prod.mk.inj (Option.some.inj hs)).2
      refine queued_set h ?_
      rw [Signals.Process.sigaction]
      split_ifs
      · exact h _
      · exact (h s.signals.currentProcess).congr rfl
  | select words =>
    simp only [step] at hs
    split_ifs at hs
    obtain rfl := (Prod.mk.inj (Option.some.inj hs)).2
    exact h
  | files fds =>
    simp only [step, Option.some_inj, Prod.mk.injEq] at hs
    obtain ⟨-, rfl⟩ := hs
    exact h
  | other a =>
    obtain ⟨t, ht, hkill, rfl⟩ := otherStep_cases hs
    exact queued_signals h hkill ht

/-- **The run lemma.** -/
theorem queued_of_reach (h : Reach (Steps behind) Ok IsInit s) : s.Queued := by
  refine Reach.invariant (P := State.Queued) (fun t ht a => ?_) (fun t a t' ht hok hs => ?_) h
  · rw [Queued, (ht.2.2 a).1]
    exact List.forall_mem_nil _
  · exact queued_step ht hok hs

/-! ### The accesses -/

/-- `check_signals` indexes by the number of the head signal. -/
theorem mem_checkSignals {access : Access} (h : access ∈ checkSignals p mmu b) :
    ∃ signal ∈ p.queuedSignals, access = ⟨.signalHandlers, signal.signalNumber⟩ := by
  rw [checkSignals] at h
  cases hq : p.queuedSignals with
  | nil => simp [hq] at h
  | cons signal next =>
    refine ⟨signal, List.mem_cons_self, ?_⟩
    simp only [hq] at h
    split_ifs at h
    all_goals first
      | exact absurd h List.not_mem_nil
      | simpa using h

theorem checkSignals_inBounds (h : Queued p) :
    ∀ access ∈ checkSignals p mmu b, access.InBounds := by
  intro access hmem
  obtain ⟨signal, hsignal, rfl⟩ := mem_checkSignals hmem
  exact h signal hsignal

theorem otherStep_inBounds {a : Signals.Act} {log : List Access} (h : s.Queued)
    (hs : otherStep s a = some (log, s')) : ∀ access ∈ log, access.InBounds := by
  rw [otherStep.eq_def] at hs
  split at hs
  · simp at hs
  · simp at hs
  · simp at hs
  all_goals
    obtain ⟨t, -, heq⟩ := Option.map_eq_some_iff.mp hs
    obtain rfl := (Prod.mk.inj heq).1
  · refine checkSignals_inBounds ?_
    exact (h s.signals.currentProcess).congr rfl
  · exact checkSignals_inBounds (h _)
  · exact List.forall_mem_nil _

/-- A pending signal whose number is out of range makes `check_signals` leave the
table. -/
theorem exists_checkSignals {next : List Signal} (hq : p.queuedSignals = signal :: next)
    (hh : signal.handled = false) (hbad : ¬SignalOk signal.signalNumber) :
    ∃ access ∈ checkSignals p mmu b, ¬access.InBounds := by
  have hkill : signal.signalNumber ≠ Signals.sigkill := by
    intro hc
    exact hbad (hc ▸ by decide)
  refine ⟨⟨.signalHandlers, signal.signalNumber⟩, ?_, hbad⟩
  simp only [checkSignals, hq, hh, Bool.false_eq_true, if_false, if_neg hkill]
  split_ifs <;> exact List.mem_cons_self

/-- So it does behind a `kill` that finds a process and has no number in range. -/
theorem exists_checkSignals_of_kill {pid signum : ℤ} {block : Signal} {log : List Access}
    (hs : killStep s pid signum block = some (log, s')) (hok : ¬KillOk s pid signum) :
    ∃ target, ∀ mmu b,
      ∃ access ∈ checkSignals (s'.signals.procs target) mmu b, ¬access.InBounds := by
  obtain ⟨-, rfl⟩ := killStep_eq hs
  rw [KillOk, not_or, not_or] at hok
  obtain ⟨hpid, hmem, hbad⟩ := hok
  obtain ⟨target, next, hq⟩ := exists_processKill hpid hmem signum block
  exact ⟨target, fun mmu b => exists_checkSignals hq rfl hbad⟩

/-- The accesses of `krt_sigaction`. -/
theorem krtSigaction_inBounds_iff {signum : ℤ} {act oldact : ℕ} :
    (∀ access ∈ krtSigaction signum act oldact, access.InBounds) ↔
      0 ≤ signum ∨ act = 0 ∧ oldact = 0 := by
  rw [krtSigaction]
  by_cases hmax : Signals.sigMax ≤ signum
  · have hpos : 0 ≤ signum := le_trans (by decide) hmax
    simp [hmax, hpos]
  · have hbounds : Access.InBounds ⟨.signalHandlers, signum⟩ ↔ 0 ≤ signum :=
      and_iff_left (not_le.mp hmax)
    rw [if_neg hmax]
    by_cases hact : act = 0 <;> by_cases hold : oldact = 0 <;> simp [hact, hold, hbounds]

/-- **What a step that meets the condition does.** -/
theorem lawful_of_ok {a : Act} (h : s.Queued) (hok : Ok s a) : Lawful behind s a := by
  intro log s' hs
  cases a with
  | enter regs stack =>
    obtain ⟨t, -, heq⟩ := Option.map_eq_some_iff.mp hs
    obtain rfl := (Prod.mk.inj heq).1
    rw [Ok] at hok
    refine ⟨fun access hmem => ?_, ?_⟩
    · obtain rfl := List.mem_singleton.mp hmem
      exact ⟨Int.natCast_nonneg _, by simp only [Table.size]; omega⟩
    · rintro regs' stack' heq' hge
      obtain ⟨rfl, rfl⟩ := Act.enter.inj heq'
      omega
  | kill block =>
    simp only [step] at hs
    split_ifs at hs
    obtain ⟨rfl, -⟩ := killStep_eq hs
    exact ⟨List.forall_mem_nil _, by simp⟩
  | rtSigaction handler =>
    rw [Ok] at hok
    simp only [step] at hs
    split_ifs at hs
    all_goals
      obtain rfl := (Prod.mk.inj (Option.some.inj hs)).1
      exact ⟨krtSigaction_inBounds_iff.mpr hok, by simp⟩
  | select words =>
    simp only [step] at hs
    split_ifs at hs
    obtain rfl := (Prod.mk.inj (Option.some.inj hs)).1
    exact ⟨selectPass_inBounds_iff.mpr hok, by simp⟩
  | files fds =>
    simp only [step, Option.some_inj, Prod.mk.injEq] at hs
    obtain ⟨rfl, -⟩ := hs
    exact ⟨List.forall_mem_nil _, by simp⟩
  | other a =>
    refine ⟨otherStep_inBounds h hs, by simp⟩

/-- **What a step that does not meet it does**: it leaves a table at once, or the
next `check_signals` of some process will. -/
theorem not_lawful_of_not_ok {a : Act} {log : List Access} (hs : step behind s a = some (log, s'))
    (hok : ¬Ok s a) :
    ¬Lawful behind s a ∨ ∃ target, ∀ mmu b,
      ∃ access ∈ checkSignals (s'.signals.procs target) mmu b, ¬access.InBounds := by
  cases a with
  | enter regs stack =>
    rw [Ok] at hok
    refine Or.inl fun hlaw => hok ?_
    obtain ⟨t, -, heq⟩ := Option.map_eq_some_iff.mp hs
    obtain rfl := (Prod.mk.inj heq).1
    have hbound := ((hlaw _ _ hs).1 _ (List.mem_singleton_self _)).2
    simp only [Table.size] at hbound
    omega
  | kill block =>
    simp only [step] at hs
    split_ifs at hs
    exact Or.inr (exists_checkSignals_of_kill hs hok)
  | rtSigaction handler =>
    rw [Ok] at hok
    refine Or.inl fun hlaw => hok ?_
    have hall := (hlaw _ _ hs).1
    simp only [step] at hs
    split_ifs at hs
    all_goals
      obtain rfl := (Prod.mk.inj (Option.some.inj hs)).1
      exact krtSigaction_inBounds_iff.mp hall
  | select words =>
    rw [Ok] at hok
    refine Or.inl fun hlaw => hok ?_
    have hall := (hlaw _ _ hs).1
    simp only [step] at hs
    split_ifs at hs
    obtain rfl := (Prod.mk.inj (Option.some.inj hs)).1
    exact selectPass_inBounds_iff.mp hall
  | files fds => exact absurd trivial hok
  | other a => exact absurd trivial hok

/-- **The tables are kept to**: in every state reached by steps that meet the
condition, a step that meets it keeps to the tables – and one that does not either
leaves them at once, or makes the next `check_signals` of some process do so. -/
theorem lawful_of_reach {a : Act} {log : List Access}
    (h : Reach (Steps behind) Ok IsInit s) (hs : step behind s a = some (log, s')) :
    (Ok s a → Lawful behind s a) ∧
      (¬Ok s a → ¬Lawful behind s a ∨ ∃ target, ∀ mmu b,
        ∃ access ∈ checkSignals (s'.signals.procs target) mmu b, ¬access.InBounds) :=
  ⟨lawful_of_ok (queued_of_reach h), not_lawful_of_not_ok hs⟩

/-- The state after `process_init`. -/
def bootState : State := ⟨Signals.bootState, fun _ => [], fun _ => none⟩

theorem isInit_boot : IsInit bootState := Signals.isInit_bootState

/-- A system call with a number, and nothing else in the registers. -/
def enterWith (rax : ℕ) : Act := .enter { (default : Regs) with rax := rax } fun _ => 0

theorem exists_step_enterWith (behind : ℕ → Bool) (rax : ℕ) :
    ∃ s', step behind bootState (enterWith rax) = some ([⟨.syscallTable, rax⟩], s') :=
  ⟨_, rfl⟩

/-- `getpid`. -/
theorem lawful_of_reach_getpid : Lawful (fun _ => false) bootState (enterWith 39) := by
  obtain ⟨s', hs⟩ := exists_step_enterWith (fun _ => false) 39
  have hok : Ok bootState (enterWith 39) := by
    change (39 : ℕ) < 512
    decide
  exact (lawful_of_reach (.init isInit_boot) hs).1 hok

/-- The number 512 is looked up in the table as well. -/
theorem not_lawful : ¬∀ behind s a, Reach (Steps behind) anyStep IsInit s → Lawful behind s a := by
  intro hall
  obtain ⟨s', hs⟩ := exists_step_enterWith (fun _ => true) 512
  have hlaw := hall (fun _ => true) bootState (enterWith 512) (.init isInit_boot)
  have hbound := ((hlaw _ _ hs).1 _ (List.mem_singleton_self _)).2
  revert hbound
  decide

end Queues

end Syscalls

end Xana
