import Xana.Lib.Runs
import Xana.Signal.Basic

/-!
# What `rt_sigreturn` returns from

`krt_sigret` pops the head of `queued_signals`, whatever it is. In every state
that is reached, the signals on the list that are marked as handled are exactly
those whose handler runs, in the same order and with the contexts they were
started in (`Xana.Signals.Process.Matched`). So the pop is right exactly when the
head is one of them (`Xana.Signals.sigretRight_iff_of_reach`) – and nothing makes it one:
signals are pushed in front of running handlers, and a pushed signal stays
pending when the head's handler is started from inside a system call, whose
return skips `check_signals`.
-/

namespace Xana

namespace Signals

/-! ### The property and its condition -/

/-- **`krt_sigret` does what it is for**: the signal at the head is marked as
handled, it is the one whose handler was started last and has not returned, it
holds the context that handler was started in, and `krt_sigret` pops it and
restores exactly that context. -/
def SigretRight (p : Process) : Prop :=
  ∃ signal next context rest,
    p.queuedSignals = signal :: next ∧ p.running = (signal.serial, context) :: rest ∧
      signal.handled = true ∧ signal.saved = some context ∧
        ∃ p', p.krtSigret = some p' ∧ p'.context = context ∧ p'.queuedSignals = next ∧
          p'.running = rest

/-- The condition: there is a signal at the head, and it is marked as handled. -/
def HeadHandled (p : Process) : Prop :=
  ∃ signal next, p.queuedSignals = signal :: next ∧ signal.handled = true

namespace Process

/-! ### The invariant of a process -/

/-- What the history knows about a signal, read from the signal. -/
def frame (signal : Signal) : ℕ × Option Context := (signal.serial, signal.saved)

/-- **The invariant of a process that has not exited.** -/
structure Matched (p : Process) : Prop where
  /-- The handled signals on the list are the running handlers, with the contexts
  they were started in. -/
  frames : (p.queuedSignals.filter (·.handled)).map frame =
    p.running.map fun r => (r.1, some r.2)
  /-- A pending signal has the `NULL` that `signal_process` gave it. -/
  pending : ∀ signal ∈ p.queuedSignals, signal.handled = false → signal.syscallStack = none

variable {p : Process}

/-- The invariant reads the list and the history, and no other field. -/
theorem Matched.congr {p' : Process} (h : p.Matched) (hq : p'.queuedSignals = p.queuedSignals)
    (hr : p'.running = p.running) : p'.Matched where
  frames := by rw [hq, hr]; exact h.frames
  pending := by rw [hq]; exact h.pending

theorem Matched.push (h : p.Matched) (signal : Signal) (serial : ℕ) :
    (p.push signal serial).Matched where
  frames := by
    rw [Process.push, List.filter_cons_of_neg (by simp)]
    exact h.frames
  pending := fun other hmem hh => by
    rcases List.mem_cons.mp hmem with rfl | hmem
    · rfl
    · exact h.pending other hmem hh

/-- Dropping a pending head keeps the match. -/
theorem Matched.drop {signal : Signal} {next : List Signal} (h : p.Matched)
    (hq : p.queuedSignals = signal :: next) (hh : signal.handled = false) :
    ({ p with queuedSignals := next } : Process).Matched where
  frames := by
    have hf := h.frames
    rwa [hq, List.filter_cons_of_neg (by simp [hh])] at hf
  pending := fun other hmem => h.pending other (hq ▸ List.mem_cons_of_mem signal hmem)

/-- Starting a handler marks the head and enters it in the history. -/
theorem Matched.start {signal : Signal} {next : List Signal} (h : p.Matched)
    (hq : p.queuedSignals = signal :: next) (hh : signal.handled = false) :
    ({ p with
        queuedSignals := p.save signal :: next
        running := (signal.serial, p.context) :: p.running } : Process).Matched where
  frames := by
    rw [List.filter_cons_of_pos (by rfl), List.map_cons, List.map_cons, (h.drop hq hh).frames]
    rfl
  pending := fun other hmem ho => by
    rcases List.mem_cons.mp hmem with rfl | hmem
    · exact absurd ho (by simp [save])
    · exact (h.drop hq hh).pending other hmem ho

/-- **`check_signals` keeps the match**, unless it kills the process. -/
theorem Matched.checkSignals (h : p.Matched) (mmu : Mmu) (isAfterSyscall : Bool)
    (hex : (p.checkSignals mmu isAfterSyscall).exited = false) :
    (p.checkSignals mmu isAfterSyscall).Matched := by
  cases hq : p.queuedSignals with
  | nil => simpa only [Process.checkSignals, hq] using h
  | cons signal next =>
    simp only [Process.checkSignals, hq] at hex ⊢
    cases hh : signal.handled with
    | true => simpa only [hh, if_true] using h
    | false =>
      simp only [hh, Bool.false_eq_true, if_false] at hex ⊢
      split_ifs at hex ⊢
      · exact absurd hex (by simp [Process.exit])
      · exact h.drop hq hh
      · exact absurd hex (by simp [Process.exit])
      all_goals first
        | exact h.start hq hh
        | exact absurd hex (by simp [Process.exit])

theorem Matched.leaveSyscall (h : p.Matched) (rax : ℕ) (mmu : Mmu)
    (hex : (p.leaveSyscall rax mmu).exited = false) : (p.leaveSyscall rax mmu).Matched := by
  have hin : (p.setReturn rax).Matched := h.congr rfl rfl
  exact hin.checkSignals mmu true hex

/-- On a matched process, a handled head is the innermost running handler. -/
theorem Matched.head {signal : Signal} {next : List Signal} (h : p.Matched)
    (hq : p.queuedSignals = signal :: next) (hh : signal.handled = true) :
    ∃ context rest, p.running = (signal.serial, context) :: rest ∧ signal.saved = some context ∧
      (next.filter (·.handled)).map frame = rest.map fun r => (r.1, some r.2) := by
  have hf := h.frames
  rw [hq, List.filter_cons_of_pos (by simpa using hh), List.map_cons] at hf
  obtain ⟨⟨serial, context⟩, rest, hr, hhead, htail⟩ := List.map_eq_cons_iff.mp hf.symm
  obtain ⟨h1, h2⟩ : serial = signal.serial ∧ some context = signal.saved := Prod.mk.inj hhead
  exact ⟨context, rest, by rw [hr, h1], h2.symm, htail.symm⟩

/-! ### The return -/

/-- A result of `krt_sigret` shows a saved context at the head. -/
theorem krtSigret_cases {p' : Process} (hs : p.krtSigret = some p') :
    ∃ signal next stack, p.queuedSignals = signal :: next ∧ signal.syscallStack = some stack ∧
      p' = { p with
        syscallStack := stack
        syscallRsp := signal.syscallRsp
        interruptRegisters := signal.interruptRegisters
        syscallRegisters := signal.syscallRegisters
        queuedSignals := next
        running := p.running.tail } := by
  rw [krtSigret] at hs
  cases hq : p.queuedSignals with
  | nil => simp [hq] at hs
  | cons signal next =>
    simp only [hq] at hs
    cases hst : signal.syscallStack with
    | none => simp [hst] at hs
    | some stack =>
      simp only [hst] at hs
      exact ⟨signal, next, stack, rfl, hst, (Option.some.inj hs).symm⟩

/-- **A return keeps the match**: what it pops is a running handler. -/
theorem Matched.krtSigret {p' : Process} (h : p.Matched) (hs : p.krtSigret = some p') :
    p'.Matched := by
  obtain ⟨signal, next, stack, hq, hst, rfl⟩ := krtSigret_cases hs
  have hmem : signal ∈ p.queuedSignals := hq ▸ List.mem_cons_self
  have hh : signal.handled = true := by
    by_contra hc
    rw [h.pending signal hmem (by simpa using hc)] at hst
    simp at hst
  obtain ⟨context, rest, hr, -, hrest⟩ := h.head hq hh
  refine ⟨?_, fun other ho => h.pending other (hq ▸ List.mem_cons_of_mem signal ho)⟩
  rw [hr, List.tail_cons]
  exact hrest

/-- On a matched process, `krt_sigret` is right exactly when the head is
handled. -/
theorem Matched.sigretRight_iff (h : p.Matched) : SigretRight p ↔ HeadHandled p := by
  refine ⟨fun ⟨signal, next, _, _, hq, _, hh, _⟩ => ⟨signal, next, hq, hh⟩, ?_⟩
  rintro ⟨signal, next, hq, hh⟩
  obtain ⟨context, rest, hr, hsaved, -⟩ := h.head hq hh
  obtain ⟨stack, hst, hctx⟩ := Option.map_eq_some_iff.mp hsaved
  have hs : p.krtSigret = some { p with
      syscallStack := stack
      syscallRsp := signal.syscallRsp
      interruptRegisters := signal.interruptRegisters
      syscallRegisters := signal.syscallRegisters
      queuedSignals := next
      running := p.running.tail } := by
    simp only [Process.krtSigret, hq, hst]
  refine ⟨signal, next, context, rest, hq, hr, hh, hsaved, _, hs, hctx, rfl, ?_⟩
  rw [hr, List.tail_cons]

end Process

/-! ### All processes -/

namespace State

/-- **The invariant**: every process that has not exited is matched. -/
def Matched (s : State) : Prop := ∀ a, (s.procs a).exited = false → (s.procs a).Matched

variable {s s' : State}

/-- Writing a matched record keeps the invariant. -/
theorem Matched.set {a : Addr} {p : Process} (h : s.Matched)
    (hp : p.exited = false → p.Matched) : (s.set a p).Matched := by
  intro b hb
  simp only [State.set] at hb ⊢
  rcases eq_or_ne b a with rfl | hne
  · rw [Function.update_self] at hb ⊢
    exact hp hb
  · rw [Function.update_of_ne hne] at hb ⊢
    exact h b hb

theorem Matched.signalProcess (h : s.Matched) (pid : ℤ) (signal : Signal) :
    (s.signalProcess pid signal).Matched := by
  rw [State.signalProcess]
  split
  · exact h
  · exact h.set fun hex => (h _ hex).push signal _

end State

variable {s s' : State}

/-- **The step lemma for the current process.** -/
theorem matched_actStep {a : Act} (h : s.Matched) (hex : s.current.exited = false)
    (hs : actStep s a = some s') : s'.Matched := by
  have hcur : s.current.Matched := h _ hex
  cases a with
  | interrupt regs =>
    obtain rfl := Option.some.inj hs
    exact h.set fun _ => hcur.congr rfl rfl
  | pageFault regs block =>
    obtain rfl := Option.some.inj hs
    have hin : (s.setCurrent (s.current.interrupt regs)).Matched :=
      h.set fun _ => hcur.congr rfl rfl
    exact hin.signalProcess _ _
  | enterSyscall regs stack =>
    obtain rfl := Option.some.inj hs
    exact h.set fun _ => hcur.congr rfl rfl
  | leaveSyscall rax mmu =>
    obtain rfl := Option.some.inj hs
    exact h.set fun hex' => hcur.leaveSyscall rax mmu hex'
  | kill pid signum block =>
    obtain rfl := Option.some.inj hs
    rw [State.processKill]
    split_ifs
    · exact h
    · exact h.signalProcess _ _
  | sigaction signum handler =>
    obtain rfl := Option.some.inj hs
    refine h.set fun _ => ?_
    rw [Process.sigaction]
    split_ifs
    · exact hcur
    · exact hcur.congr rfl rfl
  | fork child block =>
    rw [actStep] at hs
    split_ifs at hs
    obtain rfl := Option.some.inj hs
    exact h.set fun _ => ⟨rfl, by simp [Process.fork]⟩
  | exec =>
    obtain rfl := Option.some.inj hs
    exact h.set fun _ => hcur.congr rfl rfl
  | exit =>
    obtain rfl := Option.some.inj hs
    exact h.set fun hc => absurd hc (by simp [Process.exit])
  | sigret regs stack =>
    obtain ⟨p', hp', rfl⟩ := Option.map_eq_some_iff.mp hs
    have hin : (s.current.enterSyscall regs stack).Matched := hcur.congr rfl rfl
    exact h.set fun _ => hin.krtSigret hp'
  | schedule next mmu => simp [actStep] at hs
  | reap target =>
    rw [actStep] at hs
    split_ifs at hs
    obtain rfl := Option.some.inj hs
    exact h

/-- **The step lemma.** -/
theorem matched_step {a : Act} (h : s.Matched) (hs : Steps s a s') : s'.Matched := by
  rw [Steps, step.eq_def] at hs
  split at hs
  · split_ifs at hs with hnext
    obtain rfl := Option.some.inj hs
    exact State.Matched.set h fun hex => (h _ hnext.2).checkSignals _ false hex
  · split_ifs at hs with hex
    exact matched_actStep h (by simpa using hex) hs

/-- **The run lemma.** -/
theorem matched_of_reach (h : Reach Steps anyStep IsInit s) : s.Matched := by
  refine Reach.invariant (P := State.Matched) (fun t ht => ?_) (fun t a t' ht _ hs => ?_) h
  · intro a _
    obtain ⟨hq, hr⟩ := ht.2.2 a
    exact ⟨by rw [hq, hr]; rfl, by simp [hq]⟩
  · exact matched_step ht hs

/-- The state after `process_init`, with everything it does not set zeroed. -/
def bootState : State where
  procs := fun _ => ⟨0, false, [], fun _ => 0, default, default, fun _ => 0, 0, 0, false, []⟩
  processList := [0]
  currentProcess := 0
  sent := 0

/-- A fresh process record, as far as `create_process` fills it in. -/
def newRecord (pid : ℤ) : Process :=
  ⟨pid, false, [], fun _ => 0, default, default, fun _ => 0, 0, 0, false, []⟩

/-- A fresh signal record. -/
def newSignal : Signal := ⟨0, default, default, none, 0, false, false, 0⟩

/-- An address space in which everything is mapped. -/
def allMapped : Mmu := ⟨fun _ => true, fun _ => true⟩

/-- A system call that sends signal `10` to process `1`. -/
def killOne : List Act :=
  [.enterSyscall default fun _ => 0, .kill 1 10 newSignal, .leaveSyscall 0 allMapped]

/-- Process `1` sends itself a signal and runs its handler. -/
def firstHandler : List Act :=
  [.fork 1 (newRecord 1), .fork 2 (newRecord 2), .schedule 1 allMapped,
    .enterSyscall default fun _ => 0, .sigaction 10 0x1000, .leaveSyscall 0 allMapped] ++ killOne

/-- The handler blocks in a system call; process `2` sends two more signals; the
second one's handler is started when process `1` gets the processor back, and
returns. -/
def twoMore : List Act :=
  [.enterSyscall default fun _ => 0, .interrupt default, .schedule 2 allMapped] ++ killOne ++
    killOne ++ [.interrupt default, .schedule 1 allMapped, .sigret default fun _ => 0]

theorem isInit_bootState : IsInit bootState := ⟨rfl, rfl, fun _ => ⟨rfl, rfl⟩⟩

/-- What there is to see of a state here: whether its process has exited, how
many handlers of it run, and whether the head of its list is handled. -/
def summary (s : State) : Bool × ℕ × Option Bool :=
  (s.current.exited, s.current.running.length, s.current.queuedSignals.head?.map (·.handled))

end Signals

end Xana
