import Mathlib.Data.Int.Basic
import Mathlib.Data.List.Basic
import Mathlib.Logic.Function.Basic
import Xana.Process.Basic

/-!
# Signals

How a signal is queued, handled and returned from: `signal_process`,
`process_kill` and the last part of `page_fault_error`, `check_signals`,
`krt_sigaction`, `krt_sigret`, and what the system call entry, the interrupt
entry, `kfork`, `kexecv` and `schedule` do to the fields these read.

One list, `queued_signals`, is both the queue of pending signals and the stack of
running handlers: `signal_process` pushes at its head, `check_signals` starts the
handler of its head in place, and `krt_sigret` pops its head. What the model adds
to a process is a history, `Process.running`: the signals whose handler has been
started and has not returned, innermost first, each with the context the process
was in when `check_signals` started it – read from the process, not from the
signal. A serial number, counted at `signal_process`, tells signals apart.

The fields `signal_mask`, `in_signal_handler` and `registers` are written and
never read, and are left out; so is the user stack `run_signal` writes to.
`memcpy` from the `NULL` that `signal_process` leaves in `syscall_stack`, like any
access through `queued_signals == NULL`, is a fault inside the kernel:
`krt_sigret` then has no result.
-/

namespace Xana

namespace Signals

/-- `regs_t`. -/
structure Regs where
  (r15 r14 r13 r12 r11 r10 r9 r8 rdi rsi rbp rbx rdx rcx rax : ℕ)
  (intNo errCode : ℕ)
  (rip cs rflags rsp ss : ℕ)
  deriving DecidableEq, Repr, Inhabited

/-- The `SYSCALL_STACK_SIZE` bytes of a kernel stack. -/
abbrev Stack := ℕ → UInt8

/-- What `check_signals` saves before it starts a handler. -/
structure Context where
  interruptRegisters : Regs
  syscallRegisters : Regs
  syscallStack : Stack
  syscallRsp : ℕ

/-- `signal_t`, the list link aside. -/
structure Signal where
  signalNumber : ℤ
  interruptRegisters : Regs
  syscallRegisters : Regs
  syscallStack : Option Stack
  syscallRsp : ℕ
  handled : Bool
  wasInSyscall : Bool
  /-- History: the number of signals sent before this one. -/
  serial : ℕ

/-- The context a signal holds, if it holds one. -/
def Signal.saved (signal : Signal) : Option Context :=
  signal.syscallStack.map fun stack =>
    ⟨signal.interruptRegisters, signal.syscallRegisters, stack, signal.syscallRsp⟩

/-- The fields of a `process_t` that signals touch. `signalHandlers` holds
addresses, `0` for none. -/
structure Process where
  pid : ℤ
  exited : Bool
  queuedSignals : List Signal
  signalHandlers : ℤ → ℕ
  interruptRegisters : Regs
  syscallRegisters : Regs
  syscallStack : Stack
  syscallRsp : ℕ
  userRsp : ℕ
  inSyscall : Bool
  /-- History: the signals whose handler runs, by serial number, innermost first,
  with the context each was started in. -/
  running : List (ℕ × Context)

/-- The answers of `is_mapped_user` and `virt_to_phys` at the time of a call. -/
structure Mmu where
  isMappedUser : ℕ → Bool
  isMapped : ℕ → Bool

/-! ### The constants -/

/-- `SIGKILL`. -/
def sigkill : ℤ := 9

/-- `SIGSEGV`. -/
def sigsegv : ℤ := 11

/-- `SIGCHLD`, `SIGURG`, `SIGWINCH`: ignored unless handled. -/
def ignoredSignals : List ℤ := [17, 23, 28]

/-- `SIG_MAX`. -/
def sigMax : ℤ := 31

/-- `VIRT_MEM_OFFSET`. -/
def virtMemOffset : ℕ := 0xffffff8000000000

/-! ### One process -/

namespace Process

variable (p : Process)

/-- The context the process is in. -/
def context : Context :=
  ⟨p.interruptRegisters, p.syscallRegisters, p.syscallStack, p.syscallRsp⟩

/-- `process_exit` and `process_exit_abnormal`. The list of signals is freed, and
never looked at again. -/
def exit : Process := { p with exited := true }

/-- The entry of `irq_handler` and `fault_handler`. -/
def interrupt (regs : Regs) : Process :=
  { p with
    interruptRegisters := regs
    userRsp := if regs.rsp < virtMemOffset then regs.rsp else p.userRsp }

/-- `syscall_handler` up to the call of the system call. -/
def enterSyscall (regs : Regs) (syscallStack : Stack) : Process :=
  { p with
    syscallRsp := regs.rsp
    syscallStack := syscallStack
    syscallRegisters := regs
    userRsp := if regs.rsp < virtMemOffset then regs.rsp else p.userRsp
    inSyscall := true }

/-- The list operation of `signal_process`. -/
def push (signal : Signal) (serial : ℕ) : Process :=
  { p with
    queuedSignals :=
      { signal with syscallStack := none, handled := false, serial := serial } ::
        p.queuedSignals }

/-- `krt_sigaction`, with an action. -/
def sigaction (signum : ℤ) (handler : ℕ) : Process :=
  if sigMax ≤ signum then p
  else { p with signalHandlers := Function.update p.signalHandlers signum handler }

/-- The head signal as `check_signals` leaves it when it starts its handler. -/
def save (signal : Signal) : Signal :=
  { signal with
    interruptRegisters := p.interruptRegisters
    syscallRegisters := p.syscallRegisters
    syscallStack := some p.syscallStack
    syscallRsp := p.syscallRsp
    handled := true
    wasInSyscall := p.inSyscall }

/-- `check_signals`. The kernel leaves it in one of four ways: there is nothing
to do, the head signal is dropped, the process is killed, or the head signal's
handler runs. -/
def checkSignals (mmu : Mmu) (isAfterSyscall : Bool) : Process :=
  match p.queuedSignals with
  | [] => p
  | signal :: next =>
      if signal.handled then p
      else if signal.signalNumber = sigkill then p.exit
      else
        let handler := p.signalHandlers signal.signalNumber
        if handler = 0 ∨ mmu.isMappedUser handler = false then
          if signal.signalNumber ∈ ignoredSignals then { p with queuedSignals := next }
          else p.exit
        else
          let rsp :=
            if isAfterSyscall then p.syscallRsp
            else if virtMemOffset ≤ p.interruptRegisters.rsp then p.userRsp
            else p.interruptRegisters.rsp
          if mmu.isMapped rsp then
            { p with
              queuedSignals := p.save signal :: next
              running := (signal.serial, p.context) :: p.running }
          else { p with queuedSignals := p.save signal :: next }.exit

/-- `syscall_handler` storing what the system call returned. -/
def setReturn (rax : ℕ) : Process :=
  { p with
    syscallRegisters := { p.syscallRegisters with rax := rax }
    inSyscall := false }

/-- `syscall_handler` after the system call has returned `rax`. -/
def leaveSyscall (rax : ℕ) (mmu : Mmu) : Process := (p.setReturn rax).checkSignals mmu true

/-- `krt_sigret` up to the jump: the head signal is popped and its context
restored. The innermost handler has returned. -/
def krtSigret : Option Process :=
  match p.queuedSignals with
  | [] => none
  | signal :: next =>
      match signal.syscallStack with
      | none => none
      | some stack =>
          some { p with
            syscallStack := stack
            syscallRsp := signal.syscallRsp
            interruptRegisters := signal.interruptRegisters
            syscallRegisters := signal.syscallRegisters
            queuedSignals := next
            running := p.running.tail }

/-- The child of `kfork`, in the `block` that `create_process` has filled in. -/
def fork (block : Process) : Process :=
  { block with
    exited := false
    queuedSignals := []
    signalHandlers := p.signalHandlers
    syscallRegisters := p.syscallRegisters
    syscallRsp := p.syscallRsp
    running := [] }

end Process

/-! ### All processes -/

/-- The processes by address, `process_list` and the process that runs. -/
structure State where
  procs : Addr → Process
  processList : List Addr
  currentProcess : Addr
  /-- History: the number of signals sent so far. -/
  sent : ℕ

namespace State

variable (s : State)

/-- `*current_process`. -/
def current : Process := s.procs s.currentProcess

/-- Write a process record. -/
def set (a : Addr) (p : Process) : State := { s with procs := Function.update s.procs a p }

/-- Write the current process' record. -/
def setCurrent (p : Process) : State := s.set s.currentProcess p

/-- `signal_process`: the first process on the list with the pid gets the signal,
if there is one. -/
def signalProcess (pid : ℤ) (signal : Signal) : State :=
  match s.processList.find? fun a => (s.procs a).pid = pid with
  | none => s
  | some a => { s.set a ((s.procs a).push signal s.sent) with sent := s.sent + 1 }

/-- `process_kill`, with the block it gets from `kmalloc`. -/
def processKill (pid signum : ℤ) (block : Signal) : State :=
  if pid = 0 then s else s.signalProcess pid { block with signalNumber := signum }

/-- `page_fault_error` for a fault it cannot resolve, up to its call of
`schedule`. -/
def pageFault (regs : Regs) (block : Signal) : State :=
  (s.setCurrent (s.current.interrupt regs)).signalProcess s.current.pid
    { block with signalNumber := sigsegv }

/-- `schedule`, with the process it switches to. -/
def schedule (next : Addr) (mmu : Mmu) : State :=
  { s with currentProcess := next }.setCurrent ((s.procs next).checkSignals mmu false)

end State

/-! ### Runs -/

/-- The operations a run is made of. Those before `schedule` are the current
process', on its own behalf or interrupted; the two blocks are what `kmalloc` and
`create_process` return. -/
inductive Act
  | interrupt (regs : Regs)
  | pageFault (regs : Regs) (block : Signal)
  | enterSyscall (regs : Regs) (stack : Stack)
  | leaveSyscall (rax : ℕ) (mmu : Mmu)
  | kill (pid signum : ℤ) (block : Signal)
  | sigaction (signum : ℤ) (handler : ℕ)
  | fork (child : Addr) (block : Process)
  | exec
  | exit
  | sigret (regs : Regs) (stack : Stack)
  | schedule (next : Addr) (mmu : Mmu)
  | reap (target : Addr)

/-- An operation of a current process that has not exited. -/
def actStep (s : State) : Act → Option State
  | .interrupt regs => some (s.setCurrent (s.current.interrupt regs))
  | .pageFault regs block => some (s.pageFault regs block)
  | .enterSyscall regs stack => some (s.setCurrent (s.current.enterSyscall regs stack))
  | .leaveSyscall rax mmu => some (s.setCurrent (s.current.leaveSyscall rax mmu))
  | .kill pid signum block => some (s.processKill pid signum block)
  | .sigaction signum handler => some (s.setCurrent (s.current.sigaction signum handler))
  | .fork child block =>
      if child ∈ s.processList then none
      else some { s.set child (s.current.fork block) with processList := s.processList ++ [child] }
  | .exec => some (s.setCurrent { s.current with signalHandlers := fun _ => 0 })
  | .exit => some (s.setCurrent s.current.exit)
  | .sigret regs stack => (s.current.enterSyscall regs stack).krtSigret.map s.setCurrent
  | .schedule _ _ => none
  | .reap target =>
      if (s.procs target).exited then some { s with processList := s.processList.erase target }
      else none

/-- One operation. A process that has exited, or has just been killed by
`check_signals`, does nothing but leave the processor; `schedule` switches to a
listed process that has not exited. -/
def step (s : State) : Act → Option State
  | .schedule next mmu =>
      if next ∈ s.processList ∧ (s.procs next).exited = false then some (s.schedule next mmu)
      else none
  | a => if s.current.exited then none else actStep s a

/-- The step relation of signals. -/
abbrev Steps (s : State) (a : Act) (s' : State) : Prop := step s a = some s'

/-- The state `process_init` leaves: one process, no signals sent. What its other
fields hold is not its business. -/
def IsInit (s : State) : Prop :=
  s.sent = 0 ∧ s.processList = [s.currentProcess] ∧
    ∀ a, (s.procs a).queuedSignals = [] ∧ (s.procs a).running = []

end Signals

end Xana
