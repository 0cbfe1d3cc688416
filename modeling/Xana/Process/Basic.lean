import Mathlib.Logic.Function.Basic
import Mathlib.Data.List.Basic

/-!
# The process table

The part of `process.c` that decides which process exists and which one runs:
`first_free_pid`, `add_process`, the switch and the dispatch of `schedule`,
`process_exit`, and the unlinking at the end of `process_wait`.

A `process_t` is named by its address. `process_list` is a list whose only
entrance is its head, and no code holds a pointer into the middle of it across a
change, so it is the list of the addresses on it in `next` order. The run queue
is different: `add_process` and `schedule` reach it through *two* pointers, the
head `queue` and the separate `queue_tail`, and write `queue_next` through the
latter. So `queue_next` stays a field of the node, the two pointers stay
pointers, and nothing in the model says that they agree.

Dereferencing `NULL` and `kpanic` end the run: such a call has no result state.
-/

namespace Xana

/-- The address of a `process_t`. -/
abbrev Addr := ℕ

/-- The `TASK_*` constants. -/
inductive TaskStatus
  | running
  | stopped
  | initial
  | forked
  | exited
  | waiting
  deriving DecidableEq, Repr

/-- The fields of a `process_t` that the process table reads. -/
structure Process where
  pid : ℕ
  status : TaskStatus
  queueNext : Option Addr
  deriving DecidableEq, Repr

/-- The globals of `process.c`: the processes by address, `process_list` in
`next` order, the run queue's two pointers and the process that runs. -/
structure ProcTable where
  procs : Addr → Process
  processList : List Addr
  queue : Option Addr
  queueTail : Option Addr
  currentProcess : Addr

namespace ProcTable

/-- The `queue_next` fields, as a successor function. -/
def nextOf (s : ProcTable) (p : Addr) : Option Addr := (s.procs p).queueNext

/-- The pids on `process_list`, in list order. -/
def pids (s : ProcTable) : List ℕ := s.processList.map fun p => (s.procs p).pid

/-- The test of `schedule` for putting a process back on the queue. -/
def Runnable (s : ProcTable) (p : Addr) : Prop :=
  (s.procs p).status ≠ .exited ∧ (s.procs p).status ≠ .waiting

instance (s : ProcTable) (p : Addr) : Decidable (s.Runnable p) :=
  inferInstanceAs (Decidable (_ ∧ _))

/-- `p->queue_next = q`. -/
def setQueueNext (s : ProcTable) (p : Addr) (q : Option Addr) : ProcTable :=
  { s with procs := Function.update s.procs p { s.procs p with queueNext := q } }

/-- `p->status = st`. -/
def setStatus (s : ProcTable) (p : Addr) (st : TaskStatus) : ProcTable :=
  { s with procs := Function.update s.procs p { s.procs p with status := st } }

/-! ### The field updates, seen from outside -/

section Fields

variable (s : ProcTable) (p r : Addr) (q : Option Addr) (st : TaskStatus)

@[simp] theorem setQueueNext_processList : (s.setQueueNext p q).processList = s.processList := rfl

@[simp] theorem setQueueNext_queue : (s.setQueueNext p q).queue = s.queue := rfl

@[simp] theorem setQueueNext_queueTail : (s.setQueueNext p q).queueTail = s.queueTail := rfl

@[simp] theorem setQueueNext_currentProcess :
    (s.setQueueNext p q).currentProcess = s.currentProcess := rfl

@[simp] theorem setStatus_processList : (s.setStatus p st).processList = s.processList := rfl

@[simp] theorem setStatus_queue : (s.setStatus p st).queue = s.queue := rfl

@[simp] theorem setStatus_queueTail : (s.setStatus p st).queueTail = s.queueTail := rfl

@[simp] theorem setStatus_currentProcess :
    (s.setStatus p st).currentProcess = s.currentProcess := rfl

@[simp] theorem setQueueNext_nextOf :
    (s.setQueueNext p q).nextOf = Function.update s.nextOf p q := by
  funext r
  rcases eq_or_ne r p with rfl | h
  · simp [nextOf, setQueueNext]
  · simp [nextOf, setQueueNext, h]

@[simp] theorem setStatus_nextOf : (s.setStatus p st).nextOf = s.nextOf := by
  funext r
  rcases eq_or_ne r p with rfl | h
  · simp [nextOf, setStatus]
  · simp [nextOf, setStatus, h]

@[simp] theorem setQueueNext_status :
    ((s.setQueueNext p q).procs r).status = (s.procs r).status := by
  rcases eq_or_ne r p with rfl | h
  · simp [setQueueNext]
  · simp [setQueueNext, h]

@[simp] theorem setQueueNext_pid : ((s.setQueueNext p q).procs r).pid = (s.procs r).pid := by
  rcases eq_or_ne r p with rfl | h
  · simp [setQueueNext]
  · simp [setQueueNext, h]

@[simp] theorem setStatus_pid : ((s.setStatus p st).procs r).pid = (s.procs r).pid := by
  rcases eq_or_ne r p with rfl | h
  · simp [setStatus]
  · simp [setStatus, h]

@[simp] theorem nextOf_mk (procs : Addr → Process) (l : List Addr) (hd tl : Option Addr)
    (cur : Addr) : (ProcTable.mk procs l hd tl cur).nextOf = fun p => (procs p).queueNext := rfl

theorem setStatus_status_self : ((s.setStatus p st).procs p).status = st := by simp [setStatus]

theorem setStatus_status_of_ne {p r : Addr} (h : r ≠ p) :
    ((s.setStatus p st).procs r).status = (s.procs r).status := by simp [setStatus, h]

end Fields

/-! ### `first_free_pid` and `add_process` -/

/-- The loop of `first_free_pid`: walk the list while it counts up. -/
def firstFreePidFrom (procs : Addr → Process) : ℕ → List Addr → ℕ
  | pid, [] => pid
  | pid, current :: rest =>
      if (procs current).pid = pid then firstFreePidFrom procs (pid + 1) rest else pid

/-- `first_free_pid`. -/
def firstFreePid (s : ProcTable) : ℕ := firstFreePidFrom s.procs 0 s.processList

/-- The loop of `add_process` over the nodes after the first. The node is put
*behind* the first one whose pid is greater, and then the whole function returns
(`true`); at the end of the list it is appended (`false`). -/
def insertAfter (procs : Addr → Process) (process : Addr) : List Addr → List Addr × Bool
  | [] => ([process], false)
  | current :: rest =>
      if (procs process).pid < (procs current).pid then (current :: process :: rest, true)
      else
        let r := insertAfter procs process rest
        (current :: r.1, r.2)

/-- `add_process`. -/
def addProcess (s : ProcTable) (process : Addr) : Option ProcTable :=
  match s.processList with
  | [] => some { s with processList := [process] }
  | first :: rest =>
      match insertAfter s.procs process rest with
      | (rest', true) => some { s with processList := first :: rest' }
      | (rest', false) =>
          match s.queue with
          | none =>
              some { s with processList := first :: rest', queue := some process,
                            queueTail := some process }
          | some _ =>
              match s.queueTail with
              | none => none
              | some t =>
                  some { s.setQueueNext t (some process) with
                          processList := first :: rest', queueTail := some process }

/-! ### `schedule`, `process_exit` and the end of `process_wait` -/

/-- The current process goes back to the end of the queue. Note that a queue that
has just become empty is refilled without touching `queue_tail`. -/
def putBack (s : ProcTable) : Option ProcTable :=
  match s.queue with
  | none => some { s with queue := some s.currentProcess }
  | some _ =>
      match s.queueTail with
      | none => none
      | some t =>
          some { s.setQueueNext t (some s.currentProcess) with
                  queueTail := some s.currentProcess }

/-- `current_process = new_process; current_process->queue_next = NULL`. -/
def switchTo (s : ProcTable) (newProcess : Addr) : ProcTable :=
  ({ s with currentProcess := newProcess }).setQueueNext newProcess none

/-- The switch of `schedule`: take the head of the queue, put the current process
back if it can still run, and make the head current. -/
def switch (s : ProcTable) : Option ProcTable :=
  match s.queue with
  | none => some s
  | some newProcess =>
      let taken := { s with queue := s.nextOf newProcess }
      (if s.Runnable s.currentProcess then taken.putBack else some taken).map
        fun s' => s'.switchTo newProcess

/-- The dispatch at the end of `schedule`. `handler` says that `check_signals`
has left for a signal handler of the process instead of returning: then its
status stays what it was. A process that has exited has no signals left, and one
in any other state than the three dispatched panics. -/
def dispatch (s : ProcTable) (handler : Bool) : Option ProcTable :=
  match (s.procs s.currentProcess).status with
  | .exited => none
  | .running => some s
  | .initial | .forked =>
      if handler then some s else some (s.setStatus s.currentProcess .running)
  | .stopped | .waiting => if handler then some s else none

/-- `schedule`. -/
def schedule (s : ProcTable) (handler : Bool) : Option ProcTable :=
  s.switch.bind fun s' => s'.dispatch handler

/-- `process_exit` and `process_exit_abnormal`, as far as the table goes: the
current process is marked and `IRQ0` enters `schedule`. -/
def processExit (s : ProcTable) (handler : Bool) : Option ProcTable :=
  (s.setStatus s.currentProcess .exited).schedule handler

/-- The loop that takes a node off `process_list`; it runs off the end when the
node is not on it. -/
def unlink (target : Addr) : List Addr → Option (List Addr)
  | [] => none
  | p :: rest => if p = target then some rest else (unlink target rest).map (p :: ·)

/-- The end of `process_wait`: the process waited for has exited, leaves the
list and is freed. -/
def reap (s : ProcTable) (target : Addr) : Option ProcTable :=
  if (s.procs target).status = .exited then
    (unlink target s.processList).map fun l => { s with processList := l }
  else none

/-! ### Runs -/

/-- The operations a run of the process table is made of. `add` carries the
record `create_process` has filled in. -/
inductive Act
  | add (process : Addr) (record : Process)
  | schedule (handler : Bool)
  | exit (handler : Bool)
  | reap (target : Addr)
  deriving DecidableEq, Repr

/-- One operation. A new process comes in a block `kmalloc` has just handed out,
so at no address on the list; `create_process` clears `queue_next` and leaves the
status at `TASK_INITIAL`, which `kfork` turns into `TASK_FORKED`. -/
def step (s : ProcTable) : Act → Option ProcTable
  | .add process record =>
      if process ∉ s.processList ∧ record.queueNext = none ∧
          (record.status = .initial ∨ record.status = .forked) then
        ({ s with procs := Function.update s.procs process record }).addProcess process
      else none
  | .schedule handler => s.schedule handler
  | .exit handler => s.processExit handler
  | .reap target => s.reap target

/-- The address of `idle_process`. -/
def idleProcess : Addr := 0

/-- The table `process_init` leaves: the idle process, running, alone on the
list, and an empty queue. -/
def processInit : ProcTable where
  procs := fun _ => ⟨0, .running, none⟩
  processList := [idleProcess]
  queue := none
  queueTail := none
  currentProcess := idleProcess

end ProcTable

end Xana
