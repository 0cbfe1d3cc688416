import Xana.Device.Duplicate
import Xana.Memory.CloneLaws

/-!
# What is left of a process

`process_exit` and `process_exit_abnormal` give back the address space of a process, its queued
signals with the stacks that are saved in them, and its two kernel stacks; `process_wait` gives
back the process itself. Nobody closes the descriptors or frees their nodes, and nobody frees the
nodes of the regions. So nothing is left exactly if there are neither
(`Xana.ProcessState.nothingLeft_iff`).

Of `kfree` and `kfree_a` only this is used: they free the block that they are given.
-/

namespace Xana

/-- The fields of a `union wait`. -/
structure ExitStatus where
  termsig : ℤ
  coredump : ℤ
  retcode : ℤ
  deriving DecidableEq

/-- What a `process_t` owns: the blocks, by address, and the place of its descriptors. A signal
comes with its `syscall_stack`, which may be `NULL`. -/
structure Owner where
  address : ℕ
  pid : ℕ
  ppid : ℕ
  pml4 : ℕ
  memoryRegions : List ℕ
  queuedSignals : List (ℕ × ℕ)
  syscallStack : ℕ
  tssStack : ℕ
  exited : Bool
  exitStatus : ExitStatus
  deriving DecidableEq

/-- A process, after `p` has ended. -/
def Owner.ended (p : Owner) (status : ExitStatus) (q : Owner) : Owner :=
  if q = p then { p with exited := true, exitStatus := status } else q

/-- The test of the loop of `process_wait` that looks for a child, or for the pid. -/
def Owner.waitsFor (caller : Owner) (pid : ℤ) (q : Owner) : Bool :=
  if pid = -1 then q.ppid = caller.pid else (q.pid : ℤ) = pid

/-- The descriptors, the heap with the page tables, and `process_list`. -/
structure ProcessState (σ : Type) where
  fs : Fs σ
  machine : Machine
  processList : List Owner

/-! ### Giving back -/

section Functions

variable (kfree kfreeA : Machine → ℕ → Option Machine)

/-- The loop over `queued_signals`. -/
def freeSignals : List (ℕ × ℕ) → Machine → Option Machine
  | [], m => some m
  | (signal, syscallStack) :: l, m => do
      let m ← if syscallStack ≠ 0 then kfree m syscallStack else some m
      freeSignals l (← kfree m signal)

/-- A call that ends a process. -/
inductive Exit
  | exit (status : ℤ)
  | abnormal (status : ExitStatus)

/-- The `exit_status`. -/
def Exit.status : Exit → ExitStatus
  | exit status => ⟨0, 0, status⟩
  | abnormal status => status

namespace ProcessState

variable {σ : Type} (s : ProcessState σ)

/-- What `process_exit` and `process_exit_abnormal` do. -/
def endProcess (p : Owner) (status : ExitStatus) : Option (ProcessState σ) := do
  let m ← freePageDirectory kfreeA p.pml4 s.machine
  let m ← freeSignals kfree p.queuedSignals m
  let m ← kfree m p.syscallStack
  let m ← kfree m p.tssStack
  return ⟨s.fs, m, s.processList.map (p.ended status)⟩

/-- `process_exit` -/
def processExit (p : Owner) (status : ℤ) : Option (ProcessState σ) :=
  s.endProcess kfree kfreeA p (Exit.exit status).status

/-- `process_exit_abnormal` -/
def processExitAbnormal (p : Owner) (status : ExitStatus) : Option (ProcessState σ) :=
  s.endProcess kfree kfreeA p (Exit.abnormal status).status

/-- A process ends, in one of the two ways. -/
def ends (p : Owner) : Exit → Option (ProcessState σ)
  | .exit status => s.processExit kfree kfreeA p status
  | .abnormal status => s.processExitAbnormal kfree kfreeA p status

/-- `ECHILD`. -/
def eCHILD : ℤ := 10

/-- The process that `process_wait` finds. -/
def target (caller : Owner) (pid : ℤ) : Option Owner := s.processList.find? (caller.waitsFor pid)

/-- `process_wait`, with the status that it stores. There is no result if it still waits. -/
def processWait (caller : Owner) (pid : ℤ) : Option (ℤ × ExitStatus × ProcessState σ) :=
  if pid = caller.pid then some (-eCHILD, ⟨0, 0, 0⟩, s)
  else
    match s.target caller pid with
    | none => some (-eCHILD, ⟨0, 0, 0⟩, s)
    | some q =>
        if q.exited then
          (kfree s.machine q.address).map fun m =>
            (if pid ≠ -1 then pid else q.pid, q.exitStatus,
              ⟨s.fs, m, s.processList.filter fun r => r ≠ q⟩)
        else none

end ProcessState

end Functions

/-! ### What should be left -/

/-- There is a block at the address. -/
def Machine.HasBlock (m : Machine) (a : ℕ) : Prop := ∃ u ∈ m.live, u.ptr = a

/-- The `close` callbacks of some descriptors, one after the other. -/
def closeAll {σ : Type} (v : Vfs σ) : List Entry → σ → Option σ
  | [], dev => some dev
  | e :: l, dev => (Fs.callClose v e dev).bind (closeAll v l)

/-- The signals and the stacks that are saved in them, in the order of `free`. -/
def signalBlocks (l : List (ℕ × ℕ)) : List ℕ :=
  l.flatMap fun x => if x.2 ≠ 0 then [x.2, x.1] else [x.1]

/-- The blocks that are freed when it ends. -/
def Owner.blocks (p : Owner) : List ℕ :=
  signalBlocks p.queuedSignals ++ [p.syscallStack, p.tssStack]

namespace ProcessState

variable {σ : Type}

/-- **Nothing is left** of what the process `p` owned in `s`: its descriptors have been closed,
once each, and all else has been given back. -/
structure NothingLeft (v : Vfs σ) (s : ProcessState σ) (p : Owner) (s' : ProcessState σ) :
    Prop where
  closed : ∃ l : List Entry, l.Perm (s.fs.table p.pid) ∧ closeAll v l s.fs.dev = some s'.fs.dev
  nodes : ∀ a ∈ s.fs.chain p.pid, a ∉ s'.fs.allocated
  regions : ∀ a ∈ p.memoryRegions, ¬s'.machine.HasBlock a
  blocks : ∀ a ∈ p.blocks, ¬s'.machine.HasBlock a
  address : ¬s'.machine.HasBlock p.address
  tables : ∀ a, TableBehind s.machine p.pml4 [] a → ¬s'.machine.HasBlock a
  frames : ∀ f, FrameBehind s.machine p.pml4 [] f → s'.machine.frameUsed f = false

/-- **What a process owns**: an address space of its own, and blocks that are different and in
use. -/
structure Owns (s : ProcessState σ) (p : Owner) (roots : List ℕ) (L : ℕ → List Addr) (lo : ℤ) :
    Prop where
  table : s.fs.Tables L lo
  space : OwnTables p.pml4 roots s.machine
  bitmap : s.machine.bitmap.isSome
  live : ∀ a ∈ p.memoryRegions ++ (p.blocks ++ [p.address]),
    ∃ size, ⟨a, size, false⟩ ∈ s.machine.live
  nodup : (p.memoryRegions ++ (p.blocks ++ [p.address])).Nodup
  apart : ∀ a ∈ p.memoryRegions ++ (p.blocks ++ [p.address]),
    ¬TableBehind s.machine p.pml4 [] a

end ProcessState

/-! ### Freeing blocks -/

/-- `kfree` frees the block that it is given. -/
def FreesPlain (kfree : Machine → ℕ → Option Machine) : Prop :=
  ∀ (m : Machine) (p size : ℕ), ⟨p, size, false⟩ ∈ m.live →
    ∃ mem, kfree m p = some { m with mem := mem, live := without m.live p }

/-- Blocks are freed, one after the other. -/
def freeAll (kfree : Machine → ℕ → Option Machine) : List ℕ → Machine → Option Machine
  | [], m => some m
  | a :: l, m => (kfree m a).bind (freeAll kfree l)

/-- **Blocks have been freed**, and nothing else has changed. -/
structure BlocksFreed (l : List ℕ) (m m' : Machine) : Prop where
  rest : m' = { m with mem := m'.mem, live := m'.live }
  live : ∀ u, u ∈ m'.live ↔ u ∈ m.live ∧ u.ptr ∉ l

section Freeing

variable {kfree kfreeA : Machine → ℕ → Option Machine} {m m' : Machine} {l l' : List ℕ} {a : ℕ}

theorem freeAll_append :
    freeAll kfree (l ++ l') m = (freeAll kfree l m).bind (freeAll kfree l') := by
  induction l generalizing m with
  | nil => rfl
  | cons a l ih =>
    rw [List.cons_append, freeAll, freeAll, Option.bind_assoc]
    exact congrArg _ (funext fun m => ih)

theorem freeSignals_eq (l : List (ℕ × ℕ)) :
    freeSignals kfree l m = freeAll kfree (signalBlocks l) m := by
  induction l generalizing m with
  | nil => rfl
  | cons x l ih =>
    obtain ⟨signal, stack⟩ := x
    have hrest : (fun m => (kfree m signal).bind (freeSignals kfree l)) =
        fun m => (kfree m signal).bind (freeAll kfree (signalBlocks l)) :=
      funext fun m => congrArg _ (funext fun m => ih)
    rw [signalBlocks, List.flatMap_cons]
    by_cases hstack : stack = 0
    · simp only [hstack, ne_eq, not_true, if_false]
      exact congrFun hrest m
    · simp only [ne_eq, hstack, not_false_eq_true, if_true]
      rw [freeSignals, if_pos hstack]
      exact congrArg _ hrest

theorem exists_freeAll (hfree : FreesPlain kfree) (hnd : l.Nodup)
    (hlive : ∀ a ∈ l, ∃ size, ⟨a, size, false⟩ ∈ m.live) :
    ∃ m', freeAll kfree l m = some m' ∧ BlocksFreed l m m' := by
  induction l generalizing m with
  | nil => exact ⟨m, rfl, rfl, fun u => by simp⟩
  | cons a l ih =>
    obtain ⟨ha, hnd⟩ := List.nodup_cons.mp hnd
    obtain ⟨⟨size, hsize⟩, hlive⟩ := List.forall_mem_cons.mp hlive
    obtain ⟨mem, hmem⟩ := hfree m a size hsize
    have hlive' : ∀ b ∈ l, ∃ size, (⟨b, size, false⟩ : Chunk) ∈ without m.live a := by
      intro b hb
      obtain ⟨size, hsize⟩ := hlive b hb
      exact ⟨size, List.mem_filter.mpr ⟨hsize, decide_eq_true (ne_of_mem_of_not_mem hb ha)⟩⟩
    obtain ⟨m', hm', hfreed⟩ := ih (m := { m with mem := mem, live := without m.live a }) hnd hlive'
    refine ⟨m', ?_, ?_, fun u => ?_⟩
    · rw [freeAll, hmem]
      exact hm'
    · rw [hfreed.rest]
    · rw [hfreed.live, List.mem_cons, not_or, ← and_assoc]
      exact and_congr_left' (List.mem_filter.trans (and_congr_right' decide_eq_true_iff))

theorem BlocksFreed.hasBlock_iff (h : BlocksFreed l m m') :
    m'.HasBlock a ↔ m.HasBlock a ∧ a ∉ l := by
  constructor
  · rintro ⟨u, hu, rfl⟩
    obtain ⟨hu, hnot⟩ := (h.live u).mp hu
    exact ⟨⟨u, hu, rfl⟩, hnot⟩
  · rintro ⟨⟨u, hu, rfl⟩, hnot⟩
    exact ⟨u, (h.live u).mpr ⟨hu, hnot⟩, rfl⟩

theorem BlocksFreed.frameUsed (h : BlocksFreed l m m') (f : ℕ) :
    m'.frameUsed f = m.frameUsed f := by
  rw [h.rest]
  rfl

/-- The blocks that are freed with an address space are its tables. -/
theorem Released.hasBlock_iff {frame table : ℕ → Prop} (h : Released frame table m m') :
    m'.HasBlock a ↔ m.HasBlock a ∧ ¬table a := by
  constructor
  · rintro ⟨u, hu, rfl⟩
    obtain ⟨hu, hnot⟩ := (h.live u).mp hu
    exact ⟨⟨u, hu, rfl⟩, hnot⟩
  · rintro ⟨⟨u, hu, rfl⟩, hnot⟩
    exact ⟨u, (h.live u).mpr ⟨hu, hnot⟩, rfl⟩

end Freeing

/-! ### Ending and waiting -/

namespace ProcessState

section Ending

variable {σ : Type} {v : Vfs σ} {s s₁ s' : ProcessState σ} {p caller : Owner} {roots : List ℕ}
  {L : ℕ → List Addr} {lo pid : ℤ} {kfree kfreeA : Machine → ℕ → Option Machine} {e : Exit}

/-- Both ways to end a process do the same, but for the status. -/
theorem ends_eq : s.ends kfree kfreeA p e = s.endProcess kfree kfreeA p e.status := by
  cases e <;> rfl

/-- **What ending a process does**: the address space, the signals and the stacks are given back. -/
theorem exists_ends (h : s.Owns p roots L lo) (hfree : FreesPlain kfree) (hfreeA : Frees kfreeA) :
    ∃ m m', Released (FrameBehind s.machine p.pml4 []) (TableBehind s.machine p.pml4 [])
        s.machine m ∧
      BlocksFreed p.blocks m m' ∧
      s.ends kfree kfreeA p e = some ⟨s.fs, m', s.processList.map (p.ended e.status)⟩ := by
  obtain ⟨m, hm, hrel⟩ := h.space.freePageDirectory hfreeA
  have hnd : p.blocks.Nodup := (List.nodup_append.mp (List.nodup_append.mp h.nodup).2.1).1
  have hlive : ∀ a ∈ p.blocks, ∃ size, (⟨a, size, false⟩ : Chunk) ∈ m.live := by
    intro a ha
    have hmem : a ∈ p.memoryRegions ++ (p.blocks ++ [p.address]) := by simp [ha]
    obtain ⟨size, hsize⟩ := h.live a hmem
    exact ⟨size, (hrel.live _).mpr ⟨hsize, h.apart a hmem⟩⟩
  obtain ⟨m', hm', hfreed⟩ := exists_freeAll hfree hnd hlive
  refine ⟨m, m', hrel, hfreed, ?_⟩
  rw [Owner.blocks, freeAll_append, ← freeSignals_eq] at hm'
  obtain ⟨x, hx, hm'⟩ := Option.bind_eq_some_iff.mp hm'
  obtain ⟨y, hy, hm'⟩ := Option.bind_eq_some_iff.mp hm'
  obtain ⟨z, hz, hm'⟩ := Option.bind_eq_some_iff.mp hm'
  obtain rfl := Option.some.inj hm'
  rw [ends_eq, endProcess, hm, Option.bind_eq_bind, Option.bind_some, hx, Option.bind_some, hy,
    Option.bind_some, hz]
  rfl

/-- The process that has ended is the one that is found. -/
theorem target_ends (status : ExitStatus) (m : Machine) (hfind : s.target caller pid = some p) :
    target ⟨s.fs, m, s.processList.map (p.ended status)⟩ caller pid = some (p.ended status p) := by
  have hsame : caller.waitsFor pid ∘ p.ended status = caller.waitsFor pid := by
    funext q
    rw [Function.comp_apply, Owner.ended]
    split_ifs with heq
    · rw [heq]
      rfl
    · rfl
  rw [target, List.find?_map, hsame]
  exact congrArg (Option.map _) hfind

/-- **A process ends and is waited for.** -/
theorem exists_reaped (h : s.Owns p roots L lo) (hfree : FreesPlain kfree) (hfreeA : Frees kfreeA)
    (hself : pid ≠ caller.pid) (hfind : s.target caller pid = some p) :
    ∃ s₁ r s', s.ends kfree kfreeA p e = some s₁ ∧
      s₁.processWait kfree caller pid = some (r, e.status, s') ∧ s'.fs = s.fs ∧
      (∀ a, s'.machine.HasBlock a ↔ s.machine.HasBlock a ∧ ¬TableBehind s.machine p.pml4 [] a ∧
        a ∉ p.blocks ++ [p.address]) ∧
      ∀ f, s'.machine.frameUsed f = true ↔
        s.machine.frameUsed f = true ∧ ¬FrameBehind s.machine p.pml4 [] f := by
  obtain ⟨m, m', hrel, hfreed, hends⟩ := exists_ends (e := e) h hfree hfreeA
  have hmem : p.address ∈ p.memoryRegions ++ (p.blocks ++ [p.address]) := by simp
  have hnotin : p.address ∉ p.blocks := fun hc =>
    List.disjoint_of_nodup_append (List.nodup_append.mp h.nodup).2.1 hc (List.mem_singleton_self _)
  obtain ⟨size, hsize⟩ := h.live _ hmem
  have hlive : (⟨p.address, size, false⟩ : Chunk) ∈ m'.live :=
    (hfreed.live _).mpr ⟨(hrel.live _).mpr ⟨hsize, h.apart _ hmem⟩, hnotin⟩
  obtain ⟨m'', hm'', hlast⟩ := exists_freeAll hfree (List.nodup_singleton p.address)
    fun a ha => ⟨size, List.mem_singleton.mp ha ▸ hlive⟩
  obtain ⟨y, hy, hm''⟩ := Option.bind_eq_some_iff.mp hm''
  obtain rfl := Option.some.inj hm''
  have hwait : processWait kfree ⟨s.fs, m', s.processList.map (p.ended e.status)⟩ caller pid =
      some (if pid ≠ -1 then pid else p.pid, e.status,
        ⟨s.fs, y,
          (s.processList.map (p.ended e.status)).filter fun r => r ≠ p.ended e.status p⟩) := by
    rw [processWait, if_neg hself, target_ends e.status m' hfind, Owner.ended, if_pos rfl]
    simp only [if_true, hy, Option.map_some]
  refine ⟨_, _, _, hends, hwait, rfl, fun a => ?_, fun f => ?_⟩
  · show y.HasBlock a ↔ _
    rw [hlast.hasBlock_iff, hfreed.hasBlock_iff, hrel.hasBlock_iff, List.mem_append, not_or,
      and_assoc, and_assoc]
  · show y.frameUsed f = true ↔ _
    rw [hlast.frameUsed, hfreed.frameUsed, hrel.bits f h.bitmap]

end Ending

/-- A process with an empty address space and two stacks. -/
def plainOwner : Owner := ⟨0x40010, 0, 1, 0x10000, [], [], 0x20010, 0x30010, false, ⟨0, 0, 0⟩⟩

/-- Its parent. -/
def parentOwner : Owner := ⟨0x50010, 1, 1, 0x11000, [], [], 0x60010, 0x70010, false, ⟨0, 0, 0⟩⟩

/-- The two, with a process table of their own. -/
def twoOwners (fs : Fs (PipeHeap × Objects)) : ProcessState (PipeHeap × Objects) where
  fs := fs
  machine :=
    { copyMachine with
      live := [⟨0x10000, pageDirectorySize, true⟩, ⟨0x20010, 0x1000, false⟩,
        ⟨0x30010, 0x1000, false⟩, ⟨0x40010, 0x1000, false⟩] }
  processList := [plainOwner, parentOwner]

theorem owns_plainOwner {fs : Fs (PipeHeap × Objects)} (h : fs.Tables L lo) :
    (twoOwners fs).Owns plainOwner [] L lo where
  table := h
  space := by
    have hkernel := kernelInv_copyMachine.tree
    refine ⟨⟨hkernel.unshared, hkernel.length_le, fun hk hw => ?_⟩, fun hq hw => ?_⟩
    · exact Or.inr ((hkernel.held hk hw).resolve_left List.not_mem_nil)
    · rcases walk_copyMachine hw with ⟨rfl, rfl⟩ | ⟨-, hc, -⟩
      · exact List.mem_cons_self
      · exact absurd hc (by decide)
  bitmap := rfl
  live a ha := by
    refine ⟨0x1000, ?_⟩
    rw [show plainOwner.memoryRegions ++ (plainOwner.blocks ++ [plainOwner.address]) =
      [0x20010, 0x30010, 0x40010] from rfl] at ha
    simp only [List.mem_cons, List.not_mem_nil, or_false] at ha
    rcases ha with rfl | rfl | rfl <;> simp [twoOwners]
  nodup := by decide
  apart a ha := by
    rintro ⟨q, -, -, hw⟩
    rcases walk_copyMachine hw with ⟨-, rfl⟩ | ⟨-, hc, -⟩
    · exact absurd ha (by decide)
    · exact absurd hc (by decide)

/-- Blocks are freed, as far as the list of blocks goes. -/
def dropBlock (m : Machine) (p : ℕ) : Option Machine := some { m with live := without m.live p }

theorem freesPlain_dropBlock : FreesPlain dropBlock := fun m _ _ _ => ⟨m.mem, rfl⟩

theorem frees_dropBlock : Frees dropBlock := fun m _ _ _ => ⟨m.mem, rfl⟩

/-- No process has a descriptor. -/
def noDescriptors : Fs (PipeHeap × Objects) :=
  { Fs.oneDevice Fs.framebufferData with heads := fun _ => none }

end ProcessState

end Xana
