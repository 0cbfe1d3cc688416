import Xana.Lib.Runs
import Xana.Process.Kernel
import Xana.Interrupt.Stub

/-!
# Many programs on one processor

What `irq_handler`, `schedule`, `syscall_handler` and the stubs do to the registers, for any
number of processes. Where a process is not running, its registers lie in a frame on a kernel
stack of its own, or in the `syscall_registers` of its process. `Xana.Programs` is what this
is for: each process has registers of its own, which nobody else touches.

It is not so for the registers of `xmm_regs`. `irq_handler` copies them to the process when it
is interrupted, but does not copy them back after a tick: `schedule` returns into another
call of it, which leaves at once. So a tick leaves them as they are, and the next process goes
on with those of the one before (`Xana.Programs.enter`).

The C code in between may write what it likes, except on what other processes keep
(`Xana.Switching.Spares`).
-/

namespace Xana

/-! ### The kernel -/

/-- Where a process is. `image` is history: the memory when the process was left. -/
inductive Place
  | running
  | suspended (frame : ℕ) (image : Mem)
  | initial (entry rsp : BitVec 64)
  | forked

/-- What the kernel keeps for a process. `stack` is the one its code in the kernel runs on,
`regs` the address of its `syscall_registers`. -/
structure Home where
  (tssStack stack stackSize regs : ℕ)
  syscallXmm : XmmRegs
  syscallRsp : BitVec 64
  place : Place

/-- The processor and the kernel. -/
structure Switching where
  cpu : Cpu
  xmm : XmmRegs
  mem : Mem
  xmmRegs : XmmRegs
  rsp0 : ℕ
  current : Addr
  homes : Addr → Option Home

/-- What happens, with what the model leaves open: the registers and the memory that code has
left, and the registers with which `schedule` comes to `jump_to_usermode`. -/
inductive SwitchAct
  | run (cpu : Cpu) (xmm : XmmRegs) (mem : Mem)
  | irq (n : BitVec 64) (mem : Mem)
  | tick (next : Addr) (mem : Mem) (kernel : Cpu) (kernelXmm : XmmRegs)
  | syscall (flags : BitVec 64) (cpu : Cpu) (xmm : XmmRegs) (mem : Mem)
  | sysret (value : BitVec 64)
  | create (child : Addr) (home : Home) (entry rsp : BitVec 64)
  | fork (child : Addr) (home : Home)
  | exit (next : Addr) (mem : Mem) (kernel : Cpu) (kernelXmm : XmmRegs)

namespace Switching

variable (s : Switching)

def setHome (p : Addr) (t : Home) : Switching :=
  { s with homes := Function.update s.homes p (some t) }

/-- The switch of `schedule` to a process of the queue. -/
def switchTo (next : Addr) : Option Switching := do
  let t ← s.homes next
  some { s with current := next, rsp0 := t.tssStack + syscallStackSize }

/-- The end of `schedule`, and the way from there to where the process goes on. -/
def resume (kernel : Cpu) (kernelXmm : XmmRegs) : Option Switching := do
  let t ← s.homes s.current
  let s := s.setHome s.current { t with place := .running }
  match t.place with
  | .running => none
  -- back through `irq_handler` to the stub: `fxrstor`, `popa64`, `iretq`
  | .suspended frame _ => some { s with cpu := irqReturn s.mem frame, xmm := s.xmmRegs }
  | .initial entry rsp =>
      some { s with cpu := jumpToUsermode kernel entry rsp, xmm := kernelXmm }
  | .forked =>
      let mem := setRax s.mem t.regs 0
      some { s with
        mem := mem
        xmmRegs := t.syscallXmm
        xmm := t.syscallXmm
        cpu := afterSyscall mem t.regs t.syscallRsp }

/-- One step. `top` is `syscall_stack_top`. -/
def step (top : ℕ) : SwitchAct → Option Switching
  | .run cpu xmm mem => some { s with cpu := cpu, xmm := xmm, mem := mem }
  | .irq n mem =>
      let entry := s.cpu.irqEntry s.mem n s.rsp0
      -- `interrupt_registers` is copied from the frame, and back after the handler
      let mem' := mem.write entry.1 (entry.2.read entry.1 regsSize)
      some { s with mem := mem', xmmRegs := s.xmm, cpu := irqReturn mem' entry.1 }
  | .tick next mem kernel kernelXmm => do
      let t ← s.homes s.current
      let frame := (s.cpu.irqEntry s.mem 0 s.rsp0).1
      let left := s.setHome s.current { t with place := .suspended frame mem }
      let s' ← { left with mem := mem, xmmRegs := s.xmm }.switchTo next
      s'.resume kernel kernelXmm
  | .syscall flags cpu xmm mem => do
      let t ← s.homes s.current
      let entry := (s.cpu.syscallPushes flags).foldl Mem.push (top, s.mem)
      let left := s.setHome s.current
        { t with syscallXmm := s.xmm, syscallRsp := entry.2.word (entry.1 + 160) }
      some { left with cpu := cpu, xmm := xmm, mem := mem, xmmRegs := s.xmm }
  | .sysret value => do
      let t ← s.homes s.current
      let mem := setRax s.mem t.regs value
      some { s with
        mem := mem
        xmmRegs := t.syscallXmm
        xmm := t.syscallXmm
        cpu := afterSyscall mem t.regs t.syscallRsp }
  | .create child t entry rsp => some (s.setHome child { t with place := .initial entry rsp })
  | .fork child t => do
      let parent ← s.homes s.current
      let s' := s.setHome child { t with
        syscallXmm := parent.syscallXmm
        syscallRsp := parent.syscallRsp
        place := .forked }
      some { s' with mem := s.mem.write t.regs (s.mem.read parent.regs regsSize) }
  | .exit next mem kernel kernelXmm => do
      let left := { s with homes := Function.update s.homes s.current none }
      let s' ← { left with mem := mem, xmmRegs := s.xmm }.switchTo next
      s'.resume kernel kernelXmm

end Switching

/-! ### The programs -/

/-- How a program begins. -/
inductive Start
  | going
  | initial (entry rsp : BitVec 64)
  | forked

/-- **What the kernel is for**: every program has registers of its own. `call` is what it had
at the system call it is in. -/
structure Programs where
  current : Addr
  xmm : XmmRegs
  cpu : Addr → Cpu
  call : Addr → Option (Cpu × XmmRegs)
  start : Addr → Start

namespace Programs

variable (p : Programs)

/-- A system call returns. -/
def ret (value : BitVec 64) : Programs :=
  match p.call p.current with
  | none => p
  | some (c, x) => { p with
      cpu := Function.update p.cpu p.current (c.sysret value)
      xmm := x
      call := Function.update p.call p.current none }

/-- Another program goes on. Its registers are as it left them; those for floating point are as
the last one left them. -/
def enter (next : Addr) (kernel : Cpu) (kernelXmm : XmmRegs) : Programs :=
  let p' := { p with current := next, start := Function.update p.start next .going }
  match p.start next with
  | .going => p'
  | .initial entry rsp =>
      { p' with
        cpu := Function.update p.cpu next (jumpToUsermode kernel entry rsp)
        xmm := kernelXmm }
  | .forked => p'.ret 0

def step : SwitchAct → Programs
  | .run cpu xmm _ => { p with cpu := Function.update p.cpu p.current cpu, xmm := xmm }
  | .irq _ _ => p
  | .tick next _ kernel kernelXmm => p.enter next kernel kernelXmm
  | .syscall _ cpu xmm _ => { p with
      cpu := Function.update p.cpu p.current cpu
      xmm := xmm
      call := Function.update p.call p.current (some (p.cpu p.current, p.xmm)) }
  | .sysret value => p.ret value
  | .create child _ entry rsp => { p with
      call := Function.update p.call child none
      start := Function.update p.start child (.initial entry rsp) }
  | .fork child _ => { p with
      call := Function.update p.call child (p.call p.current)
      start := Function.update p.start child .forked }
  | .exit next _ kernel kernelXmm => p.enter next kernel kernelXmm

end Programs

/-! ### What the code in between may write -/

namespace Home

/-- The memory in which the kernel keeps what a process needs to go on. -/
def Owns (t : Home) (a : ℕ) : Prop :=
  t.tssStack ≤ a ∧ a < t.tssStack + syscallStackSize ∨
    t.stack ≤ a ∧ a < t.stack + t.stackSize ∨ t.regs ≤ a ∧ a < t.regs + regsSize

/-- The stack of the code in the kernel. -/
def OnStack (t : Home) (a : ℕ) : Prop := t.stack ≤ a ∧ a < t.stack + t.stackSize

/-- The rest of the stack a frame is on. -/
def Below (t : Home) (frame a : ℕ) : Prop :=
  a < frame ∧ (t.tssStack ≤ a ∧ frame < t.tssStack + syscallStackSize ∨
    t.stack ≤ a ∧ frame < t.stack + t.stackSize)

/-- A frame is on one of the stacks. -/
def Holds (t : Home) (frame : ℕ) : Prop :=
  t.tssStack ≤ frame ∧ frame + regsSize ≤ t.tssStack + syscallStackSize ∨
    t.stack ≤ frame ∧ frame + regsSize ≤ t.stack + t.stackSize

/-- What the kernel keeps for a process is in different places. -/
structure Apart (t : Home) : Prop where
  tss_stack : t.tssStack + syscallStackSize ≤ t.stack ∨ t.stack + t.stackSize ≤ t.tssStack
  regs_tss : t.regs + regsSize ≤ t.tssStack ∨ t.tssStack + syscallStackSize ≤ t.regs
  regs_stack : t.regs + regsSize ≤ t.stack ∨ t.stack + t.stackSize ≤ t.regs

end Home

namespace Switching

variable (s : Switching)

/-- **Nothing is written that a process keeps**, but for what is `free` of the current one. -/
def Spares (free : Home → ℕ → Prop) (m m' : Mem) : Prop :=
  ∀ q t, s.homes q = some t → ∀ a, t.Owns a → m' a = m a ∨ q = s.current ∧ free t a

/-- Code in the kernel has room on its stack for an interrupt. -/
def Room : Prop :=
  s.cpu.InKernel → ∀ t, s.homes s.current = some t →
    t.stack + regsSize + 16 ≤ s.cpu.rsp.toNat ∧ s.cpu.rsp.toNat ≤ t.stack + t.stackSize

/-- A new process has blocks of its own: no other process has them, nor are they the stack of
`syscall_handler_asm`. -/
structure New (top : ℕ) (child : Addr) (t : Home) : Prop where
  unused : s.homes child = none
  apart : t.Apart
  top : ∀ a, t.Owns a → a < top - regsSize ∨ top ≤ a
  others : ∀ q u, s.homes q = some u → ∀ a, u.Owns a → ¬t.Owns a

end Switching

/-- The kernel, and the programs as they should see themselves. -/
structure SwitchRun where
  kernel : Switching
  programs : Programs

namespace SwitchRun

variable (top : ℕ)

/-- **What is left to the code in between**, and to the processor: user code stays in user mode
and off the memory of the kernel, code in the kernel stays on its stack, a handler below its
frame. -/
def Ok (r : SwitchRun) : SwitchAct → Prop
  | .run cpu _ mem => cpu.cs = r.kernel.cpu.cs ∧ (¬cpu.InKernel → mem = r.kernel.mem) ∧
      r.kernel.Spares Home.OnStack r.kernel.mem mem
  | .irq n mem =>
      let entry := r.kernel.cpu.irqEntry r.kernel.mem n r.kernel.rsp0
      n ≠ 0 ∧ r.kernel.Room ∧ r.kernel.Spares (Home.Below · entry.1) entry.2 mem
  | .tick _ mem _ _ =>
      let entry := r.kernel.cpu.irqEntry r.kernel.mem 0 r.kernel.rsp0
      r.kernel.Room ∧ r.kernel.Spares (Home.Below · entry.1) entry.2 mem
  | .syscall flags cpu _ mem =>
      let entry := (r.kernel.cpu.syscallPushes flags).foldl Mem.push (top, r.kernel.mem)
      ¬r.kernel.cpu.InKernel ∧ cpu.InKernel ∧ ∀ t, r.kernel.homes r.kernel.current = some t →
        r.kernel.Spares Home.OnStack
          (entry.2.write t.regs (entry.2.read entry.1 regsSize)) mem
  | .sysret _ => r.kernel.cpu.InKernel ∧ (r.programs.call r.programs.current).isSome
  | .create child t _ _ => r.kernel.New top child t
  | .fork child t =>
      r.kernel.cpu.InKernel ∧ (r.programs.call r.programs.current).isSome ∧
        r.kernel.New top child t
  | .exit _ mem _ _ => r.kernel.cpu.InKernel ∧ r.kernel.Spares Home.Owns r.kernel.mem mem

def Steps (r : SwitchRun) (a : SwitchAct) (r' : SwitchRun) : Prop :=
  r.kernel.step top a = some r'.kernel ∧ r'.programs = r.programs.step a

/-- The start: one process, in the kernel. -/
def Init (r : SwitchRun) : Prop :=
  ∃ t : Home, r.kernel.homes = Function.update (fun _ => none) r.kernel.current (some t) ∧
    t.place = .running ∧ t.Apart ∧ (∀ a, t.Owns a → a < top - regsSize ∨ top ≤ a) ∧
    r.kernel.rsp0 = t.tssStack + syscallStackSize ∧
    r.programs = ⟨r.kernel.current, r.kernel.xmm, fun _ => r.kernel.cpu, fun _ => none,
      fun _ => .going⟩

/-- The runs. -/
abbrev Run (r : SwitchRun) : Prop := Reach (Steps top) (Ok top) (Init top) r

end SwitchRun

/-! ### What is kept for a process -/

namespace Home

/-- Where a process that does not run goes on. -/
def Saved (t : Home) (p : Programs) (q : Addr) (m : Mem) : Prop :=
  match t.place with
  | .running => False
  | .suspended frame image => t.Holds frame ∧ m.words frame 22 = (p.cpu q).irqRegs 0 ∧
      (∀ a, t.Owns a → m a = image a) ∧ p.start q = .going
  | .initial entry rsp => p.start q = .initial entry rsp
  | .forked => p.start q = .forked ∧ (p.call q).isSome

/-- What a process had when it called. -/
def Called (t : Home) (p : Programs) (q : Addr) (m : Mem) : Prop :=
  ∀ c x, p.call q = some (c, x) → m.words t.regs 15 = popa64.map c.called ∧
    t.syscallRsp = c.rsp ∧ t.syscallXmm = x

variable {t : Home} {p p' : Programs} {q : Addr} {m m' : Mem} {frame a : ℕ}

theorem Holds.owns (h : t.Holds frame) {i : ℕ} (hi : i < regsSize) : t.Owns (frame + i) := by
  rcases h with h | h
  · exact Or.inl (by omega)
  · exact Or.inr (Or.inl (by omega))

theorem owns_regs {i : ℕ} (hi : i < regsSize) : t.Owns (t.regs + i) :=
  Or.inr (Or.inr (by omega))

/-- What is kept is kept as long as nobody writes there. -/
theorem Saved.congr (h : t.Saved p q m) (hm : ∀ a, t.Owns a → m' a = m a)
    (hcpu : p'.cpu q = p.cpu q) (hcall : p'.call q = p.call q) (hstart : p'.start q = p.start q) :
    t.Saved p' q m' := by
  rw [Saved] at h ⊢
  rw [hcpu, hcall, hstart]
  split at h
  · exact h
  · obtain ⟨hholds, hframe, himage, hgoing⟩ := h
    refine ⟨hholds, ?_, fun a ha => (hm a ha).trans (himage a ha), hgoing⟩
    exact (Mem.words_congr fun i hi => hm _ (hholds.owns hi)).trans hframe
  · exact h
  · exact h

theorem Called.congr (h : t.Called p q m) (hm : ∀ i < regsSize, m' (t.regs + i) = m (t.regs + i))
    (hcall : p'.call q = p.call q) : t.Called p' q m' := by
  intro c x hc
  obtain ⟨hwords, hrest⟩ := h c x (hcall ▸ hc)
  refine ⟨(Mem.words_congr fun i hi => hm i ?_).trans hwords, hrest⟩
  rw [regsSize]
  omega

/-- **A call returns** with the registers it was made with. -/
theorem Called.ret (h : t.Called p q m) {c : Cpu} {x : XmmRegs} (hc : p.call q = some (c, x))
    (value : BitVec 64) : afterSyscall (setRax m t.regs value) t.regs t.syscallRsp =
      c.sysret value ∧ t.syscallXmm = x := by
  obtain ⟨hwords, hrsp, hxmm⟩ := h c x hc
  rw [hrsp]
  exact ⟨afterSyscall_eq (words_setRax hwords), hxmm⟩

theorem setRax_of_not_owns {value : BitVec 64} (ha : ¬t.Owns a) :
    setRax m t.regs value a = m a := by
  refine Mem.store_of_notMem ?_
  by_contra hcon
  refine ha (Or.inr (Or.inr ?_))
  rw [regsSize]
  omega

end Home

/-! ### The invariant -/

/-- The processes keep their things in different places. -/
structure Homes (top : ℕ) (homes : Addr → Option Home) : Prop where
  apart : ∀ q t, homes q = some t → t.Apart
  top : ∀ q t, homes q = some t → ∀ a, t.Owns a → a < top - regsSize ∨ top ≤ a
  others : ∀ q q' t t', q ≠ q' → homes q = some t → homes q' = some t' →
    ∀ a, t.Owns a → ¬t'.Owns a

/-- **Nobody runs**: `schedule` has left the one and has not come to the other. -/
structure Parked (top : ℕ) (s : Switching) (p : Programs) : Prop where
  homes : Homes top s.homes
  xmm : s.xmmRegs = p.xmm
  saved : ∀ q t, s.homes q = some t → t.Saved p q s.mem
  called : ∀ q t, s.homes q = some t → t.Called p q s.mem

/-- **The invariant.** -/
structure SwitchInv (top : ℕ) (s : Switching) (p : Programs) : Prop where
  homes : Homes top s.homes
  xmm : s.xmm = p.xmm
  current : p.current = s.current
  cpu : s.cpu = p.cpu s.current
  going : p.start s.current = .going
  running : ∃ t, s.homes s.current = some t ∧ t.place = .running ∧
    s.rsp0 = t.tssStack + syscallStackSize
  saved : ∀ q t, q ≠ s.current → s.homes q = some t → t.Saved p q s.mem
  called : ∀ q t, s.homes q = some t → t.Called p q s.mem

section Invariant

variable {top : ℕ} {homes : Addr → Option Home} {t u : Home} {q next : Addr}
variable {s s' : Switching} {p p' : Programs}

/-- A process in a place of its own. -/
theorem Homes.update (h : Homes top homes) (happ : t.Apart)
    (htop : ∀ a, t.Owns a → a < top - regsSize ∨ top ≤ a)
    (hothers : ∀ q' u, q' ≠ q → homes q' = some u → ∀ a, u.Owns a → ¬t.Owns a) :
    Homes top (Function.update homes q (some t)) := by
  have hcases : ∀ q' u, Function.update homes q (some t) q' = some u →
      q' = q ∧ u = t ∨ q' ≠ q ∧ homes q' = some u := by
    intro q' u hu
    rcases eq_or_ne q' q with rfl | hne
    · rw [Function.update_self] at hu
      exact Or.inl ⟨rfl, (Option.some.inj hu).symm⟩
    · rw [Function.update_of_ne hne] at hu
      exact Or.inr ⟨hne, hu⟩
  refine ⟨fun q' u hu => ?_, fun q' u hu => ?_, fun q₁ q₂ u v hne hu hv => ?_⟩
  · obtain ⟨-, rfl⟩ | ⟨-, hu⟩ := hcases q' u hu
    · exact happ
    · exact h.apart q' u hu
  · obtain ⟨-, rfl⟩ | ⟨-, hu⟩ := hcases q' u hu
    · exact htop
    · exact h.top q' u hu
  · obtain ⟨rfl, rfl⟩ | ⟨hq₁, hu'⟩ := hcases q₁ u hu
    · obtain ⟨rfl, rfl⟩ | ⟨hq₂, hv'⟩ := hcases q₂ v hv
      · exact absurd rfl hne
      · exact fun a ha hav => hothers q₂ v hq₂ hv' a hav ha
    · obtain ⟨rfl, rfl⟩ | ⟨-, hv'⟩ := hcases q₂ v hv
      · exact hothers q₁ u hq₁ hu'
      · exact h.others q₁ q₂ u v hne hu' hv'

/-- The places do not depend on what is there. -/
theorem Homes.set (h : Homes top homes) (ht : homes q = some t) (x : XmmRegs) (rsp : BitVec 64)
    (place : Place) : Homes top (Function.update homes q
      (some { t with syscallXmm := x, syscallRsp := rsp, place := place })) :=
  have happ := h.apart q t ht
  h.update ⟨happ.tss_stack, happ.regs_tss, happ.regs_stack⟩ (h.top q t ht)
    fun q' u hne hu => h.others q' q u t hne hu ht

/-- A new process. -/
theorem Homes.insert (h : Homes top s.homes) (hnew : s.New top q t) {x : XmmRegs}
    {rsp : BitVec 64} {place : Place} : Homes top (Function.update s.homes q
      (some { t with syscallXmm := x, syscallRsp := rsp, place := place })) :=
  have happ := hnew.apart
  h.update ⟨happ.tss_stack, happ.regs_tss, happ.regs_stack⟩ hnew.top
    fun q' u _ hu => hnew.others q' u hu

/-- **The process that `schedule` comes to goes on where it was.** -/
theorem Parked.enter {kernel : Cpu} {kernelXmm : XmmRegs} (h : Parked top s p)
    (hs : ((s.switchTo next).bind fun s => s.resume kernel kernelXmm) = some s') :
    SwitchInv top s' (p.enter next kernel kernelXmm) := by
  obtain ⟨s₁, hswitch, hresume⟩ := Option.bind_eq_some_iff.mp hs
  obtain ⟨t, ht, hs₁⟩ := Option.bind_eq_some_iff.mp hswitch
  obtain rfl := Option.some.inj hs₁
  obtain ⟨t', ht', hresume⟩ := Option.bind_eq_some_iff.mp hresume
  obtain rfl : t = t' := Option.some.inj (ht.symm.trans ht')
  have hsaved := h.saved next t ht
  have hhomes := h.homes.set ht t.syscallXmm t.syscallRsp .running
  have hrunning : Function.update s.homes next (some { t with place := .running }) next =
      some { t with place := .running } := Function.update_self ..
  have hgoing : Function.update p.start next .going next = .going := Function.update_self ..
  have hothers : ∀ {q u}, q ≠ next →
      Function.update s.homes next (some { t with place := .running }) q = some u →
        s.homes q = some u ∧ Function.update p.start next .going q = p.start q := by
    intro q u hne hu
    rw [Function.update_of_ne hne] at hu
    exact ⟨hu, Function.update_of_ne hne ..⟩
  cases hplace : t.place with
  | running => simp only [Home.Saved, hplace] at hsaved
  | suspended frame image =>
    simp only [Home.Saved, hplace] at hsaved
    obtain ⟨-, hframe, -, hstart⟩ := hsaved
    simp only [hplace] at hresume
    obtain rfl := Option.some.inj hresume
    rw [Programs.enter, hstart]
    refine ⟨hhomes, h.xmm, rfl, irqReturn_eq hframe, hgoing, ⟨_, hrunning, rfl, rfl⟩,
      fun q u hne hu => ?_, fun q u hu => ?_⟩
    · obtain ⟨hu, hsame⟩ := hothers hne hu
      exact (h.saved q u hu).congr (fun _ _ => rfl) rfl rfl hsame
    · rcases eq_or_ne q next with rfl | hne
      · obtain rfl := Option.some.inj (hrunning.symm.trans hu)
        exact h.called q t ht
      · exact h.called q u (hothers hne hu).1
  | initial entry rsp =>
    simp only [Home.Saved, hplace] at hsaved
    simp only [hplace] at hresume
    obtain rfl := Option.some.inj hresume
    have hcpu : Function.update p.cpu next (jumpToUsermode kernel entry rsp) next =
        jumpToUsermode kernel entry rsp := Function.update_self ..
    rw [Programs.enter, hsaved]
    refine ⟨hhomes, rfl, rfl, hcpu.symm, hgoing, ⟨_, hrunning, rfl, rfl⟩,
      fun q u hne hu => ?_, fun q u hu => ?_⟩
    · obtain ⟨hu, hsame⟩ := hothers hne hu
      exact (h.saved q u hu).congr (fun _ _ => rfl) (Function.update_of_ne hne ..) rfl hsame
    · rcases eq_or_ne q next with rfl | hne
      · obtain rfl := Option.some.inj (hrunning.symm.trans hu)
        exact h.called q t ht
      · exact h.called q u (hothers hne hu).1
  | forked =>
    simp only [Home.Saved, hplace] at hsaved
    obtain ⟨hstart, hcall⟩ := hsaved
    obtain ⟨⟨c, x⟩, hcall⟩ := Option.isSome_iff_exists.mp hcall
    obtain ⟨hcpu, hxmm⟩ := (h.called next t ht).ret hcall 0
    simp only [hplace] at hresume
    obtain rfl := Option.some.inj hresume
    simp only [Programs.enter, hstart, Programs.ret, hcall]
    have hkept : ∀ {q u}, q ≠ next → s.homes q = some u → ∀ a, u.Owns a →
        setRax s.mem t.regs 0 a = s.mem a := fun hne hu a ha =>
      Home.setRax_of_not_owns (h.homes.others _ next _ t hne hu ht a ha)
    have hret : Function.update p.cpu next (c.sysret 0) next = c.sysret 0 :=
      Function.update_self ..
    refine ⟨hhomes, hxmm, rfl, hcpu.trans hret.symm, hgoing, ⟨_, hrunning, rfl, rfl⟩,
      fun q u hne hu => ?_, fun q u hu => ?_⟩
    · obtain ⟨hu, hsame⟩ := hothers hne hu
      exact (h.saved q u hu).congr (hkept hne hu) (Function.update_of_ne hne ..)
        (Function.update_of_ne hne ..) hsame
    · rcases eq_or_ne q next with rfl | hne
      · have hnone : Function.update p.call q none q = none := Function.update_self ..
        exact fun c' x' hc => absurd (hnone.symm.trans hc) (by simp)
      · obtain ⟨hu, -⟩ := hothers hne hu
        exact (h.called q u hu).congr (fun i hi => hkept hne hu _ (Home.owns_regs hi))
          (Function.update_of_ne hne ..)

/-- **What an interrupt leaves behind**, with what the handler has done: a frame, and what the
other processes keep. -/
theorem SwitchInv.interrupted {n : BitVec 64} {mem : Mem} (h : SwitchInv top s p)
    (ht : s.homes s.current = some t) (hroom : s.Room)
    (hmem : s.Spares (Home.Below · (s.cpu.irqEntry s.mem n s.rsp0).1)
      (s.cpu.irqEntry s.mem n s.rsp0).2 mem) :
    t.Holds (s.cpu.irqEntry s.mem n s.rsp0).1 ∧
      mem.words (s.cpu.irqEntry s.mem n s.rsp0).1 22 = s.cpu.irqRegs n ∧
      (∀ i < regsSize, mem ((s.cpu.irqEntry s.mem n s.rsp0).1 + i) =
        (s.cpu.irqEntry s.mem n s.rsp0).2 ((s.cpu.irqEntry s.mem n s.rsp0).1 + i)) ∧
      (∀ q u, q ≠ s.current → s.homes q = some u → ∀ a, u.Owns a → mem a = s.mem a) ∧
      ∀ i < regsSize, mem (t.regs + i) = s.mem (t.regs + i) := by
  obtain ⟨t', ht', -, hrsp0⟩ := h.running
  obtain rfl : t = t' := Option.some.inj (ht.symm.trans ht')
  obtain ⟨sp, hsp⟩ : ∃ sp, s.cpu.interruptStack s.rsp0 = sp := ⟨_, rfl⟩
  have hplace : regsSize ≤ sp ∧ (t.tssStack + regsSize ≤ sp ∧ sp ≤ t.tssStack + syscallStackSize ∨
      t.stack + regsSize ≤ sp ∧ sp ≤ t.stack + t.stackSize) := by
    rw [← hsp, Cpu.interruptStack]
    split_ifs with hkernel
    · obtain ⟨hlow, hhigh⟩ := hroom hkernel t ht
      omega
    · rw [hrsp0]
      simp only [regsSize, syscallStackSize]
      omega
  have hframe : (s.cpu.irqEntry s.mem n s.rsp0).1 = sp - regsSize := by rw [irqEntry_fst, hsp]
  have hwords := words_irqEntry (c := s.cpu) (m := s.mem) (n := n) (hsp ▸ hplace.1)
  have hentry : ∀ a, a < sp - regsSize ∨ sp ≤ a → (s.cpu.irqEntry s.mem n s.rsp0).2 a = s.mem a :=
    fun a ha => irqEntry_of_notMem (hsp ▸ hplace.1) (hsp ▸ ha)
  rw [hframe] at hmem hwords ⊢
  have hholds : t.Holds (sp - regsSize) := by
    obtain ⟨hle, htss | hstack⟩ := hplace
    · exact Or.inl (by omega)
    · exact Or.inr (by omega)
  have hsame : ∀ i < regsSize, mem (sp - regsSize + i) =
      (s.cpu.irqEntry s.mem n s.rsp0).2 (sp - regsSize + i) := fun i hi =>
    (hmem s.current t ht _ (hholds.owns hi)).resolve_right fun hbelow =>
      absurd hbelow.2.1 (by omega)
  refine ⟨hholds, (Mem.words_congr hsame).trans hwords, hsame, fun q u hne hu a ha => ?_,
    fun i hi => ?_⟩
  · have hnot := h.homes.others q s.current u t hne hu ht a ha
    refine ((hmem q u hu a ha).resolve_right fun hq => hne hq.1).trans (hentry a ?_)
    by_contra hcon
    obtain ⟨i, rfl⟩ := Nat.exists_eq_add_of_le (show sp - regsSize ≤ a by omega)
    exact hnot (hholds.owns (by omega))
  · have happ := h.homes.apart _ t ht
    obtain ⟨htss, hstack⟩ := And.intro happ.regs_tss happ.regs_stack
    refine ((hmem s.current t ht _ (Home.owns_regs hi)).resolve_right ?_).trans (hentry _ ?_)
    · rintro ⟨-, hlt, hb | hb⟩ <;> omega
    · rcases hholds with hb | hb <;> omega

/-- Nothing that another process keeps has been written. -/
theorem Switching.Spares.other {free : Home → ℕ → Prop} {m m' : Mem} (h : s.Spares free m m')
    (hne : q ≠ s.current) (hu : s.homes q = some u) {a : ℕ} (ha : u.Owns a) : m' a = m a :=
  (h q u hu a ha).resolve_right fun hq => hne hq.1

/-- Code in the kernel does not touch the `syscall_registers`. -/
theorem SwitchInv.regs_kept {m m' : Mem} (h : SwitchInv top s p) (hm : s.Spares Home.OnStack m m')
    (ht : s.homes s.current = some t) {i : ℕ} (hi : i < regsSize) :
    m' (t.regs + i) = m (t.regs + i) := by
  refine (hm _ t ht _ (Home.owns_regs hi)).resolve_right ?_
  rintro ⟨-, hlow, hhigh⟩
  rcases (h.homes.apart _ t ht).regs_stack with happ | happ <;> omega

theorem Home.Saved.place_ne {m : Mem} (h : t.Saved p q m) : t.place ≠ .running := by
  intro hplace
  simp only [Home.Saved, hplace] at h

/-- `schedule` comes to a process that has been left. -/
theorem Switching.enter_isSome {kernel : Cpu} {kernelXmm : XmmRegs} (ht : s.homes next = some t)
    (hplace : t.place ≠ .running) :
    ((s.switchTo next).bind fun s => s.resume kernel kernelXmm).isSome := by
  have hswitch : s.switchTo next =
      some { s with current := next, rsp0 := t.tssStack + syscallStackSize } := by
    rw [Switching.switchTo, ht]
    rfl
  rw [hswitch, Option.bind_some, Switching.resume, ht]
  cases hp : t.place with
  | running => exact absurd hp hplace
  | suspended frame image => simp [hp]
  | initial entry rsp => simp [hp]
  | forked => simp [hp]

theorem SwitchInv.run {cpu : Cpu} {xmm : XmmRegs} {mem : Mem} (h : SwitchInv top s p)
    (hm : s.Spares Home.OnStack s.mem mem) :
    SwitchInv top { s with cpu := cpu, xmm := xmm, mem := mem }
      (p.step (.run cpu xmm mem)) := by
  have hcpu : Function.update p.cpu p.current cpu s.current = cpu := by
    rw [h.current, Function.update_self]
  refine ⟨h.homes, rfl, h.current, hcpu.symm, h.going, h.running, fun q u hne hu => ?_,
    fun q u hu => ?_⟩
  · refine (h.saved q u hne hu).congr (fun a ha => hm.other hne hu ha) ?_ rfl rfl
    exact Function.update_of_ne (h.current ▸ hne) ..
  · refine (h.called q u hu).congr (fun i hi => ?_) rfl
    rcases eq_or_ne q s.current with rfl | hne
    · exact h.regs_kept hm hu hi
    · exact hm.other hne hu (Home.owns_regs hi)

theorem SwitchInv.irq {n : BitVec 64} {mem : Mem} (h : SwitchInv top s p) (hroom : s.Room)
    (hm : s.Spares (Home.Below · (s.cpu.irqEntry s.mem n s.rsp0).1)
      (s.cpu.irqEntry s.mem n s.rsp0).2 mem) (hs : s.step top (.irq n mem) = some s') :
    SwitchInv top s' p := by
  obtain ⟨t, ht, hrunning⟩ := h.running
  obtain ⟨-, hframe, hsame, hothers, hregs⟩ := h.interrupted ht hroom hm
  obtain rfl := Option.some.inj hs
  rw [Mem.write_read hsame]
  refine ⟨h.homes, h.xmm, h.current, (irqReturn_eq hframe).trans h.cpu, h.going, h.running,
    fun q u hne hu => ?_, fun q u hu => ?_⟩
  · exact (h.saved q u hne hu).congr (hothers q u hne hu) rfl rfl rfl
  · refine (h.called q u hu).congr (fun i hi => ?_) rfl
    rcases eq_or_ne q s.current with rfl | hne
    · obtain rfl := Option.some.inj (ht.symm.trans hu)
      exact hregs i hi
    · exact hothers q u hne hu _ (Home.owns_regs hi)

/-- A tick, up to the switch. -/
theorem SwitchInv.park {mem : Mem} (h : SwitchInv top s p) (hroom : s.Room)
    (hm : s.Spares (Home.Below · (s.cpu.irqEntry s.mem 0 s.rsp0).1)
      (s.cpu.irqEntry s.mem 0 s.rsp0).2 mem) (ht : s.homes s.current = some t) :
    Parked top { s.setHome s.current
      { t with place := .suspended (s.cpu.irqEntry s.mem 0 s.rsp0).1 mem } with
        mem := mem, xmmRegs := s.xmm } p := by
  obtain ⟨hholds, hframe, -, hothers, hregs⟩ := h.interrupted ht hroom hm
  refine ⟨h.homes.set ht _ _ _, h.xmm, fun q u hu => ?_, fun q u hu => ?_⟩
  · rcases eq_or_ne q s.current with rfl | hne
    · have hu : Function.update s.homes s.current _ s.current = some u := hu
      rw [Function.update_self] at hu
      obtain rfl := Option.some.inj hu
      exact ⟨hholds, hframe.trans (congrArg (Cpu.irqRegs · 0) h.cpu), fun _ _ => rfl, h.going⟩
    · have hu : Function.update s.homes s.current _ q = some u := hu
      rw [Function.update_of_ne hne] at hu
      exact (h.saved q u hne hu).congr (hothers q u hne hu) rfl rfl rfl
  · rcases eq_or_ne q s.current with rfl | hne
    · have hu : Function.update s.homes s.current _ s.current = some u := hu
      rw [Function.update_self] at hu
      obtain rfl := Option.some.inj hu
      exact Home.Called.congr (t := t) (h.called _ t ht) hregs rfl
    · have hu : Function.update s.homes s.current _ q = some u := hu
      rw [Function.update_of_ne hne] at hu
      exact (h.called q u hu).congr (fun i hi => hothers q u hne hu _ (Home.owns_regs hi)) rfl

theorem SwitchInv.tick {mem : Mem} {kernel : Cpu} {kernelXmm : XmmRegs} (h : SwitchInv top s p)
    (hroom : s.Room) (hm : s.Spares (Home.Below · (s.cpu.irqEntry s.mem 0 s.rsp0).1)
      (s.cpu.irqEntry s.mem 0 s.rsp0).2 mem)
    (hs : s.step top (.tick next mem kernel kernelXmm) = some s') :
    SwitchInv top s' (p.enter next kernel kernelXmm) := by
  obtain ⟨t, ht, hs⟩ := Option.bind_eq_some_iff.mp hs
  exact (h.park hroom hm ht).enter hs

theorem SwitchInv.exit {mem : Mem} {kernel : Cpu} {kernelXmm : XmmRegs} (h : SwitchInv top s p)
    (hm : s.Spares Home.Owns s.mem mem)
    (hs : s.step top (.exit next mem kernel kernelXmm) = some s') :
    SwitchInv top s' (p.enter next kernel kernelXmm) := by
  have hleft : ∀ {q u}, Function.update s.homes s.current none q = some u →
      q ≠ s.current ∧ s.homes q = some u := by
    intro q u hu
    rcases eq_or_ne q s.current with rfl | hne
    · rw [Function.update_self] at hu
      exact absurd hu (by simp)
    · rw [Function.update_of_ne hne] at hu
      exact ⟨hne, hu⟩
  have hpark : Parked top { s with
      homes := Function.update s.homes s.current none, mem := mem, xmmRegs := s.xmm } p := by
    refine ⟨⟨fun q u hu => h.homes.apart q u (hleft hu).2,
      fun q u hu => h.homes.top q u (hleft hu).2,
      fun q q' u u' hne hu hu' => h.homes.others q q' u u' hne (hleft hu).2 (hleft hu').2⟩, h.xmm,
      fun q u hu => ?_, fun q u hu => ?_⟩
    · obtain ⟨hne, hu⟩ := hleft hu
      exact (h.saved q u hne hu).congr (fun a ha => hm.other hne hu ha) rfl rfl rfl
    · obtain ⟨hne, hu⟩ := hleft hu
      exact (h.called q u hu).congr (fun i hi => hm.other hne hu (Home.owns_regs hi)) rfl
  exact hpark.enter hs

theorem SwitchInv.sysret {value : BitVec 64} (h : SwitchInv top s p)
    (hcall : (p.call p.current).isSome) (hs : s.step top (.sysret value) = some s') :
    SwitchInv top s' (p.ret value) := by
  obtain ⟨t, ht, hs⟩ := Option.bind_eq_some_iff.mp hs
  obtain rfl := Option.some.inj hs
  obtain ⟨⟨c, x⟩, hcall⟩ := Option.isSome_iff_exists.mp hcall
  have hc : p.call s.current = some (c, x) := h.current ▸ hcall
  obtain ⟨hcpu, hxmm⟩ := (h.called _ t ht).ret hc value
  have hkept : ∀ {q u}, q ≠ s.current → s.homes q = some u → ∀ a, u.Owns a →
      setRax s.mem t.regs value a = s.mem a := fun hne hu a ha =>
    Home.setRax_of_not_owns (h.homes.others _ s.current _ t hne hu ht a ha)
  have hret : Function.update p.cpu s.current (c.sysret value) s.current = c.sysret value :=
    Function.update_self ..
  have hnone : Function.update p.call s.current none s.current = none := Function.update_self ..
  simp only [Programs.ret, h.current, hc]
  refine ⟨h.homes, hxmm, rfl, hcpu.trans hret.symm, h.going, h.running, fun q u hne hu => ?_,
    fun q u hu => ?_⟩
  · exact (h.saved q u hne hu).congr (hkept hne hu) (Function.update_of_ne hne ..)
      (Function.update_of_ne hne ..) rfl
  · rcases eq_or_ne q s.current with rfl | hne
    · exact fun c' x' hc' => absurd (hnone.symm.trans hc') (by simp)
    · exact (h.called q u hu).congr (fun i hi => hkept hne hu _ (Home.owns_regs hi))
        (Function.update_of_ne hne ..)

theorem SwitchInv.syscall {flags : BitVec 64} {cpu : Cpu} {xmm : XmmRegs} {mem : Mem}
    (h : SwitchInv top s p) (htop : regsSize ≤ top) (hm : ∀ t, s.homes s.current = some t →
      s.Spares Home.OnStack
        (((s.cpu.syscallPushes flags).foldl Mem.push (top, s.mem)).2.write t.regs
          (((s.cpu.syscallPushes flags).foldl Mem.push (top, s.mem)).2.read
            ((s.cpu.syscallPushes flags).foldl Mem.push (top, s.mem)).1 regsSize)) mem)
    (hs : s.step top (.syscall flags cpu xmm mem) = some s') :
    SwitchInv top s' (p.step (.syscall flags cpu xmm mem)) := by
  obtain ⟨t, ht, hs⟩ := Option.bind_eq_some_iff.mp hs
  obtain ⟨t', ht', hplace, hrsp0⟩ := h.running
  obtain rfl : t = t' := Option.some.inj (ht.symm.trans ht')
  have hm := hm t ht
  have hwords := words_syscall s.cpu s.mem flags htop
  have hfst : ((s.cpu.syscallPushes flags).foldl Mem.push (top, s.mem)).1 = top - regsSize :=
    Mem.pushes_fst _ _
  obtain ⟨pushed, hpushed⟩ : ∃ pushed,
    ((s.cpu.syscallPushes flags).foldl Mem.push (top, s.mem)).2 = pushed := ⟨_, rfl⟩
  simp only [hfst, hpushed] at hs hm hwords
  obtain rfl := Option.some.inj hs
  have hkept : ∀ {q u}, q ≠ s.current → s.homes q = some u → ∀ a, u.Owns a → mem a = s.mem a := by
    intro q u hne hu a ha
    have hnot := h.homes.others q s.current u t hne hu ht a ha
    rw [hm.other hne hu ha, Mem.write_of_notMem, ← hpushed]
    · exact syscall_of_notMem htop (h.homes.top q u hu a ha)
    · rw [Mem.length_read]
      by_contra hcon
      exact hnot (Or.inr (Or.inr (by omega)))
  have hregs : ∀ i < regsSize, mem (t.regs + i) = pushed (top - regsSize + i) := fun i hi =>
    (h.regs_kept hm ht hi).trans (Mem.write_read_apply hi)
  have hcalled : mem.words t.regs 15 = popa64.map s.cpu.called := by
    rw [show 22 = 15 + 7 from rfl, Mem.words_add] at hwords
    rw [← List.append_inj_left hwords (Mem.length_words ..)]
    exact Mem.words_congr fun i hi => hregs i (by rw [regsSize]; omega)
  have hrsp : pushed.word (top - regsSize + 160) = s.cpu.rsp := by
    have hsplit : popa64.map s.cpu.called ++ [0, 0, 0, 0, flags, s.cpu.rsp, 0] =
        (popa64.map s.cpu.called ++ [0, 0, 0, 0, flags]) ++ [s.cpu.rsp, 0] := by
      rw [List.append_assoc]
      rfl
    rw [show 22 = 20 + 2 from rfl, Mem.words_add, hsplit] at hwords
    exact (List.cons.inj (List.append_inj_right hwords (Mem.length_words ..))).1
  have hset := h.homes.set ht s.xmm (pushed.word (top - regsSize + 160)) t.place
  have hcpu : Function.update p.cpu s.current cpu s.current = cpu := Function.update_self ..
  have hcall : Function.update p.call s.current (some (p.cpu s.current, p.xmm)) s.current =
      some (p.cpu s.current, p.xmm) := Function.update_self ..
  have hself : Function.update s.homes s.current (some { t with
      syscallXmm := s.xmm, syscallRsp := pushed.word (top - regsSize + 160) }) s.current =
    some { t with syscallXmm := s.xmm, syscallRsp := pushed.word (top - regsSize + 160) } :=
    Function.update_self ..
  simp only [Programs.step, h.current]
  refine ⟨hset, rfl, rfl, hcpu.symm, h.going, ⟨_, hself, hplace, hrsp0⟩, fun q u hne hu => ?_,
    fun q u hu => ?_⟩
  · have hu : s.homes q = some u := (Function.update_of_ne hne ..).symm.trans hu
    exact (h.saved q u hne hu).congr (hkept hne hu) (Function.update_of_ne hne ..)
      (Function.update_of_ne hne ..) rfl
  · rcases eq_or_ne q s.current with rfl | hne
    · obtain rfl := Option.some.inj (hself.symm.trans hu)
      intro c x hc
      obtain ⟨rfl, rfl⟩ := Prod.mk.inj (Option.some.inj (hcall.symm.trans hc))
      rw [← h.cpu]
      exact ⟨hcalled, hrsp, h.xmm⟩
    · have hu : s.homes q = some u := (Function.update_of_ne hne ..).symm.trans hu
      exact (h.called q u hu).congr (fun i hi => hkept hne hu _ (Home.owns_regs hi))
        (Function.update_of_ne hne ..)

theorem Switching.New.ne_current {child : Addr} (hnew : s.New top child t)
    (ht : s.homes s.current = some u) : child ≠ s.current := by
  rintro rfl
  exact absurd (hnew.unused.symm.trans ht) (by simp)

theorem SwitchInv.create {child : Addr} {entry rsp : BitVec 64} (h : SwitchInv top s p)
    (hnew : s.New top child t) (hs : s.step top (.create child t entry rsp) = some s') :
    SwitchInv top s' (p.step (.create child t entry rsp)) := by
  obtain rfl := Option.some.inj hs
  obtain ⟨u, hu, hplace, hrsp0⟩ := h.running
  have hne := hnew.ne_current hu
  have hcur : Function.update s.homes child (some { t with place := .initial entry rsp })
      s.current = some u := (Function.update_of_ne hne.symm ..).trans hu
  have hself : Function.update s.homes child (some { t with place := .initial entry rsp }) child =
      some { t with place := .initial entry rsp } := Function.update_self ..
  have hstart : Function.update p.start child (.initial entry rsp) child = .initial entry rsp :=
    Function.update_self ..
  have hcall : Function.update p.call child none child = none := Function.update_self ..
  refine ⟨h.homes.insert hnew, h.xmm, h.current, h.cpu,
    (Function.update_of_ne hne.symm ..).trans h.going, ⟨u, hcur, hplace, hrsp0⟩,
    fun q v hq hv => ?_, fun q v hv => ?_⟩
  · rcases eq_or_ne q child with rfl | hq'
    · obtain rfl := Option.some.inj (hself.symm.trans hv)
      exact hstart
    · have hv : s.homes q = some v := (Function.update_of_ne hq' ..).symm.trans hv
      exact (h.saved q v hq hv).congr (fun _ _ => rfl) rfl (Function.update_of_ne hq' ..)
        (Function.update_of_ne hq' ..)
  · rcases eq_or_ne q child with rfl | hq'
    · exact fun c x hc => absurd (hcall.symm.trans hc) (by simp)
    · have hv : s.homes q = some v := (Function.update_of_ne hq' ..).symm.trans hv
      exact (h.called q v hv).congr (fun _ _ => rfl) (Function.update_of_ne hq' ..)

theorem SwitchInv.fork {child : Addr} (h : SwitchInv top s p) (hnew : s.New top child t)
    (hcall : (p.call p.current).isSome) (hs : s.step top (.fork child t) = some s') :
    SwitchInv top s' (p.step (.fork child t)) := by
  obtain ⟨u, hu, hs⟩ := Option.bind_eq_some_iff.mp hs
  obtain ⟨u', hu', hplace, hrsp0⟩ := h.running
  obtain rfl : u = u' := Option.some.inj (hu.symm.trans hu')
  obtain rfl := Option.some.inj hs
  have hne := hnew.ne_current hu
  obtain ⟨new, hnew'⟩ : ∃ new, { t with
    syscallXmm := u.syscallXmm, syscallRsp := u.syscallRsp, place := .forked } = new := ⟨_, rfl⟩
  have hcur : Function.update s.homes child (some new) s.current = some u :=
    (Function.update_of_ne hne.symm ..).trans hu
  have hself : Function.update s.homes child (some new) child = some new := Function.update_self ..
  have hstart : Function.update p.start child .forked child = .forked := Function.update_self ..
  have hsame : Function.update p.call child (p.call p.current) child = p.call p.current :=
    Function.update_self ..
  -- only the registers of the new process are written
  have hkept : ∀ {q v}, s.homes q = some v → ∀ a, v.Owns a →
      s.mem.write t.regs (s.mem.read u.regs regsSize) a = s.mem a := by
    intro q v hv a ha
    refine Mem.write_of_notMem ?_
    rw [Mem.length_read]
    by_contra hcon
    exact hnew.others q v hv a ha (Or.inr (Or.inr (by omega)))
  have hhomes : Homes top (Function.update s.homes child (some new)) := by
    rw [← hnew']
    exact h.homes.insert hnew
  rw [Switching.setHome, hnew']
  refine ⟨hhomes, h.xmm, h.current, h.cpu, (Function.update_of_ne hne.symm ..).trans h.going,
    ⟨u, hcur, hplace, hrsp0⟩, fun q v hq hv => ?_, fun q v hv => ?_⟩
  · rcases eq_or_ne q child with rfl | hq'
    · obtain rfl := Option.some.inj (hself.symm.trans hv)
      rw [← hnew']
      exact ⟨hstart, (congrArg Option.isSome hsame).trans hcall⟩
    · have hv : s.homes q = some v := (Function.update_of_ne hq' ..).symm.trans hv
      exact (h.saved q v hq hv).congr (hkept hv) rfl (Function.update_of_ne hq' ..)
        (Function.update_of_ne hq' ..)
  · rcases eq_or_ne q child with rfl | hq'
    · obtain rfl := Option.some.inj (hself.symm.trans hv)
      intro c x hc
      obtain ⟨hwords, hrest⟩ := h.called _ u hu c x (h.current ▸ hsame.symm.trans hc)
      rw [← hnew']
      refine ⟨(Mem.words_congr fun i hi => ?_).trans hwords, hrest⟩
      exact Mem.write_read_apply (by rw [regsSize]; omega)
    · have hv : s.homes q = some v := (Function.update_of_ne hq' ..).symm.trans hv
      exact (h.called q v hv).congr (fun i hi => hkept hv _ (Home.owns_regs hi))
        (Function.update_of_ne hq' ..)

end Invariant

/-! ### Runs -/

namespace SwitchRun

variable {top : ℕ} {r r' : SwitchRun} {a : SwitchAct}

/-- **The step lemma.** -/
theorem inv_step (htop : regsSize ≤ top) (h : SwitchInv top r.kernel r.programs) (hok : r.Ok top a)
    (hs : r.Steps top a r') : SwitchInv top r'.kernel r'.programs := by
  obtain ⟨hs, hprograms⟩ := hs
  rw [hprograms]
  cases a with
  | run cpu xmm mem =>
    rw [← Option.some.inj hs]
    exact h.run hok.2.2
  | irq n mem => exact h.irq hok.2.1 hok.2.2 hs
  | tick next mem kernel kernelXmm => exact h.tick hok.1 hok.2 hs
  | syscall flags cpu xmm mem => exact h.syscall htop hok.2.2 hs
  | sysret value => exact h.sysret hok.2 hs
  | create child t entry rsp => exact h.create hok hs
  | fork child t => exact h.fork hok.2.2 hok.2.1 hs
  | exit next mem kernel kernelXmm => exact h.exit hok.2 hs

/-- **The run lemma.** -/
theorem inv_of_reach (htop : regsSize ≤ top) (h : Run top r) :
    SwitchInv top r.kernel r.programs := by
  refine h.invariant (P := fun r => SwitchInv top r.kernel r.programs) ?_
    fun _ _ _ hinv hok hs => inv_step htop hinv hok hs
  rintro r ⟨t, hhomes, hplace, happ, htop, hrsp0, hprograms⟩
  have honly : ∀ {q u}, r.kernel.homes q = some u → q = r.kernel.current ∧ u = t := by
    intro q u hu
    rw [hhomes] at hu
    rcases eq_or_ne q r.kernel.current with rfl | hne
    · rw [Function.update_self] at hu
      exact ⟨rfl, (Option.some.inj hu).symm⟩
    · rw [Function.update_of_ne hne] at hu
      exact absurd hu (by simp)
  have hself : r.kernel.homes r.kernel.current = some t := by rw [hhomes, Function.update_self]
  rw [hprograms]
  refine ⟨⟨fun q u hu => ?_, fun q u hu => ?_, fun q q' u u' hne hu hu' => ?_⟩, rfl, rfl, rfl, rfl,
    ⟨t, hself, hplace, hrsp0⟩, fun q u hne hu => absurd (honly hu).1 hne, fun q u hu c x hc => ?_⟩
  · rw [(honly hu).2]
    exact happ
  · rw [(honly hu).2]
    exact htop
  · exact absurd ((honly hu).1.trans (honly hu').1.symm) hne
  · exact absurd hc (by simp)

theorem Run.go {k : Switching} (h : Run top r) (a : SwitchAct) (hok : r.Ok top a)
    (hs : r.kernel.step top a = some k) : Run top ⟨k, r.programs.step a⟩ := h.step hok ⟨hs, rfl⟩

/-- Some code runs. -/
theorem Run.compute (h : Run top r) (cpu : Cpu) (xmm : XmmRegs) (hcs : cpu.cs = r.kernel.cpu.cs) :
    Run top ⟨{ r.kernel with cpu := cpu, xmm := xmm },
      r.programs.step (.run cpu xmm r.kernel.mem)⟩ :=
  h.go _ ⟨hcs, fun _ => rfl, fun _ _ _ _ _ => Or.inl rfl⟩ rfl

/-- A tick comes. -/
theorem Run.interrupt {k : Switching} (h : Run top r) (next : Addr) (kernel : Cpu)
    (hroom : r.kernel.Room) (hs : r.kernel.step top (.tick next
      (r.kernel.cpu.irqEntry r.kernel.mem 0 r.kernel.rsp0).2 kernel r.kernel.xmm) = some k) :
    Run top ⟨k, r.programs.enter next kernel r.kernel.xmm⟩ :=
  h.go (.tick next _ kernel r.kernel.xmm) ⟨hroom, fun _ _ _ _ _ => Or.inl rfl⟩ hs

/-- Three places from `a` on. -/
def home (a : ℕ) : Home :=
  ⟨a, a + 0x1000, 0x1000, a + 0x2000, fun _ => 0, 0, .running⟩

def idleCpu : Cpu := ⟨fun _ => 0, 0, 8, 0x202, 0x21800, 0x10⟩

def userCpu : Cpu := ⟨fun _ => 7, 0x400010, 0x33, 0x202, 0x7000, 0x2B⟩

theorem room_idle {s : Switching} (hcpu : s.cpu = idleCpu)
    (hhome : s.homes s.current = some (home 0x20000)) : s.Room := by
  intro _ t ht
  obtain rfl := Option.some.inj (hhome.symm.trans ht)
  rw [hcpu]
  decide

end SwitchRun

end Xana
