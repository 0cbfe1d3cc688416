import Xana.Memory.UserRange
import Xana.Signal.Basic

/-!
# Handlers in user pages

`check_signals` kills a process when the handler of its signal is not in a page that
`is_mapped_user` accepts. Those are the pages of the kernel (`Xana.isMappedUser_iff`),
so a process whose handler is in a page of its own is killed, unless the signal is
one of those that are ignored when they have no handler: then the signal is lost.
-/

namespace Xana

namespace Signals

section Handlers

variable (m : Machine) (pml4 currentPml4 : ℕ) (p : Process) (isAfterSyscall : Bool)

/-- What the page tables answer `check_signals`: `is_mapped_user` in those of the process,
`virt_to_phys` in the current ones. -/
def mmuOf : Mmu where
  isMappedUser virt := Xana.isMappedUser m virt pml4
  isMapped virt := decide (virtToPhys m virt currentPml4 ≠ 2 ^ 64 - 1)

/-- The user stack that `check_signals` starts a handler on. -/
def handlerRsp : ℕ :=
  if isAfterSyscall then p.syscallRsp
  else if virtMemOffset ≤ p.interruptRegisters.rsp then p.userRsp
  else p.interruptRegisters.rsp

/-- A signal with a registered handler in a user page, and a user stack to run it on. -/
structure UserHandler (signal : Signal) : Prop where
  handled : signal.handled = false
  ne_sigkill : signal.signalNumber ≠ sigkill
  registered : p.signalHandlers signal.signalNumber ≠ 0
  userMapped : UserMapped m pml4 (p.signalHandlers signal.signalNumber)
  stack : virtToPhys m (handlerRsp p isAfterSyscall) currentPml4 ≠ 2 ^ 64 - 1

/-- **What is expected of `check_signals`**: it does not kill a process for such a signal. -/
def SparesHandlers : Prop :=
  ∀ signal next, p.queuedSignals = signal :: next → p.exited = false →
    UserHandler m pml4 currentPml4 p isAfterSyscall signal →
    (p.checkSignals (mmuOf m pml4 currentPml4) isAfterSyscall).exited = false

/-- Of such signals the process has only ones that are ignored without a handler. -/
def OnlyIgnored : Prop :=
  ∀ signal next, p.queuedSignals = signal :: next → p.exited = false →
    UserHandler m pml4 currentPml4 p isAfterSyscall signal → signal.signalNumber ∈ ignoredSignals

end Handlers

section Handlers

variable {m : Machine} {pml4 currentPml4 : ℕ} {p : Process} {isAfterSyscall : Bool}
variable {signal : Signal} {next : List Signal} {root start length : ℕ}

/-- **`check_signals` does not start a handler in a user page.** -/
theorem checkSignals_of_userHandler (hp : p.queuedSignals = signal :: next)
    (h : UserHandler m pml4 currentPml4 p isAfterSyscall signal) :
    p.checkSignals (mmuOf m pml4 currentPml4) isAfterSyscall =
      if signal.signalNumber ∈ ignoredSignals then { p with queuedSignals := next }
      else p.exit := by
  have hno : (mmuOf m pml4 currentPml4).isMappedUser (p.signalHandlers signal.signalNumber) =
      false := by
    rw [← Bool.not_eq_true]
    exact fun htrue => h.userMapped.not_kernelMapped (isMappedUser_iff.mp htrue)
  simp only [Process.checkSignals, hp, h.handled, h.ne_sigkill, hno, or_true, if_true, if_false,
    Bool.false_eq_true]

theorem sparesHandlers_iff : SparesHandlers m pml4 currentPml4 p isAfterSyscall ↔
    OnlyIgnored m pml4 currentPml4 p isAfterSyscall := by
  refine forall₂_congr fun signal next => forall₃_congr fun hp hexited h => ?_
  rw [checkSignals_of_userHandler hp h]
  split_ifs with hig
  · exact iff_of_true hexited hig
  · exact iff_of_false (by simp [Process.exit]) hig

/-- **When the answers about user pages are right**, for a range, and for the handler of a
process. -/
theorem userPages_iff (hpos : 0 < length) (hwrap : start + length ≤ 2 ^ 64) :
    ((Returns (isMappedUserRange m start length root) true ↔ AllUserMapped m root start length) ↔
      RangeAnswers m root start length) ∧
    (SparesHandlers m pml4 currentPml4 p isAfterSyscall ↔
      OnlyIgnored m pml4 currentPml4 p isAfterSyscall) :=
  ⟨rangeAnswers_iff hpos hwrap, sparesHandlers_iff⟩

end Handlers

/-! ### A process with a handler in its own page -/

section Example

/-- The machine of `emptyMachine`, with one page of the user at `0x400000`. -/
def onePageMachine : Option Machine :=
  (mapPageKmalloc bumpTable emptyMachine 0x400000 0x5000 false true 0x1000).map Prod.snd

/-- A process with a handler at `0x400000` for the signal 10, which is pending. -/
def handlerProcess : Process :=
  ⟨1, false, [⟨10, default, default, none, 0, false, false, 0⟩], fun _ => 0x400000,
    default, default, fun _ => 0, 0x400000, 0x400000, false, []⟩

theorem userPages_iff_onePage :
    ((Returns (isMappedUserRange emptyMachine 0x400800 0x1000 0x1000) true ↔
        AllUserMapped emptyMachine 0x1000 0x400800 0x1000) ↔
      RangeAnswers emptyMachine 0x1000 0x400800 0x1000) ∧
    (SparesHandlers emptyMachine 0x1000 0x1000 handlerProcess true ↔
      OnlyIgnored emptyMachine 0x1000 0x1000 handlerProcess true) :=
  userPages_iff (by decide) (by decide)

/-- The page is not found to be the user's, and the process is killed. -/
theorem not_userPages : ∃ m, onePageMachine = some m ∧
    ¬(Returns (isMappedUserRange m 0x400000 1 0x1000) true ↔ AllUserMapped m 0x1000 0x400000 1) ∧
    ¬SparesHandlers m 0x1000 0x1000 handlerProcess true := by
  have hentry : onePageMachine.map (fun m => m.entry 0x1000 0x400000) = some 0x5007 := by decide
  have hstack : onePageMachine.map (fun m => virtToPhys m 0x400000 0x1000) = some 0x5000 := by
    decide
  obtain ⟨m, hm, he⟩ := Option.map_eq_some_iff.mp hentry
  rw [hm, Option.map_some, Option.some.injEq] at hstack
  have huser : UserMapped m 0x1000 0x400000 := by
    rw [UserMapped, he]
    decide
  refine ⟨m, hm, ?_, ?_⟩
  · have hall : AllUserMapped m 0x1000 0x400000 1 := by
      rintro page ⟨hal, hlt, hgt⟩
      obtain rfl : page = 0x400000 := by omega
      exact huser
    rw [rangeAnswers_iff (by decide) (by decide), RangeAnswers, if_neg (by decide)]
    exact fun h => h.2 hall
  · rw [sparesHandlers_iff]
    intro h
    have hstack' : virtToPhys m (handlerRsp handlerProcess true) 0x1000 ≠ 2 ^ 64 - 1 := by
      rw [show handlerRsp handlerProcess true = 0x400000 from rfl, hstack]
      decide
    have hmem := h _ _ rfl rfl ⟨rfl, by decide, by decide, huser, hstack'⟩
    exact absurd hmem (by decide)

end Example

end Signals

end Xana
