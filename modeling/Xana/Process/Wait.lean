import Xana.Lib.Runs
import Xana.Process.PidOrder

/-!
# Waiting for a process

`process_wait` finds a process on `process_list`, and in a loop it lets others run until
that one has exited; then it takes it off the list and frees it. All the while it holds a
pointer to it. It does not look whether the process is a child of the caller, or whether
somebody else waits for it, too; and with a pid of -1, which stands for any child, it reads
the pid that it returns from the structure that it has just freed.

In a run in which nobody calls it with -1 while having a child, and in which the process that
it finds is a child of the caller that nobody waits for, it does what it should
(`Xana.WaitRun.waiting_sound`).

A `process_t` is named by the call of `kmalloc` that it comes from, so that a structure that
has been freed is not mistaken for a later one at the same address.
-/

namespace Xana

/-- A call of `process_wait` that has found its target: the argument, the target, and
whether the waiting loop has ended. -/
structure Wait where
  pid : ℤ
  target : Addr
  ended : Bool

/-- What calls of `process_wait` do with the processes. -/
inductive WaitEvent
  /-- Fields of the process are read or written. -/
  | use (process : Addr)
  /-- It is taken off the list. -/
  | unlink (process : Addr)
  | free (process : Addr)
  /-- The call of `caller` returns a pid, and it has stored a status. -/
  | ret (caller : Addr) (pid status : ℤ)
  deriving DecidableEq

/-- The processes, `process_list`, the calls that are in their loops, and what has happened,
the latest first. -/
structure WaitRun where
  procs : Addr → Process
  ppid : Addr → ℕ
  exitStatus : Addr → ℤ
  processList : List Addr
  nextAddr : Addr
  waiting : Addr → Option Wait
  events : List WaitEvent

namespace WaitRun

/-! ### The calls -/

/-- The test of the loop that looks for a child, or for the pid. -/
def Matches (s : WaitRun) (caller : Addr) (pid : ℤ) (p : Addr) : Prop :=
  if pid = -1 then s.ppid p = (s.procs caller).pid else ((s.procs p).pid : ℤ) = pid

instance (s : WaitRun) (caller : Addr) (pid : ℤ) (p : Addr) : Decidable (s.Matches caller pid p) :=
  inferInstanceAs (Decidable
    (if pid = -1 then s.ppid p = (s.procs caller).pid else ((s.procs p).pid : ℤ) = pid))

/-- The process that is found. -/
def search (s : WaitRun) (caller : Addr) (pid : ℤ) : Option Addr :=
  s.processList.find? fun p => decide (s.Matches caller pid p)

/-- The process runs: it is on the list, it has not exited, and it is in no call of
`process_wait`. -/
def Runs (s : WaitRun) (p : Addr) : Prop :=
  p ∈ s.processList ∧ (s.procs p).status ≠ .exited ∧ s.waiting p = none

instance (s : WaitRun) (p : Addr) : Decidable (s.Runs p) :=
  inferInstanceAs (Decidable (_ ∧ _ ∧ s.waiting p = none))

/-- The processes on the list are read up to one that is found. -/
def useUntil (found : Addr → Bool) : List Addr → List WaitEvent
  | [] => []
  | p :: l => if found p then [.use p] else useUntil found l ++ [.use p]

/-- `process_wait`, up to its loop. A call that fails changes nothing. -/
def call (s : WaitRun) (caller : Addr) (pid : ℤ) : WaitRun :=
  if pid = (s.procs caller).pid then s
  else
    { s with
      waiting := Function.update s.waiting caller
        ((s.search caller pid).map fun target => ⟨pid, target, false⟩)
      events := useUntil (fun p => decide (s.Matches caller pid p)) s.processList ++ s.events }

/-- One pass of the loop. -/
def pass (s : WaitRun) (caller : Addr) (w : Wait) : WaitRun :=
  { s with
    waiting := Function.update s.waiting caller
      (some { w with ended := decide ((s.procs w.target).status = .exited) })
    events := .use w.target :: s.events }

/-- The rest of `process_wait`. The loop that takes the target off the list may run off its
end. -/
def finish (s : WaitRun) (caller : Addr) (w : Wait) : Option WaitRun :=
  (ProcTable.unlink w.target s.processList).map fun l =>
    { s with
      processList := l
      waiting := Function.update s.waiting caller none
      events := .ret caller (if w.pid = -1 then (s.procs w.target).pid else w.pid)
          (s.exitStatus w.target) ::
        (if w.pid = -1 then [.use w.target] else []) ++ .free w.target :: .unlink w.target ::
        useUntil (· == w.target) s.processList ++ .use w.target :: s.events }

/-- The part of `process_exit` and `process_exit_abnormal` that says that the process has
exited. If it was waiting, it is no longer. -/
def exit (s : WaitRun) (p : Addr) (status : ℤ) : WaitRun :=
  { s with
    procs := Function.update s.procs p { s.procs p with status := .exited }
    exitStatus := Function.update s.exitStatus p status
    waiting := Function.update s.waiting p none }

/-- The list with a process on it, as `add_process` leaves it. -/
def insertProcess (procs : Addr → Process) (process : Addr) : List Addr → List Addr
  | [] => [process]
  | first :: rest => first :: (ProcTable.insertAfter procs process rest).1

/-- `create_process` and `add_process`; `kfork` sets `ppid` in between. -/
def add (s : WaitRun) (ppid : ℕ) : WaitRun :=
  let record : Process := ⟨ProcTable.firstFreePidFrom s.procs 0 s.processList, .initial, none⟩
  let procs := Function.update s.procs s.nextAddr record
  { s with
    procs := procs
    ppid := Function.update s.ppid s.nextAddr ppid
    processList := insertProcess procs s.nextAddr s.processList
    nextAddr := s.nextAddr + 1 }

/-! ### Runs -/

/-- What happens to the processes. -/
inductive Act
  | call (caller : Addr) (pid : ℤ)
  | pass (caller : Addr)
  | finish (caller : Addr)
  | exit (process : Addr) (status : ℤ)
  | add (ppid : ℕ)

/-- One step. -/
def step (s : WaitRun) : Act → Option WaitRun
  | .call caller pid => if s.Runs caller then some (s.call caller pid) else none
  | .pass caller => (s.waiting caller).bind fun w =>
      if w.ended then none else some (s.pass caller w)
  | .finish caller => (s.waiting caller).bind fun w =>
      if w.ended then s.finish caller w else none
  | .exit p status =>
      if p ∈ s.processList ∧ (s.procs p).status ≠ .exited then some (s.exit p status) else none
  | .add ppid => some (s.add ppid)

/-- The idle process, alone. -/
def start : WaitRun where
  procs := fun _ => ⟨0, .running, none⟩
  ppid := fun _ => 0
  exitStatus := fun _ => 0
  processList := [0]
  nextAddr := 1
  waiting := fun _ => none
  events := []

/-- **The process that is found is a child of the caller that nobody waits for**, and it has
been asked for by its pid. -/
def Ok (s : WaitRun) : Act → Prop
  | .call caller pid => pid ≠ (s.procs caller).pid → ∀ target, s.search caller pid = some target →
      pid ≠ -1 ∧ s.ppid target = (s.procs caller).pid ∧
        ∀ p w, s.waiting p = some w → w.target ≠ target
  | .pass _ | .finish _ | .exit _ _ | .add _ => True

/-- The runs whose steps all meet `ok`. -/
abbrev Run (ok : WaitRun → Act → Prop) : WaitRun → Prop :=
  Reach (fun s a s' => s.step a = some s') ok (· = start)

/-- No `e` has happened after an `e'`, the latest being first. -/
def NeverAfter (e e' : WaitEvent) : List WaitEvent → Prop
  | [] => True
  | x :: events => (x = e → e' ∉ events) ∧ NeverAfter e e' events

/-- **What waiting should be.** -/
structure Sound (s : WaitRun) : Prop where
  /-- A process is taken off the list at most once, -/
  unlinked_once : ∀ p, NeverAfter (.unlink p) (.unlink p) s.events
  /-- it is freed at most once, -/
  freed_once : ∀ p, NeverAfter (.free p) (.free p) s.events
  /-- and it is not used afterwards. -/
  used_before : ∀ p, NeverAfter (.use p) (.free p) s.events
  /-- A call that returns a pid returns that of a child that has exited, with its status. -/
  returned : ∀ caller pid status, .ret caller pid status ∈ s.events →
    ∃ child, (s.procs child).status = .exited ∧ ((s.procs child).pid : ℤ) = pid ∧
      s.ppid child = (s.procs caller).pid ∧ s.exitStatus child = status

/-! ### The invariant -/

/-- What holds of a call in its loop: it waits for a child that is on the list. -/
structure Waits (s : WaitRun) (p : Addr) (w : Wait) : Prop where
  mem : p ∈ s.processList
  alive : (s.procs p).status ≠ .exited
  target_mem : w.target ∈ s.processList
  target_pid : ((s.procs w.target).pid : ℤ) = w.pid
  target_ppid : s.ppid w.target = (s.procs p).pid
  pid_ne : w.pid ≠ -1
  ended : w.ended = true → (s.procs w.target).status = .exited

/-- **The invariant.** -/
structure Inv (s : WaitRun) : Prop where
  unlinked_once : ∀ p, NeverAfter (.unlink p) (.unlink p) s.events
  freed_once : ∀ p, NeverAfter (.free p) (.free p) s.events
  used_before : ∀ p, NeverAfter (.use p) (.free p) s.events
  nodup : s.processList.Nodup
  list_lt : ∀ p ∈ s.processList, p < s.nextAddr
  /-- What has been freed or taken off is not on the list, and never will be. -/
  unlinked : ∀ p, .unlink p ∈ s.events → p ∉ s.processList ∧ p < s.nextAddr
  freed : ∀ p, .free p ∈ s.events → p ∉ s.processList ∧ p < s.nextAddr
  returned : ∀ caller pid status, .ret caller pid status ∈ s.events → caller < s.nextAddr ∧
    ∃ child < s.nextAddr, (s.procs child).status = .exited ∧ ((s.procs child).pid : ℤ) = pid ∧
      s.ppid child = (s.procs caller).pid ∧ s.exitStatus child = status
  waits : ∀ p w, s.waiting p = some w → s.Waits p w
  /-- Nobody else waits for it. -/
  apart : ∀ p w q w', s.waiting p = some w → s.waiting q = some w' → w.target = w'.target → p = q

theorem Inv.sound {s : WaitRun} (h : s.Inv) : s.Sound where
  unlinked_once := h.unlinked_once
  freed_once := h.freed_once
  used_before := h.used_before
  returned := fun caller pid status hret => by
    obtain ⟨-, child, -, hchild⟩ := h.returned caller pid status hret
    exact ⟨child, hchild⟩

theorem mem_useUntil {found : Addr → Bool} {x : WaitEvent} {l : List Addr}
    (h : x ∈ useUntil found l) : ∃ p ∈ l, x = .use p := by
  induction l with
  | nil => simp [useUntil] at h
  | cons p l ih =>
    rw [useUntil] at h
    split_ifs at h
    · exact ⟨p, by simp, by simpa using h⟩
    · rcases List.mem_append.mp h with h | h
      · obtain ⟨q, hq, rfl⟩ := ih h
        exact ⟨q, List.mem_cons_of_mem p hq, rfl⟩
      · exact ⟨p, by simp, by simpa using h⟩

theorem notMem_of_unlink {target : Addr} {l l' : List Addr} (h : l.Nodup)
    (hl : ProcTable.unlink target l = some l') : target ∉ l' := by
  induction l generalizing l' with
  | nil => cases hl
  | cons a l ih =>
    obtain ⟨ha, hnodup⟩ := List.nodup_cons.mp h
    rw [ProcTable.unlink] at hl
    split_ifs at hl with hat
    · obtain rfl := Option.some.inj hl
      exact hat ▸ ha
    · obtain ⟨k, hk, rfl⟩ := Option.map_eq_some_iff.mp hl
      exact List.not_mem_cons_of_ne_of_not_mem (fun hc => hat hc.symm) (ih hnodup hk)

theorem NeverAfter.append {e e' : WaitEvent} {es events : List WaitEvent}
    (h : NeverAfter e e' events) (hes : e ∈ es → e' ∉ es ∧ e' ∉ events) :
    NeverAfter e e' (es ++ events) := by
  induction es with
  | nil => exact h
  | cons x es ih =>
    refine ⟨?_, ih fun he => ?_⟩
    · rintro rfl hmem
      obtain ⟨hnot, hevents⟩ := hes (by simp)
      exact (List.mem_append.mp hmem).elim (fun h => hnot (List.mem_cons_of_mem x h)) hevents
    · obtain ⟨hnot, hevents⟩ := hes (List.mem_cons_of_mem x he)
      exact ⟨fun h => hnot (List.mem_cons_of_mem x h), hevents⟩

variable {s s' : WaitRun} {a : Act} {caller : Addr} {w : Wait}

/-- Listed processes may be used. -/
theorem Inv.use {es : List WaitEvent} (h : s.Inv)
    (hes : ∀ x ∈ es, ∃ p ∈ s.processList, x = .use p) :
    ({ s with events := es ++ s.events } : WaitRun).Inv := by
  have hunlink : ∀ p, WaitEvent.unlink p ∉ es := fun p hp => by
    obtain ⟨q, -, hq⟩ := hes _ hp
    cases hq
  have hfree : ∀ p, WaitEvent.free p ∉ es := fun p hp => by
    obtain ⟨q, -, hq⟩ := hes _ hp
    cases hq
  have hret : ∀ caller pid status, WaitEvent.ret caller pid status ∉ es := fun _ _ _ hp => by
    obtain ⟨q, -, hq⟩ := hes _ hp
    cases hq
  have hmem : ∀ p, WaitEvent.use p ∈ es → p ∈ s.processList := fun p hp => by
    obtain ⟨q, hq, hpq⟩ := hes _ hp
    cases hpq
    exact hq
  exact
    { h with
      unlinked_once := fun p => (h.unlinked_once p).append fun hp => absurd hp (hunlink p)
      freed_once := fun p => (h.freed_once p).append fun hp => absurd hp (hfree p)
      used_before := fun p => (h.used_before p).append fun hp =>
        ⟨hfree p, fun hf => (h.freed p hf).1 (hmem p hp)⟩
      unlinked := fun p hp => h.unlinked p ((List.mem_append.mp hp).resolve_left (hunlink p))
      freed := fun p hp => h.freed p ((List.mem_append.mp hp).resolve_left (hfree p))
      returned := fun _ _ _ hp =>
        h.returned _ _ _ ((List.mem_append.mp hp).resolve_left (hret _ _ _))
      waits := fun p w hw => { h.waits p w hw with } }

/-- A process begins to wait, waits on, or waits no longer. -/
theorem Inv.setWaiting {o : Option Wait} (h : s.Inv) (ho : ∀ w, o = some w → s.Waits caller w ∧
    ∀ q w', q ≠ caller → s.waiting q = some w' → w'.target ≠ w.target) :
    ({ s with waiting := Function.update s.waiting caller o } : WaitRun).Inv := by
  have hother : ∀ p, p ≠ caller → Function.update s.waiting caller o p = s.waiting p :=
    fun p hp => Function.update_of_ne hp _ _
  refine { h with waits := fun p w hw => ?_, apart := fun p w q w' hw hw' heq => ?_ }
  · rcases eq_or_ne p caller with rfl | hp
    · exact { (ho w (Function.update_self p o s.waiting ▸ hw)).1 with }
    · exact { h.waits p w (hother p hp ▸ hw) with }
  · by_contra hne
    rcases eq_or_ne p caller with rfl | hp
    · exact (ho w (Function.update_self p o s.waiting ▸ hw)).2 q w' (Ne.symm hne)
        (hother q (Ne.symm hne) ▸ hw') heq.symm
    · rcases eq_or_ne q caller with rfl | hq
      · exact (ho w' (Function.update_self q o s.waiting ▸ hw')).2 p w hp (hother p hp ▸ hw) heq
      · exact hne (h.apart p w q w' (hother p hp ▸ hw) (hother q hq ▸ hw') heq)

/-- The caller is no longer in its loop. -/
theorem Inv.leave (h : s.Inv) (caller : Addr) :
    ({ s with waiting := Function.update s.waiting caller none } : WaitRun).Inv :=
  h.setWaiting fun w hw => absurd hw.symm (Option.some_ne_none w)

theorem Inv.call {pid : ℤ} (h : s.Inv) (hruns : s.Runs caller) (hok : s.Ok (.call caller pid)) :
    (s.call caller pid).Inv := by
  rw [WaitRun.call]
  by_cases hself : pid = (s.procs caller).pid
  · rwa [if_pos hself]
  rw [if_neg hself]
  refine (h.use fun x hx => mem_useUntil hx).setWaiting fun w hw => ?_
  obtain ⟨target, hfound, rfl⟩ := Option.map_eq_some_iff.mp hw
  obtain ⟨hpid, hppid, hother⟩ := hok hself target hfound
  have hmatch : s.Matches caller pid target :=
    of_decide_eq_true (List.find?_some (p := fun q => decide (s.Matches caller pid q)) hfound)
  rw [Matches, if_neg hpid] at hmatch
  refine ⟨⟨hruns.1, hruns.2.1, List.mem_of_find?_eq_some hfound, hmatch, hppid, hpid, ?_⟩,
    fun q w' _ hw' => hother q w' hw'⟩
  exact fun hended => absurd hended Bool.false_ne_true

theorem Inv.pass (h : s.Inv) (hw : s.waiting caller = some w) : (s.pass caller w).Inv := by
  have hwaits := h.waits caller w hw
  have huse : ∀ x ∈ [WaitEvent.use w.target], ∃ p ∈ s.processList, x = .use p := fun x hx =>
    ⟨w.target, hwaits.target_mem, List.mem_singleton.mp hx⟩
  refine (h.use huse).setWaiting fun v hv => ?_
  obtain rfl := Option.some.inj hv
  exact ⟨{ hwaits with ended := of_decide_eq_true },
    fun q w' hq hw' heq => hq (h.apart q w' caller w hw' hw heq)⟩

/-- A process that has exited and for which nobody waits leaves the list and is freed. -/
theorem Inv.release {target : Addr} {l : List Addr} (h : s.Inv) (ht : target ∈ s.processList)
    (hexited : (s.procs target).status = .exited)
    (hnone : ∀ p w, s.waiting p = some w → w.target ≠ target) (hcaller : caller ∈ s.processList)
    (hppid : s.ppid target = (s.procs caller).pid)
    (hl : ProcTable.unlink target s.processList = some l) :
    ({ s with
      processList := l
      events := .ret caller (s.procs target).pid (s.exitStatus target) :: .free target ::
        .unlink target :: s.events } : WaitRun).Inv := by
  obtain ⟨hsub, hkeep⟩ := ProcTable.mem_unlink hl
  have hnot : target ∉ l := notMem_of_unlink h.nodup hl
  have hlive : WaitEvent.unlink target ∉ s.events ∧ WaitEvent.free target ∉ s.events :=
    ⟨fun hc => (h.unlinked target hc).1 ht, fun hc => (h.freed target hc).1 ht⟩
  refine
    { unlinked_once := fun p => ⟨nofun, nofun, ?_, h.unlinked_once p⟩
      freed_once := fun p => ⟨nofun, ?_, nofun, h.freed_once p⟩
      used_before := fun p => ⟨nofun, nofun, nofun, h.used_before p⟩
      nodup := h.nodup.sublist (ProcTable.sublist_of_unlink hl)
      list_lt := fun p hp => h.list_lt p (hsub p hp)
      unlinked := fun p hp => ?_
      freed := fun p hp => ?_
      returned := fun c pid status hret => ?_
      waits := fun p w hw => ?_
      apart := h.apart }
  -- an event in front of the others is one of the three new ones
  · rintro ⟨rfl⟩
    exact hlive.1
  · rintro ⟨rfl⟩
    simpa using hlive.2
  · rcases List.mem_cons.mp hp with hp | hp
    · cases hp
    rcases List.mem_cons.mp hp with hp | hp
    · cases hp
    rcases List.mem_cons.mp hp with hp | hp
    · cases hp
      exact ⟨hnot, h.list_lt target ht⟩
    · exact ⟨fun hc => (h.unlinked p hp).1 (hsub p hc), (h.unlinked p hp).2⟩
  · rcases List.mem_cons.mp hp with hp | hp
    · cases hp
    rcases List.mem_cons.mp hp with hp | hp
    · cases hp
      exact ⟨hnot, h.list_lt target ht⟩
    rcases List.mem_cons.mp hp with hp | hp
    · cases hp
    · exact ⟨fun hc => (h.freed p hp).1 (hsub p hc), (h.freed p hp).2⟩
  · rcases List.mem_cons.mp hret with hret | hret
    · cases hret
      exact ⟨h.list_lt caller hcaller, target, h.list_lt target ht, hexited, rfl, hppid, rfl⟩
    · exact h.returned c pid status (by simpa using hret)
  · have hwaits := h.waits p w hw
    have hp : p ≠ target := fun hc => hwaits.alive (hc ▸ hexited)
    exact { hwaits with
      mem := hkeep p hwaits.mem hp
      target_mem := hkeep w.target hwaits.target_mem (hnone p w hw) }

theorem Inv.finish (h : s.Inv) (hw : s.waiting caller = some w) (hended : w.ended = true)
    (hs : s.finish caller w = some s') : s'.Inv := by
  have hwaits := h.waits caller w hw
  obtain ⟨l, hl, rfl⟩ := Option.map_eq_some_iff.mp hs
  rw [if_neg hwaits.pid_ne, if_neg hwaits.pid_ne, ← hwaits.target_pid]
  have huse : ∀ x ∈ useUntil (· == w.target) s.processList ++ [.use w.target],
      ∃ p ∈ s.processList, x = .use p := fun x hx =>
    (List.mem_append.mp hx).elim mem_useUntil fun hx =>
      ⟨w.target, hwaits.target_mem, List.mem_singleton.mp hx⟩
  have hfree := ((h.use huse).leave caller).release
    hwaits.target_mem (hwaits.ended hended) ?_ hwaits.mem hwaits.target_ppid hl
  · simpa [List.append_assoc] using hfree
  · -- the caller was the only one that waited for it
    intro p v hv heq
    rcases eq_or_ne p caller with rfl | hp
    · exact Option.some_ne_none v (hv.symm.trans (Function.update_self p none s.waiting))
    · exact hp (h.apart p v caller w ((Function.update_of_ne hp _ _).symm.trans hv) hw heq)

theorem Inv.exit {p : Addr} {status : ℤ} (h : s.Inv) (hp : (s.procs p).status ≠ .exited) :
    (s.exit p status).Inv := by
  have h' := h.leave p
  have hpid : ∀ q, ((s.exit p status).procs q).pid = (s.procs q).pid := fun q => by
    rcases eq_or_ne q p with rfl | hq
    · simp [WaitRun.exit]
    · simp [WaitRun.exit, hq]
  have hprocs : ∀ q, q ≠ p → (s.exit p status).procs q = s.procs q := fun q hq =>
    Function.update_of_ne hq _ _
  have hexited : ∀ q, (s.procs q).status = .exited →
      ((s.exit p status).procs q).status = .exited := fun q hq => by
    rwa [hprocs q fun hc => hp (hc ▸ hq)]
  refine { h' with
    returned := fun c pid code hret => ?_
    waits := fun q w hw => ?_ }
  · obtain ⟨hlt, child, hchild, hex, hcpid, hppid, hstatus⟩ := h.returned c pid code hret
    have hne : child ≠ p := fun hc => hp (hc ▸ hex)
    refine ⟨hlt, child, hchild, hexited child hex, (hpid child).symm ▸ hcpid,
      (hpid c).symm ▸ hppid, ?_⟩
    exact (Function.update_of_ne hne _ _).trans hstatus
  · have hwaits := h'.waits q w hw
    have hq : q ≠ p := by
      rintro rfl
      have hnone : (s.exit q status).waiting q = none := by simp [WaitRun.exit]
      exact Option.some_ne_none w (hw.symm.trans hnone)
    exact {
      mem := hwaits.mem
      alive := (hprocs q hq).symm ▸ hwaits.alive
      target_mem := hwaits.target_mem
      target_pid := (hpid w.target).symm ▸ hwaits.target_pid
      target_ppid := (hpid q).symm ▸ hwaits.target_ppid
      pid_ne := hwaits.pid_ne
      ended := fun hended => hexited w.target (hwaits.ended hended) }

theorem mem_insertProcess {procs : Addr → Process} {process p : Addr} {l : List Addr} :
    p ∈ insertProcess procs process l ↔ p = process ∨ p ∈ l := by
  cases l with
  | nil => simp [insertProcess]
  | cons first rest =>
    rw [insertProcess, List.mem_cons, (ProcTable.insertAfter_spec procs process rest).1,
      List.mem_cons, or_left_comm]

theorem nodup_insertAfter {procs : Addr → Process} {process : Addr} {l : List Addr}
    (h : l.Nodup) (hp : process ∉ l) : (ProcTable.insertAfter procs process l).1.Nodup := by
  induction l with
  | nil => exact List.nodup_singleton process
  | cons a l ih =>
    obtain ⟨ha, hl⟩ := List.nodup_cons.mp h
    obtain ⟨hne, hpl⟩ := List.ne_and_not_mem_of_not_mem_cons hp
    rw [ProcTable.insertAfter]
    split_ifs with hlt
    · exact List.nodup_cons.mpr ⟨List.not_mem_cons_of_ne_of_not_mem hne.symm ha,
        List.nodup_cons.mpr ⟨hpl, hl⟩⟩
    · refine List.nodup_cons.mpr ⟨?_, ih hl hpl⟩
      rw [(ProcTable.insertAfter_spec procs process l).1]
      exact fun hc => hc.elim hne.symm ha

theorem nodup_insertProcess {procs : Addr → Process} {process : Addr} {l : List Addr}
    (h : l.Nodup) (hp : process ∉ l) : (insertProcess procs process l).Nodup := by
  cases l with
  | nil => exact List.nodup_singleton process
  | cons first rest =>
    obtain ⟨hfirst, hrest⟩ := List.nodup_cons.mp h
    obtain ⟨hne, hpl⟩ := List.ne_and_not_mem_of_not_mem_cons hp
    refine List.nodup_cons.mpr ⟨?_, nodup_insertAfter hrest hpl⟩
    rw [(ProcTable.insertAfter_spec procs process rest).1]
    exact fun hc => hc.elim hne.symm hfirst

theorem Inv.add {ppid : ℕ} (h : s.Inv) : (s.add ppid).Inv := by
  have hprocs : ∀ q, q < s.nextAddr → (s.add ppid).procs q = s.procs q := fun q hq =>
    Function.update_of_ne (Nat.ne_of_lt hq) _ _
  have hppid : ∀ q, q < s.nextAddr → (s.add ppid).ppid q = s.ppid q := fun q hq =>
    Function.update_of_ne (Nat.ne_of_lt hq) _ _
  have hmem : ∀ q, q ∈ (s.add ppid).processList ↔ q = s.nextAddr ∨ q ∈ s.processList :=
    fun q => mem_insertProcess
  have hlt : ∀ q, q < s.nextAddr → q < (s.add ppid).nextAddr := fun q hq => Nat.lt_succ_of_lt hq
  refine { h with
    nodup := nodup_insertProcess h.nodup fun hc => (h.list_lt s.nextAddr hc).false
    list_lt := fun q hq => ?_
    unlinked := fun q hq => ?_
    freed := fun q hq => ?_
    returned := fun c pid status hret => ?_
    waits := fun p w hw => ?_ }
  · rcases (hmem q).mp hq with rfl | hq
    · exact Nat.lt_succ_self s.nextAddr
    · exact hlt q (h.list_lt q hq)
  · obtain ⟨hnot, hq⟩ := h.unlinked q hq
    exact ⟨fun hc => ((hmem q).mp hc).elim (Nat.ne_of_lt hq) hnot, hlt q hq⟩
  · obtain ⟨hnot, hq⟩ := h.freed q hq
    exact ⟨fun hc => ((hmem q).mp hc).elim (Nat.ne_of_lt hq) hnot, hlt q hq⟩
  · obtain ⟨hc, child, hchild, hex, hpid, hparent, hstatus⟩ := h.returned c pid status hret
    refine ⟨hlt c hc, child, hlt child hchild, ?_⟩
    rw [hprocs child hchild, hprocs c hc, hppid child hchild]
    exact ⟨hex, hpid, hparent, hstatus⟩
  · have hwaits := h.waits p w hw
    have hp := h.list_lt p hwaits.mem
    have ht := h.list_lt w.target hwaits.target_mem
    exact {
      mem := (hmem p).mpr (Or.inr hwaits.mem)
      alive := by rw [hprocs p hp]; exact hwaits.alive
      target_mem := (hmem w.target).mpr (Or.inr hwaits.target_mem)
      target_pid := by rw [hprocs w.target ht]; exact hwaits.target_pid
      target_ppid := by rw [hppid w.target ht, hprocs p hp]; exact hwaits.target_ppid
      pid_ne := hwaits.pid_ne
      ended := by rw [hprocs w.target ht]; exact hwaits.ended }

/-- **The step lemma.** -/
theorem Inv.step (h : s.Inv) (hok : s.Ok a) (hs : s.step a = some s') : s'.Inv := by
  cases a with
  | call caller pid =>
    obtain ⟨hruns, hs⟩ := Option.ite_none_right_eq_some.mp hs
    obtain rfl := Option.some.inj hs
    exact h.call hruns hok
  | pass caller =>
    obtain ⟨w, hw, hs⟩ := Option.bind_eq_some_iff.mp hs
    obtain ⟨-, hs⟩ := Option.ite_none_left_eq_some.mp hs
    obtain rfl := Option.some.inj hs
    exact h.pass hw
  | finish caller =>
    obtain ⟨w, hw, hs⟩ := Option.bind_eq_some_iff.mp hs
    obtain ⟨hended, hs⟩ := Option.ite_none_right_eq_some.mp hs
    exact h.finish hw hended hs
  | exit p status =>
    obtain ⟨hp, hs⟩ := Option.ite_none_right_eq_some.mp hs
    obtain rfl := Option.some.inj hs
    exact h.exit hp.2
  | add ppid =>
    obtain rfl := Option.some.inj hs
    exact h.add

theorem inv_start : start.Inv where
  unlinked_once := fun _ => trivial
  freed_once := fun _ => trivial
  used_before := fun _ => trivial
  nodup := List.nodup_singleton 0
  list_lt := fun p hp => by
    rw [List.mem_singleton.mp hp]
    exact Nat.one_pos
  unlinked := fun p hp => absurd hp List.not_mem_nil
  freed := fun p hp => absurd hp List.not_mem_nil
  returned := fun _ _ _ hp => absurd hp List.not_mem_nil
  waits := fun p w hw => absurd hw.symm (Option.some_ne_none w)
  apart := fun p w _ _ hw => absurd hw.symm (Option.some_ne_none w)

/-- **The run lemma.** -/
theorem inv_of_reach (h : Run Ok s) : s.Inv := by
  refine Reach.invariant (P := Inv) ?_ (fun _ _ _ h hok hs => h.step hok hs) h
  rintro _ rfl
  exact inv_start

/-- **Waiting is sound** in a run in which each process that is waited for is a child of the
caller, for which nobody else waits and which has been asked for by its pid. -/
theorem waiting_sound (h : Run Ok s) : s.Sound := (inv_of_reach h).sound

/-- The first process has a child, and waits for it by its pid. -/
theorem waiting_sound_child : ∃ s : WaitRun, .ret 0 1 7 ∈ s.events ∧ s.Sound := by
  have hstart : Run Ok start := .init rfl
  have hadd := hstart.step (a := Act.add 0) trivial rfl
  have hok : (start.add 0).Ok (.call 0 1) := fun _ target hfound => by
    obtain rfl : 1 = target := Option.some.inj hfound
    exact ⟨by decide, rfl, fun p w hw => absurd hw.symm (Option.some_ne_none w)⟩
  have hcall := hadd.step (a := Act.call 0 1) hok rfl
  have hexit := hcall.step (a := Act.exit 1 7) trivial rfl
  have hpass := hexit.step (a := Act.pass 0) trivial rfl
  have hfinish := hpass.step (a := Act.finish 0) trivial rfl
  exact ⟨_, List.mem_cons_self, waiting_sound hfinish⟩

/-- With -1 in place of the pid it reads what it has freed. -/
theorem exists_reach_not_waiting_sound : ∃ s, Run anyStep s ∧ ¬s.Sound := by
  have hstart : Run anyStep start := .init rfl
  have hadd := hstart.step (a := Act.add 0) trivial rfl
  have hchild := hadd.step (a := Act.add 1) trivial rfl
  have hcall := hchild.step (a := Act.call 1 (-1)) trivial rfl
  have hexit := hcall.step (a := Act.exit 2 7) trivial rfl
  have hpass := hexit.step (a := Act.pass 1) trivial rfl
  have hfinish := hpass.step (a := Act.finish 1) trivial rfl
  refine ⟨_, hfinish, fun hsound => ?_⟩
  obtain ⟨-, huse, -⟩ := hsound.used_before 2
  exact huse rfl List.mem_cons_self

end WaitRun

end Xana
