import Xana.Filesystem.Descriptors
import Xana.Memory.Spaces
import Xana.Process.Kernel
import Xana.Process.PidOrder

/-!
# What a child has of its parent

`kfork` puts a child together from a copy of the address space, copies of the regions and
the descriptors, and fields that `create_process` or `kfork` assigns. A field that neither
assigns is what the block held before.
-/

namespace Xana

namespace Kernel

open Chain

variable {σ : Type}

/-- The `next` fields of regions. -/
def nextRegion (s : Kernel σ) (a : Addr) : Option Addr := (s.regions a).next

/-- The other fields of a region. -/
def regionAt (s : Kernel σ) (a : Addr) : ℕ × ℕ × ℕ :=
  ((s.regions a).start, (s.regions a).endAddr, (s.regions a).flags)

/-- **The regions of a process**, in list order. -/
def regionList (s : Kernel σ) (p : Addr) : List (ℕ × ℕ × ℕ) :=
  (Chain.collect s.nextRegion s.fuel (s.fields p).memoryRegions).map s.regionAt

/-- **The invariant of the kernel between two calls.** `L` and `R` have the nodes of the
descriptor tables and of the lists of regions. -/
structure Inv (s : Kernel σ) (roots : List ℕ) (L R : ℕ → List Addr) : Prop where
  machine : MachineInv roots s.machine
  directory : ∀ p ∈ s.files.procs,
    (s.fields p).pml4 = s.machine.kernelPml4 ∨ (s.fields p).pml4 ∈ roots
  pages : ∀ p ∈ s.files.procs, UserPages s.machine (s.fields p).pml4
  current : s.currentProcess ∈ s.files.procs
  currentPml4 : s.currentPml4 = (s.fields s.currentProcess).pml4
  inUse : ∀ p ∈ s.files.procs, InUse s.machine p
  listed : ∀ p ∈ s.table.processList, p ∈ s.files.procs
  regions : ∀ p ∈ s.files.procs, Seg s.nextRegion (s.fields p).memoryRegions (R p) none
  regionLive : ∀ p ∈ s.files.procs, ∀ a ∈ R p, ∃ u ∈ s.machine.live, u.ptr = a
  files : s.files.Tables L

section Copying

variable {s s' : Kernel σ} {roots : List ℕ} {k n size : ℕ} {a b : Addr} {p r : Option Addr}
variable {src : FrameSource} {M rest : List Addr}

/-- A call of `kmalloc` changes the machine only. -/
theorem kmalloc_eq (h : s.kmalloc src n size = some (a, s')) :
    Xana.kmallocInt src n s.machine size false = some (a, s'.machine) ∧
      s' = s.setMachine s'.machine := by
  simp only [kmalloc, Option.bind_eq_bind, Option.bind_eq_some_iff, Option.pure_def,
    Option.some.injEq, Prod.mk.injEq] at h
  obtain ⟨⟨a', m⟩, hm, rfl, rfl⟩ := h
  exact ⟨hm, rfl⟩

theorem appendRegion_eq {newRegions newCurrent : Option Addr}
    (h : s.appendRegion newRegions newCurrent a = some (r, s')) :
    s' = { s with regions := s'.regions } := by
  cases newRegions with
  | none =>
    obtain ⟨-, rfl⟩ := Prod.mk.inj (Option.some.inj h)
    rfl
  | some first =>
    simp only [appendRegion, Option.bind_eq_bind, Option.bind_eq_some_iff, Option.pure_def,
      Option.some.injEq, Prod.mk.injEq] at h
    obtain ⟨last, -, -, rfl⟩ := h
    rfl

theorem grown_copyRegions {old newRegions newCurrent : Option Addr} (hk : s.machine.kheap ≠ 0)
    (h : copyRegions src n k old newRegions newCurrent s = some (r, s')) :
    Grown s.machine s'.machine := by
  induction k generalizing s old newRegions newCurrent with
  | zero => simp [copyRegions] at h
  | succ k ih =>
    cases old with
    | none =>
      obtain ⟨-, rfl⟩ := Prod.mk.inj (Option.some.inj h)
      exact Grown.refl _
    | some old =>
      simp only [copyRegions, Option.bind_eq_bind, Option.bind_eq_some_iff] at h
      obtain ⟨⟨new, s₁⟩, hnew, ⟨newRegions', s₂⟩, happ, h⟩ := h
      obtain ⟨hcall, -⟩ := kmalloc_eq hnew
      have hg : Grown s.machine s₁.machine := grown_kmallocInt hk hcall
      have hm : s₂.machine = s₁.machine := by
        rw [appendRegion_eq happ]
        rfl
      rw [← hm] at hg
      exact hg.trans (ih (by rwa [hg.kheap]) h)

/-- Fields of a region that are not its link. -/
theorem regionAt_setRegion_next (x : Option Addr) :
    (s.setRegion a { s.regions a with next := x }).regionAt = s.regionAt := by
  funext c
  rcases eq_or_ne c a with rfl | hc
  · simp [regionAt, setRegion]
  · simp [regionAt, setRegion, hc]

theorem nextRegion_setRegion (x : MemRegion) :
    (s.setRegion a x).nextRegion = Function.update s.nextRegion a x.next := by
  funext c
  rcases eq_or_ne c a with rfl | hc
  · simp [nextRegion, setRegion]
  · simp [nextRegion, setRegion, hc]

/-- **The new node is linked behind the ones before**, whichever way. -/
theorem appendRegion_spec {newRegions : Option Addr} (hM : Seg s.nextRegion newRegions M none)
    (ha : a ∉ M) (hnil : s.nextRegion a = none)
    (h : s.appendRegion newRegions M.getLast? a = some (r, s')) :
    Seg s'.nextRegion r (M ++ [a]) none ∧ s'.regionAt = s.regionAt ∧
      ∀ b, b ∉ M → s'.regions b = s.regions b := by
  rcases M.eq_nil_or_concat' with rfl | ⟨M, c, rfl⟩
  · obtain rfl : newRegions = none := hM
    obtain ⟨rfl, rfl⟩ := Prod.mk.inj (Option.some.inj h)
    exact ⟨⟨rfl, hnil⟩, rfl, fun _ _ => rfl⟩
  · cases newRegions with
    | none => exact absurd hM.head_eq (by simp)
    | some first =>
      rw [List.getLast?_concat] at h
      obtain ⟨rfl, rfl⟩ := Prod.mk.inj (Option.some.inj h)
      refine ⟨?_, regionAt_setRegion_next _, ?_⟩
      · rw [nextRegion_setRegion]
        exact hM.append_node hnil fun hc => ha (by simp [hc])
      · intro b hb
        exact Function.update_of_ne (fun hc => hb (by simp [hc])) _ _

/-- **One round of the loop of `kfork` over the regions**: a new node has the contents of the
old one and is the last of the new list. -/
theorem copyRegion_spec {newRegions : Option Addr} {s₁ : Kernel σ} {c new : Addr}
    (hinv : MachineInv roots s.machine) (hM : Seg s.nextRegion newRegions M none)
    (huse : ∀ a ∈ M, InUse s.machine a)
    (hwrap : s₁.machine.kheapEnd + 0xFFF + memRegionSize < 2 ^ 64)
    (hnew : s.kmalloc src n memRegionSize = some (new, s₁))
    (happ : (s₁.setRegion new { s₁.regions c with next := none }).appendRegion newRegions
      M.getLast? new = some (r, s')) :
    Allocated roots s.machine s'.machine ⟨new, memRegionSize, false⟩ ∧
      Seg s'.nextRegion r (M ++ [new]) none ∧ s'.regionAt new = s.regionAt c ∧
      (∀ b, InUse s.machine b → s'.regionAt b = s.regionAt b) ∧
      (∀ b, InUse s.machine b → b ∉ M → s'.regions b = s.regions b) ∧
      s' = { s with machine := s'.machine, regions := s'.regions } := by
  obtain ⟨hcall, hs₁⟩ := kmalloc_eq hnew
  have happ' := appendRegion_eq happ
  have hm : s'.machine = s₁.machine := by
    rw [happ']
    rfl
  -- the new node comes from the heap, so it is none of the nodes in use
  have halloc : Allocated roots s.machine s₁.machine ⟨new, memRegionSize, false⟩ :=
    hinv.kmallocInt (by decide) hwrap hcall
  have hregions₁ : s₁.regions = s.regions := by rw [hs₁]; rfl
  have hnotM : new ∉ M := fun hc => halloc.new (huse new hc)
  have hnext₁ : (s₁.setRegion new { s₁.regions c with next := none }).nextRegion =
      Function.update s.nextRegion new none := by
    have hnext₁ : s₁.nextRegion = s.nextRegion := by
      funext b
      rw [nextRegion, nextRegion, hregions₁]
    rw [nextRegion_setRegion, hnext₁]
  -- it is linked behind the nodes that are there
  have happM : Seg s'.nextRegion r (M ++ [new]) none ∧
      s'.regionAt = (s₁.setRegion new { s₁.regions c with next := none }).regionAt ∧
      ∀ b, b ∉ M → s'.regions b =
        (s₁.setRegion new { s₁.regions c with next := none }).regions b := by
    refine appendRegion_spec ?_ hnotM ?_ happ
    · rw [hnext₁]
      exact (seg_update_of_notMem hnotM).mpr hM
    · rw [hnext₁]
      exact Function.update_self _ _ _
  obtain ⟨hseg, hat, hkeep⟩ := happM
  refine ⟨by rwa [hm], hseg, ?_, fun b hb => ?_, fun b hb hbM => ?_, ?_⟩
  · rw [hat]
    simp [regionAt, setRegion, hregions₁]
  · rw [hat, regionAt, regionAt, ← hregions₁]
    have hset : (s₁.setRegion new { s₁.regions c with next := none }).regions b =
        s₁.regions b := Function.update_of_ne (halloc.ne hb) _ _
    rw [hset]
  · rw [hkeep b hbM, ← hregions₁]
    exact Function.update_of_ne (halloc.ne hb) _ _
  · rw [happ', hs₁]
    rfl

/-- **What the loop of `kfork` over the regions does**: it builds a list of new nodes with the
contents of the old ones. -/
theorem copyRegions_spec {old newRegions : Option Addr} (hinv : MachineInv roots s.machine)
    (hold : Seg s.nextRegion old rest none) (hrest : ∀ a ∈ rest, InUse s.machine a)
    (hM : Seg s.nextRegion newRegions M none) (huse : ∀ a ∈ M, InUse s.machine a)
    (hdisj : ∀ a ∈ rest, a ∉ M) (hwrap : s'.machine.kheapEnd + 0xFFF + memRegionSize < 2 ^ 64)
    (h : copyRegions src n k old newRegions M.getLast? s = some (r, s')) :
    ∃ M', Seg s'.nextRegion r (M ++ M') none ∧ M'.map s'.regionAt = rest.map s.regionAt ∧
      (∀ a ∈ M', (∃ u ∈ s'.machine.live, u.ptr = a) ∧ ¬InUse s.machine a) ∧
      (∀ a, InUse s.machine a → s'.regionAt a = s.regionAt a) ∧
      (∀ a, InUse s.machine a → a ∉ M → s'.regions a = s.regions a) ∧
      Extended roots s.machine s'.machine ∧
      s' = { s with machine := s'.machine, regions := s'.regions } := by
  induction rest generalizing s old newRegions M k with
  | nil =>
    obtain rfl : old = none := hold
    cases k with
    | zero => simp [copyRegions] at h
    | succ k =>
      obtain ⟨rfl, rfl⟩ := Prod.mk.inj (Option.some.inj h)
      refine ⟨[], by simpa using hM, rfl, by simp, fun _ _ => rfl, fun _ _ _ => rfl,
        .refl hinv, rfl⟩
  | cons c rest ih =>
    obtain ⟨rfl, hold⟩ := hold
    cases k with
    | zero => simp [copyRegions] at h
    | succ k =>
      simp only [copyRegions, Option.bind_eq_bind, Option.bind_eq_some_iff] at h
      obtain ⟨⟨new, s₁⟩, hnew, ⟨newRegions', s₂⟩, happ, h⟩ := h
      simp only at happ h
      have hm : s₂.machine = s₁.machine := by
        rw [appendRegion_eq happ]
        rfl
      obtain ⟨l, hheap⟩ := hinv.heap
      have hg : Grown s.machine s₁.machine :=
        grown_kmallocInt hheap.kheap_pos.ne' (kmalloc_eq hnew).1
      have hg₂ : Grown s₂.machine s'.machine := by
        refine grown_copyRegions ?_ h
        rw [hm, hg.kheap]
        exact hheap.kheap_pos.ne'
      have hle := hg₂.le
      rw [hm] at hle
      obtain ⟨halloc, hseg₂, hatnew, hat, hkeep, hs₂⟩ :=
        copyRegion_spec hinv hM huse (by omega) hnew happ
      have hext₂ := halloc.extended
      have hnext : ∀ b ∈ c :: rest, s.nextRegion b = s₂.nextRegion b := by
        intro b hb
        simp only [nextRegion, hkeep b (hrest b hb) (hdisj b hb)]
      have hlast : some new = (M ++ [new]).getLast? := by simp
      rw [hlast] at h
      -- the rest of the old list is as it was, and the new list has grown by one
      have hresult := by
        refine ih (s := s₂) hext₂.inv ?_ ?_ hseg₂ ?_ ?_ h
        · have hc := hnext c List.mem_cons_self
          rw [nextRegion, nextRegion] at hc
          rw [← hc]
          exact (seg_congr fun b hb => hnext b (List.mem_cons_of_mem c hb)).mp hold
        · exact fun b hb => hext₂.inUse (hrest b (List.mem_cons_of_mem c hb))
        · intro b hb
          rcases List.mem_append.mp hb with hb | hb
          · exact hext₂.inUse (huse b hb)
          · rw [List.mem_singleton.mp hb]
            exact halloc.inUse
        · intro b hb hc
          have hbc := hrest b (List.mem_cons_of_mem c hb)
          rcases List.mem_append.mp hc with hc | hc
          · exact hdisj b (List.mem_cons_of_mem c hb) hc
          · exact halloc.ne hbc (List.mem_singleton.mp hc)
      obtain ⟨M', hseg, hmap, hlive, hat', hkeep', hext, hs'⟩ := hresult
      refine ⟨new :: M', ?_, ?_, ?_, ?_, ?_, hext₂.trans hext, ?_⟩
      · rw [List.append_cons]
        exact hseg
      · rw [List.map_cons, List.map_cons, hmap, hat' new halloc.inUse, hatnew]
        congr 1
        exact List.map_congr_left fun b hb => hat b (hrest b (List.mem_cons_of_mem c hb))
      · intro b hb
        rcases List.mem_cons.mp hb with rfl | hb
        · exact ⟨⟨⟨b, memRegionSize, false⟩, hext.live halloc.mem, rfl⟩, halloc.new⟩
        · exact ⟨(hlive b hb).1, fun hc => (hlive b hb).2 (hext₂.inUse hc)⟩
      · exact fun b hb => (hat' b (hext₂.inUse hb)).trans (hat b hb)
      · intro b hb hbM
        rw [hkeep' b (hext₂.inUse hb) ?_, hkeep b hb hbM]
        intro hc
        rcases List.mem_append.mp hc with hc | hc
        · exact hbM hc
        · exact halloc.ne hb (List.mem_singleton.mp hc)
      · rw [hs', hs₂]

/-! ### The new process -/

/-- What `create_process` assigns to a block whose fields are `f`, if the process has its stack. -/
def created (f : ProcessFields) (entry stack pml4 tssStack syscallStack : ℕ)
    (regions : Option Addr) : ProcessFields :=
  { f with
    entry := entry
    pml4 := pml4
    tssStack := tssStack
    syscallStack := syscallStack
    inSignalHandler := false
    queuedSignals := 0
    signalHandlers := clearHandlers f.signalHandlers
    pwd := [47]
    memoryRegions := regions
    rsp := stack
    rbp := stack }

/-- `create_process` taken apart, for a process that has its stack. -/
theorem createProcess_eq {entry stack pml4 : ℕ} {regions : Option Addr}
    (h : s.createProcess src n entry stack pml4 true regions = some (a, s')) :
    ∃ m₁ m₂ tssStack syscallStack,
      Xana.kmallocInt src n s.machine processSize false = some (a, m₁) ∧
      Xana.kmallocInt src n m₁ syscallStackSize false = some (tssStack, m₂) ∧
      Xana.kmallocInt src n m₂ syscallStackSize false = some (syscallStack, s'.machine) ∧
      s' = { s with
        machine := s'.machine
        table := { s.table with
          procs := Function.update s.table.procs a ⟨s.table.firstFreePid, .initial, none⟩ }
        fields := Function.update s.fields a
          (created (s.fields a) entry stack pml4 tssStack syscallStack regions)
        files := s.files.setHead a none } := by
  simp only [createProcess, if_true, Option.bind_eq_bind, Option.bind_eq_some_iff, Option.pure_def,
    Option.some.injEq, Prod.mk.injEq] at h
  obtain ⟨⟨new, s₁⟩, h₁, ⟨tssStack, s₂⟩, h₂, ⟨syscallStack, s₃⟩, h₃, rfl, hs'⟩ := h
  simp only at h₂ h₃ hs'
  obtain ⟨hc₁, hs₁⟩ := kmalloc_eq h₁
  obtain ⟨hc₂, hs₂⟩ := kmalloc_eq h₂
  obtain ⟨hc₃, hs₃⟩ := kmalloc_eq h₃
  have hm : s'.machine = s₃.machine := by
    rw [← hs']
    rfl
  refine ⟨s₁.machine, s₂.machine, tssStack, syscallStack, hc₁, hc₂, by rwa [hm], ?_⟩
  rw [← hs', hs₃, hs₂, hs₁]
  simp only [setFields, setProcess, setMachine, Fs.setHead, Function.update_idem,
    Function.update_self]
  rfl

theorem grown_createProcess {entry stack pml4 : ℕ} {regions : Option Addr}
    (hk : s.machine.kheap ≠ 0)
    (h : s.createProcess src n entry stack pml4 true regions = some (a, s')) :
    Grown s.machine s'.machine := by
  obtain ⟨m₁, m₂, _, _, h₁, h₂, h₃, -⟩ := createProcess_eq h
  have hg₁ := grown_kmallocInt hk h₁
  have hk₁ : m₁.kheap ≠ 0 := by rwa [hg₁.kheap]
  have hg₂ := grown_kmallocInt hk₁ h₂
  exact hg₁.trans (hg₂.trans (grown_kmallocInt (by rwa [hg₂.kheap]) h₃))

/-- **What `create_process` does to the memory**: the block of the new process is new. -/
theorem createProcess_alloc {entry stack pml4 : ℕ} {regions : Option Addr}
    (hinv : MachineInv roots s.machine) (hwrap : s'.machine.kheapEnd + 0xFFF + processSize < 2 ^ 64)
    (h : s.createProcess src n entry stack pml4 true regions = some (a, s')) :
    Extended roots s.machine s'.machine ∧ ¬InUse s.machine a := by
  obtain ⟨m₁, m₂, _, _, h₁, h₂, h₃, -⟩ := createProcess_eq h
  obtain ⟨l, hheap⟩ := hinv.heap
  have hg₁ := grown_kmallocInt hheap.kheap_pos.ne' h₁
  have hk₁ : m₁.kheap ≠ 0 := by
    rw [hg₁.kheap]
    exact hheap.kheap_pos.ne'
  have hg₂ := grown_kmallocInt hk₁ h₂
  have hle₂ := hg₂.le
  have hle₃ := (grown_kmallocInt (by rwa [hg₂.kheap]) h₃).le
  have hsize : processSize = 6272 := rfl
  have hstack : syscallStackSize = 4096 := rfl
  have ha₁ := hinv.kmallocInt (by decide) (by omega) h₁
  have ha₂ := ha₁.extended.inv.kmallocInt (by decide) (by omega) h₂
  have ha₃ := ha₂.extended.inv.kmallocInt (by decide) (by omega) h₃
  exact ⟨ha₁.extended.trans (ha₂.extended.trans ha₃.extended), ha₁.new⟩

end Copying

/-! ### The laws -/

/-- The user and group ids of a process. -/
def ids (f : ProcessFields) : List ℕ := [f.uid, f.euid, f.fsuid, f.gid, f.pgid, f.egid, f.fsgid]

/-- **Two processes agree** in what a child is to have of its parent. -/
structure Agrees (s : Kernel σ) (p c : Addr) : Prop where
  memory : SameMemory s.machine (s.fields p).pml4 s.machine (s.fields c).pml4
  regions : s.regionList c = s.regionList p
  brkStart : (s.fields c).brkStart = (s.fields p).brkStart
  stackLow : (s.fields c).stackLow = (s.fields p).stackLow
  pwd : (s.fields c).pwd = (s.fields p).pwd
  handlers : ∀ i < sigMax, ((s.fields c).signalHandlers i).signalHandler =
    ((s.fields p).signalHandlers i).signalHandler
  signalMask : (s.fields c).signalMask = (s.fields p).signalMask
  ids : ids (s.fields c) = ids (s.fields p)
  descriptors : (s.files.table c).map (fun e => (e.descriptorId, e.device)) =
    (s.files.table p).map (fun e => (e.descriptorId, e.device))

/-- **What `kfork` is to do**, from `s` to `s'`, `c` being the child. -/
structure ForkLaws (s : Kernel σ) (c : Addr) (s' : Kernel σ) : Prop where
  agrees : s'.Agrees s.currentProcess c
  ppid : (s'.fields c).ppid = (s'.table.procs s.currentProcess).pid
  pid : (s'.table.procs c).pid ∉ s.table.pids

/-- The block at `c` has by chance what `kfork` does not copy from the parent. -/
structure HoldsParents (s : Kernel σ) (c : Addr) : Prop where
  brkStart : (s.fields c).brkStart = (s.fields s.currentProcess).brkStart
  signalMask : (s.fields c).signalMask = (s.fields s.currentProcess).signalMask
  ids : ids (s.fields c) = ids (s.fields s.currentProcess)

section Forking

variable {s s' : Kernel σ} {roots : List ℕ} {L R : ℕ → List Addr} {n rip : ℕ} {c p : Addr}
variable {src : FrameSource} {v : Vfs σ} {mk : Kmalloc}

/-- What `kfork` assigns to a process that has just been created, with the fields `f`. -/
def inherited (f old : ProcessFields) (rip ppid : ℕ) : ProcessFields :=
  { f with
    entry := rip
    syscallRsp := old.syscallRsp
    syscallRegisters := old.syscallRegisters
    syscallXmmRegisters := old.syscallXmmRegisters
    stackLow := old.stackLow
    queuedSignals := 0
    inSignalHandler := false
    signalHandlers := copyHandlers f.signalHandlers old.signalHandlers
    pwd := old.pwd
    ppid := ppid }

/-- A list of distinct blocks is not longer than the list of all. -/
theorem length_le_live {m : Machine} {l : List Addr} (hl : l.Nodup)
    (hlive : ∀ a ∈ l, ∃ u ∈ m.live, u.ptr = a) : l.length ≤ m.live.length := by
  have hsub : l ⊆ m.live.map Chunk.ptr := fun a ha => by
    obtain ⟨u, hu, rfl⟩ := hlive a ha
    exact List.mem_map_of_mem hu
  have hle := (List.subperm_of_subset hl hsub).length_le
  rwa [List.length_map] at hle

/-- The regions of a process, when the nodes of the list are known. -/
theorem regionList_eq {l : List Addr} (hl : Seg s.nextRegion (s.fields p).memoryRegions l none)
    (hlive : ∀ a ∈ l, ∃ u ∈ s.machine.live, u.ptr = a) : s.regionList p = l.map s.regionAt := by
  have hlen := length_le_live hl.nodup hlive
  have hfuel : l.length ≤ s.fuel := by
    rw [fuel]
    omega
  rw [regionList, hl.collect_eq hfuel]

/-- A process that there is not has no descriptors. -/
theorem setHead_none {f : Fs σ} (h : f.Tables L) (hc : c ∉ f.procs) : f.setHead c none = f := by
  have hhead : f.heads c = none := by
    have hseg := h.seg c
    rw [h.absent c hc] at hseg
    exact hseg
  rw [Fs.setHead, ← hhead, Function.update_eq_self]

/-- **`kfork` taken apart.** -/
theorem kfork_eq (h : s.kfork src n v mk rip = some (c, s')) :
    ∃ newPml4 m newRegions s₁ s₂,
      clonePageDirectory src (kmallocA src n) s.currentPml4 s.machine = some (newPml4, m) ∧
      copyRegions src n (s.setMachine m).fuel (s.fields s.currentProcess).memoryRegions none none
        (s.setMachine m) = some (newRegions, s₁) ∧
      s₁.createProcess src n 0 0 newPml4 true newRegions = some (c, s₂) ∧
      s₂.files.kfork v mk s.currentProcess c = some s'.files ∧
      (s₂.setProcess c ⟨(s₂.table.procs c).pid, .forked, none⟩).table.addProcess c = some s'.table ∧
      s'.machine = s₂.machine ∧ s'.regions = s₂.regions ∧
      s'.fields = Function.update s₂.fields c
        (inherited (s₂.fields c) (s₂.fields s.currentProcess) rip
          ((s₂.setProcess c ⟨(s₂.table.procs c).pid, .forked, none⟩).table.procs
            s.currentProcess).pid) := by
  simp only [kfork, Option.bind_eq_bind, Option.bind_eq_some_iff, Option.pure_def,
    Option.some.injEq, Prod.mk.injEq] at h
  obtain ⟨⟨newPml4, m⟩, hclone, ⟨newRegions, s₁⟩, hregions, ⟨c', s₂⟩, hcreate, files, hfiles,
    table, htable, rfl, rfl⟩ := h
  exact ⟨newPml4, m, newRegions, s₁, s₂, hclone, hregions, hcreate, hfiles, htable, rfl, rfl, rfl⟩

/-- `add_process` leaves the pids alone. -/
theorem addProcess_pid {t t' : ProcTable} {a : Addr} (h : t.addProcess a = some t') (q : Addr) :
    (t'.procs q).pid = (t.procs q).pid := by
  rw [ProcTable.addProcess] at h
  split at h
  · rw [← Option.some.inj h]
  · split at h
    · rw [← Option.some.inj h]
    · split at h
      · rw [← Option.some.inj h]
      · split at h
        · exact absurd h (by simp)
        · rw [← Option.some.inj h]
          exact t.setQueueNext_pid _ q _

/-- **`kfork`, step by step**: what the child has of its parent, and what it has of the block
it is in. -/
theorem kfork_spec (h : s.Inv roots L R)
    (hwrap : s'.machine.kheapEnd + 0xFFF + pageDirectorySize < 2 ^ 64)
    (hfork : s.kfork src n v mk rip = some (c, s')) :
    SameMemory s'.machine (s.fields s.currentProcess).pml4 s'.machine (s'.fields c).pml4 ∧
      s'.regionList c = s'.regionList s.currentProcess ∧
      (s'.files.table c).map (fun e => (e.descriptorId, e.device)) =
        (s'.files.table s.currentProcess).map (fun e => (e.descriptorId, e.device)) ∧
      c ≠ s.currentProcess ∧ c ∉ s.table.processList ∧
      (s'.table.procs c).pid = s.table.firstFreePid ∧
      (s'.table.procs s.currentProcess).pid = (s.table.procs s.currentProcess).pid ∧
      ∃ pml4 tssStack syscallStack newRegions, s'.fields = Function.update s.fields c
        (inherited (created (s.fields c) 0 0 pml4 tssStack syscallStack newRegions)
          (s.fields s.currentProcess) rip (s.table.procs s.currentProcess).pid) := by
  obtain ⟨pml4, m, newRegions, s₁, s₂, hclone, hregions, hcreate, hfiles, htable, hm', hr', hf'⟩ :=
    kfork_eq hfork
  obtain ⟨p, hp⟩ : ∃ p, s.currentProcess = p := ⟨_, rfl⟩
  have hpmem : p ∈ s.files.procs := hp ▸ h.current
  rw [hp] at hregions hfiles hf' ⊢
  rw [hm'] at hwrap
  -- the heap only grows
  obtain ⟨⟨l, hheap⟩, -, -⟩ := id h.machine
  have hg₀ : Grown s.machine m := grown_clonePageDirectory hheap.kheap_pos.ne' hclone
  have hk₀ : m.kheap ≠ 0 := by
    rw [hg₀.kheap]
    exact hheap.kheap_pos.ne'
  have hg₁ : Grown m s₁.machine := grown_copyRegions (s := s.setMachine m) hk₀ hregions
  have hg₂ : Grown s₁.machine s₂.machine := grown_createProcess (by rwa [hg₁.kheap]) hcreate
  have hle₁ := hg₁.le
  have hle₂ := hg₂.le
  have hpsize : processSize = 6272 := rfl
  have hdsize : pageDirectorySize = 8712 := rfl
  have hrsize : memRegionSize = 32 := rfl
  -- the address space
  have hroot : s.currentPml4 = (s.fields p).pml4 := hp ▸ h.currentPml4
  have hdirectory := h.directory p hpmem
  have hpages := h.pages p hpmem
  rw [← hroot] at hdirectory hpages ⊢
  obtain ⟨hinv₀, hlaws, -⟩ := h.machine.clone hdirectory hpages (by omega) hclone
  have hinUse : ∀ {a}, InUse s.machine a → InUse m a := fun ha => ha.mono hg₀.live hg₀.kheap
  -- the regions
  have hcopied := copyRegions_spec (s := s.setMachine m) (M := []) hinv₀
    (h.regions p hpmem) (fun a ha => hinUse (Or.inl (h.regionLive p hpmem a ha))) rfl (by simp)
    (by simp) (by omega) hregions
  obtain ⟨M, hseg, hmap, hM, hat, hkeep, hext₁, hs₁⟩ := hcopied
  -- the process
  obtain ⟨hext₂, hnew⟩ := createProcess_alloc hext₁.inv (by omega) hcreate
  obtain ⟨m₁, m₂, tssStack, syscallStack, -, -, -, hs₂⟩ := createProcess_eq hcreate
  have hext := hext₁.trans hext₂
  have hfields₁ : s₁.fields = s.fields := by
    rw [hs₁]
    rfl
  have htable₁ : s₁.table = s.table := by
    rw [hs₁]
    rfl
  have hfiles₁ : s₁.files = s.files := by
    rw [hs₁]
    rfl
  have hcp : c ≠ p := by
    rintro rfl
    exact hnew (hext₁.inUse (hinUse (h.inUse c hpmem)))
  have hcprocs : c ∉ s.files.procs := fun hc => hnew (hext₁.inUse (hinUse (h.inUse c hc)))
  have hclist : c ∉ s.table.processList := fun hc => hcprocs (h.listed c hc)
  have hfields₂ : s₂.fields = Function.update s.fields c
      (created (s.fields c) 0 0 pml4 tssStack syscallStack newRegions) := by
    rw [hs₂, hfields₁]
  have hprocs₂ : s₂.table.procs =
      Function.update s.table.procs c ⟨s.table.firstFreePid, .initial, none⟩ := by
    rw [hs₂, htable₁]
  have hfiles₂ : s₂.files = s.files := by
    rw [hs₂, hfiles₁]
    exact setHead_none h.files hcprocs
  have hregions₂ : s₂.regions = s₁.regions := by rw [hs₂]
  have hnext' : s'.nextRegion = s₁.nextRegion := by
    funext a
    rw [nextRegion, nextRegion, hr', hregions₂]
  have hat' : s'.regionAt = s₁.regionAt := by
    funext a
    rw [regionAt, regionAt, hr', hregions₂]
  have hfc : s₂.fields c = created (s.fields c) 0 0 pml4 tssStack syscallStack newRegions := by
    rw [hfields₂, Function.update_self]
  have hfp : s₂.fields p = s.fields p := by rw [hfields₂, Function.update_of_ne hcp.symm]
  have hpid : ((s₂.setProcess c ⟨(s₂.table.procs c).pid, .forked, none⟩).table.procs p).pid =
      (s.table.procs p).pid := by
    simp [setProcess, hprocs₂, hcp.symm]
  have hf : s'.fields = Function.update s.fields c
      (inherited (created (s.fields c) 0 0 pml4 tssStack syscallStack newRegions) (s.fields p) rip
        (s.table.procs p).pid) := by
    rw [hf', hpid, hfc, hfp, hfields₂, Function.update_idem]
  have hpmem' : (s'.fields p).memoryRegions = (s.fields p).memoryRegions := by
    rw [hf, Function.update_of_ne hcp.symm]
  have hcmem' : (s'.fields c).memoryRegions = newRegions := by
    rw [hf, Function.update_self]
    rfl
  have hcpml4 : (s'.fields c).pml4 = pml4 := by
    rw [hf, Function.update_self]
    rfl
  refine ⟨?_, ?_, ?_, hcp, hclist, ?_, ?_, pml4, tssStack, syscallStack, newRegions, hf⟩
  · -- both address spaces are as they were after the copy
    rw [hm', hcpml4]
    have hold : SameMemory m s.currentPml4 s₂.machine s.currentPml4 := by
      exact hext.growth.sameMemory
        (hdirectory.imp (fun hk => hk.trans hg₀.kernelPml4.symm) (List.mem_cons_of_mem _))
    have hnew' : SameMemory m pml4 s₂.machine pml4 :=
      hext.growth.sameMemory (Or.inr List.mem_cons_self)
    exact hold.symm.trans (hlaws.sameMemory_self.symm.trans (hlaws.sameMemory.trans hnew'))
  · have hlive : s'.machine.live = s₂.machine.live := by rw [hm']
    have hpseg : Seg s'.nextRegion (s'.fields p).memoryRegions (R p) none := by
      rw [hpmem', hnext']
      refine (seg_congr fun a ha => ?_).mp (h.regions p hpmem)
      rw [nextRegion, nextRegion, hkeep a (hinUse (Or.inl (h.regionLive p hpmem a ha))) (by simp)]
      rfl
    have hcseg : Seg s'.nextRegion (s'.fields c).memoryRegions M none := by
      rw [hcmem', hnext']
      exact hseg
    rw [regionList_eq hcseg ?_, regionList_eq hpseg ?_, hat', hmap]
    · refine List.map_congr_left fun a ha => ?_
      exact (hat a (hinUse (Or.inl (h.regionLive p hpmem a ha)))).symm
    · intro a ha
      obtain ⟨u, hu, hua⟩ := h.regionLive p hpmem a ha
      rw [hlive]
      exact ⟨u, hext.live (hg₀.live hu), hua⟩
    · intro a ha
      obtain ⟨⟨u, hu, hua⟩, -⟩ := hM a ha
      rw [hlive]
      exact ⟨u, hext₂.live hu, hua⟩
  · rw [hfiles₂] at hfiles
    obtain ⟨hmap', hkeep'⟩ := Fs.kfork_law h.files v mk hcprocs hfiles
    rw [hmap', hkeep' p hcp.symm]
  · rw [addProcess_pid htable c]
    simp [setProcess, hprocs₂]
  · rw [addProcess_pid htable p, hpid]

end Forking

/-! ### A kernel with two processes -/

section Witness

variable {s : Kernel σ} {k n size : ℕ}

/-- `kmalloc`, when there is room. -/
theorem kmalloc_of_room (h : HasRoom s.machine n) (src : FrameSource) (k : ℕ) (hpos : 0 < size)
    (hn : roomFor size < n) (hwrap : s.machine.kheapEnd + 0xFFF + size < 2 ^ 64) :
    ∃ a m, s.kmalloc src (k + 1) size = some (a, s.setMachine m) ∧ HasRoom m (n - roomFor size) ∧
      m.kheapEnd = s.machine.kheapEnd := by
  obtain ⟨a, mem, hcall, hroom⟩ := h.kmallocInt src k false hpos hn hwrap
  refine ⟨a, _, ?_, hroom, rfl⟩
  rw [kmalloc, Xana.kmalloc, hcall]
  rfl

end Witness

/-- Where the parent is, in `twoProcesses`. -/
def parentAddr : Addr := 0x20000

/-- A kernel with a parent whose user memory is empty, where the processes, and the blocks that
are to be processes, have the fields `f`. -/
def oneProcess (f : Addr → ProcessFields) : Kernel Unit where
  machine := copyMachine
  currentPml4 := 0x10000
  table := ⟨fun _ => ⟨0, .running, none⟩, [parentAddr], none, none, parentAddr⟩
  fields := f
  regions := fun _ => ⟨0, 0, 0, none⟩
  files := { Fs.bootFs with procs := {parentAddr} }

/-- Fields that are all zero, with the break at `brk`. -/
def blankFields (brk : ℕ) : ProcessFields where
  gid := 0
  pgid := 0
  ppid := 0
  uid := 0
  euid := 0
  fsuid := 0
  egid := 0
  fsgid := 0
  pml4 := 0x10000
  entry := 0
  rsp := 0
  rbp := 0
  tssStack := 0
  syscallRsp := 0
  syscallStack := 0
  inSignalHandler := false
  syscallRegisters := default
  syscallXmmRegisters := fun _ => 0
  pwd := [47]
  queuedSignals := 0
  signalHandlers := fun _ => ⟨0, 0, 0⟩
  signalMask := 0
  stackLow := 0
  brkStart := brk
  memoryRegions := none

theorem hasRoom_copyMachine : HasRoom copyMachine 0x1FFFE2 :=
  ⟨[], ⟨0x1FFFE2, none⟩, heapInv_copyMachine, rfl, le_rfl⟩

theorem inv_oneProcess {f : Addr → ProcessFields} (hpml4 : (f parentAddr).pml4 = 0x10000)
    (hregions : (f parentAddr).memoryRegions = none) :
    (oneProcess f).Inv [0x10000] (fun _ => []) fun _ => [] := by
  have hparent : ∀ p ∈ (oneProcess f).files.procs, p = parentAddr := fun p hp => by
    simpa [oneProcess] using hp
  refine ⟨⟨⟨_, heapInv_copyMachine⟩, kernelInv_copyMachine, rfl⟩, ?_,
    ?_, by simp [oneProcess, currentProcess],
    hpml4.symm, ?_, by simp [oneProcess], ?_, by simp, Fs.IsInit.tables fun _ => rfl⟩
  · intro p hp
    rw [hparent p hp]
    exact Or.inr (by simp [oneProcess, hpml4])
  · intro p hp
    rw [hparent p hp]
    have hpages := userPages_copyMachine
    rw [← hpml4] at hpages
    exact hpages
  · intro p hp
    rw [hparent p hp]
    have hlt : parentAddr < copyMachine.kheap := by decide
    exact Or.inr hlt
  · intro p hp
    rw [hparent p hp]
    exact hregions

/-- `kfork` returns. -/
theorem exists_kfork {f : Addr → ProcessFields} (hregions : (f parentAddr).memoryRegions = none) :
    ∃ c s', (oneProcess f).kfork bootFrames 1 Fs.idleVfs Fs.bump 0 = some (c, s') ∧
      s'.machine.kheapEnd = 0xFFFFFF80401FFFFF := by
  have hpd : roomFor pageDirectorySize = 12866 := rfl
  have hps : roomFor processSize = 10426 := rfl
  have hss : roomFor syscallStackSize = 8250 := rfl
  have hps' : processSize = 6272 := rfl
  have hss' : syscallStackSize = 4096 := rfl
  have hend₀ : copyMachine.kheapEnd = 0xFFFFFF80401FFFFF := rfl
  have hprocess : 0 < processSize := by decide
  have hstack : 0 < syscallStackSize := by decide
  have hempty : ∀ i < 511, (copyMachine.dirs 0x10000).virt i = 0 := fun _ _ => rfl
  obtain ⟨pml4, m, hclone, hroom, hend⟩ := hasRoom_copyMachine.clone_empty bootFrames 0
    hempty (by decide) (by omega) (by decide)
  rw [hend₀] at hend
  obtain ⟨c, m₁, hc, hroom₁, hend₁⟩ := kmalloc_of_room (s := (oneProcess f).setMachine m) hroom
    bootFrames 0 hprocess (by omega)
    (by simp only [setMachine]; omega)
  simp only [setMachine] at hend₁
  obtain ⟨t, m₂, ht, hroom₂, hend₂⟩ := kmalloc_of_room (s := (oneProcess f).setMachine m₁) hroom₁
    bootFrames 0 hstack (by omega)
    (by simp only [setMachine]; omega)
  simp only [setMachine] at hend₂
  obtain ⟨t', m₃, ht', -, hend₃⟩ := kmalloc_of_room (s := (oneProcess f).setMachine m₂) hroom₂
    bootFrames 0 hstack (by omega)
    (by simp only [setMachine]; omega)
  simp only [setMachine] at hend₃
  have hclone' : clonePageDirectory bootFrames (kmallocA bootFrames 1) (oneProcess f).currentPml4
      (oneProcess f).machine = some (pml4, m) := hclone
  have hcurrent : ((oneProcess f).setMachine m).currentProcess = parentAddr := rfl
  have hnone : (((oneProcess f).setMachine m).fields parentAddr).memoryRegions = none := hregions
  have hcopy : copyRegions bootFrames 1 ((oneProcess f).setMachine m).fuel none none none
      ((oneProcess f).setMachine m) = some (none, (oneProcess f).setMachine m) := rfl
  have hset : ∀ a b, ((oneProcess f).setMachine a).setMachine b = (oneProcess f).setMachine b :=
    fun _ _ => rfl
  rw [hset] at hc ht ht'
  have hend' : m₃.kheapEnd = 0xFFFFFF80401FFFFF := by rw [hend₃, hend₂, hend₁, hend]
  -- nothing is to be cloned
  have hfiles : ∀ t : Kernel Unit, t.files = (oneProcess f).files.setHead c none →
      t.files.kfork Fs.idleVfs Fs.bump parentAddr c = some { (oneProcess f).files with
        heads := Function.update (fun _ => none) c none, procs := {c, parentAddr} } := by
    intro t ht
    have hhead : (oneProcess f).files.setHead c none = (oneProcess f).files :=
      congrArg (fun heads => { (oneProcess f).files with heads := heads })
        (Function.update_eq_self c fun _ => none)
    rw [ht, hhead]
    rfl
  simp only [kfork, hclone', Option.bind_eq_bind, Option.bind_some, hcurrent, hnone, hcopy,
    createProcess, hc, ht, ht', if_true, Option.pure_def]
  rw [hfiles _ rfl]
  refine ⟨c, _, rfl, ?_⟩
  exact hend'

end Kernel

end Xana
