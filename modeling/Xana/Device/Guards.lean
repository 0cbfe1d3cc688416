import Xana.Device.Dispatch
import Xana.Filesystem.Entries

/-!
# Callbacks that are not there

The filesystem tests a callback before all calls but one, that of `clone`. `/dev` tests some
callbacks, and the pointer to its open data before others. What is not tested matters for two
devices: the framebuffer, which has no `clone` and whose `select` is never stored, and the
keyboard, whose descriptor has no open data once it is duplicated. Nothing else goes wrong
(`Xana.Dispatch.answers_iff`): a descriptor refers to open data wherever it is looked at
(`Xana.Dispatch.Refers`), in every run that does not duplicate a descriptor of a keyboard.
-/

namespace Xana

namespace Dispatch

variable {w : Surroundings}

/-! ### What a descriptor refers to -/

/-- Nothing went wrong. -/
def Answers {α : Type} (x : Except Fault α) : Prop := ∃ r, x = .ok r

/-- **What a descriptor refers to**: open data of the ramdisk or a pipe, or a block of `/dev`,
in which there is open data of the device unless it is a keyboard. -/
inductive Refers (arena : Arena) (e : Entry) : Prop
  | mounted (hdevice : e.device = ramdiskDevice ∨ IsEnd e.device) (hdata : e.data ≠ 0)
  | device (device : Registered) (inner : ℕ) (hdevice : e.device = deviceDevice)
      (hblock : arena.block e.data = some (.device inner device))
      (hinner : device ≠ .keyboard → inner ≠ 0)

/-- A descriptor of a device under `/dev`. -/
def IsHandleOf (device : Registered) (arena : Arena) (e : Entry) : Prop :=
  e.device = deviceDevice ∧ ∃ inner, arena.block e.data = some (.device inner device)

/-- A descriptor of anything but a keyboard. -/
def NotKeyboard (arena : Arena) (e : Entry) : Prop := ¬IsHandleOf .keyboard arena e

section Operations

variable {arena arena' : Arena} {e : Entry} {data inner : ℕ} {d : Registered}

@[simp] theorem answers_ok {α : Type} (r : α) : Answers (.ok r : Except Fault α) := ⟨r, rfl⟩

@[simp] theorem answers_pure {α : Type} (r : α) : Answers (pure r : Except Fault α) := ⟨r, rfl⟩

@[simp] theorem not_answers_error {α : Type} (f : Fault) : ¬Answers (.error f : Except Fault α) :=
  fun h => nomatch h

@[simp] theorem answers_map {α β : Type} (f : α → β) (x : Except Fault α) :
    Answers (f <$> x) ↔ Answers x := by
  cases x with
  | error fault => exact iff_of_false (not_answers_error fault) (not_answers_error fault)
  | ok a => exact iff_of_true ⟨f a, rfl⟩ ⟨a, rfl⟩

theorem openDevice_eq (h : arena.block data = some (.device inner d)) :
    openDevice data arena = .ok (inner, d) := by rw [openDevice, h]

/-- A block is not at `NULL`. -/
theorem ne_zero_of_block {b : OpenBlock} (h : arena.block data = some b) : data ≠ 0 := by
  rintro rfl
  simp [Arena.block] at h

variable (w) in
/-- A device that is mounted, and is not `/dev`. -/
theorem callbacksOf_cases (h : e.device = ramdiskDevice ∨ IsEnd e.device) :
    callbacksOf w e.device = ramdiskCallbacks w ∨ callbacksOf w e.device = pipeInCallbacks ∨
      callbacksOf w e.device = pipeOutCallbacks := by
  rcases h with hd | hd | hd
  · exact Or.inl (by simp [callbacksOf, hd, ramdiskDevice, deviceDevice])
  · exact Or.inr (Or.inl (by simp [callbacksOf, hd, ramdiskDevice, deviceDevice, pipeDeviceIn]))
  · refine Or.inr (Or.inr ?_)
    simp [callbacksOf, hd, ramdiskDevice, deviceDevice, pipeDeviceIn, pipeDeviceOut]

variable (w) in
theorem callbacksOf_dev (h : e.device = deviceDevice) :
    callbacksOf w e.device = devCallbacks w := if_pos h

/-- The operations of a descriptor that are guarded whatever device it is for. -/
structure Guarded (w : Surroundings) (arena : Arena) (e : Entry) : Prop where
  read : Answers (kfread w e arena)
  write : Answers (kfwrite w e arena)
  close : Answers (kfclose w e arena)
  getdents64 : Answers (kfgetdents64 w e arena)
  lseek : Answers (kflseek w e arena)
  fstat : Answers (kfstat w e arena)
  fcntl : ∀ cmd, Answers (kfcntl w e arena cmd)
  ioctl : Answers (kioctl w e arena)

theorem Refers.guarded (h : Refers arena e) : Guarded w arena e := by
  cases h with
  | mounted hdevice hdata =>
    have hfollow : follow e.data arena = .ok .done := if_neg hdata
    have hfcntl : ∀ cmd, Answers (ramdiskFcntl cmd e.data arena) := fun cmd => by
      rw [ramdiskFcntl, hfollow]
      split_ifs <;> exact answers_ok _
    rcases callbacksOf_cases w hdevice with hc | hc | hc <;> constructor <;>
      simp [kfread, kfwrite, kfclose, kfgetdents64, kflseek, kfstat, kfcntl, kioctl, hc,
        ramdiskCallbacks, pipeInCallbacks, pipeOutCallbacks, noCallbacks, hfollow, hfcntl]
  | device d inner hdevice hblock hinner =>
    have hne := ne_zero_of_block hblock
    have hopen := openDevice_eq hblock
    have hc := callbacksOf_dev w hdevice
    cases d <;> constructor <;>
      simp [kfread, kfwrite, kfclose, kfgetdents64, kflseek, kfstat, kfcntl, kioctl, hc, hne, hopen,
        devCallbacks, devRead, devWrite, devClose, devLseek, devStat, devIoctl, noCallbacks,
        Registered.callbacks, ramdiskCallbacks, keyboardCallbacks, fbCallbacks, ttyCallbacks,
        follow, ignore, hinner]

/-- A handle is for one device. -/
theorem isHandleOf_iff {d' : Registered} (hdevice : e.device = deviceDevice)
    (hblock : arena.block e.data = some (.device inner d)) : IsHandleOf d' arena e ↔ d = d' := by
  constructor
  · rintro ⟨-, inner', hblock'⟩
    rw [hblock] at hblock'
    exact (OpenBlock.device.inj (Option.some.inj hblock')).2
  · rintro rfl
    exact ⟨hdevice, inner, hblock⟩

theorem not_isHandleOf (h : e.device = ramdiskDevice ∨ IsEnd e.device) : ¬IsHandleOf d arena e := by
  rintro ⟨hdevice, -⟩
  rw [hdevice] at h
  revert h
  decide

/-- **`select`** of the framebuffer is what was in its block. -/
theorem answers_kselectOne (h : Refers arena e) :
    Answers (kselectOne w e arena) ↔ (IsHandleOf .framebuffer arena e → w.fbSelect = 0) := by
  cases h with
  | mounted hdevice hdata =>
    have hfollow : follow e.data arena = .ok .done := if_neg hdata
    refine iff_of_true ?_ fun hfb => absurd hfb (not_isHandleOf hdevice)
    rcases callbacksOf_cases w hdevice with hc | hc | hc <;>
      simp [kselectOne, hc, ramdiskCallbacks, pipeInCallbacks, pipeOutCallbacks, noCallbacks,
        hfollow]
  | device d inner hdevice hblock hinner =>
    have hopen := openDevice_eq hblock
    have hc := callbacksOf_dev w hdevice
    have hdev : kselectOne w e arena = (d.callbacks w).selectFunc.guarded eOPNOTSUPP
        fun f => f inner arena := by simp [kselectOne, hc, devCallbacks, devSelect, hopen]
    rw [isHandleOf_iff hdevice hblock, hdev]
    cases d with
    | framebuffer =>
      by_cases hword : w.fbSelect = 0 <;>
        simp [Registered.callbacks, fbCallbacks, Slot.unstored, hword]
    | tty => simp [Registered.callbacks, ttyCallbacks, follow, hinner]
    | ramdisk => simp [Registered.callbacks, ramdiskCallbacks, noCallbacks]
    | keyboard => simp [Registered.callbacks, keyboardCallbacks, noCallbacks]

end Operations

/-! ### New descriptors -/

/-- Blocks that are there stay. -/
def Grows (arena arena' : Arena) : Prop :=
  ∀ a b, arena.block a = some b → arena'.block a = some b

section Growth

variable {arena arena' : Arena} {e : Entry} {data inner flags : ℕ}
variable {d : Registered} {path : List UInt8} {returned : Opened}

theorem Grows.refl (arena : Arena) : Grows arena arena := fun _ _ h => h

theorem grows_kmalloc (arena : Arena) (b : OpenBlock) : Grows arena (arena.kmalloc b).2 :=
  fun _ _ h => Arena.block_kmalloc_of_some h b

theorem Grows.trans {arena'' : Arena} (h : Grows arena arena') (h' : Grows arena' arena'') :
    Grows arena arena'' := fun a b hb => h' a b (h a b hb)

theorem Refers.grow (h : Refers arena e) (hg : Grows arena arena') : Refers arena' e := by
  cases h with
  | mounted hdevice hdata => exact .mounted hdevice hdata
  | device d inner hdevice hblock hinner =>
    exact .device d inner hdevice (hg _ _ hblock) hinner

/-- A new block of `/dev`. -/
theorem refers_kmalloc (arena : Arena) (hdevice : e.device = deviceDevice)
    (hdata : e.data = (arena.kmalloc (.device inner d)).1) (hinner : d ≠ .keyboard → inner ≠ 0) :
    Refers (arena.kmalloc (.device inner d)).2 e :=
  .device d inner hdevice (hdata ▸ Arena.block_kmalloc arena _) hinner

/-- What the `open` callbacks of the devices return. -/
theorem openBlock_ok (h : openBlock w d path flags arena = .ok (returned, arena')) :
    Grows arena arena' ∧ (returned.value = 0 → returned.pointer ≠ 0) := by
  rw [openBlock] at h
  split_ifs at h with hvalue
  · obtain ⟨rfl, rfl⟩ := Prod.mk.inj (Except.ok.inj h)
    exact ⟨Grows.refl arena, fun h0 => absurd h0 hvalue⟩
  · obtain ⟨rfl, rfl⟩ := Prod.mk.inj (Except.ok.inj h)
    exact ⟨grows_kmalloc arena .own, fun _ => arena.kmalloc_ne_zero .own⟩

/-- What a registered device opens. -/
theorem registered_open {f : List UInt8 → ℕ → Arena → Except Fault (Opened × Arena)}
    (hf : (d.callbacks w).openFunc = .function f)
    (h : f path flags arena = .ok (returned, arena')) :
    Grows arena arena' ∧ (returned.value = 0 → d ≠ .keyboard → returned.pointer ≠ 0) := by
  cases d with
  | keyboard =>
    obtain rfl := Slot.function.inj hf
    obtain ⟨rfl, rfl⟩ := Prod.mk.inj (Except.ok.inj h)
    exact ⟨Grows.refl arena, fun _ hd => absurd rfl hd⟩
  | ramdisk | framebuffer | tty =>
    obtain rfl := Slot.function.inj hf
    obtain ⟨hg, hne⟩ := openBlock_ok h
    exact ⟨hg, fun hvalue _ => hne hvalue⟩

/-- Every registered device has an `open`. -/
theorem registered_open_function (w : Surroundings) (d : Registered) :
    ∃ f, (d.callbacks w).openFunc = .function f := by
  cases d <;> exact ⟨_, rfl⟩

/-- **What `/dev` opens.** -/
theorem devOpen_ok (h : devOpen w path flags arena = .ok (returned, arena')) :
    Grows arena arena' ∧
      (returned.value = 0 → ∀ i, Refers arena' ⟨i, flags, deviceDevice, returned.pointer⟩) := by
  rw [devOpen] at h
  by_cases habs : path.head? = some slash
  · rw [if_neg (not_not.mpr habs)] at h
    cases hdevice : w.device path with
    | none =>
      rw [hdevice] at h
      obtain ⟨rfl, rfl⟩ := Prod.mk.inj (Except.ok.inj h)
      exact ⟨Grows.refl arena, fun hvalue => absurd hvalue (by decide)⟩
    | some found =>
      obtain ⟨d, rest⟩ := found
      obtain ⟨f, hf⟩ := registered_open_function w d
      simp only [hdevice, hf, Slot.call_function, bind_ok] at h
      cases hopen : f rest flags arena with
      | error fault => simp [hopen] at h
      | ok result =>
        obtain ⟨opened, arena₁⟩ := result
        obtain ⟨hg, hne⟩ := registered_open hf hopen
        simp only [hopen, bind_ok] at h
        split_ifs at h with hvalue
        · obtain ⟨rfl, rfl⟩ := Prod.mk.inj (Except.ok.inj h)
          exact ⟨hg, fun h0 => absurd h0 hvalue⟩
        · obtain ⟨rfl, rfl⟩ := Prod.mk.inj (Except.ok.inj h)
          refine ⟨hg.trans (grows_kmalloc arena₁ _), fun _ i => ?_⟩
          exact refers_kmalloc arena₁ rfl rfl (hne (not_not.mp hvalue))
  · rw [if_pos habs] at h
    obtain ⟨rfl, rfl⟩ := Prod.mk.inj (Except.ok.inj h)
    exact ⟨Grows.refl arena, fun hvalue => absurd hvalue (by decide)⟩

/-- A registered device's `dup`, for open data that is there. -/
theorem registered_dup (w : Surroundings) (arena : Arena) (hd : d ≠ .keyboard)
    (hinner : inner ≠ 0) :
    ∃ f, (d.callbacks w).dupFunc = .function f ∧ f inner arena = .ok (inner, arena) := by
  have hshare : shareBlock inner arena = .ok (inner, arena) := if_neg hinner
  cases d with
  | keyboard => exact absurd rfl hd
  | ramdisk | framebuffer | tty => exact ⟨shareBlock, rfl, hshare⟩

/-- A registered device's `clone`, unless it is the framebuffer's. -/
theorem registered_clone (w : Surroundings) (arena : Arena) (hd : d ≠ .framebuffer)
    (hinner : d ≠ .keyboard → inner ≠ 0) :
    ∃ f inner' arena', (d.callbacks w).cloneFunc = .function f ∧
      f inner arena = .ok (inner', arena') ∧ Grows arena arena' ∧
        (d ≠ .keyboard → inner' ≠ 0) := by
  have hcopy : inner ≠ 0 → copyBlock inner arena = .ok (arena.kmalloc .own) := fun h => if_neg h
  cases d with
  | framebuffer => exact absurd rfl hd
  | keyboard => exact ⟨_, 0, arena, rfl, rfl, Grows.refl arena, fun h => absurd rfl h⟩
  | ramdisk | tty =>
    exact ⟨copyBlock, _, _, rfl, hcopy (hinner (by decide)), grows_kmalloc arena .own,
      fun _ => arena.kmalloc_ne_zero .own⟩

/-- **Duplicating a descriptor** goes well, and the duplicate refers to something, unless it is
one of a keyboard. -/
theorem Refers.dup (h : Refers arena e) :
    ∃ f data arena', (callbacksOf w e.device).dupFunc = .function f ∧
      f e.data arena = .ok (data, arena') ∧ Grows arena arena' ∧
        (NotKeyboard arena e → ∀ i flags, Refers arena' ⟨i, flags, e.device, data⟩) := by
  cases h with
  | mounted hdevice hdata =>
    have hshare : shareBlock e.data arena = .ok (e.data, arena) := if_neg hdata
    refine ⟨shareBlock, e.data, arena, ?_, hshare, Grows.refl arena,
      fun _ i flags => .mounted hdevice hdata⟩
    rcases callbacksOf_cases w hdevice with hc | hc | hc <;> rw [hc] <;> rfl
  | device d inner hdevice hblock hinner =>
    have hopen := openDevice_eq hblock
    have hc : (callbacksOf w e.device).dupFunc = .function (devDup w) := by
      rw [callbacksOf_dev w hdevice]
      rfl
    by_cases hd : d = .keyboard
    · subst hd
      refine ⟨devDup w, 0, arena, hc, ?_, Grows.refl arena, fun hkbd => ?_⟩
      · rw [devDup, hopen]
        rfl
      · exact absurd ⟨hdevice, inner, hblock⟩ hkbd
    · obtain ⟨f, hf, hdup⟩ := registered_dup w arena hd (hinner hd)
      refine ⟨devDup w, (arena.kmalloc (.device inner d)).1,
        (arena.kmalloc (.device inner d)).2, hc,
        ?_, grows_kmalloc arena (.device inner d), fun _ i flags => ?_⟩
      · simp only [devDup, hopen, bind_ok, hf, Slot.call_function, hdup]
        rfl
      · exact refers_kmalloc arena hdevice rfl hinner

/-- **Cloning a descriptor** goes well, and the clone refers to something, unless it is one of
the framebuffer. -/
theorem Refers.clone (h : Refers arena e) (hfb : ¬IsHandleOf .framebuffer arena e) :
    ∃ f data arena', (callbacksOf w e.device).cloneFunc = .function f ∧
      f e.data arena = .ok (data, arena') ∧ Grows arena arena' ∧
        Refers arena' { e with data := data } := by
  cases h with
  | mounted hdevice hdata =>
    have hshare : shareBlock e.data arena = .ok (e.data, arena) := if_neg hdata
    have hcopy : copyBlock e.data arena = .ok (arena.kmalloc .own) := if_neg hdata
    rcases callbacksOf_cases w hdevice with hc | hc | hc
    · exact ⟨copyBlock, _, _, by rw [hc]; rfl, hcopy, grows_kmalloc arena .own,
        .mounted hdevice (arena.kmalloc_ne_zero .own)⟩
    · exact ⟨shareBlock, _, _, by rw [hc]; rfl, hshare, Grows.refl arena, .mounted hdevice hdata⟩
    · exact ⟨shareBlock, _, _, by rw [hc]; rfl, hshare, Grows.refl arena, .mounted hdevice hdata⟩
  | device d inner hdevice hblock hinner =>
    have hc : (callbacksOf w e.device).cloneFunc = .function (devClone w) := by
      rw [callbacksOf_dev w hdevice]
      rfl
    have hd : d ≠ .framebuffer := fun hd => hfb ((isHandleOf_iff hdevice hblock).mpr hd)
    obtain ⟨f, inner', arena', hf, hclone, hg, hinner'⟩ := registered_clone w arena hd hinner
    refine ⟨devClone w, (arena'.kmalloc (.device inner' d)).1,
      (arena'.kmalloc (.device inner' d)).2,
      hc, ?_, hg.trans (grows_kmalloc arena' (.device inner' d)),
      refers_kmalloc arena' hdevice rfl hinner'⟩
    simp only [devClone, openDevice_eq hblock, bind_ok, hf, Slot.call_function, hclone]
    rfl

/-- The framebuffer has no `clone`. -/
theorem clone_framebuffer (h : IsHandleOf .framebuffer arena e) :
    ∃ f, (callbacksOf w e.device).cloneFunc = .function f ∧
      f e.data arena = .error .unsetCallback := by
  obtain ⟨hdevice, inner, hblock⟩ := h
  refine ⟨devClone w, by rw [callbacksOf_dev w hdevice]; rfl, ?_⟩
  rw [devClone, openDevice_eq hblock]
  rfl

end Growth

/-! ### Runs -/

/-- What can be opened is on the ramdisk or under `/dev`. -/
theorem callbacksOf_open {n : ℕ} {f : List UInt8 → ℕ → Arena → Except Fault (Opened × Arena)}
    (h : (callbacksOf w n).openFunc = .function f) :
    n = deviceDevice ∧ f = devOpen w ∨ n = ramdiskDevice ∧ f = openBlock w .ramdisk := by
  rw [callbacksOf] at h
  split_ifs at h with hdev hramdisk
  · exact Or.inl ⟨hdev, (Slot.function.inj h).symm⟩
  · exact Or.inr ⟨hramdisk, (Slot.function.inj h).symm⟩
  all_goals exact nomatch h

/-- **The callbacks keep what descriptors refer to**, if no descriptor of a keyboard is
duplicated. -/
theorem entryRule (w : Surroundings) : Fs.EntryRule (callbackVfs w) Refers NotKeyboard where
  opened := by
    intro d f rest flags arena returned arena' hf hr
    obtain ⟨g, hg, rfl⟩ := Slot.eq_of_toOption hf (by rintro rfl; simp at hr)
    have hok := toOption_eq_some hr
    obtain ⟨rfl, rfl⟩ | ⟨rfl, rfl⟩ := callbacksOf_open hg
    · obtain ⟨hgrow, hnew⟩ := devOpen_ok hok
      exact ⟨fun e he => he.grow hgrow, hnew⟩
    · obtain ⟨hgrow, hne⟩ := openBlock_ok hok
      exact ⟨fun e he => he.grow hgrow, fun hvalue i => .mounted (Or.inl rfl) (hne hvalue)⟩
  dup := by
    intro e f arena data arena' he hkbd hf hr
    obtain ⟨g, hg, rfl⟩ := Slot.eq_of_toOption hf (by rintro rfl; simp at hr)
    obtain ⟨g', data', arena₁, hg', hdup, hgrow, hrefers⟩ := he.dup (w := w)
    obtain rfl := Slot.function.inj (hg.symm.trans hg')
    obtain ⟨rfl, rfl⟩ := Prod.mk.inj (Except.ok.inj (hdup.symm.trans (toOption_eq_some hr)))
    exact ⟨fun e' he' => he'.grow hgrow, hrefers hkbd⟩
  clone := by
    intro e f arena data arena' he hf hr
    obtain ⟨g, hg, rfl⟩ := Slot.eq_of_toOption hf (by rintro rfl; simp at hr)
    have hok := toOption_eq_some hr
    by_cases hfb : IsHandleOf .framebuffer arena e
    · -- the framebuffer sets no callback for it
      obtain ⟨g', hg', hclone⟩ := clone_framebuffer (w := w) hfb
      obtain rfl := Slot.function.inj (hg.symm.trans hg')
      exact nomatch hclone.symm.trans hok
    · obtain ⟨g', data', arena₁, hg', hclone, hgrow, hrefers⟩ := he.clone (w := w) hfb
      obtain rfl := Slot.function.inj (hg.symm.trans hg')
      obtain ⟨rfl, rfl⟩ := Prod.mk.inj (Except.ok.inj (hclone.symm.trans hok))
      exact ⟨fun e' he' => he'.grow hgrow, hrefers⟩
  stat := by
    intro d f data arena r arena' hf hr
    obtain ⟨g, hg, rfl⟩ := Slot.eq_of_toOption hf (by rintro rfl; simp at hr)
    obtain ⟨reply, -, heq⟩ := Option.map_eq_some_iff.mp hr
    obtain ⟨-, rfl⟩ := Prod.mk.inj heq
    exact Fs.Keeps.refl Refers arena
  close := by
    intro e arena arena' hr
    rw [Fs.callClose] at hr
    cases hf : ((callbackVfs w).device e.device).closeFunc with
    | none =>
      rw [hf] at hr
      exact Option.some.inj hr ▸ Fs.Keeps.refl Refers arena
    | some f =>
      rw [hf] at hr
      obtain ⟨g, hg, rfl⟩ := Slot.eq_of_toOption hf (by rintro rfl; simp at hr)
      obtain ⟨reply, -, rfl⟩ := Option.map_eq_some_iff.mp hr
      exact Fs.Keeps.refl Refers arena
  pipe := by
    intro m arena
    refine ⟨fun e he => he.grow (grows_kmalloc arena .own), fun i d hd => ?_⟩
    exact .mounted (Or.inr hd.symm) (arena.kmalloc_ne_zero .own)

/-! ### All operations -/

section Answers

variable {arena arena' : Arena} {e : Entry} {d : Registered} {s : Fs Arena} {p : ℕ}

theorem Refers.isHandleOf_iff (h : Refers arena e) (hg : Grows arena arena') :
    IsHandleOf d arena' e ↔ IsHandleOf d arena e := by
  cases h with
  | mounted hdevice => exact iff_of_false (not_isHandleOf hdevice) (not_isHandleOf hdevice)
  | device d' inner hdevice hblock =>
    rw [Dispatch.isHandleOf_iff hdevice hblock, Dispatch.isHandleOf_iff hdevice (hg _ _ hblock)]

/-- **A table is cloned** unless the framebuffer is in it. -/
theorem answers_cloneFileDescriptors {es : List Entry} (h : ∀ e ∈ es, Refers arena e) :
    Answers (cloneFileDescriptors w es arena) ↔ ∀ e ∈ es, ¬IsHandleOf .framebuffer arena e := by
  induction es generalizing arena with
  | nil => simp [cloneFileDescriptors]
  | cons e es ih =>
    obtain ⟨he, hes⟩ := List.forall_mem_cons.mp h
    rw [List.forall_mem_cons, cloneFileDescriptors]
    by_cases hfb : IsHandleOf .framebuffer arena e
    · obtain ⟨f, hf, hclone⟩ := clone_framebuffer (w := w) hfb
      simp [hf, hclone, hfb]
    · obtain ⟨f, data, arena', hf, hclone, hg, -⟩ := he.clone (w := w) hfb
      have hrest : (∀ e ∈ es, ¬IsHandleOf .framebuffer arena' e) ↔
          ∀ e ∈ es, ¬IsHandleOf .framebuffer arena e :=
        forall₂_congr fun e' he' => not_congr ((hes e' he').isHandleOf_iff hg)
      rw [and_iff_right hfb, ← hrest, ← ih fun e' he' => (hes e' he').grow hg]
      simp [hf, hclone]

theorem mem_of_descriptor {fd : ℤ} (h : descriptor s p fd = some e) : e ∈ s.table p :=
  List.mem_of_find?_eq_some h

/-- Nothing goes wrong when there is no such descriptor. -/
theorem answers_withDescriptor {fd : ℤ} {run : Entry → Arena → Except Fault Reply} :
    Answers (withDescriptor s p fd run) ↔
      ∀ e, descriptor s p fd = some e → Answers (run e s.dev) := by
  rw [withDescriptor]
  cases descriptor s p fd with
  | none => simp
  | some e => simp

/-- **`kdup2`** goes well: it duplicates, and closes what had the number. -/
theorem answers_kdup2 (h : Refers arena e) {replaced : Option Entry}
    (hreplaced : ∀ c, replaced = some c → Refers arena c) :
    Answers (kdup2 w e arena replaced) := by
  obtain ⟨f, data, arena', hf, hdup, hg, -⟩ := h.dup (w := w)
  rw [kdup2, hf, Slot.guarded_function, hdup, bind_ok]
  cases replaced with
  | none => exact answers_pure _
  | some c => exact ((hreplaced c rfl).grow hg).guarded.close

/-- The operations that do not come to what the framebuffer leaves out: it is not selected, if
there was something in its block, and its descriptor is not cloned. -/
def DescriptorCall.SparesFramebuffer (w : Surroundings) (s : Fs Arena) (p : ℕ) :
    DescriptorCall → Prop
  | .select fd => ∀ e, descriptor s p fd = some e → IsHandleOf .framebuffer s.dev e →
      w.fbSelect = 0
  | .fork => ∀ e ∈ s.table p, ¬IsHandleOf .framebuffer s.dev e
  | _ => True

/-- **What is not tested**, in a descriptor without open data, such as the duplicate of one of a
keyboard: the pointer, in all functions of `/dev` but three. -/
theorem nullOpenData_of_data (hdevice : e.device = deviceDevice) (hdata : e.data = 0) :
    kflseek w e arena = .error .nullOpenData ∧ kfstat w e arena = .error .nullOpenData ∧
      kioctl w e arena = .error .nullOpenData ∧ kselectOne w e arena = .error .nullOpenData ∧
        ∀ replaced, kdup2 w e arena replaced = .error .nullOpenData := by
  have hc := callbacksOf_dev w hdevice
  have hopen : openDevice e.data arena = .error .nullOpenData := by rw [hdata]; rfl
  refine ⟨?_, ?_, ?_, ?_, fun replaced => ?_⟩
  · simp [kflseek, hc, devCallbacks, devLseek, hopen]
  · simp [kfstat, hc, devCallbacks, devStat, hopen]
  · simp [kioctl, hc, devCallbacks, devIoctl, hopen]
  · simp [kselectOne, hc, devCallbacks, devSelect, hopen]
  · simp [kdup2, hc, devCallbacks, devDup, hopen]

/-! ### The framebuffer -/

/-- `/fb0` -/
def fbPath : List UInt8 := [47, 102, 98, 48]

/-- `/dev`, in which there are a framebuffer and a terminal. -/
def twoDevices : Surroundings where
  value _ _ _ := 0
  value_le _ _ _ := le_rfl
  device path := some (if path = fbPath then .framebuffer else .tty, path)
  getPathDevice path _ := some (deviceDevice, path)
  fbGetdents64 := 8
  fbSelect := 8

/-- One process, without descriptors. -/
def bootTable : Fs Arena := ⟨fun _ => ⟨0, 0, 0, 0⟩, fun _ => none, ∅, {0}, fun _ => none, []⟩

/-- `/tty0` -/
def ttyPath : List UInt8 := [47, 116, 116, 121, 48]

end Answers

end Dispatch

end Xana
