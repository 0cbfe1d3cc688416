import Xana.Lib.Lines
import Xana.Lib.Runs
import Xana.Pipe.Basic

/-!
# The framebuffer as a file

A program that has opened the framebuffer sees its lines one behind the other, without the
padding. `fb_write` and `fb_read` move the first part of a request, up to the end of the
line that it begins in, then whole lines, then the rest; they are the same function but for
the direction in which `memcpy` is called (`Xana.FbMode.transfer`).

Whatever the pieces are, byte `k` of a request at `pos` is the byte at
`fb.offset (pos + k)`. So a handle is a file of `framebuffer_height * user_pitch` bytes
that does not grow (`Xana.FbRun.isFile_of_reach`).
-/

namespace Xana

/-- The variables of the mode, with what a mode is: `framebuffer_height` and
`framebuffer_pitch` are 32-bit numbers, and what is seen of a line is not empty and fits it.
So no product of the two overflows 64 bits. -/
structure FbMode where
  height : ℕ
  pitch : ℕ
  userPitch : ℕ
  height_lt : height < 2 ^ 32
  pitch_lt : pitch < 2 ^ 32
  userPitch_pos : 0 < userPitch
  userPitch_le : userPitch ≤ pitch

/-- `whence` -/
inductive FbWhence
  | seekSet
  | seekCur
  | seekEnd
  | other

/-- The bytes at `video`, and `pos` of the `fb_data_t`. -/
structure FbHandle where
  video : ℕ → UInt8
  pos : ℕ

namespace FbMode

variable (fb : FbMode)

/-- `fb_file_size` -/
def size : ℕ := fb.height * fb.userPitch

/-- `framebuffer_height * user_pitch - pos` -/
def remaining (pos : ℕ) : ℕ := (fb.size + 2 ^ 64 - pos) % 2 ^ 64

/-- What is left of a request for `n` bytes at `pos`. -/
def clip (pos n : ℕ) : ℕ := if fb.size < (pos + n) % 2 ^ 64 then fb.remaining pos else n

/-- The byte of `video` at position `p`. -/
def offset (p : ℕ) : ℕ := lineOffset fb.userPitch fb.pitch p

section Transfer

variable {σ : Type*} (move : ℕ → ℕ → ℕ → σ → σ)

/-- The `while` loop, in at most `n` rounds; `move a i k` is the call of `memcpy` for `k`
bytes at `video + a` and at the pointer's `i`-th. The pointer is `ptr` bytes on when the
loop ends. -/
def transferLines : ℕ → ℕ → ℕ → ℕ → σ → Option (ℕ × σ)
  | 0, _, _, _, _ => none
  | n + 1, ptr, startY, left, s =>
      if 0 < left then
        if fb.userPitch < left then
          transferLines n (ptr + fb.userPitch) (startY + 1) (left - fb.userPitch)
            (move (startY * fb.pitch) ptr fb.userPitch s)
        else transferLines n (ptr + left) startY 0 (move (startY * fb.pitch) ptr left s)
      else some (ptr, s)

/-- The bytes of the line that the request begins in. -/
def firstPart (startX left : ℕ) : ℕ :=
  if left < fb.userPitch - startX then left else fb.userPitch - startX

/-- What `fb_write` and `fb_read` have in common: what is returned, what the moves have done,
and the position. -/
def transfer (n size nmemb pos : ℕ) (s : σ) : Option (ℕ × σ × ℕ) :=
  let startX := pos % fb.userPitch
  let startY := pos / fb.userPitch
  let left := fb.clip pos (request size nmemb)
  let part := fb.firstPart startX left
  (if startX ≠ 0 then
    fb.transferLines move n part (startY + 1) (left - part)
      (move (startY * fb.pitch + startX) 0 part s)
  else fb.transferLines move n 0 startY left s).map fun r => (r.1, r.2, (pos + left) % 2 ^ 64)

end Transfer

end FbMode

/-- `fb_write`, with the bytes of `ptr`. -/
def fbWrite (fb : FbMode) (n : ℕ) (ptr : ℕ → UInt8) (size nmemb : ℕ) (h : FbHandle) :
    Option (ℕ × FbHandle) :=
  (fb.transfer (fun a i k video => copyRange video a ptr i k) n size nmemb h.pos h.video).map
    fun r => (r.1, ⟨r.2.1, r.2.2⟩)

/-- `fb_read`, into a buffer that held `ptr`: what it holds then. -/
def fbRead (fb : FbMode) (n : ℕ) (ptr : ℕ → UInt8) (size nmemb : ℕ) (h : FbHandle) :
    Option (ℕ × (ℕ → UInt8) × FbHandle) :=
  (fb.transfer (fun a i k buffer => copyRange buffer i h.video a k) n size nmemb h.pos ptr).map
    fun r => (r.1, r.2.1, ⟨h.video, r.2.2⟩)

/-- An `off_t`, as an `uint64_t`. -/
def offBits (offset : ℤ) : ℕ := (offset % 2 ^ 64).toNat

/-- The position that `fb_lseek` asks for. -/
def seekTarget (fb : FbMode) (offset : ℤ) (pos : ℕ) : FbWhence → ℕ
  | .seekSet => offBits offset
  | .seekCur => (pos + offBits offset) % 2 ^ 64
  | .seekEnd => (fb.size + offBits offset) % 2 ^ 64
  | .other => pos

/-- `fb_lseek` -/
def fbLseek (fb : FbMode) (offset : ℤ) (whence : FbWhence) (h : FbHandle) : ℕ × FbHandle :=
  let pos := seekTarget fb offset h.pos whence
  let pos := if fb.size < pos then fb.size else pos
  (pos, { h with pos := pos })

/-! ### Moving a request -/

namespace FbMode

variable {fb : FbMode} {n pos startX startY ptr left p q : ℕ}

theorem size_lt : fb.size < 2 ^ 64 := by
  have huser := fb.userPitch_le.trans_lt fb.pitch_lt
  calc fb.height * fb.userPitch < 2 ^ 32 * 2 ^ 32 := Nat.mul_lt_mul'' fb.height_lt huser
    _ = 2 ^ 64 := rfl

theorem offset_injective : Function.Injective fb.offset :=
  lineOffset_injective fb.userPitch_pos fb.userPitch_le

/-- **What is left of a request** is what fits. -/
theorem clip_eq (hpos : pos ≤ fb.size) (hn : pos + n < 2 ^ 64) :
    fb.clip pos n = min n (fb.size - pos) := by
  have hsize := fb.size_lt
  rw [clip, remaining, Nat.mod_eq_of_lt hn]
  split_ifs <;> omega

section Transfer

variable {σ : Type*} {move : ℕ → ℕ → ℕ → σ → σ} {moved : ℕ → ℕ → σ → σ → Prop} {s : σ}

/-- A piece of a line. -/
theorem moved_of_line (hmove : Piecewise (fun k => fb.offset (pos + k)) move moved) (startX : ℕ)
    (halign : pos + ptr = startY * fb.userPitch + startX) (hle : startX + left ≤ fb.userPitch) :
    moved ptr (ptr + left) s (move (startY * fb.pitch + startX) ptr left s) := by
  refine hmove.piece _ _ _ _ fun j hj => ?_
  rw [← add_assoc, halign]
  exact lineOffset_add (by omega)

/-- **The loop lemma**: from the beginning of a line on, all that is left is moved. -/
theorem exists_transferLines (hmove : Piecewise (fun k => fb.offset (pos + k)) move moved)
    (halign : 0 < left → pos + ptr = startY * fb.userPitch) (s : σ) :
    ∃ t, (∀ n > left, fb.transferLines move n ptr startY left s = some (ptr + left, t)) ∧
      moved ptr (ptr + left) s t := by
  induction left using Nat.strong_induction_on generalizing ptr startY s with
  | _ left ih =>
    have hpitch := fb.userPitch_pos
    rcases Nat.eq_zero_or_pos left with rfl | hsome
    · refine ⟨s, fun n hn => ?_, hmove.refl ptr s⟩
      obtain ⟨n, rfl⟩ := Nat.exists_eq_add_of_lt hn
      exact if_neg (Nat.lt_irrefl 0)
    by_cases hline : fb.userPitch < left
    · -- a whole line
      have hpiece : moved ptr (ptr + fb.userPitch) s
          (move (startY * fb.pitch) ptr fb.userPitch s) :=
        moved_of_line hmove 0 (halign hsome) (Nat.zero_add _).le
      have hnext : pos + (ptr + fb.userPitch) = (startY + 1) * fb.userPitch := by
        rw [← add_assoc, halign hsome, Nat.succ_mul]
      obtain ⟨t, ht, hrest⟩ := ih (left - fb.userPitch) (by omega) (fun _ => hnext)
        (move (startY * fb.pitch) ptr fb.userPitch s)
      have hend : ptr + fb.userPitch + (left - fb.userPitch) = ptr + left := by omega
      rw [hend] at hrest
      refine ⟨t, fun n hn => ?_, hmove.trans _ _ _ _ _ _ (by omega) (by omega) hpiece hrest⟩
      obtain ⟨n, rfl⟩ := Nat.exists_eq_succ_of_ne_zero (Nat.ne_zero_of_lt hn)
      rw [transferLines, if_pos hsome, if_pos hline, ht n (by omega), hend]
    · -- the rest
      refine ⟨move (startY * fb.pitch) ptr left s, fun n hn => ?_,
        moved_of_line hmove 0 (halign hsome) (by omega)⟩
      obtain ⟨n, rfl⟩ := Nat.exists_eq_add_of_le' (show 2 ≤ n by omega)
      rw [transferLines, if_pos hsome, if_neg hline, transferLines, if_neg (Nat.lt_irrefl 0)]

/-- The part of the request in the line that it begins in: it ends with the request, or with
the line. -/
theorem firstPart_spec (left : ℕ) (hx : startX < fb.userPitch) : fb.firstPart startX left ≤ left ∧
    startX + fb.firstPart startX left ≤ fb.userPitch ∧
    (fb.firstPart startX left < left → startX + fb.firstPart startX left = fb.userPitch) := by
  rw [firstPart]
  split_ifs <;> omega

/-- **A request is moved as far as it fits**, byte by byte. -/
theorem exists_transfer {size nmemb : ℕ}
    (hmove : Piecewise (fun k => fb.offset (pos + k)) move moved)
    (hpos : pos ≤ fb.size) (hn : pos + size * nmemb < 2 ^ 64) (s : σ) :
    ∃ t, Returns (fun n => fb.transfer move n size nmemb pos s)
        (min (size * nmemb) (fb.size - pos), t, pos + min (size * nmemb) (fb.size - pos)) ∧
      moved 0 (min (size * nmemb) (fb.size - pos)) s t := by
  have hrequest : request size nmemb = size * nmemb := Nat.mod_eq_of_lt (by omega)
  have hclip : fb.clip pos (request size nmemb) = min (size * nmemb) (fb.size - pos) := by
    rw [hrequest, clip_eq hpos hn]
  have hle : min (size * nmemb) (fb.size - pos) ≤ fb.size - pos := min_le_right _ _
  obtain ⟨m, hm⟩ : ∃ m, min (size * nmemb) (fb.size - pos) = m := ⟨_, rfl⟩
  obtain ⟨y, hy⟩ : ∃ y, pos / fb.userPitch = y := ⟨_, rfl⟩
  obtain ⟨x, hx⟩ : ∃ x, pos % fb.userPitch = x := ⟨_, rfl⟩
  have hcolumn : x < fb.userPitch := hx ▸ Nat.mod_lt pos fb.userPitch_pos
  have hsplit : pos = y * fb.userPitch + x := by
    rw [← hy, ← hx, mul_comm]
    exact (Nat.div_add_mod pos fb.userPitch).symm
  have hend : (pos + m) % 2 ^ 64 = pos + m := by
    have := fb.size_lt
    omega
  rw [hm] at hclip ⊢
  by_cases hstart : x ≠ 0
  · obtain ⟨hpart, hfits, hfull⟩ := firstPart_spec m hcolumn
    obtain ⟨part, hpart'⟩ : ∃ part, fb.firstPart x m = part := ⟨_, rfl⟩
    rw [hpart'] at hpart hfits hfull
    have hpiece : moved 0 (0 + part) s (move (y * fb.pitch + x) 0 part s) :=
      moved_of_line hmove x hsplit hfits
    rw [Nat.zero_add] at hpiece
    have hnext : 0 < m - part → pos + part = (y + 1) * fb.userPitch := by
      intro hsome
      have hline := hfull (by omega)
      rw [Nat.succ_mul]
      omega
    obtain ⟨t, ht, hrest⟩ := exists_transferLines hmove hnext (move (y * fb.pitch + x) 0 part s)
    rw [Nat.add_sub_cancel' hpart] at ht hrest
    refine ⟨t, ⟨m + 1, fun n hn => ?_⟩, hmove.trans _ _ _ _ _ _ (Nat.zero_le _) hpart hpiece hrest⟩
    simp only [transfer, hclip, hx, hy, hpart', if_pos hstart, ht n (by omega),
      Option.map_some, hend]
  · have hzero : x = 0 := not_not.mp hstart
    have halign : 0 < m → pos + 0 = y * fb.userPitch := fun _ => by omega
    obtain ⟨t, ht, hall⟩ := exists_transferLines hmove halign s
    rw [Nat.zero_add] at ht hall
    refine ⟨t, ⟨m + 1, fun n hn => ?_⟩, hall⟩
    simp only [transfer, hclip, hx, hy, if_neg hstart, ht n (by omega), Option.map_some, hend]

end Transfer

end FbMode

/-! ### The functions -/

section Functions

variable {fb : FbMode} {h : FbHandle} {size nmemb : ℕ} {ptr : ℕ → UInt8}

/-- The number of bytes that a request moves. -/
def FbMode.moved (fb : FbMode) (pos size nmemb : ℕ) : ℕ := min (size * nmemb) (fb.size - pos)

/-- **What a write does.** -/
theorem exists_fbWrite (ptr : ℕ → UInt8) (hpos : h.pos ≤ fb.size)
    (hn : h.pos + size * nmemb < 2 ^ 64) : ∃ video,
      Returns (fun n => fbWrite fb n ptr size nmemb h)
        (fb.moved h.pos size nmemb, ⟨video, h.pos + fb.moved h.pos size nmemb⟩) ∧
      (∀ k < fb.moved h.pos size nmemb, video (fb.offset (h.pos + k)) = ptr k) ∧
      ∀ j, (∀ k < fb.moved h.pos size nmemb, fb.offset (h.pos + k) ≠ j) → video j = h.video j := by
  have hplace : Function.Injective fun k => fb.offset (h.pos + k) :=
    fun a b hab => Nat.add_left_cancel (FbMode.offset_injective hab)
  obtain ⟨video, ⟨n₀, hrun⟩, hin, hout⟩ :=
    FbMode.exists_transfer (piecewise_scatter hplace ptr) hpos hn h.video
  refine ⟨video, ⟨n₀, fun n hn => ?_⟩, fun k hk => hin k (Nat.zero_le _) hk,
    fun j hj => hout j fun k _ hk => hj k hk⟩
  simp only [fbWrite, hrun n hn]
  rfl

/-- **What a read does.** -/
theorem exists_fbRead (ptr : ℕ → UInt8) (hpos : h.pos ≤ fb.size)
    (hn : h.pos + size * nmemb < 2 ^ 64) : ∃ buffer,
      Returns (fun n => fbRead fb n ptr size nmemb h) (fb.moved h.pos size nmemb, buffer,
        ⟨h.video, h.pos + fb.moved h.pos size nmemb⟩) ∧
      (∀ k < fb.moved h.pos size nmemb, buffer k = h.video (fb.offset (h.pos + k))) ∧
      ∀ k ≥ fb.moved h.pos size nmemb, buffer k = ptr k := by
  obtain ⟨buffer, ⟨n₀, hrun⟩, hall⟩ :=
    FbMode.exists_transfer (piecewise_gather (fun k => fb.offset (h.pos + k)) h.video) hpos hn ptr
  refine ⟨buffer, ⟨n₀, fun n hn => ?_⟩, fun k hk => ?_, fun k hk => ?_⟩
  · simp only [fbRead, hrun n hn]
    rfl
  · rw [hall k, if_pos ⟨Nat.zero_le _, hk⟩]
  · rw [hall k, if_neg fun hlt => absurd hlt.2 (Nat.not_lt.mpr hk)]

/-- A seek does not leave the file. -/
theorem fbLseek_pos_le (offset : ℤ) (whence : FbWhence) :
    (fbLseek fb offset whence h).2.pos ≤ fb.size := by
  rw [fbLseek]
  dsimp only
  split_ifs
  · exact le_rfl
  · omega

end Functions

/-! ### Runs -/

/-- A handle, and the file that it should be: what was last written at each position. -/
structure FbRun where
  handle : FbHandle
  file : ℕ → UInt8

namespace FbRun

/-- What happens to a handle. -/
inductive Act
  | write (ptr : ℕ → UInt8) (size nmemb : ℕ)
  | read (ptr : ℕ → UInt8) (size nmemb : ℕ)
  | lseek (offset : ℤ) (whence : FbWhence)

variable (fb : FbMode)

/-- One step. A write that returns `k` writes the first `k` bytes at the position. -/
def Steps (s : FbRun) : Act → FbRun → Prop
  | .write ptr size nmemb, s' => ∃ k, Returns (fun n => fbWrite fb n ptr size nmemb s.handle)
      (k, s'.handle) ∧ s'.file = copyRange s.file s.handle.pos ptr 0 k
  | .read ptr size nmemb, s' => s'.file = s.file ∧
      ∃ k buffer, Returns (fun n => fbRead fb n ptr size nmemb s.handle) (k, buffer, s'.handle)
  | .lseek offset whence, s' => s' = { s with handle := (fbLseek fb offset whence s.handle).2 }

/-- The request does not reach 2^64. -/
def Ok (s : FbRun) : Act → Prop
  | .write _ size nmemb | .read _ size nmemb => s.handle.pos + size * nmemb < 2 ^ 64
  | .lseek _ _ => True

/-- A handle that `fb_open` has just made. -/
def IsNew (s : FbRun) : Prop := s.handle.pos = 0 ∧ ∀ p, s.file p = s.handle.video (fb.offset p)

/-- The runs of requests that do not reach 2^64. -/
abbrev Run : FbRun → Prop := Reach (Steps fb) Ok (IsNew fb)

/-- **The handle is a file** of `framebuffer_height * user_pitch` bytes. -/
structure IsFile (s : FbRun) : Prop where
  pos_le : s.handle.pos ≤ fb.height * fb.userPitch
  /-- A write moves what fits to the positions from `pos` on, and nothing else. -/
  write : ∀ ptr size nmemb m, s.handle.pos + size * nmemb < 2 ^ 64 →
    m = min (size * nmemb) (fb.height * fb.userPitch - s.handle.pos) → ∃ video,
      Returns (fun n => fbWrite fb n ptr size nmemb s.handle) (m, ⟨video, s.handle.pos + m⟩) ∧
      (∀ k < m, video ((s.handle.pos + k) / fb.userPitch * fb.pitch +
        (s.handle.pos + k) % fb.userPitch) = ptr k) ∧
      ∀ j, (∀ k < m, (s.handle.pos + k) / fb.userPitch * fb.pitch +
        (s.handle.pos + k) % fb.userPitch ≠ j) → video j = s.handle.video j
  /-- A read moves what is left from there, -/
  read : ∀ ptr size nmemb m, s.handle.pos + size * nmemb < 2 ^ 64 →
    m = min (size * nmemb) (fb.height * fb.userPitch - s.handle.pos) → ∃ buffer,
      Returns (fun n => fbRead fb n ptr size nmemb s.handle)
        (m, buffer, ⟨s.handle.video, s.handle.pos + m⟩) ∧
      (∀ k < m, buffer k = s.handle.video ((s.handle.pos + k) / fb.userPitch * fb.pitch +
        (s.handle.pos + k) % fb.userPitch)) ∧
      (∀ k ≥ m, buffer k = ptr k) ∧
      /- and that is what was last written there. -/
      ∀ k < m, buffer k = s.file (s.handle.pos + k)

variable {fb} {s s' : FbRun} {a : Act}

/-- **The invariant.** -/
structure Inv (fb : FbMode) (s : FbRun) : Prop where
  pos_le : s.handle.pos ≤ fb.size
  file_eq : ∀ p < fb.size, s.handle.video (fb.offset p) = s.file p

/-- **A write is a write to the file.** -/
theorem Inv.write {ptr : ℕ → UInt8} {size nmemb : ℕ} (h : s.Inv fb)
    (hok : s.handle.pos + size * nmemb < 2 ^ 64) (hs : Steps fb s (.write ptr size nmemb) s') :
    s'.Inv fb := by
  obtain ⟨k, hreturns, hfile⟩ := hs
  obtain ⟨video, hwrite, hin, hout⟩ := exists_fbWrite ptr h.pos_le hok
  obtain ⟨rfl, hhandle⟩ := Prod.mk.inj (hreturns.unique hwrite)
  have hmoved : fb.moved s.handle.pos size nmemb ≤ fb.size - s.handle.pos := min_le_right _ _
  have hpos := h.pos_le
  refine ⟨?_, fun p hp => ?_⟩
  · rw [hhandle]
    dsimp only
    omega
  · rw [hhandle, hfile, copyRange]
    split_ifs with hrange
    · obtain ⟨k, rfl⟩ := Nat.exists_eq_add_of_le hrange.1
      rw [Nat.zero_add, Nat.add_sub_cancel_left]
      exact hin k (by omega)
    · rw [← h.file_eq p hp]
      refine hout _ fun k hk heq => hrange ?_
      have := FbMode.offset_injective heq
      omega

/-- **The step lemma.** -/
theorem Inv.step (h : s.Inv fb) (hok : s.Ok a) (hs : Steps fb s a s') : s'.Inv fb := by
  cases a with
  | write ptr size nmemb => exact h.write hok hs
  | read ptr size nmemb =>
    obtain ⟨hfile, k, buffer, hreturns⟩ := hs
    obtain ⟨buffer', hread, -, -⟩ := exists_fbRead ptr h.pos_le hok
    obtain ⟨-, hrest⟩ := Prod.mk.inj (hreturns.unique hread)
    obtain ⟨-, hhandle⟩ := Prod.mk.inj hrest
    have hmoved : fb.moved s.handle.pos size nmemb ≤ fb.size - s.handle.pos := min_le_right _ _
    have hpos := h.pos_le
    refine ⟨?_, fun p hp => ?_⟩
    · rw [hhandle]
      dsimp only
      omega
    · rw [hhandle, hfile]
      exact h.file_eq p hp
  | lseek offset whence =>
    rw [Steps] at hs
    subst hs
    exact ⟨fbLseek_pos_le offset whence, h.file_eq⟩

/-- **The run lemma.** -/
theorem inv_of_reach (h : Run fb s) : s.Inv fb := by
  refine Reach.invariant (P := Inv fb) ?_ (fun t a t' ht hok hs => ht.step hok hs) h
  rintro t ⟨hpos, hfile⟩
  exact ⟨hpos ▸ Nat.zero_le _, fun p _ => (hfile p).symm⟩

/-- A write in a reached state returns. -/
theorem exists_run_write (h : Run fb s) (ptr : ℕ → UInt8) {size nmemb : ℕ}
    (hok : s.Ok (.write ptr size nmemb)) : ∃ s', Run fb s' ∧
      s'.handle.pos = s.handle.pos + fb.moved s.handle.pos size nmemb ∧
      s'.file = copyRange s.file s.handle.pos ptr 0 (fb.moved s.handle.pos size nmemb) := by
  obtain ⟨video, hwrite, -, -⟩ := exists_fbWrite ptr (inv_of_reach h).pos_le hok
  exact ⟨⟨⟨video, _⟩, _⟩, h.step hok ⟨_, hwrite, rfl⟩, rfl, rfl⟩

/-- **The framebuffer is a file**, in every state that requests lead to. -/
theorem isFile_of_reach (h : Run fb s) : s.IsFile fb := by
  obtain ⟨hpos, hfile⟩ := inv_of_reach h
  refine ⟨hpos, ?_, ?_⟩
  · rintro ptr size nmemb m hn rfl
    exact exists_fbWrite ptr hpos hn
  · rintro ptr size nmemb m hn rfl
    obtain ⟨buffer, hread, hin, hout⟩ := exists_fbRead ptr hpos hn
    refine ⟨buffer, hread, hin, hout, fun k hk => ?_⟩
    have hlt : k < fb.size - s.handle.pos := Nat.lt_of_lt_of_le hk (min_le_right _ _)
    rw [hin k hk, ← hfile _ (by omega)]

/-- Two lines of three bytes, of which two are seen. -/
def small : FbMode := ⟨2, 3, 2, by decide, by decide, by decide, by decide⟩

/-- A file of four bytes, three of which have been written. -/
theorem isFile_of_reach_small : ∃ s, IsFile small s ∧ s.handle.pos = 3 ∧ s.file 2 = 9 := by
  have hnew : Run small ⟨⟨fun _ => 0, 0⟩, fun _ => 0⟩ := .init ⟨rfl, fun _ => rfl⟩
  have hok : Ok ⟨⟨fun _ => 0, 0⟩, fun _ => 0⟩ (.write (fun k => 7 + k.toUInt8) 1 3) :=
    (by decide : 0 + 1 * 3 < 2 ^ 64)
  obtain ⟨s, hs, hpos, hfile⟩ := exists_run_write hnew (fun k => 7 + k.toUInt8) hok
  refine ⟨s, isFile_of_reach hs, hpos, ?_⟩
  rw [hfile]
  decide

end FbRun

end Xana
