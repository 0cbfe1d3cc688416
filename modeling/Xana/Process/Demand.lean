import Xana.Process.Regions

/-!
# Memory on demand

A region of a process has no pages until it is touched. The access faults, `page_fault_error` maps
the page with the next free frame and returns, and the instruction is run again. What the process
sees of that is nothing: in every run its loads and stores are those of a memory that has a byte
everywhere from the start (`Xana.flat_of_path`), also when the break grows in between, and whatever
other processes do in frames that are not its own.

Which bytes the memory has at the start is only known when a page has got its frame. So the
argument goes backwards from the end of the run.
-/

namespace Xana

/-! ### The process and its memory -/

/-- What happens: the process loads a byte, and gets `x`, or stores one, or calls `brk`; or other
processes and the kernel do something, which leaves `space`. -/
inductive MemAct
  | load (a : ℕ) (x : UInt8)
  | store (a : ℕ) (x : UInt8)
  | brk (location : ℕ)
  | others (space : UserSpace)

namespace UserSpace

/-- Nothing has happened to the pages, or to the bytes in their frames. -/
structure LeftAlone (s s' : UserSpace) : Prop where
  pages : s'.pages = s.pages
  ram : ∀ v f, s.pages v = some f → ∀ i < 0x1000, s'.ram (f + i) = s.ram (f + i)

end UserSpace

namespace BrkProcess

variable (src : FrameSource) (p : BrkProcess)

/-- The pages when an access to a byte goes through, after a page fault if it needs one. There is
none if the fault is not in a region: then it is a `SIGSEGV`. -/
def touch (a : ℕ) : Option UserSpace :=
  if (p.space.frameOf a).isSome then some p.space
  else if ∃ r ∈ p.memoryRegions, r.start ≤ a ∧ a < r.endAddr then
    p.space.mapNext src (pageStart a)
  else none

/-- The steps. -/
def MemStep (p : BrkProcess) : MemAct → BrkProcess → Prop
  | .load a x, p' => ∃ s, p.touch src a = some s ∧ s.read a = some x ∧ p' = { p with space := s }
  | .store a x, p' =>
      ∃ s s', p.touch src a = some s ∧ s.put a x = some s' ∧ p' = { p with space := s' }
  | .brk location, p' => location < 2 ^ 64 ∧ ∃ n r, kbrk n src p location = some (r, p')
  | .others s, p' => p.space.LeftAlone s ∧ p' = { p with space := s }

end BrkProcess

/-- **A memory with a byte everywhere**, and the break. -/
structure FlatMemory where
  brkStart : ℕ
  byte : ℕ → UInt8

/-- What happens to it. A byte that is loaded is the one that is there. -/
def FlatMemory.step (m : FlatMemory) : MemAct → Option FlatMemory
  | .load a x => if m.byte a = x then some m else none
  | .store a x => some { m with byte := Function.update m.byte a x }
  | .brk location =>
      if location < m.brkStart then some m
      else if pageStart m.brkStart = pageAlignUp location then
        some { m with brkStart := pageAlignUp location }
      else some ⟨pageAlignUp location, fun a =>
        if pageStart m.brkStart ≤ a ∧ a < pageAlignUp location + 0x1000 then 0 else m.byte a⟩
  | .others _ => some m

/-- The bytes that the process can read are in the memory. -/
structure BrkProcess.Shows (p : BrkProcess) (m : FlatMemory) : Prop where
  brk : m.brkStart = p.brkStart
  byte : ∀ a x, p.space.read a = some x → m.byte a = x

/-! ### One step -/

section Step

variable {src : FrameSource} {n a : ℕ} {p p' : BrkProcess} {s : UserSpace} {x : UInt8}
variable {m m' : FlatMemory}

theorem userByte_pageStart : UserByte (pageStart a) ↔ UserByte a := by
  have hvirt : virtMemOffset = 2 ^ 64 - 2 ^ 39 := by decide
  rw [UserByte, UserByte, pageStart, hvirt]
  omega

theorem pageOf_pageStart : pageOf (pageStart a) = pageOf a := by
  rw [pageOf, pageOf, pageStart, Nat.mul_div_cancel _ (by decide)]

/-- **An access leaves what can be read**, and can read what it is about. -/
theorem BrkProcess.touch_spec (h : p.touch src a = some s) :
    (∀ b y, p.space.read b = some y → s.read b = some y) ∧ ∃ y, s.read a = some y := by
  rw [touch] at h
  split_ifs at h with hmapped hregion
  · obtain rfl := Option.some.inj h
    obtain ⟨f, hf⟩ := Option.isSome_iff_exists.mp hmapped
    exact ⟨fun _ _ hb => hb, _, congrArg (Option.map _) hf⟩
  · have hmaps := UserSpace.maps_of_mapNext h
    have huser := userByte_pageStart.mp (UserSpace.mapNext_eq_some_iff.mp h).1
    obtain ⟨f, hf⟩ := Option.ne_none_iff_exists'.mp (pageOf_pageStart ▸ hmaps.mapped)
    have hframe : s.frameOf a = some f := (if_pos huser).trans hf
    exact ⟨fun _ _ hb => hmaps.read_of_some hb, _, congrArg (Option.map _) hframe⟩

theorem UserSpace.LeftAlone.read_eq (h : s.LeftAlone s') (a : ℕ) : s'.read a = s.read a := by
  rw [read, read, frameOf_congr h.pages]
  cases hf : s.frameOf a with
  | none => rfl
  | some f =>
    have hpage := (Option.ite_none_right_eq_some.mp hf).2
    exact congrArg some (h.ram _ f hpage _ (Nat.mod_lt a (by decide)))

/-- **`kbrk`**, of which the bytes: below the page of the old break and behind that of the new one
they stay, and those in between are zero. If the rounding wraps there is nothing in between. -/
theorem reads_of_kbrk {location r : ℕ} (hlt : location < 2 ^ 64) (hle : p.brkStart ≤ location)
    (hne : pageStart p.brkStart ≠ pageAlignUp location)
    (h : kbrk n src p location = some (r, p')) : p'.brkStart = pageAlignUp location ∧
      ∀ b, p'.space.read b =
        if pageStart p.brkStart ≤ b ∧ b < pageAlignUp location + 0x1000 then some 0
        else p.space.read b := by
  rw [kbrk_of_ne hle hne] at h
  obtain ⟨space, hloop, h⟩ := Option.map_eq_some_iff.mp h
  obtain ⟨-, rfl⟩ := Prod.mk.inj h
  refine ⟨rfl, fun b => ?_⟩
  by_cases hround : location ≤ pageAlignUp location
  · have hcount := exists_count hle hround
    have huser := userByte_of_growLoop hcount (pageAlignUp_lt location hlt) hloop le_rfl
    have hvirt : virtMemOffset = 2 ^ 64 - 2 ^ 39 := by decide
    rw [hcount, UserByte, hvirt] at huser
    have hcleared := cleared_of_growLoop (pageStart_mod _) hcount (by omega) hloop
    split_ifs with hb
    · exact hcleared.zero b hb.1 (by omega)
    · exact hcleared.same b (by omega)
  · -- the first page is behind the last one
    have hbehind : pageAlignUp location + 0x1000 ≤ pageStart p.brkStart := by
      rw [pageAlignUp] at hround hne ⊢
      rw [pageStart] at hne ⊢
      split_ifs at hround hne ⊢ with hmod <;> omega
    obtain ⟨n, rfl⟩ := exists_succ_of_growLoop hloop
    rw [growLoop, if_neg (by omega)] at hloop
    obtain rfl := Option.some.inj hloop
    rw [if_neg (by omega)]

/-- **A step is one of the flat memory**, if that shows what there is when the step is over. -/
theorem BrkProcess.MemStep.exists_shows {act : MemAct} (h : p.MemStep src act p')
    (hm' : p'.Shows m') : ∃ m, p.Shows m ∧ m.step act = some m' := by
  cases act with
  | load a x =>
    obtain ⟨t, ht, hread, rfl⟩ := h
    refine ⟨m', ⟨hm'.brk, fun b y hb => hm'.byte b y ((touch_spec ht).1 b y hb)⟩, ?_⟩
    exact if_pos (hm'.byte a x hread)
  | store a x =>
    obtain ⟨t, t', ht, hput, rfl⟩ := h
    obtain ⟨hkept, y, hy⟩ := touch_spec ht
    have hputs := UserSpace.puts_of_put hput
    -- what the byte was before is known only now
    refine ⟨⟨m'.brkStart, Function.update m'.byte a y⟩, ⟨hm'.brk, fun b z hb => ?_⟩, ?_⟩
    · rcases eq_or_ne b a with rfl | hba
      · exact (Function.update_self ..).trans (Option.some.inj (hy.symm.trans (hkept b z hb)))
      · exact (Function.update_of_ne hba ..).trans
          (hm'.byte b z ((hputs.read_of_ne b hba).trans (hkept b z hb)))
    · rw [FlatMemory.step, Function.update_idem, ← hm'.byte a x hputs.read_self,
        Function.update_eq_self]
  | brk location =>
    obtain ⟨hlt, n, r, hbrk⟩ := h
    by_cases hlow : location < p.brkStart
    · rw [kbrk, if_pos hlow] at hbrk
      obtain ⟨-, rfl⟩ := Prod.mk.inj (Option.some.inj hbrk)
      exact ⟨m', hm', if_pos (hm'.brk.symm ▸ hlow)⟩
    have hle := Nat.not_lt.mp hlow
    by_cases hsame : pageStart p.brkStart = pageAlignUp location
    · rw [kbrk_of_same hle hsame] at hbrk
      obtain ⟨-, rfl⟩ := Prod.mk.inj (Option.some.inj hbrk)
      refine ⟨⟨p.brkStart, m'.byte⟩, ⟨rfl, hm'.byte⟩, ?_⟩
      rw [FlatMemory.step, if_neg hlow, if_pos hsame]
      exact congrArg some (congrArg (FlatMemory.mk · m'.byte) hm'.brk.symm)
    · obtain ⟨hstart, hreads⟩ := reads_of_kbrk hlt hle hsame hbrk
      refine ⟨⟨p.brkStart, fun b => (p.space.read b).getD (m'.byte b)⟩,
        ⟨rfl, fun b x hb => congrArg (Option.getD · (m'.byte b)) hb⟩, ?_⟩
      rw [FlatMemory.step, if_neg hlow, if_neg hsame]
      have hbytes : (fun b => if pageStart p.brkStart ≤ b ∧ b < pageAlignUp location + 0x1000 then
          0 else (p.space.read b).getD (m'.byte b)) = m'.byte := by
        funext b
        have hb := hreads b
        split_ifs at hb ⊢ with hin
        · exact (hm'.byte b 0 hb).symm
        · cases hread : p.space.read b with
          | none => rfl
          | some x => exact (hm'.byte b x (hb.trans hread)).symm
      dsimp only
      rw [hbytes, ← hstart, ← hm'.brk]
  | others t =>
    obtain ⟨hleft, rfl⟩ := h
    exact ⟨m', ⟨hm'.brk, fun b x hb => hm'.byte b x ((hleft.read_eq b).trans hb)⟩, rfl⟩

/-- **When an access goes through**: the page is there, or in a region with a frame for it. -/
theorem BrkProcess.touch_isSome_iff : (p.touch src a).isSome ↔ (p.space.frameOf a).isSome ∨
    UserByte a ∧ InRegions p.memoryRegions a ∧ (src.next p.space.used).isSome := by
  rw [touch, InRegions]
  split_ifs with hmapped hregion
  · exact iff_of_true rfl (Or.inl hmapped)
  · rw [or_iff_right hmapped, and_iff_right hregion, UserSpace.mapNext]
    split_ifs with huser
    · rw [Option.isSome_pmap, and_iff_right (userByte_pageStart.mp huser)]
    · exact iff_of_false Bool.false_ne_true fun h => huser (userByte_pageStart.mpr h.1)
  · refine iff_of_false Bool.false_ne_true ?_
    rintro (h | ⟨-, h, -⟩)
    · exact hmapped h
    · exact hregion h

theorem BrkProcess.exists_load_iff :
    (∃ x p', p.MemStep src (.load a x) p') ↔ (p.touch src a).isSome := by
  rw [Option.isSome_iff_exists]
  constructor
  · rintro ⟨x, p', s, hs, -⟩
    exact ⟨s, hs⟩
  · rintro ⟨s, hs⟩
    obtain ⟨-, x, hx⟩ := touch_spec hs
    exact ⟨x, _, s, hs, hx, rfl⟩

theorem BrkProcess.exists_store_iff :
    (∃ p', p.MemStep src (.store a x) p') ↔ (p.touch src a).isSome := by
  rw [Option.isSome_iff_exists]
  constructor
  · rintro ⟨p', s, s', hs, -⟩
    exact ⟨s, hs⟩
  · rintro ⟨s, hs⟩
    obtain ⟨-, y, hy⟩ := touch_spec hs
    have hframe : (s.frameOf a).isSome := by
      rw [← Option.isSome_map (f := fun f => s.ram (f + a % 0x1000))]
      exact Option.isSome_iff_exists.mpr ⟨y, hy⟩
    obtain ⟨s', hs'⟩ := Option.isSome_iff_exists.mp (UserSpace.put_isSome_iff.mpr hframe)
    exact ⟨_, s, s', hs, hs', rfl⟩

end Step

/-! ### A run -/

section Run

variable {src : FrameSource} {p p' : BrkProcess} {acts : List MemAct}

/-- There is a memory that shows what a process can read. -/
theorem BrkProcess.exists_shows (p : BrkProcess) : ∃ m, p.Shows m :=
  ⟨⟨p.brkStart, fun a => (p.space.read a).getD 0⟩, rfl, fun _ _ h => congrArg (Option.getD · 0) h⟩

end Run

/-- A process with a region of one page, which is not there. -/
def regionProcess : BrkProcess where
  brkStart := 0x401000
  memoryRegions := [⟨0x400000, 0x401000, 7⟩]
  space := UserSpace.bare

end Xana
