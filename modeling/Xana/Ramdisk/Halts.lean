import Xana.Memory.Paging
import Xana.Ramdisk.PartBuffer

/-!
# Whether the search for a header ends

The loop of `ramdisk_get_path_header` ends when it finds something, or when the cursor is no
longer in front of `data`. What moves the cursor comes from the image. There are two kinds of
headers that do not move it: one that is neither a file's nor a directory's, for which the
loop does nothing, and one of a directory with `2 ^ 32 - 1` headers below it, since
`entries_count + 1` is a number of 32 bits. The second kind is left behind only by going into
the directory.

`Xana.Comes` says which headers the search comes to, and `Xana.Passable` which of them are not
of these kinds. The search ends exactly if all headers that it comes to are passable
(`Xana.ramdiskGetPathHeader_ends_iff`). `mod_start` is a number of 32 bits, so that the
ramdisk, as `main` registers it, is far from the end of the address space, and the cursor does
not wrap.
-/

namespace Xana

/-- The component that a round looks for. -/
def wanted (path : List UInt8) (i : ℕ) : List UInt8 := (components path).getD i []

/-- **The headers that the search comes to**, with the index of the component that it looks
for there. -/
inductive Comes (m : Mem) (rd : Ramdisk) (path : List UInt8) : ℕ → ℕ → Prop
  /-- The first header, whether or not there is one. -/
  | start : Comes m rd path rd.files 0
  /-- The header behind a file of another name. -/
  | file {a i : ℕ} : Comes m rd path a i → magic m a = fileEntry →
      ¬Holds (fileName m a) (wanted path i) → advance a 1 < rd.data →
      Comes m rd path (advance a 1) i
  /-- The first header below a directory, unless the path ends there. -/
  | enter {a i : ℕ} : Comes m rd path a i → magic m a = dirEntry →
      Holds (fileName m a) (wanted path i) → i ≠ (getPathDepth path + (2 ^ 32 - 1)) % 2 ^ 32 →
      advance a 1 < rd.data → Comes m rd path (advance a 1) (i + 1)
  /-- The header behind a directory of another name. -/
  | skip {a i : ℕ} : Comes m rd path a i → magic m a = dirEntry →
      ¬Holds (fileName m a) (wanted path i) →
      advance a ((fileSize m a + 1) % 2 ^ 32) < rd.data →
      Comes m rd path (advance a ((fileSize m a + 1) % 2 ^ 32)) i

/-- **A header that the cursor gets past**: a file's, or a directory's that has the name
looked for, or whose number of headers has a successor. -/
def Passable (m : Mem) (path : List UInt8) (a i : ℕ) : Prop :=
  magic m a = fileEntry ∨
    magic m a = dirEntry ∧ (Holds (fileName m a) (wanted path i) ∨ fileSize m a + 1 < 2 ^ 32)

/-- A ramdisk whose headers, and what the last of them may skip, do not reach the end of the
address space. -/
structure Ramdisk.Low (rd : Ramdisk) : Prop where
  data_lt : rd.data < rd.files + 2 ^ 32
  files_le : rd.files + 81 * 2 ^ 32 ≤ 2 ^ 64

/-- What holds of the cursor, the index and the buffer at the beginning of a round. -/
structure Looks (rd : Ramdisk) (path : List UInt8) (a i : ℕ) (part : ℕ → UInt8) : Prop where
  index : i < getPathDepth path ∨ getPathDepth path = 0 ∧ (i = 0 ∨ Holds part [])
  behind : rd.files + 80 * i ≤ a
  before : a < rd.data ∨ a = rd.files

section Search

variable {m : Mem} {rd : Ramdisk} {path : List UInt8} {part : ℕ → UInt8} {a b i j n : ℕ}

theorem file_ne_dir (h : magic m a = dirEntry) : magic m a ≠ fileEntry := by
  rw [h]
  decide

/-! ### The buffer -/

/-- The buffer holds the component that is looked for. -/
theorem Looks.holds (h : Looks rd path a i part) (habs : path.head? = some slash)
    (hpath : 0 ∉ path) : Holds (getPathPart path part i) (wanted path i) := by
  rcases h.index with hi | ⟨hdepth, hpart⟩
  · rw [getPathDepth_eq habs] at hi
    refine holds_getPathPart habs hpath ?_
    rw [wanted, List.getD_eq_getElem?_getD, List.getElem?_eq_getElem hi]
    rfl
  · have hnone : components path = [] := by
      rw [← List.length_eq_zero_iff, ← getPathDepth_eq habs, hdepth]
    have hwanted : wanted path i = [] := by rw [wanted, hnone, List.getD_nil]
    rw [hwanted, getPathPart_of_slashes habs (eq_slash_of_depth habs hdepth)]
    split_ifs with hi
    · exact holds_copyPart part (by simp)
    · exact hpart.resolve_left hi

/-- The next round looks for the same component. -/
theorem Looks.same (h : Looks rd path a i part) (habs : path.head? = some slash)
    (hpath : 0 ∉ path) (hle : a ≤ b) (hb : b < rd.data) :
    Looks rd path b i (getPathPart path part i) where
  index := by
    refine h.index.imp_right fun ⟨hdepth, _⟩ => ⟨hdepth, Or.inr ?_⟩
    have hnone : components path = [] := by
      rw [← List.length_eq_zero_iff, ← getPathDepth_eq habs, hdepth]
    have hholds := h.holds habs hpath
    rwa [wanted, hnone, List.getD_nil] at hholds
  behind := h.behind.trans hle
  before := Or.inl hb

/-- The next round looks for the next component. -/
theorem Looks.next (h : Looks rd path a i part) (hrd : rd.Low) (habs : path.head? = some slash)
    (hpath : 0 ∉ path) (hi : i ≠ (getPathDepth path + (2 ^ 32 - 1)) % 2 ^ 32) (hle : a + 80 ≤ b)
    (hb : b < rd.data) : Looks rd path b (i + 1) (getPathPart path part i) := by
  have hsame := h.same habs hpath (by omega) hb
  have hbehind := h.behind
  have hdata := hrd.data_lt
  refine ⟨?_, by omega, Or.inl hb⟩
  rcases h.index with hlt | ⟨hdepth, _⟩
  · left
    by_contra hge
    -- the index is that of the last component, and then the loop is done
    have hlast : getPathDepth path + (2 ^ 32 - 1) = i + 2 ^ 32 := by omega
    rw [hlast, Nat.add_mod_right, Nat.mod_eq_of_lt (by omega)] at hi
    exact hi rfl
  · rcases hsame.index with hlt | ⟨_, hpart⟩
    · omega
    · refine Or.inr ⟨hdepth, Or.inr ?_⟩
      rcases hpart with rfl | hpart
      · rw [getPathPart_of_slashes habs (eq_slash_of_depth habs hdepth), if_pos rfl]
        exact holds_copyPart part (by simp)
      · exact hpart

/-! ### A round -/

section Classical

open Classical in
/-- **A round**, with the names in place of the calls of `strcmp`. -/
theorem headerLoop_succ (h : Looks rd path a i part) (habs : path.head? = some slash)
    (hpath : 0 ∉ path) : headerLoop m rd path (n + 1) a i part =
      let next (b j : ℕ) : Option (Option ℕ) :=
        if rd.data ≤ b then some none
        else headerLoop m rd path n b j (getPathPart path part i)
      if magic m a = fileEntry then
        if Holds (fileName m a) (wanted path i) then some (some a) else next (advance a 1) i
      else if magic m a = dirEntry then
        if Holds (fileName m a) (wanted path i) then
          if i = (getPathDepth path + (2 ^ 32 - 1)) % 2 ^ 32 then some (some a)
          else next (advance a 1) (i + 1)
        else next (advance a ((fileSize m a + 1) % 2 ^ 32)) i
      else next a i := by
  have hle : (wanted path i).length < path.length + 1 := by
    rw [wanted, List.getD_eq_getElem?_getD, Nat.lt_succ_iff]
    cases hget : (components path)[i]? with
    | none => exact Nat.zero_le _
    | some name =>
      rw [components_of_abs habs] at hget
      exact length_le_of_mem_componentsFrom (List.mem_of_getElem? hget)
  obtain ⟨differ, hdiffer, hiff⟩ := strcmp_holds (h.holds habs hpath) (fileName m a) hle
  rw [headerLoop]
  simp only [hdiffer, ← hiff]
  rfl

end Classical

/-- Behind a header there is more address space than it skips. -/
theorem Looks.advance_eq (h : Looks rd path a i part) (hrd : rd.Low) {k : ℕ} (hk : k < 2 ^ 32) :
    advance a k = a + 80 * k := by
  have hfiles := hrd.files_le
  have hdata := hrd.data_lt
  have hbefore := h.before
  rw [advance, headerSize, Nat.mod_eq_of_lt]
  omega

theorem headerLoop_behind (h : Looks rd path a i part) (habs : path.head? = some slash)
    (hpath : 0 ∉ path) (hmagic : magic m a = fileEntry)
    (hname : ¬Holds (fileName m a) (wanted path i)) (hb : advance a 1 < rd.data) :
    headerLoop m rd path (n + 1) a i part =
      headerLoop m rd path n (advance a 1) i (getPathPart path part i) := by
  classical
  rw [headerLoop_succ h habs hpath]
  simp only [if_pos hmagic, if_neg hname, if_neg hb.not_ge]

theorem headerLoop_enter (h : Looks rd path a i part) (habs : path.head? = some slash)
    (hpath : 0 ∉ path) (hmagic : magic m a = dirEntry)
    (hname : Holds (fileName m a) (wanted path i))
    (hi : i ≠ (getPathDepth path + (2 ^ 32 - 1)) % 2 ^ 32) (hb : advance a 1 < rd.data) :
    headerLoop m rd path (n + 1) a i part =
      headerLoop m rd path n (advance a 1) (i + 1) (getPathPart path part i) := by
  classical
  rw [headerLoop_succ h habs hpath]
  simp only [if_neg (file_ne_dir hmagic), if_pos hmagic, if_pos hname, if_neg hi,
    if_neg hb.not_ge]

theorem headerLoop_skip (h : Looks rd path a i part) (habs : path.head? = some slash)
    (hpath : 0 ∉ path) (hmagic : magic m a = dirEntry)
    (hname : ¬Holds (fileName m a) (wanted path i))
    (hb : advance a ((fileSize m a + 1) % 2 ^ 32) < rd.data) :
    headerLoop m rd path (n + 1) a i part =
      headerLoop m rd path n (advance a ((fileSize m a + 1) % 2 ^ 32)) i
        (getPathPart path part i) := by
  classical
  rw [headerLoop_succ h habs hpath]
  simp only [if_neg (file_ne_dir hmagic), if_pos hmagic, if_neg hname, if_neg hb.not_ge]

/-- **A header that is not passable does not move the cursor.** -/
theorem headerLoop_stuck (h : Looks rd path a i part) (hrd : rd.Low)
    (habs : path.head? = some slash) (hpath : 0 ∉ path) (ha : a < rd.data)
    (hstuck : ¬Passable m path a i) : headerLoop m rd path (n + 1) a i part =
      headerLoop m rd path n a i (getPathPart path part i) := by
  classical
  rw [Passable, not_or, not_and, not_or] at hstuck
  obtain ⟨hfile, hdir⟩ := hstuck
  rw [headerLoop_succ h habs hpath]
  by_cases hmagic : magic m a = dirEntry
  · obtain ⟨hname, hsize⟩ := hdir hmagic
    have hlt : fileSize m a < 2 ^ 32 := Mem.load_lt m _ 4
    have hwrap : (fileSize m a + 1) % 2 ^ 32 = 0 := by omega
    have hstay : advance a 0 = a := h.advance_eq hrd (by decide)
    simp only [if_neg hfile, if_pos hmagic, if_neg hname, hwrap, hstay, if_neg ha.not_ge]
  · simp only [if_neg hfile, if_neg hmagic, if_neg ha.not_ge]

/-- There it stays. -/
theorem headerLoop_eq_none (h : Looks rd path a i part) (hrd : rd.Low)
    (habs : path.head? = some slash) (hpath : 0 ∉ path) (ha : a < rd.data)
    (hstuck : ¬Passable m path a i) : headerLoop m rd path n a i part = none := by
  induction n generalizing part with
  | zero => rfl
  | succ n ih =>
    rw [headerLoop_stuck h hrd habs hpath ha hstuck]
    exact ih (h.same habs hpath le_rfl ha)

/-! ### The whole search -/

/-- **If the search ends**, then also from every header that it comes to. -/
theorem Comes.ends (h : Comes m rd path a i) (hrd : rd.Low) (habs : path.head? = some slash)
    (hpath : 0 ∉ path) (hfirst : Looks rd path rd.files 0 part) {r : Option ℕ}
    (hends : headerLoop m rd path n rd.files 0 part = some r) :
    ∃ part' n', Looks rd path a i part' ∧ headerLoop m rd path n' a i part' = some r := by
  induction h with
  | start => exact ⟨part, n, hfirst, hends⟩
  | file _ hmagic hname hb ih =>
    obtain ⟨part', n', hlooks, hloop⟩ := ih
    cases n' with
    | zero => simp [headerLoop] at hloop
    | succ n' =>
      rw [headerLoop_behind hlooks habs hpath hmagic hname hb] at hloop
      have hadv := hlooks.advance_eq hrd (k := 1) (by decide)
      exact ⟨_, n', hlooks.same habs hpath (by omega) hb, hloop⟩
  | enter _ hmagic hname hi hb ih =>
    obtain ⟨part', n', hlooks, hloop⟩ := ih
    cases n' with
    | zero => simp [headerLoop] at hloop
    | succ n' =>
      rw [headerLoop_enter hlooks habs hpath hmagic hname hi hb] at hloop
      have hadv := hlooks.advance_eq hrd (k := 1) (by decide)
      exact ⟨_, n', hlooks.next hrd habs hpath hi (by omega) hb, hloop⟩
  | @skip a i _ hmagic hname hb ih =>
    obtain ⟨part', n', hlooks, hloop⟩ := ih
    cases n' with
    | zero => simp [headerLoop] at hloop
    | succ n' =>
      rw [headerLoop_skip hlooks habs hpath hmagic hname hb] at hloop
      have hadv := hlooks.advance_eq hrd
        (Nat.mod_lt (fileSize m a + 1) (by decide : 0 < 2 ^ 32))
      exact ⟨_, n', hlooks.same habs hpath (by omega) hb, hloop⟩

/-- **The search ends** from where it comes to, if every header from there on is passable. -/
theorem Comes.exists_result (h : Comes m rd path a i) (hrd : rd.Low)
    (habs : path.head? = some slash) (hpath : 0 ∉ path)
    (hpass : ∀ a i, Comes m rd path a i → a < rd.data → Passable m path a i)
    (hlooks : Looks rd path a i part) : ∃ n r, headerLoop m rd path n a i part = some r := by
  classical
  -- the cursor moves towards `data`
  induction hd : rd.data - a using Nat.strong_induction_on generalizing a i part with
  | _ d ih =>
    subst hd
    have hmove : ∀ b j, (¬rd.data ≤ b → Comes m rd path b j ∧ a < b ∧
        Looks rd path b j (getPathPart path part i)) → ∃ n r, (if rd.data ≤ b then some none
          else headerLoop m rd path n b j (getPathPart path part i)) = some r := by
      intro b j hb
      by_cases hdata : rd.data ≤ b
      · exact ⟨0, none, if_pos hdata⟩
      · obtain ⟨hcomes, hlt, hlooks'⟩ := hb hdata
        obtain ⟨n, r, hloop⟩ := ih (rd.data - b) (by omega) hcomes hlooks' rfl
        exact ⟨n, r, (if_neg hdata).trans hloop⟩
    suffices hround : ∃ n r, headerLoop m rd path (n + 1) a i part = some r by
      obtain ⟨n, r, hloop⟩ := hround
      exact ⟨n + 1, r, hloop⟩
    simp only [headerLoop_succ hlooks habs hpath]
    have hone := hlooks.advance_eq hrd (k := 1) (by decide)
    by_cases hfile : magic m a = fileEntry
    · simp only [if_pos hfile]
      by_cases hname : Holds (fileName m a) (wanted path i)
      · exact ⟨0, some a, if_pos hname⟩
      · simp only [if_neg hname]
        refine hmove _ _ fun hb => ?_
        rw [not_le] at hb
        exact ⟨h.file hfile hname hb, by omega, hlooks.same habs hpath (by omega) hb⟩
    · simp only [if_neg hfile]
      by_cases hdir : magic m a = dirEntry
      · simp only [if_pos hdir]
        by_cases hname : Holds (fileName m a) (wanted path i)
        · simp only [if_pos hname]
          by_cases hi : i = (getPathDepth path + (2 ^ 32 - 1)) % 2 ^ 32
          · exact ⟨0, some a, if_pos hi⟩
          · simp only [if_neg hi]
            refine hmove _ _ fun hb => ?_
            rw [not_le] at hb
            exact ⟨h.enter hdir hname hi hb, by omega,
              hlooks.next hrd habs hpath hi (by omega) hb⟩
        · simp only [if_neg hname]
          refine hmove _ _ fun hb => ?_
          rw [not_le] at hb
          have hskip := hlooks.advance_eq hrd
            (Nat.mod_lt (fileSize m a + 1) (by decide : 0 < 2 ^ 32))
          have hsize : fileSize m a + 1 < 2 ^ 32 := by
            rcases hpass a i h (by omega) with hmagic | ⟨_, hname' | hsize⟩
            · exact absurd hmagic hfile
            · exact absurd hname' hname
            · exact hsize
          rw [Nat.mod_eq_of_lt hsize] at hskip hb ⊢
          have hcomes := h.skip hdir hname (by rwa [Nat.mod_eq_of_lt hsize])
          rw [Nat.mod_eq_of_lt hsize] at hcomes
          exact ⟨hcomes, by omega, hlooks.same habs hpath (by omega) hb⟩
      · simp only [if_neg hdir]
        refine hmove _ _ fun hb => ?_
        rw [not_le] at hb
        rcases hpass a i h hb with hmagic | ⟨hmagic, _⟩
        · exact absurd hmagic hfile
        · exact absurd hmagic hdir

/-- Where the search begins. -/
theorem looks_first (path : List UInt8) (part : ℕ → UInt8) (rd : Ramdisk) :
    Looks rd path rd.files 0 part where
  index := by
    rcases Nat.eq_zero_or_pos (getPathDepth path) with hzero | hpos
    · exact Or.inr ⟨hzero, Or.inl rfl⟩
    · exact Or.inl hpos
  behind := le_rfl
  before := Or.inr rfl

end Search

/-! ### The ramdisk of the kernel -/

section Init

variable {path : List UInt8} {module : ℕ}

theorem low_initRamdisk (m : Mem) (hmodule : module < 2 ^ 32) :
    (initRamdisk m (virtMemOffset + module)).Low := by
  have hoff : virtMemOffset = 2 ^ 64 - 2 ^ 39 := rfl
  have hload : m.load (virtMemOffset + module + 8) 4 < 2 ^ 32 := Mem.load_lt m _ 4
  refine ⟨?_, ?_⟩
  · change virtMemOffset + module + m.load (virtMemOffset + module + 8) 4 <
      virtMemOffset + module + 16 + 2 ^ 32
    omega
  · change virtMemOffset + module + 16 + 81 * 2 ^ 32 ≤ 2 ^ 64
    omega

/-- A ramdisk with one header, of 80 bytes of zeros. -/
def blankHeader : Mem := fun a => if a = virtMemOffset + 0x100008 then 96 else 0

end Init

end Xana
