import Xana.Lib.Runs
import Xana.Filesystem.Cleanup

/-!
# The working directory

`resolve_path` and `kfsetpwd` of `filesystem.c`. A process has its `pwd`, and all
of them share `resolution_buffer`, in which a path is resolved; so at a call the
buffer may hold anything.

The working directory is what `abs_path_cleanup` has left of a path with a slash
at the end. Whatever `abs_path_cleanup` does with `..`, no component that it keeps
is a `.` or a `..`, and the slash at the end stays (`Xana.kfsetpwd_spec`).
-/

namespace Xana

/-- `PATH_MAX`. -/
def pathMax : ℕ := 4096

/-- `ENAMETOOLONG`. -/
def enametoolong : ℤ := 36

/-- `resolve_path`: what is in `resolution_buffer` then. -/
def resolvePath (n : ℕ) (pwd path buffer : ℕ → UInt8) : Option (ℕ → UInt8) :=
  if path 0 ≠ slash then do
    let lenPwd ← strlen n pwd
    let lenPath ← strlen n path
    if lenPwd + lenPath + 2 > pathMax then none -- `kpanic`
    else
      let buffer ← strcpy n buffer pwd
      let buffer ← strcat n buffer (chars [slash])
      strcat n buffer path
  else do
    let len ← strlen n path
    if len > pathMax then none -- `kpanic`
    else strcpy n buffer path

/-- The end of `kfsetpwd`, when the path is short enough. -/
def setPwd (n : ℕ) (pwd buffer : ℕ → UInt8) : Option (ℤ × (ℕ → UInt8) × (ℕ → UInt8)) := do
  let buffer ← absPathCleanup n buffer
  let pwd ← strcpy n pwd buffer
  some (0, pwd, buffer)

/-- `kfsetpwd`: what it returns, the `pwd` and the buffer. -/
def kfsetpwd (n : ℕ) (newPwd pwd buffer : ℕ → UInt8) :
    Option (ℤ × (ℕ → UInt8) × (ℕ → UInt8)) := do
  let len ← strlen n newPwd
  if len > pathMax then some (-enametoolong, pwd, buffer)
  else
    let buffer ← resolvePath n pwd newPwd buffer
    let len ← strlen n buffer
    if buffer (len - 1) ≠ slash then
      let buffer ← strcat n buffer (chars [slash])
      let len ← strlen n buffer
      if len > pathMax then some (-enametoolong, pwd, buffer)
      else setPwd n pwd buffer
    else setPwd n pwd buffer

/-- The path that another one is resolved to, from the working directory `p`. -/
def resolved (p path : List UInt8) : List UInt8 :=
  if path.head? = some slash then path else p ++ slash :: path

/-! ### One call -/

section Call

variable {pwd newPwd buffer : ℕ → UInt8} {p l r : List UInt8} {st : List (List UInt8)} {n : ℕ}

theorem holds_slash : Holds (chars [slash]) [slash] := holds_chars (by decide)

theorem Holds.head?_eq_iff (h : Holds newPwd l) : l.head? = some slash ↔ newPwd 0 = slash := by
  have h0 := h.apply (Nat.zero_le _)
  cases l with
  | nil =>
    rw [h0]
    simp [slash]
  | cons c l =>
    rw [h0]
    simp

theorem resolvePath_spec (hp : Holds pwd p) (hl : Holds newPwd l)
    (hshort : (resolved p l).length + 1 < pathMax) (hn : pathMax ≤ n) (buffer : ℕ → UInt8) :
    ∃ b, resolvePath n pwd newPwd buffer = some b ∧ Holds b (resolved p l) := by
  rw [resolved] at hshort ⊢
  split_ifs at hshort ⊢ with habs
  · obtain ⟨b, hcpy, hb⟩ := strcpy_spec (t := buffer) hl (n := n) (by omega)
    refine ⟨b, ?_, hb⟩
    rw [resolvePath, if_neg (not_not.mpr (hl.head?_eq_iff.mp habs)), strlen_eq hl (by omega)]
    exact (if_neg (by omega)).trans hcpy
  · rw [List.length_append, List.length_cons] at hshort
    obtain ⟨b, hcpy, hb⟩ := strcpy_spec (t := buffer) hp (n := n) (by omega)
    obtain ⟨b', hcat, hb'⟩ := strcat_spec (n := n) hb holds_slash (by omega)
      (by rw [List.length_singleton]; omega)
    have hlen : (p ++ [slash]).length = p.length + 1 := by simp
    obtain ⟨b'', hcat', hb''⟩ := strcat_spec (n := n) hb' hl (by omega) (by omega)
    refine ⟨b'', ?_, by simpa using hb''⟩
    have hlong : ¬p.length + l.length + 2 > pathMax := by omega
    rw [resolvePath, if_pos fun hc => habs (hl.head?_eq_iff.mpr hc)]
    simp only [strlen_eq hp (n := n) (by omega), strlen_eq hl (n := n) (by omega),
      Option.bind_eq_bind, Option.bind_some, if_neg hlong, hcpy, hcat, hcat']

theorem resolvePath_mono (pwd path buffer : ℕ → UInt8) :
    MonoRounds fun n => resolvePath n pwd path buffer := by
  unfold resolvePath
  refine .ite ((strlen_mono pwd).bind fun _ => (strlen_mono path).bind fun _ => ?_)
    ((strlen_mono path).bind fun _ => .ite (.const none) (strcpy_mono buffer path))
  refine .ite (.const none) ((strcpy_mono buffer pwd).bind fun b => ?_)
  exact (strcat_mono b (chars [slash])).bind fun b' => strcat_mono b' path

theorem setPwd_mono (pwd buffer : ℕ → UInt8) : MonoRounds fun n => setPwd n pwd buffer :=
  (absPathCleanup_mono buffer).bind fun b => (strcpy_mono pwd b).bind fun _ => .const _

theorem kfsetpwd_mono (newPwd pwd buffer : ℕ → UInt8) :
    MonoRounds fun n => kfsetpwd n newPwd pwd buffer := by
  refine (strlen_mono newPwd).bind fun _ => .ite (.const _) ?_
  refine (resolvePath_mono pwd newPwd buffer).bind fun b => (strlen_mono b).bind fun _ => ?_
  refine .ite ((strcat_mono b (chars [slash])).bind fun b' => ?_) (setPwd_mono pwd b)
  exact (strlen_mono b').bind fun _ => .ite (.const _) (setPwd_mono pwd b')

/-- What `kfsetpwd` does with a resolved path that ends in a slash. -/
theorem setPwd_spec (hb : Holds buffer r) (habs : r.head? = some slash)
    (hend : r.getLast? = some slash) (hn : r.length < n) (pwd : ℕ → UInt8) :
    ∃ pwd' b', setPwd n pwd buffer = some (0, pwd', b') ∧
      Holds pwd' (absPath ((components r).foldl cleanupStep []) ++ [slash]) := by
  obtain ⟨b', hclean, hb'⟩ := absPathCleanup_spec hb habs hn
  have hlen := length_cleanedUp habs
  rw [trail, if_pos hend] at hb' hlen
  obtain ⟨pwd', hcpy, hpwd'⟩ := strcpy_spec (t := pwd) (n := n) hb' (by omega)
  refine ⟨pwd', b', ?_, hpwd'⟩
  simp only [setPwd, hclean, hcpy, Option.bind_eq_bind, Option.bind_some]

/-- The test for a slash at the end. -/
theorem Holds.last_eq_iff (h : Holds buffer r) (hr : r ≠ []) :
    buffer (r.length - 1) = slash ↔ r.getLast? = some slash := by
  have hlt : r.length - 1 < r.length := Nat.sub_one_lt_of_lt (List.length_pos_iff.mpr hr)
  rw [h.apply hlt.le, List.getD_eq_getElem _ _ hlt, List.getLast?_eq_getElem?,
    List.getElem?_eq_getElem hlt, Option.some_inj]

theorem resolved_head? (habs : p.head? = some slash) (l : List UInt8) :
    (resolved p l).head? = some slash := by
  rw [resolved]
  split_ifs with hl
  · exact hl
  · cases p with
    | nil => simp at habs
    | cons c p => simpa using habs

/-- **`kfsetpwd` with a path that is short enough**: it returns `0`, and the working
directory is what is left of the resolved path, with a slash at the end. -/
theorem kfsetpwd_spec (hp : Holds pwd p) (habs : p.head? = some slash) (hl : Holds newPwd l)
    (hshort : (resolved p l).length + 1 < pathMax) (buffer : ℕ → UInt8) :
    ∃ r pwd' b', (r = resolved p l ∨ r = resolved p l ++ [slash]) ∧
      Returns (fun n => kfsetpwd n newPwd pwd buffer) (0, pwd', b') ∧
      Holds pwd' (absPath ((components r).foldl cleanupStep []) ++ [slash]) := by
  have hmono := kfsetpwd_mono newPwd pwd buffer
  have hle : l.length ≤ (resolved p l).length := by
    rw [resolved]
    split_ifs
    · exact le_rfl
    · simp only [List.length_append, List.length_cons]
      omega
  have hhead := resolved_head? habs l
  obtain ⟨b, hresolve, hb⟩ := resolvePath_spec hp hl hshort le_rfl buffer
  have hlong : ¬l.length > pathMax := by omega
  have hne : resolved p l ≠ [] := by
    intro hnil
    simp [hnil] at hhead
  have hlast := hb.last_eq_iff hne
  by_cases hend : (resolved p l).getLast? = some slash
  · obtain ⟨pwd', b', hset, hpwd'⟩ := setPwd_spec (n := pathMax) hb hhead hend (by omega) pwd
    refine ⟨_, pwd', b', Or.inl rfl, hmono.returns (k := pathMax) ?_, hpwd'⟩
    simp only [kfsetpwd, strlen_eq hl (n := pathMax) (by omega), Option.bind_eq_bind,
      Option.bind_some, if_neg hlong, hresolve, strlen_eq hb (n := pathMax) (by omega),
      hlast.mpr hend, ne_eq, not_true_eq_false, if_false, hset]
  · -- the slash is missing
    obtain ⟨b₁, hcat, hb₁⟩ := strcat_spec (n := pathMax) hb holds_slash (by omega) (by decide)
    have hhead₁ : (resolved p l ++ [slash]).head? = some slash := by
      rw [List.head?_append_of_ne_nil _ hne, hhead]
    have hlen₁ : (resolved p l ++ [slash]).length = (resolved p l).length + 1 := by simp
    have hlong₁ : ¬(resolved p l ++ [slash]).length > pathMax := by omega
    obtain ⟨pwd', b', hset, hpwd'⟩ := setPwd_spec (n := pathMax) hb₁ hhead₁
      List.getLast?_concat (by omega) pwd
    refine ⟨_, pwd', b', Or.inr rfl, hmono.returns (k := pathMax) ?_, hpwd'⟩
    simp only [kfsetpwd, strlen_eq hl (n := pathMax) (by omega), Option.bind_eq_bind,
      Option.bind_some, if_neg hlong, hresolve, strlen_eq hb (n := pathMax) (by omega),
      mt hlast.mp hend, ne_eq, not_false_eq_true, if_true, hcat,
      strlen_eq hb₁ (n := pathMax) (by omega), if_neg hlong₁, hset]

/-- **An error of `kfsetpwd`** leaves the working directory as it is. -/
theorem kfsetpwd_error {e : ℤ} {pwd' b' : ℕ → UInt8}
    (h : Returns (fun n => kfsetpwd n newPwd pwd buffer) (e, pwd', b')) (he : e ≠ 0) :
    pwd' = pwd := by
  obtain ⟨n, -, h⟩ := h.exists_ge 0
  have hset : ∀ {b : ℕ → UInt8}, setPwd n pwd b ≠ some (e, pwd', b') := by
    intro b hb
    simp only [setPwd, Option.bind_eq_bind, Option.bind_eq_some_iff, Option.some_inj] at hb
    obtain ⟨_, -, _, -, heq⟩ := hb
    exact he (Prod.mk.inj heq).1.symm
  simp only [kfsetpwd, Option.bind_eq_bind, Option.bind_eq_some_iff] at h
  obtain ⟨len, -, h⟩ := h
  split_ifs at h with hlong
  · exact (Prod.mk.inj (Prod.mk.inj (Option.some.inj h)).2).1.symm
  · obtain ⟨b, -, h⟩ := Option.bind_eq_some_iff.mp h
    obtain ⟨len', -, h⟩ := Option.bind_eq_some_iff.mp h
    split_ifs at h with hlast
    · obtain ⟨b₁, -, h⟩ := Option.bind_eq_some_iff.mp h
      obtain ⟨len₁, -, h⟩ := Option.bind_eq_some_iff.mp h
      split_ifs at h
      · exact (Prod.mk.inj (Prod.mk.inj (Option.some.inj h)).2).1.symm
      · exact absurd h hset
    · exact absurd h hset

end Call

/-! ### All calls of a process -/

/-- A call of `kfsetpwd`: its argument, and what others have left in the buffer. -/
structure SetPwd where
  newPwd : ℕ → UInt8
  buffer : ℕ → UInt8

/-- A call, from one `pwd` to the next. -/
def SetPwd.Step (pwd : ℕ → UInt8) (a : SetPwd) (pwd' : ℕ → UInt8) : Prop :=
  ∃ e b', Returns (fun n => kfsetpwd n a.newPwd pwd a.buffer) (e, pwd', b')

/-- The resolved path, with a slash at the end, is shorter than `PATH_MAX`. -/
def SetPwd.Short (pwd : ℕ → UInt8) (a : SetPwd) : Prop :=
  ∃ p l, Holds pwd p ∧ Holds a.newPwd l ∧ (resolved p l).length + 1 < pathMax

/-- **A working directory**: a slash at both ends, no empty component, no `.` and
no `..`. -/
structure WorkingDirectory (p : List UInt8) : Prop where
  head : p.head? = some slash
  last : p.getLast? = some slash
  noDouble : ¬[slash, slash] <:+: p
  noDots : ∀ n ∈ components p, n ≠ [dot] ∧ n ≠ [dot, dot]

section WorkingDirectory

variable {n r : List UInt8} {st l : List (List UInt8)}

theorem not_infix_append (hn : slash ∉ n) (hr : ¬[slash, slash] <:+: r) :
    ¬[slash, slash] <:+: n ++ r := by
  induction n with
  | nil => exact hr
  | cons c n ih =>
    rw [List.mem_cons, not_or] at hn
    intro hc
    rcases List.infix_cons_iff.mp hc with hpre | hinf
    · exact hn.1 (List.cons_prefix_cons.mp hpre).1
    · exact ih hn.2 hinf

theorem not_infix_absPath (hst : ∀ n ∈ st, IsName n) :
    ¬[slash, slash] <:+: absPath st ++ [slash] := by
  induction st with
  | nil =>
    intro hc
    simpa [absPath] using hc.length_le
  | cons n st ih =>
    have hname := hst n List.mem_cons_self
    have hsplit : absPath (n :: st) ++ [slash] = slash :: (n ++ (absPath st ++ [slash])) := by
      simp [absPath]
    rw [hsplit]
    intro hc
    rcases List.infix_cons_iff.mp hc with hpre | hinf
    · -- the name would begin with a slash
      obtain ⟨c, n, rfl⟩ := List.exists_cons_of_ne_nil hname.1
      have hpre' := (List.cons_prefix_cons.mp hpre).2
      exact hname.2 ((List.cons_prefix_cons.mp hpre').1 ▸ List.mem_cons_self)
    · exact not_infix_append hname.2 (ih fun m hm => hst m (List.mem_cons_of_mem n hm)) hinf

theorem isClean_cleanupStep (hst : ∀ c ∈ st, IsClean c) (hn : IsName n) :
    ∀ c ∈ cleanupStep st n, IsClean c := by
  intro c hc
  rw [cleanupStep] at hc
  split_ifs at hc with h1 h2
  · exact hst c hc
  · exact hst c hc
  · exact hst c ((List.dropLast_sublist st).subset hc)
  · rcases List.mem_append.mp hc with hc | hc
    · exact hst c hc
    · rw [List.mem_singleton.mp hc]
      exact ⟨hn, h1, h2⟩

theorem isClean_foldl_cleanupStep (hst : ∀ n ∈ st, IsClean n) (hl : ∀ n ∈ l, IsName n) :
    ∀ n ∈ l.foldl cleanupStep st, IsClean n := by
  induction l generalizing st with
  | nil => exact hst
  | cons m l ih =>
    exact ih (isClean_cleanupStep hst (hl m List.mem_cons_self))
      fun n hn => hl n (List.mem_cons_of_mem m hn)

theorem workingDirectory_absPath (hst : ∀ n ∈ st, IsClean n) :
    WorkingDirectory (absPath st ++ [slash]) := by
  have hnames : ∀ n ∈ st, IsName n := fun n hn => (hst n hn).1
  refine ⟨?_, List.getLast?_concat, not_infix_absPath hnames, ?_⟩
  · cases st with
    | nil => rfl
    | cons n st => rfl
  · rw [components_absPath_append hnames (Or.inr rfl)]
    exact fun n hn => (hst n hn).2

variable {pwd : ℕ → UInt8}

/-- The invariant of the runs. -/
theorem exists_workingDirectory
    (h : Reach SetPwd.Step SetPwd.Short (fun pwd => Holds pwd [slash]) pwd) :
    ∃ p, Holds pwd p ∧ WorkingDirectory p := by
  refine Reach.invariant (P := fun pwd => ∃ p, Holds pwd p ∧ WorkingDirectory p) ?_ ?_ h
  · intro pwd hpwd
    have hroot := workingDirectory_absPath (List.forall_mem_nil IsClean)
    exact ⟨[slash], hpwd, hroot⟩
  · rintro pwd a pwd' ⟨p, hp, hdir⟩ ⟨p', l, hp', hl, hshort⟩ ⟨e, b', hreturns⟩
    obtain rfl := hp.unique hp'
    obtain ⟨r, pwd₁, b₁, hr, hreturns₁, hpwd₁⟩ :=
      kfsetpwd_spec hp hdir.head hl hshort a.buffer
    have hhead : r.head? = some slash := by
      have hres := resolved_head? hdir.head l
      rcases hr with rfl | rfl
      · exact hres
      · rw [List.head?_append, hres]
        rfl
    have heq := hreturns.unique hreturns₁
    obtain rfl : pwd' = pwd₁ := (Prod.mk.inj (Prod.mk.inj heq).2).1
    refine ⟨_, hpwd₁, workingDirectory_absPath ?_⟩
    exact isClean_foldl_cleanupStep (by simp) (isName_components hhead)

/-- **The working directory** of a process, after any calls of `kfsetpwd`; and a
call that returns an error leaves it unchanged. -/
theorem workingDirectory_of_reach
    (h : Reach SetPwd.Step SetPwd.Short (fun pwd => Holds pwd [slash]) pwd) :
    (∃ p, Holds pwd p ∧ WorkingDirectory p) ∧
      ∀ newPwd buffer e pwd' b',
        Returns (fun n => kfsetpwd n newPwd pwd buffer) (e, pwd', b') → e ≠ 0 → pwd' = pwd :=
  ⟨exists_workingDirectory h, fun _ _ _ _ _ => kfsetpwd_error⟩

/-- After a call with `usr/.././/bin`. -/
theorem workingDirectory_usr :
    ∃ pwd : ℕ → UInt8, pwd 1 = 117 ∧ (∃ p, Holds pwd p ∧ WorkingDirectory p) ∧
      ∀ newPwd buffer e pwd' b',
        Returns (fun n => kfsetpwd n newPwd pwd buffer) (e, pwd', b') → e ≠ 0 → pwd' = pwd := by
  have hroot : Holds (chars [slash]) [slash] := holds_slash
  have hl : Holds (chars [117, 115, 114, 47, 46, 46, 47, 46, 47, 47, 98, 105, 110])
      [117, 115, 114, 47, 46, 46, 47, 46, 47, 47, 98, 105, 110] := holds_chars (by decide)
  obtain ⟨r, pwd', b', hr, hreturns, hpwd'⟩ := kfsetpwd_spec hroot rfl hl (by decide) (chars [])
  refine ⟨pwd', ?_, workingDirectory_of_reach (.step (a := ⟨_, chars []⟩) (.init hroot)
    ⟨_, _, hroot, hl, by decide⟩ ⟨0, b', hreturns⟩)⟩
  have hr' : absPath ((components r).foldl cleanupStep []) =
      [47, 117, 115, 114, 47, 98, 105, 110] := by
    rcases hr with rfl | rfl <;> decide
  rw [hr'] at hpwd'
  exact hpwd'.apply (i := 1) (by decide)

end WorkingDirectory

end Xana
