import Xana.Filesystem.InPlace

/-!
# The buffers of the working directory

`resolve_path`, `kfsetpwd` and `kfgetpwd` copy paths into buffers of `PATH_MAX` bytes, or of
the caller's size, and each of them looks at the lengths first. But some count the `NUL`
and some do not, and `kfsetpwd` has its second look when the slash has been written. So
three lengths are one byte too long: an absolute path of `PATH_MAX` bytes, a resolved path
of `PATH_MAX - 1` bytes without a slash at its end, and a working directory that is as long
as the caller's buffer (`Xana.pwdInside_iff`).

Each function leaves a string at the start of its buffer and the rest of the buffer as it
was (`Xana.put`); it is in its buffer if it does so whatever the buffer held.
-/

namespace Xana

/-- The array `t` with the string `l` at its start. -/
def put (l : List UInt8) (t : ℕ → UInt8) : ℕ → UInt8 := patch l.length (chars l) t

/-- `kfgetpwd`: what is in the caller's buffer then; nothing if it returns `NULL`. -/
def kfgetpwd (n : ℕ) (pwd : ℕ → UInt8) (buf : Option (ℕ → UInt8)) (size : ℕ) :
    Option (Option (ℕ → UInt8)) := do
  let len ← strlen n pwd
  if len > size then some none
  else if buf.isNone then some none
  else (strcpy n (buf.getD fun _ => 0) pwd).map some

/-- **The functions write inside the buffers**: whatever was in one, it is still there from
the end of the buffer on. -/
structure PwdInside (pwd path : ℕ → UInt8) (size : ℕ) : Prop where
  /-- `resolve_path` in `resolution_buffer`, -/
  resolve : ∀ buffer b, Returns (fun n => resolvePath n pwd path buffer) b →
    ∀ i ≥ pathMax, b i = buffer i
  /-- `kfsetpwd` there and in `pwd`, -/
  setPwd : ∀ buffer e pwd' b, Returns (fun n => kfsetpwd n path pwd buffer) (e, pwd', b) →
    ∀ i ≥ pathMax, b i = buffer i ∧ pwd' i = pwd i
  /-- and `kfgetpwd` in the caller's buffer. -/
  getPwd : ∀ buf b, Returns (fun n => kfgetpwd n pwd (some buf) size) (some b) →
    ∀ i ≥ size, b i = buf i

/-- **The lengths that are no trouble.** -/
structure PwdFits (p l : List UInt8) (size : ℕ) : Prop where
  path : ¬(l.head? = some slash ∧ l.length = pathMax)
  resolved : ¬((resolved p l).length + 1 = pathMax ∧ (resolved p l).getLast? ≠ some slash)
  pwd : p.length ≠ size

/-! ### A string at the start -/

section Put

variable {s t : ℕ → UInt8} {l l' : List UInt8} {i n : ℕ}

theorem put_of_gt (h : l.length < i) : put l t i = t i := if_neg (Nat.not_le.mpr h)

theorem holds_put (h : 0 ∉ l) : Holds (put l t) l := (holds_chars h).patch le_rfl

/-- Behind the last character there is the `NUL`, in an array and in a list. -/
theorem getD_concat_zero (l : List UInt8) (i : ℕ) : (l ++ [0]).getD i 0 = l.getD i 0 := by
  rcases Nat.lt_trichotomy i l.length with hlt | rfl | hgt
  · rw [List.getD_append _ _ _ _ hlt]
  · rw [List.getD_append_right _ _ _ _ le_rfl, Nat.sub_self, List.getD_eq_default _ _ le_rfl]
    rfl
  · rw [List.getD_eq_default _ _ (by simp; omega), List.getD_eq_default _ _ hgt.le]

/-- A string written behind another one that is at the start. -/
theorem write_put : Mem.write (put l t) l.length (l' ++ [0]) = put (l ++ l') t := by
  funext i
  have hlen : (l' ++ [0]).length = l'.length + 1 := by simp
  rw [Mem.write, hlen, getD_concat_zero]
  simp only [put, patch, List.length_append, chars]
  rcases Nat.lt_or_ge i l.length with hlt | hge
  · rw [if_neg (by omega), if_pos hlt.le, if_pos (by omega), List.getD_append _ _ _ _ hlt]
  rcases Nat.lt_or_ge (l.length + l'.length) i with hgt | hle
  · rw [if_neg (by omega), if_neg (by omega), if_neg (by omega)]
  · rw [if_pos (by omega), if_pos hle, List.getD_append_right _ _ _ _ hge]

/-- **`strcpy`** puts the string at the start. -/
theorem strcpy_eq_put (h : Holds s l) (hn : l.length < n) : strcpy n t s = some (put l t) := by
  rw [strcpy, copyString_eq h hn]
  refine congrArg some ?_
  funext i
  have hlen : (l ++ [0]).length = l.length + 1 := by simp
  rw [Mem.write, hlen, getD_concat_zero, put, patch, Nat.sub_zero]
  split_ifs
  · rfl
  · omega
  · omega
  · rfl

/-- **`strcat`** puts the two strings there. -/
theorem strcat_eq_put (hl : 0 ∉ l) (h : Holds s l') (hn : l.length < n) (hn' : l'.length < n) :
    strcat n (put l t) s = some (put (l ++ l') t) := by
  rw [strcat, strlen_eq (holds_put hl) hn]
  exact (copyString_eq h hn').trans (congrArg some write_put)

/-- **A buffer that may have held anything**: what is put there up to index `L` is inside the
first `n` bytes if `L` is, and only then. -/
theorem patch_inside_iff {L : ℕ} {s : ℕ → UInt8} :
    (∀ t : ℕ → UInt8, ∀ i ≥ n, patch L s t i = t i) ↔ L < n := by
  constructor
  · intro h
    by_contra hlen
    -- a buffer with another byte where the last one goes
    obtain ⟨c, hc⟩ : ∃ c : UInt8, c ≠ s L := by
      by_cases hz : s L = 0
      · exact ⟨1, by rw [hz]; decide⟩
      · exact ⟨0, Ne.symm hz⟩
    have hsame := h (fun _ => c) L (Nat.not_lt.mp hlen)
    rw [patch_of_le le_rfl] at hsame
    exact hc hsame.symm
  · intro hlt t i hi
    exact if_neg (by omega)

end Put

/-! ### The three functions -/

section Functions

variable {pwd newPwd buffer : ℕ → UInt8} {p l r : List UInt8} {n size : ℕ}

/-- **`resolve_path` when it does not panic.** -/
theorem resolvePath_eq_put (hp : Holds pwd p) (hl : Holds newPwd l)
    (habs : l.head? = some slash → l.length ≤ pathMax)
    (hrel : l.head? ≠ some slash → p.length + l.length + 2 ≤ pathMax) (hn : pathMax < n) :
    resolvePath n pwd newPwd buffer = some (put (resolved p l) buffer) := by
  rw [resolvePath, resolved]
  by_cases hhead : l.head? = some slash
  · have hle := habs hhead
    rw [if_neg (not_not.mpr (hl.head?_eq_iff.mp hhead)), if_pos hhead, strlen_eq hl (by omega)]
    exact (if_neg (by omega)).trans (strcpy_eq_put hl (by omega))
  · have hle := hrel hhead
    have hp0 : 0 ∉ p := (holds_iff.mp hp).1
    have hp1 : 0 ∉ p ++ [slash] := by simp [hp0, slash]
    have hlen : (p ++ [slash]).length = p.length + 1 := by simp
    have hsplit : p ++ [slash] ++ l = p ++ slash :: l := by simp
    rw [if_pos fun hc => hhead (hl.head?_eq_iff.mpr hc), if_neg hhead]
    simp only [strlen_eq hp (n := n) (by omega), strlen_eq hl (n := n) (by omega),
      Option.bind_eq_bind, Option.bind_some]
    rw [if_neg (by omega), strcpy_eq_put hp (by omega), Option.bind_some,
      strcat_eq_put hp0 holds_slash (by omega) (by simp; omega), Option.bind_some,
      strcat_eq_put hp1 hl (by omega) (by omega), hsplit]

/-- `resolve_path` panics, if it gets so far. -/
theorem resolvePath_eq_none (hp : Holds pwd p) (hl : Holds newPwd l)
    (hlong : (l.head? = some slash ∧ pathMax < l.length) ∨
      (l.head? ≠ some slash ∧ pathMax < p.length + l.length + 2)) :
    resolvePath n pwd newPwd buffer = none := by
  by_contra hne
  obtain ⟨b, hb⟩ := Option.ne_none_iff_exists'.mp hne
  have hmore := (resolvePath_mono pwd newPwd buffer).of_ge hb
    (Nat.le_max_left n (p.length + l.length + 1))
  have hlp := strlen_eq hp (n := max n (p.length + l.length + 1)) (by omega)
  have hll := strlen_eq hl (n := max n (p.length + l.length + 1)) (by omega)
  rw [resolvePath] at hmore
  rcases hlong with ⟨hhead, hlong⟩ | ⟨hhead, hlong⟩
  · rw [if_neg (not_not.mpr (hl.head?_eq_iff.mp hhead)), hll] at hmore
    rw [Option.bind_eq_bind, Option.bind_some, if_pos hlong] at hmore
    cases hmore
  · rw [if_pos fun hc => hhead (hl.head?_eq_iff.mpr hc), hlp, hll] at hmore
    rw [Option.bind_eq_bind, Option.bind_some, Option.bind_some, if_pos hlong] at hmore
    cases hmore

/-- **When `resolve_path` stays inside**: with a path that is not as long as the buffer. -/
theorem resolvePath_inside_iff (hp : Holds pwd p) (hl : Holds newPwd l) :
    (∀ buffer b, Returns (fun n => resolvePath n pwd newPwd buffer) b →
        ∀ i ≥ pathMax, b i = buffer i) ↔
      ¬(l.head? = some slash ∧ l.length = pathMax) := by
  by_cases hlong : (l.head? = some slash ∧ pathMax < l.length) ∨
      (l.head? ≠ some slash ∧ pathMax < p.length + l.length + 2)
  · refine iff_of_true (fun buffer b hb => ?_) ?_
    · obtain ⟨n, -, hn⟩ := hb.exists_ge 0
      cases hn.symm.trans (resolvePath_eq_none hp hl hlong)
    · rintro ⟨hhead, heq⟩
      rcases hlong with ⟨-, hlong⟩ | ⟨hno, -⟩
      · omega
      · exact hno hhead
  · have habs : l.head? = some slash → l.length ≤ pathMax := fun hhead =>
      Nat.not_lt.mp fun hlt => hlong (Or.inl ⟨hhead, hlt⟩)
    have hrel : l.head? ≠ some slash → p.length + l.length + 2 ≤ pathMax := fun hhead =>
      Nat.not_lt.mp fun hlt => hlong (Or.inr ⟨hhead, hlt⟩)
    have hreturns : ∀ buffer, Returns (fun n => resolvePath n pwd newPwd buffer)
        (put (resolved p l) buffer) := fun buffer =>
      ⟨pathMax + 1, fun n hn => resolvePath_eq_put hp hl habs hrel hn⟩
    have hput : (∀ buffer b, Returns (fun n => resolvePath n pwd newPwd buffer) b →
        ∀ i ≥ pathMax, b i = buffer i) ↔ (resolved p l).length < pathMax := by
      rw [← patch_inside_iff (s := chars (resolved p l))]
      refine forall_congr' fun buffer => ⟨fun h => h _ (hreturns buffer), fun h b hb => ?_⟩
      rw [hb.unique (hreturns buffer)]
      exact h
    rw [hput, resolved]
    by_cases hhead : l.head? = some slash
    · have hle := habs hhead
      rw [if_pos hhead]
      exact ⟨fun hlt heq => absurd heq.2 hlt.ne, fun hne => lt_of_le_of_ne hle fun heq =>
        hne ⟨hhead, heq⟩⟩
    · have hle := hrel hhead
      rw [if_neg hhead, List.length_append, List.length_cons]
      exact iff_of_true (by omega) fun hc => hhead hc.1

/-- The resolved path with a slash at its end. -/
def withSlash (r : List UInt8) : List UInt8 :=
  if r.getLast? = some slash then r else r ++ [slash]

/-- **The end of `kfsetpwd`**: the string is cleaned up where it is, and copied. -/
theorem setPwd_eq (h0 : 0 ∉ r) (habs : r.head? = some slash) (hend : r.getLast? = some slash) :
    ∃ s c, 0 ∉ c ∧ c.head? = some slash ∧ c.length ≤ r.length ∧ ∀ buffer pwd, ∀ n > r.length,
      setPwd n pwd (put r buffer) = some (0, put c pwd, patch r.length s buffer) := by
  obtain ⟨s, hrun, hs⟩ := absPathCleanup_spec (holds_chars h0) habs (Nat.lt_succ_self r.length)
  have hlen := length_cleanedUp habs
  rw [trail, if_pos hend] at hs hlen
  refine ⟨s, _, (holds_iff.mp hs).1, ?_, hlen, fun buffer pwd n hn => ?_⟩
  · cases (components r).foldl cleanupStep [] <;> rfl
  · have hclean : absPathCleanup n (put r buffer) = some (patch r.length s buffer) := by
      rw [absPathCleanup, put, cleanupLoop_patch (holds_chars h0) (Nat.zero_le _) le_rfl]
      exact congrArg (Option.map (patch r.length · buffer)) ((absPathCleanup_mono _).of_ge hrun hn)
    rw [Xana.setPwd, hclean, Option.bind_eq_bind, Option.bind_some,
      strcpy_eq_put (hs.patch hlen) (hlen.trans_lt hn)]
    rfl

/-- **`kfsetpwd` when nothing is too long for it to begin**: what it leaves in the buffer, up to
the slash, does not depend on the buffer, and a string is the new working directory. -/
theorem exists_kfsetpwd (hp : Holds pwd p) (hroot : p.head? = some slash) (hl : Holds newPwd l)
    (hshort : l.length ≤ pathMax)
    (hrel : l.head? ≠ some slash → p.length + l.length + 2 ≤ pathMax) : ∃ e s pwd' p',
      (∀ buffer, Returns (fun n => kfsetpwd n newPwd pwd buffer)
        (e, pwd', patch (withSlash (resolved p l)).length s buffer)) ∧
      (∀ i > (withSlash (resolved p l)).length, pwd' i = pwd i) ∧
      Holds pwd' p' ∧ p'.head? = some slash := by
  have hmono := fun buffer => kfsetpwd_mono newPwd pwd buffer
  have hresolve : ∀ buffer, resolvePath (pathMax + 2) pwd newPwd buffer =
      some (put (resolved p l) buffer) := fun buffer =>
    resolvePath_eq_put hp hl (fun _ => hshort) hrel (by omega)
  have hhead := resolved_head? hroot l
  have h0 : 0 ∉ resolved p l := by
    rw [resolved]
    split_ifs
    · exact (holds_iff.mp hl).1
    · simp [(holds_iff.mp hp).1, (holds_iff.mp hl).1, slash]
  have hle : (resolved p l).length ≤ pathMax := by
    rw [resolved]
    split_ifs with habs
    · exact hshort
    · have := hrel habs
      rw [List.length_append, List.length_cons]
      omega
  obtain ⟨r, hr⟩ : ∃ r, resolved p l = r := ⟨_, rfl⟩
  rw [hr] at hresolve hhead h0 hle ⊢
  have hne : r ≠ [] := by
    rintro rfl
    cases hhead
  have hlast : ∀ buffer, put r buffer (r.length - 1) = slash ↔ r.getLast? = some slash :=
    fun buffer => (holds_put h0).last_eq_iff hne
  have hlong : ¬l.length > pathMax := Nat.not_lt.mpr hshort
  have hlen : ∀ buffer, strlen (pathMax + 2) (put r buffer) = some r.length :=
    fun buffer => strlen_eq (holds_put h0) (by omega)
  rw [withSlash]
  by_cases hend : r.getLast? = some slash
  · obtain ⟨s, c, hc0, hchead, hclen, hset⟩ := setPwd_eq h0 hhead hend
    rw [if_pos hend]
    refine ⟨0, s, put c pwd, c, fun buffer => (hmono buffer).returns (k := pathMax + 2) ?_,
      fun i hi => put_of_gt (hclen.trans_lt hi), holds_put hc0, hchead⟩
    simp only [kfsetpwd, strlen_eq hl (n := pathMax + 2) (by omega), Option.bind_eq_bind,
      Option.bind_some, if_neg hlong, hresolve, hlen, (hlast buffer).mpr hend, ne_eq,
      not_true_eq_false, if_false, hset buffer pwd (pathMax + 2) (by omega)]
  · -- the slash is missing
    have h0' : 0 ∉ r ++ [slash] := by simp [h0, slash]
    have hlen' : (r ++ [slash]).length = r.length + 1 := by simp
    have hcat : ∀ buffer, strcat (pathMax + 2) (put r buffer) (chars [slash]) =
        some (put (r ++ [slash]) buffer) := fun buffer =>
      strcat_eq_put h0 holds_slash (by omega) (by simp)
    have hstrlen : ∀ buffer, strlen (pathMax + 2) (put (r ++ [slash]) buffer) =
        some (r ++ [slash]).length := fun buffer => strlen_eq (holds_put h0') (by omega)
    rw [if_neg hend]
    by_cases htoo : (r ++ [slash]).length > pathMax
    · refine ⟨-enametoolong, chars (r ++ [slash]), pwd, p, fun buffer =>
        (hmono buffer).returns (k := pathMax + 2) ?_, fun _ _ => rfl, hp, hroot⟩
      simp only [kfsetpwd, strlen_eq hl (n := pathMax + 2) (by omega), Option.bind_eq_bind,
        Option.bind_some, if_neg hlong, hresolve, hlen, mt (hlast buffer).mp hend, ne_eq,
        not_false_eq_true, if_true, hcat, hstrlen, if_pos htoo]
      rfl
    · have hhead' : (r ++ [slash]).head? = some slash := by
        rw [List.head?_append_of_ne_nil _ hne, hhead]
      obtain ⟨s, c, hc0, hchead, hclen, hset⟩ := setPwd_eq h0' hhead' List.getLast?_concat
      refine ⟨0, s, put c pwd, c, fun buffer => (hmono buffer).returns (k := pathMax + 2) ?_,
        fun i hi => put_of_gt (hclen.trans_lt hi), holds_put hc0, hchead⟩
      simp only [kfsetpwd, strlen_eq hl (n := pathMax + 2) (by omega), Option.bind_eq_bind,
        Option.bind_some, if_neg hlong, hresolve, hlen, mt (hlast buffer).mp hend, ne_eq,
        not_false_eq_true, if_true, hcat, hstrlen, if_neg htoo,
        hset buffer pwd (pathMax + 2) (by omega)]

/-- **`kfsetpwd` when something is too long**: it changes nothing, if it returns. -/
theorem kfsetpwd_of_long {v : ℤ × (ℕ → UInt8) × (ℕ → UInt8)} (hp : Holds pwd p)
    (hl : Holds newPwd l) (hlong : pathMax < l.length ∨
      (l.head? ≠ some slash ∧ pathMax < p.length + l.length + 2))
    (hv : Returns (fun n => kfsetpwd n newPwd pwd buffer) v) :
    v = (-enametoolong, pwd, buffer) := by
  obtain ⟨n, hn, hrun⟩ := hv.exists_ge (l.length + 1)
  rw [kfsetpwd, strlen_eq hl hn, Option.bind_eq_bind, Option.bind_some] at hrun
  by_cases htoo : l.length > pathMax
  · rw [if_pos htoo] at hrun
    exact (Option.some.inj hrun).symm
  · rw [if_neg htoo, resolvePath_eq_none hp hl (Or.inr (hlong.resolve_left htoo))] at hrun
    cases hrun

/-- A call of `kfsetpwd` leaves a string as the working directory that begins with a slash. -/
theorem kfsetpwd_holds {e : ℤ} {pwd' b : ℕ → UInt8} (hp : Holds pwd p)
    (hroot : p.head? = some slash) (hl : Holds newPwd l)
    (hv : Returns (fun n => kfsetpwd n newPwd pwd buffer) (e, pwd', b)) :
    ∃ p', Holds pwd' p' ∧ p'.head? = some slash := by
  by_cases hlong : pathMax < l.length ∨ (l.head? ≠ some slash ∧ pathMax < p.length + l.length + 2)
  · have heq := kfsetpwd_of_long hp hl hlong hv
    obtain rfl : pwd' = pwd := congrArg (fun v => v.2.1) heq
    exact ⟨p, hp, hroot⟩
  · obtain ⟨hshort, hrel⟩ := not_or.mp hlong
    obtain ⟨e', s, pwd'', p', hreturns, -, hp', hroot'⟩ := exists_kfsetpwd hp hroot hl
      (Nat.not_lt.mp hshort) fun hhead => Nat.not_lt.mp fun hlt => hrel ⟨hhead, hlt⟩
    obtain rfl : pwd' = pwd'' := congrArg (fun v => v.2.1) (hv.unique (hreturns buffer))
    exact ⟨p', hp', hroot'⟩

/-- **When `kfsetpwd` stays inside.** -/
theorem kfsetpwd_inside_iff (hp : Holds pwd p) (hroot : p.head? = some slash)
    (hl : Holds newPwd l) :
    (∀ buffer e pwd' b, Returns (fun n => kfsetpwd n newPwd pwd buffer) (e, pwd', b) →
        ∀ i ≥ pathMax, b i = buffer i ∧ pwd' i = pwd i) ↔
      ¬(l.head? = some slash ∧ l.length = pathMax) ∧
        ¬((resolved p l).length + 1 = pathMax ∧ (resolved p l).getLast? ≠ some slash) := by
  have hlength : (resolved p l).length = if l.head? = some slash then l.length
      else p.length + (l.length + 1) := by
    rw [resolved]
    split_ifs
    · rfl
    · rw [List.length_append, List.length_cons]
  by_cases hlong : pathMax < l.length ∨ (l.head? ≠ some slash ∧ pathMax < p.length + l.length + 2)
  · -- refused before anything is written
    refine iff_of_true (fun buffer e pwd' b hv i _ => ?_) ⟨?_, ?_⟩
    · have heq := kfsetpwd_of_long hp hl hlong hv
      obtain rfl : pwd' = pwd := congrArg (fun v => v.2.1) heq
      obtain rfl : b = buffer := congrArg (fun v => v.2.2) heq
      exact ⟨rfl, rfl⟩
    · rintro ⟨hhead, heq⟩
      rcases hlong with hlong | ⟨hno, -⟩
      · omega
      · exact hno hhead
    · rintro ⟨heq, -⟩
      rw [hlength] at heq
      split_ifs at heq with hhead
      · rcases hlong with hlong | ⟨hno, -⟩
        · omega
        · exact hno hhead
      · rcases hlong with hlong | ⟨-, hlong⟩
        · omega
        · omega
  · obtain ⟨hshort, hrel⟩ := not_or.mp hlong
    have hshort := Nat.not_lt.mp hshort
    have hrel : l.head? ≠ some slash → p.length + l.length + 2 ≤ pathMax :=
      fun hhead => Nat.not_lt.mp fun hlt => hrel ⟨hhead, hlt⟩
    obtain ⟨e, s, pwd', p', hreturns, hframe, -, -⟩ := exists_kfsetpwd hp hroot hl hshort hrel
    have hput : (∀ buffer e pwd' b, Returns (fun n => kfsetpwd n newPwd pwd buffer) (e, pwd', b) →
        ∀ i ≥ pathMax, b i = buffer i ∧ pwd' i = pwd i) ↔
        (withSlash (resolved p l)).length < pathMax := by
      constructor
      · intro h
        rw [← patch_inside_iff (s := s)]
        exact fun buffer i hi => (h _ _ _ _ (hreturns buffer) i hi).1
      · intro hlt buffer e₁ pwd₁ b hv i hi
        have heq := hv.unique (hreturns buffer)
        obtain rfl : pwd₁ = pwd' := congrArg (fun v => v.2.1) heq
        obtain rfl : b = patch _ s buffer := congrArg (fun v => v.2.2) heq
        exact ⟨patch_inside_iff.mpr hlt buffer i hi, hframe i (hlt.trans_le hi)⟩
    rw [hput, withSlash]
    have hone : l.head? = some slash ∧ l.length = pathMax ↔ (resolved p l).length = pathMax := by
      rw [hlength]
      split_ifs with hhead
      · exact and_iff_right hhead
      · have := hrel hhead
        exact iff_of_false (fun hc => hhead hc.1) (by omega)
    have hle : (resolved p l).length ≤ pathMax := by
      rw [hlength]
      split_ifs with hhead
      · exact hshort
      · have := hrel hhead
        omega
    rw [hone]
    by_cases hend : (resolved p l).getLast? = some slash
    · rw [if_pos hend]
      constructor
      · exact fun hlt => ⟨hlt.ne, fun hc => hc.2 hend⟩
      · exact fun hc => lt_of_le_of_ne hle hc.1
    · -- `strcat` appends the slash, and the NUL is one further
      rw [if_neg hend, List.length_append, List.length_singleton]
      constructor
      · exact fun hlt => ⟨by omega, fun hc => hlt.ne hc.1⟩
      · rintro ⟨hne, hno⟩
        have : (resolved p l).length + 1 ≠ pathMax := fun heq => hno ⟨heq, hend⟩
        omega

theorem kfgetpwd_eq (hp : Holds pwd p) (buf : ℕ → UInt8) (hn : p.length < n) :
    kfgetpwd n pwd (some buf) size =
      if p.length > size then some none else some (some (put p buf)) := by
  rw [kfgetpwd, strlen_eq hp hn, Option.bind_eq_bind, Option.bind_some]
  by_cases hlong : p.length > size
  · rw [if_pos hlong, if_pos hlong]
  · have hbuf : ¬(some buf).isNone = true := Bool.false_ne_true
    rw [if_neg hlong, if_neg hlong, if_neg hbuf, Option.getD_some, strcpy_eq_put hp hn,
      Option.map_some]

/-- **When `kfgetpwd` stays inside.** -/
theorem kfgetpwd_inside_iff (hp : Holds pwd p) :
    (∀ buf b, Returns (fun n => kfgetpwd n pwd (some buf) size) (some b) →
        ∀ i ≥ size, b i = buf i) ↔ p.length ≠ size := by
  have hreturns : ∀ buf, Returns (fun n => kfgetpwd n pwd (some buf) size)
      (if p.length > size then none else some (put p buf)) := by
    refine fun buf => ⟨p.length + 1, fun n hn => ?_⟩
    refine (kfgetpwd_eq hp buf hn).trans ?_
    split_ifs <;> rfl
  by_cases hlong : p.length > size
  · refine iff_of_true (fun buf b hb => ?_) (Nat.ne_of_gt hlong)
    have heq := hb.unique (hreturns buf)
    rw [if_pos hlong] at heq
    cases heq
  · have hput : (∀ buf b, Returns (fun n => kfgetpwd n pwd (some buf) size) (some b) →
        ∀ i ≥ size, b i = buf i) ↔ p.length < size := by
      rw [← patch_inside_iff (s := chars p)]
      simp only [if_neg hlong] at hreturns
      refine forall_congr' fun buf => ⟨fun h => h _ (hreturns buf), fun h b hb => ?_⟩
      obtain rfl : b = put p buf := Option.some.inj (hb.unique (hreturns buf))
      exact h
    rw [hput]
    omega

end Functions

/-! ### All calls of a process -/

/-- The argument of a call is a string. -/
def SetPwd.IsString (_ : ℕ → UInt8) (a : SetPwd) : Prop := ∃ l, Holds a.newPwd l

/-- The working directories that calls of `kfsetpwd` lead to, from `/`. -/
abbrev PwdReached : (ℕ → UInt8) → Prop :=
  Reach SetPwd.Step SetPwd.IsString fun pwd => Holds pwd [slash]

section Reached

variable {pwd path : ℕ → UInt8} {p l : List UInt8} {size : ℕ}

/-- The run lemma. -/
theorem exists_holds_of_reach (h : PwdReached pwd) : ∃ p, Holds pwd p ∧ p.head? = some slash := by
  refine Reach.invariant (P := fun pwd => ∃ p, Holds pwd p ∧ p.head? = some slash) ?_ ?_ h
  · exact fun pwd hpwd => ⟨[slash], hpwd, rfl⟩
  · rintro pwd a pwd' ⟨p, hp, hroot⟩ ⟨l, hl⟩ ⟨e, b, hreturns⟩
    exact kfsetpwd_holds hp hroot hl hreturns

/-- **When the functions write inside their buffers**: for every working directory that a
process can have, they do unless one of the three lengths is just one too long. -/
theorem pwdInside_iff (h : PwdReached pwd) (hp : Holds pwd p) (hl : Holds path l) :
    PwdInside pwd path size ↔ PwdFits p l size := by
  obtain ⟨p', hp', hroot⟩ := exists_holds_of_reach h
  obtain rfl := hp.unique hp'
  constructor
  · rintro ⟨-, hset, hget⟩
    obtain ⟨hpath, hres⟩ := (kfsetpwd_inside_iff hp hroot hl).mp hset
    exact ⟨hpath, hres, (kfgetpwd_inside_iff hp).mp hget⟩
  · rintro ⟨hpath, hres, hsize⟩
    exact ⟨(resolvePath_inside_iff hp hl).mpr hpath,
      (kfsetpwd_inside_iff hp hroot hl).mpr ⟨hpath, hres⟩, (kfgetpwd_inside_iff hp).mpr hsize⟩

/-- In `/`, the path `usr`, and a buffer of two bytes. -/
theorem pwdInside_iff_usr : PwdInside (chars [slash]) (chars [117, 115, 114]) 2 :=
  have hl : Holds (chars [117, 115, 114]) [117, 115, 114] := holds_chars (by decide)
  (pwdInside_iff (.init holds_slash) holds_slash hl).mpr ⟨by decide, by decide, by decide⟩

/-- A path of characters `a`, in `/`. -/
theorem resolved_keys (n : ℕ) :
    (resolved [slash] (List.replicate (n + 1) 97)).length = n + 3 ∧
      (resolved [slash] (List.replicate (n + 1) 97)).getLast? = some 97 := by
  have hne : (97 : UInt8) ≠ slash := by decide
  have hrel : ¬(List.replicate (n + 1) (97 : UInt8)).head? = some slash := by
    rw [List.replicate_succ, List.head?_cons, Option.some_inj]
    exact hne
  rw [resolved, if_neg hrel]
  refine ⟨?_, ?_⟩
  · simp only [List.length_append, List.length_cons, List.length_replicate, List.length_nil]
    omega
  · rw [List.replicate_succ', ← List.cons_append, ← List.append_assoc]
    exact List.getLast?_concat

/-- In `/`, a path of 4093 characters `a`, which `kfsetpwd` resolves to one of 4095 bytes, and
a buffer of one byte. -/
theorem not_pwdInside :
    (¬∀ buffer e pwd' b, Returns (fun n => kfsetpwd n (chars (List.replicate 4093 97))
        (chars [slash]) buffer) (e, pwd', b) →
      ∀ i ≥ pathMax, b i = buffer i ∧ pwd' i = chars [slash] i) ∧
    ¬PwdInside (chars [slash]) (chars (List.replicate 4093 97)) 1 := by
  have hl : Holds (chars (List.replicate 4093 97)) (List.replicate 4093 97) :=
    holds_chars fun hmem => absurd (List.eq_of_mem_replicate hmem) (by decide)
  have hset : ¬∀ buffer e pwd' b, Returns (fun n => kfsetpwd n (chars (List.replicate 4093 97))
      (chars [slash]) buffer) (e, pwd', b) →
      ∀ i ≥ pathMax, b i = buffer i ∧ pwd' i = chars [slash] i := by
    rw [kfsetpwd_inside_iff holds_slash rfl hl]
    rintro ⟨-, hres⟩
    obtain ⟨hlength, hlast⟩ := resolved_keys 4092
    refine hres ⟨congrArg (· + 1) hlength, fun hslash => ?_⟩
    exact absurd (Option.some_inj.mp (hlast.symm.trans hslash)) (by decide)
  exact ⟨hset, fun h => hset h.setPwd⟩

end Reached

end Xana
