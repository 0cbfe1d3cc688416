import Xana.Process.Kernel
import Xana.String.Basic

/-!
# The arguments of a new program

`kexecv` passes the arguments and the environment on in three passes: it adds up their sizes,
it copies them to a block of the kernel's, and, when the new address space is there, it copies
them from the block to the top of the user half, below a table of pointers to them.

The three agree, and the block below `VIRT_MEM_OFFSET` is what the program expects
(`Xana.execArguments_iff`). But `kexecv` does not look how large it is. Sixteen pages are
mapped for the stack; a write below them faults, and if the address is in no region of the
process, a signal is what comes of it.
-/

namespace Xana

open Mem Signals

/-- `PROCESS_INITIAL_STACK`. -/
def processInitialStack : ℕ := 0x10000

/-- The address space that the block is written to: the pages that `load_elf64` has mapped,
and the regions in which `page_fault_error` maps a page. -/
structure ExecSpace where
  loaded : ℕ → Bool
  regions : List MemRegion

namespace ExecSpace

/-- The address is below `VIRT_MEM_OFFSET`, and a write to it comes to pass. -/
def Writable (space : ExecSpace) (a : ℕ) : Prop :=
  a < virtMemOffset ∧ (virtMemOffset - processInitialStack ≤ a ∨
    space.loaded (a / 0x1000) = true ∨ ∃ r ∈ space.regions, r.start ≤ a ∧ a < r.endAddr)

instance (space : ExecSpace) (a : ℕ) : Decidable (space.Writable a) :=
  inferInstanceAs (Decidable (_ ∧ (_ ∨ _ ∨ ∃ r ∈ space.regions, r.start ≤ a ∧ a < r.endAddr)))

/-- So many bytes may be written. -/
def Room (space : ExecSpace) (a n : ℕ) : Prop := ∀ i : ℕ, i < n → space.Writable (a + i)

instance (space : ExecSpace) (a n : ℕ) : Decidable (space.Room a n) :=
  inferInstanceAs (Decidable (∀ i : ℕ, i < n → space.Writable (a + i)))

end ExecSpace

/-! ### The three passes -/

/-- The loop that counts strings and adds up their sizes. -/
def countStrings : List (List UInt8) → ℕ → ℕ → ℕ × ℕ
  | [], count, size => (count, size)
  | s :: l, count, size => countStrings l (count + 1) (size + (s.length + 1))

/-- The loop that copies strings to `temp_strings`. -/
def stageStrings : List (List UInt8) → Mem → ℕ → Mem × ℕ
  | [], m, tempStrings => (m, tempStrings)
  | s :: l, m, tempStrings =>
      stageStrings l (m.write tempStrings (s ++ [0])) (tempStrings + (s.length + 1))

/-- Where the last pass is. -/
structure ArgCursor where
  user : Mem
  argvEnvPtr : ℕ
  stringWriteLoc : ℕ
  stringReadLoc : ℕ

namespace ArgCursor

/-- `*(argv_env_ptr++) = value;` -/
def storePtr (space : ExecSpace) (value : ℕ) (c : ArgCursor) : Option ArgCursor :=
  if space.Room c.argvEnvPtr 8 then
    some { c with
      user := c.user.store c.argvEnvPtr 8 value
      argvEnvPtr := c.argvEnvPtr + 8 }
  else none

/-- `strcpy`, to the user half. -/
def copyIn (n : ℕ) (space : ExecSpace) (kernel : Mem) (c : ArgCursor) : Option ArgCursor := do
  let len ← strlen n fun j => kernel (c.stringReadLoc + j)
  if space.Room c.stringWriteLoc (len + 1) then
    let user ← copyString n c.user c.stringWriteLoc fun j => kernel (c.stringReadLoc + j)
    some { c with user := user }
  else none

/-- The body of the loop that copies a string. -/
def copyOne (n : ℕ) (space : ExecSpace) (kernel : Mem) (c : ArgCursor) : Option ArgCursor := do
  let c' ← c.copyIn n space kernel
  let c' ← c'.storePtr space c.stringWriteLoc
  let len ← strlen n fun j => kernel (c.stringReadLoc + j)
  some { c' with
    stringWriteLoc := c.stringWriteLoc + (len + 1)
    stringReadLoc := c.stringReadLoc + (len + 1) }

/-- The loop. -/
def copyStrings (n : ℕ) (space : ExecSpace) (kernel : Mem) : ℕ → ArgCursor → Option ArgCursor
  | 0, c => some c
  | count + 1, c => (c.copyOne n space kernel).bind (copyStrings n space kernel count)

end ArgCursor

/-- What is passed to `jump_to_usermode`. -/
structure ExecEntry where
  argc : ℕ
  argv : ℕ
  envp : ℕ

/-- The parts of `kexecv` that are about `argv` and `envp`, with the block that it gets for
the strings at `temp`; each loop has at most `n` rounds to find the end of a string. A pointer
that is `NULL` is no list. The counters are `int`s, and their sum must be one. -/
def execArguments (n : ℕ) (space : ExecSpace) (user kernel : Mem) (temp : ℕ)
    (argv envp : Option (List (List UInt8))) : Option (ExecEntry × Mem) := do
  let args := countStrings (argv.getD []) 0 0
  let envs := countStrings (envp.getD []) 0 args.2
  let argc := args.1
  let envc := envs.1
  let argvStringSize := envs.2
  let staged := stageStrings (argv.getD []) kernel temp
  let staged := stageStrings (envp.getD []) staged.1 staged.2
  if argc + envc + 2 < 2 ^ 31 then
    let argvEnvPtrSize := (argc + envc + 2) * 8
    let stackLoc := virtMemOffset - (argvEnvPtrSize + argvStringSize)
    let c : ArgCursor := ⟨user, stackLoc, stackLoc + argvEnvPtrSize, temp⟩
    let c ← c.copyStrings n space staged.1 argc
    let c ← c.storePtr space 0
    let c ← c.copyStrings n space staged.1 envc
    let c ← c.storePtr space 0
    some (⟨argc, stackLoc, stackLoc + (argc + 1) * 8⟩, c.user)
  else none

/-! ### What the program expects -/

/-- The strings of a list, each with its `NUL`. -/
def flatStrings (l : List (List UInt8)) : List UInt8 := l.flatMap (· ++ [0])

/-- The size of the block. -/
def argBlockSize (argv envp : List (List UInt8)) : ℕ :=
  (argv.length + envp.length + 2) * 8 + ((flatStrings argv).length + (flatStrings envp).length)

/-- A table of pointers is at `a`: to the strings, which lie between `lo` and `hi`, with
`NULL` behind the last one. -/
structure StringsAt (m : Mem) (a lo hi : ℕ) (l : List (List UInt8)) : Prop where
  string : ∀ i, ∀ h : i < l.length, Holds (fun j => m (m.load (a + 8 * i) 8 + j)) l[i]
  lo_le : ∀ i < l.length, lo ≤ m.load (a + 8 * i) 8
  lt_hi : ∀ i, ∀ h : i < l.length, m.load (a + 8 * i) 8 + l[i].length < hi
  null : m.load (a + 8 * l.length) 8 = 0

/-- The memory has the arguments and the environment where the program is told. -/
structure Decodes (e : ExecEntry) (m : Mem) (argv envp : List (List UInt8)) : Prop where
  argc_eq : e.argc = argv.length
  envp_eq : e.envp = e.argv + (e.argc + 1) * 8
  argv : StringsAt m e.argv (e.envp + 8 * (envp.length + 1)) virtMemOffset argv
  envp : StringsAt m e.envp (e.envp + 8 * (envp.length + 1)) virtMemOffset envp

/-- **The block is as it should be**: whatever was in memory, bytes that decode to the lists
have been written up to the one just below `VIRT_MEM_OFFSET`, and no others. -/
def BlockDecodes (exec : Mem → ℕ → Option (ExecEntry × Mem)) (argv envp : List (List UInt8)) :
    Prop :=
  ∃ e block, e.argv + block.length = virtMemOffset ∧ ∀ user,
    Returns (exec user) (e, user.write e.argv block) ∧
      Decodes e (user.write e.argv block) argv envp

/-! ### The first two passes -/

section Passes

variable {l argv envp : List (List UInt8)} {m user kernel : Mem} {a t n w r temp : ℕ}
  {space : ExecSpace} {c : ArgCursor}

@[simp] theorem flatStrings_nil : flatStrings [] = [] := rfl

theorem flatStrings_cons (s : List UInt8) (l : List (List UInt8)) :
    flatStrings (s :: l) = s ++ [0] ++ flatStrings l := rfl

theorem length_le_flatStrings (l : List (List UInt8)) : l.length ≤ (flatStrings l).length := by
  induction l with
  | nil => exact Nat.le_refl 0
  | cons s l ih =>
    rw [flatStrings_cons, List.length_cons, List.length_append, List.length_append,
      List.length_singleton]
    omega

theorem countStrings_eq (l : List (List UInt8)) (count size : ℕ) :
    countStrings l count size = (count + l.length, size + (flatStrings l).length) := by
  induction l generalizing count size with
  | nil => rfl
  | cons s l ih =>
    rw [countStrings, ih, flatStrings_cons]
    refine Prod.ext ?_ ?_
    · simp only [List.length_cons]
      omega
    · simp only [List.length_append, List.length_singleton]
      omega

theorem stageStrings_eq (l : List (List UInt8)) (m : Mem) (t : ℕ) :
    stageStrings l m t = (m.write t (flatStrings l), t + (flatStrings l).length) := by
  induction l generalizing m t with
  | nil =>
    refine Prod.ext ?_ rfl
    funext b
    exact (write_of_notMem (by simp; omega)).symm
  | cons s l ih =>
    have hlen : (s ++ [(0 : UInt8)]).length = s.length + 1 := by simp
    have hwrite := write_write m t (s ++ [0]) (flatStrings l)
    rw [hlen] at hwrite
    rw [stageStrings, ih, hwrite, flatStrings_cons]
    refine Prod.ext rfl ?_
    simp only [List.length_append, List.length_singleton]
    omega

/-! ### The last pass -/

/-- Two steps, each of which may fail. -/
theorem bind_ite_some {α β : Type*} {p q : Prop} [Decidable p] [Decidable q] {o : Option α}
    {f : α → Option β} {x : α} {y : β} (ho : o = if p then some x else none)
    (hf : f x = if q then some y else none) : o.bind f = if p ∧ q then some y else none := by
  by_cases hp : p
  · rw [ho, if_pos hp, Option.bind_some, hf]
    exact if_congr (and_iff_right hp).symm rfl rfl
  · rw [ho, if_neg hp, if_neg fun h => hp h.1]
    rfl

theorem ExecSpace.room_add {k : ℕ} :
    space.Room a (n + k) ↔ space.Room a n ∧ space.Room (a + n) k := by
  constructor
  · intro h
    refine ⟨fun i hi => h i (by omega), fun i hi => ?_⟩
    rw [add_assoc]
    exact h (n + i) (by omega)
  · rintro ⟨h, h'⟩ i hi
    by_cases hn : i < n
    · exact h i hn
    · have hroom := h' (i - n) (by omega)
      rwa [add_assoc, Nat.add_sub_cancel' (Nat.le_of_not_lt hn)] at hroom

/-- The pointers to strings that are written from `w` on. -/
def pointers : ℕ → List (List UInt8) → List UInt8
  | _, [] => []
  | w, s :: l => leBytes 8 w ++ pointers (w + (s.length + 1)) l

theorem length_pointers (w : ℕ) (l : List (List UInt8)) :
    (pointers w l).length = 8 * l.length := by
  induction l generalizing w with
  | nil => rfl
  | cons s l ih =>
    rw [pointers, List.length_append, length_leBytes, ih, List.length_cons]
    omega

namespace ArgCursor

variable {stack strings : ℕ} {table bytes : List UInt8} {s : List UInt8}

/-- Some of the table and some of the strings have been written. -/
def laid (user : Mem) (stack strings temp : ℕ) (table bytes : List UInt8) : ArgCursor where
  user := (user.write stack table).write strings bytes
  argvEnvPtr := stack + table.length
  stringWriteLoc := strings + bytes.length
  stringReadLoc := temp + bytes.length

theorem storePtr_eq (hroom : stack + table.length + 8 ≤ strings) (value : ℕ)
    (huser : c.user = (user.write stack table).write strings bytes)
    (hptr : c.argvEnvPtr = stack + table.length) :
    c.storePtr space value =
      if space.Room (stack + table.length) 8 then
        some { c with
          user := (user.write stack (table ++ leBytes 8 value)).write strings bytes
          argvEnvPtr := stack + (table ++ leBytes 8 value).length }
      else none := by
  have hlen : (leBytes 8 value).length = 8 := length_leBytes 8 value
  rw [storePtr, hptr, huser, store, write_comm (Or.inr (by rw [hlen]; exact hroom)), write_write,
    List.length_append, hlen]
  rfl

theorem copyOne_laid (hroom : stack + table.length + 8 ≤ strings)
    (hs : Holds (fun j => kernel (temp + bytes.length + j)) s) (hn : s.length < n) :
    (laid user stack strings temp table bytes).copyOne n space kernel =
      if space.Room (strings + bytes.length) (s.length + 1) ∧
          space.Room (stack + table.length) 8 then
        some (laid user stack strings temp (table ++ leBytes 8 (strings + bytes.length))
          (bytes ++ (s ++ [0])))
      else none := by
  have hcopy : (laid user stack strings temp table bytes).copyIn n space kernel =
      if space.Room (strings + bytes.length) (s.length + 1) then
        some { laid user stack strings temp table bytes with
          user := (user.write stack table).write strings (bytes ++ (s ++ [0])) }
      else none := by
    rw [copyIn, laid, strlen_eq hs hn, Option.bind_eq_bind, Option.bind_some,
      copyString_eq hs hn, write_write]
    rfl
  have hlen : (bytes ++ (s ++ [(0 : UInt8)])).length = bytes.length + (s.length + 1) := by simp
  have hend : laid user stack strings temp (table ++ leBytes 8 (strings + bytes.length))
      (bytes ++ (s ++ [0])) =
        { user := (user.write stack (table ++ leBytes 8 (strings + bytes.length))).write strings
            (bytes ++ (s ++ [0]))
          argvEnvPtr := stack + (table ++ leBytes 8 (strings + bytes.length)).length
          stringWriteLoc := strings + bytes.length + (s.length + 1)
          stringReadLoc := temp + bytes.length + (s.length + 1) } := by
    rw [laid, hlen, add_assoc, add_assoc]
  rw [copyOne, hend]
  refine bind_ite_some hcopy ?_
  refine (bind_ite_some (q := True) (storePtr_eq hroom (strings + bytes.length) rfl rfl) ?_).trans
    (if_congr (and_iff_left trivial) rfl rfl)
  rw [laid, strlen_eq hs hn]
  rfl

/-- **The loop**, over strings that are in the block. -/
theorem copyStrings_laid (hroom : stack + table.length + 8 * l.length ≤ strings)
    (hat : kernel.At (temp + bytes.length) (flatStrings l)) (h0 : ∀ s ∈ l, 0 ∉ s)
    (hn : (flatStrings l).length < n) :
    (laid user stack strings temp table bytes).copyStrings n space kernel l.length =
      if space.Room (strings + bytes.length) (flatStrings l).length ∧
          space.Room (stack + table.length) (8 * l.length) then
        some (laid user stack strings temp (table ++ pointers (strings + bytes.length) l)
          (bytes ++ flatStrings l))
      else none := by
  induction l generalizing table bytes with
  | nil =>
    rw [if_pos ⟨fun i hi => absurd hi (Nat.not_lt_zero i),
        fun i hi => absurd hi (Nat.not_lt_zero i)⟩,
      pointers, flatStrings_nil, List.append_nil, List.append_nil]
    rfl
  | cons s l ih =>
    rw [flatStrings_cons, at_append] at hat
    rw [flatStrings_cons, List.length_append, List.length_append, List.length_singleton] at hn
    rw [List.length_cons] at hroom
    have hlen : (s ++ [(0 : UInt8)]).length = s.length + 1 := by simp
    have hptr : (leBytes 8 (strings + bytes.length)).length = 8 := length_leBytes 8 _
    have hs := holds_shift_iff.mpr ⟨h0 s (by simp), hat.1⟩
    have hrest := @ih (table ++ leBytes 8 (strings + bytes.length)) (bytes ++ (s ++ [0]))
      (by rw [List.length_append, hptr]; omega)
      (by rw [List.length_append, ← add_assoc]; exact hat.2)
      (fun t ht => h0 t (List.mem_cons_of_mem s ht)) (by omega)
    rw [List.length_cons, copyStrings]
    refine (bind_ite_some (copyOne_laid (by omega) hs (by omega)) hrest).trans ?_
    have hbytes : strings + (bytes ++ (s ++ [0])).length =
        strings + bytes.length + (s.length + 1) := by
      rw [List.length_append, hlen, add_assoc]
    have htable : stack + (table ++ leBytes 8 (strings + bytes.length)).length =
        stack + table.length + 8 := by
      rw [List.length_append, hptr, add_assoc]
    rw [hbytes, htable, pointers, flatStrings_cons, List.append_assoc, List.append_assoc]
    refine if_congr ?_ rfl rfl
    rw [List.length_append, hlen, Nat.mul_add, Nat.mul_one, Nat.add_comm (8 * l.length) 8,
      ExecSpace.room_add (n := s.length + 1), ExecSpace.room_add (n := 8)]
    exact and_and_and_comm

theorem storePtr_laid (hroom : stack + table.length + 8 ≤ strings) (value : ℕ) :
    (laid user stack strings temp table bytes).storePtr space value =
      if space.Room (stack + table.length) 8 then
        some (laid user stack strings temp (table ++ leBytes 8 value) bytes)
      else none :=
  storePtr_eq hroom value rfl rfl

end ArgCursor

/-! ### The block -/

/-- The table of pointers at `a`, for strings at `w`. -/
def pointerTable (w : ℕ) (argv envp : List (List UInt8)) : List UInt8 :=
  pointers w argv ++ leBytes 8 0 ++ pointers (w + (flatStrings argv).length) envp ++ leBytes 8 0

theorem length_pointerTable (w : ℕ) (argv envp : List (List UInt8)) :
    (pointerTable w argv envp).length = (argv.length + envp.length + 2) * 8 := by
  simp only [pointerTable, List.length_append, length_pointers, length_leBytes]
  omega

/-- The block, at `a`. -/
def argBlock (a : ℕ) (argv envp : List (List UInt8)) : List UInt8 :=
  pointerTable (a + (argv.length + envp.length + 2) * 8) argv envp ++
    (flatStrings argv ++ flatStrings envp)

theorem length_argBlock (a : ℕ) (argv envp : List (List UInt8)) :
    (argBlock a argv envp).length = argBlockSize argv envp := by
  rw [argBlock, List.length_append, length_pointerTable, List.length_append, argBlockSize]

namespace ArgCursor

/-- The last pass, with what is done with its result. -/
theorem lay_both {β : Type*} (f : ArgCursor → β) {stack strings : ℕ}
    (hroom : stack + (argv.length + envp.length + 2) * 8 = strings)
    (hat : kernel.At temp (flatStrings argv ++ flatStrings envp)) (hargv : ∀ s ∈ argv, 0 ∉ s)
    (henvp : ∀ s ∈ envp, 0 ∉ s) (hn : (flatStrings argv).length + (flatStrings envp).length < n) :
    ((laid user stack strings temp [] []).copyStrings n space kernel argv.length).bind
        (fun c => (c.storePtr space 0).bind fun c =>
          (c.copyStrings n space kernel envp.length).bind fun c =>
            (c.storePtr space 0).bind fun c => some (f c)) =
      if space.Room stack ((argv.length + envp.length + 2) * 8 +
          ((flatStrings argv).length + (flatStrings envp).length)) then
        some (f (laid user stack strings temp (pointerTable strings argv envp)
          (flatStrings argv ++ flatStrings envp)))
      else none := by
  rw [at_append] at hat
  -- the four calls one after another, each with the room it needs
  have hfirst : (laid user stack strings temp [] []).copyStrings n space kernel argv.length =
      if space.Room strings (flatStrings argv).length ∧ space.Room stack (8 * argv.length) then
        some (laid user stack strings temp (pointers strings argv) (flatStrings argv))
      else none :=
    copyStrings_laid (by rw [List.length_nil]; omega) hat.1 hargv (by omega)
  have hargc : (laid user stack strings temp (pointers strings argv) (flatStrings argv)).storePtr
      space 0 =
      if space.Room (stack + 8 * argv.length) 8 then
        some (laid user stack strings temp (pointers strings argv ++ leBytes 8 0)
          (flatStrings argv))
      else none := by
    rw [storePtr_laid (by rw [length_pointers]; omega), length_pointers]
  have htable : (pointers strings argv ++ leBytes 8 0).length = 8 * argv.length + 8 := by
    rw [List.length_append, length_pointers, length_leBytes]
  have hsecond : (laid user stack strings temp (pointers strings argv ++ leBytes 8 0)
      (flatStrings argv)).copyStrings n space kernel envp.length =
      if space.Room (strings + (flatStrings argv).length) (flatStrings envp).length ∧
          space.Room (stack + (8 * argv.length + 8)) (8 * envp.length) then
        some (laid user stack strings temp (pointers strings argv ++ leBytes 8 0 ++
          pointers (strings + (flatStrings argv).length) envp)
          (flatStrings argv ++ flatStrings envp))
      else none := by
    rw [copyStrings_laid (by rw [htable]; omega) hat.2 henvp (by omega), htable]
  have htable' : (pointers strings argv ++ leBytes 8 0 ++
      pointers (strings + (flatStrings argv).length) envp).length =
        8 * argv.length + 8 + 8 * envp.length := by
    rw [List.length_append, htable, length_pointers]
  have henvc : (laid user stack strings temp (pointers strings argv ++ leBytes 8 0 ++
        pointers (strings + (flatStrings argv).length) envp)
      (flatStrings argv ++ flatStrings envp)).storePtr space 0 =
      if space.Room (stack + (8 * argv.length + 8 + 8 * envp.length)) 8 then
        some (laid user stack strings temp (pointerTable strings argv envp)
          (flatStrings argv ++ flatStrings envp))
      else none := by
    rw [storePtr_laid (by rw [htable']; omega), htable']
    rfl
  refine Eq.trans (bind_ite_some hfirst (bind_ite_some hargc (bind_ite_some hsecond
    (bind_ite_some (q := True) henvc (if_pos trivial).symm)))) (if_congr ?_ rfl rfl)
  -- the six pieces of room are the two of the statement
  have hcount : (argv.length + envp.length + 2) * 8 =
      8 * argv.length + (8 + (8 * envp.length + 8)) := by omega
  rw [← hroom, ExecSpace.room_add, ExecSpace.room_add (a := stack + _), hcount,
    ExecSpace.room_add (n := 8 * argv.length), ExecSpace.room_add (n := 8),
    ExecSpace.room_add (n := 8 * envp.length)]
  simp only [← add_assoc]
  constructor
  · rintro ⟨⟨hstrings, hptrs⟩, hnull, ⟨hstrings', hptrs'⟩, hnull', -⟩
    exact ⟨⟨hptrs, hnull, hptrs', hnull'⟩, hstrings, hstrings'⟩
  · rintro ⟨⟨hptrs, hnull, hptrs', hnull'⟩, hstrings, hstrings'⟩
    exact ⟨⟨hstrings, hptrs⟩, hnull, ⟨hstrings', hptrs'⟩, hnull', trivial⟩

end ArgCursor

/-- **What the three passes come to.** -/
theorem execArguments_eq {args envs : Option (List (List UInt8))} (hargs : args.getD [] = argv)
    (henvs : envs.getD [] = envp) (hargv : ∀ s ∈ argv, 0 ∉ s) (henvp : ∀ s ∈ envp, 0 ∉ s)
    (ha : virtMemOffset - argBlockSize argv envp = a)
    (hn : (flatStrings argv).length + (flatStrings envp).length < n) :
    execArguments n space user kernel temp args envs =
      if argv.length + envp.length + 2 < 2 ^ 31 ∧ space.Room a (argBlockSize argv envp) then
        some (⟨argv.length, a, a + (argv.length + 1) * 8⟩, user.write a (argBlock a argv envp))
      else none := by
  obtain ⟨strings, hstrings⟩ : ∃ strings,
      a + (argv.length + envp.length + 2) * 8 = strings := ⟨_, rfl⟩
  have hsize : virtMemOffset - ((argv.length + envp.length + 2) * 8 +
      ((flatStrings argv).length + (flatStrings envp).length)) = a := ha
  have hstart : (⟨user, a, strings, temp⟩ : ArgCursor) =
      ArgCursor.laid user a strings temp [] [] := by
    rw [ArgCursor.laid, write_nil, write_nil]
    rfl
  have hend : (user.write a (pointerTable strings argv envp)).write strings
      (flatStrings argv ++ flatStrings envp) = user.write a (argBlock a argv envp) := by
    have hwrite := write_write user a (pointerTable strings argv envp)
      (flatStrings argv ++ flatStrings envp)
    rw [length_pointerTable, hstrings] at hwrite
    rw [argBlock, hstrings]
    exact hwrite
  rw [execArguments, hargs, henvs]
  simp only [countStrings_eq, stageStrings_eq, Nat.zero_add, write_write, hsize, hstrings, hstart]
  by_cases hint : argv.length + envp.length + 2 < 2 ^ 31
  · rw [if_pos hint]
    refine Eq.trans (ArgCursor.lay_both _ hstrings (read_write_self ..) hargv henvp hn)
      (if_congr (and_iff_right hint).symm (congrArg some (Prod.ext rfl ?_)) rfl)
    exact hend
  · rw [if_neg hint, if_neg fun h => hint h.1]

/-! ### What is in the block -/

/-- **A table and its strings.** -/
theorem stringsAt_of_at {lo hi : ℕ} (hptrs : m.At a (pointers w l ++ leBytes 8 0))
    (hat : m.At w (flatStrings l)) (h0 : ∀ s ∈ l, 0 ∉ s) (hlo : lo ≤ w)
    (hhi : w + (flatStrings l).length ≤ hi) (hlt : hi ≤ 256 ^ 8) : StringsAt m a lo hi l := by
  induction l generalizing a w with
  | nil =>
    exact ⟨fun i hi => absurd hi (Nat.not_lt_zero i), fun i hi => absurd hi (Nat.not_lt_zero i),
      fun i hi => absurd hi (Nat.not_lt_zero i), hptrs.load_leBytes (by decide)⟩
  | cons s l ih =>
    rw [pointers, List.append_assoc, at_append, length_leBytes] at hptrs
    rw [flatStrings_cons, List.length_append, List.length_append, List.length_singleton] at hhi
    rw [flatStrings_cons, at_append, List.length_append, List.length_singleton] at hat
    have hload : m.load a 8 = w := hptrs.1.load_leBytes (by omega)
    have hs := holds_shift_iff.mpr ⟨h0 s (by simp), hat.1⟩
    have hrest := ih hptrs.2 hat.2 (fun t ht => h0 t (List.mem_cons_of_mem s ht)) (by omega)
      (by omega)
    have hshift : ∀ i, a + 8 * (i + 1) = a + 8 + 8 * i := fun i => by omega
    refine ⟨fun i hi => ?_, fun i hi => ?_, fun i hi => ?_, ?_⟩
    · cases i with
      | zero => simpa [hload] using hs
      | succ i =>
        rw [hshift]
        exact hrest.string i (Nat.lt_of_succ_lt_succ hi)
    · cases i with
      | zero => simpa [hload] using hlo
      | succ i =>
        rw [hshift]
        exact hrest.lo_le i (Nat.lt_of_succ_lt_succ hi)
    · cases i with
      | zero =>
        rw [Nat.mul_zero, Nat.add_zero, hload, List.getElem_cons_zero]
        omega
      | succ i =>
        rw [hshift]
        exact hrest.lt_hi i (Nat.lt_of_succ_lt_succ hi)
    · rw [List.length_cons, hshift]
      exact hrest.null

theorem decodes_argBlock (hargv : ∀ s ∈ argv, 0 ∉ s) (henvp : ∀ s ∈ envp, 0 ∉ s)
    (ha : a + argBlockSize argv envp = virtMemOffset) :
    Decodes ⟨argv.length, a, a + (argv.length + 1) * 8⟩ (user.write a (argBlock a argv envp))
      argv envp := by
  have hat := read_write_self user a (argBlock a argv envp)
  obtain ⟨m, hm⟩ : ∃ m, user.write a (argBlock a argv envp) = m := ⟨_, rfl⟩
  rw [hm] at hat ⊢
  obtain ⟨strings, hstrings⟩ : ∃ strings,
      a + (argv.length + envp.length + 2) * 8 = strings := ⟨_, rfl⟩
  rw [argBlockSize] at ha
  have hvirt : virtMemOffset ≤ 256 ^ 8 := by decide
  rw [argBlock, hstrings, at_append, length_pointerTable, hstrings, at_append, pointerTable,
    List.append_assoc, at_append, List.length_append, length_pointers, length_leBytes] at hat
  obtain ⟨⟨hptrs, hptrs'⟩, hflat, hflat'⟩ := hat
  have hlo : a + (argv.length + 1) * 8 + 8 * (envp.length + 1) = strings := by omega
  have henv : a + (8 * argv.length + 8) = a + (argv.length + 1) * 8 := by omega
  rw [henv] at hptrs'
  refine ⟨rfl, rfl, ?_, ?_⟩
  · exact stringsAt_of_at hptrs hflat hargv hlo.le (by omega) hvirt
  · exact stringsAt_of_at hptrs' hflat' henvp (hlo.le.trans (Nat.le_add_right ..)) (by omega) hvirt

/-- If anything is written it is the whole block. -/
theorem writable_of_blockDecodes {args envs : Option (List (List UInt8))}
    (hargs : args.getD [] = argv) (henvs : envs.getD [] = envp) (hargv : ∀ s ∈ argv, 0 ∉ s)
    (henvp : ∀ s ∈ envp, 0 ∉ s) (hsize : argBlockSize argv envp ≤ virtMemOffset)
    (h : BlockDecodes (fun user n => execArguments n space user kernel temp args envs) argv envp) :
    argv.length + envp.length + 2 < 2 ^ 31 ∧
      ∀ b < virtMemOffset, virtMemOffset - argBlockSize argv envp ≤ b → space.Writable b := by
  obtain ⟨e, block, -, hall⟩ := h
  obtain ⟨n, hn, hreturns⟩ := (hall fun _ => 0).1.exists_ge
    ((flatStrings argv).length + (flatStrings envp).length + 1)
  change execArguments n space _ kernel temp args envs = _ at hreturns
  rw [execArguments_eq hargs henvs hargv henvp rfl hn] at hreturns
  obtain ⟨⟨hint, hroom⟩, -⟩ := Option.ite_none_right_eq_some.mp hreturns
  refine ⟨hint, fun b hb hle => ?_⟩
  have hwritable := hroom (b - (virtMemOffset - argBlockSize argv envp)) (by omega)
  rwa [Nat.add_sub_cancel' hle] at hwritable

/-- **When the block is as it should be**: when the numbers fit in an `int`, and all of it may
be written. The block that `kmalloc` returns for the strings is in the kernel's half. -/
theorem execArguments_iff {args envs : Option (List (List UInt8))}
    (hargv : ∀ s ∈ args.getD [], 0 ∉ s) (henvp : ∀ s ∈ envs.getD [], 0 ∉ s)
    (hlow : virtMemOffset ≤ temp) (hhigh : temp + ((flatStrings (args.getD [])).length +
      (flatStrings (envs.getD [])).length) ≤ 2 ^ 64) :
    BlockDecodes (fun user n => execArguments n space user kernel temp args envs)
        (args.getD []) (envs.getD []) ↔
      (args.getD []).length + (envs.getD []).length + 2 < 2 ^ 31 ∧
        ∀ b < virtMemOffset, virtMemOffset - argBlockSize (args.getD []) (envs.getD []) ≤ b →
          space.Writable b := by
  have hargc := length_le_flatStrings (args.getD [])
  have henvc := length_le_flatStrings (envs.getD [])
  have hvirt : virtMemOffset = 0xffffff8000000000 := rfl
  have hsize : argBlockSize (args.getD []) (envs.getD []) ≤ virtMemOffset := by
    rw [argBlockSize]
    omega
  refine ⟨writable_of_blockDecodes rfl rfl hargv henvp hsize, ?_⟩
  rintro ⟨hint, hwritable⟩
  refine ⟨_, argBlock (virtMemOffset - argBlockSize (args.getD []) (envs.getD [])) (args.getD [])
    (envs.getD []), ?_, fun user => ⟨?_, decodes_argBlock hargv henvp (Nat.sub_add_cancel hsize)⟩⟩
  · rw [length_argBlock]
    exact Nat.sub_add_cancel hsize
  · refine ⟨(flatStrings (args.getD [])).length + (flatStrings (envs.getD [])).length + 1,
      fun n hn => ?_⟩
    refine (execArguments_eq rfl rfl hargv henvp rfl hn).trans (if_pos ?_)
    exact ⟨hint, fun i hi => hwritable _ (by omega) (by omega)⟩

end Passes

/-- What the first process has: a region for its stack, `MAX_STACK_SIZE` large. -/
def stackSpace : ExecSpace where
  loaded := fun _ => false
  regions := [⟨virtMemOffset - 0x100000, virtMemOffset - 1, 7, none⟩]

/-- One argument, and no environment. -/
theorem execArguments_iff_one :
    BlockDecodes (fun user n => execArguments n stackSpace user (fun _ => 0) virtMemOffset
      (some [[97]]) none) [[97]] [] := by
  refine (execArguments_iff (by decide) (by decide) le_rfl (by decide)).mpr ⟨by decide, ?_⟩
  intro b hb hle
  refine ⟨hb, Or.inl (Nat.le_trans ?_ hle)⟩
  decide

/-- One argument that is too long for the region. -/
theorem not_blockDecodes_of_le {n : ℕ} (hn : 0x100000 ≤ n) (hlt : n < 2 ^ 32) :
    ¬BlockDecodes (fun user k => execArguments k stackSpace user (fun _ => 0) virtMemOffset
      (some [List.replicate n 97]) none) [List.replicate n 97] [] := by
  intro h
  have hvirt : virtMemOffset = 0xffffff8000000000 := rfl
  have hsize : argBlockSize [List.replicate n 97] [] = n + 25 := by
    simp [argBlockSize, flatStrings_cons]
    omega
  have hargv : ∀ s ∈ [List.replicate n (97 : UInt8)], 0 ∉ s := fun s hs => by
    rw [List.mem_singleton.mp hs, List.mem_replicate]
    simp
  have hargs : (some [List.replicate n (97 : UInt8)]).getD [] = [List.replicate n 97] := rfl
  have henvs : (none : Option (List (List UInt8))).getD [] = [] := rfl
  have hroom := writable_of_blockDecodes hargs henvs hargv (fun s hs => absurd hs List.not_mem_nil)
    (hsize.trans_le (by omega)) h
  rw [hsize] at hroom
  obtain ⟨-, hwritable⟩ := hroom
  obtain ⟨-, hstack | hloaded | ⟨r, hr, hstart, -⟩⟩ :=
    hwritable (virtMemOffset - (n + 25)) (by omega) le_rfl
  · rw [processInitialStack] at hstack
    omega
  · exact absurd hloaded Bool.false_ne_true
  · rw [List.mem_singleton.mp hr] at hstart
    change virtMemOffset - 0x100000 ≤ _ at hstart
    omega

/-- A mebibyte. -/
theorem not_blockDecodes :
    ¬BlockDecodes (fun user n => execArguments n stackSpace user (fun _ => 0) virtMemOffset
      (some [List.replicate 0x100000 97]) none) [List.replicate 0x100000 97] [] :=
  not_blockDecodes_of_le le_rfl (by decide)

end Xana
