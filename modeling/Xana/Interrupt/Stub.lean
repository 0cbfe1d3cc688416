import Xana.Lib.Stack

/-!
# Into the kernel and back

The assembly around the handlers, as the registers and the stack see it. An interrupt leaves a
`regs_t` on the stack and returns from it (`Xana.irqReturn_eq`); a system call leaves one in
the process, with the result in `rax` when it returns (`Xana.afterSyscall_eq`). A frame is
read and written as the words of the struct.
-/

namespace Xana

/-- The general registers but `rsp`. -/
inductive Gpr
  | rax | rcx | rdx | rbx | rbp | rsi | rdi | r8 | r9 | r10 | r11 | r12 | r13 | r14 | r15
  deriving DecidableEq, Repr

/-- `pusha64`, in the order of its pushes. -/
def pusha64 : List Gpr :=
  [.rax, .rcx, .rdx, .rbx, .rbp, .rsi, .rdi, .r8, .r9, .r10, .r11, .r12, .r13, .r14, .r15]

/-- `popa64`, in the order of its pops. -/
def popa64 : List Gpr :=
  [.r15, .r14, .r13, .r12, .r11, .r10, .r9, .r8, .rdi, .rsi, .rbp, .rbx, .rdx, .rcx, .rax]

/-- The registers of the processor, those for floating point aside. -/
@[ext]
structure Cpu where
  gpr : Gpr → BitVec 64
  (rip cs rflags rsp ss : BitVec 64)

/-- `sizeof(regs_t)`. -/
def regsSize : ℕ := 176

/-- The code runs in the kernel. -/
def Cpu.InKernel (c : Cpu) : Prop := c.cs &&& 3 = 0

instance (c : Cpu) : Decidable c.InKernel := inferInstanceAs (Decidable (_ = _))

/-! ### Interrupts -/

section Interrupts

variable (c : Cpu) (m : Mem)

/-- Where an interrupt pushes: on the stack in use, or on the one in the `tss` if it comes from
user mode, at a multiple of 16. -/
def Cpu.interruptStack (rsp0 : ℕ) : ℕ := (if c.InKernel then c.rsp.toNat else rsp0) / 16 * 16

/-- What is pushed for interrupt request `n`: by the processor, by `irq<n>` and by
`irq_common_stub`. -/
def Cpu.irqPushes (n : BitVec 64) : List (BitVec 64) :=
  [c.ss, c.rsp, c.rflags, c.cs, c.rip] ++ [0, n + 32] ++ pusha64.map c.gpr

/-- The entry, up to the call of `irq_handler`: the stack pointer, which is the address of the
`regs_t`, and the memory. -/
def Cpu.irqEntry (n : BitVec 64) (rsp0 : ℕ) : ℕ × Mem :=
  (c.irqPushes n).foldl Mem.push (c.interruptStack rsp0, m)

/-- The way back, from `popa64` to `iretq`. -/
def irqReturn (frame : ℕ) : Cpu :=
  let popped := m.pops popa64 (fun _ => 0) frame
  -- over the interrupt number and the error code
  let sp := popped.2 + 0x10
  ⟨popped.1, m.word sp, m.word (sp + 8), m.word (sp + 16), m.word (sp + 24), m.word (sp + 32)⟩

end Interrupts

/-! ### System calls -/

section Syscalls

variable (c : Cpu) (m : Mem)

/-- The general registers after the `syscall` instruction. -/
def Cpu.called : Gpr → BitVec 64 :=
  Function.update (Function.update c.gpr .rcx c.rip) .r11 c.rflags

/-- What `syscall_handler_asm` pushes. The flags are those the processor has left. -/
def Cpu.syscallPushes (flags : BitVec 64) : List (BitVec 64) :=
  [0, c.rsp, flags, 0, 0, 0, 0] ++ pusha64.map c.called

/-- The flags `sysret` takes from `r11`. -/
def sysretFlags (r11 : BitVec 64) : BitVec 64 := r11 &&& 0x3C7FD7 ||| 2

/-- `after_syscall`, with `rax` the address of a `regs_t`. The selectors are those the STAR
register gives: `0x23 + 16` and `0x23 + 8`. -/
def afterSyscall (regs : ℕ) (syscallOldRsp : BitVec 64) : Cpu :=
  let popped := (m.pops popa64 (fun _ => 0) regs).1
  ⟨popped, popped .rcx, 0x33, sysretFlags (popped .r11), syscallOldRsp, 0x2B⟩

/-- `regs->rax = value`. -/
def setRax (regs : ℕ) (value : BitVec 64) : Mem := m.store (regs + 112) 8 value.toNat

/-- What a program sees of a system call: the result is in `rax`, and `rcx` and `r11` are
lost. -/
def Cpu.sysret (value : BitVec 64) : Cpu :=
  ⟨Function.update c.called .rax value, c.rip, 0x33, sysretFlags c.rflags, c.rsp, 0x2B⟩

/-- `jump_to_usermode(entry, rsp, 0, NULL, NULL)`, from what the registers hold there. -/
def jumpToUsermode (entry rsp : BitVec 64) : Cpu where
  gpr
    | .rax => c.gpr .rax &&& ~~~0xFFFF#64 ||| 0x2B
    | .rbp => rsp
    | .rdi | .rsi | .rdx | .rcx | .r8 => 0
    | r => c.gpr r
  rip := entry
  cs := 0x33
  rflags := c.rflags ||| 0x200
  rsp := rsp
  ss := 0x2B

end Syscalls

/-! ### There and back -/

section Back

variable {c : Cpu} {m m' : Mem} {n value flags : BitVec 64} {rsp0 regs frame a : ℕ}
variable {g : Gpr → BitVec 64}

/-- The words of the `regs_t` of an interrupt, in the order of the struct. -/
def Cpu.irqRegs (c : Cpu) (n : BitVec 64) : List (BitVec 64) :=
  popa64.map c.gpr ++ [n + 32, 0, c.rip, c.cs, c.rflags, c.rsp, c.ss]

theorem mem_popa64 (r : Gpr) : r ∈ popa64 := by cases r <;> decide

/-- **The pops are the pushes** in the opposite order. -/
theorem reverse_map_pusha64 (g : Gpr → BitVec 64) : (pusha64.map g).reverse = popa64.map g := rfl

/-- Every register is popped. -/
theorem pops_popa64 (h : m.words a 15 = popa64.map g) (g' : Gpr → BitVec 64) :
    m.pops popa64 g' a = (g, a + 120) := by
  have hpops : m.pops popa64 g' a = (fun r => if r ∈ popa64 then g r else g' r, a + 120) :=
    Mem.pops_eq h
  rw [hpops]
  exact Prod.ext (funext fun r => if_pos (mem_popa64 r)) rfl

/-- The entry writes only the frame. -/
theorem irqEntry_of_notMem (h : regsSize ≤ c.interruptStack rsp0)
    (ha : a < c.interruptStack rsp0 - regsSize ∨ c.interruptStack rsp0 ≤ a) :
    (c.irqEntry m n rsp0).2 a = m a :=
  Mem.pushes_of_notMem (s := (_, m)) h ha

theorem irqEntry_fst : (c.irqEntry m n rsp0).1 = c.interruptStack rsp0 - regsSize :=
  Mem.pushes_fst _ _

/-- **The entry leaves a frame.** -/
theorem words_irqEntry (h : regsSize ≤ c.interruptStack rsp0) :
    (c.irqEntry m n rsp0).2.words (c.irqEntry m n rsp0).1 22 = c.irqRegs n := by
  rw [irqEntry_fst]
  exact Mem.words_pushes (s := (_, m)) h

/-- **From a frame the registers come back.** -/
theorem irqReturn_eq (h : m.words frame 22 = c.irqRegs n) : irqReturn m frame = c := by
  rw [show 22 = 15 + 7 from rfl, Mem.words_add] at h
  obtain ⟨hgpr, hrest⟩ := List.append_inj h (Mem.length_words ..)
  simp only [Mem.words, List.cons.injEq, and_true] at hrest
  obtain ⟨-, -, hrip, hcs, hrflags, hrsp, hss⟩ := hrest
  simp only [irqReturn, pops_popa64 hgpr]
  exact Cpu.ext rfl hrip hcs hrflags hrsp hss

/-- **A system call leaves a `regs_t` too**, with what the program had in its registers. -/
theorem words_syscall (c : Cpu) (m : Mem) (flags : BitVec 64) {top : ℕ} (h : regsSize ≤ top) :
    ((c.syscallPushes flags).foldl Mem.push (top, m)).2.words (top - regsSize) 22 =
      popa64.map c.called ++ [0, 0, 0, 0, flags, c.rsp, 0] :=
  Mem.words_pushes (s := (top, m)) (l := c.syscallPushes flags) h

theorem syscall_of_notMem {top : ℕ} (h : regsSize ≤ top) (ha : a < top - regsSize ∨ top ≤ a) :
    ((c.syscallPushes flags).foldl Mem.push (top, m)).2 a = m a :=
  Mem.pushes_of_notMem (s := (top, m)) (l := c.syscallPushes flags) h ha

/-- The result goes to the place of `rax`. -/
theorem words_setRax (h : m.words regs 15 = popa64.map g) :
    (setRax m regs value).words regs 15 = popa64.map (Function.update g .rax value) := by
  rw [show 15 = 14 + 1 from rfl, Mem.words_add] at h ⊢
  have hsame : (setRax m regs value).words regs 14 = m.words regs 14 :=
    Mem.words_congr fun i hi => Mem.store_of_notMem (by omega)
  have hrax : (setRax m regs value).words (regs + 8 * 14) 1 = [value] := by
    rw [Mem.words, Mem.words, setRax, Mem.word_store_self]
  have hsplit : popa64.map g = (popa64.take 14).map g ++ [g .rax] := rfl
  rw [hsplit] at h
  rw [hsame, hrax, List.append_inj_left h (Mem.length_words ..)]
  rfl

/-- **From a `regs_t` a system call returns.** -/
theorem afterSyscall_eq (h : m.words regs 15 = popa64.map (Function.update c.called .rax value)) :
    afterSyscall m regs c.rsp = c.sysret value := by
  simp only [afterSyscall, pops_popa64 h]
  exact Cpu.ext rfl rfl rfl rfl rfl rfl

end Back

end Xana
