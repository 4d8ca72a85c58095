import TipOS.Exec.UserStack
import TipOS.Process.Blocking
import TipOS.Process.Frame

/-!
# `execve`

`SYS_execve` of `syscall.c`, from the entry of the system call to its return.  The vectors of the
program are copied from user memory, at most 16 arguments and 32 variables of 255 bytes each, and
the stack is built in the new address space.  Then the frame of the system call is written over.

`exec_in_bounds_iff` is about the arrays of 8 pointers of `setup_linux_user_stack`.  The frame is
written as `int 0x80` has it: `syscall_entry` has RIP and RFLAGS in the two words after the
registers and RSP in `current_rsp0`, so it returns with CS for RFLAGS.  `execve_returns_iff` puts
the two together.
-/

namespace TipOS.Exec

open Lib Process Nat List

/-! ### The vectors -/

/-- `while (s[j] && j < n)`. -/
def copyBytes (m : Mem) (a : ℕ) : ℕ → List UInt8
  | 0 => []
  | n + 1 => if m a = 0 then [] else m a :: copyBytes m (a + 1) n

theorem zero_not_mem_copyBytes (m : Mem) (a n : ℕ) : (0 : UInt8) ∉ copyBytes m a n := by
  induction n generalizing a with
  | zero => exact not_mem_nil
  | succ n ih =>
    rw [copyBytes]
    split
    · exact not_mem_nil
    · next h =>
      rw [mem_cons, not_or]
      exact ⟨fun h0 => h h0.symm, ih (a + 1)⟩

theorem length_copyBytes_le (m : Mem) (a n : ℕ) : (copyBytes m a n).length ≤ n := by
  induction n generalizing a with
  | zero => exact le_rfl
  | succ n ih =>
    rw [copyBytes]
    split
    · exact zero_le _
    · rw [length_cons]
      exact succ_le_succ (ih (a + 1))

/-- A row of `kargs` or `kenvs`. -/
def copyStr (m : Mem) (a : ℕ) : Str := ⟨copyBytes m a 255, zero_not_mem_copyBytes m a 255⟩

/-- `while (kargc < max && uargv[kargc])`. -/
def copyRows (m : Mem) (a : ℕ) : ℕ → List Str
  | 0 => []
  | n + 1 => if m.load a 8 = 0 then [] else copyStr m (m.load a 8) :: copyRows m (a + 8) n

/-- The strings of the vector at `a`; a vector can be `NULL`. -/
def copyVec (m : Mem) (a max : ℕ) : List Str := if a = 0 then [] else copyRows m a max

def kargs (um : Mem) (uargv : ℕ) : List Str := copyVec um uargv 16
def kenvs (um : Mem) (uenvp : ℕ) : List Str := copyVec um uenvp 32

/-- The vector at `a` ends within 8 entries. -/
def ShortVec (m : Mem) (a : ℕ) : Prop := a = 0 ∨ ∃ n ≤ 8, m.load (a + 8 * n) 8 = 0

theorem length_copyRows_le_iff (m : Mem) {a k n : ℕ} (h : k < n) :
    (copyRows m a n).length ≤ k ↔ ∃ j ≤ k, m.load (a + 8 * j) 8 = 0 := by
  induction n generalizing a k with
  | zero => omega
  | succ n ih =>
    rw [copyRows]
    split
    · next h0 => exact ⟨fun _ => ⟨0, zero_le k, h0⟩, fun _ => zero_le k⟩
    next h0 =>
    rw [length_cons]
    cases k with
    | zero =>
      refine ⟨fun hl => absurd hl (by omega), ?_⟩
      rintro ⟨j, hj, hz⟩
      obtain rfl : j = 0 := by omega
      exact absurd hz h0
    | succ k =>
      rw [add_le_add_iff_right, ih (by omega)]
      constructor
      · rintro ⟨j, hj, hz⟩
        exact ⟨j + 1, by omega, by rwa [show a + 8 * (j + 1) = a + 8 + 8 * j by omega]⟩
      · rintro ⟨j, hj, hz⟩
        cases j with
        | zero => exact absurd hz h0
        | succ j => exact ⟨j, by omega, by rwa [show a + 8 + 8 * j = a + 8 * (j + 1) by omega]⟩

theorem length_copyVec_le_iff (m : Mem) (a : ℕ) {n : ℕ} (h : 8 < n) :
    (copyVec m a n).length ≤ 8 ↔ ShortVec m a := by
  unfold copyVec ShortVec
  split
  · next h0 => exact ⟨fun _ => .inl h0, fun _ => zero_le 8⟩
  · next h0 => rw [length_copyRows_le_iff m h, or_iff_right h0]

theorem strBytes_copyRows_le (m : Mem) (a n : ℕ) : strBytes (copyRows m a n) ≤ 256 * n := by
  induction n generalizing a with
  | zero => exact le_rfl
  | succ n ih =>
    rw [copyRows]
    split
    · exact zero_le _
    have hs : (copyStr m (m.load a 8)).1.length ≤ 255 := length_copyBytes_le m _ 255
    have hrec := ih (a + 8)
    rw [strBytes] at hrec ⊢
    rw [map_cons, sum_cons]
    omega

theorem strBytes_copyVec_le (m : Mem) (a n : ℕ) : strBytes (copyVec m a n) ≤ 256 * n := by
  unfold copyVec
  split
  · exact zero_le _
  · exact strBytes_copyRows_le m a n

/-! ### The stack -/

def execveStackSize : ℕ := 65536

/-- What the loader found in the file, and the new page tables. -/
structure Program where
  entry : ℕ
  pml4 : ℕ
  phdr : UInt64
  phent : UInt64
  phnum : UInt64
  base : UInt64

/-- The new stack at `ustack`, with the vectors from the memory `um` of the old program. -/
def execStack (um m : Mem) (uargv uenvp ustack : ℕ) (p : Program) : Built :=
  setupLinuxUserStack m (ustack + execveStackSize) p.phdr p.phent p.phnum p.base
    (vecOf (kargs um uargv)) (kargs um uargv).length (vecOf (kenvs um uenvp))
    (kenvs um uenvp).length

section Stack

variable (um m : Mem) (uargv uenvp ustack : ℕ) (p : Program)

theorem exec_room :
    strBytes (kargs um uargv) + strBytes (kenvs um uenvp) ≤ execveStackSize := by
  have hka : strBytes (kargs um uargv) ≤ 256 * 16 := strBytes_copyVec_le um uargv 16
  have hke : strBytes (kenvs um uenvp) ≤ 256 * 32 := strBytes_copyVec_le um uenvp 32
  have hsize : execveStackSize = 65536 := rfl
  omega

theorem exec_args_inv : CopyInv (kargs um uargv) ⟨m, ustack + execveStackSize⟩ 0
    (argCopy m (ustack + execveStackSize) (kargs um uargv)) := by
  refine copyStrings_inv (kargs um uargv) ⟨m, ustack + execveStackSize⟩ ?_
  have hroom := exec_room um uargv 0
  dsimp only
  omega

theorem exec_args_sp : (argCopy m (ustack + execveStackSize) (kargs um uargv)).sp +
    strBytes (kargs um uargv) = ustack + execveStackSize :=
  (exec_args_inv um m uargv ustack).sp

theorem exec_envs_inv : CopyInv (kenvs um uenvp)
    (argCopy m (ustack + execveStackSize) (kargs um uargv)).toDown 0
    (envCopy m (ustack + execveStackSize) (kargs um uargv) (kenvs um uenvp)) := by
  refine copyStrings_inv (kenvs um uenvp) _ ?_
  have hroom := exec_room um uargv uenvp
  have hsp := exec_args_sp um m uargv ustack
  omega

theorem exec_strPtrs_inBounds :
    (execStack um m uargv uenvp ustack p).strPtrs.inBounds = true ↔ ShortVec um uargv := by
  have h : (execStack um m uargv uenvp ustack p).strPtrs.inBounds = true ↔
      (kargs um uargv).length ≤ 8 ∨ (kargs um uargv).length ≤ 0 :=
    (exec_args_inv um m uargv ustack).inBounds
  rw [h, ← length_copyVec_le_iff um uargv (show 8 < 16 by decide), kargs]
  omega

theorem exec_envPtrs_inBounds :
    (execStack um m uargv uenvp ustack p).envPtrs.inBounds = true ↔ ShortVec um uenvp := by
  have h : (execStack um m uargv uenvp ustack p).envPtrs.inBounds = true ↔
      (kenvs um uenvp).length ≤ 8 ∨ (kenvs um uenvp).length ≤ 0 :=
    (exec_envs_inv um m uargv uenvp ustack).inBounds
  rw [h, ← length_copyVec_le_iff um uenvp (show 8 < 32 by decide), kenvs]
  omega

theorem exec_copied {q : ℕ × ℕ} (hq : q ∈ (execStack um m uargv uenvp ustack p).copied) :
    ustack ≤ q.1 ∧ q.1 + q.2 ≤ ustack + execveStackSize := by
  have hroom := exec_room um uargv uenvp
  have hasp := exec_args_sp um m uargv ustack
  have hesp : (envCopy m (ustack + execveStackSize) (kargs um uargv) (kenvs um uenvp)).sp +
      strBytes (kenvs um uenvp) = (argCopy m (ustack + execveStackSize) (kargs um uargv)).sp :=
    (exec_envs_inv um m uargv uenvp ustack).sp
  rcases mem_append.mp hq with hq | hq
  · obtain ⟨hlo, hhi⟩ := (exec_envs_inv um m uargv uenvp ustack).copied q hq
    omega
  · obtain ⟨hlo, hhi⟩ := (exec_args_inv um m uargv ustack).copied q hq
    dsimp only at hhi
    omega

/-- **The arrays of pointers are used in bounds, and the strings stay on the stack, exactly when
both vectors have at most 8 entries.** -/
theorem exec_in_bounds_iff :
    ((execStack um m uargv uenvp ustack p).strPtrs.inBounds = true ∧
      (execStack um m uargv uenvp ustack p).envPtrs.inBounds = true ∧
      ∀ q ∈ (execStack um m uargv uenvp ustack p).copied,
        ustack ≤ q.1 ∧ q.1 + q.2 ≤ ustack + execveStackSize) ↔
      ShortVec um uargv ∧ ShortVec um uenvp := by
  rw [← exec_strPtrs_inBounds um m uargv uenvp ustack p,
    ← exec_envPtrs_inBounds um m uargv uenvp ustack p]
  exact ⟨fun h => ⟨h.1, h.2.1⟩,
    fun h => ⟨h.1, h.2, fun q hq => exec_copied um m uargv uenvp ustack p hq⟩⟩

end Stack

/-- A user memory with a vector of 9 pointers at `0x1000`. -/
def nineArgs : Mem := fun a => if 0x1000 ≤ a ∧ a < 0x1048 then 1 else 0

def smallProgram : Program := ⟨0x401000, 0x3000, 0, 0, 0, 0⟩

theorem nine_args_out_of_bounds :
    (execStack nineArgs (fun _ => 0) 0x1000 0 0x200000 smallProgram).strPtrs.inBounds = false := by
  have hlong : ¬ ShortVec nineArgs 0x1000 := by
    rintro (h | ⟨n, hn, h⟩)
    · cases h
    · exact absurd h ((show ∀ n ≤ 8, nineArgs.load (0x1000 + 8 * n) 8 ≠ 0 by decide +kernel) n hn)
  rw [← exec_strPtrs_inBounds nineArgs (fun _ => 0) 0x1000 0 0x200000 smallProgram] at hlong
  exact Bool.eq_false_iff.mpr hlong

/-! ### The frame of the system call -/

/-- Step 9 of `SYS_execve` and the end of `syscall_handler`. -/
def patchFrame (k : Kernel) (regs entry newrsp : ℕ) : Kernel :=
  let k := { k with mem := forLoop (fun i m => Function.update m (regs + 8 * (i + 1)) 0) 14 k.mem }
  let k := storeWords (regs + 8 * 14) [0, entry, 0x1B, 0x202, newrsp, 0x23] k
  { k with toCpu := k.poke regs 0, gInSyscall := false }

section Patch

variable (k : Kernel) (regs entry newrsp : ℕ)

theorem patchFrame_words :
    (patchFrame k regs entry newrsp).mem (regs + 120) = entry ∧
    (patchFrame k regs entry newrsp).mem (regs + 120 + 8) = 0x1B ∧
    (patchFrame k regs entry newrsp).mem (regs + 120 + 16) = 0x202 ∧
    (patchFrame k regs entry newrsp).mem (regs + 120 + 24) = newrsp := by
  unfold patchFrame
  simp only [storeWords, Cpu.poke]
  refine ⟨?_, ?_, ?_, ?_⟩ <;>
    simp only [Function.update_apply, add_assoc, add_left_cancel_iff, Nat.reduceMul,
      Nat.reduceAdd, Nat.reduceEqDiff, if_true, if_false, add_eq_left, OfNat.ofNat_ne_zero]

end Patch

/-- `SYS_execve` in the handler, when the program has been loaded and a stack allocated at
`ustack`.  `um` is the user memory of the caller and `m` the memory of the new address space. -/
def sysExecve (k : Kernel) (regs : ℕ) (um m : Mem) (ustack : ℕ) (p : Program) : Kernel :=
  let b := execStack um m (k.mem (regs + 8 * 3)) (k.mem (regs + 8 * 2)) ustack p
  let k :=
    match processCurrent k with
    | none => k
    | some me => k.modify me fun q => { q with pml4 := p.pml4, fsBase := 0 }
  patchFrame { k with cr3 := p.pml4 } regs p.entry b.sp

/-- The state in which the handler looks at the number, for both entries. -/
def enterHandler (fast : Bool) (k : Kernel) : Kernel :=
  let k := if fast then syscallEntry k else intEntry k
  { translateFrame k k.sp with gInSyscall := true }

/-- The address of the frame. -/
def frameAddr (fast : Bool) (k : Kernel) : ℕ := if fast then (entryCpu k).sp else (intCpu k).sp

/-- A successful `execve` of a process, by `syscall` if `fast` and otherwise by `int 0x80`, up to
the first instruction of the new program. -/
def execve (fast : Bool) (k : Kernel) (um m : Mem) (ustack : ℕ) (p : Program) : Kernel :=
  let regs := frameAddr fast k
  let k := sysExecve (enterHandler fast k) regs um m ustack p
  if fast then syscallExit k regs else intExit k regs

/-- The stack that a successful `execve` builds. -/
def newStack (fast : Bool) (k : Kernel) (um m : Mem) (ustack : ℕ) (p : Program) : Built :=
  let regs := frameAddr fast k
  let k := enterHandler fast k
  execStack um m (k.mem (regs + 8 * 3)) (k.mem (regs + 8 * 2)) ustack p

section Return

variable (k : Kernel) (um m : Mem) (ustack : ℕ) (p : Program)

theorem popAll_frame_sp (c : Cpu Reg ℕ) (regs : ℕ) :
    (Cpu.popAll 8 pushOrder.reverse { c with sp := regs }).sp = regs + 120 :=
  Cpu.popAll_sp _ _

/-- What `int 0x80` takes from the words behind the registers. -/
theorem intExit_words (regs : ℕ) :
    (intExit k regs).rip = k.mem (regs + 120) ∧ (intExit k regs).rflags = k.mem (regs + 120 + 16) ∧
    (intExit k regs).sp = k.mem (regs + 120 + 24) ∧ (intExit k regs).ring3 := by
  unfold intExit Kernel.iretq
  simp only [Cpu.popAll_mem, popAll_frame_sp, and_self]

/-- What `syscall_entry` takes from the second of them. -/
theorem syscallExit_rflags (regs : ℕ) :
    (syscallExit k regs).rflags = k.mem (regs + 120 + 8) := by
  unfold syscallExit
  simp only [Cpu.popAll_mem, popAll_frame_sp]

/-- By `int 0x80` it returns to the new program. -/
theorem execve_int :
    let r := execve false k um m ustack p
    r.ring3 ∧ r.rip = p.entry ∧ r.sp = (newStack false k um m ustack p).sp ∧
      r.rflags = 0x202 := by
  intro r
  obtain ⟨hrip, hflags, hsp, hring⟩ := intExit_words
    (sysExecve (enterHandler false k) (frameAddr false k) um m ustack p) (frameAddr false k)
  obtain ⟨h0, -, h2, h3⟩ := patchFrame_words _ (frameAddr false k) p.entry
    (newStack false k um m ustack p).sp
  exact ⟨hring, hrip.trans h0, hsp.trans h3, hflags.trans h2⟩

/-- By `syscall` it returns with `0x1B` in RFLAGS. -/
theorem execve_syscall_rflags : (execve true k um m ustack p).rflags = 0x1B := by
  obtain ⟨-, h1, -, -⟩ := patchFrame_words _ (frameAddr true k) p.entry
    (newStack true k um m ustack p).sp
  exact (syscallExit_rflags _ (frameAddr true k)).trans h1

/-- **A successful `execve` goes on in the new program**, and stores no pointer past the arrays,
exactly when it came by `int 0x80` and both vectors have at most 8 entries. -/
theorem execve_returns_iff (fast : Bool) :
    ((execve fast k um m ustack p).ring3 = true ∧ (execve fast k um m ustack p).rip = p.entry ∧
      (execve fast k um m ustack p).sp = (newStack fast k um m ustack p).sp ∧
      (execve fast k um m ustack p).rflags = 0x202 ∧
      (newStack fast k um m ustack p).strPtrs.inBounds = true ∧
      (newStack fast k um m ustack p).envPtrs.inBounds = true) ↔
      fast = false ∧ ShortVec um ((enterHandler fast k).mem (frameAddr fast k + 8 * 3)) ∧
        ShortVec um ((enterHandler fast k).mem (frameAddr fast k + 8 * 2)) := by
  have hargs := exec_strPtrs_inBounds um m ((enterHandler fast k).mem (frameAddr fast k + 8 * 3))
    ((enterHandler fast k).mem (frameAddr fast k + 8 * 2)) ustack p
  have henvs := exec_envPtrs_inBounds um m ((enterHandler fast k).mem (frameAddr fast k + 8 * 3))
    ((enterHandler fast k).mem (frameAddr fast k + 8 * 2)) ustack p
  rw [← hargs, ← henvs]
  constructor
  · rintro ⟨-, -, -, h202, hin⟩
    refine ⟨Bool.eq_false_iff.mpr fun hfast => ?_, hin⟩
    rw [hfast, execve_syscall_rflags] at h202
    cases h202
  · rintro ⟨rfl, hin⟩
    obtain ⟨hring, hrip, hsp, hflags⟩ := execve_int k um m ustack p
    exact ⟨hring, hrip, hsp, hflags, hin⟩

end Return

/-- A program that calls `execve` by `syscall`. -/
def execCaller : Kernel :=
  { blank with
    reg := fun r => if r = .rax then 59 else 0
    sp := 0x500000
    rip := 0x401234
    rflags := 0x246
    ring3 := true
    currentRsp0 := 0x20000 }

theorem execve_syscall_wrong_rflags :
    ¬ ((execve true execCaller (fun _ => 0) (fun _ => 0) 0x200000 smallProgram).rflags = 0x202) := by
  rw [execve_syscall_rflags]
  decide

end TipOS.Exec
