import TipOS.Lib.Stack

/-!
# Context switches and the entry of system calls

`switch.asm` and `syscall_entry.asm`.  The kernel state has the registers, the
kernel stacks as a memory of quadwords, and the variables that the two files
share with `process.c`.  Every access of these routines is to a whole quadword
at a multiple of 8 from the top of a stack, so that memory maps the address of
a quadword to its value.

A process is switched out in one of two ways.  `context_switch` saves FS.base
and, for a user process, takes RBX for the stack pointer; `context_switch_kern`
saves RSP and sets `in_kern`.  A process with `in_kern` set is continued by
`ret`, any other user process by 15 pops and `iretq`.

`running` is not a variable of the kernel: it is the slot whose context was
last switched to.  Output on the serial port is left out, and with it what it
leaves in `rax` and `rdx`, which no caller reads.
-/

namespace TipOS.Process

open Function Lib

inductive Reg
  | rax | rcx | rdx | rsi | rdi | r8 | r9 | r10 | r11 | rbx | rbp | r12 | r13 | r14 | r15
  deriving DecidableEq, Repr

inductive ProcState
  | empty | ready | running | blocked | zombie
  deriving DecidableEq, Repr

/-- The fields of `pcb_t` that process management reads. -/
structure Pcb where
  pid : ℤ
  state : ProcState
  isUser : Bool
  kernelRsp : ℕ
  rsp0 : ℕ
  pml4 : ℕ
  sRbx : ℕ
  sRbp : ℕ
  sR12 : ℕ
  sR13 : ℕ
  sR14 : ℕ
  sR15 : ℕ
  parentPid : ℤ
  exitCode : ℤ
  fsBase : ℕ
  inKern : Bool
  thParentPid : ℤ
  clearTid : ℕ

structure Kernel extends Cpu Reg ℕ where
  rip : ℕ
  rflags : ℕ
  ring3 : Bool
  cr3 : ℕ
  /-- The MSR `0xC0000100`. -/
  fsBase : ℕ
  tssRsp0 : ℕ
  currentRsp0 : ℕ
  gInSyscall : Bool
  /-- `pcb_table`; what follows its 64 entries in memory is read by an index out of range. -/
  table : ℕ → Pcb
  currentPid : ℕ
  nextPid : ℕ
  pcbCount : ℕ
  running : ℕ

namespace Kernel

/-- Change one entry of the table. -/
def modify (k : Kernel) (i : ℕ) (f : Pcb → Pcb) : Kernel :=
  { k with table := update k.table i (f (k.table i)) }

@[simp] theorem modify_mem (k : Kernel) (i : ℕ) (f : Pcb → Pcb) : (k.modify i f).mem = k.mem := rfl

@[simp] theorem modify_table_self (k : Kernel) (i : ℕ) (f : Pcb → Pcb) :
    (k.modify i f).table i = f (k.table i) :=
  update_self _ _ _

theorem modify_table_of_ne {k : Kernel} {i j : ℕ} {f : Pcb → Pcb} (h : j ≠ i) :
    (k.modify i f).table j = k.table j :=
  update_of_ne h _ _

def ret (k : Kernel) : Kernel := { k with rip := k.mem k.sp, sp := k.sp + 8 }

/-- The selectors of the frame are `0x1B` and `0x23` in every frame the kernel builds. -/
def iretq (k : Kernel) : Kernel :=
  { k with
    rip := k.mem k.sp
    rflags := k.mem (k.sp + 16)
    sp := k.mem (k.sp + 24)
    ring3 := true }

end Kernel

/-! ### `switch.asm` -/

/-- The 15 registers, in the order in which both switches pop them. -/
def popOrder : List Reg :=
  [.r15, .r14, .r13, .r12, .rbp, .rbx, .r11, .r10, .r9, .r8, .rdi, .rsi, .rdx, .rcx, .rax]

/-- The callee-saved registers go to the PCB. -/
def saveRegs (reg : Reg → ℕ) (p : Pcb) : Pcb :=
  { p with
    sRbx := reg .rbx
    sRbp := reg .rbp
    sR12 := reg .r12
    sR13 := reg .r13
    sR14 := reg .r14
    sR15 := reg .r15 }

def loadRegs (p : Pcb) (reg : Reg → ℕ) : Reg → ℕ
  | .rbx => p.sRbx
  | .rbp => p.sRbp
  | .r12 => p.sR12
  | .r13 => p.sR13
  | .r14 => p.sR14
  | .r15 => p.sR15
  | r => reg r

/-- Stack, page tables, TSS, `current_rsp0` and callee-saved registers of the slot `next`. -/
def loadNext (k : Kernel) (next : ℕ) : Kernel :=
  { k with
    reg := loadRegs (k.table next) k.reg
    sp := (k.table next).kernelRsp
    cr3 := (k.table next).pml4
    tssRsp0 := (k.table next).rsp0
    currentRsp0 := (k.table next).rsp0
    running := next }

/-- The end of both switches for a process that was not blocked inside a system call. -/
def startNext (k : Kernel) (next : ℕ) : Kernel :=
  if (k.table next).isUser then
    Kernel.iretq { k with toCpu := Cpu.popAll 8 popOrder k.toCpu }
  else k.ret

/-- `.restore_in_kern`: FS.base stays as it is. -/
def restoreInKern (k : Kernel) (next : ℕ) : Kernel :=
  ((loadNext k next).modify next fun p => { p with inKern := false }).ret

def saveKern (k : Kernel) (cur : ℕ) : Kernel :=
  k.modify cur fun p => saveRegs k.reg { p with kernelRsp := k.sp, inKern := true }

def contextSwitchKern (k : Kernel) (cur next : ℕ) : Kernel :=
  let k := saveKern k cur
  if (k.table next).inKern then restoreInKern k next
  else startNext (loadNext k next) next

/-- A user process is saved with RBX for its stack pointer. -/
def saveUser (k : Kernel) (cur : ℕ) : Kernel :=
  k.modify cur fun p => saveRegs k.reg
    { p with kernelRsp := if p.isUser then k.reg .rbx else k.sp, fsBase := k.fsBase }

def contextSwitch (k : Kernel) (cur next : ℕ) : Kernel :=
  let k := saveUser k cur
  if (k.table next).inKern then restoreInKern k next
  else startNext { loadNext k next with fsBase := (k.table next).fsBase } next

section Cases

variable {k : Kernel} {cur next : ℕ}

theorem contextSwitchKern_resume (h : ((saveKern k cur).table next).inKern) :
    contextSwitchKern k cur next = restoreInKern (saveKern k cur) next :=
  if_pos h

theorem contextSwitchKern_start (h : ((saveKern k cur).table next).inKern = false) :
    contextSwitchKern k cur next = startNext (loadNext (saveKern k cur) next) next :=
  if_neg (by simp [h])

theorem contextSwitch_resume (h : ((saveUser k cur).table next).inKern) :
    contextSwitch k cur next = restoreInKern (saveUser k cur) next :=
  if_pos h

theorem contextSwitch_start (h : ((saveUser k cur).table next).inKern = false) :
    contextSwitch k cur next = startNext { loadNext (saveUser k cur) next with
      fsBase := ((saveUser k cur).table next).fsBase } next :=
  if_neg (by simp [h])

end Cases

/-! ### What a switch leaves alone -/

/-- Who a process is, as opposed to where it was stopped. -/
structure Pcb.SameProc (p q : Pcb) : Prop where
  pid : q.pid = p.pid
  state : q.state = p.state
  isUser : q.isUser = p.isUser
  rsp0 : q.rsp0 = p.rsp0
  parentPid : q.parentPid = p.parentPid

/-- The variables that no switch writes. -/
structure SameVars (k k' : Kernel) : Prop where
  currentPid : k'.currentPid = k.currentPid
  nextPid : k'.nextPid = k.nextPid
  pcbCount : k'.pcbCount = k.pcbCount
  gInSyscall : k'.gInSyscall = k.gInSyscall
  mem : k'.mem = k.mem

/-- The end of a switch loads registers and, for a user process, goes to ring 3. -/
structure Landed (k : Kernel) (next : ℕ) (k' : Kernel) : Prop where
  vars : SameVars k k'
  table : k'.table = k.table
  running : k'.running = k.running
  currentRsp0 : k'.currentRsp0 = k.currentRsp0
  ring3 : k'.ring3 = ((k.table next).isUser || k.ring3)

theorem startNext_landed (k : Kernel) (next : ℕ) : Landed k next (startNext k next) := by
  unfold startNext
  split
  · next h => exact ⟨⟨rfl, rfl, rfl, rfl, Cpu.popAll_mem _ _⟩, rfl, rfl, rfl, by rw [h]; rfl⟩
  · next h =>
    rw [Bool.not_eq_true] at h
    exact ⟨⟨rfl, rfl, rfl, rfl, rfl⟩, rfl, rfl, rfl, by rw [h]; rfl⟩

/-! ### Both routines -/

/-- The two routines. -/
inductive Routine
  | plain
  | kern
  deriving DecidableEq

namespace Routine

def switch : Routine → Kernel → ℕ → ℕ → Kernel
  | .plain => contextSwitch
  | .kern => contextSwitchKern

/-- What the routine saves. -/
def save : Routine → Kernel → ℕ → Kernel
  | .plain => saveUser
  | .kern => saveKern

theorem save_plain (k : Kernel) (cur : ℕ) : Routine.plain.save k cur = saveUser k cur := rfl

theorem save_kern (k : Kernel) (cur : ℕ) : Routine.kern.save k cur = saveKern k cur := rfl

variable (sw : Routine) (k : Kernel) (cur next : ℕ)

theorem save_table_of_ne {i : ℕ} (h : i ≠ cur) : (sw.save k cur).table i = k.table i := by
  cases sw with
  | plain => exact update_of_ne h _ _
  | kern => exact update_of_ne h _ _

/-- **The two ends of a switch**: a process with `in_kern` set returns inside the kernel. -/
theorem switch_cases :
    (((sw.save k cur).table next).inKern ∧
      sw.switch k cur next = restoreInKern (sw.save k cur) next) ∨
    (((sw.save k cur).table next).inKern = false ∧ ∃ fs, sw.switch k cur next =
      startNext { loadNext (sw.save k cur) next with fsBase := fs } next) := by
  cases sw with
  | plain =>
    rcases Bool.eq_false_or_eq_true ((saveUser k cur).table next).inKern with h | h
    · exact .inl ⟨h, contextSwitch_resume h⟩
    · exact .inr ⟨h, _, contextSwitch_start h⟩
  | kern =>
    rcases Bool.eq_false_or_eq_true ((saveKern k cur).table next).inKern with h | h
    · exact .inl ⟨h, contextSwitchKern_resume h⟩
    · exact .inr ⟨h, _, contextSwitchKern_start h⟩

/-- What a switch from `cur` to `next` does. -/
structure Switched (k' : Kernel) : Prop where
  vars : SameVars k k'
  running : k'.running = next
  currentRsp0 : k'.currentRsp0 = (k.table next).rsp0
  table : k'.table = update (sw.save k cur).table next
    { (sw.save k cur).table next with inKern := false }
  resume : ((sw.save k cur).table next).inKern = true → k'.ring3 = k.ring3 ∧
    k'.fsBase = k.fsBase ∧ k'.sp = ((sw.save k cur).table next).kernelRsp + 8 ∧
    k'.rip = k.mem ((sw.save k cur).table next).kernelRsp
  start : ((sw.save k cur).table next).inKern = false →
    k'.ring3 = ((k.table next).isUser || k.ring3)

theorem save_sameVars : SameVars k (sw.save k cur) := by
  cases sw with
  | plain => exact ⟨rfl, rfl, rfl, rfl, rfl⟩
  | kern => exact ⟨rfl, rfl, rfl, rfl, rfl⟩

theorem save_ring3 : (sw.save k cur).ring3 = k.ring3 := by
  cases sw with
  | plain => rfl
  | kern => rfl

theorem save_fsBase : (sw.save k cur).fsBase = k.fsBase := by
  cases sw with
  | plain => rfl
  | kern => rfl

theorem save_sameProc (i : ℕ) : (k.table i).SameProc ((sw.save k cur).table i) := by
  by_cases h : i = cur
  · subst h
    cases sw with
    | plain =>
      rw [save_plain, saveUser, Kernel.modify_table_self]
      exact ⟨rfl, rfl, rfl, rfl, rfl⟩
    | kern =>
      rw [save_kern, saveKern, Kernel.modify_table_self]
      exact ⟨rfl, rfl, rfl, rfl, rfl⟩
  · rw [save_table_of_ne sw k cur h]
    exact ⟨rfl, rfl, rfl, rfl, rfl⟩

/-- **Both routines switch in the same way** but for what they save. -/
theorem switched : Switched sw k cur next (sw.switch k cur next) := by
  have hv := save_sameVars sw k cur
  have hp := save_sameProc sw k cur next
  rcases switch_cases sw k cur next with ⟨h, he⟩ | ⟨h, fs, he⟩
  · rw [he]
    refine ⟨⟨hv.currentPid, hv.nextPid, hv.pcbCount, hv.gInSyscall, hv.mem⟩, rfl, hp.rsp0, rfl,
      fun _ => ⟨save_ring3 sw k cur, save_fsBase sw k cur, rfl, congrFun hv.mem _⟩,
      fun h' => absurd (h.symm.trans h') (by decide)⟩
  rw [he]
  have hl := startNext_landed { loadNext (sw.save k cur) next with fsBase := fs } next
  refine ⟨⟨hl.vars.currentPid.trans hv.currentPid, hl.vars.nextPid.trans hv.nextPid,
    hl.vars.pcbCount.trans hv.pcbCount, hl.vars.gInSyscall.trans hv.gInSyscall,
    hl.vars.mem.trans hv.mem⟩, hl.running, hl.currentRsp0.trans hp.rsp0, ?_,
    fun h' => absurd (h.symm.trans h') (by decide), fun _ => ?_⟩
  · rw [hl.table]
    refine (update_eq_self_iff.mpr ?_).symm
    exact congrArg (fun b => { (sw.save k cur).table next with inKern := b }) h.symm
  · refine hl.ring3.trans ?_
    change (((sw.save k cur).table next).isUser || (sw.save k cur).ring3) = _
    rw [hp.isUser, save_ring3]

end Routine

/-! ### `syscall_entry.asm` -/

/-- The order in which `syscall_entry` pushes the 15 registers. -/
def pushOrder : List Reg :=
  [.r15, .r14, .r13, .r12, .rbp, .rbx, .r11, .r10, .r9, .r8, .rdi, .rsi, .rdx, .rcx, .rax]

/-- What the instruction leaves in RCX and R11. -/
def syscallRegs (k : Kernel) : Reg → ℕ
  | .rcx => k.rip
  | .r11 => k.rflags
  | r => k.reg r

/-- The registers and the stack when `syscall_entry` has built its frame. -/
def entryCpu (k : Kernel) : Cpu Reg ℕ :=
  let c : Cpu Reg ℕ := { reg := syscallRegs k, sp := k.currentRsp0 - 16, mem := k.mem }
  Cpu.pushAll 8 pushOrder ((c.poke c.sp k.rip).poke (c.sp + 8) k.rflags)

/-- `syscall_entry` up to the call of the handler, with the `xchg` of RSP and `current_rsp0`. -/
def syscallEntry (k : Kernel) : Kernel :=
  { k with
    toCpu := { entryCpu k with
      reg := update (update (entryCpu k).reg .rbx (entryCpu k).sp)
        .rdi (entryCpu k).sp }
    ring3 := false
    currentRsp0 := k.sp }

/-- The address `n` bytes below `a`, in 64 bits. -/
def below (a n : ℕ) : ℕ := (a + 2 ^ 64 - n) % 2 ^ 64

/-- The frame for `iretq` is written below RSP on the stack of the user. -/
def userFrame (c : Cpu Reg ℕ) (rip rflags : ℕ) : Cpu Reg ℕ :=
  ((((c.poke (below c.sp 40) rip).poke (below c.sp 32) 0x1B).poke (below c.sp 24) rflags).poke
    (below c.sp 16) c.sp).poke (below c.sp 8) 0x23

/-- `syscall_entry` after the handler, `frame` being the address of the 15 registers: RIP and
RFLAGS come from the two words above them, and the second `xchg` gives RSP. -/
def syscallExit (k : Kernel) (frame : ℕ) : Kernel :=
  let c := Cpu.popAll 8 pushOrder.reverse { k.toCpu with sp := frame }
  let rip := c.mem c.sp
  let rflags := c.mem (c.sp + 8)
  let regs := update (update c.reg .r11 rflags) .rcx rip
  -- `iretq` reads back the five words just written
  { k with
    toCpu := userFrame { reg := regs, sp := k.currentRsp0, mem := c.mem } rip rflags
    rip := rip
    rflags := rflags
    currentRsp0 := c.sp + 16
    ring3 := true }

end TipOS.Process
