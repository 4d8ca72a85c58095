import TipOS.Lib.Loop
import TipOS.Process.Switch

/-!
# The process table

`process.c`: creation, switching, exit and waiting.  `current_pid` is compared
with the pids of the table by `process_current` and `process_switch_to`, and is
an index of the table for `schedule`, `find_next_ready` and
`process_exit_current`.

A function that can switch ends in the state in which the next process goes on;
`schedule` without another process to run ends where it started.  What the
allocators return is an argument, `none` when they fail.  `proc_waitpid` is one
round of its loop.  Names, working directories, descriptors, the heap bounds
and the memory maps of the PCBs are left out, and so are the stores of
`proc_clone_thread` and `proc_thread_exit` to thread ids in user memory.
-/

namespace TipOS.Process

open Function Lib

def maxProc : ℕ := 64

def stackSize : ℕ := 8192

/-- The first index below `MAX_PROC` that meets a test. -/
def findIdx (f : ℕ → Bool) : Option ℕ := (List.range maxProc).find? f

def processCurrent (k : Kernel) : Option ℕ :=
  findIdx fun i => (k.table i).state != .empty && (k.table i).pid == k.currentPid

/-- The search of `proc_spawn`, `proc_fork` and `proc_clone_thread` for a slot. -/
def findEmpty (k : Kernel) : Option ℕ := findIdx fun i => (k.table i).state == .empty

/-! ### Creation -/

/-- The words `ws` from the address `a` on. -/
def storeWords (a : ℕ) : List ℕ → Kernel → Kernel
  | [], k => k
  | v :: ws, k => storeWords (a + 8) ws { k with toCpu := k.poke a v }

/-- The frame of a process that has not run: 15 registers with 0 and the words for `iretq`. -/
def firstFrame (entry userRsp : ℕ) : List ℕ :=
  List.replicate 15 0 ++ [entry, 0x1B, 0x202, userRsp, 0x23]

/-- `process_create_user`.  The slot is `pcb_count`, whatever is in it, and is used up even when
no stack is found. -/
def processCreateUser (k : Kernel) (entry userTop : ℕ) (kstack : Option ℕ) : ℤ × Kernel :=
  if maxProc ≤ k.pcbCount then (-1, k)
  else
    let slot := k.pcbCount
    let k := { k with pcbCount := k.pcbCount + 1 }
    match kstack with
    | none => (-1, k)
    | some kstack =>
      let sp := kstack + stackSize - 160
      let k := storeWords sp (firstFrame entry userTop) k
      (k.nextPid, { k.modify slot fun p => { p with
        pid := k.nextPid
        state := .ready
        isUser := true
        kernelRsp := sp
        rsp0 := kstack + stackSize
        pml4 := k.cr3
        parentPid := k.currentPid
        exitCode := 0
        fsBase := 0
        thParentPid := -1
        clearTid := 0 } with nextPid := k.nextPid + 1 })

/-- `if (slot >= pcb_count) pcb_count = slot + 1` and `next_pid++`. -/
def countSlot (k : Kernel) (slot : ℕ) : Kernel :=
  { k with pcbCount := max k.pcbCount (slot + 1), nextPid := k.nextPid + 1 }

@[simp] theorem countSlot_mem (k : Kernel) (i : ℕ) : (countSlot k i).mem = k.mem := rfl

@[simp] theorem countSlot_table (k : Kernel) (i : ℕ) : (countSlot k i).table = k.table := rfl

def procSpawn (k : Kernel) (entry userTop : ℕ) (kstack pml4 : Option ℕ) : ℤ × Kernel :=
  match findEmpty k, kstack, pml4 with
  | some slot, some kstack, some pml4 =>
    let sp := kstack + stackSize - 160
    let k := storeWords sp (firstFrame entry userTop) k
    (k.nextPid, countSlot (k.modify slot fun p => { p with
      pid := k.nextPid
      state := .ready
      isUser := true
      kernelRsp := sp
      rsp0 := kstack + stackSize
      pml4 := pml4
      sRbx := 0
      sRbp := 0
      sR12 := 0
      sR13 := 0
      sR14 := 0
      sR15 := 0
      parentPid := k.currentPid
      exitCode := 0
      fsBase := 0
      thParentPid := -1
      clearTid := 0 }) slot)
  | _, _, _ => (-1, k)

/-- The frame of a child: the 15 words of the parent's frame with 0 in place 14, and the words
for `iretq`.  `userRsp` may look at the memory. -/
def childFrame (mem : ℕ → ℕ) (kframe sp : ℕ) (userRsp : (ℕ → ℕ) → ℕ) : ℕ → ℕ :=
  let mem := forLoop (fun q m => update m (sp + 8 * q) (m (kframe + 8 * q))) 15 mem
  let mem := update mem (sp + 8 * 14) 0
  let mem := update mem (sp + 8 * 15) (mem (kframe + 8 * 15))
  let mem := update mem (sp + 8 * 16) 0x1B
  let mem := update mem (sp + 8 * 17) (mem (kframe + 8 * 16))
  let mem := update mem (sp + 8 * 18) (userRsp mem)
  update mem (sp + 8 * 19) 0x23

/-- `proc_fork`, `kframe` being `parent_kframe`.  `in_kern`, `th_parent_pid` and `clear_tid` of
the slot stay as its last process left them. -/
def procFork (k : Kernel) (kframe : ℕ) (kstack pml4 : Option ℕ) : ℤ × Kernel :=
  match processCurrent k, findEmpty k, kstack, pml4 with
  | some par, some slot, some kstack, some pml4 =>
    let sp := kstack + stackSize - 160
    let k := { k with mem := childFrame k.mem kframe sp fun _ => k.currentRsp0 }
    (k.nextPid, countSlot (k.modify slot fun p => { p with
      pid := k.nextPid
      state := .ready
      isUser := true
      kernelRsp := sp
      rsp0 := kstack + stackSize
      pml4 := pml4
      parentPid := (k.table par).pid
      exitCode := 0
      fsBase := if k.fsBase = 0 then (k.table par).fsBase else k.fsBase }) slot)
  | _, _, _, _ => (-1, k)

def cloneVm : ℕ := 0x100
def cloneThread : ℕ := 0x10000
def cloneSettls : ℕ := 0x80000
def cloneChildCleartid : ℕ := 0x200000

/-- A flag of `clone` is set. -/
def hasFlag (flags f : ℕ) : Bool := flags / f % 2 == 1

/-- `proc_clone_thread`; the PCB is cleared first. -/
def procCloneThread (k : Kernel) (flags newsp ctid tls kframe : ℕ) (kstack : Option ℕ) :
    ℤ × Kernel :=
  match processCurrent k with
  | none => (-1, k)
  | some par =>
    if !hasFlag flags cloneThread || !hasFlag flags cloneVm then (-22, k)
    else
      match findEmpty k, kstack with
      | some slot, some kstack =>
        let sp := kstack + stackSize - 160
        let userRsp := fun mem => if newsp = 0 then mem (kframe + 8 * 18) else newsp
        let k := { k with mem := childFrame k.mem kframe sp userRsp }
        (k.nextPid, countSlot (k.modify slot fun _ =>
          { pid := k.nextPid
            state := .ready
            isUser := true
            kernelRsp := sp
            rsp0 := kstack + stackSize
            pml4 := (k.table par).pml4
            sRbx := 0
            sRbp := 0
            sR12 := 0
            sR13 := 0
            sR14 := 0
            sR15 := 0
            parentPid := (k.table par).pid
            exitCode := 0
            fsBase := if hasFlag flags cloneSettls then tls else (k.table par).fsBase
            inKern := false
            thParentPid := (k.table par).pid
            clearTid := if hasFlag flags cloneChildCleartid then ctid else 0 }) slot)
      | _, _ => (-1, k)

/-! ### Scheduling -/

/-- `find_next_ready`, from the entry after `current_pid` on, and that entry last. -/
def findNextReady (k : Kernel) : Option ℕ :=
  ((List.range maxProc).map fun i => (k.currentPid + (i + 1)) % maxProc).find? fun i =>
    (k.table i).state == .ready

/-- The slot `schedule` switches to, if it does. -/
def scheduleTarget (k : Kernel) : Option ℕ :=
  (findNextReady k).filter fun i => i != k.currentPid

/-- What `schedule` writes before the switch. -/
def schedulePrepare (k : Kernel) (next : ℕ) : Kernel :=
  let k := k.modify k.currentPid fun p => { p with
    inKern := false
    state := if p.state = .running then .ready else p.state }
  let k := k.modify next fun p => { p with state := .running }
  { k with currentPid := next, tssRsp0 := (k.table next).rsp0 }

/-- `schedule`: the switch that keeps the C code is taken inside a system call of a user process. -/
def schedule (k : Kernel) : Kernel :=
  match scheduleTarget k with
  | none => k
  | some next =>
    let prev := k.currentPid
    let k := schedulePrepare k next
    if k.gInSyscall && (k.table prev).isUser then contextSwitchKern k prev next
    else contextSwitch k prev next

/-- `process_switch_to`. -/
def processSwitchTo (k : Kernel) (pid : ℕ) : Kernel :=
  match processCurrent k,
      findIdx fun i => (k.table i).state != .empty && (k.table i).pid == pid with
  | some current, some next =>
    let k := k.modify k.currentPid fun p => { p with state := .blocked }
    let k := { k with currentPid := pid }
    let k := k.modify next fun p => { p with state := .running }
    contextSwitch { k with tssRsp0 := (k.table next).rsp0 } current next
  | _, _ => k

/-! ### Exit and waiting -/

/-- `proc_wake_parent`: the first blocked process that is the parent of a PCB with this pid. -/
def procWakeParent (k : Kernel) (childPid : ℤ) : Kernel :=
  match findIdx fun i => (k.table i).state == .blocked &&
      (findIdx fun j => (k.table j).pid == childPid &&
        (k.table j).parentPid == (k.table i).pid).isSome with
  | none => k
  | some i => k.modify i fun p => { p with state := .ready }

/-- The index `process_exit_current` makes of a parent's pid. -/
def parentIdx (parent : ℤ) : ℕ := if parent < 0 ∨ (maxProc : ℤ) ≤ parent then 0 else parent.toNat

/-- `process_exit_current`. -/
def processExitCurrent (k : Kernel) (code : ℤ) : Kernel :=
  match processCurrent k with
  | none => k
  | some me =>
    let k := k.modify me fun p => { p with exitCode := code, state := .zombie }
    let k := procWakeParent k (k.table me).pid
    let parent := parentIdx (k.table me).parentPid
    let k := k.modify parent fun p => { p with
      state := if p.state = .blocked then .ready else p.state }
    contextSwitch { k with currentPid := parent, tssRsp0 := (k.table parent).rsp0 } me parent

/-- The loop of `exit_group` over the other processes with the page tables of `me`. -/
def killSiblings (k : Kernel) (me : ℕ) : Kernel :=
  { k with table := fun i =>
      if i < maxProc ∧ (k.table i).pid ≠ (k.table me).pid ∧ (k.table i).pml4 = (k.table me).pml4
      then { k.table i with state := .empty } else k.table i }

/-- `exit_group` of a process that is not a thread. -/
def sysExitGroup (k : Kernel) (code : ℤ) : Kernel :=
  match processCurrent k with
  | none => processExitCurrent k code
  | some me => processExitCurrent (killSiblings k me) code

/-- `proc_thread_exit`; the result is `false` when the processor halts for good. -/
def procThreadExit (k : Kernel) (code : ℤ) : Bool × Kernel :=
  match processCurrent k with
  | none => (true, k)
  | some me =>
    let k := k.modify me fun p => { p with exitCode := code, state := .empty }
    ((scheduleTarget k).isSome, schedule k)

/-- The PCB that `proc_waitpid` looks at. -/
def findPid (k : Kernel) (pid : ℤ) : Option ℕ := findIdx fun i => (k.table i).pid == pid

/-- One round of the loop of `proc_waitpid`: the result, unless the loop goes on. -/
def procWaitpid (k : Kernel) (pid : ℤ) : Option ℤ × Kernel :=
  match findPid k pid with
  | none => (some (-1), k)
  | some i =>
    if (k.table i).state = .zombie then (some pid, k.modify i fun p => { p with state := .empty })
    else (none, schedule k)

/-! ### The state after `process_init` -/

/-- An entry of the table before any use. -/
def emptyPcb : Pcb where
  pid := -1
  state := .empty
  isUser := false
  kernelRsp := 0
  rsp0 := 0
  pml4 := 0
  sRbx := 0
  sRbp := 0
  sR12 := 0
  sR13 := 0
  sR14 := 0
  sR15 := 0
  parentPid := 0
  exitCode := 0
  fsBase := 0
  inKern := false
  thParentPid := -1
  clearTid := 0

/-- The idle process, on a stack with the address of `idle_entry` on its top. -/
def idlePcb (kstack pml4 : ℕ) : Pcb :=
  { emptyPcb with
    pid := 0
    state := .ready
    kernelRsp := kstack + stackSize - 8
    rsp0 := kstack + stackSize - 8
    pml4 := pml4 }

/-- `process_init` in a machine `k`; the code that runs on is that of slot 0. -/
def processInit (k : Kernel) (kstack idleEntry : ℕ) : Kernel :=
  { k with
    mem := update k.mem (kstack + stackSize - 8) idleEntry
    ring3 := false
    table := update (fun _ => emptyPcb) 0 (idlePcb kstack k.cr3)
    currentPid := 0
    nextPid := 1
    pcbCount := 1
    running := 0 }

end TipOS.Process
