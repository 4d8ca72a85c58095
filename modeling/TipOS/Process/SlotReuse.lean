import Mathlib.Data.Fintype.Basic
import Mathlib.Data.List.Find
import TipOS.Process.Exit

/-!
# What a slot leaves to its next process

The file descriptors of `syscall.c` beside the table of processes, and what `proc_spawn` and
`proc_fork` take over from the process that had the slot before.  Every PCB has a pointer
`fds_tab` to one of the tables of a pool; a process without one gets its table at its first
system call.

Neither function clears the PCB.  `proc_spawn` leaves `fds_tab` and `in_kern`, `proc_fork` leaves
`in_kern`, `th_parent_pid` and `clear_tid`.  `slot_reuse_iff` compares two histories that differ in
empty slots only: the new process behaves the same exactly when these, and the records of the
table that it gets, are alike.
-/

namespace TipOS.Process

open Function Lib List

variable {entry userTop kframe : ℕ} {kstack pml4 : Option ℕ}

/-! ### Descriptors -/

def maxFds : ℕ := 16

instance : NeZero maxFds := ⟨by decide⟩

/-- The fields of `fdent_t` besides `used` and `type`. -/
structure FdRest where
  flags : ℤ
  pipeIdx : ℤ
  sockIdx : ℤ
  name : List UInt8
  pos : ℕ
  wend : ℤ
  counter : ℕ
  deriving DecidableEq

structure FdEnt where
  used : Bool
  type : ℕ
  rest : FdRest
  deriving DecidableEq

/-- `fdtable_t`. -/
abbrev FdTable := Fin maxFds → FdEnt

/-- `fds_tab` of each PCB, `fd_tables`, `boot_fds` and `fdtab`; a table of the pool is named by its
index. -/
structure FdState where
  fdsTab : ℕ → Option ℕ
  fdTables : ℕ → FdTable
  bootFds : FdTable
  fdtab : Option ℕ

namespace FdState

/-- The table that `fdtab` points to. -/
def current (f : FdState) : FdTable := f.fdtab.elim f.bootFds f.fdTables

/-- The console in 0, 1 and 2, and nothing else; the rest of the entries stays. -/
def console (t : FdTable) : FdTable := fun i =>
  { t i with used := decide (i.val < 3), type := if i.val < 3 then 6 else 0 }

/-- `fds_bind_current` of the process in slot `me`. -/
def bindCurrent (f : FdState) (me : ℕ) : FdState :=
  match f.fdsTab me with
  | none =>
    { f with
      fdsTab := update f.fdsTab me (some me)
      fdTables := update f.fdTables me (console (f.fdTables me))
      fdtab := some me }
  | some t => { f with fdtab := some t }

/-- `fds_dup_into_slot` and the pointer that `proc_fork` sets. -/
def dupIntoSlot (f : FdState) (slot : ℕ) : FdState :=
  { f with
    fdTables := update f.fdTables slot f.current
    fdsTab := update f.fdsTab slot (some slot) }

/-- A system call changes table `j`. -/
def setTable (f : FdState) (j : ℕ) (t : FdTable) : FdState :=
  { f with fdTables := update f.fdTables j t }

/-- `p->fds_tab = par->fds_tab` of `proc_clone_thread`. -/
def shareTab (f : FdState) (par slot : ℕ) : FdState :=
  { f with fdsTab := update f.fdsTab slot (f.fdsTab par) }

/-- `fds_close_exec` of the table of slot `me`. -/
def closeExec (f : FdState) (me : ℕ) : FdState :=
  match f.fdsTab me with
  | none => f
  | some t => { f with fdTables := update f.fdTables t fun i =>
      if 3 ≤ i.val then { f.fdTables t i with used := false } else f.fdTables t i }

/-- The table that is left for the process in slot `me`: that of `fds_tab`, and without one that of
the pool, in which `fds_bind_current` sets `used` and `type` only. -/
def left (f : FdState) (me : ℕ) : FdTable :=
  (f.fdsTab me).elim (console (f.fdTables me)) f.fdTables

theorem current_bindCurrent (f : FdState) (me : ℕ) : (f.bindCurrent me).current = f.left me := by
  unfold left bindCurrent current
  cases h : f.fdsTab me with
  | none => simp
  | some t => simp

theorem left_dupIntoSlot (f : FdState) (slot : ℕ) : (f.dupIntoSlot slot).left slot = f.current := by
  simp [left, dupIntoSlot]

end FdState

/-! ### Creation -/

/-- The processes and their descriptors. -/
structure Procs where
  k : Kernel
  f : FdState

/-- A call of `proc_spawn` or `proc_fork`. -/
inductive Creation
  | spawn (entry userTop : ℕ) (kstack pml4 : Option ℕ)
  | fork (kframe : ℕ) (kstack pml4 : Option ℕ)

namespace Creation

def call (c : Creation) (k : Kernel) : ℤ × Kernel :=
  match c with
  | .spawn entry userTop kstack pml4 => procSpawn k entry userTop kstack pml4
  | .fork kframe kstack pml4 => procFork k kframe kstack pml4

/-- The state after a call that succeeds. -/
def run (c : Creation) (x : Procs) : Procs :=
  match c with
  | .spawn _ _ _ _ => ⟨(c.call x.k).2, x.f⟩
  | .fork _ _ _ => ⟨(c.call x.k).2, x.f.dupIntoSlot (newSlot x.k)⟩

end Creation

/-! ### What a process shows -/

/-- A thread with a word to clear, when it exits. -/
def clearsTid (p : Pcb) : Option ℕ :=
  if 0 ≤ p.thParentPid ∧ p.clearTid ≠ 0 then some p.clearTid else none

/-- The descriptors at the first system call, whether the process is resumed inside the kernel,
whether its exit is that of a thread, and the word that this clears.  Records that are not open
count too: `SYS_open` keeps their `type`, `flags` and `pipe_idx`. -/
structure Behaviour where
  fds : FdTable
  inKern : Bool
  thread : Bool
  clears : Option ℕ

def behaviour (x : Procs) (i : ℕ) : Behaviour where
  fds := (x.f.bindCurrent i).current
  inKern := (x.k.table i).inKern
  thread := decide (0 ≤ (x.k.table i).thParentPid)
  clears := clearsTid (x.k.table i)

/-- **Two histories that differ in the contents of empty slots and their tables only.** -/
structure SameButEmpty (x y : Procs) : Prop where
  state : ∀ i < maxProc, (x.k.table i).state = (y.k.table i).state
  pcb : ∀ i < maxProc, (x.k.table i).state ≠ .empty → x.k.table i = y.k.table i
  fdsTab : ∀ i < maxProc, (x.k.table i).state ≠ .empty → x.f.fdsTab i = y.f.fdsTab i
  fdTables : ∀ i < maxProc, (x.k.table i).state ≠ .empty → x.f.fdTables i = y.f.fdTables i
  bootFds : x.f.bootFds = y.f.bootFds
  fdtab : x.f.fdtab = y.f.fdtab
  currentPid : x.k.currentPid = y.k.currentPid
  nextPid : x.k.nextPid = y.k.nextPid
  pcbCount : x.k.pcbCount = y.k.pcbCount

/-- **What the call leaves in the slot is alike in both**, and for `fork` the table that it copies,
which can be that of an empty slot too. -/
def LeftAlike (c : Creation) (x y : Procs) (slot : ℕ) : Prop :=
  (x.k.table slot).inKern = (y.k.table slot).inKern ∧
  match c with
  | .spawn _ _ _ _ => x.f.left slot = y.f.left slot
  | .fork _ _ _ =>
    x.f.current = y.f.current ∧
    (0 ≤ (x.k.table slot).thParentPid ↔ 0 ≤ (y.k.table slot).thParentPid) ∧
    clearsTid (x.k.table slot) = clearsTid (y.k.table slot)

section Reuse

variable {k : Kernel} {slot : ℕ}

theorem procSpawn_fields (h : 0 ≤ (procSpawn k entry userTop kstack pml4).1) :
    ∃ slot, findEmpty k = some slot ∧
      ((procSpawn k entry userTop kstack pml4).2.table slot).inKern = (k.table slot).inKern ∧
      ((procSpawn k entry userTop kstack pml4).2.table slot).thParentPid = -1 := by
  unfold procSpawn at h ⊢
  split at h
  · next slot ks p4 hs =>
    obtain ⟨m, hm⟩ := storeWords_eq (firstFrame entry userTop) (ks + stackSize - 160) k
    refine ⟨slot, hs, ?_⟩
    simp only [hm, countSlot_table, Kernel.modify_table_self, and_self]
  · exact absurd (show (0 : ℤ) ≤ -1 from h) (by decide)

theorem procFork_fields (h : 0 ≤ (procFork k kframe kstack pml4).1) :
    ∃ slot, findEmpty k = some slot ∧
      ((procFork k kframe kstack pml4).2.table slot).inKern = (k.table slot).inKern ∧
      ((procFork k kframe kstack pml4).2.table slot).thParentPid = (k.table slot).thParentPid ∧
      ((procFork k kframe kstack pml4).2.table slot).clearTid = (k.table slot).clearTid := by
  unfold procFork at h ⊢
  split at h
  · next par slot ks p4 hp hs =>
    refine ⟨slot, hs, ?_⟩
    simp only [countSlot_table, Kernel.modify_table_self, and_self]
  · exact absurd (show (0 : ℤ) ≤ -1 from h) (by decide)

variable {x y : Procs}

theorem SameButEmpty.findEmpty_eq (h : SameButEmpty x y) : findEmpty x.k = findEmpty y.k := by
  unfold findEmpty findIdx
  refine find?_congr fun i hi => ?_
  rw [h.state i (mem_range.mp hi)]

theorem SameButEmpty.processCurrent_eq (h : SameButEmpty x y) :
    processCurrent x.k = processCurrent y.k := by
  unfold processCurrent findIdx
  refine find?_congr fun i hi => ?_
  have hlt := mem_range.mp hi
  by_cases hs : (x.k.table i).state = .empty
  · rw [← h.state i hlt, hs]
    rfl
  · rw [h.pcb i hlt hs, h.currentPid]

theorem SameButEmpty.call_fst (h : SameButEmpty x y) (c : Creation) :
    (c.call x.k).1 = (c.call y.k).1 := by
  cases c with
  | spawn entry userTop kstack pml4 =>
    simp only [Creation.call, procSpawn]
    rw [h.findEmpty_eq]
    split
    · next slot ks p4 _ =>
      obtain ⟨m, hm⟩ := storeWords_eq (firstFrame entry userTop) (ks + stackSize - 160) x.k
      obtain ⟨m', hm'⟩ := storeWords_eq (firstFrame entry userTop) (ks + stackSize - 160) y.k
      rw [hm, hm']
      exact congrArg Nat.cast h.nextPid
    · rfl
  | fork kframe kstack pml4 =>
    simp only [Creation.call, procFork]
    rw [h.findEmpty_eq, h.processCurrent_eq]
    split
    · exact congrArg Nat.cast h.nextPid
    · rfl

end Reuse

section Behaviour

variable {x : Procs} {slot : ℕ}

theorem behaviour_spawn (h : 0 ≤ ((Creation.spawn entry userTop kstack pml4).call x.k).1) :
    behaviour ((Creation.spawn entry userTop kstack pml4).run x) (newSlot x.k) =
      ⟨x.f.left (newSlot x.k), (x.k.table (newSlot x.k)).inKern, false, none⟩ := by
  obtain ⟨slot, hs, hk, ht⟩ := procSpawn_fields h
  have hslot : newSlot x.k = slot := by rw [newSlot, hs, Option.getD_some]
  rw [hslot]
  simp only [behaviour, Creation.run, Creation.call, clearsTid, hk, ht,
    FdState.current_bindCurrent]
  rfl

theorem behaviour_fork (h : 0 ≤ ((Creation.fork kframe kstack pml4).call x.k).1) :
    behaviour ((Creation.fork kframe kstack pml4).run x) (newSlot x.k) =
      ⟨x.f.current, (x.k.table (newSlot x.k)).inKern,
        decide (0 ≤ (x.k.table (newSlot x.k)).thParentPid),
        clearsTid (x.k.table (newSlot x.k))⟩ := by
  obtain ⟨slot, hs, hk, ht, hc⟩ := procFork_fields h
  have hslot : newSlot x.k = slot := by rw [newSlot, hs, Option.getD_some]
  rw [hslot]
  simp only [behaviour, Creation.run, Creation.call, clearsTid, hk, ht, hc, hslot,
    FdState.current_bindCurrent, FdState.left_dupIntoSlot]

end Behaviour

/-- **The new process behaves the same in both histories exactly when what the call leaves in the
slot is alike.** -/
theorem slot_reuse_iff (x y : Procs) (h : SameButEmpty x y) (c : Creation)
    (hok : 0 ≤ (c.call x.k).1) :
    behaviour (c.run x) (newSlot x.k) = behaviour (c.run y) (newSlot y.k) ↔
      LeftAlike c x y (newSlot x.k) := by
  have hslot : newSlot y.k = newSlot x.k := by rw [newSlot, newSlot, h.findEmpty_eq]
  have hok' : 0 ≤ (c.call y.k).1 := by rwa [← h.call_fst c]
  cases c with
  | spawn entry userTop kstack pml4 =>
    rw [behaviour_spawn hok, behaviour_spawn hok', hslot, LeftAlike, Behaviour.mk.injEq]
    exact ⟨fun hb => ⟨hb.2.1, hb.1⟩, fun hl => ⟨hl.2, hl.1, rfl, rfl⟩⟩
  | fork kframe kstack pml4 =>
    rw [behaviour_fork hok, behaviour_fork hok', hslot, LeftAlike, Behaviour.mk.injEq,
      decide_eq_decide]
    exact ⟨fun hb => ⟨hb.2.1, hb.1, hb.2.2.1, hb.2.2.2⟩,
      fun hl => ⟨hl.2.1, hl.1, hl.2.2.1, hl.2.2.2⟩⟩

/-! ### Two histories -/

/-- What a call does to the descriptors. -/
def fdsAfter (x : Procs) : Call → FdState
  | .fork kframe kstack pml4 =>
    if 0 ≤ (procFork x.k kframe kstack pml4).1 then x.f.dupIntoSlot (newSlot x.k) else x.f
  | .clone flags newsp ctid tls kframe kstack =>
    if 0 ≤ (procCloneThread x.k flags newsp ctid tls kframe kstack).1
    then x.f.shareTab ((processCurrent x.k).getD 0) (newSlot x.k) else x.f
  | .exit _ | .exitGroup _ => (processCurrent x.k).elim x.f x.f.closeExec
  | _ => x.f

def Procs.run (x : Procs) (c : Call) : Procs := ⟨(c.run x.k).2, fdsAfter x c⟩

/-- The states reached from `process_init`; a system call begins with `fds_bind_current`, and may
then change the table. -/
inductive Procs.Reached (f : FdState) : Bool → Procs → Prop
  | init (k : Kernel) (kstack idleEntry : ℕ) :
      Procs.Reached f true ⟨processInit k kstack idleEntry, f⟩
  | other {x : Procs} {k' : Kernel} : x.Reached f true → Other x.k k' →
      Procs.Reached f true ⟨k', x.f⟩
  | bind {x : Procs} {me : ℕ} : x.Reached f true → processCurrent x.k = some me →
      Procs.Reached f true ⟨x.k, x.f.bindCurrent me⟩
  | edit {x : Procs} {j : ℕ} (t : FdTable) : x.Reached f true → x.f.fdtab = some j →
      Procs.Reached f true ⟨x.k, x.f.setTable j t⟩
  | call {x : Procs} (c : Call) : x.Reached f true → (x.run c).Reached f (c.run x.k).1

/-- Calls one after the other. -/
def Procs.runCalls (x : Procs) : List Call → Procs
  | [] => x
  | c :: cs => (x.run c).runCalls cs

theorem Procs.Reached.runCalls {f : FdState} {x : Procs} (cs : List Call) (h : x.Reached f true)
    (hr : Runs (fun _ _ => True) x.k cs) : (x.runCalls cs).Reached f true := by
  induction cs generalizing x with
  | nil => exact h
  | cons c cs ih =>
    obtain ⟨-, ht, hcs⟩ := hr
    exact ih (ht ▸ Procs.Reached.call c h) hcs

theorem Procs.runCalls_k (x : Procs) (cs : List Call) :
    (x.runCalls cs).k = Process.runCalls x.k cs := by
  induction cs generalizing x with
  | nil => rfl
  | cons c cs ih => exact ih (x.run c)

def noFd : FdEnt := ⟨false, 0, ⟨0, 0, 0, [], 0, 0, 0⟩⟩

/-- No process has a table yet. -/
def noFds : FdState := ⟨fun _ => none, fun _ _ => noFd, fun _ => noFd, none⟩

/-- The first program after the start of a system call. -/
def firstProcs : Procs :=
  ⟨runCalls (processInit blank 0x10000 0x100) spawnFirst, noFds.bindCurrent 1⟩

/-- The table of the first program has become `t`. -/
def withTable (t : FdTable) : Procs := ⟨firstProcs.k, firstProcs.f.setTable 1 t⟩

/-- It exits and is collected. -/
def afterExit (x : Procs) : Procs := x.runCalls [.exit 0, .waitpid 1]

/-- The next program. -/
def spawnNext : Creation := .spawn 0x400000 0x800000 (some 0x60000) (some 0x70000)

theorem firstProcs_reached : firstProcs.Reached noFds true :=
  .bind (x := (⟨processInit blank 0x10000 0x100, noFds⟩ : Procs).runCalls spawnFirst)
    (Procs.Reached.runCalls spawnFirst (.init _ _ _) (by decide +kernel)) (by decide +kernel)

section AfterExit

variable (t : FdTable)

theorem afterExit_reached : (afterExit (withTable t)).Reached noFds true :=
  Procs.Reached.runCalls _ (.edit t firstProcs_reached rfl)
    (show Runs _ firstProcs.k _ by decide +kernel)

theorem afterExit_k : (afterExit (withTable t)).k = runCalls firstProcs.k [.exit 0, .waitpid 1] :=
  (withTable t).runCalls_k _

/-- The table of the first program when it has exited. -/
def leftTable : FdTable := fun i => if 3 ≤ i.val then { t i with used := false } else t i

theorem afterExit_f : (afterExit (withTable t)).f = firstProcs.f.setTable 1 (leftTable t) := by
  have hcur : processCurrent firstProcs.k = some 1 := by decide +kernel
  show (processCurrent firstProcs.k).elim (withTable t).f (withTable t).f.closeExec = _
  rw [hcur, Option.elim_some]
  unfold leftTable
  simp [FdState.closeExec, withTable, FdState.setTable, firstProcs, FdState.bindCurrent, noFds]

theorem afterExit_empty : ((afterExit (withTable t)).k.table 1).state = .empty := by
  rw [afterExit_k]
  decide +kernel

theorem afterExit_newSlot : newSlot (afterExit (withTable t)).k = 1 := by
  rw [afterExit_k]
  decide +kernel

theorem afterExit_spawns : 0 ≤ (spawnNext.call (afterExit (withTable t)).k).1 := by
  rw [afterExit_k]
  decide +kernel

theorem afterExit_left : (afterExit (withTable t)).f.left 1 = leftTable t := by
  rw [FdState.left, afterExit_f]
  simp [FdState.setTable, firstProcs, FdState.bindCurrent, noFds]

end AfterExit

theorem afterExit_same (t u : FdTable) :
    SameButEmpty (afterExit (withTable t)) (afterExit (withTable u)) := by
  have hk : (afterExit (withTable t)).k = (afterExit (withTable u)).k :=
    (afterExit_k t).trans (afterExit_k u).symm
  refine ⟨fun i _ => by rw [hk], fun i _ _ => by rw [hk], fun i _ _ => ?_, fun i _ hs => ?_, ?_,
    ?_, by rw [hk], by rw [hk], by rw [hk]⟩
  · rw [afterExit_f, afterExit_f]
    rfl
  · have hi : i ≠ 1 := by
      rintro rfl
      exact hs (afterExit_empty t)
    rw [afterExit_f, afterExit_f]
    simp only [FdState.setTable, update_of_ne hi]
  · rw [afterExit_f, afterExit_f]
    rfl
  · rw [afterExit_f, afterExit_f]
    rfl

/-- An end of pipe 0. -/
def pipeFd (wend : ℤ) : FdEnt := ⟨true, 3, ⟨0, 0, 0, [], 0, wend, 0⟩⟩

/-- The console, and the ends of a pipe in 3 and 4. -/
def pipeTable : FdTable :=
  update (update (FdState.console fun _ => noFd) 3 (pipeFd 0)) 4 (pipeFd 1)

/-- The pipe may be open or closed when the program exits. -/
theorem slot_reuse_iff_closed :
    behaviour (spawnNext.run (afterExit (withTable pipeTable)))
        (newSlot (afterExit (withTable pipeTable)).k) =
      behaviour (spawnNext.run (afterExit (withTable (leftTable pipeTable))))
        (newSlot (afterExit (withTable (leftTable pipeTable))).k) := by
  refine (slot_reuse_iff _ _ (afterExit_same _ _) spawnNext (afterExit_spawns _)).mpr ⟨?_, ?_⟩
  · rw [afterExit_k, afterExit_k]
  · show (afterExit (withTable pipeTable)).f.left _ = (afterExit (withTable _)).f.left _
    rw [afterExit_newSlot, afterExit_left, afterExit_left]
    decide +kernel

/-- **An end of a pipe that `dup2` has put into 0 stays there for the next program in the slot**:
`fds_close_exec` begins at 3. -/
theorem dup2_onto_stdin_stays : ∃ x y : Procs, x.Reached noFds true ∧ y.Reached noFds true ∧
    SameButEmpty x y ∧ 0 ≤ (spawnNext.call x.k).1 ∧
    behaviour (spawnNext.run x) (newSlot x.k) ≠ behaviour (spawnNext.run y) (newSlot y.k) := by
  refine ⟨afterExit (withTable (update pipeTable 0 (pipeTable 3))), afterExit (withTable pipeTable),
    afterExit_reached _, afterExit_reached _, afterExit_same _ _, afterExit_spawns _, fun hb => ?_⟩
  unfold spawnNext at hb
  rw [behaviour_spawn (afterExit_spawns _), behaviour_spawn (afterExit_spawns _),
    Behaviour.mk.injEq] at hb
  have hfds := hb.1
  rw [afterExit_newSlot, afterExit_newSlot, afterExit_left, afterExit_left] at hfds
  exact absurd (congrFun hfds 0) (by decide +kernel)

end TipOS.Process
