import TipOS.Exec.Execve
import TipOS.Ipc.PipeSlots
import TipOS.Loader.Interp
import TipOS.Memory.Kmalloc
import TipOS.Process.LifeCycle
import TipOS.Vm.MapRuns

/-!
# What `execve` replaces

`SYS_execve` of `syscall.c` as a step of the whole machine: the file is read into a buffer, loaded
into new tables and given a stack; then the fields of the PCB are changed one by one and the old
root goes back to the allocator.

The map of the process is not among these fields.  It describes the old program until the process
ends, and it is that of every thread.  The old root is given back in any case, also when the PCB of
a thread still has it.  `execve_replaces_iff` says when neither matters.
-/

namespace TipOS.Exec

open Lib Paging Loader Process

/-! ### The machine -/

/-- The processes with their descriptors, memory and the allocator, and of each PCB `program_break`
and `vm_map`; a map is named by its address. -/
structure Machine where
  procs : Procs
  load : Load
  programBreak : ℕ → ℕ
  vmMap : ℕ → Option ℕ
  maps : ℕ → Vm.Map

namespace Machine

variable (x : Machine)

def setPhys (p : Phys) : Machine := { x with load := { x.load with phys := p } }

/-- `vm_map_covers` of the map of a PCB, which can be `NULL`. -/
def covers (i va : ℕ) : Bool := (x.vmMap i).any fun p => Vm.vmMapCovers (x.maps p) va

/-- `pml4` of a PCB. -/
def root (i : ℕ) : ℕ := (x.procs.k.table i).pml4

/-- A PCB in use has the root `r`. -/
def Uses (i r : ℕ) : Prop := (x.procs.k.table i).state ≠ .empty ∧ x.root i = r

end Machine

/-! ### Loading -/

/-- `pml4_add_user`. -/
def pml4AddUser (s : Phys) (pml4 va : ℕ) : ℤ × Phys :=
  let e4 := entry s.mem pml4 (pml4Idx va)
  if isPresent e4 = false then (-1, s)
  else
    let e3 := entry s.mem (tableOf e4) (pdptIdx va)
    if isPresent e3 = false then (-1, s)
    else
      let pd := tableOf e3
      let e2 := entry s.mem pd (pdIdx va)
      if isPresent e2 = false then (0, s.setEntry pd (pdIdx va) (hugeDown va ||| 0x87))
      else (0, s.setEntry pd (pdIdx va) (e2 ||| 0x04))

def addUserAll (pml4 : ℕ) (vas : List ℕ) (s : Phys) : Phys :=
  vas.foldl (fun s va => (pml4AddUser s pml4 va).2) s

/-- `elf_base`. -/
def elfBase (img : Image) : ℕ := if img.eType = etDyn then pieBase else 0

/-- The program header that `pp` points to, without a check. -/
def rawPhdr (img : Image) (k : ℕ) : ℕ := (img.ePhoff + k * img.ePhentsize) % 2 ^ 64

/-- The `PT_LOAD` headers in the loop of step 4. -/
def loadHeaders (img : Image) : List ℕ :=
  ((List.range img.ePhnum).map (rawPhdr img)).filter fun off => img.pType off = ptLoad

/-- The calls of `pml4_add_user` in that loop. -/
def addUserSegments (img : Image) (pml4 : ℕ) (s : Phys) : Phys :=
  (loadHeaders img).foldl (fun s off => addUserAll pml4 (img.segment (elfBase img) off).chunks s) s

/-- `elf_phdr`: from the first `PT_LOAD` header whose value is not 0. -/
def elfPhdr (img : Image) : ℕ :=
  (((loadHeaders img).map fun off =>
    (elfBase img + img.pVaddr off + (img.ePhoff + (2 ^ 64 - img.pOffset off))) % 2 ^ 64).find?
      (· ≠ 0)).getD 0

/-- `elf_bss_end`, rounded to a page. -/
def elfBssEnd (img : Image) : ℕ :=
  Vm.pageUp ((loadHeaders img).foldl (fun b off =>
    max b ((elfBase img + (img.pVaddr off + img.pMemsz off)) % 2 ^ 64)) 0)

/-- The pages of the buffer for the file; a small one comes from a slab. -/
def filePages (size : ℕ) : ℕ :=
  if size < 2048 then 0 else 2 ^ Memory.orderFor (Memory.pagesFor size)

/-- What step 8 needs to know of the program. -/
def programOf (img : Image) (entry pml4 : ℕ) : Program where
  entry := entry
  pml4 := pml4
  phdr := .ofNat (elfPhdr img)
  phent := .ofNat img.ePhentsize
  phnum := .ofNat img.ePhnum
  base := .ofNat (elfBase img)

/-! ### The call -/

/-- `fds[fd].used = 0` from 3 on. -/
def closeFds (f : FdState) : FdState :=
  Ipc.putCurrent f (Ipc.closeAll ⟨f.current, Ipc.noBufs⟩).table

/-- Steps 6 to 9: the new program is entered, and the old root given back. -/
def replaceImage (x : Machine) (regs : ℕ) (um : Mem) (img : Image) (p : Program) (ustack : ℕ)
    (s : Load) : Machine :=
  let k := x.procs.k
  let b := execStack um s.phys.mem (k.mem (regs + 8 * 3)) (k.mem (regs + 8 * 2)) ustack p
  let old := (processCurrent k).elim 0 fun me => (k.table me).pml4
  { x with
    procs := ⟨sysExecve k regs um s.phys.mem ustack p, closeFds x.procs.f⟩
    load := { s with phys := { s.phys with
      mem := b.mem
      pool := if old = 0 then s.phys.pool else old :: s.phys.pool } }
    programBreak := (processCurrent k).elim x.programBreak fun me =>
      if elfBssEnd img = 0 then x.programBreak
      else Function.update x.programBreak me (elfBssEnd img) }

/-- `SYS_execve` of a program whose path and vectors have been copied from the user memory `um`:
`file` is the file, if there is one, and whether it could be read. -/
def execveCall (x : Machine) (regs : ℕ) (um : Mem) (file : Option (Image × Bool)) : ℤ × Machine :=
  match file with
  | none => (-1, x)
  | some (img, readable) =>
    if img.len < 64 then (-1, x)
    else
      match Life.takeFrames (filePages (img.len + 1)) x.load.phys with
      | (none, p) => (-1, x.setPhys p)
      | (some buf, p) =>
        if readable = false ∨ img.isElf64 = false then (-1, x.setPhys (Life.giveFrames buf p))
        else
          match cloneIdentityTables p x.procs.k.cr3 with
          | (none, p) => (-1, x.setPhys (Life.giveFrames buf p))
          | (some child, p) =>
            let l := elf64LoadIntoPml4 img
              { x.load with phys := addUserSegments img child p } child
            let i := elf64FindInterp img 256 l.2
            let s := { i.2 with phys := Life.giveFrames buf i.2.phys }
            if l.1 = 0 ∨ i.1.any (fun path => decide (0 < path.length)) = true then
              (-1, { x with load := { s with phys := Life.giveFrames [child] s.phys } })
            else
              match Life.takeFrames Life.userStackPages s.phys with
              | (none, p) => (-1, { x with load := { s with phys := Life.giveFrames [child] p } })
              | (some stack, p) =>
                let ustack := stack.headD 0
                let p := addUserAll child (chunks ustack execveStackSize) p
                (0, replaceImage x regs um img (programOf img l.1 child) ustack
                  { s with phys := p })

/-! ### What it should leave behind -/

/-- **After a successful `execve`** of the process in slot `me`: its map covers no address that it
covered before, and the old root is free only if no other PCB has it. -/
structure Replaced (x y : Machine) (me : ℕ) : Prop where
  map : ∀ va, x.covers me va = true → y.covers me va = false
  root : x.root me ≠ 0 → x.root me ∈ y.load.phys.pool →
    ∀ i < maxProc, i ≠ me → ¬ y.Uses i (x.root me)

/-- **The condition**: the map was empty, and no other PCB had the root. -/
def SoleOwner (x : Machine) (me : ℕ) : Prop :=
  (∀ va, x.covers me va = false) ∧
    (x.root me = 0 ∨ ∀ i < maxProc, i ≠ me → ¬ x.Uses i (x.root me))

section Proof

variable {x y : Machine} {regs me : ℕ} {um : Mem} {file : Option (Image × Bool)}

theorem patchFrame_table (k : Kernel) (regs entry newrsp : ℕ) :
    (patchFrame k regs entry newrsp).table = k.table := by
  unfold patchFrame
  dsimp only
  obtain ⟨m, hm⟩ := storeWords_eq [0, entry, 0x1B, 0x202, newrsp, 0x23] (regs + 8 * 14)
    { k with mem := forLoop (fun i m => Function.update m (regs + 8 * (i + 1)) 0) 14 k.mem }
  rw [hm]

theorem sysExecve_table_of_ne (k : Kernel) (regs : ℕ) (um m : Mem) (ustack : ℕ) (p : Program)
    {me i : ℕ} (hme : processCurrent k = some me) (hne : i ≠ me) :
    (sysExecve k regs um m ustack p).table i = k.table i := by
  unfold sysExecve
  rw [hme]
  rw [patchFrame_table]
  exact Function.update_of_ne hne _ _

/-- **A call that succeeds ends with the replacement.** -/
theorem execveCall_success (h : execveCall x regs um file = (0, y)) :
    ∃ img p ustack s, y = replaceImage x regs um img p ustack s := by
  have hno : ∀ {z : Machine} {P : Prop}, ((-1, z) : ℤ × Machine) = (0, y) → P := fun he =>
    absurd (show (-1 : ℤ) = 0 from congrArg Prod.fst he) (by decide)
  unfold execveCall at h
  split at h
  · exact hno h
  split at h
  · exact hno h
  split at h
  · exact hno h
  split at h
  · exact hno h
  split at h
  · exact hno h
  dsimp only at h
  split at h
  · exact hno h
  · split at h
    · exact hno h
    · exact ⟨_, _, _, _, (congrArg Prod.snd h).symm⟩

/-- **A successful `execve` replaces the old image exactly when the map was empty and no other PCB
had the root.** -/
theorem execve_replaces_iff (x y : Machine) (regs me : ℕ) (um : Mem)
    (file : Option (Image × Bool)) (hme : processCurrent x.procs.k = some me)
    (h : execveCall x regs um file = (0, y)) : Replaced x y me ↔ SoleOwner x me := by
  obtain ⟨img, p, ustack, s, rfl⟩ := execveCall_success h
  set z := replaceImage x regs um img p ustack s
  have hcovers : ∀ va, z.covers me va = x.covers me va := fun va => rfl
  have huses : ∀ i, i ≠ me → (z.Uses i (x.root me) ↔ x.Uses i (x.root me)) := by
    intro i hi
    have htab : z.procs.k.table i = x.procs.k.table i :=
      sysExecve_table_of_ne x.procs.k regs um s.phys.mem ustack p hme hi
    rw [Machine.Uses, Machine.Uses, Machine.root, htab]
    rfl
  have hpool : x.root me ≠ 0 → x.root me ∈ z.load.phys.pool := by
    intro h0
    change x.root me ∈ if (processCurrent x.procs.k).elim 0 x.root = 0 then s.phys.pool
      else (processCurrent x.procs.k).elim 0 x.root :: s.phys.pool
    rw [hme, Option.elim_some, if_neg h0]
    exact .head _
  constructor
  · intro hr
    refine ⟨fun va => ?_, ?_⟩
    · cases hc : x.covers me va with
      | false => rfl
      | true => exact (hcovers va).symm.trans (hr.map va hc) ▸ hc.symm
    · by_cases h0 : x.root me = 0
      · exact .inl h0
      · exact .inr fun i hi hne hu => hr.root h0 (hpool h0) i hi hne ((huses i hne).mpr hu)
  · rintro ⟨hempty, hown⟩
    refine ⟨fun va _ => (hcovers va).trans (hempty va), fun h0 _ i hi hne hu => ?_⟩
    exact hown.resolve_left h0 i hi hne ((huses i hne).mp hu)

end Proof

/-! ### Two programs -/

/-- An ELF image with one program header of type `PT_NULL`. -/
def noSegments : Image where
  bytes i := if i = 0 then 0x7F else if i = 1 then 0x45 else if i = 2 then 0x4C else
    if i = 3 then 0x46 else if i = 16 then 2 else if i = 18 then 62 else if i = 25 then 0x10 else
    if i = 26 then 0x40 else if i = 32 then 64 else if i = 54 then 56 else if i = 56 then 1 else 0
  len := 120

/-- A kernel after a run, with 20 free frames and one map. -/
def machineOf (es : List Ipc.Event) (v : Vm.Map) : Machine where
  procs := (Ipc.firstSys.run es).procs
  load := ⟨⟨fun _ => 0, (List.range 20).map fun i => 0x100000 + 0x1000 * i, false⟩, [], [], []⟩
  programBreak _ := 0
  vmMap _ := some 0
  maps _ := v

theorem execve_replaces_iff_single :
    ∃ y, execveCall (machineOf [] (Vm.vmMapInit Vm.blankMap 0x10000 0x7FFFF000)) 0x21f60
        (fun _ => 0) (some (noSegments, true)) = (0, y) ∧
      Replaced (machineOf [] (Vm.vmMapInit Vm.blankMap 0x10000 0x7FFFF000)) y 1 := by
  have hok : (execveCall (machineOf [] (Vm.vmMapInit Vm.blankMap 0x10000 0x7FFFF000)) 0x21f60
      (fun _ => 0) (some (noSegments, true))).1 = 0 := by decide +kernel
  refine ⟨_, Prod.ext hok rfl, ?_⟩
  refine (execve_replaces_iff _ _ 0x21f60 1 (fun _ => 0) (some (noSegments, true))
    (by decide +kernel) (Prod.ext hok rfl)).mpr ⟨fun _ => rfl, .inr ?_⟩
  unfold Machine.Uses
  decide +kernel

/-- A process with a thread and one mapped page. -/
def withThread : Machine :=
  machineOf [.call (.clone 0x10100 0x700000 0 0 0x21f60 (some 0x40000))]
    ((Vm.fixedPage 0x20000).run (Vm.vmMapInit Vm.blankMap 0x10000 0x7FFFF000))

/-- **The thread goes on with tables that are free, and the page of the old program stays covered.** -/
theorem execve_frees_shared_root : ∃ y,
    execveCall withThread 0x21f60 (fun _ => 0) (some (noSegments, true)) = (0, y) ∧
    processCurrent withThread.procs.k = some 1 ∧
    withThread.covers 1 0x20000 = true ∧ y.covers 1 0x20000 = true ∧
    (y.procs.k.table 2).state = .ready ∧ y.root 2 = withThread.root 1 ∧
    withThread.root 1 ∈ y.load.phys.pool ∧ ¬ Replaced withThread y 1 := by
  have hok : (execveCall withThread 0x21f60 (fun _ => 0) (some (noSegments, true))).1 = 0 := by
    decide +kernel
  have hbefore : withThread.covers 1 0x20000 = true := by decide +kernel
  have hafter : (execveCall withThread 0x21f60 (fun _ => 0)
      (some (noSegments, true))).2.covers 1 0x20000 = true := by decide +kernel
  refine ⟨_, Prod.ext hok rfl, by decide +kernel, hbefore, hafter, by decide +kernel,
    by decide +kernel, by decide +kernel, fun h => ?_⟩
  exact Bool.false_ne_true ((h.map 0x20000 hbefore).symm.trans hafter)

end TipOS.Exec
