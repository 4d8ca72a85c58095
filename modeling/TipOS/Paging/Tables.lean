import TipOS.Lib.Bytes
import TipOS.Lib.Loop

/-!
# Page tables

The page-table functions of `memory.c` and the copying of an address space in `process.c`,
on physical memory.  The kernel runs with an identity mapping, so a pointer to a table is
its physical address.  `translate` is what the processor does with the same tables.

A table is 512 entries of 8 bytes.  Frames come from a pool: each allocation takes the next
frame, and an allocation from the empty pool fails and is remembered in `oom`.
-/

namespace TipOS.Paging

open Lib

/-! ### Entries -/

/-- Entry `i` of the table at `t`. -/
def entry (m : Mem) (t i : ℕ) : ℕ := m.load (t + 8 * i) 8

/-- `t[i] = e`. -/
def setEntry (m : Mem) (t i e : ℕ) : Mem := m.store (t + 8 * i) 8 e

def isPresent (e : ℕ) : Bool := e.testBit 0
def isWritable (e : ℕ) : Bool := e.testBit 1
def isUser (e : ℕ) : Bool := e.testBit 2
def isHuge (e : ℕ) : Bool := e.testBit 7
def isNx (e : ℕ) : Bool := e.testBit 63

/-- `e & 0x000FFFFFFFFFF000`: the frame in an entry, bits 51 to 12. -/
def frameOf (e : ℕ) : ℕ := e % 2 ^ 52 / 2 ^ 12 * 2 ^ 12

/-- `e & ~0xFFF`: how the table functions follow an entry. -/
def tableOf (e : ℕ) : ℕ := e / 2 ^ 12 * 2 ^ 12

/-! ### Indices -/

def pml4Idx (va : ℕ) : ℕ := va / 2 ^ 39 % 512
def pdptIdx (va : ℕ) : ℕ := va / 2 ^ 30 % 512
def pdIdx (va : ℕ) : ℕ := va / 2 ^ 21 % 512
def ptIdx (va : ℕ) : ℕ := va / 2 ^ 12 % 512

/-- `va & ~0x1FFFFF`. -/
def hugeDown (va : ℕ) : ℕ := va / 2 ^ 21 * 2 ^ 21

/-! ### The processor -/

/-- Rights: writable, user, no-execute. -/
structure Rights where
  w : Bool
  u : Bool
  nx : Bool
deriving DecidableEq

def rightsOf (e : ℕ) : Rights := ⟨isWritable e, isUser e, isNx e⟩

/-- Rights along a walk: writable and user at every level, executable at every level. -/
def Rights.meet (a b : Rights) : Rights := ⟨a.w && b.w, a.u && b.u, a.nx || b.nx⟩

/-- What an entry on the way leaves of the rights below it. -/
def restrict (a : Rights) (x : ℕ × Rights) : ℕ × Rights := (x.1, a.meet x.2)

/-- The walk below the PD entry `e2`: the physical address of `va` and its rights. -/
def walkPd (m : Mem) (e2 va : ℕ) : Option (ℕ × Rights) :=
  if isPresent e2 = false then none
  else if isHuge e2 then some (e2 % 2 ^ 52 / 2 ^ 21 * 2 ^ 21 + va % 2 ^ 21, rightsOf e2)
  else
    let e1 := entry m (frameOf e2) (ptIdx va)
    if isPresent e1 = false then none
    else some (frameOf e1 + va % 2 ^ 12, (rightsOf e2).meet (rightsOf e1))

/-- The walk below the PDPT entry `e3`. -/
def walkPdpt (m : Mem) (e3 va : ℕ) : Option (ℕ × Rights) :=
  if isPresent e3 = false then none
  else if isHuge e3 then some (e3 % 2 ^ 52 / 2 ^ 30 * 2 ^ 30 + va % 2 ^ 30, rightsOf e3)
  else (walkPd m (entry m (frameOf e3) (pdIdx va)) va).map (restrict (rightsOf e3))

/-- The walk of the processor from the root in CR3. -/
def translate (m : Mem) (root va : ℕ) : Option (ℕ × Rights) :=
  let e4 := entry m root (pml4Idx va)
  if isPresent e4 = false then none
  else (walkPdpt m (entry m (frameOf e4) (pdptIdx va)) va).map (restrict (rightsOf e4))

/-! ### Frames -/

/-- Physical memory, the frames the allocator will return, and whether it has failed. -/
structure Phys where
  mem : Mem
  pool : List ℕ
  oom : Bool

namespace Phys

def setEntry (s : Phys) (t i e : ℕ) : Phys := { s with mem := Paging.setEntry s.mem t i e }

theorem head_mem {s : Phys} {f : ℕ} {pool : List ℕ} (hpool : s.pool = f :: pool) : f ∈ s.pool := by
  rw [hpool]
  exact .head _

@[simp] theorem setEntry_mem (s : Phys) (t i e : ℕ) :
    (s.setEntry t i e).mem = Paging.setEntry s.mem t i e := rfl
@[simp] theorem setEntry_pool (s : Phys) (t i e : ℕ) : (s.setEntry t i e).pool = s.pool := rfl
@[simp] theorem setEntry_oom (s : Phys) (t i e : ℕ) : (s.setEntry t i e).oom = s.oom := rfl

/-- `page_alloc()`: the frame as it is. -/
def takeFrame (s : Phys) : Option ℕ × Phys :=
  match s.pool with
  | [] => (none, { s with oom := true })
  | f :: t => (some f, { s with pool := t })

/-- `mmap_user(0, 4096, 3, 0)`: the frame is zeroed. -/
def zeroFrame (s : Phys) : Option ℕ × Phys :=
  match s.pool with
  | [] => (none, { s with oom := true })
  | f :: t => (some f, { s with pool := t, mem := s.mem.fill f 4096 0 })

end Phys

/-! ### `memory.c` -/

/-- The 512 entries of `src` go to `dst`. -/
def copyTable (src dst : ℕ) (s : Phys) : Phys :=
  forLoop (fun i s => s.setEntry dst i (entry s.mem src i)) 512 s

/-- `pml4_create`, with the root `current` in CR3. -/
def pml4Create (s : Phys) (current : ℕ) : Option ℕ × Phys :=
  match s.takeFrame with
  | (none, s) => (none, s)
  | (some f, s) => (some f, copyTable current f s)

/-- `(phys_base + i * 0x1000) | flags` with `phys_base = pde & ~0x1FFFFF` and
`flags = pde & 0x1FF & ~0x80`. -/
def splitEntry (pde i : ℕ) : ℕ := (pde / 2 ^ 21 * 2 ^ 21 + i * 0x1000) ||| (pde &&& 0x17F)

/-- The loop of `split_2mb_pde` that writes the pieces of `pde` to `pt`. -/
def fillSplit (pt pde : ℕ) (s : Phys) : Phys :=
  forLoop (fun i s => s.setEntry pt i (splitEntry pde i)) 512 s

/-- `split_2mb_pde`. -/
def split2mbPde (s : Phys) (root va : ℕ) : ℤ × Phys :=
  let e4 := entry s.mem root (pml4Idx va)
  if isPresent e4 = false then (-1, s)
  else
    let e3 := entry s.mem (tableOf e4) (pdptIdx va)
    if isPresent e3 = false then (-1, s)
    else
      let pd := tableOf e3
      let pde := entry s.mem pd (pdIdx va)
      if isPresent pde = false then (-1, s)
      else if isHuge pde = false then (0, s)
      else
        match s.zeroFrame with
        | (none, s) => (-1, s)
        | (some pt, s) =>
          (0, (fillSplit pt pde s).setEntry pd (pdIdx va) (pt ||| 0x07))

/-- `map_user_4kb` makes a missing table; the frame is zeroed by `mmap_user` already. -/
def ensureTable (s : Phys) (t i : ℕ) : Option Phys :=
  if isPresent (entry s.mem t i) then some s
  else
    match s.zeroFrame with
    | (none, _) => none
    | (some f, s) => some (s.setEntry t i (f ||| 0x07))

/-- `map_user_4kb`. -/
def mapUser4kb (s : Phys) (root va : ℕ) : ℤ × Phys :=
  match ensureTable s root (pml4Idx va) with
  | none => (-1, { s with oom := true })
  | some s =>
    let pdpt := tableOf (entry s.mem root (pml4Idx va))
    match ensureTable s pdpt (pdptIdx va) with
    | none => (-1, { s with oom := true })
    | some s =>
      let pd := tableOf (entry s.mem pdpt (pdptIdx va))
      if isHuge (entry s.mem pd (pdIdx va)) then (0, s)
      else
        match ensureTable s pd (pdIdx va) with
        | none => (-1, { s with oom := true })
        | some s =>
          let pt := tableOf (entry s.mem pd (pdIdx va))
          if isPresent (entry s.mem pt (ptIdx va)) then (0, s)
          else
            match s.zeroFrame with
            | (none, s) => (-1, s)
            | (some f, s) => (0, s.setEntry pt (ptIdx va) (f ||| 0x07))

/-! ### `process.c` -/

/-- `child_frame_for`. -/
def childFrameFor (s : Phys) (child va : ℕ) : ℕ × Phys :=
  let s := (split2mbPde s child (hugeDown va)).2
  match mapUser4kb s child va with
  | (r, s) =>
    if r < 0 then (0, s)
    else
      let pdpt := tableOf (entry s.mem child (pml4Idx va))
      let pd := tableOf (entry s.mem pdpt (pdptIdx va))
      let pt := tableOf (entry s.mem pd (pdIdx va))
      let pte := entry s.mem pt (ptIdx va)
      if isPresent pte = false then (0, s) else (frameOf pte, s)

/-- The 1024 words of 4 bytes of a page. -/
def copyPage (dst src : ℕ) (s : Phys) : Phys :=
  forLoop (fun b s => { s with mem := s.mem.store (dst + 4 * b) 4 (s.mem.load (src + 4 * b) 4) })
    1024 s

/-- One page of `copy_user_space`: nothing is copied without a frame. -/
def copyTo (s : Phys) (child va src : ℕ) : Phys :=
  match childFrameFor s child va with
  | (fr, s) => if fr = 0 then s else copyPage fr src s

/-- Present and user: what `copy_user_space` follows at each level. -/
def isUserPresent (e : ℕ) : Bool := isPresent e && isUser e

/-- The 512 pages of a 2 MB page at `pa2`. -/
def copyHuge (child base pa2 : ℕ) (s : Phys) : Phys :=
  forLoop (fun n s => copyTo s child (base + n * 2 ^ 12) (pa2 + n * 2 ^ 12)) 512 s

/-- The user pages of the page table `spt`. -/
def copyPt (child base spt : ℕ) (s : Phys) : Phys :=
  forLoop (fun n s =>
    if isUserPresent (entry s.mem spt n) = false then s
    else copyTo s child (base + n * 2 ^ 12) (frameOf (entry s.mem spt n))) 512 s

/-- `copy_user_space` below the PD entry `e2`; the mask `0x000FFFFFE00000` has bits 43 to 21. -/
def copyPde (child base e2 : ℕ) (s : Phys) : Phys :=
  if isUserPresent e2 = false then s
  else if isHuge e2 then copyHuge child base (e2 % 2 ^ 44 / 2 ^ 21 * 2 ^ 21) s
  else copyPt child base (frameOf e2) s

def copyPd (child base sp2 : ℕ) (s : Phys) : Phys :=
  forLoop (fun k s => copyPde child (base + k * 2 ^ 21) (entry s.mem sp2 k) s) 512 s

/-- `copy_user_space` below the PDPT entry `e3`. -/
def copyPdpte (child base e3 : ℕ) (s : Phys) : Phys :=
  if isUserPresent e3 = false then s
  else if isHuge e3 then s
  else copyPd child base (frameOf e3) s

def copyPdpt (child base sp3 : ℕ) (s : Phys) : Phys :=
  forLoop (fun j s => copyPdpte child (base + j * 2 ^ 30) (entry s.mem sp3 j) s) 512 s

/-- `copy_user_space` below the PML4 entry `e4`. -/
def copyPml4e (child base e4 : ℕ) (s : Phys) : Phys :=
  if isUserPresent e4 = false then s else copyPdpt child base (frameOf e4) s

/-- `copy_user_space`. -/
def copyUserSpace (src child : ℕ) (s : Phys) : Phys :=
  forLoop (fun i s => copyPml4e child (i * 2 ^ 39) (entry s.mem src i) s) 512 s

/-- What `proc_fork` does to the address spaces: a root for the child, then the copy. -/
def forkSpace (s : Phys) (parent : ℕ) : Option ℕ × Phys :=
  match pml4Create s parent with
  | (none, s) => (none, s)
  | (some child, s) => (some child, copyUserSpace parent child s)

-- the loops are reasoned about with the rules of `forLoop`, not unfolded
attribute [irreducible] copyTable fillSplit copyPage copyHuge copyPt copyPd copyPdpt copyUserSpace

end TipOS.Paging
