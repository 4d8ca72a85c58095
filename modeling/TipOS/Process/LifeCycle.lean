import Mathlib.Algebra.BigOperators.Group.List.Basic
import TipOS.Loader.Clone
import TipOS.Loader.Elf
import TipOS.Loader.MachO
import TipOS.Paging.ForkFrames

/-!
# The frames of a process

What a process costs from its creation until `proc_waitpid` has reaped it, counted in frames of
4 KB; a block of 2 MB is 512 of them.

`proc_waitpid` gives back the kernel stack and the page of the PML4.  `SYS_spawn` takes more: two
tables of the clone, the blocks and tables of the loader and the user stack of 64 KB.  `proc_fork`
takes frames for the 2 MB pages it splits and for new slabs, as it copies the regions of the parent.
What the process took while it ran, nobody gives back for it.
-/

namespace TipOS.Process.Life

open Lib Paging Loader List

variable {held : List (List ℕ)} {current t : ℕ} {b : Born}

/-! ### Runs of frames -/

/-- `kmalloc` or `mmap_user` of `n` pages in a row; where they are does not matter here. -/
def takeFrames (n : ℕ) (s : Phys) : Option (List ℕ) × Phys :=
  if s.pool.length < n then (none, { s with oom := true })
  else (some (s.pool.take n), { s with pool := s.pool.drop n })

def giveFrames (l : List ℕ) (s : Phys) : Phys := { s with pool := l ++ s.pool }

theorem takeFrames_some {n : ℕ} {l : List ℕ} (h : takeFrames n s = (some l, s')) :
    l.length = n ∧ s.pool = l ++ s'.pool ∧ s'.mem = s.mem ∧ s'.oom = s.oom := by
  rw [takeFrames] at h
  split at h
  · cases h
  next hn =>
  obtain ⟨hl, rfl⟩ := Prod.mk.inj h
  cases hl
  exact ⟨length_take_of_le (by omega), (take_append_drop n s.pool).symm, rfl, rfl⟩

/-! ### Creation -/

/-- What `proc_waitpid` reads of a process. -/
structure Born where
  pml4 : ℕ
  kstack : List ℕ

/-- `STACK_SIZE` and the user stack, in pages. -/
def stackPages : ℕ := 2
def userStackPages : ℕ := 16

/-- `INTERP_BASE`. -/
def interpBase : ℕ := 0x60000000

/-- `proc_spawn`: the kernel stack and a PML4. -/
def procSpawn (current : ℕ) (s : Phys) : Option Born × Phys :=
  match takeFrames stackPages s with
  | (none, s) => (none, s)
  | (some kstack, s) =>
    match pml4Create s current with
    | (none, s) => (none, giveFrames kstack s)
    | (some pml4, s) => (some ⟨pml4, kstack⟩, s)

/-- The choice of the loader in `SYS_spawn`; `interp` is the file that the image names as its
interpreter. -/
def loadProgram (img : Image) (interp : Option Image) (s : Load) (child : ℕ) : ℕ × Load :=
  if 4 ≤ img.len ∧ img.isElf64 = true then
    let x := elf64LoadIntoPml4 img s child
    match interp with
    | none => x
    | some file => (x.1, (elf64LoadAt file x.2 child interpBase).2)
  else machOLoadIntoPml4 img s child

/-- `SYS_spawn`: the PML4 of `proc_spawn` is given back for the one of the clone. -/
def sysSpawn (img : Image) (interp : Option Image) (current : ℕ) (s : Load) : Option Born × Load :=
  match cloneIdentityTables s.phys current with
  | (none, p) => (none, { s with phys := p })
  | (some child, p) =>
    let x := loadProgram img interp { s with phys := p } child
    if x.1 = 0 then (none, x.2)
    else
      match takeFrames userStackPages x.2.phys with
      | (none, p) => (none, { x.2 with phys := p })
      | (some stack, p) =>
        match procSpawn current p with
        | (none, p) => (none, { x.2 with phys := giveFrames stack p })
        | (some b, p) =>
          (some ⟨child, b.kstack⟩, { x.2 with phys := giveFrames [b.pml4] p })

/-- `kmalloc` of the child's map and `vm_map_copy_to`: the slabs need `slabs` frames, behind the one
that `pml4_create` takes and before those of `copy_user_space`. -/
def takeSlabs (slabs : ℕ) (s : Phys) : Phys :=
  { s with pool := s.pool.take 1 ++ s.pool.drop (slabs + 1) }

/-- `proc_fork`, with the parent's root in CR3. -/
def procFork (slabs current : ℕ) (s : Phys) : Option Born × Phys :=
  match takeFrames stackPages s with
  | (none, s) => (none, s)
  | (some kstack, s) =>
    match forkSpace (takeSlabs slabs s) current with
    | (none, s) => (none, giveFrames kstack s)
    | (some pml4, s) => (some ⟨pml4, kstack⟩, s)

/-- The two ways to make a process; a fork with the number of frames that new slabs need. -/
inductive Creation
  | spawn (img : Image) (interp : Option Image)
  | fork (slabs : ℕ)

def create (current : ℕ) (s : Load) : Creation → Option Born × Load
  | .spawn img interp => sysSpawn img interp current s
  | .fork slabs =>
    ((procFork slabs current s.phys).1, { s with phys := (procFork slabs current s.phys).2 })

/-! ### The run -/

/-- What the kernel does with frames for a process while it runs. -/
inductive Event
  | alloc (n : ℕ)
  | free (l : List ℕ)

/-- One event; `held` is what the process has taken and not given back.  Only frames that were
taken are given back. -/
def Event.step : Event → Phys × List (List ℕ) → Phys × List (List ℕ)
  | .alloc n, (s, held) =>
    match takeFrames (n + 1) s with
    | (none, s) => (s, held)
    | (some l, s) => (s, l :: held)
  | .free l, (s, held) => if l ∈ held then (giveFrames l s, held.erase l) else (s, held)

def run (es : List Event) (x : Phys × List (List ℕ)) : Phys × List (List ℕ) :=
  es.foldl (fun x e => e.step x) x

/-- What `proc_waitpid` gives back: `munmap_user` of the kernel stack, `pml4_destroy`. -/
def reap (b : Born) (s : Phys) : Phys := giveFrames [b.pml4] (giveFrames b.kstack s)

/-- A process from its creation to the end of `proc_waitpid`, with what it still held when it
exited. -/
def lifeCycle (current : ℕ) (c : Creation) (es : List Event) (s : Load) :
    Option (Load × List (List ℕ)) :=
  match create current s c with
  | (none, _) => none
  | (some b, s) =>
    let x := run es (s.phys, [])
    some ({ s with phys := reap b x.1 }, x.2)

/-- The free frames, alone and in blocks. -/
def freeFrames (s : Load) : ℕ := s.phys.pool.length + 512 * s.blocks.length

/-! ### What a run takes -/

def heldFrames (held : List (List ℕ)) : ℕ := (held.map List.length).sum

theorem Event.step_count (e : Event) (s : Phys) (held : List (List ℕ)) (hpos : [] ∉ held) :
    (e.step (s, held)).1.pool.length + heldFrames (e.step (s, held)).2 =
      s.pool.length + heldFrames held ∧ [] ∉ (e.step (s, held)).2 := by
  cases e with
  | alloc n =>
    rw [Event.step]
    split
    · next h =>
      rw [takeFrames] at h
      split at h
      · obtain ⟨-, rfl⟩ := Prod.mk.inj h
        exact ⟨rfl, hpos⟩
      · cases h
    next l s' h =>
    obtain ⟨hlen, hpool, -, -⟩ := takeFrames_some h
    refine ⟨?_, fun hmem => ?_⟩
    · simp only [hpool, heldFrames, map_cons, sum_cons, length_append]
      omega
    · rcases mem_cons.mp hmem with he | hmem
      · rw [← he] at hlen
        cases hlen
      · exact hpos hmem
  | free l =>
    rw [Event.step]
    split
    · next hl =>
      refine ⟨?_, fun hmem => hpos (mem_of_mem_erase hmem)⟩
      have hsum := ((perm_cons_erase hl).map List.length).sum_eq
      rw [map_cons, sum_cons] at hsum
      simp only [giveFrames, length_append, heldFrames]
      omega
    · exact ⟨rfl, hpos⟩

theorem run_count (es : List Event) (s : Phys) (held : List (List ℕ)) (hpos : [] ∉ held) :
    (run es (s, held)).1.pool.length + heldFrames (run es (s, held)).2 =
      s.pool.length + heldFrames held ∧ [] ∉ (run es (s, held)).2 := by
  induction es generalizing s held with
  | nil => exact ⟨rfl, hpos⟩
  | cons e es ih =>
    obtain ⟨hcount, hpos'⟩ := e.step_count s held hpos
    obtain ⟨hcount', hpos''⟩ := ih (e.step (s, held)).1 (e.step (s, held)).2 hpos'
    exact ⟨hcount'.trans hcount, hpos''⟩

theorem heldFrames_eq_zero (hpos : [] ∉ held) :
    heldFrames held = 0 ↔ held = [] := by
  refine ⟨fun h => ?_, fun h => by rw [h]; rfl⟩
  cases held with
  | nil => rfl
  | cons l held =>
    rw [heldFrames, map_cons, sum_cons] at h
    exact absurd (mem_cons.mpr (.inl (length_eq_zero_iff.mp (by omega)).symm)) hpos

/-- **The end of a life**: the frames at the end and what is still held are the frames after the
creation with those of the kernel stack and the PML4. -/
theorem lifeCycle_count {c : Creation} {es : List Event} {s s' : Load}
    (h : lifeCycle current c es s = some (s', held)) :
    ∃ b s1, create current s c = (some b, s1) ∧
      freeFrames s' + heldFrames held = freeFrames s1 + b.kstack.length + 1 ∧ [] ∉ held := by
  rw [lifeCycle] at h
  split at h
  · cases h
  next b s1 hc =>
  cases h
  obtain ⟨hcount, hpos⟩ := run_count es s1.phys [] not_mem_nil
  refine ⟨b, s1, hc, ?_, hpos⟩
  have hzero : heldFrames [] = 0 := rfl
  simp only [freeFrames, reap, giveFrames, length_append, length_cons, length_nil]
  omega

/-! ### What a loader takes -/

/-- From `s` to `s'` frames and blocks were taken. -/
structure Uses (s s' : Load) : Prop where
  pool : s'.phys.pool <:+ s.phys.pool
  blocks : s'.blocks <:+ s.blocks

section Loaders

variable {s s' s'' : Load}

theorem Uses.refl (s : Load) : Uses s s := ⟨suffix_refl _, suffix_refl _⟩

theorem Uses.trans (h : Uses s s') (h' : Uses s' s'') : Uses s s'' :=
  ⟨h'.pool.trans h.pool, h'.blocks.trans h.blocks⟩

theorem Uses.freeFrames_le (h : Uses s s') : freeFrames s' ≤ freeFrames s := by
  have hp := h.pool.length_le
  have hb := h.blocks.length_le
  rw [freeFrames, freeFrames]
  omega

theorem uses_tryLoop {α : Type*} {g : α → Load → Bool × Load} (h : ∀ a s, Uses s (g a s).2)
    (l : List α) (s : Load) : Uses s (tryLoop g l s).2 :=
  tryLoop_inv (Uses s) (Uses.refl s) fun a _ t ht => ht.trans (h a t)

theorem uses_note (s : Load) (off n : ℕ) : Uses s (s.note off n) :=
  ⟨suffix_refl s.phys.pool, suffix_refl s.blocks⟩

theorem uses_setMem (s : Load) (m : Mem) : Uses s (s.setMem m) :=
  ⟨suffix_refl s.phys.pool, suffix_refl s.blocks⟩

theorem uses_phys (s : Load) {p : Phys} (h : Shrinks s.phys p) : Uses s { s with phys := p } :=
  ⟨h.rest, suffix_refl s.blocks⟩

theorem uses_copyIn (s : Load) (img : Image) (dst off n : ℕ) : Uses s (s.copyIn img dst off n) :=
  (uses_note s off n).trans (uses_setMem _ _)

theorem shrinks_map2mbInPml4 (s : Phys) (pml4 virt phys : ℕ) :
    Shrinks s (map2mbInPml4 s pml4 virt phys).2 := by
  unfold map2mbInPml4
  dsimp only
  split
  · exact Shrinks.refl s
  · split
    · exact Shrinks.refl s
    · exact shrinks_setEntry s _ _ _

theorem shrinks_map2mbEnsure (s : Phys) (pml4 virt phys : ℕ) :
    Shrinks s (map2mbEnsure s pml4 virt phys).2 := by
  unfold map2mbEnsure
  dsimp only
  split
  · exact Shrinks.refl s
  · split
    · next he => exact (Shrinks.refl s).setOom (ensureTable_none he).2
    · next he => exact (shrinks_ensureTable he).trans (shrinks_setEntry _ _ _ _)

theorem uses_takeBlock (s : Load) : Uses s s.takeBlock.2 := by
  unfold Load.takeBlock
  split
  · exact ⟨suffix_refl s.phys.pool, suffix_refl s.blocks⟩
  next b t hb =>
  have hblocks : Uses s { s with blocks := t } :=
    ⟨suffix_refl s.phys.pool, by rw [hb]; exact suffix_cons b t⟩
  exact hblocks.trans (uses_setMem _ _)

theorem uses_mapBlock {map : Phys → ℕ → ℕ → ℕ → ℤ × Phys}
    (h : ∀ s pml4 va pa, Shrinks s (map s pml4 va pa).2) (s : Load) (pml4 va : ℕ) :
    Uses s (s.mapBlock map pml4 va).2 := by
  have ht := uses_takeBlock s
  unfold Load.mapBlock
  split
  · next heq => rw [heq] at ht; exact ht
  next b s1 heq =>
  rw [heq] at ht
  dsimp only
  split
  · exact ht.trans (uses_phys s1 (h _ _ _ _))
  · exact (ht.trans (uses_phys s1 (h _ _ _ _))).trans (uses_setMem _ _)

section

variable (img : Image)

include img

theorem uses_copyChunk (g : Segment) (va p : ℕ) (s : Load) :
    Uses s (copyChunk img g va p s) := by
  rw [copyChunk]
  split
  · exact uses_copyIn s img _ _ _
  · exact Uses.refl s

theorem uses_loadChunk (pml4 : ℕ) (g : Segment) (va : ℕ) (s : Load) :
    Uses s (loadChunk img pml4 g va s).2 := by
  have hnew : Uses s (newChunk pml4 va s).2 := by
    have hm := uses_mapBlock shrinks_map2mbEnsure s pml4 va
    rw [newChunk]
    split
    · next heq => rw [heq] at hm; exact hm
    · next heq => rw [heq] at hm; exact ⟨hm.1, hm.2⟩
  rw [loadChunk]
  split
  · exact uses_copyChunk img g va _ s
  · split
    · next heq => rw [heq] at hnew; exact hnew
    · next heq => rw [heq] at hnew; exact hnew.trans (uses_copyChunk img g va _ _)

theorem uses_loadPhdrs (pml4 base : ℕ) (s : Load) :
    Uses s (loadPhdrs img pml4 base s).2 := by
  have hloop := uses_tryLoop (g := loadPhdr img pml4 base) (fun i t => ?_) (List.range img.ePhnum)
    { s with mapped := [] }
  · exact ⟨hloop.1, hloop.2⟩
  rw [loadPhdr]
  dsimp only
  split
  · exact Uses.refl t
  · split
    · exact uses_note t _ _
    · exact (uses_note t _ _).trans (uses_tryLoop (uses_loadChunk img pml4 _) _ _)

theorem uses_elf64LoadIntoPml4 (s : Load) (pml4 : ℕ) :
    Uses s (elf64LoadIntoPml4 img s pml4).2 := by
  have hn := uses_note s 0 ehdrSize
  have hl := fun base => hn.trans (uses_loadPhdrs img pml4 base (s.note 0 ehdrSize))
  rw [elf64LoadIntoPml4]
  dsimp only
  split
  · exact Uses.refl s
  iterate 5
    split
    · exact hn
  split
  · split
    · exact hl pieBase
    · exact hl pieBase
  · split
    · exact hl 0
    · exact hl 0

theorem uses_elf64LoadAt (s : Load) (pml4 base : ℕ) :
    Uses s (elf64LoadAt img s pml4 base).2 := by
  have hn := uses_note s 0 ehdrSize
  have hl := hn.trans (uses_loadPhdrs img pml4 base (s.note 0 ehdrSize))
  rw [elf64LoadAt_eq]
  dsimp only
  split
  · exact Uses.refl s
  iterate 3
    split
    · exact hn
  split
  · exact hl
  · exact hl

theorem uses_machChunk (pml4 c dst va : ℕ) (s : Load) :
    Uses s (machChunk img pml4 c dst va s).2 := by
  have hm := uses_mapBlock shrinks_map2mbInPml4 s pml4 va
  rw [machChunk]
  split
  · next heq => rw [heq] at hm; exact hm
  next heq =>
  rw [heq] at hm
  split
  · exact hm.trans ((uses_note _ _ _).trans (uses_copyIn _ img _ _ _))
  · exact hm

theorem uses_based (x : MachO) : Uses x.load (x.based img).load := by
  have hnote := ((uses_note x.load (x.cmds + 48) 8).trans (uses_note _ (x.cmds + 24) 8)).trans
    (uses_note _ (x.cmds + 32) 8)
  rw [MachO.based, setBase]
  split
  · exact hnote
  · exact hnote

theorem uses_machSegment (pml4 : ℕ) (x : MachO) :
    Uses x.load (machSegment img pml4 x).2.load := by
  by_cases hf : img.filesize x.cmds = 0
  · rw [machSegment, if_pos hf]
    exact uses_note x.load _ _
  obtain ⟨y, hy, he⟩ := machSegment_loop pml4 hf
  rw [he]
  have hloop := uses_tryLoop (uses_machChunk img pml4 x.cmds
    ((x.based img).slid (img.vmaddr x.cmds)))
    (chunks ((x.based img).slid (img.vmaddr x.cmds)) (img.vmsize x.cmds)) (x.based img).load
  rw [← hy] at hloop
  exact (uses_based img x).trans hloop

theorem uses_nextCmd (x : MachO) : Uses x.load (nextCmd img x).load :=
  uses_note x.load (x.cmds + 4) 4

theorem uses_machMain (x : MachO) : Uses x.load (machMain img x).load :=
  uses_note x.load (x.cmds + 8) 8

theorem uses_machThread (x : MachO) : Uses x.load (machThread img x).load :=
  uses_note x.load (x.cmds + 48) 8

theorem uses_machCommand (pml4 : ℕ) (x : MachO) :
    Uses x.load (machCommand img pml4 x).2.load := by
  have hn := uses_note x.load x.cmds 4
  rw [machCommand]
  dsimp only
  split
  · have hs := hn.trans (uses_machSegment img pml4 (x.note x.cmds 4))
    generalize machSegment img pml4 (x.note x.cmds 4) = y at hs ⊢
    split
    · exact hs
    · exact hs.trans (uses_nextCmd img y.2)
  · split
    · exact (hn.trans (uses_machMain img (x.note x.cmds 4))).trans (uses_nextCmd img _)
    · split
      · exact (hn.trans (uses_machThread img (x.note x.cmds 4))).trans (uses_nextCmd img _)
      · exact hn.trans (uses_nextCmd img (x.note x.cmds 4))

theorem uses_machOLoadIntoPml4 (s : Load) (pml4 : ℕ) :
    Uses s (machOLoadIntoPml4 img s pml4).2 := by
  have hc : Uses s (machCommands img s pml4).2.load := by
    rw [machCommands]
    refine tryLoop_inv (fun x : MachO => Uses s x.load) ⟨suffix_refl _, suffix_refl _⟩
      fun _ _ x hx => hx.trans (uses_machCommand img pml4 x)
  rw [machOLoadIntoPml4]
  dsimp only
  split_ifs
  · exact uses_note s 0 4
  · exact uses_note s 0 4
  · exact hc
  · exact hc

theorem uses_loadProgram (interp : Option Image) (s : Load) (child : ℕ) :
    Uses s (loadProgram img interp s child).2 := by
  rw [loadProgram]
  split
  · cases interp with
    | none => exact uses_elf64LoadIntoPml4 img s child
    | some file =>
      exact (uses_elf64LoadIntoPml4 img s child).trans (uses_elf64LoadAt file _ child _)
  · exact uses_machOLoadIntoPml4 img s child

end

end Loaders

/-! ### What a creation takes -/

theorem shrinks_copyTable (src dst : ℕ) (s : Phys) : Shrinks s (copyTable src dst s) := by
  rw [copyTable]
  apply shrinks_forLoop
  intro i t
  exact shrinks_setEntry t dst i _

theorem shrinks_copyEntries (g : ℕ → ℕ) (src dst lo n : ℕ) (s : Phys) :
    Shrinks s (copyEntries g src dst lo n s) := by
  rw [copyEntries]
  apply shrinks_forLoop
  intro i t
  exact shrinks_setEntry t dst _ _

theorem shrinks_fillClone (current pd pdp pml4 : ℕ) (s : Phys) :
    Shrinks s (fillClone current pd pdp pml4 s) := by
  unfold fillClone
  exact ((((shrinks_copyEntries _ _ _ _ _ _).trans (shrinks_setEntry _ _ _ _)).trans
    (shrinks_copyEntries _ _ _ _ _ _)).trans (shrinks_setEntry _ _ _ _)).trans
    (shrinks_copyEntries _ _ _ _ _ _)

theorem cloneIdentityTables_count {child : ℕ}
    (h : cloneIdentityTables s current = (some child, s')) :
    s'.pool.length + 3 ≤ s.pool.length := by
  obtain ⟨pd, pdp, pool, hpool, rfl⟩ := cloneIdentityTables_cases h
  have hle := (shrinks_fillClone current pd pdp child { s with
    pool := pool
    mem := ((s.mem.fill pd 4096 0).fill pdp 4096 0).fill child 4096 0 }).length_le
  rw [hpool]
  exact Nat.add_le_add_right hle 3

theorem pml4Create_count {f : ℕ} (h : pml4Create s current = (some f, s')) :
    s'.pool.length + 1 ≤ s.pool.length := by
  rw [pml4Create, Phys.takeFrame] at h
  cases hpool : s.pool with
  | nil =>
    rw [hpool] at h
    cases h
  | cons g pool =>
    rw [hpool] at h
    obtain ⟨-, rfl⟩ := Prod.mk.inj h
    exact Nat.succ_le_succ (shrinks_copyTable current g { s with pool := pool }).length_le

theorem procSpawn_count (h : procSpawn current s = (some b, s')) :
    b.kstack.length = 2 ∧ s'.pool.length + 3 ≤ s.pool.length := by
  rw [procSpawn] at h
  split at h
  · cases h
  next kstack s1 hk =>
  obtain ⟨hlen, hpool, -, -⟩ := takeFrames_some hk
  split at h
  · cases h
  next pml4 s2 hp =>
  obtain ⟨hb, rfl⟩ := Prod.mk.inj h
  cases hb
  have hcount := pml4Create_count hp
  have hlen : kstack.length = 2 := hlen
  rw [hpool, length_append]
  exact ⟨hlen, by omega⟩

/-- **A spawn takes 21 frames at least**: the three tables of the clone, the kernel stack and the
user stack. -/
theorem sysSpawn_count {img : Image} {interp : Option Image} {s s' : Load}
    (h : sysSpawn img interp current s = (some b, s')) :
    b.kstack.length = 2 ∧ freeFrames s' + 21 ≤ freeFrames s := by
  rw [sysSpawn] at h
  split at h
  · cases h
  next child p hclone =>
  have hclone := cloneIdentityTables_count hclone
  have huse := (uses_loadProgram img interp { s with phys := p } child).freeFrames_le
  dsimp only at h
  generalize loadProgram img interp { s with phys := p } child = x at h huse
  split at h
  · cases h
  split at h
  · cases h
  next stack p1 hstack =>
  obtain ⟨hslen, hspool, -, -⟩ := takeFrames_some hstack
  split at h
  · cases h
  next b1 p2 hspawn =>
  obtain ⟨hb, rfl⟩ := Prod.mk.inj h
  cases hb
  obtain ⟨hklen, hcount⟩ := procSpawn_count hspawn
  refine ⟨hklen, ?_⟩
  have hpool := congrArg List.length hspool
  rw [length_append, hslen, userStackPages] at hpool
  simp only [freeFrames, giveFrames, length_append, length_cons, length_nil] at huse ⊢
  omega

theorem takeSlabs_sublist (slabs : ℕ) (s : Phys) : (takeSlabs slabs s).pool <+ s.pool := by
  change s.pool.take 1 ++ s.pool.drop (slabs + 1) <+ s.pool
  conv_rhs => rw [← take_append_drop 1 s.pool]
  exact (Sublist.refl _).append (drop_sublist_drop_left _ (by omega))

/-- Frames that are taken for something else. -/
theorem forkOk_sublist (h : ForkOk s current) (hmem : s'.mem = s.mem) (hsub : s'.pool <+ s.pool) :
    ForkOk s' current := by
  refine ⟨?_, fun f hf => ?_, h.nodup.sublist hsub⟩
  · rw [hmem]
    exact h.ok
  · rw [hmem]
    exact h.fresh f (hsub.subset hf)

/-- **What a fork takes**: the kernel stack, the PML4, and nothing else only when it needs no new slab
and there is no 2 MB user page, or no frame is left. -/
theorem procFork_count {slabs : ℕ} (hok : ForkOk s current) (ho : s.oom = false)
    (h : procFork slabs current s = (some b, s')) :
    b.kstack.length = 2 ∧ s'.pool.length + 3 ≤ s.pool.length ∧
    (s'.pool.length + 3 = s.pool.length ↔
      s.pool.length = 3 ∨ slabs = 0 ∧ ¬ UserHuge s.mem current) := by
  rw [procFork] at h
  split at h
  · cases h
  next kstack s1 hk =>
  obtain ⟨hlen, hpool, hmem, hoom⟩ := takeFrames_some hk
  have hok1 : ForkOk (takeSlabs slabs s1) current := by
    refine forkOk_sublist hok hmem ((takeSlabs_sublist slabs s1).trans ?_)
    rw [hpool]
    exact sublist_append_right kstack s1.pool
  split at h
  · cases h
  next pml4 s2 hf =>
  obtain ⟨hb, rfl⟩ := Prod.mk.inj h
  cases hb
  refine ⟨hlen, ?_⟩
  rw [hpool, length_append, hlen, ← hmem]
  cases hp : s1.pool with
  | nil =>
    rw [forkSpace, pml4Create, Phys.takeFrame, takeSlabs, hp] at hf
    cases hf
  | cons c F =>
    have hp' : (takeSlabs slabs s1).pool = c :: F.drop slabs := by
      rw [takeSlabs, hp]
      rfl
    obtain ⟨-, hiff, hle⟩ := forkSpace_pool hok1 (hoom.trans ho) hp'
    rw [hf] at hiff hle
    rw [length_drop] at hle
    rw [← length_eq_zero_iff, length_drop, takeSlabs] at hiff
    dsimp only at hiff hle
    have hconst : stackPages = 2 := rfl
    rw [length_cons, hconst]
    refine ⟨by omega, ?_⟩
    by_cases hu : UserHuge s1.mem current
    · simp only [hu, not_true_eq_false, or_false, and_false] at hiff ⊢
      omega
    · simp only [hu, not_false_eq_true, or_true, and_true, iff_true] at hiff ⊢
      omega

/-! ### The whole life -/

/-- **When a life costs nothing**: the process was forked from a parent without 2 MB user pages and its
map needed no new slab (or there was no frame for either), and had given back all it took.  A spawned
process always costs 18 frames or more, so the loss of many lives has no bound. -/
theorem life_cycle_iff {current : ℕ} {c : Creation} {es : List Event} {s s' : Load}
    {held : List (List ℕ)} (h : lifeCycle current c es s = some (s', held))
    (hok : ∀ slabs, c = .fork slabs → ForkOk s.phys current ∧ s.phys.oom = false) :
    (freeFrames s' = freeFrames s ↔
      held = [] ∧ ∃ slabs, c = .fork slabs ∧
        (s.phys.pool.length = 3 ∨ slabs = 0 ∧ ¬ UserHuge s.phys.mem current)) ∧
    ((∀ slabs, c ≠ .fork slabs) → freeFrames s' + 18 ≤ freeFrames s) := by
  obtain ⟨b, s₁, hc, hcount, hpos⟩ := lifeCycle_count h
  rw [← heldFrames_eq_zero hpos]
  cases c with
  | spawn img interp =>
    obtain ⟨hk, hle⟩ := sysSpawn_count hc
    refine ⟨⟨fun heq => ?_, fun hf => ?_⟩, fun _ => ?_⟩
    · omega
    · obtain ⟨-, _, hf, -⟩ := hf
      cases hf
    · omega
  | fork slabs =>
    obtain ⟨hfork, ho⟩ := hok slabs rfl
    obtain ⟨p, hy⟩ : ∃ p, procFork slabs current s.phys = (some b, p) :=
      ⟨(procFork slabs current s.phys).2,
        Prod.ext (show (procFork slabs current s.phys).1 = some b from congrArg Prod.fst hc) rfl⟩
    have hs₁ : s₁ = { s with phys := p } := by
      rw [create, hy] at hc
      exact (congrArg Prod.snd hc).symm
    obtain ⟨hk, hle, hiff⟩ := procFork_count hfork ho hy
    rw [hs₁] at hcount
    refine ⟨?_, fun hne => absurd rfl (hne slabs)⟩
    dsimp only [freeFrames] at hcount ⊢
    constructor
    · intro heq
      exact ⟨by omega, slabs, rfl, hiff.mp (by omega)⟩
    · rintro ⟨hheld, m, hm, hcond⟩
      cases hm
      have heq := hiff.mpr hcond
      omega

/-- A parent with one page, and four free frames. -/
def smallParent : Load :=
  ⟨⟨(onePage 7).mem, [0x10000, 0x11000, 0x12000, 0x13000], false⟩, [], [], []⟩

theorem smallParent_forkOk : ForkOk smallParent.phys 0x1000 where
  ok := (onePage_forkOk (by simp)).ok
  fresh f hf := by
    have hf : f ∈ [0x10000, 0x11000, 0x12000, 0x13000] := hf
    refine onePage_fresh (by simp) ?_
    simp only [mem_cons, not_mem_nil, or_false] at hf
    omega
  nodup := by decide

theorem life_cycle_iff_smallParent :
    ∃ s', lifeCycle 0x1000 (.fork 0) [] smallParent = some (s', []) ∧
      freeFrames s' = freeFrames smallParent := by
  obtain ⟨⟨s', held⟩, hx⟩ := Option.isSome_iff_exists.mp
    (show (lifeCycle 0x1000 (.fork 0) [] smallParent).isSome = true by decide +kernel)
  have hheld : (lifeCycle 0x1000 (.fork 0) [] smallParent).map Prod.snd = some [] := by
    decide +kernel
  rw [hx] at hheld
  obtain rfl : held = [] := Option.some.inj hheld
  refine ⟨s', hx, (life_cycle_iff hx fun _ _ => ⟨smallParent_forkOk, rfl⟩).1.mpr
    ⟨rfl, 0, rfl, .inr ⟨rfl, ?_⟩⟩⟩
  rintro ⟨d, hd, k, hk, hup, hh⟩
  obtain rfl := onePage_pd (by simp) hd
  rw [show smallParent.phys.mem = (onePage 7).mem from rfl, onePage_up (by simp) (by simp) hk hup,
    (onePage_first (by simp)).2.2.1] at hh
  cases hh

/-- A Mach-O image without segments: one `LC_MAIN` command. -/
def mainOnly : Image where
  bytes i := if i = 0 then 0xCF else if i = 1 then 0xFA else if i = 2 then 0xED else
    if i = 3 then 0xFE else if i = 16 then 1 else if i = 32 then 0x28 else if i = 35 then 0x80 else
    if i = 36 then 24 else if i = 41 then 0x10 else 0
  len := 56

/-- A kernel with 64 free frames. -/
def smallMachine : Load :=
  ⟨⟨fun _ => 0, (List.range 64).map fun i => 0x10000 + 0x1000 * i, false⟩, [], [], []⟩

/-- **Two programs that load nothing and exit at once** cost 36 frames; the cache of loose pages
has 32. -/
theorem spawn_loses_frames : freeFrames smallMachine = 64 ∧
    ((lifeCycle 0x1000 (.spawn mainOnly none) [] smallMachine).bind fun x =>
      lifeCycle 0x1000 (.spawn mainOnly none) [] x.1).map (fun x => freeFrames x.1) = some 28 := by
  decide +kernel

end TipOS.Process.Life
