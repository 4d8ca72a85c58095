import TipOS.Loader.Blocks

/-!
# The Mach-O loader

`mach_o_load_into_pml4` of `mach_o.c`.  It walks the load commands that follow the header, one
`cmdsize` after the other.  Each chunk of a segment gets a new block; the whole of the segment's part
of the file is copied behind its place in the block of the first chunk.  A segment without a part
of the file is left out.  Nothing is compared with `len`.

`file_base` and `slide` are both the address of the first segment, so a segment goes where its
command says (`dst_eq`).
-/

namespace TipOS.Loader

open Lib Paging

/-! ### Commands -/

def mhMagic64 : ℕ := 0xFEEDFACF
def mhCigam64 : ℕ := 0xCFFAEDFE
def lcSegment64 : ℕ := 0x19
def lcMain : ℕ := 0x80000028
def lcUnixthread : ℕ := 0x05

namespace Image

variable (img : Image)

def magic : ℕ := img.field 0 4
def ncmds : ℕ := img.field 16 4

/-- The fields of the command at `c`. -/
def cmd (c : ℕ) : ℕ := img.field c 4
def cmdsize (c : ℕ) : ℕ := img.field (c + 4) 4
def vmaddr (c : ℕ) : ℕ := img.field (c + 24) 8
def vmsize (c : ℕ) : ℕ := img.field (c + 32) 8
def fileoff (c : ℕ) : ℕ := img.field (c + 40) 8
def filesize (c : ℕ) : ℕ := img.field (c + 48) 8
def entryoff (c : ℕ) : ℕ := img.field (c + 8) 8

/-- `((uint64_t *)(state + 8))[0]` with `state = cmds + 16`. -/
def threadEntry (c : ℕ) : ℕ := img.field (c + 48) 8

end Image

/-! ### The loader -/

/-- The variables of `mach_o_load_into_pml4`. -/
structure MachO where
  load : Load
  cmds : ℕ
  entry : ℕ
  fileBase : ℕ
  slide : ℕ

namespace MachO

def note (x : MachO) (off n : ℕ) : MachO := { x with load := x.load.note off n }

/-- `a - file_base + slide`. -/
def slid (x : MachO) (a : ℕ) : ℕ := (a + (2 ^ 64 - x.fileBase) + x.slide) % 2 ^ 64

end MachO

/-- The first segment sets `file_base` and `slide`. -/
def setBase (img : Image) (x : MachO) : MachO :=
  if x.fileBase = 0 then { x with fileBase := img.vmaddr x.cmds, slide := img.vmaddr x.cmds } else x

/-- The loop body over the chunks of the segment at `c`, which goes to `dst`. -/
def machChunk (img : Image) (pml4 c dst va : ℕ) (s : Load) : Bool × Load :=
  match s.mapBlock map2mbInPml4 pml4 va with
  | (none, s) => (false, s)
  | (some phys, s) =>
    if va = hugeDown dst then
      (true, (s.note (c + 40) 8).copyIn img (phys + dst % 2 ^ 21) (img.fileoff c) (img.filesize c))
    else (true, s)

/-- `LC_SEGMENT_64`. -/
def machSegment (img : Image) (pml4 : ℕ) (x : MachO) : Bool × MachO :=
  let c := x.cmds
  let x := x.note (c + 48) 8
  if img.filesize c = 0 then (true, x)
  else
    let x := setBase img ((x.note (c + 24) 8).note (c + 32) 8)
    let dst := x.slid (img.vmaddr c)
    let y := tryLoop (machChunk img pml4 c dst) (chunks dst (img.vmsize c)) x.load
    (y.1, { x with load := y.2 })

/-- `LC_MAIN`. -/
def machMain (img : Image) (x : MachO) : MachO :=
  { x.note (x.cmds + 8) 8 with entry := (x.slide + img.entryoff x.cmds) % 2 ^ 64 }

/-- `LC_UNIXTHREAD`. -/
def machThread (img : Image) (x : MachO) : MachO :=
  { x.note (x.cmds + 48) 8 with
    entry := if x.fileBase ≠ 0 then x.slid (img.threadEntry x.cmds) else img.threadEntry x.cmds }

/-- `cmds += cmd->cmdsize`. -/
def nextCmd (img : Image) (x : MachO) : MachO :=
  { x.note (x.cmds + 4) 4 with cmds := (x.cmds + img.cmdsize x.cmds) % 2 ^ 64 }

/-- The loop body over the commands. -/
def machCommand (img : Image) (pml4 : ℕ) (x : MachO) : Bool × MachO :=
  let x := x.note x.cmds 4
  if img.cmd x.cmds = lcSegment64 then
    let y := machSegment img pml4 x
    if y.1 = false then y else (true, nextCmd img y.2)
  else if img.cmd x.cmds = lcMain then (true, nextCmd img (machMain img x))
  else if img.cmd x.cmds = lcUnixthread then (true, nextCmd img (machThread img x))
  else (true, nextCmd img x)

/-- The first command is behind the header of 32 bytes. -/
def machStart (s : Load) : MachO := ⟨(s.note 0 4).note 16 4, 32, 0, 0, 0⟩

def machCommands (img : Image) (s : Load) (pml4 : ℕ) : Bool × MachO :=
  tryLoop (fun _ => machCommand img pml4) (List.range img.ncmds) (machStart s)

/-- `mach_o_load_into_pml4`; 0 is `NULL`. -/
def machOLoadIntoPml4 (img : Image) (s : Load) (pml4 : ℕ) : ℕ × Load :=
  if img.magic ≠ mhMagic64 ∧ img.magic ≠ mhCigam64 then (0, s.note 0 4)
  else if pml4 = 0 then (0, s.note 0 4)
  else
    let y := machCommands img s pml4
    if y.1 = false then (0, y.2.load) else (y.2.entry, y.2.load)

/-! ### The commands of an image -/

namespace Image

variable (img : Image)

/-- Where command `i` is. -/
def cmdOff (img : Image) : ℕ → ℕ
  | 0 => 32
  | i + 1 => (cmdOff img i + img.cmdsize (cmdOff img i)) % 2 ^ 64

/-- Command `i` is a segment. -/
def IsSegment (i : ℕ) : Prop := i < img.ncmds ∧ img.cmd (img.cmdOff i) = lcSegment64

/-- Command `i` is a segment with a part of the file. -/
def IsLoaded (i : ℕ) : Prop := img.IsSegment i ∧ img.filesize (img.cmdOff i) ≠ 0

end Image

/-- Before command `i`. -/
structure MachO.At (img : Image) (x : MachO) (i : ℕ) : Prop where
  cmds : x.cmds = img.cmdOff i
  slide : x.slide = x.fileBase
  low : x.fileBase < 2 ^ 64

/-- **A segment goes where its command says.** -/
theorem MachO.dst_eq {x : MachO} (h : x.slide = x.fileBase) (hl : x.fileBase < 2 ^ 64) {a : ℕ}
    (ha : a < 2 ^ 64) : x.slid a = a := by
  rw [slid, h]
  omega

theorem Image.field_lt (img : Image) (off : ℕ) : img.field off 8 < 2 ^ 64 := Mem.load_lt _ 8 off

section Commands

variable {img : Image} {pml4 i : ℕ} {x : MachO}

theorem MachO.At.note (h : x.At img i) (off n : ℕ) : (x.note off n).At img i :=
  ⟨h.cmds, h.slide, h.low⟩

theorem MachO.At.next (h : x.At img i) : (nextCmd img x).At img (i + 1) :=
  ⟨by rw [Image.cmdOff, ← h.cmds]; rfl, h.slide, h.low⟩

theorem setBase_spec (h : x.At img i) : (setBase img x).load = x.load ∧ (setBase img x).At img i := by
  unfold setBase
  split
  · exact ⟨rfl, h.cmds, rfl, img.field_lt _⟩
  · exact ⟨rfl, h⟩

/-- What the segment at `c` does to memory. -/
def loadSegment (img : Image) (pml4 c : ℕ) (s : Load) : Bool × Load :=
  tryLoop (machChunk img pml4 c (img.vmaddr c)) (chunks (img.vmaddr c) (img.vmsize c)) s

/-- The fields of the segment at `c` that are read before its chunks. -/
def noteSegment (c : ℕ) (s : Load) : Load := ((s.note (c + 48) 8).note (c + 24) 8).note (c + 32) 8

/-- `x` when the chunks of its segment come to be loaded. -/
def MachO.based (img : Image) (x : MachO) : MachO :=
  setBase img (((x.note (x.cmds + 48) 8).note (x.cmds + 24) 8).note (x.cmds + 32) 8)

theorem MachO.At.based (h : x.At img i) :
    (x.based img).load = noteSegment x.cmds x.load ∧ (x.based img).At img i :=
  setBase_spec (((h.note (x.cmds + 48) 8).note (x.cmds + 24) 8).note (x.cmds + 32) 8)

theorem machSegment_loop (pml4 : ℕ) (hf : img.filesize x.cmds ≠ 0) : ∃ y : Bool × Load,
    y = tryLoop (machChunk img pml4 x.cmds ((x.based img).slid (img.vmaddr x.cmds)))
      (chunks ((x.based img).slid (img.vmaddr x.cmds)) (img.vmsize x.cmds)) (x.based img).load ∧
    machSegment img pml4 x = (y.1, { x.based img with load := y.2 }) := by
  refine ⟨_, rfl, ?_⟩
  unfold machSegment
  rw [if_neg (show ¬ img.filesize x.cmds = 0 from hf)]
  rfl

theorem machSegment_eq (h : x.At img i) (hf : img.filesize x.cmds ≠ 0) :
    machSegment img pml4 x =
      ((loadSegment img pml4 x.cmds (noteSegment x.cmds x.load)).1,
        { x.based img with load := (loadSegment img pml4 x.cmds (noteSegment x.cmds x.load)).2 }) := by
  have ha : img.vmaddr x.cmds < 2 ^ 64 := img.field_lt _
  obtain ⟨hload, hat⟩ := h.based
  have hdst := MachO.dst_eq hat.slide hat.low ha
  obtain ⟨y, hy, he⟩ := machSegment_loop pml4 hf
  rw [hdst, hload] at hy
  rw [he, hy, loadSegment]

theorem machSegment_nil (hf : img.filesize x.cmds = 0) :
    machSegment img pml4 x = (true, x.note (x.cmds + 48) 8) := by
  unfold machSegment
  rw [if_pos (show img.filesize x.cmds = 0 from hf)]

/-- The same state, but for what was read and the entry. -/
structure MachO.Same (x y : MachO) : Prop where
  phys : y.load.phys = x.load.phys
  blocks : y.load.blocks = x.load.blocks
  cmds : y.cmds = x.cmds

/-- **What a command does that does not fail**: it loads a segment, or nothing. -/
theorem machCommand_cases (h : x.At img i) (hok : (machCommand img pml4 x).1) :
    (∃ y, (machCommand img pml4 x).2 = nextCmd img y ∧ y.At img i ∧ x.Same y ∧
      (img.cmd x.cmds = lcSegment64 → img.filesize x.cmds = 0)) ∨
    (∃ y t, (machCommand img pml4 x).2 = nextCmd img y ∧ y.At img i ∧
      t.phys = x.load.phys ∧ t.blocks = x.load.blocks ∧ (loadSegment img pml4 x.cmds t).1 ∧
      y.load = (loadSegment img pml4 x.cmds t).2 ∧
      img.cmd x.cmds = lcSegment64 ∧ img.filesize x.cmds ≠ 0) := by
  have h1 := h.note x.cmds 4
  unfold machCommand at hok ⊢
  generalize hx1 : x.note x.cmds 4 = x1 at h1 hok ⊢
  have hcmds : x1.cmds = x.cmds := by rw [← hx1]; rfl
  have hphys : x1.load.phys = x.load.phys := by rw [← hx1]; rfl
  have hblocks : x1.load.blocks = x.load.blocks := by rw [← hx1]; rfl
  dsimp only at hok ⊢
  by_cases hseg : img.cmd x.cmds = lcSegment64
  · rw [if_pos (show img.cmd x1.cmds = lcSegment64 by rw [hcmds]; exact hseg)] at hok ⊢
    by_cases hf : img.filesize x1.cmds = 0
    · rw [machSegment_nil hf, if_neg Bool.noConfusion]
      exact .inl ⟨x1.note (x1.cmds + 48) 8, rfl, h1.note _ _, ⟨hphys, hblocks, hcmds⟩,
        fun _ => hcmds ▸ hf⟩
    have heq : machSegment img pml4 x1 = _ := machSegment_eq h1 hf
    generalize hr : loadSegment img pml4 x1.cmds (noteSegment x1.cmds x1.load) = r at heq
    rw [heq] at hok ⊢
    obtain ⟨ok, l⟩ := r
    cases ok with
    | false => cases hok
    | true =>
      rw [if_neg Bool.noConfusion]
      obtain ⟨-, hat⟩ := h1.based
      refine .inr ⟨{ x1.based img with load := l }, noteSegment x1.cmds x1.load, rfl,
        ⟨hat.cmds, hat.slide, hat.low⟩, hphys, hblocks, ?_⟩
      rw [← hcmds, hr]
      exact ⟨rfl, rfl, hcmds ▸ hseg, hf⟩
  · have hno : img.cmd x.cmds = lcSegment64 → img.filesize x.cmds = 0 := fun hx => absurd hx hseg
    rw [if_neg (show ¬ img.cmd x1.cmds = lcSegment64 by rw [hcmds]; exact hseg)]
    refine .inl ?_
    split
    · exact ⟨machMain img x1, rfl, ⟨h1.cmds, h1.slide, h1.low⟩, ⟨hphys, hblocks, hcmds⟩, hno⟩
    · split
      · exact ⟨machThread img x1, rfl, ⟨h1.cmds, h1.slide, h1.low⟩, ⟨hphys, hblocks, hcmds⟩, hno⟩
      · exact ⟨x1, rfl, h1, ⟨hphys, hblocks, hcmds⟩, hno⟩

theorem machOLoadIntoPml4_ok {s : Load} (hok : (machOLoadIntoPml4 img s pml4).1 ≠ 0) :
    (machCommands img s pml4).1 ∧
      (machOLoadIntoPml4 img s pml4).2 = (machCommands img s pml4).2.load := by
  unfold machOLoadIntoPml4 at hok ⊢
  generalize machCommands img s pml4 = y at hok ⊢
  split at hok
  · exact absurd rfl hok
  next h1 =>
  split at hok
  · exact absurd rfl hok
  next h2 =>
  rw [if_neg h1, if_neg h2]
  obtain ⟨_ | _, y⟩ := y
  · exact absurd rfl hok
  · exact ⟨rfl, rfl⟩

end Commands

end TipOS.Loader
