import TipOS.Loader.Load

/-!
# The ELF loader

`elf64.zig`.  `elf64_load_into_pml4` goes through the program headers.  A `PT_LOAD` segment is cut
into chunks of 2 MB.  A chunk that was mapped before is found in `mapped`, which has the number of
the chunk in the upper and the address of its block in the lower 32 bits of an entry; another
chunk gets a block, which is zeroed, mapped and entered.  Then the part of the file that falls in the
chunk is copied.

The kernel is built with `ReleaseSmall`: sums wrap, `i * e_phentsize` at 16 bits.
-/

namespace TipOS.Loader

open Lib Paging

/-! ### Headers -/

def ptLoad : ℕ := 1
def ptInterp : ℕ := 3
def emX8664 : ℕ := 62
def etExec : ℕ := 2
def etDyn : ℕ := 3
def pieBase : ℕ := 0x40000000

/-- `@sizeOf(Elf64_Ehdr)` and `@sizeOf(Elf64_Phdr)`. -/
def ehdrSize : ℕ := 64
def phdrSize : ℕ := 56

namespace Image

variable (img : Image)

def isElf64 : Bool :=
  img.byte 0 = 0x7F ∧ img.byte 1 = 0x45 ∧ img.byte 2 = 0x4C ∧ img.byte 3 = 0x46

def eType : ℕ := img.field 16 2
def eMachine : ℕ := img.field 18 2
def eEntry : ℕ := img.field 24 8
def ePhoff : ℕ := img.field 32 8
def ePhentsize : ℕ := img.field 54 2
def ePhnum : ℕ := img.field 56 2

/-- `ehdr.e_phoff + i * ehdr.e_phentsize`, the product of two `u16`. -/
def phdrOff (i : ℕ) : ℕ := (img.ePhoff + i * img.ePhentsize % 2 ^ 16) % 2 ^ 64

/-- `phdr_off + @sizeOf(Elf64_Phdr) <= len`. -/
def phdrFits (off : ℕ) : Bool := (off + phdrSize) % 2 ^ 64 ≤ img.len

def pType (off : ℕ) : ℕ := img.field off 4
def pOffset (off : ℕ) : ℕ := img.field (off + 8) 8
def pVaddr (off : ℕ) : ℕ := img.field (off + 16) 8
def pFilesz (off : ℕ) : ℕ := img.field (off + 32) 8
def pMemsz (off : ℕ) : ℕ := img.field (off + 40) 8

end Image

/-- A `PT_LOAD` segment: where it goes, and its part of the file. -/
structure Segment where
  dst : ℕ
  offset : ℕ
  filesz : ℕ
  memsz : ℕ
deriving DecidableEq

/-- The segment of the program header at `off`. -/
def Image.segment (img : Image) (base off : ℕ) : Segment where
  dst := (base + img.pVaddr off) % 2 ^ 64
  offset := img.pOffset off
  filesz := img.pFilesz off
  memsz := img.pMemsz off

namespace Segment

variable (g : Segment)

def chunks : List ℕ := Loader.chunks g.dst g.memsz

/-- `dst_off`, `chunk_off` and `n` in the chunk `va`. -/
def dstOff (va : ℕ) : ℕ := if g.dst > va then g.dst - va else 0
def chunkOff (va : ℕ) : ℕ := if g.dst > va then 0 else va - g.dst
def copied (va : ℕ) : ℕ := min (g.filesz - g.chunkOff va) (0x200000 - g.dstOff va)

end Segment

/-! ### Chunks -/

/-- The first entry of `mapped` with the tag. -/
def findMapped (mapped : List ℕ) (tag : ℕ) : Option ℕ :=
  (mapped.find? fun e => e / 2 ^ 32 = tag).map (· % 2 ^ 32)

/-- `(tag << 32) | (raw & 0xFFFF_FFFF)`. -/
def mappedEntry (tag raw : ℕ) : ℕ := tag * 2 ^ 32 % 2 ^ 64 ||| raw % 2 ^ 32

/-- The part of the file that falls in the chunk `va`, which is at `p`. -/
def copyChunk (img : Image) (g : Segment) (va p : ℕ) (s : Load) : Load :=
  if g.chunkOff va < g.filesz then
    s.copyIn img (p + g.dstOff va) ((g.offset + g.chunkOff va) % 2 ^ 64) (g.copied va)
  else s

/-- A chunk that is not mapped yet: its block is entered in `mapped`. -/
def newChunk (pml4 va : ℕ) (s : Load) : Option ℕ × Load :=
  match s.mapBlock map2mbEnsure pml4 va with
  | (none, s) => (none, s)
  | (some raw, s) => (some raw, { s with mapped := s.mapped ++ [mappedEntry (va / 2 ^ 21) raw] })

/-- The loop body over the chunks; a block at 0 would be taken for none. -/
def loadChunk (img : Image) (pml4 : ℕ) (g : Segment) (va : ℕ) (s : Load) : Bool × Load :=
  match (findMapped s.mapped (va / 2 ^ 21)).filter (· ≠ 0) with
  | some p => (true, copyChunk img g va p s)
  | none =>
    match newChunk pml4 va s with
    | (none, s) => (false, s)
    | (some p, s) => (true, copyChunk img g va p s)

/-! ### `elf64_load_into_pml4` -/

/-- The loop body over the program headers. -/
def loadPhdr (img : Image) (pml4 base i : ℕ) (s : Load) : Bool × Load :=
  let off := img.phdrOff i
  if img.phdrFits off = false then (false, s)
  else
    let s := s.note off phdrSize
    if img.pType off ≠ ptLoad then (true, s)
    else tryLoop (loadChunk img pml4 (img.segment base off)) (img.segment base off).chunks s

def loadPhdrs (img : Image) (pml4 base : ℕ) (s : Load) : Bool × Load :=
  tryLoop (loadPhdr img pml4 base) (List.range img.ePhnum) { s with mapped := [] }

/-- `elf64_load_into_pml4`; 0 is null. -/
def elf64LoadIntoPml4 (img : Image) (s : Load) (pml4 : ℕ) : ℕ × Load :=
  if img.len < ehdrSize then (0, s)
  else
    let s := s.note 0 ehdrSize
    if img.isElf64 = false then (0, s)
    else if img.eMachine ≠ emX8664 then (0, s)
    else if img.eType ≠ etExec ∧ img.eType ≠ etDyn then (0, s)
    else if img.ePhentsize ≠ phdrSize then (0, s)
    else if img.ePhnum = 0 then (0, s)
    else
      let base := if img.eType = etDyn then pieBase else 0
      let x := loadPhdrs img pml4 base s
      if x.1 = false then (0, x.2)
      else (if img.eType = etDyn then (base + img.eEntry) % 2 ^ 64 else img.eEntry, x.2)

/-! ### `elf64_load_at`

It has its own copy of the loops.  `elf64LoadAt_eq` relates the two, chunk by chunk and header by
header. -/

/-- The loop over `mapped`; 0 is null. -/
def atScan (tag : ℕ) : List ℕ → ℕ
  | [] => 0
  | e :: mapped => if e / 2 ^ 32 = tag then e % 2 ^ 32 else atScan tag mapped

/-- `p` for the chunk `va`: what `mapped` has, or a new block. -/
def atBlock (pml4 va : ℕ) (s : Load) : Option ℕ × Load :=
  let tag := va / 2 ^ 21
  let phys := atScan tag s.mapped
  if phys ≠ 0 then (some phys, s)
  else
    match s.takeBlock with
    | (none, s) => (none, s)
    | (some raw, s) =>
      let x := map2mbEnsure s.phys pml4 va raw
      if x.1 < 0 then (none, { s with phys := x.2 })
      else
        (some raw, { { s with phys := x.2 }.setMem (x.2.mem.fill raw 0x200000 0) with
          mapped := s.mapped ++ [mappedEntry tag raw] })

/-- The loop body over the chunks of the segment whose header is at `off`. -/
def atChunk (img : Image) (pml4 dst off va : ℕ) (s : Load) : Bool × Load :=
  match atBlock pml4 va s with
  | (none, s) => (false, s)
  | (some p, s) =>
    let dstOff := if dst > va then dst - va else 0
    let chunkOff := if dst > va then 0 else va - dst
    if chunkOff < img.pFilesz off then
      let n := min (img.pFilesz off - chunkOff) (0x200000 - dstOff)
      (true, s.copyIn img (p + dstOff) ((img.pOffset off + chunkOff) % 2 ^ 64) n)
    else (true, s)

/-- The loop over the chunks from `va` on, with the number of turns that are left. -/
def atChunks (img : Image) (pml4 dst off stop : ℕ) : ℕ → ℕ → Load → Bool × Load
  | 0, _, s => (true, s)
  | n + 1, va, s =>
    if va < stop then
      let x := atChunk img pml4 dst off va s
      if x.1 = true then atChunks img pml4 dst off stop n (va + 0x200000) x.2 else x
    else (true, s)

/-- The loop over the program headers from `i` on, with the number of those that are left. -/
def atPhdrs (img : Image) (pml4 base : ℕ) : ℕ → ℕ → Load → Bool × Load
  | 0, _, s => (true, s)
  | n + 1, i, s =>
    let off := img.phdrOff i
    if img.phdrFits off = false then (false, s)
    else
      let s := s.note off phdrSize
      if img.pType off ≠ ptLoad then atPhdrs img pml4 base n (i + 1) s
      else
        let dst := (base + img.pVaddr off) % 2 ^ 64
        let stop := alignedEnd ((dst + img.pMemsz off) % 2 ^ 64)
        let va := hugeDown dst
        let x := atChunks img pml4 dst off stop ((stop - va) / 2 ^ 21) va s
        if x.1 = true then atPhdrs img pml4 base n (i + 1) x.2 else x

def elf64LoadAt (img : Image) (s : Load) (pml4 forceBase : ℕ) : ℕ × Load :=
  if img.len < ehdrSize then (0, s)
  else
    let s := s.note 0 ehdrSize
    if img.isElf64 = false then (0, s)
    else if img.eMachine ≠ emX8664 then (0, s)
    else if img.eType ≠ etExec ∧ img.eType ≠ etDyn then (0, s)
    else
      let x := atPhdrs img pml4 forceBase img.ePhnum 0 { s with mapped := [] }
      if x.1 = false then (0, x.2) else ((forceBase + img.eEntry) % 2 ^ 64, x.2)

section LoadAt

variable (img : Image) (pml4 base : ℕ)

theorem atScan_eq (tag : ℕ) (mapped : List ℕ) : (findMapped mapped tag).filter (· ≠ 0) =
    if atScan tag mapped ≠ 0 then some (atScan tag mapped) else none := by
  induction mapped with
  | nil => rfl
  | cons e mapped ih =>
    rw [findMapped, List.find?_cons, atScan]
    by_cases he : e / 2 ^ 32 = tag
    · rw [if_pos he, decide_eq_true he]
      dsimp only
      rw [Option.map_some, Option.filter_some]
      simp only [decide_eq_true_eq]
    · rw [if_neg he, decide_eq_false he]
      exact ih

theorem atBlock_new {va : ℕ} {s : Load} (h : atScan (va / 2 ^ 21) s.mapped = 0) :
    atBlock pml4 va s = newChunk pml4 va s := by
  rw [atBlock, newChunk, Load.mapBlock]
  dsimp only
  rw [if_neg (not_not.mpr h)]
  obtain ⟨raw, t⟩ := s.takeBlock
  cases raw with
  | none => rfl
  | some raw =>
    dsimp only
    split
    · rfl
    · rfl

/-- **The bodies of the loops over the chunks.** -/
theorem atChunk_eq (off va : ℕ) (s : Load) :
    atChunk img pml4 (img.segment base off).dst off va s =
      loadChunk img pml4 (img.segment base off) va s := by
  rw [loadChunk, atScan_eq, atChunk]
  have hcopy : ∀ p t, (true, copyChunk img (img.segment base off) va p t) = _ := fun p t =>
    apply_ite (Prod.mk true) _ _ _
  simp only [hcopy]
  by_cases h : atScan (va / 2 ^ 21) s.mapped = 0
  · rw [if_neg (not_not.mpr h), atBlock_new pml4 h]
    rfl
  · rw [if_pos h, atBlock, if_pos h]
    rfl

/-- **The loops over the chunks.** -/
theorem atChunks_eq (off stop n : ℕ) : ∀ (va : ℕ) (s : Load), n * 2 ^ 21 ≤ stop - va →
    atChunks img pml4 (img.segment base off).dst off stop n va s =
      tryLoop (loadChunk img pml4 (img.segment base off))
        ((List.range n).map fun k => va + k * 2 ^ 21) s := by
  induction n with
  | zero =>
    intro va s _
    rw [atChunks, List.range_zero, List.map_nil, tryLoop]
  | succ n ih =>
    intro va s hle
    have h21 : 0x200000 = 2 ^ 21 := by norm_num
    have hnext : (fun k => va + k * 2 ^ 21) ∘ Nat.succ = fun k => va + 0x200000 + k * 2 ^ 21 := by
      funext k
      rw [Function.comp_apply, Nat.succ_mul, h21, Nat.add_assoc, Nat.add_comm (2 ^ 21)]
    rw [Nat.succ_mul, ← h21] at hle
    have hrest : n * 2 ^ 21 ≤ stop - (va + 0x200000) := by
      rw [← h21, ← Nat.sub_sub]
      exact Nat.le_sub_of_add_le hle
    have hlt : va < stop := by omega
    rw [atChunks, if_pos hlt, List.range_succ_eq_map, List.map_cons, List.map_map, tryLoop,
      hnext, Nat.zero_mul, va.add_zero, ← ih _ _ hrest, atChunk_eq]

/-- **The loops over the program headers.** -/
theorem atPhdrs_eq (n : ℕ) : ∀ (i : ℕ) (s : Load), atPhdrs img pml4 base n i s =
    tryLoop (loadPhdr img pml4 base) (List.range' i n) s := by
  induction n with
  | zero =>
    intro i s
    rw [atPhdrs, List.range'_zero, tryLoop]
  | succ n ih =>
    intro i s
    rw [atPhdrs, List.range'_succ, tryLoop, loadPhdr]
    dsimp only
    by_cases hfit : img.phdrFits (img.phdrOff i) = false
    · rw [if_pos hfit, if_pos hfit]
      rfl
    rw [if_neg hfit, if_neg hfit]
    by_cases hload : img.pType (img.phdrOff i) ≠ ptLoad
    · rw [if_pos hload, if_pos hload, ih]
      rfl
    rw [if_neg hload, if_neg hload, ← ih]
    have hchunks := atChunks_eq img pml4 base (img.phdrOff i)
      (alignedEnd (((img.segment base (img.phdrOff i)).dst + img.pMemsz (img.phdrOff i)) % 2 ^ 64))
      _ (hugeDown (img.segment base (img.phdrOff i)).dst) (s.note (img.phdrOff i) phdrSize)
      (Nat.div_mul_le_self _ _)
    rw [show (base + img.pVaddr (img.phdrOff i)) % 2 ^ 64 =
      (img.segment base (img.phdrOff i)).dst from rfl, hchunks]
    rfl

theorem elf64LoadAt_eq (s : Load) : elf64LoadAt img s pml4 base =
    if img.len < ehdrSize then (0, s)
    else
      let s := s.note 0 ehdrSize
      if img.isElf64 = false then (0, s)
      else if img.eMachine ≠ emX8664 then (0, s)
      else if img.eType ≠ etExec ∧ img.eType ≠ etDyn then (0, s)
      else
        let x := loadPhdrs img pml4 base s
        if x.1 = false then (0, x.2) else ((base + img.eEntry) % 2 ^ 64, x.2) := by
  simp only [elf64LoadAt, atPhdrs_eq, loadPhdrs, List.range_eq_range']

end LoadAt

end TipOS.Loader
