import TipOS.Paging.HugePage

/-!
# Loading an image

What the loaders of `elf64.zig` and `mach_o.c` have in common: the image in its buffer, the 2 MB
blocks they ask the allocator for, and the chunks of a segment.

The buffer of an image was allocated before, so no block lies in it, and the image is apart from
the memory that is written.  Its bytes beyond `len` are whatever stands after the buffer.  A state
keeps the ranges of the image that were read.
-/

namespace TipOS.Loader

open Lib Paging

/-! ### Images -/

/-- A buffer of `len` bytes, and what can be read from its address on. -/
structure Image where
  bytes : ℕ → UInt8
  len : ℕ

namespace Image

/-- `data[off]`; an address has 64 bits. -/
def byte (img : Image) (off : ℕ) : UInt8 := img.bytes (off % 2 ^ 64)

/-- The field of `n` bytes at `off`. -/
def field (img : Image) (off n : ℕ) : ℕ := Mem.load img.byte off n

/-- A range of the image, given by its offset and length, is in the buffer. -/
def Inside (img : Image) (r : ℕ × ℕ) : Prop := ∀ j < r.2, (r.1 + j) % 2 ^ 64 < img.len

end Image

/-! ### The state of a loader -/

/-- Memory, the 2 MB blocks that the allocator will return, the table `mapped` of the ELF loader
and the ranges of the image that were read. -/
structure Load where
  phys : Phys
  blocks : List ℕ
  mapped : List ℕ
  reads : List (ℕ × ℕ)

namespace Load

def note (s : Load) (off n : ℕ) : Load := { s with reads := s.reads ++ [(off, n)] }

def setMem (s : Load) (m : Mem) : Load := { s with phys := { s.phys with mem := m } }

/-- `mmap_user(0, 0x200000, 3, 0)`: the block is zeroed. -/
def takeBlock (s : Load) : Option ℕ × Load :=
  match s.blocks with
  | [] => (none, { s with phys := { s.phys with oom := true } })
  | b :: t => (some b, { s with blocks := t }.setMem (s.phys.mem.fill b 0x200000 0))

/-- A block for the chunk `va`, mapped by `map` and zeroed once more. -/
def mapBlock (s : Load) (map : Phys → ℕ → ℕ → ℕ → ℤ × Phys) (pml4 va : ℕ) : Option ℕ × Load :=
  match s.takeBlock with
  | (none, s) => (none, s)
  | (some b, s) =>
    let x := map s.phys pml4 va b
    if x.1 < 0 then (none, { s with phys := x.2 })
    else (some b, { s with phys := x.2 }.setMem (x.2.mem.fill b 0x200000 0))

/-- `for (j = 0; j < n; j++) dst[j] = data[off + j]`. -/
def copyIn (s : Load) (img : Image) (dst off n : ℕ) : Load :=
  (s.note off n).setMem (s.phys.mem.blit dst n fun j => img.byte (off + j))

end Load

/-! ### Chunks -/

/-- `(x + 0x1FFFFF) & ~0x1FFFFF`. -/
def alignedEnd (x : ℕ) : ℕ := hugeDown ((x + 0x1FFFFF) % 2 ^ 64)

/-- `for (va = start & ~0x1FFFFF; va < aligned_end; va += 0x200000)` for the range of `size` bytes
at `start`.  The end is a multiple of 2 MB, so `va` does not wrap before it. -/
def chunks (start size : ℕ) : List ℕ :=
  (List.range ((alignedEnd ((start + size) % 2 ^ 64) - hugeDown start) / 2 ^ 21)).map
    fun k => hugeDown start + k * 2 ^ 21

theorem mem_chunks {start size va : ℕ} : va ∈ chunks start size ↔
    va % 2 ^ 21 = 0 ∧ hugeDown start ≤ va ∧ va < alignedEnd ((start + size) % 2 ^ 64) := by
  simp only [chunks, List.mem_map, List.mem_range, alignedEnd, hugeDown]
  constructor
  · rintro ⟨k, hk, rfl⟩
    omega
  · rintro ⟨h0, h1, h2⟩
    exact ⟨(va - start / 2 ^ 21 * 2 ^ 21) / 2 ^ 21, by omega, by omega⟩

theorem hugeDown_mem_chunks {start size va : ℕ} (h : start + size + 2 ^ 21 ≤ 2 ^ 64)
    (h1 : start ≤ va) (h2 : va < start + size) : hugeDown va ∈ chunks start size := by
  have e1 : (start + size) % 2 ^ 64 = start + size := Nat.mod_eq_of_lt (by omega)
  have e2 : (start + size + 0x1FFFFF) % 2 ^ 64 = start + size + 0x1FFFFF :=
    Nat.mod_eq_of_lt (by omega)
  rw [mem_chunks, alignedEnd, e1, e2, hugeDown, hugeDown, hugeDown]
  omega

end TipOS.Loader
