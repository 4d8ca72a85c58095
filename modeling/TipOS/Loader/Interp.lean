import TipOS.Loader.Elf

/-!
# The interpreter of a program

`elf64_find_interp` of `elf64.zig`: the path in the first `PT_INTERP` segment of an image.  The
program headers are checked against the length of the image, the bytes of the path are not.
-/

namespace TipOS.Loader

open Lib

/-- `while (j < n)` over the bytes at `off`, up to a zero. -/
def pathBytes (img : Image) (off : ℕ) : ℕ → List UInt8
  | 0 => []
  | n + 1 => if img.byte off = 0 then [] else img.byte off :: pathBytes img (off + 1) n

/-- The path at `off`: the bytes that go to `out`, and the bytes read for them. -/
def readPath (img : Image) (off n : ℕ) (s : Load) : List UInt8 × Load :=
  let path := pathBytes img off n
  (path, s.note off (min n (path.length + 1)))

/-- The loop over the program headers; nothing is -1. -/
def interpLoop (img : Image) (outMax : ℕ) : List ℕ → Load → Option (List UInt8) × Load
  | [], s => (none, s)
  | i :: is, s =>
    let off := img.phdrOff i
    if img.phdrFits off = false then (none, s)
    else
      let s := s.note off phdrSize
      if img.pType off ≠ ptInterp then interpLoop img outMax is s
      else
        let x := readPath img (img.pOffset off) (min (img.pFilesz off) (outMax - 1)) s
        (some x.1, x.2)

/-- `elf64_find_interp`: the bytes in `out` before the zero, whose number it returns. -/
def elf64FindInterp (img : Image) (outMax : ℕ) (s : Load) : Option (List UInt8) × Load :=
  if img.len < ehdrSize then (none, s)
  else
    let s := s.note 0 ehdrSize
    if img.isElf64 = false then (none, s)
    else interpLoop img outMax (List.range img.ePhnum) s

end TipOS.Loader
