import TipOS.Lib.Bytes

/-!
# The frame allocator of `memory.c`

The 64 MB heap at `HEAP_PHYS` is 16384 frames of 4 KB.  `frames[]` holds one tag byte a
frame, `free_area[o]` heads the doubly linked list of free blocks of order `o`, and the
links of a free block lie in the first 16 bytes of the block itself.

`Heap` is the whole static state of `memory.c` together with the memory it manages; this
file has its frame-level half, `Memory/Kmalloc.lean` the caches above it.  The spin lock
and the serial log are left out: one core, and the lock is free between calls.
-/

namespace TipOS.Memory

open Lib

/-! ### Constants

The source's `HEAP_PHYS`, `HEAP_SIZE`, ..., `FRAME_ORDER`. -/

def heapPhys : ℕ := 0xA00000
def heapSize : ℕ := 64 * 1024 * 1024
def frameSize : ℕ := 4096
def frameShift : ℕ := 12
def frameCount : ℕ := heapSize / frameSize
def maxOrder : ℕ := 14
def frameAlloc : ℕ := 0x80
def frameUser : ℕ := 0x40
def frameOrder : ℕ := 0x3F

/-! ### The state -/

/-- `struct kmem_cache`. -/
structure KmemCache where
  objSize : ℕ
  slabs : ℕ
  objPerSlab : ℕ
  id : ℕ

/-- The static data of `memory.c` and the physical memory.  The two per-CPU pools are
stacks: the head of the list is `pages[count - 1]`, and the length is `count`. -/
structure Heap where
  mem : Mem
  frames : ℕ → ℕ
  freeArea : ℕ → ℕ
  kmallocCaches : ℕ → KmemCache
  pcpuPages : List ℕ
  pcpuObjects : ℕ → List ℕ

namespace Heap

/-- A 64-bit store. -/
def write64 (h : Heap) (a v : ℕ) : Heap := { h with mem := h.mem.store a 8 v }

/-- `frames[idx] = tag`. -/
def setFrame (h : Heap) (idx tag : ℕ) : Heap :=
  { h with frames := Function.update h.frames idx tag }

/-- `free_area[o] = p`. -/
def setFreeArea (h : Heap) (o p : ℕ) : Heap :=
  { h with freeArea := Function.update h.freeArea o p }

/-- `blk->next` of a `free_block_t`. -/
def next (h : Heap) (blk : ℕ) : ℕ := h.mem.load blk 8

/-- `blk->prev` of a `free_block_t`. -/
def prev (h : Heap) (blk : ℕ) : ℕ := h.mem.load (blk + 8) 8

end Heap

/-- `addr_to_frame`; the subtraction wraps. -/
def addrToFrame (addr : ℕ) : ℕ := ((addr + 2 ^ 64 - heapPhys) % 2 ^ 64) >>> frameShift

/-- `frame_to_addr`. -/
def frameToAddr (idx : ℕ) : ℕ := heapPhys + idx <<< frameShift

/-! ### Free lists -/

/-- `list_add(&free_area[o], blk)`. -/
def listAdd (h : Heap) (o blk : ℕ) : Heap :=
  let h := h.write64 blk (h.freeArea o)
  let h := h.write64 (blk + 8) 0
  let h := if h.freeArea o ≠ 0 then h.write64 (h.freeArea o + 8) blk else h
  h.setFreeArea o blk

/-- The first half of `list_remove`: the node before `blk`, or the head, skips it. -/
def unlinkForward (h : Heap) (o blk : ℕ) : Heap :=
  if h.prev blk ≠ 0 then h.write64 (h.prev blk) (h.next blk) else h.setFreeArea o (h.next blk)

/-- The second half of `list_remove`: the node after `blk` skips it backwards. -/
def unlinkBackward (h : Heap) (blk : ℕ) : Heap :=
  if h.next blk ≠ 0 then h.write64 (h.next blk + 8) (h.prev blk) else h

/-- `list_remove(&free_area[o], blk)`. -/
def listRemove (h : Heap) (o blk : ℕ) : Heap := unlinkBackward (unlinkForward h o blk) blk

/-! ### `buddy_alloc` and `buddy_free` -/

/-- The splitting loop of `buddy_alloc`, from order `o` down to `order`. -/
def splitDown (h : Heap) (blockIdx order : ℕ) : ℕ → Heap
  | 0 => h
  | o + 1 =>
    if order < o + 1 then
      let buddyIdx := blockIdx ^^^ (1 <<< o)
      let h := h.setFrame buddyIdx o
      splitDown (listAdd h o (frameToAddr buddyIdx)) blockIdx order o
    else h

/-- `buddy_alloc`. -/
def buddyAlloc (h : Heap) (order : ℤ) (user : Bool) : Option ℕ × Heap :=
  if order < 0 ∨ maxOrder < order then (none, h)
  else
    let order := order.toNat
    match (List.range' order (maxOrder + 1 - order)).find? (fun o => h.freeArea o ≠ 0) with
    | none => (none, h)
    | some foundOrder =>
      let block := h.freeArea foundOrder
      let h := listRemove h foundOrder block
      let blockIdx := addrToFrame block
      let h := splitDown h blockIdx order foundOrder
      let h := h.setFrame blockIdx (order ||| frameAlloc)
      let h := if user then h.setFrame blockIdx (h.frames blockIdx ||| frameUser) else h
      (some (frameToAddr blockIdx), h)

/-- The merging loop of `buddy_free`; each turn raises `order`, so `maxOrder` turns are
enough. -/
def mergeUp : ℕ → Heap → ℕ → ℕ → Heap × ℕ × ℕ
  | 0, h, idx, order => (h, idx, order)
  | n + 1, h, idx, order =>
    if order < maxOrder then
      let buddyIdx := idx ^^^ (1 <<< order)
      if h.frames buddyIdx &&& (frameAlloc ||| frameOrder) = order then
        let h := listRemove h order (frameToAddr buddyIdx)
        let idx := if idx < buddyIdx then idx else buddyIdx
        mergeUp n (h.setFrame idx (order + 1)) idx (order + 1)
      else (h, idx, order)
    else (h, idx, order)

/-- The body of `buddy_free` below its checks, which `munmap_all_user` repeats: tag the
block free, merge it upwards, and put what comes out on its list. -/
def release (h : Heap) (idx order : ℕ) : Heap :=
  let r := mergeUp maxOrder (h.setFrame idx order) idx order
  listAdd r.1 r.2.2 (frameToAddr r.2.1)

/-- `buddy_free`. -/
def buddyFree (h : Heap) (addr : ℕ) (order : ℤ) : Heap :=
  if addr = 0 ∨ order < 0 ∨ maxOrder < order then h
  else if addr < heapPhys ∨ heapPhys + heapSize ≤ addr then h
  else if addr &&& (frameSize - 1) ≠ 0 then h
  else release h (addrToFrame addr) order.toNat

/-! ### Users of the frames -/

/-- `munmap_user`; the length is not used. -/
def munmapUser (h : Heap) (addr : ℕ) : ℤ × Heap :=
  if addr = 0 then (0, h)
  else if addr &&& (frameSize - 1) ≠ 0 then (-1, h)
  else
    let idx := addrToFrame addr
    if frameCount ≤ idx then (-1, h)
    else if h.frames idx &&& frameAlloc = 0 then (0, h)
    else
      let order := h.frames idx &&& frameOrder
      (0, buddyFree h addr order)

/-- The loop of `munmap_all_user` from frame `i` on; each turn moves `i` forward. -/
def munmapAllFrom : ℕ → Heap → ℕ → Heap
  | 0, h, _ => h
  | n + 1, h, i =>
    if i < frameCount then
      let f := h.frames i
      if f &&& (frameAlloc ||| frameUser) = frameAlloc ||| frameUser then
        let order := f &&& frameOrder
        munmapAllFrom n (release h i order) (i + 1 <<< order)
      else munmapAllFrom n h (i + 1)
    else h

/-- `munmap_all_user`. -/
def munmapAllUser (h : Heap) : Heap := munmapAllFrom frameCount h 0

/-- The object sizes of the eight `kmalloc` caches. -/
def cacheSizes : List ℕ := [16, 32, 64, 128, 256, 512, 1024, 2048]

/-- `sizeof(slab_t)`: `magic` at 0, `in_use` at 4, `total` at 8, `freelist` at 16, `next`
at 24, `prev` at 32, `cache` at 40. -/
def slabHeaderSize : ℕ := 48

/-- `memory_init`, on whatever the memory held before. -/
def memoryInit (h : Heap) : Heap :=
  let h := { h with freeArea := fun _ => 0, frames := fun _ => 0 }
  let h := h.write64 heapPhys 0
  let h := h.write64 (heapPhys + 8) 0
  let h := h.setFreeArea maxOrder heapPhys
  let h := h.setFrame 0 maxOrder
  { h with
    kmallocCaches := fun i =>
      { objSize := cacheSizes.getD i 0
        slabs := 0
        objPerSlab := (frameSize - slabHeaderSize) / cacheSizes.getD i 0
        id := i }
    pcpuPages := []
    pcpuObjects := fun _ => [] }

end TipOS.Memory
