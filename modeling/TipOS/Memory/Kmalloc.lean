import TipOS.Memory.Buddy

/-!
# `kmalloc`, `kfree` and `mmap_user`

The layers of `memory.c` above the frames: slabs of equal objects threaded into eight
caches, a per-CPU stack of free objects for each cache, and a per-CPU stack of single
pages.  A slab is one page; its header lies in its first 48 bytes and the objects follow.

A `kmem_cache_t *` is the address of an entry of `kmalloc_caches`, a static array.  The
model writes `i + 1` for the address of entry `i`, and 0 for `NULL`.
-/

namespace TipOS.Memory

open Lib

def slabMagic : ℕ := 0x534C4142
def cacheCount : ℕ := 8
def pcpuPagePool : ℕ := 32
def pcpuObjCache : ℕ := 16
def pcpuObjRefill : ℕ := 8

/-! ### Fields of a slab -/

namespace Heap

/-- A 32-bit store. -/
def write32 (h : Heap) (a v : ℕ) : Heap := { h with mem := h.mem.store a 4 v }

/-- A 16-bit store. -/
def write16 (h : Heap) (a v : ℕ) : Heap := { h with mem := h.mem.store a 2 v }

def magic (h : Heap) (s : ℕ) : ℕ := h.mem.load s 4
def inUse (h : Heap) (s : ℕ) : ℕ := h.mem.load (s + 4) 4
def freelist (h : Heap) (s : ℕ) : ℕ := h.mem.load (s + 16) 8
def slabNext (h : Heap) (s : ℕ) : ℕ := h.mem.load (s + 24) 8
def slabPrev (h : Heap) (s : ℕ) : ℕ := h.mem.load (s + 32) 8
def cache (h : Heap) (s : ℕ) : ℕ := h.mem.load (s + 40) 8

/-- `kmalloc_caches[i].slabs = s`. -/
def setSlabs (h : Heap) (i s : ℕ) : Heap :=
  { h with kmallocCaches := Function.update h.kmallocCaches i { h.kmallocCaches i with slabs := s } }

/-- The per-CPU objects of cache `id` become `l`. -/
def setObjects (h : Heap) (id : ℕ) (l : List ℕ) : Heap :=
  { h with pcpuObjects := Function.update h.pcpuObjects id l }

/-- The per-CPU pages become `l`. -/
def setPages (h : Heap) (l : List ℕ) : Heap := { h with pcpuPages := l }

end Heap

/-- `p & ~(FRAME_SIZE - 1)`: the mask is an `unsigned int`, so it has 32 bits. -/
def pageBase (p : ℕ) : ℕ := p &&& 0xFFFFF000

/-! ### Slabs -/

/-- `obj = s->freelist; s->freelist = *(void **)obj`. -/
def takeFree (h : Heap) (s : ℕ) : ℕ × Heap :=
  let obj := h.freelist s
  (obj, h.write64 (s + 16) (h.next obj))

/-- The search of `slab_alloc` for a slab with a free object. -/
def findSlab (h : Heap) : ℕ → ℕ → ℕ
  | 0, _ => 0
  | n + 1, s => if s = 0 then 0 else if h.freelist s ≠ 0 then s else findSlab h n (h.slabNext s)

/-- The loop of `slab_alloc` that threads the objects of a new slab. -/
def carve (size stop : ℕ) : ℕ → Heap → ℕ → ℕ → ℕ → Heap × ℕ × ℕ
  | 0, h, _, head, count => (h, head, count)
  | n + 1, h, data, head, count =>
    if data + size ≤ stop then carve size stop n (h.write64 data head) (data + size) data (count + 1)
    else (h, head, count)

/-- The header of a new slab `s` of cache `i`, which goes in front of the cache's slabs. -/
def initHeader (h : Heap) (i s : ℕ) : Heap :=
  let slabs := (h.kmallocCaches i).slabs
  let h := h.write32 s slabMagic
  let h := h.write32 (s + 4) 0
  let h := h.write16 (s + 8) (h.kmallocCaches i).objPerSlab
  let h := h.write64 (s + 40) (i + 1)
  let h := h.write64 (s + 24) slabs
  let h := h.write64 (s + 32) 0
  let h := if slabs ≠ 0 then h.write64 (slabs + 32) s else h
  h.setSlabs i s

/-- A new slab of cache `i` in the page `s`, with all its objects free. -/
def newSlab (h : Heap) (i s : ℕ) : Heap :=
  let h := initHeader h i s
  let size := (h.kmallocCaches i).objSize
  let c := carve size (s + frameSize) frameSize h (s + slabHeaderSize) 0 0
  let h := c.1.write64 (s + 16) c.2.1
  h.write16 (s + 8) c.2.2

/-- `slab_alloc(&kmalloc_caches[i])`. -/
def slabAlloc (h : Heap) (i : ℕ) : Option ℕ × Heap :=
  let s := findSlab h (frameCount + 1) (h.kmallocCaches i).slabs
  if s ≠ 0 then
    let r := takeFree h s
    (some r.1, r.2.write32 (s + 4) (r.2.inUse s + 1))
  else
    match buddyAlloc h 0 false with
    | (none, h) => (none, h)
    | (some s, h) =>
      let h := newSlab h i s
      let r := takeFree h s
      (some r.1, r.2.write32 (s + 4) 1)

/-- Subtracting one in 32 bits. -/
def pred32 (v : ℕ) : ℕ := (v + 2 ^ 32 - 1) % 2 ^ 32

/-- `*(void **)ptr = s->freelist; s->freelist = ptr; s->in_use--`. -/
def giveBack (h : Heap) (ptr s : ℕ) : Heap :=
  let h := h.write64 ptr (h.freelist s)
  let h := h.write64 (s + 16) ptr
  h.write32 (s + 4) (pred32 (h.inUse s))

/-- The first half of unlinking: the slab after `s`. -/
def detachBackward (h : Heap) (s : ℕ) : Heap :=
  if h.slabNext s ≠ 0 then h.write64 (h.slabNext s + 32) (h.slabPrev s) else h

/-- The second half of unlinking: the slab before `s`, or the cache. -/
def detachForward (h : Heap) (s cache : ℕ) : Heap :=
  if h.slabPrev s ≠ 0 then h.write64 (h.slabPrev s + 24) (h.slabNext s)
  else if cache ≠ 0 then h.setSlabs (cache - 1) (h.slabNext s) else h

/-- What happens to a slab whose last object came back. -/
def detach (h : Heap) (s cache : ℕ) : Heap :=
  buddyFree (detachForward (detachBackward h s) s cache) s 0

/-- `slab_free`. -/
def slabFree (h : Heap) (ptr : ℕ) : Heap :=
  if ptr = 0 then h
  else
    let s := pageBase ptr
    if h.magic s ≠ slabMagic then h
    else
      let h := giveBack h ptr s
      if h.inUse s = 0 then detach h s (h.cache s) else h

/-! ### The per-CPU pools -/

/-- `pcpu_page_alloc`. -/
def pcpuPageAlloc (h : Heap) : Option ℕ × Heap :=
  match h.pcpuPages with
  | p :: rest => (some p, h.setPages rest)
  | [] => buddyAlloc h 0 false

/-- `pcpu_page_free`. -/
def pcpuPageFree (h : Heap) (p : ℕ) : Heap :=
  if h.pcpuPages.length < pcpuPagePool then h.setPages (p :: h.pcpuPages) else buddyFree h p 0

/-- The refill loop of `pcpu_slab_alloc`. -/
def refill : ℕ → Heap → ℕ → ℕ → Heap
  | 0, h, _, _ => h
  | want + 1, h, id, s =>
    if h.freelist s ≠ 0 then
      let r := takeFree h s
      let h := r.2.write32 (s + 4) (r.2.inUse s + 1)
      if (h.pcpuObjects id).length < pcpuObjCache then
        refill want (h.setObjects id (r.1 :: h.pcpuObjects id)) id s
      else h
    else h

/-- `pcpu_slab_alloc(&kmalloc_caches[i])`. -/
def pcpuSlabAlloc (h : Heap) (i : ℕ) : Option ℕ × Heap :=
  let id := (h.kmallocCaches i).id
  match h.pcpuObjects id with
  | obj :: rest => (some obj, h.setObjects id rest)
  | [] =>
    match slabAlloc h i with
    | (none, h) => (none, h)
    | (some obj, h) => (some obj, refill pcpuObjRefill h id (pageBase obj))

/-- The drain loop of `pcpu_slab_free`; it ends when the stack is empty. -/
def drain : ℕ → Heap → ℕ → Heap
  | 0, h, _ => h
  | n + 1, h, id =>
    match h.pcpuObjects id with
    | [] => h
    | obj :: rest =>
      let h := h.setObjects id rest
      let os := pageBase obj
      let h := giveBack h obj os
      let h := if h.inUse os = 0 then detach h os (h.cache os) else h
      drain n h id

/-- `pcpu_slab_free`. -/
def pcpuSlabFree (h : Heap) (ptr s : ℕ) : Heap :=
  let cache := h.cache s
  let id := (h.kmallocCaches (cache - 1)).id
  if (h.pcpuObjects id).length < pcpuObjCache then h.setObjects id (ptr :: h.pcpuObjects id)
  else
    let h := drain pcpuObjCache h id
    let h := giveBack h ptr s
    if h.inUse s = 0 then detach h s cache else h

/-! ### The entry points -/

/-- The loop `while ((1UL << order) < pages) order++`; 64 turns are more than a shift
allows. -/
def orderLoop (pages : ℕ) : ℕ → ℕ → ℕ
  | 0, order => order
  | n + 1, order => if 1 <<< order < pages then orderLoop pages n (order + 1) else order

/-- `(size + FRAME_SIZE - 1) / FRAME_SIZE` in 64 bits. -/
def pagesFor (size : ℕ) : ℕ := (size + frameSize - 1) % 2 ^ 64 / frameSize

def orderFor (pages : ℕ) : ℕ := orderLoop pages 64 0

/-- The cache `kmalloc` looks for. -/
def findCache (h : Heap) (size : ℕ) : Option ℕ :=
  (List.range cacheCount).find? (fun i => size ≤ (h.kmallocCaches i).objSize)

/-- `kmalloc`. -/
def kmalloc (h : Heap) (size : ℕ) : Option ℕ × Heap :=
  if size = 0 then (none, h)
  else
    let size := if size < 16 then 16 else size
    if 2048 ≤ size then
      let order := orderFor (pagesFor size)
      if order = 0 then pcpuPageAlloc h else buddyAlloc h order false
    else
      match findCache h size with
      | some i => pcpuSlabAlloc h i
      | none => (none, h)

/-- `kfree`. -/
def kfree (h : Heap) (ptr : ℕ) : Heap :=
  if ptr = 0 then h
  else if ptr < heapPhys ∨ heapPhys + heapSize ≤ ptr then h
  else
    let s := pageBase ptr
    if h.magic s = slabMagic then
      if h.cache s ≠ 0 then pcpuSlabFree h ptr s else slabFree h ptr
    else if ptr &&& (frameSize - 1) ≠ 0 then h
    else
      let idx := addrToFrame ptr
      if frameCount ≤ idx then h
      else if h.frames idx &&& frameAlloc = 0 then h
      else
        let order := h.frames idx &&& frameOrder
        if order = 0 then pcpuPageFree h ptr else buddyFree h ptr order

/-- `mmap_user`; only the length is used. -/
def mmapUser (h : Heap) (length : ℕ) : Option ℕ × Heap :=
  let pages := if pagesFor length = 0 then 1 else pagesFor length
  match buddyAlloc h (orderFor pages) true with
  | (none, h) => (none, h)
  | (some p, h) => (some p, { h with mem := h.mem.fill p (pages * frameSize) 0 })

end TipOS.Memory
