import Mathlib.Algebra.Ring.Int.Defs
import Mathlib.Algebra.Ring.Nat
import TipOS.Lib.DList

/-!
# The entry list of an address space

The part of `vm_map.c` that works on the list of mapped regions: `vm_map_t`, its entries
and the objects that hold their frames.  Entries and objects are records behind pointers;
an entry pointer is an index into `entry`, an object pointer an index into `object`, and
`0` is `NULL`.

Two things come from outside and are arguments here.  A fresh entry or object is what
`kmalloc` returned, or nothing when it failed.  `vm_map_wire` is a function `wire` on the
map, because it also works on the page tables; it writes no field of the list.

Addresses and sizes are `uint64_t`, so every sum is taken modulo `2 ^ 64`.
-/

namespace TipOS.Vm

open Function

/-- `vm_map_entry_t`. -/
structure Entry where
  prev : ℕ
  next : ℕ
  start : ℕ
  stop : ℕ
  object : ℕ
  offset : ℕ
  prot : ℕ
  flags : ℕ

/-- `vm_object_t`.  `page_count` is a signed `int`. -/
structure Object where
  refcnt : ℤ
  pages : ℕ → ℕ
  pageCount : ℤ

/-- A `vm_map_t` with the entries and objects its pointers lead to, and which frames are
not given back to the frame allocator. -/
structure Map where
  entry : ℕ → Entry
  object : ℕ → Object
  head : ℕ
  nentries : ℕ
  minOffset : ℕ
  maxOffset : ℕ
  live : ℕ → Bool

def mapAnon : ℕ := 0x1000
def mapFixed : ℕ := 0x0010

/-- A sum of two `uint64_t`. -/
def add64 (a b : ℕ) : ℕ := (a + b) % 2 ^ 64

/-- A difference of two `uint64_t`. -/
def sub64 (a b : ℕ) : ℕ := (a + (2 ^ 64 - b)) % 2 ^ 64

/-- `x & ~0xFFF`. -/
def pageDown (x : ℕ) : ℕ := x / 4096 * 4096

/-- `(x + 0xFFF) & ~0xFFF`. -/
def pageUp (x : ℕ) : ℕ := pageDown (add64 x 0xFFF)

theorem pageUp_mod (x : ℕ) : pageUp x % 4096 = 0 := by
  rw [pageUp, pageDown]
  omega

/-- A `size_t` stored into an `int`. -/
def toInt32 (x : ℕ) : ℤ :=
  if x % 2 ^ 32 < 2 ^ 31 then (x % 2 ^ 32 : ℕ) else (x % 2 ^ 32 : ℕ) - 2 ^ 32

namespace Map

def setEntry (v : Map) (p : ℕ) (e : Entry) : Map := { v with entry := update v.entry p e }

def setObject (v : Map) (p : ℕ) (o : Object) : Map :=
  { v with object := update v.object p o }

/-- `e->next` and `e->prev` as link functions. -/
def nx (v : Map) (p : ℕ) : ℕ := (v.entry p).next
def pv (v : Map) (p : ℕ) : ℕ := (v.entry p).prev

/-- `p->next = q`. -/
def setNext (v : Map) (p q : ℕ) : Map := v.setEntry p { v.entry p with next := q }

/-- `p->prev = q`. -/
def setPrev (v : Map) (p q : ℕ) : Map := v.setEntry p { v.entry p with prev := q }

end Map

/-! ### Objects -/

/-- `vm_free_page`. -/
def vmFreePage (v : Map) (pa : ℕ) : Map := { v with live := update v.live pa false }

/-- `vm_object_create` once both its allocations succeeded; the object is at `o`. -/
def vmObjectCreate (v : Map) (o size : ℕ) : Map :=
  let npages := toInt32 (add64 size 0xFFF / 4096)
  let npages := if npages = 0 then 1 else npages
  v.setObject o { refcnt := 1, pages := fun _ => 0, pageCount := npages }

/-- `vm_object_share`. -/
def vmObjectShare (v : Map) (o : ℕ) : Map :=
  if o = 0 then v else v.setObject o { v.object o with refcnt := (v.object o).refcnt + 1 }

/-- The loop of `vm_object_destroy` over the page slots from `i` on. -/
def freeSlots (o : ℕ) : ℕ → ℕ → Map → Map
  | 0, _, v => v
  | n + 1, i, v =>
    let pa := (v.object o).pages i
    freeSlots o n (i + 1) (if pa ≠ 0 then vmFreePage v pa else v)

/-- `vm_object_destroy`. -/
def vmObjectDestroy (v : Map) (o : ℕ) : Map :=
  if o = 0 then v
  else
    let v := v.setObject o { v.object o with refcnt := (v.object o).refcnt - 1 }
    if (v.object o).refcnt > 0 then v
    else freeSlots o (v.object o).pageCount.toNat 0 v

/-! ### Looking through the list

Each loop follows `next` from an entry; `n` bounds its steps.  It is started with
`nentries`, the length of the list. -/

/-- `vm_map_init`. -/
def vmMapInit (v : Map) (lo hi : ℕ) : Map :=
  { v with head := 0, nentries := 0, minOffset := lo, maxOffset := hi }

/-- The loop of `vm_map_find_entry`. -/
def findEntryFrom (v : Map) (addr : ℕ) : ℕ → ℕ → ℕ
  | 0, _ => 0
  | n + 1, e =>
    if e = 0 then 0
    else if (v.entry e).start ≤ addr ∧ addr < (v.entry e).stop then e
    else findEntryFrom v addr n (v.entry e).next

/-- `vm_map_find_entry`. -/
def vmMapFindEntry (v : Map) (addr : ℕ) : ℕ := findEntryFrom v addr v.nentries v.head

/-- `vm_map_covers`: the same loop, with a truth value. -/
def vmMapCovers (v : Map) (va : ℕ) : Bool := decide (vmMapFindEntry v va ≠ 0)

/-- The loop of `overlap`. -/
def overlapFrom (v : Map) (start stop : ℕ) : ℕ → ℕ → Bool
  | 0, _ => false
  | n + 1, e =>
    if e = 0 then false
    else if (v.entry e).start < stop ∧ start < (v.entry e).stop then true
    else overlapFrom v start stop n (v.entry e).next

def overlap (v : Map) (start stop : ℕ) : Bool := overlapFrom v start stop v.nentries v.head

/-! ### Insertion -/

/-- The loop of `vm_map_fixed` that finds the place of a new entry: the entry before it
and the entry after it. -/
def locate (v : Map) (addr : ℕ) : ℕ → ℕ → ℕ → ℕ × ℕ
  | 0, prev, cur => (prev, cur)
  | n + 1, prev, cur =>
    if cur ≠ 0 ∧ (v.entry cur).start < addr then locate v addr n cur (v.entry cur).next
    else (prev, cur)

/-- The end of `vm_map_fixed`: entry `e` goes between `prev` and `cur`. -/
def linkEntry (v : Map) (e prev cur : ℕ) : Map :=
  let v := (v.setNext e cur).setPrev e prev
  let v := if cur ≠ 0 then v.setPrev cur e else v
  let v := if prev = 0 then { v with head := e } else v.setNext prev e
  { v with nentries := v.nentries + 1 }

/-- The fields `vm_map_fixed` writes into the new entry. -/
def fillEntry (v : Map) (e obj offset addr stop prot flags : ℕ) : Map :=
  let v := vmObjectShare v obj
  v.setEntry e
    { v.entry e with start := addr, stop := stop, object := obj, offset := offset, prot := prot,
                     flags := flags }

/-- `vm_map_fixed`. -/
def vmMapFixed (v : Map) (e : Option ℕ) (obj offset addr size prot flags : ℕ) : ℤ × Map :=
  let size := pageUp size
  if size = 0 ∨ addr % 4096 ≠ 0 then (-1, v)
  else if overlap v addr (add64 addr size) then (-1, v)
  else
    match e with
    | none => (-1, v)
    | some e =>
      let v := fillEntry v e obj offset addr (add64 addr size) prot flags
      let r := locate v addr v.nentries 0 v.head
      (0, linkEntry v e r.1 r.2)

/-- The search loop of `vm_map_find`, at most `n` tries from `candidate` on. -/
def findGap (v : Map) (size : ℕ) : ℕ → ℕ → Option ℕ
  | 0, _ => none
  | n + 1, candidate =>
    if add64 candidate size ≤ v.maxOffset then
      if overlap v candidate (add64 candidate size) then findGap v size n (add64 candidate 0x100000)
      else some candidate
    else none

/-- Where the search of `vm_map_find` begins. -/
def firstCandidate (v : Map) (hint : ℕ) : ℕ :=
  let candidate := if hint ≠ 0 then hint else 0x70000000
  let candidate := if candidate < v.minOffset then v.minOffset else candidate
  pageUp candidate

/-- `vm_map_find`: the result, `*addr` afterwards, and the map. -/
def vmMapFind (v : Map) (e : Option ℕ) (obj offset addr size prot flags : ℕ) : ℤ × ℕ × Map :=
  let size := pageUp size
  if size = 0 then (-1, addr, v)
  else
    match findGap v size 100 (firstCandidate v addr) with
    | none => (-1, addr, v)
    | some candidate =>
      let r := vmMapFixed v e obj offset candidate size prot flags
      (r.1, candidate, r.2)

/-! ### Removal -/

/-- `vm_map_remove` takes an entry inside the range out of the list. -/
def unlinkEntry (v : Map) (e : ℕ) : Map :=
  let next := v.nx e
  let prev := v.pv e
  let v := if prev ≠ 0 then v.setNext prev next else { v with head := next }
  if next ≠ 0 then v.setPrev next prev else v

/-- What `vm_map_remove` does to an entry inside the range. -/
def dropEntry (v : Map) (e : ℕ) : Map :=
  let v := unlinkEntry v e
  let v := vmObjectDestroy v (v.entry e).object
  { v with nentries := v.nentries - 1 }

/-- The loop of `vm_map_remove`. -/
def removeFrom (start stop : ℕ) : ℕ → ℕ → Map → Map
  | 0, _, v => v
  | n + 1, e, v =>
    if e = 0 then v
    else
      let next := v.nx e
      let v := if start ≤ (v.entry e).start ∧ (v.entry e).stop ≤ stop then dropEntry v e else v
      removeFrom start stop n next v

/-- `vm_map_remove`. -/
def vmMapRemove (v : Map) (start stop : ℕ) : Map := removeFrom start stop v.nentries v.head v

/-! ### `munmap` and `mmap` -/

/-- One page of the inner loop of `vm_munmap`: the frame of slot `pg` goes back. -/
def clearSlot (v : Map) (o pg : ℕ) : Map :=
  if (pg : ℤ) < (v.object o).pageCount % 2 ^ 64 ∧ (v.object o).pages pg ≠ 0 then
    let v := vmFreePage v ((v.object o).pages pg)
    v.setObject o { v.object o with pages := update (v.object o).pages pg 0 }
  else v

/-- The inner loop of `vm_munmap`, over the pages from `va` to `we` of the entry that
begins at `start`. -/
def clearSlots (o start we : ℕ) : ℕ → ℕ → Map → Map
  | 0, _, v => v
  | n + 1, va, v =>
    if va < we then
      clearSlots o start we n (add64 va 0x1000)
        (clearSlot v o (sub64 va start / 4096))
    else v

/-- What `vm_munmap` does to the object of an entry that meets the range. -/
def releaseEntry (v : Map) (e addr stop : ℕ) : Map :=
  let o := (v.entry e).object
  if o = 0 then v
  else
    let ws := if addr < (v.entry e).start then (v.entry e).start else addr
    let we := if (v.entry e).stop < stop then (v.entry e).stop else stop
    -- the loop ends within one step per page of the range
    let v := clearSlots o (v.entry e).start we ((we - pageDown ws + 4095) / 4096) (pageDown ws) v
    let v := vmObjectDestroy v o
    v.setEntry e { v.entry e with object := 0 }

/-- The outer loop of `vm_munmap`. -/
def releaseFrom (addr stop : ℕ) : ℕ → ℕ → Map → Map
  | 0, _, v => v
  | n + 1, e, v =>
    if e = 0 then v
    else
      let v := if (v.entry e).start < stop ∧ addr < (v.entry e).stop then releaseEntry v e addr stop
        else v
      releaseFrom addr stop n (v.nx e) v

/-- `vm_munmap` of a process with a map: what it does to the map. -/
def vmMunmap (v : Map) (addr size : ℕ) : ℤ × Map :=
  let size := pageUp size
  if size = 0 then (0, v)
  else
    let stop := add64 addr size
    let v := releaseFrom addr stop v.nentries v.head v
    (0, vmMapRemove v addr stop)

/-- The first half of `vm_mmap`: `flags` choose `vm_map_fixed` or `vm_map_find`. -/
def place (v : Map) (e : Option ℕ) (obj addr size prot flags : ℕ) : ℤ × ℕ × Map :=
  if flags &&& mapFixed ≠ 0 then
    let r := vmMapFixed v e obj 0 addr size prot flags
    (r.1, addr, r.2)
  else vmMapFind v e obj 0 addr size prot flags

/-- The object of `vm_mmap`: a new one at `obj` for an anonymous mapping, `NULL` otherwise. -/
def anonObject (v : Map) (obj : Option ℕ) (size flags : ℕ) : ℕ × Map :=
  if flags &&& mapAnon ≠ 0 then (obj.getD 0, vmObjectCreate v (obj.getD 0) size) else (0, v)

/-- `vm_mmap` of a process with a map: the result, `*addr` afterwards, and the map.  `obj`
and `e` are what the allocations return. -/
def vmMmap (wire : Map → ℕ → ℕ → ℤ × Map) (v : Map) (obj e : Option ℕ)
    (addr size prot flags : ℕ) : ℤ × ℕ × Map :=
  let size := pageUp size
  if size = 0 then (-1, addr, v)
  else if flags &&& mapAnon ≠ 0 ∧ obj = none then (-1, addr, v)
  else
    let o := anonObject v obj size flags
    let r := place o.2 e o.1 addr size prot flags
    if r.1 < 0 then (-1, addr, vmObjectDestroy r.2.2 o.1)
    else
      let w := wire r.2.2 r.2.1 size
      if w.1 < 0 then (-1, addr, vmMapRemove w.2 r.2.1 (add64 r.2.1 size))
      else (0, r.2.1, w.2)

end TipOS.Vm
