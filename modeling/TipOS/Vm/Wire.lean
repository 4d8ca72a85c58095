import TipOS.Paging.Tables
import TipOS.Vm.MapRuns

/-!
# Wiring a mapping

`vm_map_wire` gives every page of a range a frame of the object of its entry and writes the page
tables.  It works on the map and on physical memory; `Wire` is the pair, with `ok` false after a
`return -1`, from which on nothing is done.

`vm_mmap` calls it after the new entry is in the list.  `vmMmapPhys` is `vm_mmap` with the
tables, and without them it is `vmMmap` (`vmMmapPhys_map`).
-/

namespace TipOS.Vm

open Lib Paging

variable {v v₁ : Map} {size prot flags : ℕ}

/-- The state of `vm_map_wire`. -/
structure Wire where
  ok : Bool
  map : Map
  phys : Phys

namespace Wire

/-- `return -1`. -/
def fail (w : Wire) : Wire := { w with ok := false }

/-- The page slots of the object at `o`. -/
def slot (w : Wire) (o k : ℕ) : ℕ := (w.map.object o).pages k

end Wire

/-- `obj_get_page`: 0 is a failure. -/
def objGetPage (o k : ℕ) (w : Wire) : ℕ × Wire :=
  if ¬ (k : ℤ) < (w.map.object o).pageCount % 2 ^ 64 then (0, w)
  else if (w.map.object o).pages k = 0 then
    match w.phys.zeroFrame with
    | (none, s) => (0, { w with phys := s })
    | (some pa, s) =>
      let v := { w.map with live := Function.update w.map.live pa true }
      (pa, { w with
        map := v.setObject o
          { v.object o with pages := Function.update (v.object o).pages k pa }
        phys := s })
  else ((w.map.object o).pages k, w)

/-- `pt[i] = pa | 0x07` for the page `va` of the entry that begins at `start`. -/
def wirePte (o start offset va pt i : ℕ) (w : Wire) : Wire :=
  match objGetPage o (add64 (sub64 va start) offset / 4096) w with
  | (pa, w) => if pa = 0 then w.fail else { w with phys := w.phys.setEntry pt i (pa ||| 0x07) }

/-- The loop over a page table that was there or is empty: pages that are present are skipped. -/
def wirePt (o start offset ws we chunk pt : ℕ) (w : Wire) : Wire :=
  forLoop (fun i w =>
    if w.ok = false then w
    else if ws ≤ add64 chunk (i * 0x1000) ∧ add64 chunk (i * 0x1000) < we ∧
        isPresent (entry w.phys.mem pt i) = false then
      wirePte o start offset (add64 chunk (i * 0x1000)) pt i w
    else w) 512 w

/-- The loop over the page table that takes the place of the 2 MB entry `old`. -/
def wireSplit (o start offset ws we chunk old pt : ℕ) (w : Wire) : Wire :=
  forLoop (fun i w =>
    if w.ok = false then w
    else if ws ≤ add64 chunk (i * 0x1000) ∧ add64 chunk (i * 0x1000) < we then
      wirePte o start offset (add64 chunk (i * 0x1000)) pt i w
    else { w with phys := w.phys.setEntry pt i (splitEntry old i) }) 512 w

attribute [irreducible] wirePt wireSplit

/-- The case of a 2 MB entry; the entry is replaced when the table is complete. -/
def wireHuge (o start offset ws we chunk pd old : ℕ) (w : Wire) : Wire :=
  match w.phys.zeroFrame with
  | (none, s) => { w with ok := false, phys := s }
  | (some pt, s) =>
    let w := wireSplit o start offset ws we chunk old pt { w with phys := s }
    if w.ok = false then w
    else { w with phys := w.phys.setEntry pd (pdIdx chunk) (pt ||| 0x07) }

/-- A table where it is missing, as in `map_user_4kb`. -/
def wireTable (t i : ℕ) (w : Wire) : Wire :=
  match ensureTable w.phys t i with
  | none => { w with ok := false, phys := { w.phys with oom := true } }
  | some s => { w with phys := s }

/-- The three cases of a chunk: a 2 MB entry, a missing page table, a page table. -/
def wirePde (o start offset ws we chunk pd : ℕ) (w : Wire) : Wire :=
  let old := entry w.phys.mem pd (pdIdx chunk)
  if isPresent old && isHuge old then wireHuge o start offset ws we chunk pd old w
  else
    let w := wireTable pd (pdIdx chunk) w
    if w.ok = false then w
    else wirePt o start offset ws we chunk (tableOf (entry w.phys.mem pd (pdIdx chunk))) w

/-- `vm_map_wire` in one chunk. -/
def wireChunk (o root start offset ws we chunk : ℕ) (w : Wire) : Wire :=
  let w := wireTable root (pml4Idx chunk) w
  if w.ok = false then w
  else
    let pdpt := tableOf (entry w.phys.mem root (pml4Idx chunk))
    let w := wireTable pdpt (pdptIdx chunk) w
    if w.ok = false then w
    else wirePde o start offset ws we chunk (tableOf (entry w.phys.mem pdpt (pdptIdx chunk))) w

/-- `(x + 0x1FFFFF) & ~0x1FFFFF`. -/
def hugeUp (x : ℕ) : ℕ := hugeDown (add64 x 0x1FFFFF)

/-- The loop over the chunks. `a_end` is a multiple of 2 MB, so `chunk` does not wrap before it. -/
def wireChunks (o root start offset ws we : ℕ) (w : Wire) : Wire :=
  forLoop (fun j w =>
    if w.ok = false then w
    else wireChunk o root start offset ws we (hugeDown ws + j * 0x200000) w)
    ((hugeUp we - hugeDown ws) / 0x200000) w

attribute [irreducible] wireChunks

/-- `vm_map_wire` for one entry that meets the range.  `obj` is what `vm_object_create` allocates
for an anonymous entry that has no object yet. -/
def wireEntry (obj : Option ℕ) (root e start stop : ℕ) (w : Wire) : Wire :=
  let ws := if start < (w.map.entry e).start then (w.map.entry e).start else start
  let we := if (w.map.entry e).stop < stop then (w.map.entry e).stop else stop
  if (w.map.entry e).object = 0 ∧ (w.map.entry e).flags &&& mapAnon ≠ 0 then
    match obj with
    | none => w.fail
    | some o =>
      let v := vmObjectCreate w.map o (sub64 (w.map.entry e).stop (w.map.entry e).start)
      let v := v.setEntry e { v.entry e with object := o }
      wireChunks o root (v.entry e).start (v.entry e).offset ws we { w with map := v }
  else if (w.map.entry e).object = 0 then w
  else
    wireChunks (w.map.entry e).object root (w.map.entry e).start (w.map.entry e).offset ws we w

/-- The loop of `vm_map_wire` over the entries. -/
def wireFrom (obj : ℕ → Option ℕ) (root start stop : ℕ) : ℕ → ℕ → Wire → Wire
  | 0, _, w => w
  | n + 1, e, w =>
    if e = 0 then w
    else
      let w := if (w.map.entry e).start < stop ∧ start < (w.map.entry e).stop then
        wireEntry (obj e) root e start stop w else w
      if w.ok = false then w else wireFrom obj root start stop n (w.map.nx e) w

/-- `vm_map_wire`. -/
def vmMapWire (obj : ℕ → Option ℕ) (root : ℕ) (s : Phys) (v : Map) (start size : ℕ) :
    ℤ × Map × Phys :=
  let w := wireFrom obj root start (add64 start size) v.nentries v.head ⟨true, v, s⟩
  (if w.ok then 0 else -1, w.map, w.phys)

/-- `vm_map_wire` as the list of entries sees it. -/
def wireOf (obj : ℕ → Option ℕ) (root : ℕ) (s : Phys) (v : Map) (start size : ℕ) : ℤ × Map :=
  ((vmMapWire obj root s v start size).1, (vmMapWire obj root s v start size).2.1)

/-- `vm_mmap` with the page tables below `root`. -/
def vmMmapPhys (objs : ℕ → Option ℕ) (root : ℕ) (s : Phys) (v : Map) (obj e : Option ℕ)
    (addr size prot flags : ℕ) : ℤ × ℕ × Map × Phys :=
  let size := pageUp size
  if size = 0 then (-1, addr, v, s)
  else if flags &&& mapAnon ≠ 0 ∧ obj = none then (-1, addr, v, s)
  else
    let o := anonObject v obj size flags
    let r := place o.2 e o.1 addr size prot flags
    if r.1 < 0 then (-1, addr, vmObjectDestroy r.2.2 o.1, s)
    else
      let w := vmMapWire objs root s r.2.2 r.2.1 size
      if w.1 < 0 then (-1, addr, vmMapRemove w.2.1 r.2.1 (add64 r.2.1 size), w.2.2)
      else (0, r.2.1, w.2.1, w.2.2)

theorem vmMmapPhys_map (objs : ℕ → Option ℕ) (root : ℕ) (s : Phys) (v : Map) (obj e : Option ℕ)
    (addr size prot flags : ℕ) :
    ((vmMmapPhys objs root s v obj e addr size prot flags).1,
      (vmMmapPhys objs root s v obj e addr size prot flags).2.1,
      (vmMmapPhys objs root s v obj e addr size prot flags).2.2.1) =
    vmMmap (wireOf objs root s) v obj e addr size prot flags := by
  unfold vmMmapPhys vmMmap wireOf
  dsimp only
  split
  · rfl
  split
  · rfl
  split
  · rfl
  · split
    · rfl
    · rfl

/-! ### What wiring does to the map -/

/-- Only the page slots of objects differ, and which frames are in use. -/
structure PagesOnly (v v' : Map) : Prop extends ObjectsOnly v v' where
  refcnt : ∀ o, (v'.object o).refcnt = (v.object o).refcnt

theorem PagesOnly.refl (v : Map) : PagesOnly v v := ⟨ObjectsOnly.refl v, fun _ => rfl⟩

theorem PagesOnly.trans {v' v'' : Map} (h : PagesOnly v v') (h' : PagesOnly v' v'') :
    PagesOnly v v'' :=
  ⟨h.toObjectsOnly.trans h'.toObjectsOnly, fun o => (h'.refcnt o).trans (h.refcnt o)⟩

section Same

variable {o root start offset ws we chunk pt pd i old va : ℕ}

theorem pagesOnly_objGetPage (o k : ℕ) (w : Wire) :
    PagesOnly w.map (objGetPage o k w).2.map := by
  unfold objGetPage
  split
  · exact PagesOnly.refl _
  split
  · unfold Phys.zeroFrame
    cases w.phys.pool with
    | nil => exact PagesOnly.refl _
    | cons f pool =>
      refine ⟨⟨rfl, rfl, rfl, rfl, rfl⟩, fun o' => ?_⟩
      simp only [Map.setObject, Function.update_apply]
      split
      · next h => rw [h]
      · rfl
  · exact PagesOnly.refl _

theorem wireTable_map (t i : ℕ) (w : Wire) : (wireTable t i w).map = w.map := by
  unfold wireTable
  cases ensureTable w.phys t i with
  | none => rfl
  | some s => rfl

/-! What `obj_get_page` keeps of the map, the whole wiring keeps. -/

section Keeps

variable {Q : Map → Prop} {w : Wire}
  (hQ : ∀ o k (w : Wire), Q w.map → Q (objGetPage o k w).2.map) (h : Q w.map)

include hQ h

theorem keeps_wirePte : Q (wirePte o start offset va pt i w).map := by
  have hg := hQ o (add64 (sub64 va start) offset / 4096) w h
  unfold wirePte
  dsimp only
  split
  · exact hg
  · exact hg

theorem keeps_wirePt : Q (wirePt o start offset ws we chunk pt w).map := by
  rw [wirePt]
  refine forLoop_inv (fun w' : Wire => Q w'.map) h fun i _ w' h => ?_
  split
  · exact h
  · split
    · exact keeps_wirePte hQ h
    · exact h

theorem keeps_wireSplit : Q (wireSplit o start offset ws we chunk old pt w).map := by
  rw [wireSplit]
  refine forLoop_inv (fun w' : Wire => Q w'.map) h fun i _ w' h => ?_
  split
  · exact h
  · split
    · exact keeps_wirePte hQ h
    · exact h

theorem keeps_wireHuge : Q (wireHuge o start offset ws we chunk pd old w).map := by
  unfold wireHuge Phys.zeroFrame
  cases w.phys.pool with
  | nil => exact h
  | cons f pool =>
    dsimp only
    split
    · exact keeps_wireSplit hQ h
    · exact keeps_wireSplit hQ h

theorem keeps_wirePde : Q (wirePde o start offset ws we chunk pd w).map := by
  unfold wirePde
  dsimp only
  split
  · exact keeps_wireHuge hQ h
  rw [← wireTable_map pd (pdIdx chunk) w] at h
  split
  · exact h
  · exact keeps_wirePt hQ h

theorem keeps_wireChunk : Q (wireChunk o root start offset ws we chunk w).map := by
  unfold wireChunk
  dsimp only
  rw [← wireTable_map root (pml4Idx chunk) w] at h
  split
  · exact h
  rw [← wireTable_map _ (pdptIdx chunk) (wireTable root (pml4Idx chunk) w)] at h
  split
  · exact h
  · exact keeps_wirePde hQ h

theorem keeps_wireChunks : Q (wireChunks o root start offset ws we w).map := by
  rw [wireChunks]
  refine forLoop_inv (fun w' : Wire => Q w'.map) h fun j _ w' h => ?_
  split
  · exact h
  · exact keeps_wireChunk hQ h

end Keeps

theorem pagesOnly_wireChunks (w : Wire) :
    PagesOnly w.map (wireChunks o root start offset ws we w).map :=
  keeps_wireChunks (fun o k w' h => h.trans (pagesOnly_objGetPage o k w')) (PagesOnly.refl _)

theorem sameList_wireEntry (obj : Option ℕ) (root e start stop : ℕ) (w : Wire) :
    SameList w.map (wireEntry obj root e start stop w).map := by
  unfold wireEntry
  dsimp only
  split
  · cases obj with
    | none => exact SameList.refl _
    | some o =>
      refine SameList.trans ?_ (pagesOnly_wireChunks _).sameList
      exact (objectsOnly_setObject w.map o _).sameList.trans (sameList_setEntry _ rfl rfl rfl rfl)
  · split
    · exact SameList.refl _
    · exact (pagesOnly_wireChunks _).sameList

theorem sameList_wireFrom (obj : ℕ → Option ℕ) (root start stop n e : ℕ) (w : Wire) :
    SameList w.map (wireFrom obj root start stop n e w).map := by
  induction n generalizing e w with
  | zero => exact SameList.refl _
  | succ n ih =>
    have hone : SameList w.map (if (w.map.entry e).start < stop ∧ start < (w.map.entry e).stop then
        wireEntry (obj e) root e start stop w else w).map := by
      split
      · exact sameList_wireEntry ..
      · exact SameList.refl _
    rw [wireFrom]
    split
    · exact SameList.refl _
    dsimp only
    generalize (if (w.map.entry e).start < stop ∧ start < (w.map.entry e).stop then
      wireEntry (obj e) root e start stop w else w) = w' at hone ⊢
    split
    · exact hone
    · exact hone.trans (ih _ _)

/-- **`vm_map_wire` writes no field of the list**: it is one of the functions that the runs of the
list allow. -/
theorem wires_wireOf (obj : ℕ → Option ℕ) (root : ℕ) (s : Phys) : Wires (wireOf obj root s) :=
  fun v start size => sameList_wireFrom obj root start (add64 start size) v.nentries v.head ⟨true, v, s⟩

end Same

/-! ### The entry that is wired -/

section Entries

variable {obj : ℕ → Option ℕ} {root start stop b e n p : ℕ} {w : Wire} {l l₁ l₂ : List ℕ}

theorem wireFrom_none (h : Chain w.map.nx w.map.pv b e l) (hn : l.length ≤ n)
    (hno : ∀ q ∈ l, ¬ (w.map.lo q < stop ∧ start < w.map.hi q)) :
    wireFrom obj root start stop n e w = w := by
  induction l generalizing b e n with
  | nil =>
    have he : e = 0 := h
    cases n with
    | zero => rfl
    | succ n => rw [wireFrom, if_pos he]
  | cons c t ih =>
    obtain ⟨rfl, he, -, ht⟩ := h
    obtain ⟨n, rfl, hlen⟩ := exists_fuel hn
    have hc : ¬ ((w.map.entry e).start < stop ∧ start < (w.map.entry e).stop) :=
      hno e (.head _)
    rw [wireFrom, if_neg he, if_neg hc]
    dsimp only
    rw [ih ht hlen fun q hq => hno q (.tail _ hq), ite_self]

theorem wireFrom_one (h : Chain w.map.nx w.map.pv b e (l₁ ++ p :: l₂))
    (hn : (l₁ ++ p :: l₂).length ≤ n) (hw : w.ok)
    (hno : ∀ q, q ∈ l₁ ∨ q ∈ l₂ → ¬ (w.map.lo q < stop ∧ start < w.map.hi q)) :
    wireFrom obj root start stop n e w =
      if w.map.lo p < stop ∧ start < w.map.hi p then wireEntry (obj p) root p start stop w
      else w := by
  induction l₁ generalizing b e n with
  | nil =>
    obtain ⟨rfl, he, -, ht⟩ := h
    obtain ⟨n, rfl, hlen⟩ := exists_fuel hn
    rw [wireFrom, if_neg he]
    dsimp only
    by_cases hc : w.map.lo e < stop ∧ start < w.map.hi e
    · have hs := sameList_wireEntry (obj e) root e start stop w
      have hc' : (w.map.entry e).start < stop ∧ start < (w.map.entry e).stop := hc
      rw [if_pos hc, if_pos hc', wireFrom_none (l := l₂) (b := e), ite_self]
      · rw [hs.nx, hs.pv]
        exact ht
      · exact hlen
      · rw [hs.lo, hs.hi]
        exact fun q hq => hno q (.inr hq)
    · have hc' : ¬ ((w.map.entry e).start < stop ∧ start < (w.map.entry e).stop) := hc
      rw [if_neg hc, if_neg hc', wireFrom_none ht hlen fun q hq => hno q (.inr hq), ite_self]
  | cons c t ih =>
    obtain ⟨rfl, he, -, ht⟩ := h
    obtain ⟨n, rfl, hlen⟩ := exists_fuel hn
    have hc : ¬ ((w.map.entry e).start < stop ∧ start < (w.map.entry e).stop) :=
      hno e (.inl (.head _))
    rw [wireFrom, if_neg he, if_neg hc]
    rw [if_neg (by rw [hw]; exact Bool.noConfusion)]
    exact ih ht hlen fun q hq => hno q (hq.imp_left (.tail _))

end Entries

/-! ### The new entry -/

theorem findGap_lt {n c c' : ℕ} (hc : c < 2 ^ 64) (h : findGap v size n c = some c') :
    c' < 2 ^ 64 := by
  induction n generalizing c with
  | zero => cases h
  | succ n ih =>
    rw [findGap] at h
    split at h
    · split at h
      · exact ih (Nat.mod_lt _ (by simp)) h
      · exact Option.some.inj h ▸ hc
    · cases h

theorem place_lt {e : Option ℕ} {obj addr : ℕ} (ha : addr < 2 ^ 64) :
    (place v e obj addr size prot flags).2.1 < 2 ^ 64 := by
  unfold place vmMapFind
  dsimp only
  split
  · exact ha
  split
  · exact ha
  · cases hg : findGap v (pageUp size) 100 (firstCandidate v addr) with
    | none => exact ha
    | some c => exact findGap_lt (pageUp_lt _) hg

/-- **A successful `vm_mmap` has put one entry into the list**, and no other entry meets its
range. -/
theorem place_spec {l : List ℕ} (h : Listed v l) (e : Option ℕ) (he : ∀ p ∈ e, p ≠ 0 ∧ p ∉ l)
    (obj addr size prot flags : ℕ) (hok : ¬ (place v e obj addr size prot flags).1 < 0) :
    ∃ a, (place v e obj addr size prot flags).2.1 = a ∧ a % 4096 = 0 ∧ ∃ p ∈ e,
      (∀ q ∈ l, ¬ (v.lo q < add64 a (pageUp size) ∧ a < v.hi q)) ∧
      Listed (place v e obj addr size prot flags).2.2 (below v.lo a l ++ p :: above v.lo a l) ∧
      LinksOnly (fillEntry v p obj 0 a (add64 a (pageUp size)) prot flags)
        (place v e obj addr size prot flags).2.2 := by
  have hneg : ¬ ¬ (-1 : ℤ) < 0 := by decide
  have hfixed : ∀ a size, ¬ (vmMapFixed v e obj 0 a size prot flags).1 < 0 → a % 4096 = 0 ∧ ∃ p ∈ e,
      (∀ q ∈ l, ¬ (v.lo q < add64 a (pageUp size) ∧ a < v.hi q)) ∧
      Listed (vmMapFixed v e obj 0 a size prot flags).2 (below v.lo a l ++ p :: above v.lo a l) ∧
      LinksOnly (fillEntry v p obj 0 a (add64 a (pageUp size)) prot flags)
        (vmMapFixed v e obj 0 a size prot flags).2 := by
    intro a size hok
    rcases vmMapFixed_spec h e he obj 0 a size prot flags with heq | ⟨p, hp, -, ha, hno, -, hl, hk⟩
    · rw [heq] at hok
      omega
    · exact ⟨ha, p, hp, hno, hl, hk⟩
  unfold place vmMapFind at hok ⊢
  dsimp only at hok ⊢
  split at hok
  · next hf =>
    rw [if_pos hf]
    exact ⟨addr, rfl, hfixed addr size hok⟩
  next hf =>
  rw [if_neg hf]
  split at hok
  · omega
  next hs =>
  rw [if_neg hs]
  cases hg : findGap v (pageUp size) 100 (firstCandidate v addr) with
  | none =>
    rw [hg] at hok
    exact absurd hok hneg
  | some c =>
    rw [hg] at hok
    have hc := hfixed c (pageUp size) hok
    rw [pageUp_pageUp] at hc
    exact ⟨c, rfl, hc⟩

theorem entry_of_place {p o a stop : ℕ} (h : LinksOnly (fillEntry v p o 0 a stop prot flags) v₁) :
    (v₁.entry p).start = a ∧ (v₁.entry p).stop = stop ∧ (v₁.entry p).object = o ∧
      (v₁.entry p).offset = 0 ∧ (v₁.entry p).flags = flags := by
  obtain ⟨x, y, he⟩ := h.entry p
  rw [he]
  simp [fillEntry, Map.setEntry]

/-- **After a new entry only that entry is wired**, and nothing when its end wraps. -/
theorem wireFrom_place {l : List ℕ} {p obj a n : ℕ} (hp : p ∉ l)
    (hno : ∀ q ∈ l, ¬ (v.lo q < add64 a n ∧ a < v.hi q))
    (hlist : Listed v₁ (below v.lo a l ++ p :: above v.lo a l))
    (hlinks : LinksOnly (fillEntry v p obj 0 a (add64 a n) prot flags) v₁) (objs : ℕ → Option ℕ)
    (root : ℕ) (s : Phys) :
    wireFrom objs root a (add64 a n) v₁.nentries v₁.head ⟨true, v₁, s⟩ =
      if a < add64 a n then wireEntry (objs p) root p a (add64 a n) ⟨true, v₁, s⟩
      else ⟨true, v₁, s⟩ := by
  obtain ⟨q1, q2, -⟩ := entry_of_place hlinks
  rw [wireFrom_one hlist.chain hlist.count.ge rfl]
  · change (if (v₁.entry p).start < _ ∧ a < (v₁.entry p).stop then _ else _) = _
    rw [q1, q2]
    simp only [and_self]
  intro q hq
  have hmem : q ∈ l := by
    rw [← below_append_above v.lo a l]
    exact List.mem_append.mpr hq
  have hqp : q ≠ p := fun hx => hp (hx ▸ hmem)
  rw [hlinks.lo, hlinks.hi, (fillEntry_lo_hi_of_ne hqp ..).1, (fillEntry_lo_hi_of_ne hqp ..).2]
  exact hno q hmem

/-! ### Where a mapping goes -/

/-- The address `vm_mmap` takes for `n` bytes. -/
def target (v : Map) (addr n flags : ℕ) : Option ℕ :=
  if flags &&& mapFixed ≠ 0 then
    if addr % 4096 = 0 ∧ overlap v addr (add64 addr n) = false then some addr else none
  else findGap v n 100 (firstCandidate v addr)

section Target

variable {v v' : Map} {e : Option ℕ} {obj offset addr n a c m prot flags : ℕ}

theorem overlap_congr (h : ObjectsOnly v v') (start stop : ℕ) :
    overlap v' start stop = overlap v start stop := by
  have hfrom : ∀ n e, overlapFrom v' start stop n e = overlapFrom v start stop n e := by
    intro n
    induction n with
    | zero => exact fun _ => rfl
    | succ n ih =>
      intro e
      rw [overlapFrom, overlapFrom, h.entry, ih]
  rw [overlap, overlap, h.nentries, h.head, hfrom]

theorem target_congr (h : ObjectsOnly v v') : target v' addr n flags = target v addr n flags := by
  have hgap : ∀ m c, findGap v' n m c = findGap v n m c := by
    intro m
    induction m with
    | zero => exact fun _ => rfl
    | succ m ih =>
      intro c
      rw [findGap, findGap, overlap_congr h, h.maxOffset, ih]
  rw [target, target, overlap_congr h, firstCandidate, firstCandidate, h.minOffset, hgap]

theorem findGap_free (hc : c % 4096 = 0) (h : findGap v n m c = some a) :
    a % 4096 = 0 ∧ overlap v a (add64 a n) = false := by
  induction m generalizing c with
  | zero => cases h
  | succ m ih =>
    rw [findGap] at h
    split at h
    · split at h
      · refine ih ?_ h
        rw [add64]
        omega
      · next hno =>
        cases h
        exact ⟨hc, (Bool.not_eq_true _).mp hno⟩
    · cases h

/-- `vm_map_fixed` fails without an entry or a free range, and then it does nothing. -/
theorem vmMapFixed_cases (hn : n ≠ 0) (hu : pageUp n = n) :
    (e ≠ none ∧ (a % 4096 = 0 ∧ overlap v a (add64 a n) = false) ∧
      (vmMapFixed v e obj offset a n prot flags).1 = 0) ∨
    ((e = none ∨ ¬ (a % 4096 = 0 ∧ overlap v a (add64 a n) = false)) ∧
      vmMapFixed v e obj offset a n prot flags = (-1, v)) := by
  unfold vmMapFixed
  dsimp only
  rw [hu]
  by_cases ha : a % 4096 = 0
  · rw [if_neg (not_or.mpr ⟨hn, not_not.mpr ha⟩)]
    cases ho : overlap v a (add64 a n) with
    | true => exact .inr ⟨.inr fun h => Bool.false_ne_true h.2.symm, if_pos rfl⟩
    | false =>
      rw [if_neg Bool.false_ne_true]
      cases e with
      | none => exact .inr ⟨.inl rfl, rfl⟩
      | some p => exact .inl ⟨Option.some_ne_none p, ⟨ha, rfl⟩, rfl⟩
  · rw [if_pos (.inr ha)]
    exact .inr ⟨.inr fun h => ha h.1, rfl⟩

/-- **The placement** succeeds exactly with an entry and an address, and does nothing when it
fails. -/
theorem place_cases (v : Map) (e : Option ℕ) (obj addr prot flags : ℕ) (hn : n ≠ 0)
    (hu : pageUp n = n) :
    (e ≠ none ∧ target v addr n flags = some (place v e obj addr n prot flags).2.1 ∧
      (place v e obj addr n prot flags).1 = 0) ∨
    ((e = none ∨ target v addr n flags = none) ∧ (place v e obj addr n prot flags).1 = -1 ∧
      (place v e obj addr n prot flags).2.2 = v) := by
  unfold place target
  by_cases hf : flags &&& mapFixed ≠ 0
  · rw [if_pos hf, if_pos hf]
    dsimp only
    rcases vmMapFixed_cases (e := e) (a := addr) hn hu with ⟨he, ha, hr⟩ | ⟨hno, hr⟩
    · exact .inl ⟨he, if_pos ha, hr⟩
    · rw [hr]
      exact .inr ⟨hno.imp_right fun h => if_neg h, rfl, rfl⟩
  rw [if_neg hf, if_neg hf]
  unfold vmMapFind
  dsimp only
  rw [hu, if_neg hn]
  cases hg : findGap v n 100 (firstCandidate v addr) with
  | none => exact .inr ⟨.inr rfl, rfl, rfl⟩
  | some c =>
    have hfree := findGap_free (pageUp_mod _) hg
    dsimp only
    rcases vmMapFixed_cases (e := e) (a := c) hn hu with ⟨he, -, hr⟩ | ⟨hno, hr⟩
    · exact .inl ⟨he, rfl, hr⟩
    · rw [hr]
      exact .inr ⟨.inl (hno.resolve_right (not_not.mpr hfree)), rfl, rfl⟩

end Target

end TipOS.Vm
