import TipOS.Vm.Munmap
import TipOS.Vm.Wired

/-!
# Reference counts

An object should be counted once for each entry that refers to it (`Counted`), so that it is freed
with its last entry.  `vm_map_fixed` adds an entry and a count, `vm_map_remove` and `vm_munmap`
take both away: none of them changes the `excess` of the count over the references.

`vm_object_create` starts the count at 1, for the caller.  `vm_mmap` gives the new object to
`vm_map_fixed`, which counts the entry, and never gives up its own count.  So the law holds in a
run if and only if no call of it adds an anonymous mapping (`refcnt_law_iff`), and the object
and the page array of an anonymous mapping are never freed.
-/

namespace TipOS.Vm

open Lib Paging List

variable {v'' : Map} {d : ℕ → ℤ} {l₂ : List ℕ} {obj prot flags addr size : ℕ}
  {wire : Map → ℕ → ℕ → ℤ × Map}

/-! ### References -/

/-- The number of entries that refer to an object. -/
def refs (v : Map) (l : List ℕ) (o : ℕ) : ℕ := l.countP fun p => decide ((v.entry p).object = o)

/-- How far the count of an object is above its references. -/
def excess (v : Map) (l : List ℕ) (o : ℕ) : ℤ := (v.object o).refcnt - refs v l o

/-- **The law**: the count of every object is the number of its entries. -/
def Counted (v : Map) : Prop := ∀ l, Listed v l → ∀ o ≠ 0, (v.object o).refcnt = refs v l o

/-- A call moves the excess of each object by `d`. -/
def Shifts (v v' : Map) (d : ℕ → ℤ) : Prop :=
  ∀ l, Listed v l → ∃ l', Listed v' l' ∧ ∀ o ≠ 0, excess v' l' o = excess v l o + d o

section Refs

variable {v v' : Map} {l : List ℕ} {e o : ℕ}

theorem refs_congr (h : ∀ p ∈ l, (v'.entry p).object = (v.entry p).object) (o : ℕ) :
    refs v' l o = refs v l o :=
  countP_congr fun p hp => by rw [h p hp]

theorem refs_erase (he : e ∈ l) (o : ℕ) :
    refs v (l.erase e) o + (if (v.entry e).object = o then 1 else 0) = refs v l o := by
  have hperm := (perm_cons_erase he).countP_eq fun p => decide ((v.entry p).object = o)
  rw [countP_cons] at hperm
  simp only [decide_eq_true_eq] at hperm
  exact hperm.symm

theorem refs_insert (l1 l₂ : List ℕ) (p o : ℕ) :
    refs v (l1 ++ p :: l₂) o = refs v (l1 ++ l₂) o + if (v.entry p).object = o then 1 else 0 := by
  simp only [refs, countP_append, countP_cons, decide_eq_true_eq]
  omega

theorem Shifts.trans {d' : ℕ → ℤ} (h : Shifts v v' d) (h' : Shifts v' v'' d') :
    Shifts v v'' (fun o => d o + d' o) := by
  intro l hl
  obtain ⟨l', hl', he⟩ := h l hl
  obtain ⟨l'', hl'', he'⟩ := h' l' hl'
  exact ⟨l'', hl'', fun o ho => by rw [he' o ho, he o ho, add_assoc]⟩

theorem Shifts.trans_zero (h : Shifts v v' d) (h' : Shifts v' v'' fun _ => 0) : Shifts v v'' d := by
  simpa using h.trans h'

theorem Shifts.refl (v : Map) : Shifts v v fun _ => 0 := fun l hl => ⟨l, hl, fun _ _ => by simp⟩

theorem Shifts.of_same (hs : SameList v v') (hr : ∀ o, (v'.object o).refcnt = (v.object o).refcnt)
    (he : ∀ p, (v'.entry p).object = (v.entry p).object) : Shifts v v' fun _ => 0 := by
  intro l hl
  refine ⟨l, hs.listed hl, fun o _ => ?_⟩
  rw [excess, excess, hr, refs_congr fun p _ => he p, add_zero]

theorem PagesOnly.shifts (h : PagesOnly v v') : Shifts v v' fun _ => 0 :=
  Shifts.of_same h.sameList h.refcnt fun p => by rw [h.entry]

theorem counted_iff (hl : Listed v l) : Counted v ↔ ∀ o ≠ 0, excess v l o = 0 := by
  constructor
  · intro h o ho
    rw [excess, h l hl o ho, sub_self]
  · intro h l' hl' o ho
    obtain rfl := hl.chain.unique hl'.chain
    exact sub_eq_zero.mp (h o ho)

end Refs

/-! ### Counts of objects -/

section Objects

variable {v : Map} {l : List ℕ} {e o : ℕ}

theorem refcnt_setObject (v : Map) (o : ℕ) (x : Object) (o' : ℕ) :
    ((v.setObject o x).object o').refcnt = if o' = o then x.refcnt else (v.object o').refcnt := by
  simp only [Map.setObject, Function.update_apply]
  split
  · rfl
  · rfl

theorem object_freeSlots (o n i : ℕ) (v : Map) : (freeSlots o n i v).object = v.object := by
  induction n generalizing i v with
  | zero => rfl
  | succ n ih =>
    rw [freeSlots, ih]
    split
    · rfl
    · rfl

theorem refcnt_destroy (v : Map) (ho : o ≠ 0) (o' : ℕ) :
    ((vmObjectDestroy v o).object o').refcnt =
      (v.object o').refcnt - if o = o' then 1 else 0 := by
  unfold vmObjectDestroy
  rw [if_neg ho]
  dsimp only
  have hset := refcnt_setObject v o { v.object o with refcnt := (v.object o).refcnt - 1 } o'
  have heq : ((v.setObject o { v.object o with refcnt := (v.object o).refcnt - 1 }).object
      o').refcnt = (v.object o').refcnt - if o = o' then 1 else 0 := by
    rw [hset]
    split
    · next h => rw [h, if_pos rfl]
    · next h => rw [if_neg (Ne.symm h), sub_zero]
  split
  · exact heq
  · rw [object_freeSlots]
    exact heq

theorem refcnt_share (v : Map) (ho : o ≠ 0) (o' : ℕ) :
    ((vmObjectShare v o).object o').refcnt = (v.object o').refcnt + if o = o' then 1 else 0 := by
  unfold vmObjectShare
  rw [if_neg ho, refcnt_setObject]
  split
  · next h => rw [h, if_pos rfl]
  · next h => rw [if_neg (Ne.symm h), add_zero]

theorem refcnt_clearSlot (v : Map) (o pg o' : ℕ) :
    ((clearSlot v o pg).object o').refcnt = (v.object o').refcnt := by
  unfold clearSlot
  split
  · dsimp only
    rw [refcnt_setObject]
    split
    · next h => rw [h]; rfl
    · rfl
  · rfl

theorem refcnt_clearSlots (o start we n va : ℕ) (v : Map) (o' : ℕ) :
    ((clearSlots o start we n va v).object o').refcnt = (v.object o').refcnt := by
  induction n generalizing va v with
  | zero => rfl
  | succ n ih =>
    rw [clearSlots]
    split
    · rw [ih, refcnt_clearSlot]
    · rfl

/-- `vm_object_destroy` of an object that an entry keeps referring to. -/
theorem shifts_destroy (v : Map) (ho : o ≠ 0) :
    Shifts v (vmObjectDestroy v o) fun o' => if o = o' then -1 else 0 := by
  intro l hl
  have hobj := objectsOnly_destroy v o
  refine ⟨l, hobj.sameList.listed hl, fun o' _ => ?_⟩
  have hr : refs (vmObjectDestroy v o) l o' = refs v l o' :=
    refs_congr (fun p _ => by rw [hobj.entry]) o'
  rw [excess, excess, refcnt_destroy v ho, hr]
  dsimp only
  by_cases h : o = o'
  · rw [if_pos h, if_pos h]
    ring
  · rw [if_neg h, if_neg h]
    ring

/-- `vm_object_create` of an object that is not in use. -/
theorem shifts_create (v : Map) (n : ℕ) (h0 : (v.object o).refcnt = 0) :
    Shifts v (vmObjectCreate v o n) fun o' => if o = o' then 1 else 0 := by
  intro l hl
  refine ⟨l, (objectsOnly_setObject v o _).sameList.listed hl, fun o' _ => ?_⟩
  have hr : refs (vmObjectCreate v o n) l o' = refs v l o' := refs_congr (fun _ _ => rfl) o'
  rw [excess, excess, hr, vmObjectCreate]
  dsimp only
  rw [refcnt_setObject]
  by_cases h : o' = o
  · rw [if_pos h, if_pos h.symm, h, h0]
    ring
  · rw [if_neg h, if_neg (Ne.symm h), add_zero]

end Objects

/-! ### Calls -/

section Calls

variable {v : Map} {l : List ℕ} {e : ℕ}

theorem refcnt_releaseEntry (v : Map) (e addr stop : ℕ) {o : ℕ} (ho : o ≠ 0) :
    ((releaseEntry v e addr stop).object o).refcnt =
      (v.object o).refcnt - if (v.entry e).object = o then 1 else 0 := by
  unfold releaseEntry
  dsimp only
  split
  · next h0 => rw [h0, if_neg (Ne.symm ho), sub_zero]
  · next h0 =>
    rw [← refcnt_clearSlots (v.entry e).object (v.entry e).start _ _ _ v o]
    exact refcnt_destroy _ h0 o

theorem excess_releaseEntry (v : Map) (addr stop : ℕ) (he : e ∈ l) (hnd : l.Nodup) {o : ℕ}
    (ho : o ≠ 0) : excess (releaseEntry v e addr stop) l o = excess v l o := by
  have hent := entry_releaseEntry v e addr stop
  have h1 := refs_erase (v := releaseEntry v e addr stop) he o
  have h2 := refs_erase (v := v) he o
  have hsame : refs (releaseEntry v e addr stop) (l.erase e) o = refs v (l.erase e) o := by
    refine refs_congr (fun p hp => ?_) o
    have hne : p ≠ e := fun h => List.Nodup.not_mem_erase hnd (h ▸ hp)
    rw [hent, if_neg hne]
  have hzero : ((releaseEntry v e addr stop).entry e).object = 0 := by
    rw [hent, if_pos rfl]
  rw [hzero, if_neg (Ne.symm ho), hsame] at h1
  rw [excess, excess, refcnt_releaseEntry v e addr stop ho, ← h1, ← h2]
  split
  · push_cast
    ring
  · ring

theorem excess_releaseFrom (addr stop : ℕ) {n b : ℕ} (h : Chain v.nx v.pv b e l₂)
    (hn : l₂.length ≤ n) (hsub : ∀ p ∈ l₂, p ∈ l) (hnd : l.Nodup) {o : ℕ} (ho : o ≠ 0) :
    excess (releaseFrom addr stop n e v) l o = excess v l o := by
  induction l₂ generalizing b e n v with
  | nil =>
    have he : e = 0 := h
    cases n with
    | zero => rfl
    | succ n => rw [releaseFrom, if_pos he]
  | cons c t ih =>
    obtain ⟨rfl, he, -, ht⟩ := h
    obtain ⟨n, rfl, hlen⟩ := exists_fuel hn
    have hsub' : ∀ p ∈ t, p ∈ l := fun p hp => hsub p (.tail _ hp)
    rw [releaseFrom, if_neg he]
    split
    · have hs := sameList_releaseEntry v e addr stop
      rw [ih (by rw [hs.nx, hs.pv]; exact ht) hlen hsub',
        excess_releaseEntry v addr stop (hsub e (.head _)) hnd ho]
    · exact ih ht hlen hsub'

theorem excess_dropEntry (v : Map) (he : e ∈ l) {o : ℕ} (ho : o ≠ 0) :
    excess (dropEntry v e) (l.erase e) o = excess v l o := by
  have hl := linksOnly_unlinkEntry v e
  have hobj := objectsOnly_destroy (unlinkEntry v e) ((unlinkEntry v e).entry e).object
  have h2 := refs_erase (v := v) he o
  have hsame : refs (dropEntry v e) (l.erase e) o = refs v (l.erase e) o := by
    refine refs_congr (fun p _ => ?_) o
    rw [← hl.entry_object p, ← hobj.entry]
    rfl
  have hcount : ((dropEntry v e).object o).refcnt =
      (v.object o).refcnt - if (v.entry e).object = o then 1 else 0 := by
    change ((vmObjectDestroy (unlinkEntry v e) ((unlinkEntry v e).entry e).object).object o).refcnt = _
    rw [hl.entry_object e]
    by_cases h0 : (v.entry e).object = 0
    · rw [h0, if_neg (Ne.symm ho), vmObjectDestroy, if_pos rfl, hl.object, sub_zero]
    · rw [refcnt_destroy _ h0, hl.object]
  rw [excess, excess, hcount, hsame, ← h2]
  split
  · push_cast
    ring
  · rw [sub_zero, Nat.add_zero]

/-- Entries leave the list one after the other. -/
theorem excess_dropEntries {k l : List ℕ} {v : Map} (h : Listed v l) (hk : k ⊆ l) (hnd : k.Nodup)
    {o : ℕ} (ho : o ≠ 0) : ∃ l', Listed (k.foldl dropEntry v) l' ∧
      excess (k.foldl dropEntry v) l' o = excess v l o := by
  induction k generalizing v l with
  | nil => exact ⟨l, h, rfl⟩
  | cons e k ih =>
    have hmem : e ∈ l := hk mem_cons_self
    obtain ⟨hnot, hnd⟩ := nodup_cons.mp hnd
    rw [← excess_dropEntry v hmem ho]
    refine ih (h.drop hmem) (fun p hp => ?_) hnd
    have hpe : p ≠ e := fun he => hnot (he ▸ hp)
    exact (mem_erase_of_ne hpe).mpr (hk (mem_cons_of_mem e hp))

/-- **`vm_map_remove` keeps the excess of every object.** -/
theorem shifts_remove (v : Map) (start stop : ℕ) : Shifts v (vmMapRemove v start stop) fun _ => 0 := by
  intro l hl
  obtain ⟨hl', -, -, -, -, -, heq⟩ := vmMapRemove_spec hl start stop
  refine ⟨_, hl', fun o ho => ?_⟩
  obtain ⟨l'', hl'', he⟩ := excess_dropEntries hl (filter_subset_self _) (hl.chain.nodup.filter _) ho
  rw [← heq] at hl'' he
  rw [hl'.chain.unique hl''.chain, add_zero]
  exact he

/-- **`vm_munmap` keeps the excess of every object.** -/
theorem shifts_munmap (v : Map) (addr size : ℕ) : Shifts v (vmMunmap v addr size).2 fun _ => 0 := by
  unfold vmMunmap
  dsimp only
  split
  · exact Shifts.refl v
  have hrel : Shifts v (releaseFrom addr (add64 addr (pageUp size)) v.nentries v.head v)
      fun _ => 0 := by
    refine fun l hl => ⟨l, (sameList_releaseFrom ..).listed hl, fun o ho => ?_⟩
    rw [excess_releaseFrom addr _ hl.chain hl.count.ge (fun p hp => hp) hl.chain.nodup ho, add_zero]
  exact hrel.trans_zero (shifts_remove _ _ _)

theorem excess_fillEntry {v1 : Map} {l1 : List ℕ} {p offset a stop : ℕ} (hp : p ∉ l1 ++ l₂)
    (h : LinksOnly (fillEntry v p obj offset a stop prot flags) v1) {o : ℕ} (ho : o ≠ 0) :
    excess v1 (l1 ++ p :: l₂) o = excess v (l1 ++ l₂) o := by
  have hobj : ∀ q, (v1.entry q).object = if q = p then obj else (v.entry q).object := by
    intro q
    rw [h.entry_object q, ← (objectsOnly_share v obj).entry]
    simp only [fillEntry, Map.setEntry, Function.update_apply]
    split
    · rfl
    · rfl
  have hrefs : refs v1 (l1 ++ l₂) o = refs v (l1 ++ l₂) o := by
    refine refs_congr (fun q hq => ?_) o
    have hqp : q ≠ p := fun hqp => hp (hqp ▸ hq)
    rw [hobj, if_neg hqp]
  have hcount : (v1.object o).refcnt = (v.object o).refcnt + if obj = o then 1 else 0 := by
    rw [h.object]
    change ((vmObjectShare v obj).object o).refcnt = _
    by_cases h0 : obj = 0
    · rw [h0, vmObjectShare, if_pos rfl, if_neg (Ne.symm ho), add_zero]
    · exact refcnt_share v h0 o
  rw [excess, excess, refs_insert, hrefs, hcount, hobj p, if_pos rfl]
  split
  · push_cast
    ring
  · rw [add_zero, Nat.add_zero]

variable {e : Option ℕ}

theorem shifts_fixed (he : Fresh v e) (obj offset addr size prot flags : ℕ) :
    Shifts v (vmMapFixed v e obj offset addr size prot flags).2 fun _ => 0 := by
  intro l hl
  rcases vmMapFixed_spec hl e (he.not_mem hl) obj offset addr size prot flags with heq | hok
  · rw [heq]
    exact Shifts.refl v l hl
  obtain ⟨p, hp, -, -, -, -, hlist, hlinks⟩ := hok
  refine ⟨_, hlist, fun o ho => ?_⟩
  rw [excess_fillEntry _ hlinks ho, below_append_above, add_zero]
  rw [below_append_above]
  exact (he.not_mem hl p hp).2

theorem shifts_find (he : Fresh v e) (obj offset addr size prot flags : ℕ) :
    Shifts v (vmMapFind v e obj offset addr size prot flags).2.2 fun _ => 0 := by
  unfold vmMapFind
  dsimp only
  split
  · exact Shifts.refl v
  · cases findGap v (pageUp size) 100 (firstCandidate v addr) with
    | none => exact Shifts.refl v
    | some c => exact shifts_fixed he obj offset c (pageUp size) prot flags

theorem shifts_place (he : Fresh v e) (obj addr size prot flags : ℕ) :
    Shifts v (place v e obj addr size prot flags).2.2 fun _ => 0 := by
  unfold place
  split
  · exact shifts_fixed he obj 0 addr size prot flags
  · exact shifts_find he obj 0 addr size prot flags

/-- `vm_map_wire` after a new entry writes page slots only, when the entry has an object or is not
anonymous. -/
theorem pagesOnly_wire_place (hl : Listed v l) (he : Fresh v e)
    (hobj : obj ≠ 0 ∨ flags &&& mapAnon = 0)
    (hok : ¬ (place v e obj addr (pageUp size) prot flags).1 < 0) (objs : ℕ → Option ℕ) (root : ℕ)
    (s : Phys) :
    PagesOnly (place v e obj addr (pageUp size) prot flags).2.2
      (wireOf objs root s (place v e obj addr (pageUp size) prot flags).2.2
        (place v e obj addr (pageUp size) prot flags).2.1 (pageUp size)).2 := by
  obtain ⟨a, ha, -, p, hp, hno, hlist, hlinks⟩ := place_spec hl e (he.not_mem hl) obj addr
    (pageUp size) prot flags hok
  rw [pageUp_pageUp] at hno hlinks
  rw [ha]
  generalize (place v e obj addr (pageUp size) prot flags).2.2 = v1 at hlist hlinks ⊢
  obtain ⟨-, -, q3, -, q5⟩ := entry_of_place hlinks
  change PagesOnly v1 (wireFrom objs root a (add64 a (pageUp size)) v1.nentries v1.head
    ⟨true, v1, s⟩).map
  rw [wireFrom_place (he.not_mem hl p hp).2 hno hlist hlinks]
  split
  · unfold wireEntry
    dsimp only
    rw [q3, q5]
    split
    · next h => exact absurd h.1 (hobj.resolve_right h.2)
    · split
      · exact PagesOnly.refl v1
      · exact pagesOnly_wireChunks (⟨true, v1, s⟩ : Wire)
  · exact PagesOnly.refl v1

end Calls

/-! ### Runs -/

namespace Call

/-- What the kernel does: `vm_mmap` calls `vm_map_wire`, and a new object is one not in use. -/
def Real : Call → Map → Prop
  | mmap wire obj _ _ _ _ _, v => (∃ objs root s, wire = wireOf objs root s) ∧
      ∀ o ∈ obj, o ≠ 0 ∧ (v.object o).refcnt = 0
  | _, _ => True

/-- **The condition** is that this does not happen: an anonymous `vm_mmap` that adds its entry,
whether it succeeds or `vm_map_wire` fails afterwards. -/
def Anonymous : Call → Map → Prop
  | mmap _ obj e addr size prot flags, v => flags &&& mapAnon ≠ 0 ∧ pageUp size ≠ 0 ∧ ∃ o, obj = some o ∧
      ¬ (place (vmObjectCreate v o (pageUp size)) e o addr (pageUp size) prot flags).1 < 0
  | _, _ => False

/-- A successful anonymous `vm_mmap`, undone by `vm_munmap` of the same range, leaves nothing: the
frames are given back, and the object with its page array, which `vm_object_destroy` frees when the
count is no longer positive. -/
def Returns : Call → Map → Prop
  | mmap wire obj e addr size prot flags, v =>
    let x := vmMmap wire v obj e addr size prot flags
    let w := (vmMunmap x.2.2 x.2.1 size).2
    x.1 = 0 → flags &&& mapAnon ≠ 0 → ∀ o ∈ obj, (w.object o).refcnt ≤ 0 ∧
      ∀ k, (x.2.2.object o).pages k ≠ 0 → w.live ((x.2.2.object o).pages k) = false
  | _, _ => True

end Call

section Runs

variable {v : Map} {l : List ℕ}

variable {e : Option ℕ}

/-- `vm_mmap` once its entry is in the list. -/
theorem shifts_wired (hl : Listed v l) (he : Fresh v e)
    (hobj : obj ≠ 0 ∨ flags &&& mapAnon = 0)
    (hok : ¬ (place v e obj addr (pageUp size) prot flags).1 < 0) (objs : ℕ → Option ℕ) (root : ℕ)
    (s : Phys) (v' : Map)
    (hv' : v' = (wireOf objs root s (place v e obj addr (pageUp size) prot flags).2.2
        (place v e obj addr (pageUp size) prot flags).2.1 (pageUp size)).2 ∨
      ∃ start stop, v' = vmMapRemove (wireOf objs root s
        (place v e obj addr (pageUp size) prot flags).2.2
        (place v e obj addr (pageUp size) prot flags).2.1 (pageUp size)).2 start stop) :
    Shifts v v' fun _ => 0 := by
  have h1 := shifts_place he obj addr (pageUp size) prot flags
  have h2 := (pagesOnly_wire_place hl he hobj hok objs root s).shifts
  rcases hv' with rfl | ⟨start, stop, rfl⟩
  · exact h1.trans_zero h2
  · exact (h1.trans_zero h2).trans_zero (shifts_remove _ _ _)

/-- **`vm_mmap`**: an anonymous mapping that is added leaves its object one count too many. -/
theorem shifts_mmap {obj : Option ℕ} (hl : Listed v l) (he : Fresh v e)
    (hr : (Call.mmap wire obj e addr size prot flags).Real v) :
    (¬ (Call.mmap wire obj e addr size prot flags).Anonymous v →
      Shifts v (vmMmap wire v obj e addr size prot flags).2.2 fun _ => 0) ∧
    ((Call.mmap wire obj e addr size prot flags).Anonymous v → ∃ o ∈ obj,
      Shifts v (vmMmap wire v obj e addr size prot flags).2.2 fun o' => if o = o' then 1 else 0) := by
  obtain ⟨⟨objs, root, s, rfl⟩, hobj⟩ := hr
  unfold vmMmap
  dsimp only
  by_cases hs : pageUp size = 0
  · rw [if_pos hs]
    exact ⟨fun _ => Shifts.refl v, fun ha => absurd hs ha.2.1⟩
  rw [if_neg hs]
  by_cases hanon : flags &&& mapAnon = 0
  · -- no object
    have hno : ¬ (flags &&& mapAnon ≠ 0 ∧ obj = none) := fun h => h.1 hanon
    have hov : anonObject v obj (pageUp size) flags = (0, v) := if_neg fun h => h hanon
    rw [if_neg hno, hov]
    refine ⟨fun _ => ?_, fun ha => absurd hanon ha.1⟩
    split
    · rw [vmObjectDestroy, if_pos rfl]
      exact shifts_place he 0 addr (pageUp size) prot flags
    next hok =>
    refine shifts_wired hl he (.inr hanon) hok objs root s _ ?_
    split
    · exact .inr ⟨_, _, rfl⟩
    · exact .inl rfl
  cases obj with
  | none =>
    rw [if_pos ⟨hanon, rfl⟩]
    refine ⟨fun _ => Shifts.refl v, fun ha => ?_⟩
    obtain ⟨-, -, o, ho, -⟩ := ha
    cases ho
  | some o =>
    obtain ⟨ho, h0⟩ := hobj o rfl
    have hno : ¬ (flags &&& mapAnon ≠ 0 ∧ some o = none) := fun h => Option.some_ne_none o h.2
    rw [if_neg hno, anonObject_of_anon hanon]
    have hcr := shifts_create v (pageUp size) h0
    have hso : SameList v (vmObjectCreate v o (pageUp size)) :=
      (objectsOnly_setObject v o _).sameList
    have hpl := hcr.trans_zero (shifts_place (he.same hso) o addr (pageUp size) prot flags)
    split
    · next hneg =>
      -- the count of `vm_object_create` is given up
      refine ⟨fun _ => ?_, fun ha => ?_⟩
      · have hd := hpl.trans (shifts_destroy _ ho)
        have hz : (fun o' => (if o = o' then (1 : ℤ) else 0) + if o = o' then -1 else 0) =
            fun _ => 0 := by
          funext o'
          split
          · rfl
          · rfl
        rwa [hz] at hd
      · obtain ⟨-, -, o', ho', hok⟩ := ha
        cases ho'
        exact absurd hneg hok
    · next hok =>
      refine ⟨fun hn => absurd ⟨hanon, hs, o, rfl, hok⟩ hn, fun _ => ⟨o, rfl, ?_⟩⟩
      refine hcr.trans_zero (shifts_wired (hso.listed hl) (he.same hso) (.inl ho) hok objs root s
        _ ?_)
      split
      · exact .inr ⟨_, _, rfl⟩
      · exact .inl rfl

theorem shifts_call (c : Call) (hl : Listed v l) (hc : c.Legal v) (hr : c.Real v) :
    (¬ c.Anonymous v → Shifts v (c.run v) fun _ => 0) ∧
    (c.Anonymous v → ∃ o ≠ 0, Shifts v (c.run v) fun o' => if o = o' then 1 else 0) := by
  cases c with
  | find e obj offset addr size prot flags =>
    exact ⟨fun _ => shifts_find hc.1 obj offset addr size prot flags, False.elim⟩
  | fixed e obj offset addr size prot flags =>
    exact ⟨fun _ => shifts_fixed hc.1 obj offset addr size prot flags, False.elim⟩
  | remove start stop => exact ⟨fun _ => shifts_remove v start stop, False.elim⟩
  | munmap addr size => exact ⟨fun _ => shifts_munmap v addr size, False.elim⟩
  | mmap wire obj e addr size prot flags =>
    obtain ⟨h1, h2⟩ := shifts_mmap hl hc.2.1 hr
    refine ⟨h1, fun ha => ?_⟩
    obtain ⟨o, ho, hs⟩ := h2 ha
    exact ⟨o, (hr.2 o ho).1, hs⟩

/-- A `vm_mmap` that succeeds has added its entry. -/
theorem anonymous_of_mmap {o : ℕ}
    (hok : (vmMmap wire v (some o) e addr size prot flags).1 = 0) (hanon : flags &&& mapAnon ≠ 0) :
    (Call.mmap wire (some o) e addr size prot flags).Anonymous v := by
  have hneg : (-1 : ℤ) ≠ 0 := by decide
  unfold vmMmap at hok
  dsimp only at hok
  split at hok
  · omega
  next hs =>
  rw [if_neg fun h => nomatch h.2] at hok
  refine ⟨hanon, hs, o, rfl, fun hplace => ?_⟩
  rw [anonObject_of_anon hanon] at hok
  rw [if_pos hplace] at hok
  omega

/-- **One call**: the law is kept, and a mapping can be undone, unless an anonymous mapping is
added. -/
theorem counted_call_iff (c : Call) (hl : Listed v l) (hv : Counted v) (hc : c.Legal v)
    (hr : c.Real v) : Counted (c.run v) ∧ c.Returns v ↔ ¬ c.Anonymous v := by
  obtain ⟨hkeep, hleak⟩ := shifts_call c hl hc hr
  rw [counted_iff hl] at hv
  constructor
  · rintro ⟨hcount, -⟩ ha
    obtain ⟨o, ho, hs⟩ := hleak ha
    obtain ⟨l', hl', he⟩ := hs l hl
    have hex := he o ho
    rw [(counted_iff hl').mp hcount o ho, hv o ho] at hex
    dsimp only at hex
    rw [if_pos rfl] at hex
    omega
  intro hn
  obtain ⟨l', hl', he⟩ := hkeep hn l hl
  refine ⟨(counted_iff hl').mpr fun o ho => by rw [he o ho, hv o ho, add_zero], ?_⟩
  cases c with
  | mmap wire obj e addr size prot flags =>
    intro hok hanon o ho
    obtain rfl : obj = some o := ho
    exact absurd (anonymous_of_mmap hok hanon) hn
  | _ => trivial

end Runs

/-- The calls can be made one after the other. -/
def LegalRun : Map → List Call → Prop
  | _, [] => True
  | v, c :: cs => c.Legal v ∧ c.Real v ∧ LegalRun (c.run v) cs

/-- The counts are right after each call, and each mapping can be undone. -/
def Lawful : Map → List Call → Prop
  | _, [] => True
  | v, c :: cs => Counted (c.run v) ∧ c.Returns v ∧ Lawful (c.run v) cs

/-- No call adds an anonymous mapping. -/
def NoAnonymous : Map → List Call → Prop
  | _, [] => True
  | v, c :: cs => ¬ c.Anonymous v ∧ NoAnonymous (c.run v) cs

theorem lawful_iff {v : Map} {l : List ℕ} (hl : Listed v l) (hv : Counted v) (cs : List Call)
    (h : LegalRun v cs) : Lawful v cs ↔ NoAnonymous v cs := by
  induction cs generalizing v l with
  | nil => exact Iff.rfl
  | cons c cs ih =>
    obtain ⟨hc, hr, hrest⟩ := h
    have hstep := counted_call_iff c hl hv hc hr
    have hnext : Counted (c.run v) → (Lawful (c.run v) cs ↔ NoAnonymous (c.run v) cs) := by
      intro hcount
      obtain ⟨l', hl'⟩ : ∃ l', Listed (c.run v) l' := by
        by_cases ha : c.Anonymous v
        · obtain ⟨o, -, hs⟩ := (shifts_call c hl hc hr).2 ha
          exact (hs l hl).imp fun _ h => h.1
        · exact ((shifts_call c hl hc hr).1 ha l hl).imp fun _ h => h.1
      exact ih hl' hcount hrest
    constructor
    · rintro ⟨hcount, hret, hlaw⟩
      exact ⟨hstep.mp ⟨hcount, hret⟩, (hnext hcount).mp hlaw⟩
    · rintro ⟨hn, hno⟩
      obtain ⟨hcount, hret⟩ := hstep.mpr hn
      exact ⟨hcount, hret, (hnext hcount).mpr hno⟩

/-- **When the counts are right in a run**: from an empty map without objects, after every call and
for every mapping of the run, if and only if no call adds an anonymous mapping. -/
theorem refcnt_law_iff {v : Map} (h0 : ∀ o, (v.object o).refcnt = 0) (lo hi : ℕ) (cs : List Call)
    (h : LegalRun (vmMapInit v lo hi) cs) :
    Lawful (vmMapInit v lo hi) cs ↔ NoAnonymous (vmMapInit v lo hi) cs := by
  have hl : Listed (vmMapInit v lo hi) [] := ⟨rfl, rfl⟩
  refine lawful_iff hl ((counted_iff hl).mpr fun o _ => ?_) cs h
  rw [excess]
  change (v.object o).refcnt - _ = 0
  rw [h0 o]
  rfl

/-! ### Two runs -/

/-- An anonymous `vm_mmap` at an address inside a page, which creates an object and destroys it. -/
def misplacedPage : Call :=
  .mmap (wireOf (fun _ => none) 0x1000 ⟨smallTree, [0x6000], false⟩) (some 1) (some 1) 0x20001 0x1000
    3 (mapAnon + mapFixed)

/-- Then a region without an object is made and unmapped. -/
def createdObject : List Call :=
  [misplacedPage, .fixed (some 1) 0 0 0x20000 0x1000 3 mapFixed, .munmap 0x20000 0x1000]

theorem refcnt_law_iff_createdObject : Lawful emptyMap createdObject := by
  have hplace : ∀ o, (place (vmObjectCreate emptyMap o 0x1000) (some 1) o 0x20001 0x1000 3
      (mapAnon + mapFixed)).1 = -1 := fun _ => rfl
  have hfresh : Fresh (misplacedPage.run emptyMap) (some 1) :=
    fresh_of_listed (l := []) ⟨rfl, rfl⟩ one_ne_zero not_mem_nil
  refine (refcnt_law_iff (fun _ => rfl) 0x10000 0x7FFFF000 createdObject
    ⟨⟨wires_wireOf _ _ _, emptyMap_fresh, by simp, by norm_num⟩, ⟨⟨_, _, _, rfl⟩, ?_⟩,
      ⟨hfresh, by simp, by norm_num⟩, trivial, ⟨by simp, by norm_num⟩, trivial, trivial⟩).mpr
    ⟨?_, False.elim, False.elim, trivial⟩
  · intro o ho
    obtain rfl : 1 = o := by simpa using ho
    exact ⟨one_ne_zero, rfl⟩
  · rintro ⟨-, -, o, -, hok⟩
    exact hok (by rw [show pageUp 0x1000 = 0x1000 from rfl]; exact (hplace o).trans_lt (by decide))

/-- An anonymous page is mapped at `0x400000`. -/
def anonPage : Call :=
  .mmap (wireOf (fun _ => none) 0x1000 ⟨smallTree, [0x6000, 0x7000, 0x8000], false⟩) (some 1) (some 1)
    0x400000 0x1000 3 (mapAnon + mapFixed)

/-- **An anonymous mapping leaks its object**: it is counted twice with one entry, and once more
after its range is unmapped. -/
theorem anonPage_leaks :
    LegalRun emptyMap [anonPage, .munmap 0x400000 0x1000] ∧
    Listed (anonPage.run emptyMap) [1] ∧ ((anonPage.run emptyMap).object 1).refcnt = 2 ∧
    (((Call.munmap 0x400000 0x1000).run (anonPage.run emptyMap)).object 1).refcnt = 1 ∧
    ¬ Lawful emptyMap [anonPage, .munmap 0x400000 0x1000] := by
  have hlist : Listed (anonPage.run emptyMap) [1] :=
    ⟨⟨by decide +kernel, one_ne_zero, by decide +kernel,
      show (anonPage.run emptyMap).nx 1 = 0 by decide +kernel⟩, by decide +kernel⟩
  have hcount : ((anonPage.run emptyMap).object 1).refcnt = 2 := by decide +kernel
  have hobj : ((anonPage.run emptyMap).entry 1).object = 1 := by decide +kernel
  refine ⟨⟨⟨wires_wireOf _ _ _, emptyMap_fresh, by simp, by norm_num⟩, ⟨⟨_, _, _, rfl⟩, ?_⟩,
    ⟨by simp, by norm_num⟩, trivial, trivial⟩, hlist, hcount, by decide +kernel, fun hlaw => ?_⟩
  · intro o ho
    obtain rfl : 1 = o := by simpa using ho
    exact ⟨by simp, rfl⟩
  · have hc := hlaw.1 [1] hlist 1 one_ne_zero
    rw [hcount, refs, countP_cons, hobj] at hc
    cases hc

end TipOS.Vm
