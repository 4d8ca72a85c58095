import TipOS.Vm.WireFails

/-!
# A `vm_mmap` that fails

A `vm_mmap` that returns -1 should leave the entries, the translations and the frames in use as
they were, but for page tables that map nothing (`Undone`).  When the placement fails it does.
When `vm_map_wire` runs out of frames, `vm_map_remove` takes the entry away, and nothing else is
undone: the object keeps the reference of `vm_mmap`, so its frames stay in use and in the tables,
and so does what the kernel heap gave for its record and its array of pages (`HeapBack`).
`mmap_undone_iff` says for which states the failed call leaves no trace.
-/

namespace TipOS.Vm

open Lib Paging

variable {q : ℕ} {w : Wire}

/-! ### The new entry and its object -/

/-- The page count of the object for `n` bytes. -/
def objectPages (n : ℕ) : ℤ :=
  if toInt32 (add64 n 0xFFF / 4096) = 0 then 1 else toInt32 (add64 n 0xFFF / 4096)

/-- `v₁` is `v` with the entry `p` from `a` to `stop` for a new object `o` of `n` bytes. -/
structure Placed (v : Map) (l : List ℕ) (o p a stop n : ℕ) (v₁ : Map) : Prop where
  listed : Listed v₁ (below v.lo a l ++ p :: above v.lo a l)
  not_mem : p ∉ l
  start : (v₁.entry p).start = a
  stop : (v₁.entry p).stop = stop
  object : (v₁.entry p).object = o
  entry : ∀ q ≠ p, ∃ x y, v₁.entry q = { v.entry q with prev := x, next := y }
  live : v₁.live = v.live
  refcnt : (v₁.object o).refcnt = 2
  pages : ∀ k, (v₁.object o).pages k = 0
  pageCount : (v₁.object o).pageCount = objectPages n

section Placed

variable {v v₁ v₂ : Map} {l : List ℕ} {o p a stop n prot flags : ℕ}

theorem placed_of_links (h0 : o ≠ 0) (hp : p ∉ l)
    (hl : Listed v₁ (below v.lo a l ++ p :: above v.lo a l))
    (hk : LinksOnly (fillEntry (vmObjectCreate v o n) p o 0 a stop prot flags) v₁) :
    Placed v l o p a stop n v₁ := by
  have hshare : vmObjectShare (vmObjectCreate v o n) o =
      (vmObjectCreate v o n).setObject o ⟨2, fun _ => 0, objectPages n⟩ := by
    have hcr : (vmObjectCreate v o n).object o = ⟨1, fun _ => 0, objectPages n⟩ :=
      Function.update_self ..
    rw [vmObjectShare, if_neg h0, hcr]
    rfl
  have hobj : v₁.object o = ⟨2, fun _ => 0, objectPages n⟩ := by
    rw [hk.object, fillEntry, hshare]
    exact Function.update_self ..
  obtain ⟨q1, q2, q3, -, -⟩ := entry_of_place hk
  refine ⟨hl, hp, q1, q2, q3, fun q hq => ?_, ?_, by rw [hobj], fun k => by rw [hobj],
    by rw [hobj]⟩
  · obtain ⟨x, y, hxy⟩ := hk.entry q
    refine ⟨x, y, ?_⟩
    rw [hxy, fillEntry, hshare]
    dsimp only [Map.setEntry]
    rw [Function.update_of_ne hq]
    rfl
  · rw [hk.live, fillEntry, hshare]
    rfl

theorem mem_placed : q ∈ below v.lo a l ++ p :: above v.lo a l ↔ q = p ∨ q ∈ l := by
  have hl : q ∈ l ↔ q ∈ below v.lo a l ∨ q ∈ above v.lo a l := by
    rw [← List.mem_append, below_append_above]
  rw [List.mem_append, List.mem_cons, hl]
  exact or_left_comm

theorem Placed.range_of_ne (h : Placed v l o p a stop n v₁) (hq : q ≠ p) :
    v₁.lo q = v.lo q ∧ v₁.hi q = v.hi q := by
  obtain ⟨x, y, he⟩ := h.entry q hq
  rw [Map.lo, Map.hi, he]
  exact ⟨rfl, rfl⟩

theorem live_destroy (h : 1 < (v.object o).refcnt) : (vmObjectDestroy v o).live = v.live := by
  unfold vmObjectDestroy
  split
  · rfl
  have hpos : 0 < ((v.setObject o { v.object o with
      refcnt := (v.object o).refcnt - 1 }).object o).refcnt := by
    rw [refcnt_setObject, if_pos rfl]
    exact Int.sub_pos.mpr h
  rw [if_pos hpos]
  rfl

theorem live_dropEntry (h : 1 < (v.object (v.entry p).object).refcnt) :
    (dropEntry v p).live = v.live := by
  have hl := linksOnly_unlinkEntry v p
  refine (live_destroy ?_).trans hl.live
  rw [hl.entry_object, hl.object]
  exact h

/-- **Only the new entry is inside its range**: the entries are what they were, and the object keeps
one reference and its frames. -/
theorem Placed.remove (h : Placed v l o p a stop n v₁) (hv : Listed v l) (hw : PagesOnly v₁ v₂)
    (ho : o ≠ 0) (hin : ∀ q ∈ l, ¬ (a ≤ v.lo q ∧ v.hi q ≤ stop)) :
    Listed (vmMapRemove v₂ a stop) l ∧
      (∀ q ∈ l, (vmMapRemove v₂ a stop).entry q = v.entry q) ∧
      (vmMapRemove v₂ a stop).live = v₂.live ∧
      ((vmMapRemove v₂ a stop).object o).refcnt = 1 := by
  have hlist := hw.sameList.listed h.listed
  have hmem : p ∈ below v.lo a l ++ p :: above v.lo a l := mem_placed.mpr (.inl rfl)
  have hself : keeps v₂ a stop p = false := by
    rw [keeps, Map.lo, Map.hi, hw.entry, h.start, h.stop]
    simp
  have hkeep : ∀ q ∈ l, keeps v₂ a stop q = true := by
    intro q hq
    have hqp : q ≠ p := fun hqp => h.not_mem (hqp ▸ hq)
    rw [keeps_iff, hw.sameList.lo, hw.sameList.hi, (h.range_of_ne hqp).1, (h.range_of_ne hqp).2]
    exact hin q hq
  have hdrop : vmMapRemove v₂ a stop = dropEntry v₂ p := by
    have hnone : ∀ k ⊆ l, k.filter (!keeps v₂ a stop ·) = [] := fun k hk =>
      List.filter_eq_nil_iff.mpr fun q hq => by simp [hkeep q (hk hq)]
    have hl := below_append_above v.lo a l
    rw [(vmMapRemove_spec hlist a stop).2.2.2.2.2.2, List.filter_append,
      List.filter_cons_of_pos (by simp [hself]), hnone _ fun q hq => hl ▸ List.mem_append_left _ hq,
      hnone _ fun q hq => hl ▸ List.mem_append_right _ hq]
    rfl
  have hl' : Listed (dropEntry v₂ p) l := by
    have hd := hlist.drop hmem
    have hnot : p ∉ below v.lo a l := fun hm => h.not_mem (by
      rw [← below_append_above v.lo a l]
      exact List.mem_append_left _ hm)
    rwa [List.erase_append_right _ hnot, List.erase_cons_head, below_append_above] at hd
  have hlinks := linksOnly_unlinkEntry v₂ p
  have hobj : ((unlinkEntry v₂ p).entry p).object = o := by
    rw [hlinks.entry_object, hw.entry, h.object]
  have hcount : ((dropEntry v₂ p).object o).refcnt = 1 := by
    change ((vmObjectDestroy (unlinkEntry v₂ p) ((unlinkEntry v₂ p).entry p).object).object
      o).refcnt = 1
    rw [hobj, refcnt_destroy _ ho, hlinks.object, hw.refcnt, h.refcnt, if_pos rfl]
    rfl
  rw [hdrop]
  refine ⟨hl', fun q hq => ?_, live_dropEntry ?_, hcount⟩
  · have hqp : q ≠ p := fun hqp => h.not_mem (hqp ▸ hq)
    have hent : (dropEntry v₂ p).entry = (unlinkEntry v₂ p).entry :=
      (objectsOnly_destroy (unlinkEntry v₂ p) _).entry
    obtain ⟨x, y, hxy⟩ := h.entry q hqp
    obtain ⟨x', y', hxy'⟩ := (linksOnly_unlinkEntry v₂ p).entry q
    have heq : (dropEntry v₂ p).entry q = { v.entry q with prev := x', next := y' } := by
      rw [hent, hxy', hw.entry, hxy]
    -- the links are those of the same list
    obtain ⟨hnx, hpv⟩ := hv.chain.links_eq hl'.chain hq
    rw [Map.nx, heq] at hnx
    rw [Map.pv, heq] at hpv
    have hx : x' = (v.entry q).prev := hpv
    have hy : y' = (v.entry q).next := hnx
    rw [heq, hx, hy]
  · rw [hw.entry, h.object, hw.refcnt, h.refcnt]
    simp

theorem Placed.not_listed (h : Placed v l o p a stop n v₁) (hw : PagesOnly v₁ v₂) (hq : q ∈ l)
    (hin : a ≤ v.lo q ∧ v.hi q ≤ stop) : ¬ Listed (vmMapRemove v₂ a stop) l := by
  intro hl
  have hqp : q ≠ p := fun hqp => h.not_mem (hqp ▸ hq)
  have hspec := (vmMapRemove_spec (hw.sameList.listed h.listed) a stop).1
  rw [hl.chain.unique hspec.chain] at hq
  have hkeep := keeps_iff.mp (List.mem_filter.mp hq).2
  rw [hw.sameList.lo, hw.sameList.hi, (h.range_of_ne hqp).1, (h.range_of_ne hqp).2] at hkeep
  exact hkeep hin

end Placed

/-! ### The law -/

/-- **A call that leaves no trace**: the entries and the translations are what they were, and so
are the frames in use, but for tables that map nothing. -/
structure Undone (v : Map) (l : List ℕ) (s : Phys) (r : ℕ) (v' : Map) (s' : Phys) : Prop where
  listed : Listed v' l
  entries : ∀ q ∈ l, v'.entry q = v.entry q
  same : ∀ va, translate s'.mem r va = translate s.mem r va
  live : v'.live = v.live
  frames : ∀ f ∈ s.pool, f ∈ s'.pool ∨ EmptyTable s'.mem r f

/-- **The heap has its frames back**: the record of the object and its array of pages, which is a block
of frames from 256 pages on, take the frames `heap` and hold them until `vm_object_destroy` drops the
last reference. -/
def HeapBack (heap : List ℕ) (obj : Option ℕ) (n flags : ℕ) (v' : Map) : Prop :=
  n ≠ 0 → flags &&& mapAnon ≠ 0 → ∀ o ∈ obj, 0 < (v'.object o).refcnt → heap = []

section Law

variable {v v' v₁ : Map} {l heap : List ℕ} {s : Phys} {r o p a n k stop : ℕ}

theorem Undone.refl (hl : Listed v l) : Undone v l s r v s :=
  ⟨hl, fun _ _ => rfl, fun _ => rfl, rfl, fun _ hf => .inl hf⟩

theorem freeSlots_none (h : ∀ i, (v.object o).pages i = 0) (m i : ℕ) : freeSlots o m i v = v := by
  induction m generalizing i with
  | zero => rfl
  | succ m ih =>
    rw [freeSlots, if_neg (not_not.mpr (h i))]
    exact ih (i + 1)

theorem live_destroy_create (v : Map) (o n : ℕ) :
    (vmObjectDestroy (vmObjectCreate v o n) o).live = v.live := by
  unfold vmObjectDestroy
  split
  · rfl
  dsimp only
  split
  · rfl
  rw [freeSlots_none]
  · rfl
  · intro i
    simp [Map.setObject, vmObjectCreate]

theorem FirstNew.unique {k' : ℕ} (h : FirstNew s r a stop k) (h' : FirstNew s r a stop k') :
    k = k' := by
  rcases lt_trichotomy k k' with hlt | heq | hlt
  · exact absurd (h'.before k hlt) h.new
  · exact heq
  · exact absurd (h.before k' hlt) h'.new

theorem Leaked.not_undone (h : Leaked s r w) (hfree : ∀ f ∈ s.pool, v.live f = false)
    (hlive : v'.live = w.map.live) : ¬ Undone v l s r v' w.phys := by
  intro hu
  rcases h with ⟨f, hf, hl⟩ | ⟨-, f, hf, hnot, hno⟩
  · rw [← hlive, hu.live, hfree f hf] at hl
    cases hl
  · rcases hu.frames f hf with hin | ⟨l', ht, -⟩
    · exact hnot hin
    · exact hno l' ht

/-- **The failed wiring of a new entry.** -/
theorem wire_undone_iff (h : Placed v l o p a stop n v₁) (hv : Listed v l) (ho : o ≠ 0)
    (hs : Space s r)
    (ha : a % 4096 = 0) (hstop : stop < 2 ^ 64) (hfree : ∀ f ∈ s.pool, v.live f = false)
    (hlt : a < stop) (hfail : (wireChunks o r a 0 a stop ⟨true, v₁, s⟩).ok = false) :
    (Undone v l s r (vmMapRemove (wireChunks o r a 0 a stop ⟨true, v₁, s⟩).map a stop)
      (wireChunks o r a 0 a stop ⟨true, v₁, s⟩).phys ∧
      (0 < ((vmMapRemove (wireChunks o r a 0 a stop ⟨true, v₁, s⟩).map a stop).object o).refcnt →
        heap = [])) ↔
    heap = [] ∧ (∀ q ∈ l, ¬ (a ≤ v.lo q ∧ v.hi q ≤ stop)) ∧
      ∃ k, FirstNew s r a stop k ∧ Stopped s r (objectPages n) a k := by
  have hle : stop ≤ 2 ^ 64 - 2 ^ 21 := by
    by_contra hgt
    rw [wireChunks_late (by omega) hstop] at hfail
    cases hfail
  have R : ChunkRange a stop := ⟨ha, hlt, hle⟩
  have hpages : PagesOnly v₁ (wireChunks o r a 0 a stop ⟨true, v₁, s⟩).map :=
    pagesOnly_wireChunks (⟨true, v₁, s⟩ : Wire)
  obtain ⟨k, hk⟩ := exists_firstNew (w := ⟨true, v₁, s⟩) R hs rfl hfail
  have hfirst := wireChunks_first (w := ⟨true, v₁, s⟩) R hs rfl h.pages hk
  simp only [Outcome, h.pageCount] at hfirst
  generalize wireChunks o r a 0 a stop ⟨true, v₁, s⟩ = w at hpages hfirst ⊢
  by_cases hin : ∀ q ∈ l, ¬ (a ≤ v.lo q ∧ v.hi q ≤ stop)
  · obtain ⟨hlist, hent, hlive, hcount⟩ := h.remove hv hpages ho hin
    rw [hcount]
    rcases hfirst with ⟨hst, hq⟩ | ⟨hst, hq⟩
    · have hundone : Undone v l s r (vmMapRemove w.map a stop) w.phys :=
        ⟨hlist, hent, hq.phys.same, by rw [hlive, hq.map, h.live],
          fun f hf => hq.phys.emptyTable hs hf⟩
      exact ⟨fun hc => ⟨hc.2 one_pos, hin, k, hk, hst⟩, fun hc => ⟨hundone, fun _ => hc.1⟩⟩
    refine iff_of_false (fun hc => hq.not_undone hfree hlive hc.1) fun hc => ?_
    obtain ⟨-, -, k', hk', hst'⟩ := hc
    rw [hk'.unique hk] at hst'
    exact hst hst'
  · refine iff_of_false (fun hu => hin fun q hq hqin => ?_) fun hc => hin hc.2.1
    exact h.not_listed hpages hq hqin hu.1.listed

/-- **The condition**: if the call gets as far as the wiring, the object took no frame for its record
and its array, its range has no other entry inside, and the first page of the range without an entry
of a page table is the page where the wiring stops. -/
def LeavesNoTrace (heap : List ℕ) (v : Map) (l : List ℕ) (s : Phys) (r : ℕ) (obj e : Option ℕ)
    (addr n flags : ℕ) : Prop :=
  n ≠ 0 → e ≠ none → (flags &&& mapAnon ≠ 0 → obj ≠ none) → ∀ a ∈ target v addr n flags,
    heap = [] ∧ (∀ q ∈ l, ¬ (a ≤ v.lo q ∧ v.hi q ≤ add64 a n)) ∧
      ∃ k, FirstNew s r a (add64 a n) k ∧ Stopped s r (objectPages n) a k

/-- The object goes when there is no place for it. -/
theorem undone_anonObject (heap : List ℕ) (hl : Listed v l) {obj : Option ℕ} (h0 : obj ≠ some 0)
    (n flags : ℕ) :
    Undone v l s r (vmObjectDestroy (anonObject v obj n flags).2 (anonObject v obj n flags).1) s ∧
      HeapBack heap obj n flags
        (vmObjectDestroy (anonObject v obj n flags).2 (anonObject v obj n flags).1) := by
  unfold anonObject
  split
  · have ho := (objectsOnly_setObject v (obj.getD 0) _).trans
      (objectsOnly_destroy (vmObjectCreate v (obj.getD 0) n) (obj.getD 0))
    refine ⟨⟨ho.sameList.listed hl, fun q _ => by rw [ho.entry], fun _ => rfl,
      live_destroy_create v _ n, fun _ hf => .inl hf⟩, fun _ _ o hobj hpos => ?_⟩
    obtain rfl : obj = some o := hobj
    have hne : o ≠ 0 := fun h => h0 (congrArg some h)
    rw [Option.getD_some, refcnt_destroy _ hne, if_pos rfl, vmObjectCreate, refcnt_setObject,
      if_pos rfl] at hpos
    exact absurd hpos (lt_irrefl 0)
  · next hanon =>
    rw [vmObjectDestroy, if_pos rfl]
    exact ⟨Undone.refl hl, fun _ h => absurd h hanon⟩

theorem wireEntry_plain {obj : Option ℕ} (ho : (w.map.entry p).object = 0)
    (hf : (w.map.entry p).flags &&& mapAnon = 0) : wireEntry obj r p a stop w = w := by
  unfold wireEntry
  dsimp only
  rw [if_neg fun h => h.2 hf, if_pos ho]

theorem ok_of_failed {x y : ℕ × Map × Phys}
    (h : (if (if w.ok then (0 : ℤ) else -1) < 0 then ((-1 : ℤ), x) else (0, y)).1 = -1) :
    w.ok = false := by
  cases hw : w.ok with
  | false => rfl
  | true =>
    rw [hw, if_pos rfl, if_neg (lt_irrefl _)] at h
    have h : (0 : ℤ) = -1 := h
    cases h

theorem anonObject_cases {obj : Option ℕ} {flags : ℕ} (h0 : obj ≠ some 0)
    (hnone : ¬ (flags &&& mapAnon ≠ 0 ∧ obj = none)) :
    flags &&& mapAnon = 0 ∧ anonObject v obj n flags = (0, v) ∨
      ∃ o ≠ 0, (flags &&& mapAnon ≠ 0 ∧ obj = some o) ∧
        anonObject v obj n flags = (o, vmObjectCreate v o n) := by
  by_cases hanon : flags &&& mapAnon = 0
  · exact .inl ⟨hanon, if_neg fun h => h hanon⟩
  · cases obj with
    | none => exact absurd ⟨hanon, rfl⟩ hnone
    | some o => exact .inr ⟨o, fun h => h0 (congrArg some h), ⟨hanon, rfl⟩, if_pos hanon⟩

/-- **The failed wiring after the placement.** -/
theorem wired_undone_iff {x : ℕ × Map} {obj obj' : Option ℕ} {prot flags : ℕ} (hn : n ≠ 0)
    (hx : flags &&& mapAnon = 0 ∧ x = (0, v) ∨
      ∃ o ≠ 0, (flags &&& mapAnon ≠ 0 ∧ obj' = some o) ∧ x = (o, vmObjectCreate v o n))
    (hl : Listed v l) (hs : Space s r) (hfree : ∀ f ∈ s.pool, v.live f = false) (ha : a % 4096 = 0)
    (hp : p ∉ l) (hlist : Listed v₁ (below x.2.lo a l ++ p :: above x.2.lo a l))
    (hlinks : LinksOnly (fillEntry x.2 p x.1 0 a (add64 a n) prot flags) v₁)
    (hw : w = if a < add64 a n then wireEntry obj r p a (add64 a n) ⟨true, v₁, s⟩
      else ⟨true, v₁, s⟩)
    (hfail : w.ok = false) :
    (Undone v l s r (vmMapRemove w.map a (add64 a n)) w.phys ∧
      HeapBack heap obj' n flags (vmMapRemove w.map a (add64 a n))) ↔
    heap = [] ∧ (∀ q ∈ l, ¬ (a ≤ v.lo q ∧ v.hi q ≤ add64 a n)) ∧
      ∃ k, FirstNew s r a (add64 a n) k ∧ Stopped s r (objectPages n) a k := by
  have hlt : a < add64 a n := by
    by_contra hge
    rw [hw, if_neg hge] at hfail
    cases hfail
  rw [if_pos hlt] at hw
  obtain ⟨-, -, q3, q4, q5⟩ := entry_of_place hlinks
  rcases hx with ⟨hanon, rfl⟩ | ⟨o, ho, ⟨hanon, rfl⟩, rfl⟩
  · -- an entry without an object
    rw [hw, wireEntry_plain q3 (by rw [q5]; exact hanon)] at hfail
    cases hfail
  have hplaced : Placed v l o p a (add64 a n) n v₁ := placed_of_links ho hp hlist hlinks
  rw [wireEntry_whole hplaced.start hplaced.stop hplaced.object ho q4] at hw
  rw [hw] at hfail ⊢
  rw [← wire_undone_iff hplaced hl ho hs ha (Nat.mod_lt _ (by simp)) hfree hlt hfail]
  refine and_congr_right fun _ => ⟨fun h => h hn hanon o rfl, fun h _ _ o' ho' => ?_⟩
  cases ho'
  exact h

end Law

/-! ### Two pages in a small tree -/

/-- A map without entries and without frames in use. -/
def idleMap : Map := { emptyMap with live := fun _ => false }

theorem idleMap_listed : Listed idleMap [] := ⟨rfl, rfl⟩

theorem idleMap_fresh : Fresh idleMap (some 1) := by
  intro p hp
  exact ⟨(emptyMap_fresh p hp).1, fun l hl => (emptyMap_fresh p hp).2 l ⟨hl.chain, hl.count⟩⟩

/-- An anonymous `vm_mmap` of two pages with the free frames `pool`. -/
def mmapTwoPages (pool : List ℕ) : ℤ × ℕ × Map × Phys :=
  vmMmapPhys (fun _ => none) 0x1000 ⟨smallTree, pool, false⟩ idleMap (some 1) (some 1) 0x400000
    0x2000 3 (mapAnon + mapFixed)

end TipOS.Vm
