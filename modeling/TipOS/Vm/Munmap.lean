import TipOS.Vm.MapRuns

/-!
# `vm_munmap`

`vm_munmap` combines three tests.  The frames of an entry are freed on the pages that meet
the range, the object of an entry is given up when the entry meets the range at all, and an
entry leaves the list only when it lies inside the range.  The three agree exactly when
every entry that meets the range lies inside it, and then `vm_munmap` does what its name
says: `munmap_exact_iff`.  A range that cuts an entry leaves the entry in the list, still
covering the range, and takes the object, with all frames outside the range, away from it.
-/

namespace TipOS.Vm

open Lib List Nat

/-! ### Giving up frames -/

/-- `i` is an index of the page array of an object with `page_count = n`, as `vm_munmap`
and `obj_get_page` (unsigned) or `vm_object_destroy` (signed) test it. -/
def Slot (n : ℤ) (i : ℕ) : Prop := (i : ℤ) < n % 2 ^ 64 ∨ i < n.toNat

/-- The object `o` holds the frame `pa`. -/
def Holds (v : Map) (o pa : ℕ) : Prop :=
  ∃ i, Slot (v.object o).pageCount i ∧ (v.object o).pages i = pa

/-- From `v` to `w` the objects in `S` may lose frames, and frames they hold may be freed. -/
structure Releases (S : ℕ → Prop) (v w : Map) : Prop where
  live : ∀ pa, w.live pa = true → v.live pa = true
  count : ∀ o, (w.object o).pageCount = (v.object o).pageCount
  pages : ∀ o i, (w.object o).pages i = (v.object o).pages i ∨ (w.object o).pages i = 0
  other : ∀ o, ¬ S o → w.object o = v.object o
  keep : ∀ pa, pa ≠ 0 → (∀ o, S o → ¬ Holds v o pa) → w.live pa = v.live pa

namespace Releases

variable {S T : ℕ → Prop} {u v w : Map}

theorem of_eq (ho : w.object = v.object) (hl : w.live = v.live) : Releases S v w where
  live pa h := hl ▸ h
  count o := by rw [ho]
  pages o i := .inl (by rw [ho])
  other o _ := by rw [ho]
  keep pa _ _ := by rw [hl]

theorem refl (v : Map) : Releases S v v := of_eq rfl rfl

theorem not_holds (h : Releases S v w) {o pa : ℕ} (hpa : pa ≠ 0) (hn : ¬ Holds v o pa) :
    ¬ Holds w o pa := by
  rintro ⟨i, hi, hp⟩
  rcases h.pages o i with he | he
  · exact hn ⟨i, by rwa [← h.count], he ▸ hp⟩
  · exact hpa (hp.symm.trans he)

theorem trans (h : Releases S u v) (h' : Releases S v w) : Releases S u w where
  live pa hp := h.live pa (h'.live pa hp)
  count o := (h'.count o).trans (h.count o)
  pages o i := by
    rcases h'.pages o i with he | he
    · rw [he]
      exact h.pages o i
    · exact .inr he
  other o ho := (h'.other o ho).trans (h.other o ho)
  keep pa hpa hn :=
    (h'.keep pa hpa fun o ho => h.not_holds hpa (hn o ho)).trans (h.keep pa hpa hn)

theorem mono (h : Releases S v w) (hST : ∀ o, S o → T o) : Releases T v w where
  live := h.live
  count := h.count
  pages := h.pages
  other o ho := h.other o fun hs => ho (hST o hs)
  keep pa hpa hn := h.keep pa hpa fun o ho => hn o (hST o ho)

end Releases

theorem releases_setRefcnt (v : Map) (o : ℕ) (r : ℤ) :
    Releases (· = o) v (v.setObject o { v.object o with refcnt := r }) := by
  have h : ∀ q, ((v.setObject o { v.object o with refcnt := r }).object q).pageCount =
      (v.object q).pageCount ∧
      ((v.setObject o { v.object o with refcnt := r }).object q).pages = (v.object q).pages := by
    intro q
    by_cases hq : q = o
    · subst hq; simp [Map.setObject]
    · simp [Map.setObject, hq]
  exact ⟨fun _ hp => hp, fun q => (h q).1, fun q i => .inl (by rw [(h q).2]),
    fun q hq => by simp [Map.setObject, hq], fun _ _ _ => rfl⟩

theorem releases_vmFreePage {v : Map} {o pa : ℕ} (h : Holds v o pa) :
    Releases (· = o) v (vmFreePage v pa) where
  live q hq := by
    by_cases he : q = pa
    · subst he; simp [vmFreePage] at hq
    · simpa [vmFreePage, he] using hq
  count _ := rfl
  pages _ _ := .inl rfl
  other _ _ := rfl
  keep q _ hn := by
    have he : q ≠ pa := fun he => hn o rfl (he ▸ h)
    simp [vmFreePage, he]

theorem releases_freeSlots (o n i : ℕ) (v : Map) (hn : i + n ≤ (v.object o).pageCount.toNat) :
    Releases (· = o) v (freeSlots o n i v) := by
  induction n generalizing i v with
  | zero => exact Releases.refl v
  | succ n ih =>
    unfold freeSlots
    dsimp only
    split
    · refine (releases_vmFreePage ⟨i, .inr (by omega), rfl⟩).trans (ih _ _ ?_)
      exact le_of_eq_of_le (by omega) hn
    · exact ih _ _ (by omega)

theorem releases_destroy (v : Map) (o : ℕ) : Releases (· = o) v (vmObjectDestroy v o) := by
  unfold vmObjectDestroy
  split
  · exact Releases.refl v
  dsimp only
  have hr := releases_setRefcnt v o ((v.object o).refcnt - 1)
  split
  · exact hr
  · exact hr.trans (releases_freeSlots o _ 0 _ (zero_add _).le)

theorem releases_clearSlot (v : Map) (o pg : ℕ) : Releases (· = o) v (clearSlot v o pg) := by
  unfold clearSlot
  split
  · next h =>
    refine (releases_vmFreePage ⟨pg, .inl h.1, rfl⟩).trans ⟨fun _ hp => hp, fun q => ?_,
      fun q i => ?_, fun q hq => by simp [Map.setObject, hq], fun _ _ _ => rfl⟩
    · by_cases hq : q = o
      · subst hq; simp [Map.setObject]
      · simp [Map.setObject, hq]
    · by_cases hq : q = o
      · subst hq
        by_cases hi : i = pg
        · subst hi; simp [Map.setObject]
        · simp [Map.setObject, hi]
      · simp [Map.setObject, hq]
  · exact Releases.refl v

theorem releases_clearSlots (o start we n va : ℕ) (v : Map) :
    Releases (· = o) v (clearSlots o start we n va v) := by
  induction n generalizing va v with
  | zero => exact Releases.refl v
  | succ n ih =>
    unfold clearSlots
    split
    · exact (releases_clearSlot v o _).trans (ih _ _)
    · exact Releases.refl v

/-! ### The loop over the entries -/

section Release

variable {v : Map} {l : List ℕ} {e p n b : ℕ}

/-- The test of `vm_munmap` on an entry. -/
def Meets (v : Map) (addr stop p : ℕ) : Prop := v.lo p < stop ∧ addr < v.hi p

instance (v : Map) (addr stop p : ℕ) : Decidable (Meets v addr stop p) :=
  inferInstanceAs (Decidable (_ ∧ _))

theorem releases_releaseEntry (v : Map) (e addr stop : ℕ) :
    Releases (fun o => o ≠ 0 ∧ (v.entry e).object = o) v (releaseEntry v e addr stop) := by
  unfold releaseEntry
  dsimp only
  split
  · exact Releases.refl v
  next h0 =>
  refine Releases.mono (((releases_clearSlots ..).trans (releases_destroy _ _)).trans
    (Releases.of_eq rfl rfl)) ?_
  rintro o rfl
  exact ⟨h0, rfl⟩

theorem entry_releaseEntry (v : Map) (e addr stop p : ℕ) : (releaseEntry v e addr stop).entry p =
    if p = e then { v.entry e with object := 0 } else v.entry p := by
  unfold releaseEntry
  dsimp only
  split
  · next h0 =>
    split
    · next he => rw [he, ← h0]
    · rfl
  have ho : (vmObjectDestroy (clearSlots (v.entry e).object (v.entry e).start
      (if (v.entry e).stop < stop then (v.entry e).stop else stop)
      (((if (v.entry e).stop < stop then (v.entry e).stop else stop) -
        pageDown (if addr < (v.entry e).start then (v.entry e).start else addr) + 4095) / 4096)
      (pageDown (if addr < (v.entry e).start then (v.entry e).start else addr)) v)
      (v.entry e).object).entry = v.entry :=
    ((objectsOnly_clearSlots ..).trans (objectsOnly_destroy ..)).entry
  simp only [Map.setEntry, ho, Function.update_apply]

/-- **The outer loop of `vm_munmap`** gives up the objects of the entries that meet the range. -/
theorem releaseFrom_spec (addr stop : ℕ) (h : Chain v.nx v.pv b e l) (hn : l.length ≤ n) :
    Releases (fun o => ∃ p ∈ l, Meets v addr stop p ∧ o ≠ 0 ∧ (v.entry p).object = o) v
      (releaseFrom addr stop n e v) ∧
    ∀ p, (releaseFrom addr stop n e v).entry p =
      if p ∈ l ∧ Meets v addr stop p then { v.entry p with object := 0 } else v.entry p := by
  induction l generalizing b e n v with
  | nil =>
    have he : e = 0 := h
    have heq : releaseFrom addr stop n e v = v := by
      cases n with
      | zero => rfl
      | succ n => rw [releaseFrom, if_pos he]
    rw [heq]
    exact ⟨Releases.refl v, fun p => by simp⟩
  | cons c t ih =>
    have hnd := (nodup_cons.mp h.nodup).1
    obtain ⟨rfl, he, _, ht⟩ := h
    obtain ⟨n, rfl, hlen⟩ := exists_fuel hn
    unfold releaseFrom
    rw [if_neg he]
    dsimp only
    by_cases hm : (v.entry e).start < stop ∧ addr < (v.entry e).stop
    · rw [if_pos hm]
      have hs := sameList_releaseEntry v e addr stop
      have hent := entry_releaseEntry v e addr stop
      have hmt : ∀ p, Meets (releaseEntry v e addr stop) addr stop p ↔ Meets v addr stop p := by
        intro p
        rw [Meets, hs.lo, hs.hi, Meets]
      obtain ⟨hrel, hents⟩ := ih (b := e) (by rw [hs.nx, hs.pv]; exact ht) hlen
      rw [hs.nx]
      constructor
      · refine ((releases_releaseEntry v e addr stop).mono ?_).trans (hrel.mono ?_)
        · exact fun o ho => ⟨e, by simp, hm, ho⟩
        rintro o ⟨p, hp, hpm, hpo⟩
        have hpe : p ≠ e := fun hpe => hnd (hpe ▸ hp)
        rw [hent, if_neg hpe] at hpo
        exact ⟨p, by simp [hp], (hmt p).mp hpm, hpo⟩
      · intro p
        rw [hents p, hent p]
        by_cases hpe : p = e
        · subst hpe
          rw [if_neg (fun hh => hnd hh.1), if_pos rfl, if_pos ⟨by simp, hm⟩]
        · simp only [hmt, mem_cons, hpe, false_or, if_false]
    · rw [if_neg hm]
      obtain ⟨hrel, hents⟩ := ih ht hlen
      constructor
      · refine hrel.mono ?_
        rintro o ⟨p, hp, hpm, hpo⟩
        exact ⟨p, by simp [hp], hpm, hpo⟩
      · intro p
        rw [hents p]
        by_cases hpe : p = e
        · subst hpe
          rw [if_neg (fun hh => hnd hh.1), if_neg (fun hh => hm hh.2)]
        · simp only [mem_cons, hpe, false_or]

end Release

theorem releases_dropEntry (v : Map) (e : ℕ) :
    Releases (· = (v.entry e).object) v (dropEntry v e) := by
  have hl := linksOnly_unlinkEntry v e
  have hd := releases_destroy (unlinkEntry v e) ((unlinkEntry v e).entry e).object
  rw [hl.entry_object] at hd
  refine (Releases.of_eq hl.object hl.live).trans (hd.trans ?_)
  rw [← hl.entry_object]
  exact Releases.of_eq rfl rfl

theorem releases_removeFrom (start stop n e : ℕ) (v : Map) :
    Releases (fun _ => True) v (removeFrom start stop n e v) := by
  induction n generalizing e v with
  | zero => exact Releases.refl v
  | succ n ih =>
    rw [removeFrom]
    split
    · exact Releases.refl v
    split
    · exact ((releases_dropEntry v e).mono fun _ _ => trivial).trans (ih _ _)
    · exact ih _ _

/-! ### The whole call -/

section Call

variable {v : Map} {l : List ℕ}

/-- **`vm_munmap`** of a range that is not empty after rounding: the entries inside the range
leave the list, the entries that meet it lose their objects, and only the objects of these
lose frames. -/
theorem vmMunmap_spec (addr size : ℕ) (h : Listed v l) (hr : Ranges v l) (hs : pageUp size ≠ 0) :
    let stop := add64 addr (pageUp size)
    let v' := (vmMunmap v addr size).2
    Listed v' (l.filter (keeps v addr stop)) ∧ v'.lo = v.lo ∧ v'.hi = v.hi ∧
    v'.minOffset = v.minOffset ∧ v'.maxOffset = v.maxOffset ∧
    (∀ p, (v'.entry p).offset = (v.entry p).offset) ∧
    (∀ p ∈ l, (v'.entry p).object = if Meets v addr stop p then 0 else (v.entry p).object) ∧
    Releases (fun o => ∃ p ∈ l, Meets v addr stop p ∧ o ≠ 0 ∧ (v.entry p).object = o) v v' := by
  intro stop v'
  have heq : v' = vmMapRemove (releaseFrom addr stop v.nentries v.head v) addr stop := by
    show (vmMunmap v addr size).2 = _
    rw [vmMunmap, if_neg hs]
  obtain ⟨hrel, hent⟩ := releaseFrom_spec addr stop h.chain h.count.ge
  have hsame := sameList_releaseFrom addr stop v.nentries v.head v
  rw [heq]
  generalize releaseFrom addr stop v.nentries v.head v = w at *
  have hobj : ∀ p ∈ l, (w.entry p).object =
      if Meets v addr stop p then 0 else (v.entry p).object := by
    intro p hp
    rw [hent p]
    by_cases hm : Meets v addr stop p
    · rw [if_pos ⟨hp, hm⟩, if_pos hm]
    · rw [if_neg (fun hh => hm hh.2), if_neg hm]
  have hks : keeps w addr stop = keeps v addr stop := by
    funext p
    rw [keeps, keeps, hsame.lo, hsame.hi]
  obtain ⟨hl, hlo, hhi, hmin, hmax, hlinks, -⟩ := vmMapRemove_spec (hsame.listed h) addr stop
  -- an entry that is removed is not empty, so it meets the range and has no object any more
  have hlk : LinksOnly w (vmMapRemove w addr stop) := by
    refine hlinks fun p hp hk => ?_
    have hin : addr ≤ v.lo p ∧ v.hi p ≤ stop := by
      by_contra hc
      rw [hks, keeps_iff.mpr hc] at hk
      cases hk
    have hpos := hr.nonempty p hp
    rw [hobj p hp, if_pos ⟨by omega, by omega⟩]
  rw [hks] at hl
  refine ⟨hl, hlo.trans hsame.lo, hhi.trans hsame.hi, hmin.trans hsame.minOffset,
    hmax.trans hsame.maxOffset, fun p => ?_, fun p hp => ?_, ?_⟩
  · rw [hlk.entry_offset, hent p]
    split <;> rfl
  · rw [hlk.entry_object, hobj p hp]
  · exact hrel.trans (Releases.of_eq hlk.object hlk.live)

end Call

/-! ### What backs an address -/

/-- The object of the entry that covers `va`. -/
def objectAt (v : Map) (va : ℕ) : ℕ :=
  if vmMapFindEntry v va = 0 then 0 else (v.entry (vmMapFindEntry v va)).object

/-- The page index of `va` in the object of the entry `p`, as `vm_map_wire` computes it. -/
def slotOf (v : Map) (p va : ℕ) : ℕ :=
  add64 (sub64 va (v.entry p).start) (v.entry p).offset / 4096

/-- The frame the object of the entry `p` has for `va`, 0 when it has none. -/
def frameOf (v : Map) (p va : ℕ) : ℕ :=
  let o := v.object (v.entry p).object
  if (v.entry p).object ≠ 0 ∧ (slotOf v p va : ℤ) < o.pageCount % 2 ^ 64 then o.pages (slotOf v p va)
  else 0

/-- The frame behind `va`. -/
def frameAt (v : Map) (va : ℕ) : ℕ :=
  if vmMapFindEntry v va = 0 then 0 else frameOf v (vmMapFindEntry v va) va

/-- A process map: a well formed list below `2 ^ 64`, whose entries have offset 0 and own
their objects and the frames in them. -/
structure ProcessMap (v : Map) (l : List ℕ) : Prop where
  listed : Listed v l
  ranges : Ranges v l
  bound : v.maxOffset < 2 ^ 64
  offset : ∀ p ∈ l, (v.entry p).offset = 0
  objects : ∀ p ∈ l, ∀ q ∈ l, (v.entry p).object ≠ 0 →
    (v.entry p).object = (v.entry q).object → p = q
  frames : ∀ p ∈ l, ∀ q ∈ l, ∀ pa, pa ≠ 0 → (v.entry p).object ≠ 0 → (v.entry q).object ≠ 0 →
    Holds v (v.entry p).object pa → Holds v (v.entry q).object pa → p = q

/-- **What `vm_munmap` is for.**  It uncovers the range and nothing else, keeps the object and
the frame behind every other address, and a later `vm_munmap` of the page of such an address
still gives its frame back. -/
structure Exact (v : Map) (addr size : ℕ) : Prop where
  covers : ∀ va, vmMapCovers (vmMunmap v addr size).2 va = true ↔
    vmMapCovers v va = true ∧ ¬ (addr ≤ va ∧ va < addr + size)
  object : ∀ va, vmMapCovers v va = true → ¬ (addr ≤ va ∧ va < addr + size) →
    objectAt (vmMunmap v addr size).2 va = objectAt v va ∧
    (objectAt v va ≠ 0 →
      (vmMunmap v addr size).2.object (objectAt v va) = v.object (objectAt v va))
  frame : ∀ va, vmMapCovers v va = true → ¬ (addr ≤ va ∧ va < addr + size) →
    frameAt (vmMunmap v addr size).2 va = frameAt v va ∧
    (frameAt v va ≠ 0 → (vmMunmap v addr size).2.live (frameAt v va) = v.live (frameAt v va))
  released : ∀ va, vmMapCovers v va = true → ¬ (addr ≤ va ∧ va < addr + size) →
    frameAt v va ≠ 0 →
    (vmMunmap (vmMunmap v addr size).2 (pageDown va) 4096).2.live (frameAt v va) = false

section Backing

variable {v w : Map} {l : List ℕ} {p va addr size : ℕ}

theorem findEntry_eq_of_mem (h : Listed v l) (hr : Ranges v l) (hp : p ∈ l) (hlo : v.lo p ≤ va)
    (hhi : va < v.hi p) : vmMapFindEntry v va = p := by
  obtain ⟨hq, h1, h2⟩ := h.findEntry_mem hp ⟨hlo, hhi⟩
  exact hr.ordered.eq_of_mem hq hp h1 h2 hlo hhi

theorem objectAt_eq_of_mem (h : Listed v l) (hr : Ranges v l) (hp : p ∈ l) (hlo : v.lo p ≤ va)
    (hhi : va < v.hi p) : objectAt v va = (v.entry p).object := by
  rw [objectAt, findEntry_eq_of_mem h hr hp hlo hhi, if_neg (h.chain.ne_zero p hp)]

theorem frameAt_eq_of_mem (h : Listed v l) (hr : Ranges v l) (hp : p ∈ l) (hlo : v.lo p ≤ va)
    (hhi : va < v.hi p) : frameAt v va = frameOf v p va := by
  rw [frameAt, findEntry_eq_of_mem h hr hp hlo hhi, if_neg (h.chain.ne_zero p hp)]

theorem frameOf_holds (h : frameOf v p va ≠ 0) :
    (v.entry p).object ≠ 0 ∧ Holds v (v.entry p).object (frameOf v p va) := by
  unfold frameOf at h ⊢
  dsimp only at h ⊢
  split at h
  · next hc =>
    rw [if_pos hc]
    exact ⟨hc.1, _, .inl hc.2, rfl⟩
  · omega

theorem frameOf_congr (he : w.lo p = v.lo p) (ho : (w.entry p).object = (v.entry p).object)
    (hf : (w.entry p).offset = (v.entry p).offset)
    (hobj : (v.entry p).object ≠ 0 → w.object (v.entry p).object = v.object (v.entry p).object) :
    frameOf w p va = frameOf v p va := by
  have hs : slotOf w p va = slotOf v p va := by
    rw [slotOf, slotOf, hf]
    exact congrArg (fun s => add64 (sub64 va s) (v.entry p).offset / 4096) he
  unfold frameOf
  dsimp only
  rw [hs, ho]
  by_cases h0 : (v.entry p).object = 0
  · simp [h0]
  · rw [hobj h0]

theorem slotOf_eq (hoff : (v.entry p).offset = 0) (hlo : v.lo p ≤ va) (hva : va < 2 ^ 64) :
    slotOf v p va = (va - v.lo p) / 4096 := by
  have hs : sub64 va (v.entry p).start = va - v.lo p := by
    have hstart : (v.entry p).start = v.lo p := rfl
    rw [sub64, hstart]
    omega
  rw [slotOf, hoff, hs, add64, add_zero, mod_eq_of_lt (by omega)]

end Backing

/-! ### Unmapping one page -/

section Page

variable {v : Map} {l : List ℕ} {p q va pg o : ℕ}

theorem clearSlot_live (hs : (pg : ℤ) < (v.object o).pageCount % 2 ^ 64)
    (hp : (v.object o).pages pg ≠ 0) : (clearSlot v o pg).live ((v.object o).pages pg) = false := by
  rw [clearSlot, if_pos ⟨hs, hp⟩]
  simp [Map.setObject, vmFreePage]

/-- The frame of the page `a` of an entry is free after `vm_munmap` treats the entry for that
page. -/
theorem releaseEntry_page_live {a : ℕ} (hoff : (v.entry p).offset = 0) (ha : a % 4096 = 0)
    (hlo : v.lo p ≤ a) (hhi : a + 4096 ≤ v.hi p) (hf : frameOf v p a ≠ 0) :
    (releaseEntry v p a (a + 4096)).live (frameOf v p a) = false := by
  obtain ⟨h0, -⟩ := frameOf_holds hf
  have hslot : sub64 a (v.entry p).start / 4096 = slotOf v p a := by
    rw [slotOf, hoff, add64, add_zero, mod_eq_of_lt]
    exact mod_lt _ (by simp)
  have hc : (slotOf v p a : ℤ) < (v.object (v.entry p).object).pageCount % 2 ^ 64 ∧
      frameOf v p a = (v.object (v.entry p).object).pages (slotOf v p a) := by
    unfold frameOf at hf ⊢
    dsimp only at hf ⊢
    split at hf
    · next hc => exact ⟨hc.2, if_pos hc⟩
    · omega
  have hlo' : ¬ a < (v.entry p).start := not_lt.mpr hlo
  have hhi' : ¬ (v.entry p).stop < a + 4096 := not_lt.mpr hhi
  have hdown : pageDown a = a := by rw [pageDown]; omega
  have hone : (a + 4096 - a + 4095) / 4096 = 1 := by omega
  have hclear : clearSlots (v.entry p).object (v.entry p).start (a + 4096) 1 a v =
      clearSlot v (v.entry p).object (slotOf v p a) := by
    rw [clearSlots, if_pos (by omega), clearSlots, hslot]
  unfold releaseEntry
  dsimp only
  rw [if_neg h0, if_neg hlo', if_neg hhi', hdown, hone, hclear, hc.2]
  have hfree := clearSlot_live hc.1 (hc.2 ▸ hf)
  by_contra hlive
  have hlive' := (releases_destroy _ _).live _ (Bool.not_eq_false _ ▸ hlive)
  cases hfree.symm.trans hlive'

/-- The outer loop, when `p` is the only entry that meets the range. -/
theorem releaseFrom_live {b e n addr stop pa : ℕ} (h : Chain v.nx v.pv b e l) (hn : l.length ≤ n)
    (hp : p ∈ l) (hm : Meets v addr stop p) (hu : ∀ q ∈ l, Meets v addr stop q → q = p)
    (hfree : (releaseEntry v p addr stop).live pa = false) :
    (releaseFrom addr stop n e v).live pa = false := by
  induction l generalizing b e n with
  | nil => simp at hp
  | cons c t ih =>
    obtain ⟨rfl, he, _, ht⟩ := h
    obtain ⟨n, rfl, hlen⟩ := exists_fuel hn
    unfold releaseFrom
    rw [if_neg he]
    dsimp only
    by_cases hem : (v.entry e).start < stop ∧ addr < (v.entry e).stop
    · obtain rfl : e = p := hu e (by simp) hem
      rw [if_pos hem]
      have hs := sameList_releaseEntry v e addr stop
      have hrel := (releaseFrom_spec (v := releaseEntry v e addr stop) (b := e) (n := n)
        addr stop (by rw [hs.nx, hs.pv]; exact ht) hlen).1
      rw [hs.nx]
      by_contra hlive
      cases hfree.symm.trans (hrel.live pa (by simpa using hlive))
    · have hpe : p ≠ e := fun hpe => hem (hpe ▸ hm)
      rw [if_neg hem]
      exact ih ht hlen ((mem_cons.mp hp).resolve_left hpe)
        fun q hq => hu q (.tail _ hq)

/-- **`vm_munmap` of the page of a covered address frees the frame behind it.** -/
theorem munmap_page_live (h : Listed v l) (hr : Ranges v l) (hb : v.maxOffset < 2 ^ 64)
    (hp : p ∈ l) (hoff : (v.entry p).offset = 0) (hlo : v.lo p ≤ va) (hhi : va < v.hi p)
    (hf : frameOf v p va ≠ 0) :
    (vmMunmap v (pageDown va) 4096).2.live (frameOf v p va) = false := by
  have hpal := hr.aligned p hp
  have hpin := hr.within p hp
  have ha : pageDown va % 4096 = 0 := by rw [pageDown]; omega
  have hav : pageDown va ≤ va ∧ va < pageDown va + 4096 := by rw [pageDown]; omega
  generalize hae : pageDown va = a at ha hav
  have hloa : v.lo p ≤ a := by omega
  have hhia : a + 4096 ≤ v.hi p := by omega
  have hfr : frameOf v p va = frameOf v p a := by
    have hs : slotOf v p va = slotOf v p a := by
      rw [slotOf_eq hoff hlo (by omega), slotOf_eq hoff hloa (by omega)]
      omega
    rw [frameOf, frameOf, hs]
  have hsize : pageUp 4096 = 4096 := by decide
  have hstop : add64 a 4096 = a + 4096 := mod_eq_of_lt (by omega)
  -- an aligned entry that meets the page contains its first byte
  have hu : ∀ q ∈ l, Meets v a (a + 4096) q → q = p := by
    intro q hq hm
    obtain ⟨hm1, hm2⟩ := hm
    have hqal := hr.aligned q hq
    exact hr.ordered.eq_of_mem hq hp (by omega) hm2 hloa (by omega)
  have hfree := releaseFrom_live h.chain h.count.ge hp ⟨by omega, by omega⟩ hu
    (releaseEntry_page_live hoff ha hloa hhia (hfr ▸ hf))
  have heq : (vmMunmap v a 4096).2 =
      vmMapRemove (releaseFrom a (a + 4096) v.nentries v.head v) a (a + 4096) := by
    rw [vmMunmap, hsize, hstop]
    rfl
  rw [heq, hfr]
  by_contra hlive
  rw [Bool.not_eq_false] at hlive
  cases hfree.symm.trans ((releases_removeFrom ..).live _ hlive)

end Page

/-! ### When `vm_munmap` is exact -/

section Exactness

variable {v : Map} {l : List ℕ} {addr size : ℕ}

/-- The entry `p` and the range have an address in common. -/
def Cuts (v : Map) (addr size p : ℕ) : Prop :=
  ∃ x, v.lo p ≤ x ∧ x < v.hi p ∧ addr ≤ x ∧ x < addr + size

/-- The condition: an entry that has an address in common with the range lies inside it, and
the end of the range is a 64-bit number. -/
def Whole (v : Map) (l : List ℕ) (addr size : ℕ) : Prop :=
  ∀ p ∈ l, Cuts v addr size p → addr ≤ v.lo p ∧ v.hi p ≤ addr + size ∧ addr + size < 2 ^ 64

theorem whole_of_exact (h : ProcessMap v l) (hs : size % 4096 = 0) (hlt : size < 2 ^ 64)
    (hle : addr + size ≤ 2 ^ 64) (hx : Exact v addr size) : Whole v l addr size := by
  rintro p hp ⟨x, hlo, hhi, hax, hxs⟩
  have hup := pageUp_of_aligned hs hlt
  obtain ⟨hl', hlo', hhi', -⟩ := vmMunmap_spec addr size h.listed h.ranges
    (by rw [hup]; omega)
  rw [hup] at hl'
  -- an entry that stays would still cover the common address
  have hgone : keeps v addr (add64 addr size) p = false := by
    by_contra hk
    have hcov : vmMapCovers (vmMunmap v addr size).2 x := by
      refine hl'.covers_iff.mpr ⟨p, mem_filter.mpr ⟨hp, by simpa using hk⟩, ?_⟩
      rw [hlo', hhi']
      exact ⟨hlo, hhi⟩
    exact ((hx.covers x).mp hcov).2 ⟨hax, hxs⟩
  have hin : addr ≤ v.lo p ∧ v.hi p ≤ add64 addr size := by
    by_contra hc
    rw [keeps_iff.mpr hc] at hgone
    cases hgone
  have hwrap : addr + size < 2 ^ 64 := by
    by_contra hc
    have h0 : add64 addr size = 0 := by
      rw [add64, show addr + size = 2 ^ 64 by omega, mod_self]
    omega
  rw [add64, mod_eq_of_lt hwrap] at hin
  exact ⟨hin.1, hin.2, hwrap⟩

/-- Under the condition, an entry meets the range for `vm_munmap` exactly when it is removed,
and otherwise has no address in common with it. -/
theorem meets_cases (h : ProcessMap v l) (h0 : size ≠ 0) (hw : Whole v l addr size) {p : ℕ}
    (hp : p ∈ l) :
    (Meets v addr (add64 addr size) p ∧ keeps v addr (add64 addr size) p = false ∧
      addr ≤ v.lo p ∧ v.hi p ≤ addr + size) ∨
    (¬ Meets v addr (add64 addr size) p ∧ keeps v addr (add64 addr size) p ∧
      ¬ Cuts v addr size p) := by
  have hpos := h.ranges.nonempty p hp
  by_cases hc : Cuts v addr size p
  · obtain ⟨hlo, hhi, hlt⟩ := hw p hp hc
    have hsum : add64 addr size = addr + size := mod_eq_of_lt hlt
    refine .inl ⟨⟨by omega, by omega⟩, ?_, hlo, hhi⟩
    rw [keeps, hsum, decide_eq_true ⟨hlo, hhi⟩]
    rfl
  · have hno : ¬ Meets v addr (add64 addr size) p := by
      rintro ⟨hm1, hm2⟩
      have hmod : add64 addr size ≤ addr + size := mod_le _ _
      exact hc ⟨max addr (v.lo p), le_max_right _ _, by omega, le_max_left _ _, by omega⟩
    refine .inr ⟨hno, keeps_iff.mpr fun hin => hno ⟨by omega, by omega⟩, hc⟩

/-- The entries `l'` that stay, with everything behind them, are what the call leaves, and the
others lie inside the range: then the call is exact. -/
theorem exact_of_kept {l' : List ℕ} {v' : Map} (h : ProcessMap v l)
    (hv' : (vmMunmap v addr size).2 = v') (hl' : Listed v' l') (hr' : Ranges v' l')
    (hlo : v'.lo = v.lo) (hhi : v'.hi = v.hi) (hmax : v'.maxOffset = v.maxOffset)
    (hoff : ∀ p, (v'.entry p).offset = (v.entry p).offset) (hsub : ∀ p ∈ l', p ∈ l)
    (hin : ∀ p ∈ l, p ∉ l' → addr ≤ v.lo p ∧ v.hi p ≤ addr + size)
    (hcut : ∀ p ∈ l', ¬ Cuts v addr size p)
    (hobj : ∀ p ∈ l', (v'.entry p).object = (v.entry p).object)
    (hobjs : ∀ p ∈ l', (v.entry p).object ≠ 0 →
      v'.object (v.entry p).object = v.object (v.entry p).object)
    (hlive : ∀ p ∈ l', ∀ pa, pa ≠ 0 → (v.entry p).object ≠ 0 → Holds v (v.entry p).object pa →
      v'.live pa = v.live pa) : Exact v addr size := by
  -- an address outside the range is covered by an entry that stays
  have hout : ∀ va, vmMapCovers v va → ¬ (addr ≤ va ∧ va < addr + size) →
      ∃ p ∈ l', v.lo p ≤ va ∧ va < v.hi p := by
    intro va hcov hva
    obtain ⟨p, hp, hpa⟩ := h.listed.covers_iff.mp hcov
    refine ⟨p, ?_, hpa⟩
    by_contra hgone
    obtain ⟨h1, h2⟩ := hin p hp hgone
    exact hva ⟨h1.trans hpa.1, hpa.2.trans_le h2⟩
  have hframe : ∀ p ∈ l', ∀ va, frameOf v' p va = frameOf v p va := fun p hp va =>
    frameOf_congr (congrFun hlo p) (hobj p hp) (hoff p) (hobjs p hp)
  constructor
  · intro va
    rw [hv', hl'.covers_iff, hlo, hhi]
    constructor
    · rintro ⟨p, hp, hpa⟩
      refine ⟨h.listed.covers_iff.mpr ⟨p, hsub p hp, hpa⟩, fun hva => ?_⟩
      exact hcut p hp ⟨va, hpa.1, hpa.2, hva.1, hva.2⟩
    · rintro ⟨hcov, hva⟩
      exact hout va hcov hva
  · intro va hcov hva
    obtain ⟨p, hp, h1, h2⟩ := hout va hcov hva
    have ho' : objectAt v' va = (v'.entry p).object :=
      objectAt_eq_of_mem hl' hr' hp (by rwa [hlo]) (by rwa [hhi])
    rw [hv', ho', objectAt_eq_of_mem h.listed h.ranges (hsub p hp) h1 h2, hobj p hp]
    exact ⟨rfl, hobjs p hp⟩
  · intro va hcov hva
    obtain ⟨p, hp, h1, h2⟩ := hout va hcov hva
    have hf' : frameAt v' va = frameOf v' p va :=
      frameAt_eq_of_mem hl' hr' hp (by rwa [hlo]) (by rwa [hhi])
    rw [hv', hf', frameAt_eq_of_mem h.listed h.ranges (hsub p hp) h1 h2, hframe p hp]
    refine ⟨rfl, fun hne => ?_⟩
    obtain ⟨ho, hh⟩ := frameOf_holds hne
    exact hlive p hp _ hne ho hh
  · intro va hcov hva hne
    obtain ⟨p, hp, h1, h2⟩ := hout va hcov hva
    rw [frameAt_eq_of_mem h.listed h.ranges (hsub p hp) h1 h2, ← hframe p hp] at hne ⊢
    rw [hv']
    exact munmap_page_live hl' hr' (hmax ▸ h.bound) hp ((hoff p).trans (h.offset p (hsub p hp)))
      (by rwa [hlo]) (by rwa [hhi]) hne

theorem exact_of_whole (h : ProcessMap v l) (hs : size % 4096 = 0) (hlt : size < 2 ^ 64)
    (hw : Whole v l addr size) : Exact v addr size := by
  have hup := pageUp_of_aligned hs hlt
  by_cases h0 : size = 0
  · subst h0
    refine exact_of_kept h rfl h.listed h.ranges rfl rfl rfl (fun _ => rfl) (fun _ hp => hp)
      (fun p hp hn => absurd hp hn) ?_ (fun _ _ => rfl) (fun _ _ _ => rfl) (fun _ _ _ _ _ _ => rfl)
    rintro p _ ⟨x, -, -, h1, h2⟩
    omega
  have hcase := fun p (hp : p ∈ l) => meets_cases h h0 hw hp
  obtain ⟨hl', hlo, hhi, hmin, hmax, hoff, hobj, hrel⟩ :=
    vmMunmap_spec addr size h.listed h.ranges (by rw [hup]; exact h0)
  rw [hup] at hl' hobj hrel
  have hkept : ∀ p ∈ l.filter (keeps v addr (add64 addr size)),
      p ∈ l ∧ ¬ Meets v addr (add64 addr size) p ∧ ¬ Cuts v addr size p := by
    intro p hp
    obtain ⟨hpl, hk⟩ := mem_filter.mp hp
    rcases hcase p hpl with ⟨-, hk', -⟩ | ⟨hm, -, hc⟩
    · cases hk'.symm.trans hk
    · exact ⟨hpl, hm, hc⟩
  refine exact_of_kept h rfl hl' ?_ hlo hhi hmax hoff (fun p hp => (hkept p hp).1) ?_
    (fun p hp => (hkept p hp).2.2) ?_ ?_ ?_
  · exact (h.ranges.filter _).congr (fun p _ => congrFun hlo p) (fun p _ => congrFun hhi p) hmin hmax
  · intro p hp hgone
    rcases hcase p hp with ⟨-, -, hin⟩ | ⟨-, hk, -⟩
    · exact hin
    · exact absurd (mem_filter.mpr ⟨hp, hk⟩) hgone
  · intro p hp
    rw [hobj p (hkept p hp).1, if_neg (hkept p hp).2.1]
  · intro p hp ho
    refine hrel.other _ ?_
    rintro ⟨q, hq, hm, -, hqo⟩
    exact (hkept p hp).2.1 (h.objects p (hkept p hp).1 q hq ho hqo.symm ▸ hm)
  · intro p hp pa hpa ho hh
    refine hrel.keep pa hpa ?_
    rintro o ⟨q, hq, hm, hqo, rfl⟩ hh'
    exact (hkept p hp).2.1 (h.frames p (hkept p hp).1 q hq pa hpa ho hqo hh hh' ▸ hm)

/-- **`vm_munmap` of a page-aligned range is exact exactly when it cuts no entry.** -/
theorem munmap_exact_iff (h : ProcessMap v l) (hs : size % 4096 = 0) (hlt : size < 2 ^ 64)
    (hle : addr + size ≤ 2 ^ 64) : Exact v addr size ↔ Whole v l addr size :=
  ⟨whole_of_exact h hs hlt hle, exact_of_whole h hs hlt⟩

/-- A map with one anonymous entry of two pages, as `vm_mmap` leaves it. -/
def twoPageMap : Map where
  entry p := if p = 1 then ⟨0, 0, 0x20000, 0x22000, 5, 0, 3, 0x1012⟩ else ⟨0, 0, 0, 0, 0, 0, 0, 0⟩
  object o := if o = 5 then
    ⟨2, fun i => if i = 0 then 0x200000 else if i = 1 then 0x201000 else 0, 2⟩
    else ⟨0, fun _ => 0, 0⟩
  head := 1
  nentries := 1
  minOffset := 0x10000
  maxOffset := 0x7FFFF000
  live _ := true

theorem twoPageMap_process : ProcessMap twoPageMap [1] where
  listed := ⟨⟨rfl, one_ne_zero, rfl, rfl⟩, rfl⟩
  ranges := ⟨pairwise_singleton _ _, by decide, by decide, by decide⟩
  bound := by decide
  offset := by decide
  objects p hp q hq _ _ := by simp_all
  frames p hp q hq _ _ _ _ _ _ := by simp_all

theorem munmap_exact_iff_twoPages : Exact twoPageMap 0x20000 0x2000 := by
  refine (munmap_exact_iff twoPageMap_process (by decide) (by decide) (by decide)).mpr ?_
  intro p hp _
  obtain rfl : p = 1 := by simpa using hp
  decide

/-- **`vm_munmap` of the second of two pages**: the range stays covered, and the frame of the
first page is not given back by a later `vm_munmap` of it. -/
theorem munmap_cut : ¬ Exact twoPageMap 0x21000 0x1000 ∧
    vmMapCovers (vmMunmap twoPageMap 0x21000 0x1000).2 0x21000 = true ∧
    (vmMunmap (vmMunmap twoPageMap 0x21000 0x1000).2 0x20000 0x1000).2.live 0x200000 = true := by
  refine ⟨fun h => ?_, by decide, by decide⟩
  exact ((h.covers 0x21000).mp (by decide)).2 (by decide)

end Exactness

end TipOS.Vm
