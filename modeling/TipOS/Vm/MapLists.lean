import TipOS.Lib.Interval
import TipOS.Vm.Map

/-!
# What the loops over the entry list do

`Listed v l`: the entries of the map `v` are `l`, threaded both ways from `head`, and
`nentries` is their number.  Each loop of `vm_map.c` is then a function of `l`, because
the bound `nentries` is enough for it to reach the end of the list; insertion and removal
give the new list.  Nothing here asks that the intervals of the entries are in order.
-/

namespace TipOS.Vm

open Function Lib List

namespace Map

/-- The interval of an entry. -/
def lo (v : Map) (p : ℕ) : ℕ := (v.entry p).start
def hi (v : Map) (p : ℕ) : ℕ := (v.entry p).stop

variable (v : Map) (p q : ℕ)

@[simp] theorem nx_setNext : (v.setNext p q).nx = update v.nx p q :=
  comp_update Entry.next v.entry p _

@[simp] theorem pv_setNext : (v.setNext p q).pv = v.pv :=
  (comp_update Entry.prev v.entry p _).trans (update_eq_self p v.pv)

@[simp] theorem nx_setPrev : (v.setPrev p q).nx = v.nx :=
  (comp_update Entry.next v.entry p _).trans (update_eq_self p v.nx)

@[simp] theorem pv_setPrev : (v.setPrev p q).pv = update v.pv p q :=
  comp_update Entry.prev v.entry p _

end Map

/-- The entries of the map are `l`. -/
structure Listed (v : Map) (l : List ℕ) : Prop where
  chain : Chain v.nx v.pv 0 v.head l
  count : v.nentries = l.length

/-! ### What may change

`ObjectsOnly`: the entries and the map record stay.  `SameList`: an entry's object may
change too.  `LinksOnly`: the links change, and the interval and object of no entry. -/

structure ObjectsOnly (v v' : Map) : Prop where
  entry : v'.entry = v.entry
  head : v'.head = v.head
  nentries : v'.nentries = v.nentries
  minOffset : v'.minOffset = v.minOffset
  maxOffset : v'.maxOffset = v.maxOffset

structure SameList (v v' : Map) : Prop where
  nx : v'.nx = v.nx
  pv : v'.pv = v.pv
  lo : v'.lo = v.lo
  hi : v'.hi = v.hi
  head : v'.head = v.head
  nentries : v'.nentries = v.nentries
  minOffset : v'.minOffset = v.minOffset
  maxOffset : v'.maxOffset = v.maxOffset

structure LinksOnly (v v' : Map) : Prop where
  entry : ∀ p, ∃ a b, v'.entry p = { v.entry p with prev := a, next := b }
  object : v'.object = v.object
  live : v'.live = v.live
  minOffset : v'.minOffset = v.minOffset
  maxOffset : v'.maxOffset = v.maxOffset

namespace ObjectsOnly

variable {v v' v'' : Map}

theorem refl (v : Map) : ObjectsOnly v v := ⟨rfl, rfl, rfl, rfl, rfl⟩

theorem trans (h : ObjectsOnly v v') (h' : ObjectsOnly v' v'') : ObjectsOnly v v'' :=
  ⟨h'.entry.trans h.entry, h'.head.trans h.head, h'.nentries.trans h.nentries,
    h'.minOffset.trans h.minOffset, h'.maxOffset.trans h.maxOffset⟩

theorem sameList (h : ObjectsOnly v v') : SameList v v' where
  nx := by funext p; simp [Map.nx, h.entry]
  pv := by funext p; simp [Map.pv, h.entry]
  lo := by funext p; simp [Map.lo, h.entry]
  hi := by funext p; simp [Map.hi, h.entry]
  head := h.head
  nentries := h.nentries
  minOffset := h.minOffset
  maxOffset := h.maxOffset

end ObjectsOnly

namespace SameList

variable {v v' v'' : Map} {l : List ℕ}

theorem refl (v : Map) : SameList v v := ⟨rfl, rfl, rfl, rfl, rfl, rfl, rfl, rfl⟩

theorem trans (h : SameList v v') (h' : SameList v' v'') : SameList v v'' :=
  ⟨h'.nx.trans h.nx, h'.pv.trans h.pv, h'.lo.trans h.lo, h'.hi.trans h.hi, h'.head.trans h.head,
    h'.nentries.trans h.nentries, h'.minOffset.trans h.minOffset, h'.maxOffset.trans h.maxOffset⟩

theorem listed (h : SameList v v') (hl : Listed v l) : Listed v' l :=
  ⟨by rw [h.nx, h.pv, h.head]; exact hl.chain, h.nentries.trans hl.count⟩

end SameList

namespace LinksOnly

variable {v v' v'' : Map}

theorem refl (v : Map) : LinksOnly v v := ⟨fun _ => ⟨_, _, rfl⟩, rfl, rfl, rfl, rfl⟩

theorem trans (h : LinksOnly v v') (h' : LinksOnly v' v'') : LinksOnly v v'' := by
  refine ⟨fun p => ?_, h'.object.trans h.object, h'.live.trans h.live,
    h'.minOffset.trans h.minOffset, h'.maxOffset.trans h.maxOffset⟩
  obtain ⟨a, b, he⟩ := h.entry p
  obtain ⟨a', b', he'⟩ := h'.entry p
  exact ⟨a', b', by rw [he', he]⟩

theorem setCounts (v : Map) (h n : ℕ) : LinksOnly v { v with head := h, nentries := n } :=
  ⟨fun p => ⟨(v.entry p).prev, (v.entry p).next, rfl⟩, rfl, rfl, rfl, rfl⟩

theorem lo (h : LinksOnly v v') : v'.lo = v.lo := by
  funext p
  obtain ⟨a, b, he⟩ := h.entry p
  rw [Map.lo, he, Map.lo]

theorem hi (h : LinksOnly v v') : v'.hi = v.hi := by
  funext p
  obtain ⟨a, b, he⟩ := h.entry p
  rw [Map.hi, he, Map.hi]

theorem entry_object (h : LinksOnly v v') (p : ℕ) : (v'.entry p).object = (v.entry p).object := by
  obtain ⟨a, b, he⟩ := h.entry p
  rw [he]

theorem entry_offset (h : LinksOnly v v') (p : ℕ) : (v'.entry p).offset = (v.entry p).offset := by
  obtain ⟨a, b, he⟩ := h.entry p
  rw [he]

theorem setLinks (v : Map) (p a b : ℕ) :
    LinksOnly v (v.setEntry p { v.entry p with prev := a, next := b }) := by
  refine ⟨fun y => ?_, rfl, rfl, rfl, rfl⟩
  by_cases h : y = p
  · subst h; exact ⟨a, b, by simp [Map.setEntry]⟩
  · exact ⟨(v.entry y).prev, (v.entry y).next, by simp [Map.setEntry, h]⟩

theorem setNext (v : Map) (p q : ℕ) : LinksOnly v (v.setNext p q) := setLinks v p _ q

theorem setPrev (v : Map) (p q : ℕ) : LinksOnly v (v.setPrev p q) := setLinks v p q _

end LinksOnly

/-! ### Objects -/

theorem objectsOnly_setObject (v : Map) (p : ℕ) (o : Object) : ObjectsOnly v (v.setObject p o) :=
  ⟨rfl, rfl, rfl, rfl, rfl⟩

theorem objectsOnly_vmFreePage (v : Map) (pa : ℕ) : ObjectsOnly v (vmFreePage v pa) :=
  ⟨rfl, rfl, rfl, rfl, rfl⟩

theorem objectsOnly_share (v : Map) (o : ℕ) : ObjectsOnly v (vmObjectShare v o) := by
  unfold vmObjectShare
  split
  · exact ObjectsOnly.refl v
  · exact objectsOnly_setObject v o _

theorem objectsOnly_freeSlots (o n i : ℕ) (v : Map) : ObjectsOnly v (freeSlots o n i v) := by
  induction n generalizing i v with
  | zero => exact ObjectsOnly.refl v
  | succ n ih =>
    refine ObjectsOnly.trans ?_ (ih _ _)
    split
    · exact objectsOnly_vmFreePage v _
    · exact ObjectsOnly.refl v

theorem objectsOnly_destroy (v : Map) (o : ℕ) : ObjectsOnly v (vmObjectDestroy v o) := by
  unfold vmObjectDestroy
  split
  · exact ObjectsOnly.refl v
  dsimp only
  split
  · exact objectsOnly_setObject v o _
  · exact (objectsOnly_setObject v o _).trans (objectsOnly_freeSlots o _ _ _)

theorem objectsOnly_clearSlot (v : Map) (o pg : ℕ) : ObjectsOnly v (clearSlot v o pg) := by
  unfold clearSlot
  split
  · exact (objectsOnly_vmFreePage v _).trans (objectsOnly_setObject _ o _)
  · exact ObjectsOnly.refl v

theorem objectsOnly_clearSlots (o start we n va : ℕ) (v : Map) :
    ObjectsOnly v (clearSlots o start we n va v) := by
  induction n generalizing va v with
  | zero => exact ObjectsOnly.refl v
  | succ n ih =>
    unfold clearSlots
    split
    · exact (objectsOnly_clearSlot v o _).trans (ih _ _)
    · exact ObjectsOnly.refl v

theorem sameList_setEntry (v : Map) {e : ℕ} {x : Entry} (h1 : x.next = (v.entry e).next)
    (h2 : x.prev = (v.entry e).prev) (h3 : x.start = (v.entry e).start)
    (h4 : x.stop = (v.entry e).stop) : SameList v (v.setEntry e x) := by
  have hall : ∀ (g : Entry → ℕ) (q : ℕ), g x = g (v.entry e) →
      g ((v.setEntry e x).entry q) = g (v.entry q) := by
    intro g q hg
    change g (update v.entry e x q) = _
    rw [update_apply]
    split
    · next hq => rw [hg, hq]
    · rfl
  exact ⟨funext fun q => hall Entry.next q h1, funext fun q => hall Entry.prev q h2,
    funext fun q => hall Entry.start q h3, funext fun q => hall Entry.stop q h4, rfl, rfl, rfl,
    rfl⟩

theorem sameList_releaseEntry (v : Map) (e addr stop : ℕ) :
    SameList v (releaseEntry v e addr stop) := by
  unfold releaseEntry
  dsimp only
  split
  · exact SameList.refl v
  · exact ((objectsOnly_clearSlots _ _ _ _ _ v).trans
      (objectsOnly_destroy _ _)).sameList.trans (sameList_setEntry _ rfl rfl rfl rfl)

theorem sameList_releaseFrom (addr stop n e : ℕ) (v : Map) :
    SameList v (releaseFrom addr stop n e v) := by
  induction n generalizing e v with
  | zero => exact SameList.refl v
  | succ n ih =>
    unfold releaseFrom
    split
    · exact SameList.refl v
    refine SameList.trans ?_ (ih _ _)
    split
    · exact sameList_releaseEntry v e addr stop
    · exact SameList.refl v

/-! ### The loops as functions of the list -/

section Loops

variable {v : Map} {l : List ℕ} {b e a start stop n : ℕ}

theorem findEntryFrom_eq (h : Chain v.nx v.pv b e l) (hn : l.length ≤ n) :
    findEntryFrom v a n e = (l.find? fun p => decide (v.lo p ≤ a ∧ a < v.hi p)).getD 0 := by
  induction l generalizing b e n with
  | nil =>
    have he : e = 0 := h
    cases n <;> simp [findEntryFrom, he]
  | cons c t ih =>
    obtain ⟨rfl, he, _, ht⟩ := h
    obtain ⟨n, rfl, hlen⟩ := exists_fuel hn
    have hrec := ih ht hlen
    unfold findEntryFrom
    rw [if_neg he]
    by_cases hc : (v.entry e).start ≤ a ∧ a < (v.entry e).stop
    · rw [if_pos hc, find?_cons_of_pos (by exact decide_eq_true hc), Option.getD_some]
    · rw [if_neg hc, find?_cons_of_neg (by exact fun hd => hc (of_decide_eq_true hd))]
      exact hrec

theorem overlapFrom_iff (h : Chain v.nx v.pv b e l) (hn : l.length ≤ n) :
    overlapFrom v start stop n e = true ↔ ∃ p ∈ l, v.lo p < stop ∧ start < v.hi p := by
  induction l generalizing b e n with
  | nil =>
    have he : e = 0 := h
    cases n <;> simp [overlapFrom, he]
  | cons c t ih =>
    obtain ⟨rfl, he, _, ht⟩ := h
    obtain ⟨n, rfl, hlen⟩ := exists_fuel hn
    have hrec := ih ht hlen
    unfold overlapFrom
    rw [if_neg he]
    by_cases hc : (v.entry e).start < stop ∧ start < (v.entry e).stop
    · rw [if_pos hc]
      exact ⟨fun _ => ⟨e, by simp, hc⟩, fun _ => rfl⟩
    rw [if_neg hc]
    refine hrec.trans ⟨fun ⟨p, hp, hh⟩ => ⟨p, by simp [hp], hh⟩, fun ⟨p, hp, hh⟩ => ?_⟩
    rcases mem_cons.mp hp with rfl | hp
    · exact absurd hh hc
    · exact ⟨p, hp, hh⟩

theorem locate_eq (h : Chain v.nx v.pv b e l) (hn : l.length ≤ n) :
    locate v a n b e = ((below v.lo a l).getLastD b, (above v.lo a l).headD 0) := by
  induction l generalizing b e n with
  | nil =>
    have he : e = 0 := h
    cases n <;> simp [locate, he, below, above]
  | cons c t ih =>
    obtain ⟨rfl, he, _, ht⟩ := h
    obtain ⟨n, rfl, hlen⟩ := exists_fuel hn
    have hrec := ih ht hlen
    unfold locate
    by_cases hc : v.lo e < a
    · rw [if_pos ⟨he, hc⟩, below_cons_of_lt hc, above_cons_of_lt hc, getLastD_cons]
      exact hrec
    · rw [if_neg (fun hh => hc hh.2), below_cons_of_not_lt hc, above_cons_of_not_lt hc]
      rfl

end Loops

/-! ### Insertion -/

theorem linksOnly_linkEntry (v : Map) (e prev cur : ℕ) : LinksOnly v (linkEntry v e prev cur) := by
  have h1 : LinksOnly v ((v.setNext e cur).setPrev e prev) :=
    (LinksOnly.setNext v e cur).trans (LinksOnly.setPrev _ e prev)
  have h2 : LinksOnly v (if cur ≠ 0 then ((v.setNext e cur).setPrev e prev).setPrev cur e
      else (v.setNext e cur).setPrev e prev) := by
    split
    · exact h1.trans (LinksOnly.setPrev _ cur e)
    · exact h1
  unfold linkEntry
  dsimp only
  split
  · exact h2.trans (LinksOnly.setCounts _ _ _)
  · exact (h2.trans (LinksOnly.setNext _ prev e)).trans (LinksOnly.setCounts _ _ _)

theorem nx_linkEntry (v : Map) (e prev cur y : ℕ) : (linkEntry v e prev cur).nx y =
    if prev ≠ 0 ∧ y = prev then e else if y = e then cur else v.nx y := by
  have hin : (if cur ≠ 0 then ((v.setNext e cur).setPrev e prev).setPrev cur e
      else (v.setNext e cur).setPrev e prev).nx = update v.nx e cur := by
    split <;> simp
  by_cases hp : prev = 0
  · have : (linkEntry v e prev cur).nx = update v.nx e cur := by
      rw [← hin, linkEntry]
      simp only [hp]
      rfl
    rw [this, update_apply]
    simp [hp]
  · have : (linkEntry v e prev cur).nx = update (update v.nx e cur) prev e := by
      rw [← hin, ← Map.nx_setNext, linkEntry]
      simp only [if_neg hp]
      rfl
    rw [this, update_apply, update_apply]
    simp [hp]

theorem pv_linkEntry (v : Map) (e prev cur y : ℕ) : (linkEntry v e prev cur).pv y =
    if cur ≠ 0 ∧ y = cur then e else if y = e then prev else v.pv y := by
  have hin : (if cur ≠ 0 then ((v.setNext e cur).setPrev e prev).setPrev cur e
      else (v.setNext e cur).setPrev e prev).pv y =
      if cur ≠ 0 ∧ y = cur then e else if y = e then prev else v.pv y := by
    by_cases hc : cur = 0 <;> simp [hc, update_apply]
  rw [← hin, linkEntry]
  by_cases hp : prev = 0
  · rw [if_pos hp]
    rfl
  · rw [if_neg hp]
    exact congrFun (Map.pv_setNext _ prev e) y

namespace Listed

variable {v v' : Map} {l l₁ l₂ : List ℕ} {e a start stop : ℕ}

theorem findEntry_eq (h : Listed v l) :
    vmMapFindEntry v a = (l.find? fun p => decide (v.lo p ≤ a ∧ a < v.hi p)).getD 0 :=
  findEntryFrom_eq h.chain h.count.ge

theorem findEntry_mem (h : Listed v l) {p : ℕ} (hp : p ∈ l) (hpa : v.lo p ≤ a ∧ a < v.hi p) :
    vmMapFindEntry v a ∈ l ∧ v.lo (vmMapFindEntry v a) ≤ a ∧ a < v.hi (vmMapFindEntry v a) := by
  rw [h.findEntry_eq]
  cases hf : l.find? fun q => decide (v.lo q ≤ a ∧ a < v.hi q) with
  | none => exact absurd hpa (by simpa using find?_eq_none.mp hf p hp)
  | some q => exact ⟨mem_of_find?_eq_some hf, by simpa using find?_some hf⟩

theorem covers_iff (h : Listed v l) :
    vmMapCovers v a = true ↔ ∃ p ∈ l, v.lo p ≤ a ∧ a < v.hi p := by
  rw [vmMapCovers, decide_eq_true_iff]
  constructor
  · rw [h.findEntry_eq]
    intro hne
    cases hf : l.find? fun p => decide (v.lo p ≤ a ∧ a < v.hi p) with
    | none => exact absurd (by rw [hf]; rfl) hne
    | some p => exact ⟨p, mem_of_find?_eq_some hf, by simpa using find?_some hf⟩
  · rintro ⟨p, hp, hpa⟩
    exact h.chain.ne_zero _ (h.findEntry_mem hp hpa).1

theorem overlap_iff (h : Listed v l) :
    overlap v start stop = true ↔ ∃ p ∈ l, v.lo p < stop ∧ start < v.hi p :=
  overlapFrom_iff h.chain h.count.ge

theorem link (h : Listed v (l₁ ++ l₂)) (he : e ≠ 0) (hn : e ∉ l₁ ++ l₂) :
    Listed (linkEntry v e (l₁.getLastD 0) (l₂.headD 0)) (l₁ ++ e :: l₂) := by
  have hz := h.chain.ne_zero
  have hl1 : l₁.getLastD 0 ≠ 0 ↔ l₁ ≠ [] := by
    rcases eq_nil_or_concat l₁ with rfl | ⟨t, c, rfl⟩
    · simp
    · simpa using hz c (by simp)
  have hl2 : l₂.headD 0 ≠ 0 ↔ l₂ ≠ [] := by
    cases l₂ with
    | nil => simp
    | cons c t => simpa using hz c (by simp)
  have hm1 : l₁ ≠ [] → l₁.getLastD 0 ∈ l₁ := by
    intro hne
    rw [getLastD_eq_getLast?, getLast?_eq_some_getLast hne]
    exact getLast_mem hne
  have hm2 : l₂ ≠ [] → l₂.headD 0 ∈ l₂ := by
    intro hne
    cases l₂ with
    | nil => exact absurd rfl hne
    | cons c t => simp
  have hhead : (linkEntry v e (l₁.getLastD 0) (l₂.headD 0)).head = if l₁ = [] then e else v.head := by
    unfold linkEntry
    dsimp only
    by_cases hl : l₁ = []
    · rw [if_pos (by simp [hl]), if_pos hl]
    · rw [if_neg (hl1.mpr hl), if_neg hl]
      split <;> rfl
  constructor
  · rw [hhead]
    refine h.chain.insert he ?_ ?_ (fun y hy => ?_) (fun y hy => ?_)
    · rw [nx_linkEntry, if_neg, if_pos rfl]
      rintro ⟨hne, heq⟩
      exact hn (mem_append_left _ (heq ▸ hm1 (hl1.mp hne)))
    · rw [pv_linkEntry, if_neg, if_pos rfl]
      rintro ⟨hne, heq⟩
      exact hn (mem_append_right _ (heq ▸ hm2 (hl2.mp hne)))
    · have hye : y ≠ e := fun hye => hn (hye ▸ hy)
      simp only [nx_linkEntry, hl1, if_neg hye]
    · have hye : y ≠ e := fun hye => hn (hye ▸ hy)
      simp only [pv_linkEntry, hl2, if_neg hye]
  · have hc : (linkEntry v e (l₁.getLastD 0) (l₂.headD 0)).nentries = v.nentries + 1 := by
      unfold linkEntry
      dsimp only
      split <;> split <;> rfl
    rw [hc, h.count]
    simp only [length_append, length_cons]
    omega

end Listed

/-- Filling the fresh entry `p` leaves the list and all other entries. -/
theorem fillEntry_listed {v : Map} {l : List ℕ} {p : ℕ} (h : Listed v l) (hp : p ∉ l)
    (obj offset addr stop prot flags : ℕ) :
    Listed (fillEntry v p obj offset addr stop prot flags) l := by
  have hsh := objectsOnly_share v obj
  have hent : ∀ q ∈ l, (fillEntry v p obj offset addr stop prot flags).entry q = v.entry q := by
    intro q hq
    have hqp : q ≠ p := fun he => hp (he ▸ hq)
    rw [← hsh.entry]
    simp [fillEntry, Map.setEntry, hqp]
  constructor
  · have hhead : (fillEntry v p obj offset addr stop prot flags).head = v.head := hsh.head
    rw [hhead]
    refine h.chain.congr (fun q hq => ?_) (fun q hq => ?_)
    · rw [Map.nx, hent q hq, Map.nx]
    · rw [Map.pv, hent q hq, Map.pv]
  · exact hsh.nentries.trans h.count

/-- **`vm_map_fixed`** either fails and changes nothing, or puts the new entry between the
entries that begin below it and the rest, where it meets no other entry. -/
theorem vmMapFixed_spec {v : Map} {l : List ℕ} (h : Listed v l) (e : Option ℕ)
    (he : ∀ p ∈ e, p ≠ 0 ∧ p ∉ l) (obj offset addr size prot flags : ℕ) :
    vmMapFixed v e obj offset addr size prot flags = (-1, v) ∨
    ∃ p ∈ e, pageUp size ≠ 0 ∧ addr % 4096 = 0 ∧
      (∀ q ∈ l, ¬ (v.lo q < add64 addr (pageUp size) ∧ addr < v.hi q)) ∧
      (vmMapFixed v e obj offset addr size prot flags).1 = 0 ∧
      Listed (vmMapFixed v e obj offset addr size prot flags).2
        (below v.lo addr l ++ p :: above v.lo addr l) ∧
      LinksOnly (fillEntry v p obj offset addr (add64 addr (pageUp size)) prot flags)
        (vmMapFixed v e obj offset addr size prot flags).2 := by
  by_cases hs : pageUp size = 0 ∨ addr % 4096 ≠ 0
  · exact .inl (by unfold vmMapFixed; rw [if_pos hs])
  by_cases ho : overlap v addr (add64 addr (pageUp size))
  · exact .inl (by unfold vmMapFixed; rw [if_neg hs, if_pos ho])
  cases e with
  | none => exact .inl (by rw [vmMapFixed, if_neg hs, if_neg ho])
  | some p =>
    obtain ⟨hp, hpl⟩ := he p rfl
    have hno : ∀ q ∈ l, ¬ (v.lo q < add64 addr (pageUp size) ∧ addr < v.hi q) :=
      fun q hq hh => ho (h.overlap_iff.mpr ⟨q, hq, hh⟩)
    have hw := fillEntry_listed h hpl obj offset addr (add64 addr (pageUp size)) prot flags
    have hwl : ∀ q ∈ l,
        (fillEntry v p obj offset addr (add64 addr (pageUp size)) prot flags).lo q = v.lo q := by
      intro q hq
      have hqp : q ≠ p := fun he => hpl (he ▸ hq)
      rw [Map.lo, Map.lo, ← (objectsOnly_share v obj).entry]
      simp [fillEntry, Map.setEntry, hqp]
    have heq : vmMapFixed v (some p) obj offset addr size prot flags =
        (0, linkEntry (fillEntry v p obj offset addr (add64 addr (pageUp size)) prot flags) p
          ((below v.lo addr l).getLastD 0) ((above v.lo addr l).headD 0)) := by
      obtain ⟨hb, ha⟩ := below_above_congr (a := addr) hwl
      rw [vmMapFixed, if_neg hs, if_neg ho, ← hb, ← ha]
      dsimp only
      rw [locate_eq hw.chain hw.count.ge]
    push Not at hs
    rw [heq]
    refine .inr ⟨p, rfl, hs.1, hs.2, hno, rfl, ?_, linksOnly_linkEntry _ _ _ _⟩
    rw [← below_append_above v.lo addr l] at hw hpl
    exact hw.link hp hpl

/-! ### Removal -/

theorem linksOnly_unlinkEntry (v : Map) (e : ℕ) : LinksOnly v (unlinkEntry v e) := by
  unfold unlinkEntry
  dsimp only
  by_cases hp : v.pv e ≠ 0
  · rw [if_pos hp]
    split
    · exact (LinksOnly.setNext v _ _).trans (LinksOnly.setPrev _ _ _)
    · exact LinksOnly.setNext v _ _
  · rw [if_neg hp]
    split
    · exact (LinksOnly.setCounts v _ _).trans (LinksOnly.setPrev _ _ _)
    · exact LinksOnly.setCounts v _ _

theorem nx_unlinkEntry (v : Map) (e y : ℕ) : (unlinkEntry v e).nx y =
    if v.pv e ≠ 0 ∧ y = v.pv e then v.nx e else v.nx y := by
  unfold unlinkEntry
  dsimp only
  by_cases hp : v.pv e = 0 <;> by_cases hn : v.nx e = 0
  · simp [hp, hn]
    rfl
  · simp [hp, hn]
    rfl
  · simp [hp, hn, update_apply]
  · simp [hp, hn, update_apply]

theorem pv_unlinkEntry (v : Map) (e y : ℕ) : (unlinkEntry v e).pv y =
    if v.nx e ≠ 0 ∧ y = v.nx e then v.pv e else v.pv y := by
  unfold unlinkEntry
  dsimp only
  by_cases hp : v.pv e = 0 <;> by_cases hn : v.nx e = 0
  · simp [hp, hn]
    rfl
  · simp [hp, hn, update_apply]
    rfl
  · simp [hp, hn]
  · simp [hp, hn, update_apply]

theorem unlinkEntry_fields (v : Map) (e : ℕ) :
    (unlinkEntry v e).head = (if v.pv e = 0 then v.nx e else v.head) ∧
      (unlinkEntry v e).nentries = v.nentries := by
  unfold unlinkEntry
  by_cases hp : v.pv e = 0 <;> by_cases hn : v.nx e = 0 <;>
    simp [hp, hn, Map.setNext, Map.setPrev, Map.setEntry]

namespace Listed

variable {v : Map} {l l₁ l₂ : List ℕ} {e : ℕ}

theorem drop (h : Listed v l) (he : e ∈ l) : Listed (dropEntry v e) (l.erase e) := by
  have hobj := objectsOnly_destroy (unlinkEntry v e) ((unlinkEntry v e).entry e).object
  have hsame := hobj.sameList
  constructor
  · have hc := h.chain.unlink he (fun y _ => nx_unlinkEntry v e y) (fun y _ => pv_unlinkEntry v e y)
    rw [← (unlinkEntry_fields v e).1, ← hsame.nx, ← hsame.pv, ← hsame.head] at hc
    exact hc
  · have hcount : (dropEntry v e).nentries = v.nentries - 1 :=
      congrArg (· - 1) (hobj.nentries.trans (unlinkEntry_fields v e).2)
    rw [hcount, h.count, length_erase_of_mem he]

end Listed

theorem dropEntry_ranges (v : Map) (e : ℕ) : (dropEntry v e).lo = v.lo ∧ (dropEntry v e).hi = v.hi ∧
    (dropEntry v e).minOffset = v.minOffset ∧ (dropEntry v e).maxOffset = v.maxOffset := by
  have hl := linksOnly_unlinkEntry v e
  have hs := (objectsOnly_destroy (unlinkEntry v e) ((unlinkEntry v e).entry e).object).sameList
  exact ⟨hs.lo.trans hl.lo, hs.hi.trans hl.hi, hs.minOffset.trans hl.minOffset,
    hs.maxOffset.trans hl.maxOffset⟩

theorem dropEntry_linksOnly {v : Map} {e : ℕ} (he : (v.entry e).object = 0) :
    LinksOnly v (dropEntry v e) := by
  have hl := linksOnly_unlinkEntry v e
  have ho : ((unlinkEntry v e).entry e).object = 0 := (hl.entry_object e).trans he
  have hd : vmObjectDestroy (unlinkEntry v e) ((unlinkEntry v e).entry e).object =
      unlinkEntry v e := by
    rw [ho, vmObjectDestroy, if_pos rfl]
  unfold dropEntry
  dsimp only
  rw [hd]
  exact hl.trans (LinksOnly.setCounts _ _ _)

/-- The entries that `vm_map_remove` leaves. -/
def keeps (v : Map) (start stop p : ℕ) : Bool := !decide (start ≤ v.lo p ∧ v.hi p ≤ stop)

theorem keeps_iff {v : Map} {start stop p : ℕ} :
    keeps v start stop p = true ↔ ¬ (start ≤ v.lo p ∧ v.hi p ≤ stop) := by
  simp only [keeps, Bool.not_eq_true', decide_eq_false_iff_not]

theorem removeFrom_zero (start stop n : ℕ) (v : Map) : removeFrom start stop n 0 v = v := by
  cases n with
  | zero => rfl
  | succ n => rw [removeFrom, if_pos rfl]

/-- The loop of `vm_map_remove` with the entries `l₂` before it: the entries inside the
range leave the list one after the other, nothing else about the intervals changes, and nothing at
all but the links when these entries have no object. -/
theorem removeFrom_spec {start stop : ℕ} (n : ℕ) {e : ℕ} {v : Map} (l₁ : List ℕ) {l₂ : List ℕ}
    (h : Listed v (l₁ ++ l₂)) (hn : l₂.length ≤ n) (he : e = l₂.headD 0) :
    Listed (removeFrom start stop n e v) (l₁ ++ l₂.filter (keeps v start stop)) ∧
    (removeFrom start stop n e v).lo = v.lo ∧ (removeFrom start stop n e v).hi = v.hi ∧
    (removeFrom start stop n e v).minOffset = v.minOffset ∧
    (removeFrom start stop n e v).maxOffset = v.maxOffset ∧
    ((∀ p ∈ l₂, keeps v start stop p = false → (v.entry p).object = 0) →
      LinksOnly v (removeFrom start stop n e v)) ∧
    removeFrom start stop n e v = (l₂.filter (!keeps v start stop ·)).foldl dropEntry v := by
  induction l₂ generalizing n e v l₁ with
  | nil =>
    rw [he, headD_nil, removeFrom_zero]
    exact ⟨h, rfl, rfl, rfl, rfl, fun _ => LinksOnly.refl v, rfl⟩
  | cons c t ih =>
    obtain rfl : e = c := he
    have he0 : e ≠ 0 := h.chain.ne_zero e (by simp)
    have hnext : v.nx e = t.headD 0 := h.chain.next_eq
    obtain ⟨n, rfl, hlen⟩ := exists_fuel hn
    unfold removeFrom
    rw [if_neg he0]
    by_cases hin : start ≤ (v.entry e).start ∧ (v.entry e).stop ≤ stop
    · have hkeep : keeps v start stop e = false := by
        rw [keeps, decide_eq_true (by exact hin)]
        rfl
      have hnot : e ∉ l₁ := fun hm =>
        (nodup_append.mp h.chain.nodup).2.2 e hm e (by simp) rfl
      have hdrop : Listed (dropEntry v e) (l₁ ++ t) := by
        have hd := h.drop (e := e) (by simp)
        rwa [erase_append_right _ hnot, erase_cons_head] at hd
      obtain ⟨hlo, hhi, hmin, hmax⟩ := dropEntry_ranges v e
      have hks : keeps (dropEntry v e) start stop = keeps v start stop := by
        funext p
        rw [keeps, keeps, hlo, hhi]
      rw [if_pos hin, filter_cons_of_neg (by simp [hkeep]), filter_cons_of_pos (by simp [hkeep])]
      obtain ⟨hl, hl1, hl2, hl3, hl4, hl5, hl6⟩ := ih n l₁ hdrop hlen hnext
      rw [hks] at hl hl5 hl6
      refine ⟨hl, hl1.trans hlo, hl2.trans hhi, hl3.trans hmin, hl4.trans hmax, fun hobj => ?_, hl6⟩
      have hlk := dropEntry_linksOnly (hobj e (by simp) hkeep)
      refine hlk.trans (hl5 fun p hp hpk => ?_)
      exact (hlk.entry_object p).trans (hobj p (by simp [hp]) hpk)
    · have hkeep : keeps v start stop e := keeps_iff.mpr hin
      rw [if_neg hin, filter_cons_of_pos hkeep, filter_cons_of_neg (by simp [hkeep])]
      have h' : Listed v ((l₁ ++ [e]) ++ t) := by simpa using h
      obtain ⟨hl, hl1, hl2, hl3, hl4, hl5, hl6⟩ := ih n _ h' hlen hnext
      refine ⟨by simpa using hl, hl1, hl2, hl3, hl4, fun hobj => ?_, hl6⟩
      exact hl5 fun p hp hpk => hobj p (by simp [hp]) hpk

/-- **`vm_map_remove`** takes exactly the entries inside the range out of the list. -/
theorem vmMapRemove_spec {v : Map} {l : List ℕ} (h : Listed v l) (start stop : ℕ) :
    Listed (vmMapRemove v start stop) (l.filter (keeps v start stop)) ∧
    (vmMapRemove v start stop).lo = v.lo ∧ (vmMapRemove v start stop).hi = v.hi ∧
    (vmMapRemove v start stop).minOffset = v.minOffset ∧
    (vmMapRemove v start stop).maxOffset = v.maxOffset ∧
    ((∀ p ∈ l, keeps v start stop p = false → (v.entry p).object = 0) →
      LinksOnly v (vmMapRemove v start stop)) ∧
    vmMapRemove v start stop = (l.filter (!keeps v start stop ·)).foldl dropEntry v :=
  removeFrom_spec v.nentries [] h h.count.ge h.chain.head_eq

end TipOS.Vm
