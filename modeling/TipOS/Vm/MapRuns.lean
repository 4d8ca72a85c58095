import Mathlib.Tactic.NormNum
import TipOS.Vm.MapLists

/-!
# The entry list over runs

A run begins with `vm_map_init(min, max)` and takes any number of `vm_map_find`,
`vm_map_fixed`, `vm_map_remove`, `vm_mmap` and `vm_munmap` calls with any arguments.

The links and the count are right in every run (`listed_of_run`).  The intervals are right
(`WellFormed`) as long as the ranges that are asked for at a fixed address lie inside `[min, max)`,
and no search begins so high that `candidate + size` wraps (`wellFormed_of_run`): `vm_map_fixed`
never compares its range with the bounds, and the test of `vm_map_find` is made with the sum in 64
bits.
-/

namespace TipOS.Vm

open Lib List

variable {addr : ℕ} {P : Prop}

/-! ### Rounding -/

theorem pageUp_lt (x : ℕ) : pageUp x < 2 ^ 64 := by
  have hm : add64 x 0xFFF < 2 ^ 64 := Nat.mod_lt _ (by simp)
  rw [pageUp, pageDown]
  omega

theorem pageUp_of_aligned {x : ℕ} (hx : x % 4096 = 0) (hlt : x < 2 ^ 64) : pageUp x = x := by
  rw [pageUp, pageDown, add64, Nat.mod_eq_of_lt (by omega)]
  omega

theorem pageUp_pageUp (x : ℕ) : pageUp (pageUp x) = pageUp x :=
  pageUp_of_aligned (pageUp_mod x) (pageUp_lt x)

/-! ### The invariant -/

/-- The intervals of the entries `l` are in order, aligned, not empty and inside the map. -/
structure Ranges (v : Map) (l : List ℕ) : Prop where
  ordered : Ordered v.lo v.hi l
  aligned : ∀ p ∈ l, v.lo p % 4096 = 0 ∧ v.hi p % 4096 = 0
  nonempty : ∀ p ∈ l, v.lo p < v.hi p
  within : ∀ p ∈ l, v.minOffset ≤ v.lo p ∧ v.hi p ≤ v.maxOffset

/-- What the entry list should be in every state. -/
def WellFormed (v : Map) : Prop := ∃ l, Listed v l ∧ Ranges v l

/-- The range of `size` bytes from `addr` on lies inside the map and does not wrap. -/
def Within (v : Map) (addr size : ℕ) : Prop :=
  v.minOffset ≤ addr ∧ addr + size ≤ v.maxOffset

instance (v : Map) (addr size : ℕ) : Decidable (Within v addr size) :=
  inferInstanceAs (Decidable (_ ∧ _))

namespace Ranges

variable {v v' : Map} {l : List ℕ}

theorem congr (h : Ranges v l) (hlo : ∀ p ∈ l, v'.lo p = v.lo p) (hhi : ∀ p ∈ l, v'.hi p = v.hi p)
    (hmin : v'.minOffset = v.minOffset) (hmax : v'.maxOffset = v.maxOffset) : Ranges v' l where
  ordered := h.ordered.congr hlo hhi
  aligned p hp := by rw [hlo p hp, hhi p hp]; exact h.aligned p hp
  nonempty p hp := by rw [hlo p hp, hhi p hp]; exact h.nonempty p hp
  within p hp := by rw [hlo p hp, hhi p hp, hmin, hmax]; exact h.within p hp

theorem same (h : Ranges v l) (hs : SameList v v') : Ranges v' l :=
  h.congr (fun p _ => congrFun hs.lo p) (fun p _ => congrFun hs.hi p) hs.minOffset hs.maxOffset

theorem filter (h : Ranges v l) (k : ℕ → Bool) : Ranges v (l.filter k) where
  ordered := h.ordered.filter k
  aligned p hp := h.aligned p (mem_of_mem_filter hp)
  nonempty p hp := h.nonempty p (mem_of_mem_filter hp)
  within p hp := h.within p (mem_of_mem_filter hp)

theorem insert {p : ℕ} (size : ℕ) (h : Ranges v l) (hlo : ∀ q ∈ l, v'.lo q = v.lo q)
    (hhi : ∀ q ∈ l, v'.hi q = v.hi q) (hmin : v'.minOffset = v.minOffset)
    (hmax : v'.maxOffset = v.maxOffset) (hp : v'.lo p = addr) (hp' : v'.hi p = addr + size)
    (ha : addr % 4096 = 0) (hs : size % 4096 = 0) (h0 : size ≠ 0) (hw : Within v addr size)
    (hno : ∀ q ∈ l, ¬ (v.lo q < addr + size ∧ addr < v.hi q)) :
    Ranges v' (below v.lo addr l ++ p :: above v.lo addr l) := by
  have hold := h.congr hlo hhi hmin hmax
  have hpos : v'.lo p < v'.hi p := by omega
  have hmem : ∀ q ∈ below v.lo addr l ++ p :: above v.lo addr l, q = p ∨ q ∈ l := by
    intro q hq
    rw [← below_append_above v.lo addr l, mem_append]
    rcases mem_append.mp hq with hb | hc
    · exact .inr (.inl hb)
    · exact (mem_cons.mp hc).imp_right .inr
  constructor
  · obtain ⟨hb, ha⟩ := below_above_congr (a := addr) hlo
    rw [← hb, ← ha, ← hp]
    refine hold.ordered.insert hold.nonempty hpos fun q hq => ?_
    rw [hlo q hq, hhi q hq, hp, hp']
    exact hno q hq
  · intro q hq
    rcases hmem q hq with rfl | hq
    · omega
    · exact hold.aligned q hq
  · intro q hq
    rcases hmem q hq with rfl | hq
    · exact hpos
    · exact hold.nonempty q hq
  · intro q hq
    rcases hmem q hq with rfl | hq
    · rw [hp, hp', hmin, hmax]
      exact hw
    · exact hold.within q hq

end Ranges

/-! ### Calls -/

/-- A fresh entry: `kmalloc` returned nothing, or a pointer that is no entry of the map. -/
def Fresh (v : Map) (e : Option ℕ) : Prop := ∀ p ∈ e, p ≠ 0 ∧ ∀ l, Listed v l → p ∉ l

/-- What every `vm_map_wire` satisfies: it writes objects, frames and page tables. -/
def Wires (wire : Map → ℕ → ℕ → ℤ × Map) : Prop := ∀ v addr size, SameList v (wire v addr size).2

/-- A range at a fixed address that is not refused lies inside the map. -/
def FixedFits (v : Map) (addr size : ℕ) : Prop :=
  pageUp size ≠ 0 → addr % 4096 = 0 → Within v addr (pageUp size)

/-- A search: neither the first range that is tried nor the steps of 1 MB reach the end of the
address space. -/
def SearchFits (v : Map) (hint size : ℕ) : Prop :=
  v.maxOffset + 0x100000 < 2 ^ 64 ∧
    max (if hint ≠ 0 then hint else 0x70000000) v.minOffset + 4095 + pageUp size < 2 ^ 64

/-- A call on the map, with what the allocations inside it return. -/
inductive Call where
  | find (e : Option ℕ) (obj offset addr size prot flags : ℕ)
  | fixed (e : Option ℕ) (obj offset addr size prot flags : ℕ)
  | remove (start stop : ℕ)
  | mmap (wire : Map → ℕ → ℕ → ℤ × Map) (obj e : Option ℕ) (addr size prot flags : ℕ)
  | munmap (addr size : ℕ)

namespace Call

/-- The map after the call. -/
def run : Call → Map → Map
  | find e obj offset addr size prot flags, v =>
    (vmMapFind v e obj offset addr size prot flags).2.2
  | fixed e obj offset addr size prot flags, v =>
    (vmMapFixed v e obj offset addr size prot flags).2
  | remove start stop, v => vmMapRemove v start stop
  | mmap wire obj e addr size prot flags, v => (vmMmap wire v obj e addr size prot flags).2.2
  | munmap addr size, v => (vmMunmap v addr size).2

/-- Arguments are `uint64_t`, and a new entry is fresh. -/
def Legal : Call → Map → Prop
  | find e _ _ addr size _ _, v => Fresh v e ∧ addr < 2 ^ 64 ∧ size < 2 ^ 64
  | fixed e _ _ addr size _ _, v => Fresh v e ∧ addr < 2 ^ 64 ∧ size < 2 ^ 64
  | remove start stop, _ => start < 2 ^ 64 ∧ stop < 2 ^ 64
  | mmap wire _ e addr size _ _, v => Wires wire ∧ Fresh v e ∧ addr < 2 ^ 64 ∧ size < 2 ^ 64
  | munmap addr size, _ => addr < 2 ^ 64 ∧ size < 2 ^ 64

/-- **The condition**, which is one on the arguments. -/
def Inside : Call → Map → Prop
  | find _ _ _ addr size _ _, v => SearchFits v addr size
  | fixed _ _ _ addr size _ _, v => FixedFits v addr size
  | mmap _ _ _ addr size _ flags, v =>
    if flags &&& mapFixed ≠ 0 then FixedFits v addr size else SearchFits v addr size
  | remove _ _, _ => True
  | munmap _ _, _ => True

end Call

/-- The maps reached from `vm_map_init(lo, hi)` by legal calls that meet `C`. -/
inductive MapRun (C : Call → Map → Prop) (lo hi : ℕ) : Map → Prop
  | init (v : Map) : MapRun C lo hi (vmMapInit v lo hi)
  | step {v : Map} (c : Call) : MapRun C lo hi v → c.Legal v → C c v → MapRun C lo hi (c.run v)

/-! ### What one call does -/

section Steps

variable {v : Map} {l : List ℕ} {e : Option ℕ}

theorem Fresh.not_mem (h : Fresh v e) (hl : Listed v l) : ∀ p ∈ e, p ≠ 0 ∧ p ∉ l :=
  fun p hp => ⟨(h p hp).1, (h p hp).2 l hl⟩

theorem Fresh.same {v' : Map} (h : Fresh v e) (hs : SameList v v') : Fresh v' e := by
  intro p hp
  refine ⟨(h p hp).1, fun l hl => (h p hp).2 l ⟨?_, ?_⟩⟩
  · rw [← hs.nx, ← hs.pv, ← hs.head]
    exact hl.chain
  · exact hs.nentries.symm.trans hl.count

theorem fillEntry_minOffset (p obj offset addr stop prot flags : ℕ) :
    (fillEntry v p obj offset addr stop prot flags).minOffset = v.minOffset :=
  (objectsOnly_share v obj).minOffset

theorem fillEntry_maxOffset (p obj offset addr stop prot flags : ℕ) :
    (fillEntry v p obj offset addr stop prot flags).maxOffset = v.maxOffset :=
  (objectsOnly_share v obj).maxOffset

theorem fillEntry_lo_hi_of_ne {p q : ℕ} (hq : q ≠ p) (obj offset addr stop prot flags : ℕ) :
    (fillEntry v p obj offset addr stop prot flags).lo q = v.lo q ∧
    (fillEntry v p obj offset addr stop prot flags).hi q = v.hi q := by
  rw [Map.lo, Map.lo, Map.hi, Map.hi, ← (objectsOnly_share v obj).entry]
  simp [fillEntry, Map.setEntry, hq]

theorem fillEntry_lo_hi (p obj offset addr stop prot flags : ℕ) :
    (fillEntry v p obj offset addr stop prot flags).lo p = addr ∧
    (fillEntry v p obj offset addr stop prot flags).hi p = stop := by
  simp [Map.lo, Map.hi, fillEntry, Map.setEntry]

/-- A result of a call: a list again, the bounds kept, and right intervals when `P`. -/
def Keeps (v v' : Map) (l : List ℕ) (P : Prop) : Prop :=
  v'.minOffset = v.minOffset ∧ v'.maxOffset = v.maxOffset ∧
    ∃ l', Listed v' l' ∧ (P → Ranges v l → Ranges v' l')

theorem Keeps.same {v' : Map} (hl : Listed v l) (hs : SameList v v') : Keeps v v' l P :=
  ⟨hs.minOffset, hs.maxOffset, l, hs.listed hl, fun _ hr => hr.same hs⟩

theorem keeps_fixed (hl : Listed v l) (he : Fresh v e) (hmax : v.maxOffset < 2 ^ 64)
    (obj offset addr size prot flags : ℕ) :
    Keeps v (vmMapFixed v e obj offset addr size prot flags).2 l (FixedFits v addr size) := by
  rcases vmMapFixed_spec hl e (he.not_mem hl) obj offset addr size prot flags with heq | hok
  · rw [heq]
    exact Keeps.same hl (SameList.refl v)
  obtain ⟨p, hp, h0, ha, hno, -, hlist, hlinks⟩ := hok
  have hpl := (he.not_mem hl p hp).2
  refine ⟨hlinks.minOffset.trans (fillEntry_minOffset ..),
    hlinks.maxOffset.trans (fillEntry_maxOffset ..), _, hlist, fun hw hr => ?_⟩
  have hin := hw h0 ha
  have hsum : add64 addr (pageUp size) = addr + pageUp size :=
    Nat.mod_eq_of_lt (hin.2.trans_lt hmax)
  rw [hsum] at hno
  have hne : ∀ q ∈ l, q ≠ p := fun q hq hqp => hpl (hqp ▸ hq)
  refine hr.insert (pageUp size) (fun q hq => ?_) (fun q hq => ?_)
    (hlinks.minOffset.trans (fillEntry_minOffset ..))
    (hlinks.maxOffset.trans (fillEntry_maxOffset ..)) ?_ ?_ ha (pageUp_mod size) h0 hin hno
  · rw [hlinks.lo]
    exact (fillEntry_lo_hi_of_ne (hne q hq) ..).1
  · rw [hlinks.hi]
    exact (fillEntry_lo_hi_of_ne (hne q hq) ..).2
  · rw [hlinks.lo]
    exact (fillEntry_lo_hi ..).1
  · rw [hlinks.hi, ← hsum]
    exact (fillEntry_lo_hi ..).2

theorem firstCandidate_fits {hint size : ℕ} (h : SearchFits v hint size) :
    v.minOffset ≤ firstCandidate v hint ∧ firstCandidate v hint + pageUp size < 2 ^ 64 := by
  have hfits := h.2
  unfold firstCandidate
  generalize (if hint ≠ 0 then hint else 0x70000000) = c at hfits ⊢
  have hmax : (if c < v.minOffset then v.minOffset else c) = max c v.minOffset := by
    split <;> omega
  have hup : pageUp (max c v.minOffset) = (max c v.minOffset + 0xFFF) / 4096 * 4096 := by
    rw [pageUp, pageDown, add64, Nat.mod_eq_of_lt (by omega)]
  dsimp only
  rw [hmax, hup]
  omega

/-- **The search stays inside the map**: the sums of its test do not wrap. -/
theorem findGap_within {size n c a : ℕ} (hmax : v.maxOffset + 0x100000 < 2 ^ 64)
    (hmin : v.minOffset ≤ c) (hc : c + size < 2 ^ 64) (h : findGap v size n c = some a) :
    Within v a size := by
  induction n generalizing c with
  | zero => cases h
  | succ n ih =>
    have hsum : add64 c size = c + size := Nat.mod_eq_of_lt hc
    rw [findGap, hsum] at h
    split at h
    · next hle =>
      split at h
      · have hnext : add64 c 0x100000 = c + 0x100000 := Nat.mod_eq_of_lt (by omega)
        rw [hnext] at h
        exact ih (by omega) (by omega) h
      · cases h
        exact ⟨hmin, hle⟩
    · cases h

theorem keeps_find (hl : Listed v l) (he : Fresh v e) (hmax : v.maxOffset < 2 ^ 64)
    (obj offset addr size prot flags : ℕ) :
    Keeps v (vmMapFind v e obj offset addr size prot flags).2.2 l (SearchFits v addr size) := by
  unfold vmMapFind
  dsimp only
  by_cases hs : pageUp size = 0
  · rw [if_pos hs]
    exact Keeps.same hl (SameList.refl v)
  rw [if_neg hs]
  cases hgap : findGap v (pageUp size) 100 (firstCandidate v addr) with
  | none => exact Keeps.same hl (SameList.refl v)
  | some c =>
    obtain ⟨hmin', hmax', l', hl', hr⟩ :=
      keeps_fixed hl he hmax obj offset c (pageUp size) prot flags
    refine ⟨hmin', hmax', l', hl', fun hs => hr fun _ _ => ?_⟩
    obtain ⟨hlow, hhigh⟩ := firstCandidate_fits hs
    rw [pageUp_pageUp]
    exact findGap_within hs.1 hlow hhigh hgap

theorem keeps_place (hl : Listed v l) (he : Fresh v e) (hmax : v.maxOffset < 2 ^ 64)
    (obj addr size prot flags : ℕ) :
    Keeps v (place v e obj addr size prot flags).2.2 l
      (if flags &&& mapFixed ≠ 0 then FixedFits v addr size else SearchFits v addr size) := by
  unfold place
  split
  · exact keeps_fixed hl he hmax obj 0 addr size prot flags
  · exact keeps_find hl he hmax obj 0 addr size prot flags

theorem keeps_remove (hl : Listed v l) (start stop : ℕ) :
    Keeps v (vmMapRemove v start stop) l P := by
  obtain ⟨hlist, hlo, hhi, hmin, hmax, _⟩ := vmMapRemove_spec hl start stop
  exact ⟨hmin, hmax, _, hlist, fun _ hr => (hr.filter _).congr (fun p _ => congrFun hlo p)
    (fun p _ => congrFun hhi p) hmin hmax⟩

theorem Keeps.trans {v' v'' : Map} (h : Keeps v v' l P)
    (h' : ∀ l', Listed v' l' → Keeps v' v'' l' P) : Keeps v v'' l P := by
  obtain ⟨hmin, hmax, l', hl', hr⟩ := h
  obtain ⟨hmin', hmax', l'', hl'', hr'⟩ := h' l' hl'
  exact ⟨hmin'.trans hmin, hmax'.trans hmax, l'', hl'', fun hP hv => hr' hP (hr hP hv)⟩

theorem keeps_munmap (hl : Listed v l) (addr size : ℕ) :
    Keeps v (vmMunmap v addr size).2 l P := by
  unfold vmMunmap
  dsimp only
  by_cases hs : pageUp size = 0
  · rw [if_pos hs]
    exact Keeps.same hl (SameList.refl v)
  · rw [if_neg hs]
    exact (Keeps.same hl (sameList_releaseFrom _ _ _ _ v)).trans fun _ hl' => keeps_remove hl' _ _

theorem anonObject_of_anon {flags : ℕ} (h : flags &&& mapAnon ≠ 0) {v : Map} {o size : ℕ} :
    anonObject v (some o) size flags = (o, vmObjectCreate v o size) := if_pos h

theorem sameList_anonObject (obj : Option ℕ) (size flags : ℕ) :
    SameList v (anonObject v obj size flags).2 := by
  unfold anonObject
  split
  · exact (objectsOnly_setObject v _ _).sameList
  · exact SameList.refl v

theorem keeps_mmap {wire : Map → ℕ → ℕ → ℤ × Map} (hwire : Wires wire) (hl : Listed v l)
    (he : Fresh v e) (hmax : v.maxOffset < 2 ^ 64) (obj : Option ℕ) (addr size prot flags : ℕ) :
    Keeps v (vmMmap wire v obj e addr size prot flags).2.2 l
      ((Call.mmap wire obj e addr size prot flags).Inside v) := by
  have hso := sameList_anonObject (v := v) obj (pageUp size) flags
  have hk := keeps_place (hso.listed hl) (he.same hso) (by rwa [hso.maxOffset])
    (anonObject v obj (pageUp size) flags).1 addr (pageUp size) prot flags
  rw [FixedFits, SearchFits, pageUp_pageUp, Within, hso.minOffset, hso.maxOffset] at hk
  have hplace := (Keeps.same (P := (Call.mmap wire obj e addr size prot flags).Inside v) hl hso).trans
    fun l' hl' => (hso.listed hl).chain.unique hl'.chain ▸ hk
  unfold vmMmap
  dsimp only
  split
  · exact Keeps.same hl (SameList.refl v)
  split
  · exact Keeps.same hl (SameList.refl v)
  split
  · exact hplace.trans fun l' hl' => Keeps.same hl' (objectsOnly_destroy _ _).sameList
  split
  · refine hplace.trans fun l' hl' => ?_
    exact (Keeps.same hl' (hwire _ _ _)).trans fun l'' hl'' => keeps_remove hl'' _ _
  · exact hplace.trans fun l' hl' => Keeps.same hl' (hwire _ _ _)

/-- **What one call does to the list.** -/
theorem keeps_call (c : Call) (hl : Listed v l) (hc : c.Legal v) (hmax : v.maxOffset < 2 ^ 64) :
    Keeps v (c.run v) l (c.Inside v) := by
  cases c with
  | find e obj offset addr size prot flags => exact keeps_find hl hc.1 hmax ..
  | fixed e obj offset addr size prot flags => exact keeps_fixed hl hc.1 hmax ..
  | remove start stop => exact keeps_remove hl start stop
  | mmap wire obj e addr size prot flags => exact keeps_mmap hc.1 hl hc.2.1 hmax ..
  | munmap addr size => exact keeps_munmap hl addr size

end Steps

/-! ### Runs -/

variable {C : Call → Map → Prop} {lo hi : ℕ} {v : Map}

theorem run_bounds_listed (hhi : hi < 2 ^ 64) (h : MapRun C lo hi v) :
    v.minOffset = lo ∧ v.maxOffset = hi ∧ ∃ l, Listed v l := by
  induction h with
  | init v => exact ⟨rfl, rfl, [], rfl, rfl⟩
  | step c _ hc _ ih =>
    obtain ⟨hmin, hmax, l, hl⟩ := ih
    obtain ⟨hmin', hmax', l', hl', _⟩ := keeps_call c hl hc (by omega)
    exact ⟨hmin'.trans hmin, hmax'.trans hmax, l', hl'⟩

/-- **The links and the count are right in every run**, whatever the arguments. -/
theorem listed_of_run (hhi : hi < 2 ^ 64) (h : MapRun C lo hi v) : ∃ l, Listed v l :=
  (run_bounds_listed hhi h).2.2

/-- **The entry list is well formed in every run whose fixed ranges lie inside the map and whose
searches do not reach the end of the address space.** -/
theorem wellFormed_of_run (hhi : hi < 2 ^ 64) (h : MapRun Call.Inside lo hi v) : WellFormed v := by
  induction h with
  | init v =>
    exact ⟨[], ⟨rfl, rfl⟩, List.Pairwise.nil, by simp, by simp, by simp⟩
  | step c hrun hc hin ih =>
    obtain ⟨l, hl, hr⟩ := ih
    have hmax := (run_bounds_listed hhi hrun).2.1
    obtain ⟨_, _, l', hl', hr'⟩ := keeps_call c hl hc (by omega)
    exact ⟨l', hl', hr' hin hr⟩

/-! ### Two runs -/

/-- A map before `vm_map_init`. -/
def blankMap : Map where
  entry _ := ⟨0, 0, 0, 0, 0, 0, 0, 0⟩
  object _ := ⟨0, fun _ => 0, 0⟩
  head := 0
  nentries := 0
  minOffset := 0
  maxOffset := 0
  live _ := true

/-- An anonymous private `vm_map_fixed` of one page with the new entry at 1. -/
def fixedPage (addr : ℕ) : Call := .fixed (some 1) 0 0 addr 0x1000 3 0x1012

/-- A `vm_map_find` of one page with the new entry at 2. -/
def findPage (hint : ℕ) : Call := .find (some 2) 0 0 hint 0x1000 3 0x1002

theorem fresh_of_listed {p : ℕ} {l : List ℕ} (hl : Listed v l) (h0 : p ≠ 0) (hp : p ∉ l) :
    Fresh v (some p) := by
  rintro q ⟨⟩
  exact ⟨h0, fun l' hl' => hl.chain.unique hl'.chain ▸ hp⟩

theorem fixedPage_legal (ha : addr < 2 ^ 64) (lo hi : ℕ) :
    (fixedPage addr).Legal (vmMapInit blankMap lo hi) :=
  ⟨fresh_of_listed (l := []) ⟨rfl, rfl⟩ one_ne_zero not_mem_nil, ha, by norm_num⟩

/-- Two pages: the search begins at the first one and goes on behind it. -/
theorem wellFormed_of_run_twoPages :
    WellFormed ((findPage 0x20000).run
      ((fixedPage 0x20000).run (vmMapInit blankMap 0x10000 0x7FFFF000))) := by
  have hone := MapRun.step (C := Call.Inside) _ (.init blankMap)
    (fixedPage_legal (show 0x20000 < 2 ^ 64 by norm_num) 0x10000 0x7FFFF000) (fun _ _ => by decide)
  refine wellFormed_of_run (by simp) (.step _ hone ⟨?_, by norm_num, by norm_num⟩
    ⟨by decide, by decide⟩)
  exact fresh_of_listed (l := [1]) ⟨⟨rfl, one_ne_zero, rfl, rfl⟩, rfl⟩ two_ne_zero (by decide)

/-- **A page fixed at address 0 is accepted below the map**: `vm_map_fixed` succeeds and the
entry lies outside `[min, max)`. -/
theorem fixed_outside :
    MapRun (fun _ _ => True) 0x10000 0x7FFFF000
      ((fixedPage 0).run (vmMapInit blankMap 0x10000 0x7FFFF000)) ∧
    ¬ WellFormed ((fixedPage 0).run (vmMapInit blankMap 0x10000 0x7FFFF000)) := by
  refine ⟨.step _ (.init blankMap) (fixedPage_legal (by simp) _ _) trivial, ?_⟩
  rintro ⟨l, hl, hr⟩
  have hhead : ((fixedPage 0).run (vmMapInit blankMap 0x10000 0x7FFFF000)).head = 1 := by rfl
  have hmem : 1 ∈ l := by
    have hc := hl.chain
    rw [hhead] at hc
    cases l with
    | nil => exact absurd hc one_ne_zero
    | cons a t => rw [hc.1]; simp
  have hlow := (hr.within 1 hmem).1
  cases hlow

end TipOS.Vm
