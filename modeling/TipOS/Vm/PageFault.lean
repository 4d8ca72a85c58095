import TipOS.Paging.HugePage
import TipOS.Paging.WalkPtes
import TipOS.Vm.Munmap

/-!
# Demand paging

The page fault handler of `idt.c` serves a fault of user mode at an address that some entry of the
map covers.  It walks the tables by hand, makes the ones that are missing, and writes a fresh
zeroed frame with all rights into the page table.  It does not look at what the page table held
before, does not look for 2 MB entries on the way, and gives the frame to no object.

`vm_munmap` gives back the frames of objects only, so no frame of the handler ever comes back.
-/

namespace TipOS.Vm

open Function Lib Paging Phys Option

/-- The three times the handler goes down one level: the table it gets to, `none` for a
`goto pf_dump`. -/
def demandTables (cr2 : ℕ) : ℕ → ℕ → Phys → Option ℕ × Phys
  | 0, t, s => (some t, s)
  | l + 1, t, s =>
    match ensureTable s t (idx cr2 (l + 1)) with
    | none => (none, { s with oom := true })
    | some s => demandTables cr2 l (tableOf (entry s.mem t (idx cr2 (l + 1)))) s

/-- `p1[ti] = fr | 0x07` with a fresh frame `fr`, whatever the entry was. -/
def installFrame (cr2 p1 : ℕ) (s : Phys) : Option ℕ × Phys :=
  match s.zeroFrame with
  | (none, s) => (none, s)
  | (some fr, s) => (some fr, s.setEntry p1 (idx cr2 0) (fr ||| 0x07))

/-- The demand-mapping path: the frame it installs. -/
def demandMap (s : Phys) (p4 cr2 : ℕ) : Option ℕ × Phys :=
  match demandTables cr2 3 p4 s with
  | (none, s) => (none, s)
  | (some p1, s) => installFrame cr2 p1 s

/-- What the handler leaves. -/
structure Faulted where
  frame : Option ℕ
  map : Map
  phys : Phys

/-- The page fault handler for a process with a map; bit 2 of the error code is user mode. -/
def pageFault (v : Map) (s : Phys) (p4 cr2 errCode : ℕ) : Faulted :=
  if vmMapCovers v cr2 = true ∧ errCode.testBit 2 = true then
    match demandMap s p4 cr2 with
    | (none, s) => ⟨none, v, s⟩
    | (some fr, s) => ⟨some fr, { v with live := update v.live fr true }, s⟩
  else ⟨none, v, s⟩

/-! ### Going down -/

/-- The number of tables that are missing on the walk below `t`. -/
def missing (m : Mem) (va : ℕ) : ℕ → ℕ → ℕ
  | 0, _ => 0
  | l + 1, t =>
    if isPresent (entry m t (idx va (l + 1))) = true then
      missing m va l (tableOf (entry m t (idx va (l + 1))))
    else l + 1

/-- The byte at `pa` belongs neither to a table nor to a free frame. -/
def Private (s : Phys) (r pa : ℕ) : Prop :=
  (∀ l, ¬ Table s.mem r l (pa / 4096 * 4096)) ∧ pa / 4096 * 4096 ∉ s.pool

/-- `s'` is `s` with more tables, which are frames of the pool; nothing else is written. -/
structure Adds (s s' : Phys) (r : ℕ) : Prop extends Grown s s' r where
  leaves : ∀ va, leaf s'.mem r va = leaf s.mem r va
  tables : ∀ {l t : ℕ}, Table s'.mem r l t → Table s.mem r l t ∨ t ∈ s.pool
  bytes : ∀ {pa : ℕ}, Private s r pa → s'.mem pa = s.mem pa

section Down

variable {s s' s'' : Phys} {r va l t n : ℕ}

theorem Adds.refl (h : Space s r) : Adds s s r :=
  ⟨Grown.refl h, fun _ => rfl, .inl, fun _ => rfl⟩

theorem Adds.private (h : Adds s s' r) {pa : ℕ} (hp : Private s r pa) : Private s' r pa :=
  ⟨fun l ht => (h.tables ht).elim (hp.1 l) hp.2, fun hm => hp.2 (h.pool _ hm)⟩

theorem Adds.trans (h : Adds s s' r) (h' : Adds s' s'' r) : Adds s s'' r where
  toGrown := h.toGrown.trans h'.toGrown
  leaves va := (h'.leaves va).trans (h.leaves va)
  tables ht := (h'.tables ht).elim h.tables fun hm => .inr (h.pool _ hm)
  bytes hp := (h'.bytes (h.private hp)).trans (h.bytes hp)

theorem Adds.setOom (h : Adds s s' r) : Adds s { s' with oom := true } r :=
  ⟨h.toGrown.setOom, h.leaves, h.tables, h.bytes⟩

theorem ensureTable_adds (h : Space s r) (hv : OnWalk s.mem r va (l + 1) t)
    (he : ensureTable s t (idx va (l + 1)) = some s') : Adds s s' r where
  toGrown := (ensureTable_grown h hv he).1
  leaves va' := by
    rcases ensureTable_cases he with ⟨-, rfl⟩ | ⟨hp, f, pool, hpool, rfl⟩
    · rfl
    · exact linkFrame_leaf pool h.root h.tree hv.reach
        (h.pool f (head_mem hpool)) hp va'
  tables := ensureTable_table h hv.reach he
  bytes hp := ensureTable_apply h (Table.aligned hv.reach h.root) he
    (fun hx => hp.1 _ (hx ▸ hv.reach)) hp.2

/-- **What going down can do**: run out of frames, get to a page table, or take a 2 MB page for
one.  `n` tables were missing. -/
inductive Descends (s : Phys) (r va n : ℕ) : Option ℕ × Phys → Prop
  | failed {s' : Phys} : Adds s s' r → s.pool.length < n → Descends s r va n (none, s')
  | table {s' : Phys} {t : ℕ} : Adds s s' r → s'.pool.length + n = s.pool.length →
      OnWalk s'.mem r va 0 t → Descends s r va n (some t, s')
  | huge {s' : Phys} {pd : ℕ} : Adds s s' r → s'.pool.length + n = s.pool.length →
      OnWalk s'.mem r va 1 pd → isPresent (get s'.mem pd (idx va 1)) = true →
      isHuge (get s'.mem pd (idx va 1)) = true →
      Descends s r va n (some (tableOf (get s'.mem pd (idx va 1))), s')

theorem Descends.after {x : Option ℕ × Phys} (h : Descends s' r va n x) (ha : Adds s s' r)
    (hp : s'.pool.length + 1 = s.pool.length) : Descends s r va (n + 1) x := by
  cases h with
  | failed hs hn => exact .failed (ha.trans hs) (by omega)
  | table hs hn hv => exact .table (ha.trans hs) (by omega) hv
  | huge hs hn hv hpr hh => exact .huge (ha.trans hs) (by omega) hv hpr hh

theorem missing_of_zero {m : Mem} (h : ∀ j : Fin 512, get m t j = 0) (va l : ℕ) :
    missing m va l t = l := by
  cases l with
  | zero => rfl
  | succ l =>
    have hz : entry m t (idx va (l + 1)) = 0 := h _
    rw [missing, hz]
    exact if_neg (by decide)

theorem missing_of_present {m : Mem} (h : isPresent (entry m t (idx va (l + 1)))) :
    missing m va (l + 1) t = missing m va l (tableOf (entry m t (idx va (l + 1)))) := if_pos h

theorem missing_of_absent {m : Mem} (h : isPresent (entry m t (idx va (l + 1))) = false) :
    missing m va (l + 1) t = l + 1 := if_neg (by rw [h]; exact Bool.false_ne_true)

theorem demandTables_descends (h : Space s r) (hv : OnWalk s.mem r va l t) :
    Descends s r va (missing s.mem va l t) (demandTables va l t s) := by
  induction l generalizing s t with
  | zero => exact .table (Adds.refl h) rfl hv
  | succ l ih =>
    rw [demandTables]
    cases he : ensureTable s t (idx va (l + 1)) with
    | none =>
      obtain ⟨hp, hpool⟩ := ensureTable_none he
      rw [missing_of_absent hp]
      exact .failed (Adds.refl h).setOom (by rw [hpool]; exact Nat.succ_pos l)
    | some s1 =>
      have ha := ensureTable_adds h hv he
      obtain ⟨hg, hv1, hp1⟩ := ensureTable_grown h hv he
      rcases ensureTable_cases he with ⟨hp, rfl⟩ | ⟨hp, f, pool, hpool, rfl⟩
      · rw [missing_of_present hp]
        by_cases hh : l = 0 ∧ isHuge (get s1.mem t (idx va (l + 1)))
        · obtain ⟨rfl, hh⟩ := hh
          exact .huge ha rfl hv hp hh
        refine ih h (h.next hv hp fun hl => ?_)
        have hcase : l = 0 ∨ l = 1 := by omega
        rcases hcase with rfl | rfl
        · exact Bool.eq_false_iff.mpr fun h' => hh ⟨rfl, h'⟩
        · exact h.giga hv.reach hp
      have hf := h.pool f (head_mem hpool)
      have hself := linkFrame_self (t := t) (i := idx va (l + 1)) pool hf
      have htab : tableOf (entry (linkFrame s pool t (idx va (l + 1)) f).mem t (idx va (l + 1))) =
          f := by
        change tableOf (get _ t (idx va (l + 1))) = f
        rw [hself, tableOf_eq_frameOf, frameOf_pointer hf.aligned hf.low]
        have := hf.low
        have := hf.aligned
        omega
      have hv2 := hg.space.next hv1 hp1 fun _ => by
        rw [hself]
        exact isHuge_pointer hf.aligned
      have hrec := ih hg.space hv2
      change Descends _ r va (missing _ va l (tableOf (entry _ t (idx va (l + 1))))) _ at hrec
      rw [htab, missing_of_zero (linkFrame_entry pool h.root hv.reach hf)] at hrec
      rw [missing_of_absent hp]
      exact hrec.after ha (by rw [hpool]; rfl)

/-- **What the demand-mapping path can do.** -/
inductive Demand (s : Phys) (r va : ℕ) : Option ℕ × Phys → Prop
  | failed {s' : Phys} : Adds s s' r → s.pool.length ≤ missing s.mem va 3 r →
      Demand s r va (none, s')
  | page {s' : Phys} {f t : ℕ} {pool : List ℕ} : Adds s s' r → s'.pool = f :: pool →
      missing s.mem va 3 r < s.pool.length → OnWalk s'.mem r va 0 t →
      Demand s r va (some f, linkFrame s' pool t (idx va 0) f)
  | huge {s' : Phys} {f pd : ℕ} {pool : List ℕ} : Adds s s' r → s'.pool = f :: pool →
      missing s.mem va 3 r < s.pool.length → OnWalk s'.mem r va 1 pd →
      isPresent (get s'.mem pd (idx va 1)) = true → isHuge (get s'.mem pd (idx va 1)) = true →
      Demand s r va
        (some f, linkFrame s' pool (tableOf (get s'.mem pd (idx va 1))) (idx va 0) f)

theorem installFrame_cases (va t : ℕ) (s : Phys) :
    s.pool = [] ∧ installFrame va t s = (none, { s with oom := true }) ∨
    ∃ f pool, s.pool = f :: pool ∧
      installFrame va t s = (some f, linkFrame s pool t (idx va 0) f) := by
  obtain ⟨mem, pool, oom⟩ := s
  cases pool with
  | nil => exact .inl ⟨rfl, rfl⟩
  | cons f pool => exact .inr ⟨f, pool, rfl, rfl⟩

theorem demandMap_demand (h : Space s r) (va : ℕ) : Demand s r va (demandMap s r va) := by
  have hd : Descends s r va (missing s.mem va 3 r) (demandTables va 3 r s) :=
    demandTables_descends h .root
  have hinst : ∀ {s' t}, Adds s s' r → s'.pool.length + missing s.mem va 3 r = s.pool.length →
      (∀ {f pool}, s'.pool = f :: pool → missing s.mem va 3 r < s.pool.length →
        Demand s r va (some f, linkFrame s' pool t (idx va 0) f)) →
      Demand s r va (installFrame va t s') := by
    intro s' t ha hn hdone
    rcases installFrame_cases va t s' with ⟨hpool, he⟩ | ⟨f, pool, hpool, he⟩
    · rw [he]
      exact .failed ha.setOom (by rw [← hn, hpool]; exact (Nat.zero_add _).le)
    · rw [he]
      exact hdone hpool (by rw [← hn, hpool, List.length_cons]; omega)
  rw [demandMap]
  generalize demandTables va 3 r s = x at hd ⊢
  cases hd with
  | failed ha hn => exact .failed ha hn.le
  | table ha hn hv => exact hinst ha hn fun hpool hlt => .page ha hpool hlt hv
  | huge ha hn hv hp hh => exact hinst ha hn fun hpool hlt => .huge ha hpool hlt hv hp hh

end Down

/-! ### Frames that no object holds -/

theorem releases_releaseFrom (addr stop n e : ℕ) (v : Map) :
    Releases (fun _ => True) v (releaseFrom addr stop n e v) := by
  induction n generalizing e v with
  | zero => exact Releases.refl v
  | succ n ih =>
    rw [releaseFrom]
    split
    · exact Releases.refl v
    split
    · exact ((releases_releaseEntry v e addr stop).mono fun _ _ => trivial).trans (ih _ _)
    · exact ih _ _

/-- **`vm_munmap` frees frames of objects only.** -/
theorem releases_vmMunmap (v : Map) (addr size : ℕ) :
    Releases (fun _ => True) v (vmMunmap v addr size).2 := by
  rw [vmMunmap]
  split
  · exact Releases.refl v
  · exact (releases_releaseFrom _ _ _ _ v).trans (releases_removeFrom _ _ _ _ _)

/-- The free frames belong to no object. -/
def FreeUnheld (v : Map) (s : Phys) : Prop := ∀ f ∈ s.pool, f ≠ 0 ∧ ∀ o, ¬ Holds v o f

/-! ### What the handler owes -/

/-- A page that was present has its frame, its rights and its contents; the bytes of tables and
of free frames are not contents. -/
def KeepsPresent (s s' : Phys) (r : ℕ) : Prop :=
  ∀ va x, translate s.mem r va = some x →
    translate s'.mem r va = some x ∧ (Private s r x.1 → s'.mem x.1 = s.mem x.1)

/-- The frame that was installed for `cr2` is free once the region is unmapped. -/
def Released (v : Map) (cr2 : ℕ) (x : Faulted) : Prop :=
  ∀ f, x.frame = some f → (vmMunmap x.map (v.lo (vmMapFindEntry v cr2))
    (v.hi (vmMapFindEntry v cr2) - v.lo (vmMapFindEntry v cr2))).2.live f = false

/-- A fault of user mode in a region of the map, with frames for the tables that are missing and
one for the page. -/
def Served (v : Map) (s : Phys) (r cr2 errCode : ℕ) : Prop :=
  vmMapCovers v cr2 = true ∧ errCode.testBit 2 = true ∧ missing s.mem cr2 3 r < s.pool.length

section Fault

variable {v : Map} {s s' : Phys} {r cr2 errCode : ℕ}

theorem Adds.keepsPresent (h : Adds s s' r) : KeepsPresent s s' r :=
  fun va _ hx => ⟨(h.same va).trans hx, h.bytes⟩

theorem pageFault_of_not_served (h : Space s r) (hn : ¬ Served v s r cr2 errCode) :
    (pageFault v s r cr2 errCode).frame = none ∧ Adds s (pageFault v s r cr2 errCode).phys r := by
  rw [pageFault]
  split
  · next hc =>
    have hd := demandMap_demand h cr2
    have hfew : s.pool.length ≤ missing s.mem cr2 3 r := by
      by_contra hlt
      exact hn ⟨hc.1, hc.2, by omega⟩
    generalize demandMap s r cr2 = x at hd ⊢
    cases hd with
    | failed ha _ => exact ⟨rfl, ha⟩
    | page _ _ hlt _ => exact absurd hfew (by omega)
    | huge _ _ hlt _ _ _ => exact absurd hfew (by omega)
  · exact ⟨rfl, Adds.refl h⟩

theorem pageFault_of_served (h : Space s r) (hs : Served v s r cr2 errCode) :
    ∃ f ∈ s.pool, pageFault v s r cr2 errCode =
      ⟨some f, { v with live := update v.live f true }, (demandMap s r cr2).2⟩ ∧
      (demandMap s r cr2).1 = some f := by
  have hd := demandMap_demand h cr2
  rw [pageFault, if_pos ⟨hs.1, hs.2.1⟩]
  generalize demandMap s r cr2 = x at hd ⊢
  cases hd with
  | failed _ hn => exact absurd hs.2.2 (by omega)
  | page ha hpool _ _ =>
    exact ⟨_, ha.pool _ (head_mem hpool), rfl, rfl⟩
  | huge ha hpool _ _ _ _ =>
    exact ⟨_, ha.pool _ (head_mem hpool), rfl, rfl⟩

/-- **The frame does not come back.** -/
theorem not_released (h : Space s r) (hf : FreeUnheld v s) (hs : Served v s r cr2 errCode) :
    ¬ Released v cr2 (pageFault v s r cr2 errCode) := by
  intro hrel
  obtain ⟨f, hmem, he, -⟩ := pageFault_of_served h hs
  rw [he] at hrel
  have hfree := hrel f rfl
  have hkeep := (releases_vmMunmap { v with live := update v.live f true }
    (v.lo (vmMapFindEntry v cr2)) (v.hi (vmMapFindEntry v cr2) - v.lo (vmMapFindEntry v cr2))).keep
    f (hf f hmem).1 fun o _ => (hf f hmem).2 o
  rw [hfree] at hkeep
  cases hkeep.trans (update_self f true v.live)

theorem keepsPresent_of_absent (h : Space s r) (hnone : translate s.mem r cr2 = none) :
    KeepsPresent s (pageFault v s r cr2 errCode).phys r := by
  by_cases hs : Served v s r cr2 errCode
  · obtain ⟨f, hmem, he, -⟩ := pageFault_of_served h hs
    rw [he]
    have hd := demandMap_demand h cr2
    generalize demandMap s r cr2 = x at hd ⊢
    cases hd with
    | failed ha _ => exact ha.keepsPresent
    | huge ha _ _ hv hp hh =>
      have hsome := translate_isSome_of_leaf hv hp (child_of_huge (by simp) hh)
      rw [ha.same, hnone] at hsome
      cases hsome
    | @page s1 f t pool ha hpool _ hv =>
      intro va x hx
      have hf : f ∈ s1.pool := head_mem hpool
      have hfree := ha.space.pool f hf
      have hne : pageNo va ≠ pageNo cr2 := by
        intro heq
        have hsome := isSome_of_pageNo heq (isSome_of_mem hx)
        rw [hnone] at hsome
        cases hsome
      refine ⟨?_, fun hp => ?_⟩
      · rw [← hx, ← ha.same]
        exact translate_writePt ha.space.tree
          (linkFrame_writes pool ha.space.root hv.reach hfree) hv hne
      · have hp1 := ha.private hp
        rw [← ha.bytes hp, linkFrame, setEntry_mem,
          setEntry_apply_of_ne (Table.aligned hv.reach ha.space.root) (Fin.is_lt _)
            fun h' => hp1.1 0 (h' ▸ hv.reach)]
        exact fill_apply_of_ne hfree.aligned fun h' => hp1.2 (h' ▸ hf)
  · exact (pageFault_of_not_served h hs).2.keepsPresent

theorem not_keepsPresent (h : Space s r) (hs : Served v s r cr2 errCode) {e : ℕ}
    (hl : leaf s.mem r cr2 = some (0, e)) (he : Paging.frameOf e ∉ s.pool) :
    ¬ KeepsPresent s (pageFault v s r cr2 errCode).phys r := by
  intro hkeep
  obtain ⟨f, hmem, heq, hfr⟩ := pageFault_of_served h hs
  rw [heq] at hkeep
  have hd := demandMap_demand h cr2
  generalize demandMap s r cr2 = x at hd hkeep hfr
  cases hd with
  | failed _ hn => exact absurd hs.2.2 (by omega)
  | huge ha _ _ hv hp hh =>
    have hl' := leaf_huge hv hp hh
    rw [ha.leaves, hl] at hl'
    exact absurd (congrArg Prod.fst (Option.some.inj hl')) (by simp)
  | @page s1 f1 t pool ha hpool _ hv =>
    have hfree := ha.space.pool f1 (head_mem hpool)
    obtain ⟨a, hnew⟩ := linkFrame_translate_self pool ha.space hfree hv
    obtain ⟨x, hx, hold⟩ := map_eq_some_iff.mp (translate_fst_page hl)
    have hsame := (hkeep cr2 x hx).1
    rw [hnew] at hsame
    rw [← Option.some.inj hsame] at hold
    have : f1 = Paging.frameOf e := by omega
    exact he (this ▸ ha.pool f1 (head_mem hpool))

/-- **When the handler does what it owes**: never when it serves the fault, since the frame does
not come back.  Present pages are left alone when the page is not one of them, and not when it
is a page of 4 KB. -/
theorem fault_lawful_iff (h : Space s r) (hf : FreeUnheld v s) (cr2 errCode : ℕ) :
    (KeepsPresent s (pageFault v s r cr2 errCode).phys r ∧
      Released v cr2 (pageFault v s r cr2 errCode) ↔ ¬ Served v s r cr2 errCode) ∧
    (translate s.mem r cr2 = none → KeepsPresent s (pageFault v s r cr2 errCode).phys r) ∧
    ∀ e, leaf s.mem r cr2 = some (0, e) → Paging.frameOf e ∉ s.pool →
      Served v s r cr2 errCode → ¬ KeepsPresent s (pageFault v s r cr2 errCode).phys r := by
  refine ⟨⟨fun hboth hs => not_released h hf hs hboth.2, fun hn => ?_⟩,
    keepsPresent_of_absent h, fun e hl he hs => not_keepsPresent h hs hl he⟩
  obtain ⟨hframe, ha⟩ := pageFault_of_not_served h hn
  refine ⟨ha.keepsPresent, fun f hfr => ?_⟩
  rw [hframe] at hfr
  cases hfr

/-- A map with one page at `0x200000`, whose object holds the frame `0x5000`. -/
def oneRegion : Map where
  entry p := if p = 1 then ⟨0, 0, 0x200000, 0x201000, 5, 0, 3, 0x1012⟩
    else ⟨0, 0, 0, 0, 0, 0, 0, 0⟩
  object o := if o = 5 then ⟨2, fun i => if i = 0 then 0x5000 else 0, 1⟩ else ⟨0, fun _ => 0, 0⟩
  head := 1
  nentries := 1
  minOffset := 0x10000
  maxOffset := 0x7FFFF000
  live f := decide (f = 0x5000)

theorem oneRegion_pages (o i : ℕ) :
    (oneRegion.object o).pages i = 0x5000 ∨ (oneRegion.object o).pages i = 0 := by
  unfold oneRegion
  dsimp only
  split
  · by_cases hi : i = 0
    · exact .inl (if_pos hi)
    · exact .inr (if_neg hi)
  · exact .inr rfl

theorem oneRegion_unheld (m : Mem) : FreeUnheld oneRegion ⟨m, [0x6000, 0x7000], false⟩ := by
  intro f hf
  have hf : f = 0x6000 ∨ f = 0x7000 := by simpa using hf
  refine ⟨by omega, fun o ⟨i, _, hi⟩ => ?_⟩
  rcases oneRegion_pages o i with hp | hp <;> omega

theorem fault_lawful_iff_kernel :
    KeepsPresent ⟨smallTree, [0x6000, 0x7000], false⟩
      (pageFault oneRegion ⟨smallTree, [0x6000, 0x7000], false⟩ 0x1000 0x200000 3).phys 0x1000 ∧
    Released oneRegion 0x200000
      (pageFault oneRegion ⟨smallTree, [0x6000, 0x7000], false⟩ 0x1000 0x200000 3) :=
  (fault_lawful_iff (smallTree_space (by decide) (by decide)) (oneRegion_unheld smallTree)
    0x200000 3).1.mpr fun hs => absurd hs.2.1 (by decide)

/-- The page at `0x200000` after `mprotect` with `PROT_READ`. -/
def readOnly : Phys :=
  ⟨setEntry smallTree 0x4000 0 (pteSetProt 1 0x5007), [0x6000, 0x7000], false⟩

/-- **A write to a page that is read only** gives the process an empty page it can write, and the
frame of this page is not given back. -/
theorem fault_replaces_read_only_page :
    (translate readOnly.mem 0x1000 0x200000).map (fun x => (x.1, x.2.w)) = some (0x5000, false) ∧
    (translate (pageFault oneRegion readOnly 0x1000 0x200000 7).phys.mem 0x1000 0x200000).map
      (fun x => (x.1, x.2.w)) = some (0x6000, true) ∧
    ¬ KeepsPresent readOnly (pageFault oneRegion readOnly 0x1000 0x200000 7).phys 0x1000 ∧
    ¬ Released oneRegion 0x200000 (pageFault oneRegion readOnly 0x1000 0x200000 7) := by
  have hold : (translate readOnly.mem 0x1000 0x200000).map (fun x => (x.1, x.2.w)) =
      some (0x5000, false) := by decide +kernel
  have hnew : (translate (pageFault oneRegion readOnly 0x1000 0x200000 7).phys.mem 0x1000
      0x200000).map (fun x => (x.1, x.2.w)) = some (0x6000, true) := by decide +kernel
  refine ⟨hold, hnew, fun hkeep => ?_, fun hrel => ?_⟩
  · obtain ⟨x, hx, hval⟩ := map_eq_some_iff.mp hold
    rw [(hkeep 0x200000 x hx).1, map_some, hval] at hnew
    cases hnew
  · exact absurd (hrel 0x6000 (by decide +kernel)) (by decide +kernel)

end Fault

end TipOS.Vm
