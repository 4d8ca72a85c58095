import TipOS.Vm.PageFault
import TipOS.Vm.Refcount

/-!
# A wiring that fails

`vm_map_wire` stops when it has no frame left.  What it has done until then is decided at the first
page of the range that has no entry of a page table (`FirstNew`).  When it stops there, all it did
is make tables (`Quiet`, `Extends`), and the tables map nothing.  When it gets a frame there, that
frame is lost (`Leaked`): it belongs to the object from then on, or it was to be the table that
replaces a 2 MB entry and is in nobody's hands (`wireChunks_first`).
-/

namespace TipOS.Vm

open Function Lib Paging Bool Nat Phys List

/-! ### Tables that map nothing -/

/-- The frame `f` is a table that no translated address is walked through. -/
def EmptyTable (m : Mem) (r f : ℕ) : Prop :=
  ∃ l, Table m r l f ∧ ∀ va, OnWalk m r va l f → leaf m r va = none

/-- `s'` is `s` with more tables: present entries stay, and the frames that were taken are
tables. -/
structure Extends (s s' : Phys) (r : ℕ) : Prop extends Adds s s' r where
  kept : ∀ {l t : ℕ} {i : Fin 512}, Table s.mem r l t → isPresent (get s.mem t i) = true →
    get s'.mem t i = get s.mem t i
  taken : ∀ f ∈ s.pool, f ∈ s'.pool ∨ ∃ l, Table s'.mem r l f

section Extends

variable {s s' s'' : Phys} {r va l t : ℕ}

theorem Extends.refl (h : Space s r) : Extends s s r :=
  ⟨Adds.refl h, fun _ _ => rfl, fun _ hf => .inl hf⟩

section

variable (h : Extends s s' r)

include h

theorem Extends.table (ht : Table s.mem r l t) : Table s'.mem r l t := by
  induction ht with
  | root => exact .root
  | @down l n n' i hr hc ih =>
    have hp := (child_eq_some hc).1
    exact .down ih (by rw [h.kept hr hp]; exact hc)

theorem Extends.trans (h' : Extends s' s'' r) : Extends s s'' r where
  toAdds := h.toAdds.trans h'.toAdds
  kept ht hp := by
    have hk := h.kept ht hp
    exact (h'.kept (h.table ht) (by rw [hk]; exact hp)).trans hk
  taken f hf := by
    rcases h.taken f hf with hf' | ⟨l, hl⟩
    · exact h'.taken f hf'
    · exact .inr ⟨l, h'.table hl⟩

theorem Extends.setOom : Extends s { s' with oom := true } r :=
  ⟨h.toAdds.setOom, h.kept, h.taken⟩

theorem Extends.onWalk_or (hv : OnWalk s'.mem r va l t) :
    OnWalk s.mem r va l t ∨ leaf s.mem r va = none := by
  induction hv with
  | root => exact .inl .root
  | @down l n n' hv hc ih =>
    rcases ih with hv0 | hnone
    · by_cases hp : isPresent (get s.mem n (idx va (l + 1)))
      · refine .inl (.down hv0 ?_)
        rw [← h.kept hv0.reach hp]
        exact hc
      · refine .inr ?_
        rw [leaf_of_onWalk hv0, leafFrom_absent (eq_false_iff.mpr hp)]
    · exact .inr hnone

/-- **The frames that were taken are empty tables.** -/
theorem Extends.emptyTable (hs : Space s r) {f : ℕ} (hf : f ∈ s.pool) :
    f ∈ s'.pool ∨ EmptyTable s'.mem r f := by
  rcases h.taken f hf with hf' | ⟨l, hl⟩
  · exact .inl hf'
  refine .inr ⟨l, hl, fun va hv => ?_⟩
  rw [h.leaves]
  rcases h.onWalk_or hv with hv0 | hnone
  · exact absurd hv0.reach ((hs.pool f hf).table l)
  · exact hnone

end

theorem ensureTable_extends (h : Space s r) (hv : OnWalk s.mem r va (l + 1) t)
    (he : ensureTable s t (idx va (l + 1)) = some s') : Extends s s' r where
  toAdds := ensureTable_adds h hv he
  kept {l' t' i} ht hp := by
    rcases ensureTable_cases he with ⟨-, rfl⟩ | ⟨habs, f, pool, hpool, rfl⟩
    · rfl
    have hf := h.pool f (head_mem hpool)
    refine linkFrame_writes pool h.root hv.reach hf _ _ _ ht ?_
    by_contra hsame
    push Not at hsame
    obtain ⟨rfl, rfl⟩ := hsame
    exact false_ne_true (habs.symm.trans hp)
  taken g hg := by
    rcases ensureTable_cases he with ⟨-, rfl⟩ | ⟨-, f, pool, hpool, rfl⟩
    · exact .inl hg
    have hf := h.pool f (head_mem hpool)
    rw [hpool] at hg
    rcases mem_cons.mp hg with rfl | hg
    · obtain ⟨-, hv', -⟩ := ensureTable_grown h hv he
      exact .inr ⟨l, .down hv'.reach (linkFrame_child hf)⟩
    · exact .inl hg

/-- The tables that `demandTables` makes. -/
theorem demandTables_extends (h : Space s r) (hv : OnWalk s.mem r va l t) :
    Extends s (demandTables va l t s).2 r := by
  induction l generalizing s t with
  | zero => exact Extends.refl h
  | succ l ih =>
    rw [demandTables]
    cases he : ensureTable s t (idx va (l + 1)) with
    | none => exact (Extends.refl h).setOom
    | some s1 =>
      have hx := ensureTable_extends h hv he
      obtain ⟨hg, hv1, hp1⟩ := ensureTable_grown h hv he
      cases l with
      | zero => exact hx
      | succ l =>
        refine hx.trans (ih hg.space (hg.space.next hv1 hp1 fun hl => ?_))
        obtain rfl : l = 0 := by omega
        exact hg.space.giga hv1.reach hp1

theorem demandTables_count (h : Space s r) (va : ℕ) :
    (∀ {s' : Phys}, demandTables va 3 r s = (none, s') →
      s.pool.length < missing s.mem va 3 r) ∧
    ∀ {s' : Phys} {t : ℕ}, demandTables va 3 r s = (some t, s') →
      s'.pool.length + missing s.mem va 3 r = s.pool.length := by
  have hd : Descends s r va (missing s.mem va 3 r) (demandTables va 3 r s) :=
    demandTables_descends h .root
  constructor
  · intro s' he
    rw [he] at hd
    cases hd with
    | failed _ hn => exact hn
  · intro s' t he
    rw [he] at hd
    cases hd with
    | table _ hn _ => exact hn
    | huge _ hn _ _ _ => exact hn

end Extends

/-! ### One chunk -/

section Chunk

variable {w : Wire} {r o start offset ws we chunk t i : ℕ}

theorem wireTable_none (he : ensureTable w.phys t i = none) :
    wireTable t i w = { w with ok := false, phys := { w.phys with oom := true } } := by
  rw [wireTable, he]

theorem wireTable_some {s : Phys} (he : ensureTable w.phys t i = some s) :
    wireTable t i w = { w with phys := s } := by
  rw [wireTable, he]

/-- **The three cases of a chunk**: no frame for a table, a page table, a 2 MB entry. -/
theorem wireChunk_cases (h : Space w.phys r) (hw : w.ok) :
    (∃ s', demandTables chunk 3 r w.phys = (none, s') ∧
      wireChunk o r start offset ws we chunk w = { w with ok := false, phys := s' }) ∨
    (∃ t s', demandTables chunk 3 r w.phys = (some t, s') ∧ OnWalk s'.mem r chunk 0 t ∧
      wireChunk o r start offset ws we chunk w =
        wirePt o start offset ws we chunk t { w with phys := s' }) ∨
    (∃ t pd s', demandTables chunk 3 r w.phys = (some t, s') ∧ OnWalk s'.mem r chunk 1 pd ∧
      isPresent (get s'.mem pd (idx chunk 1)) ∧
      isHuge (get s'.mem pd (idx chunk 1)) ∧
      wireChunk o r start offset ws we chunk w =
        wireHuge o start offset ws we chunk pd (get s'.mem pd (idx chunk 1))
          { w with phys := s' }) := by
  have hok : ∀ s : Phys, ¬ ({ w with phys := s } : Wire).ok = false := fun s hx =>
    false_ne_true (hx.symm.trans hw)
  unfold Vm.wireChunk
  rw [demandTables]
  cases h3 : ensureTable w.phys r (idx chunk 3) with
  | none =>
    have ht : wireTable r (pml4Idx chunk) w = _ := wireTable_none h3
    exact .inl ⟨_, rfl, by rw [ht]; rfl⟩
  | some s3 =>
    have ht : wireTable r (pml4Idx chunk) w = _ := wireTable_some h3
    obtain ⟨hg3, hv3, hp3⟩ := ensureTable_grown h .root h3
    have hv2 := hg3.space.next hv3 hp3 fun hl => absurd hl (lt_irrefl 2)
    dsimp only
    rw [ht, if_neg (hok s3), demandTables, show pml4Idx chunk = (idx chunk 3 : ℕ) from rfl]
    change OnWalk s3.mem r chunk 2 (tableOf (entry s3.mem r (idx chunk 3))) at hv2
    generalize tableOf (entry s3.mem r (idx chunk 3)) = pdpt at hv2 ⊢
    cases h2 : ensureTable s3 pdpt (idx chunk 2) with
    | none =>
      have ht2 : wireTable pdpt (pdptIdx chunk) { w with phys := s3 } = _ := wireTable_none h2
      exact .inl ⟨_, rfl, by rw [ht2]; rfl⟩
    | some s2 =>
      have ht2 : wireTable pdpt (pdptIdx chunk) { w with phys := s3 } = { w with phys := s2 } :=
        wireTable_some h2
      obtain ⟨hg2, hv2', hp2⟩ := ensureTable_grown hg3.space hv2 h2
      have hv1 := hg2.space.next hv2' hp2 fun _ => hg2.space.giga hv2'.reach hp2
      dsimp only
      rw [ht2, if_neg (hok s2), demandTables, show pdptIdx chunk = (idx chunk 2 : ℕ) from rfl]
      change OnWalk s2.mem r chunk 1 (tableOf (entry s2.mem pdpt (idx chunk 2))) at hv1
      generalize tableOf (entry s2.mem pdpt (idx chunk 2)) = pd at hv1 ⊢
      unfold wirePde
      dsimp only
      have hget : entry s2.mem pd (pdIdx chunk) = get s2.mem pd (idx chunk 1) := rfl
      rw [hget]
      set e := get s2.mem pd (idx chunk 1)
      by_cases hold : (isPresent e && isHuge e)
      · obtain ⟨hp, hh⟩ := and_eq_true_iff.mp hold
        have h1 : ensureTable s2 pd (idx chunk 1) = some s2 := if_pos hp
        rw [if_pos hold]
        refine .inr (.inr ⟨tableOf e, pd, s2, ?_, hv1, hp, hh, rfl⟩)
        rw [h1]
        rfl
      rw [if_neg hold]
      have hsmall : isHuge e = false := by
        by_contra hh
        have hh := (not_eq_false _).mp hh
        exact hold (and_eq_true_iff.mpr ⟨hg2.space.huge hv1.reach hh, hh⟩)
      cases h1 : ensureTable s2 pd (idx chunk 1) with
      | none =>
        have ht1 : wireTable pd (pdIdx chunk) { w with phys := s2 } = _ := wireTable_none h1
        exact .inl ⟨_, rfl, by rw [ht1]; rfl⟩
      | some s1 =>
        have ht1 : wireTable pd (pdIdx chunk) { w with phys := s2 } = { w with phys := s1 } :=
          wireTable_some h1
        obtain ⟨hg1, hv1', hp1⟩ := ensureTable_grown hg2.space hv1 h1
        rw [ht1, if_neg (hok s1)]
        exact .inr (.inl ⟨_, s1, rfl, hg1.space.next hv1' hp1
          fun _ => ensureTable_small hg2.space h1 hsmall, rfl⟩)

end Chunk

/-! ### Frames in use stay in use -/

theorem live_objGetPage {f : ℕ} (o k : ℕ) (w : Wire) (h : w.map.live f) :
    (objGetPage o k w).2.map.live f := by
  unfold objGetPage
  split
  · exact h
  split
  · unfold Phys.zeroFrame
    cases w.phys.pool with
    | nil => exact h
    | cons g pool =>
      change update w.map.live g true f
      rw [update_apply, h, ite_self]
  · exact h

/-! ### The first page that has no entry of a page table -/

/-- Page `k` of the range from `a` to `stop` is its first page that no page table maps. -/
structure FirstNew (s : Phys) (r a stop k : ℕ) : Prop where
  lt : a + k * 4096 < stop
  new : ¬ Small s.mem r (a + k * 4096)
  before : ∀ j < k, Small s.mem r (a + j * 4096)

/-- The wiring failed, and all it did is make tables. -/
structure Quiet (v : Map) (s : Phys) (r : ℕ) (w : Wire) : Prop where
  failed : w.ok = false
  map : w.map = v
  phys : Extends s w.phys r

/-- A frame that was free is a frame of an object, or the wiring failed with a frame that is
neither free nor a table. -/
def Leaked (s : Phys) (r : ℕ) (w : Wire) : Prop :=
  (∃ f ∈ s.pool, w.map.live f = true) ∨
    w.ok = false ∧ ∃ f ∈ s.pool, f ∉ w.phys.pool ∧ ∀ l, ¬ Table w.phys.mem r l f

/-- The address is in a 2 MB page. -/
def Huge (s : Phys) (r va : ℕ) : Prop := ∃ e, leaf s.mem r va = some (1, e)

section First

variable {s : Phys} {r o a stop k chunk pt : ℕ} {w : Wire}

/-- **What happens to a page without a frame.** -/
theorem wirePte_cases {va start offset i : ℕ} (hk : add64 (sub64 va start) offset / 4096 = k)
    (h0 : w.slot o k = 0) :
    (¬ (k : ℤ) < (w.map.object o).pageCount % 2 ^ 64 ∧
      wirePte o start offset va pt i w = w.fail) ∨
    ((k : ℤ) < (w.map.object o).pageCount % 2 ^ 64 ∧ w.phys.pool = [] ∧
      wirePte o start offset va pt i w =
        { w with ok := false, phys := { w.phys with oom := true } }) ∨
    ((k : ℤ) < (w.map.object o).pageCount % 2 ^ 64 ∧ ∃ f pool, w.phys.pool = f :: pool ∧
      (wirePte o start offset va pt i w).map.live f) := by
  rw [Wire.slot] at h0
  unfold wirePte objGetPage
  rw [hk]
  by_cases hlt : (k : ℤ) < (w.map.object o).pageCount % 2 ^ 64
  · rw [if_neg (not_not.mpr hlt), if_pos h0]
    unfold Phys.zeroFrame
    cases hpool : w.phys.pool with
    | nil =>
      refine .inr (.inl ⟨hlt, rfl, ?_⟩)
      dsimp only
      rw [if_pos rfl, hpool]
      rfl
    | cons f pool =>
      refine .inr (.inr ⟨hlt, f, pool, rfl, ?_⟩)
      dsimp only
      split
      · exact update_self ..
      · exact update_self ..
  · rw [if_pos hlt]
    exact .inl ⟨hlt, rfl⟩

theorem present_iff_small {i : ℕ} (hx : Extends s w.phys r) (hc : chunk % 2 ^ 21 = 0) (hi : i < 512)
    (hv : OnWalk w.phys.mem r chunk 0 pt) :
    isPresent (entry w.phys.mem pt i) = true ↔ Small s.mem r (chunk + i * 4096) := by
  have hva := hv.of_idx (idx_of_chunk hc (le_add_right chunk (i * 4096)) (by omega))
  have hleaf : leaf s.mem r (chunk + i * 4096) = leafEntry 0 (entry w.phys.mem pt i) := by
    rw [← hx.leaves, leaf_page hva, Paging.get, ← idx_of_piece hc hi]
  unfold Small
  rw [hleaf]
  constructor
  · exact fun hp => ⟨_, leafEntry_of_present hp⟩
  · rintro ⟨e, he⟩
    by_contra hp
    rw [leafEntry_of_absent (eq_false_iff.mpr hp)] at he
    cases he

theorem slot_index (hlt : a + k * 4096 < 2 ^ 64) :
    add64 (sub64 (a + k * 4096) a) 0 / 4096 = k := by
  rw [add64, sub64]
  omega

theorem missing_congr {m : Mem} {va va' : ℕ} : ∀ {l t : ℕ},
    (∀ j, 0 < j → j ≤ l → idx va j = idx va' j) → missing m va l t = missing m va' l t := by
  intro l
  induction l with
  | zero => exact fun _ => rfl
  | succ l ih =>
    intro t h
    rw [missing, missing, h (l + 1) (succ_pos l) le_rfl]
    split
    · exact ih fun j h1 h2 => h j h1 (le_succ_of_le h2)
    · rfl

/-- **The condition**: at the first new page there is no frame left for it, once the tables on its
walk are made, or the object has no slot for it.  In a 2 MB page the frame for the new table
counts. -/
def Stopped (s : Phys) (r : ℕ) (n : ℤ) (a k : ℕ) : Prop :=
  s.pool.length ≤ missing s.mem (a + k * 4096) 3 r ∨
    ¬ Huge s r (a + k * 4096) ∧ ¬ (k : ℤ) < n % 2 ^ 64

/-- What the first new page decides: the wiring has stopped and made nothing but tables, or a frame
is lost. -/
def Outcome (s : Phys) (r : ℕ) (v : Map) (o a k : ℕ) (w : Wire) : Prop :=
  Stopped s r (v.object o).pageCount a k ∧ Quiet v s r w ∨
    ¬ Stopped s r (v.object o).pageCount a k ∧ Leaked s r w

theorem Leaked.live (h : Leaked s r w) (hok : w.ok) : ∃ f ∈ s.pool, w.map.live f := by
  rcases h with h | ⟨hno, -⟩
  · exact h
  · cases hno.symm.trans hok

theorem leaked_of_unlinked {w1 : Wire} {f : ℕ} {pool : List ℕ} (hx : Extends s w.phys r)
    (hpool : w.phys.pool = f :: pool) (hok : w1.ok = false) (hsub : w1.phys.pool = pool)
    (hmem : ∀ x, x / 4096 * 4096 ≠ f → w1.phys.mem x = w.phys.mem x) : Leaked s r w1 := by
  have hfp : f ∈ w.phys.pool := head_mem hpool
  have hfree := hx.space.pool f hfp
  refine .inr ⟨hok, f, hx.pool f hfp, ?_, fun l hl => ?_⟩
  · rw [hsub]
    exact (nodup_cons.mp (hpool ▸ hx.space.nodup)).1
  · have hsame : SameTables w.phys.mem w1.phys.mem r := fun l' t ht x hxt =>
      hmem x fun hxf => hfree.table l' (by rw [← hxf, hxt]; exact ht)
    exact hfree.table l ((hsame.table_iff hx.space.root).mp hl)

theorem zeroFrame_nil (h : s.pool = []) : s.zeroFrame = (none, { s with oom := true }) := by
  cases s
  cases h
  rfl

theorem zeroFrame_cons {f : ℕ} {pool : List ℕ} (h : s.pool = f :: pool) :
    s.zeroFrame = (some f, { s with pool := pool, mem := s.mem.fill f 4096 0 }) := by
  cases s
  cases h
  rfl

section

variable (hc : chunk % 2 ^ 21 = 0) (hc' : chunk + 2 ^ 21 ≤ 2 ^ 64) (ha : a % 4096 = 0)
  (hf : FirstNew s r a stop k) (h1 : chunk ≤ a + k * 4096) (h2 : a + k * 4096 < chunk + 2 ^ 21)

include hc hc' ha hf h1 h2

theorem wirePt_first (Q : Wire → Prop)
    (hkeep : ∀ va i w', w'.ok → Q w' → Q (wirePte o a 0 va pt i w'))
    (hx : Extends s w.phys r) (hok : w.ok) (hv : OnWalk w.phys.mem r chunk 0 pt)
    (hit : Q (wirePte o a 0 (a + k * 4096) pt ((a + k * 4096 - chunk) / 4096) w)) :
    Q (wirePt o a 0 a stop chunk pt w) := by
  have hnot : ∀ {w' : Wire}, w'.ok → ¬ w'.ok = false := fun h h' =>
    false_ne_true (h'.symm.trans h)
  rw [wirePt]
  refine forLoop_first (· = w) Q (j := (a + k * 4096 - chunk) / 4096) (by omega) rfl ?_ ?_ ?_
  · intro i hi w' hw'
    rw [hw', if_neg (hnot hok), add64_piece hc' (by omega), if_neg]
    rintro ⟨q1, q2, q3⟩
    -- a page of the range before the first new one
    have hsm := hf.before ((chunk + i * 4096 - a) / 4096) (by omega)
    rw [show a + (chunk + i * 4096 - a) / 4096 * 4096 = chunk + i * 4096 by omega,
      ← present_iff_small hx hc (by omega) hv] at hsm
    exact false_ne_true (q3.symm.trans hsm)
  · intro w' hw'
    rw [hw']
    have hpage : chunk + (a + k * 4096 - chunk) / 4096 * 4096 = a + k * 4096 := by omega
    have hnew : isPresent (entry w.phys.mem pt ((a + k * 4096 - chunk) / 4096)) = false := by
      refine eq_false_iff.mpr fun hp => hf.new ?_
      rwa [present_iff_small hx hc (by omega) hv, hpage] at hp
    rw [if_neg (hnot hok), add64_piece hc' (by omega), hpage, if_pos ⟨by omega, hf.lt, hnew⟩]
    exact hit
  · intro i hi w' hQ
    by_cases hw : w'.ok = false
    · rw [if_pos hw]
      exact hQ
    rw [if_neg hw]
    split
    · exact hkeep _ _ _ ((not_eq_false _).mp hw) hQ
    · exact hQ

theorem wireSplit_first {old f : ℕ} (Q : Wire → Prop)
    (hkeep : ∀ va i w', w'.ok → Q w' → Q (wirePte o a 0 va f i w'))
    (hsplit : ∀ i e w', w'.ok → Q w' → Q { w' with phys := w'.phys.setEntry f i e })
    (hok : w.ok) (hal : f % 4096 = 0)
    (hnone : ∀ va, chunk ≤ va → va < chunk + 2 ^ 21 → ¬ Small s.mem r va)
    (hit : ∀ w' : Wire, w'.ok → w'.map = w.map → w'.phys.pool = w.phys.pool →
      (∀ x, x / 4096 * 4096 ≠ f → w'.phys.mem x = w.phys.mem x) →
      Q (wirePte o a 0 (a + k * 4096) f ((a + k * 4096 - chunk) / 4096) w')) :
    Q (wireSplit o a 0 a stop chunk old f w) := by
  have hnot : ∀ {w' : Wire}, w'.ok → ¬ w'.ok = false := fun h h' =>
    false_ne_true (h'.symm.trans h)
  rw [wireSplit]
  refine forLoop_first (fun w' : Wire => w'.ok ∧ w'.map = w.map ∧
    w'.phys.pool = w.phys.pool ∧ ∀ x, x / 4096 * 4096 ≠ f → w'.phys.mem x = w.phys.mem x) Q
    (j := (a + k * 4096 - chunk) / 4096) (by omega) ⟨hok, rfl, rfl, fun _ _ => rfl⟩ ?_ ?_ ?_
  · rintro i hi w' ⟨q1, q2, q3, q4⟩
    have hout : ¬ (a ≤ chunk + i * 4096 ∧ chunk + i * 4096 < stop) := by
      rintro ⟨p1, p2⟩
      have hsm := hf.before ((chunk + i * 4096 - a) / 4096) (by omega)
      rw [show a + (chunk + i * 4096 - a) / 4096 * 4096 = chunk + i * 4096 by omega] at hsm
      exact hnone _ (by omega) (by omega) hsm
    rw [if_neg (hnot q1), add64_piece hc' (by omega), if_neg hout]
    refine ⟨q1, q2, q3, fun x hx => ?_⟩
    rw [← q4 x hx]
    exact setEntry_apply_of_ne hal (by omega) hx
  · rintro w' ⟨q1, q2, q3, q4⟩
    have hpage : chunk + (a + k * 4096 - chunk) / 4096 * 4096 = a + k * 4096 := by omega
    rw [if_neg (hnot q1), add64_piece hc' (by omega), hpage, if_pos ⟨by omega, hf.lt⟩]
    exact hit w' q1 q2 q3 q4
  intro i hi w' hQ
  by_cases hw : w'.ok = false
  · rw [if_pos hw]
    exact hQ
  rw [if_neg hw]
  have hw := (not_eq_false _).mp hw
  split
  · exact hkeep _ _ _ hw hQ
  · exact hsplit _ _ _ hw hQ

theorem wirePt_outcome (hx : Extends s w.phys r) (hok : w.ok) (h0 : w.slot o k = 0)
    (hv : OnWalk w.phys.mem r chunk 0 pt)
    (hlen : w.phys.pool.length + missing s.mem (a + k * 4096) 3 r = s.pool.length) :
    Outcome s r w.map o a k (wirePt o a 0 a stop chunk pt w) := by
  have hva := hv.of_idx (idx_of_chunk hc h1 h2)
  have hsmall : ¬ Huge s r (a + k * 4096) := by
    rintro ⟨e, hl⟩
    rw [← hx.leaves, leaf_page hva, leafEntry] at hl
    split at hl
    · exact absurd (Prod.mk.inj (Option.some.inj hl)).1 (by simp)
    · cases hl
  have hkeep : ∀ w0 : Wire, w0.ok = false → ∀ va i (w' : Wire), w'.ok → w' = w0 →
      wirePte o a 0 va pt i w' = w0 := by
    intro w0 hw0 va i w' hw' he
    rw [he, hw0] at hw'
    cases hw'
  rcases wirePte_cases (i := (a + k * 4096 - chunk) / 4096) (slot_index (a := a) (by omega))
    h0 with ⟨hlt, hpte⟩ | ⟨hlt, hpool, hpte⟩ | ⟨hlt, f, pool, hpool, hlive⟩
  · have hres : wirePt o a 0 a stop chunk pt w = w.fail :=
      wirePt_first hc hc' ha hf h1 h2 (· = w.fail) (hkeep _ rfl) hx hok hv hpte
    rw [hres]
    exact .inl ⟨.inr ⟨hsmall, hlt⟩, rfl, rfl, hx⟩
  · have hres : wirePt o a 0 a stop chunk pt w =
        { w with ok := false, phys := { w.phys with oom := true } } :=
      wirePt_first hc hc' ha hf h1 h2
        (· = { w with ok := false, phys := { w.phys with oom := true } }) (hkeep _ rfl) hx hok hv hpte
    rw [hpool, length_nil] at hlen
    rw [hres]
    exact .inl ⟨.inl (by omega), rfl, rfl, hx.setOom⟩
  · refine .inr ⟨?_, .inl ⟨f, hx.pool f (head_mem hpool), ?_⟩⟩
    · rintro (hle | ⟨-, hno⟩)
      · rw [hpool, length_cons] at hlen
        omega
      · exact hno hlt
    · exact wirePt_first hc hc' ha hf h1 h2 (fun w' : Wire => w'.map.live f)
        (fun _ _ _ _ h => keeps_wirePte (Q := (·.live f)) live_objGetPage h) hx hok hv hlive

theorem wireHuge_outcome {pd old : ℕ} (hx : Extends s w.phys r) (hok : w.ok)
    (h0 : w.slot o k = 0)
    (hhuge : ∀ va, chunk ≤ va → va < chunk + 2 ^ 21 → Huge s r va)
    (hlen : w.phys.pool.length + missing s.mem (a + k * 4096) 3 r = s.pool.length) :
    Outcome s r w.map o a k (wireHuge o a 0 a stop chunk pd old w) := by
  have hnone : ∀ va, chunk ≤ va → va < chunk + 2 ^ 21 → ¬ Small s.mem r va := by
    rintro va hva1 hva2 ⟨e, he⟩
    obtain ⟨e', he'⟩ := hhuge va hva1 hva2
    rw [he] at he'
    exact absurd (Prod.mk.inj (Option.some.inj he')).1 (by simp)
  unfold wireHuge
  cases hpool : w.phys.pool with
  | nil =>
    rw [zeroFrame_nil hpool]
    rw [hpool, length_nil] at hlen
    exact .inl ⟨.inl (by omega), rfl, rfl, hx.setOom⟩
  | cons f pool =>
    have hfp : f ∈ w.phys.pool := head_mem hpool
    have hal := (hx.space.pool f hfp).aligned
    rw [zeroFrame_cons hpool]
    dsimp only
    refine .inr ⟨?_, ?_⟩
    · rintro (hle | ⟨hno, -⟩)
      · rw [hpool, length_cons] at hlen
        omega
      · exact hno (hhuge _ h1 h2)
    generalize hw1 : ({ w with phys := { w.phys with
      pool := pool, mem := w.phys.mem.fill f 4096 0 } } : Wire) = w1
    have hok1 : w1.ok := by rw [← hw1]; exact hok
    have hmap₁ : w1.map = w.map := by rw [← hw1]
    have hpool₁ : w1.phys.pool = pool := by rw [← hw1]
    have hmem₁ : ∀ x, x / 4096 * 4096 ≠ f → w1.phys.mem x = w.phys.mem x := by
      intro x hxf
      rw [← hw1]
      exact fill_apply_of_ne hal hxf
    have hleak : Leaked s r (wireSplit o a 0 a stop chunk old f w1) := by
      refine wireSplit_first hc hc' ha hf h1 h2 (Leaked s r) (fun va i w' hw' hl => ?_)
        (fun i e w' hw' hl => ?_) hok1 hal hnone (fun w' q1 q2 q3 q4 => ?_)
      · obtain ⟨g, hg, hlive⟩ := hl.live hw'
        exact .inl ⟨g, hg, keeps_wirePte (Q := (·.live g)) live_objGetPage hlive⟩
      · exact .inl (hl.live hw')
      have hmem' : ∀ x, x / 4096 * 4096 ≠ f → w'.phys.mem x = w.phys.mem x := fun x hxf =>
        (q4 x hxf).trans (hmem₁ x hxf)
      have h0' : w'.slot o k = 0 := by
        rw [Wire.slot, q2, hmap₁]
        exact h0
      rcases wirePte_cases (i := (a + k * 4096 - chunk) / 4096) (slot_index (a := a) (by omega))
        h0' with ⟨-, hpte⟩ | ⟨-, -, hpte⟩ | ⟨-, g, pool', hpool', hlive⟩
      · rw [hpte]
        exact leaked_of_unlinked hx hpool rfl (q3.trans hpool₁) hmem'
      · rw [hpte]
        exact leaked_of_unlinked hx hpool rfl (q3.trans hpool₁) hmem'
      · refine .inl ⟨g, hx.pool g ?_, hlive⟩
        rw [hpool, ← hpool₁, ← q3, hpool']
        exact .tail _ (.head _)
    split
    · exact hleak
    · next hok2 => exact .inl (hleak.live ((not_eq_false _).mp hok2))

end

/-- **The chunk of the first new page.** -/
theorem wireChunk_first (chunk : ℕ) (hs : Space w.phys r) (hok : w.ok) (h0 : w.slot o k = 0)
    (ha : a % 4096 = 0) (hc : chunk % 2 ^ 21 = 0) (hc' : chunk + 2 ^ 21 ≤ 2 ^ 64)
    (hf : FirstNew w.phys r a stop k) (h1 : chunk ≤ a + k * 4096)
    (h2 : a + k * 4096 < chunk + 2 ^ 21) :
    Outcome w.phys r w.map o a k (wireChunk o r a 0 a stop chunk w) := by
  have hext : Extends w.phys (demandTables chunk 3 r w.phys).2 r := demandTables_extends hs .root
  obtain ⟨hnone, hsome⟩ := demandTables_count hs chunk
  rw [missing_congr (idx_of_chunk hc h1 h2)] at hnone hsome
  rcases wireChunk_cases (o := o) hs hok with ⟨s', hd, he⟩ | ⟨t, s', hd, hv, he⟩ |
    ⟨t, pd, s', hd, hv, hp, hh, he⟩
  · rw [hd] at hext
    rw [he]
    exact .inl ⟨.inl (hnone hd).le, rfl, rfl, hext⟩
  · rw [hd] at hext
    rw [he]
    exact wirePt_outcome hc hc' ha hf h1 h2 (w := { w with phys := s' }) hext hok h0 hv (hsome hd)
  rw [hd] at hext
  rw [he]
  refine wireHuge_outcome hc hc' ha hf h1 h2 (w := { w with phys := s' }) hext hok h0 ?_ (hsome hd)
  intro va hva1 hva2
  have hi := idx_of_chunk hc hva1 hva2
  have hva : OnWalk s'.mem r va 1 pd := hv.of_idx fun l hl hl' => hi l (by omega) hl'
  have hi1 := hi 1 (by simp) (by simp)
  rw [hi1] at hp hh
  refine ⟨get s'.mem pd (idx va 1), ?_⟩
  rw [← hext.leaves]
  exact leaf_huge hva hp hh

end First

/-! ### All chunks -/

section Chunks

variable {s : Phys} {r o a stop k chunk : ℕ} {w : Wire}

theorem demandTables_small {va va' l t e : ℕ} (h : Space s r) (hv : OnWalk s.mem r va l t)
    (hi : ∀ j, 0 < j → j ≤ l → idx va' j = idx va j) (hl : leafFrom s.mem va l t = some (0, e)) :
    ∃ t0, demandTables va' l t s = (some t0, s) := by
  induction l generalizing t with
  | zero => exact ⟨t, rfl⟩
  | succ l ih =>
    cases hc : child (l + 1) (get s.mem t (idx va (l + 1))) with
    | none =>
      rw [leafFrom_none hc, leafEntry] at hl
      split at hl
      · exact absurd (Prod.mk.inj (Option.some.inj hl)).1 (succ_ne_zero l)
      · cases hl
    | some t' =>
      obtain ⟨hp, hs, -⟩ := child_eq_some hc
      have ht : tableOf (entry s.mem t (idx va (l + 1))) = t' :=
        (h.next hv hp fun _ => hs (by omega)).unique (.down hv hc)
      have hens : ensureTable s t (idx va (l + 1)) = some s := if_pos hp
      rw [leafFrom_child hc] at hl
      rw [demandTables, hi (l + 1) (succ_pos l) le_rfl, hens]
      dsimp only
      rw [ht]
      exact ih (.down hv hc) (fun j h1 h2 => hi j h1 (le_succ_of_le h2)) hl

theorem wireChunk_skip (va : ℕ) (hs : Space w.phys r) (hok : w.ok)
    (hc : chunk % 2 ^ 21 = 0) (hc' : chunk + 2 ^ 21 ≤ 2 ^ 64) (h1 : chunk ≤ va)
    (h2 : va < chunk + 2 ^ 21) (hva : Small w.phys.mem r va)
    (hall : ∀ i < 512, a ≤ chunk + i * 4096 → chunk + i * 4096 < stop →
      Small w.phys.mem r (chunk + i * 4096)) :
    wireChunk o r a 0 a stop chunk w = w := by
  have hidx := idx_of_chunk hc h1 h2
  obtain ⟨e, he⟩ := hva
  obtain ⟨t0, ht0⟩ := demandTables_small hs .root hidx he
  rcases wireChunk_cases hs hok with ⟨s', hd, -⟩ | ⟨t, s', hd, hv, hw⟩ |
    ⟨t, pd, s', hd, hv, hp, hh, -⟩
  · rw [ht0] at hd
    cases hd
  · rw [ht0] at hd
    obtain rfl : w.phys = s' := (Prod.mk.inj hd).2
    rw [hw, wirePt]
    refine forLoop_fixed fun i hi => ?_
    rw [if_neg fun h => Bool.false_ne_true (h.symm.trans hok), if_neg]
    rintro ⟨q1, q2, q3⟩
    rw [add64_piece hc' hi] at q1 q2
    have hsm := (present_iff_small (Extends.refl hs) hc hi hv).mpr (hall i hi q1 q2)
    exact false_ne_true (q3.symm.trans hsm)
  · rw [ht0] at hd
    obtain rfl : w.phys = s' := (Prod.mk.inj hd).2
    rw [hidx 1 (by simp) (by simp)] at hp hh
    rw [leaf_huge (hv.of_idx fun l hl hl' => hidx l (by omega) hl') hp hh] at he
    exact absurd (Prod.mk.inj (Option.some.inj he)).1 (by simp)

/-- The chunks of a range that ends before the last 2 MB. -/
structure ChunkRange (a stop : ℕ) : Prop where
  aligned : a % 4096 = 0
  lt : a < stop
  le : stop ≤ 2 ^ 64 - 2 ^ 21

theorem ChunkRange.up (R : ChunkRange a stop) :
    hugeUp stop = (stop + 0x1FFFFF) / 2 ^ 21 * 2 ^ 21 := by
  have hle := R.le
  rw [hugeUp, hugeDown, add64, mod_eq_of_lt (by omega)]

theorem Leaked.next (h : Leaked s r w) {j : ℕ} :
    Leaked s r (if w.ok = false then w else wireChunk o r a 0 a stop j w) := by
  split
  · exact h
  · next hok =>
    obtain ⟨f, hf, hlive⟩ := h.live ((not_eq_false _).mp hok)
    exact .inl ⟨f, hf, keeps_wireChunk (Q := (·.live f)) live_objGetPage hlive⟩

section

variable (R : ChunkRange a stop) (hs : Space w.phys r) (hok : w.ok)

include R hs hok

/-- A chunk of the range before the page `cur` is skipped when all pages before `cur` are mapped by
page tables. -/
theorem wireChunk_before {j : ℕ} (cur : ℕ) (hj : hugeDown a + j * 0x200000 < cur)
    (hj' : cur < hugeDown a + (j + 1) * 0x200000 → stop ≤ cur) (hcur : a < cur) (hle : cur ≤ stop)
    (hall : ∀ i, a + i * 4096 < cur → Small w.phys.mem r (a + i * 4096)) :
    wireChunk o r a 0 a stop (hugeDown a + j * 0x200000) w = w := by
  have hal := R.aligned
  have hle' := R.le
  have hdown : hugeDown a = a / 2 ^ 21 * 2 ^ 21 := rfl
  have hsmall : ∀ va, a ≤ va → va % 4096 = 0 → va < cur → Small w.phys.mem r va := by
    intro va h1 h2 h3
    have hpage : a + (va - a) / 4096 * 4096 = va := by omega
    rw [← hpage]
    exact hall _ (by omega)
  refine wireChunk_skip (max a (hugeDown a + j * 0x200000)) hs hok (by omega) (by omega)
    (le_max_right _ _) ?_ ?_ fun i hi q1 q2 => ?_
  · exact max_lt (by omega) (by omega)
  · rcases max_choice a (hugeDown a + j * 0x200000) with h | h
    · rw [h]
      exact hsmall _ le_rfl hal hcur
    · have hge := le_max_left a (hugeDown a + j * 0x200000)
      rw [h] at hge ⊢
      exact hsmall _ hge (by omega) hj
  · exact hsmall _ q1 (by omega) (by omega)

theorem wireChunks_skip (hall : ∀ i, a + i * 4096 < stop → Small w.phys.mem r (a + i * 4096)) :
    wireChunks o r a 0 a stop w = w := by
  have hlt := R.lt
  have hup := R.up
  have hdown : hugeDown a = a / 2 ^ 21 * 2 ^ 21 := rfl
  rw [wireChunks]
  refine forLoop_fixed fun j hj => ?_
  rw [wireChunk_before R hs hok stop (by omega) (fun _ => le_rfl) hlt le_rfl hall, ite_self]

/-- **A wiring that fails has a first new page.** -/
theorem exists_firstNew (hfail : (wireChunks o r a 0 a stop w).ok = false) :
    ∃ k, FirstNew w.phys r a stop k := by
  classical
  have hex : ∃ k, a + k * 4096 < stop ∧ ¬ Small w.phys.mem r (a + k * 4096) := by
    by_contra hno
    rw [wireChunks_skip R hs hok fun i hi => not_not.mp fun hn => hno ⟨i, hi, hn⟩, hok] at hfail
    cases hfail
  obtain ⟨k, ⟨hlt, hnew⟩, hmin⟩ : ∃ k, (a + k * 4096 < stop ∧ ¬ Small w.phys.mem r (a + k * 4096)) ∧
      ∀ j < k, ¬ (a + j * 4096 < stop ∧ ¬ Small w.phys.mem r (a + j * 4096)) :=
    ⟨Nat.find hex, Nat.find_spec hex, fun j hj => Nat.find_min hex hj⟩
  refine ⟨k, hlt, hnew, fun j hj => ?_⟩
  have hle : a + j * 4096 ≤ a + k * 4096 := Nat.add_le_add_left (Nat.mul_le_mul_right _ hj.le) a
  by_contra hn
  exact hmin j hj ⟨hle.trans_lt hlt, hn⟩

/-- **The first new page decides**: either the wiring stops there and has made nothing but tables, or
a frame is lost. -/
theorem wireChunks_first (h0 : ∀ k, w.slot o k = 0) (hf : FirstNew w.phys r a stop k) :
    Outcome w.phys r w.map o a k (wireChunks o r a 0 a stop w) := by
  have hal := R.aligned
  have hlt := hf.lt
  have hle := R.le
  have hup := R.up
  have hdown : hugeDown a = a / 2 ^ 21 * 2 ^ 21 := rfl
  have hnot : ¬ w.ok = false := fun h => false_ne_true (h.symm.trans hok)
  -- the chunk of the first new page
  obtain ⟨j, hj⟩ : ∃ j, j = (a + k * 4096) / 2 ^ 21 - a / 2 ^ 21 := ⟨_, rfl⟩
  have hbefore : ∀ i < j, (if w.ok = false then w
      else wireChunk o r a 0 a stop (hugeDown a + i * 0x200000) w) = w := by
    intro i hi
    rw [wireChunk_before R hs hok (a + k * 4096) (by omega) (by omega) (by omega) hlt.le
      (fun i' hi' => hf.before i' (by omega)), ite_self]
  rw [wireChunks]
  rcases wireChunk_first (hugeDown a + j * 0x200000) hs hok (h0 k) hal (by omega)
    (by omega) hf (by omega) (by omega) with ⟨hst, hq⟩ | ⟨hst, hq⟩
  · refine .inl ⟨hst, forLoop_first (· = w) (Quiet w.map w.phys r) (j := j) (by omega) rfl ?_ ?_ ?_⟩
    · exact fun i hi w' hw' => by rw [hw', hbefore i hi]
    · intro w' hw'
      rw [hw', if_neg hnot]
      exact hq
    · intro i _ w' hw'
      rw [if_pos hw'.failed]
      exact hw'
  · refine .inr ⟨hst, forLoop_first (· = w) (Leaked w.phys r) (j := j) (by omega) rfl ?_ ?_ ?_⟩
    · exact fun i hi w' hw' => by rw [hw', hbefore i hi]
    · intro w' hw'
      rw [hw', if_neg hnot]
      exact hq
    · exact fun i _ w' hw' => hw'.next

end

end Chunks

end TipOS.Vm
