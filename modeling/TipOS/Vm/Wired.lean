import TipOS.Paging.Leaf
import TipOS.Paging.WalkPtes
import TipOS.Vm.Wire

/-!
# Anonymous mappings

A successful anonymous `vm_mmap` should back its range with zeroed frames of a new object
(`Backed`).  `Wired` is the invariant of `vm_map_wire` over the pages of the range: those
that were not mapped by a page table get a frame of the object, in its slot and in the leaf of
their walk, and the pages that follow are as they were.  A 2 MB entry is replaced by a table that
is complete before an entry leads to it; `Built` is the state of that table.

`vm_map_wire` leaves pages alone that a page table maps already, whatever they are left over from,
and it wires nothing when the end of the range or of its last chunk wraps.
`mmap_backed_iff` says for which ranges the mapping is right.
-/

namespace TipOS.Vm

open Lib Paging Nat Phys Bool List

variable {old prot flags : ℕ}

/-! ### Frames of the object -/

/-- The frames in the slots of the object at `o` come from the pool `P`, are not handed out twice
and are zero. -/
structure Slots (P : List ℕ) (o : ℕ) (w : Wire) : Prop where
  nodup : w.phys.pool.Nodup
  pool : ∀ f ∈ w.phys.pool, f ∈ P
  mem : ∀ k, w.slot o k ≠ 0 → w.slot o k ∈ P ∧ w.slot o k ∉ w.phys.pool
  inj : ∀ k k', w.slot o k ≠ 0 → w.slot o k = w.slot o k' → k = k'
  zero : ∀ k, w.slot o k ≠ 0 → ∀ x, w.slot o k ≤ x → x < w.slot o k + 4096 → w.phys.mem x = 0

section Slots

variable {P : List ℕ} {o k start offset va pt i f t : ℕ} {w w' : Wire} {pool : List ℕ}

theorem ok_of_ite (hok : (if w.ok = false then w else w').ok) :
    w.ok ∧ (if w.ok = false then w else w') = w' := by
  by_cases hw : w.ok = false
  · rw [if_pos hw] at hok
    cases hw.symm.trans hok
  · exact ⟨(not_eq_false _).mp hw, if_neg hw⟩

theorem objGetPage_new (h0 : w.slot o k = 0) (hne : (objGetPage o k w).1 ≠ 0) :
    ∃ f pool, w.phys.pool = f :: pool ∧ (objGetPage o k w).1 = f ∧ f ≠ 0 ∧
      (objGetPage o k w).2.ok = w.ok ∧
      (objGetPage o k w).2.phys = { w.phys with pool := pool, mem := w.phys.mem.fill f 4096 0 } ∧
      (objGetPage o k w).2.map.entry = w.map.entry ∧
      ∀ k', (objGetPage o k w).2.slot o k' = if k' = k then f else w.slot o k' := by
  rw [Wire.slot] at h0
  unfold objGetPage at hne ⊢
  split at hne
  · exact absurd rfl hne
  next hlt =>
  rw [if_neg hlt, if_pos h0]
  unfold Phys.zeroFrame at hne ⊢
  cases hpool : w.phys.pool with
  | nil =>
    rw [hpool] at hne
    exact absurd rfl hne
  | cons f pool =>
    rw [hpool] at hne
    refine ⟨f, pool, rfl, rfl, hne, rfl, rfl, rfl, fun k' => ?_⟩
    simp only [Wire.slot, Map.setObject, Function.update_self]
    exact Function.update_apply ..

/-- **A page gets a frame**: the next one of the pool, zeroed, in its slot and in its entry. -/
theorem wirePte_ok (h0 : w.slot o (add64 (sub64 va start) offset / 4096) = 0)
    (hok : (wirePte o start offset va pt i w).ok) :
    ∃ f pool, w.phys.pool = f :: pool ∧ f ≠ 0 ∧
      (wirePte o start offset va pt i w).phys = linkFrame w.phys pool pt i f ∧
      (wirePte o start offset va pt i w).map.entry = w.map.entry ∧
      ∀ k, (wirePte o start offset va pt i w).slot o k =
        if k = add64 (sub64 va start) offset / 4096 then f else w.slot o k := by
  unfold wirePte at hok ⊢
  generalize hk : add64 (sub64 va start) offset / 4096 = k at h0 hok ⊢
  by_cases hne : (objGetPage o k w).1 = 0
  · dsimp only at hok
    rw [if_pos hne] at hok
    cases hok
  obtain ⟨f, pool, hpool, hpa, hf, -, hphys, hent, hslot⟩ := objGetPage_new h0 hne
  refine ⟨f, pool, hpool, hf, ?_, ?_, ?_⟩
  · dsimp only
    rw [if_neg hne]
    dsimp only
    rw [hphys, hpa]
    rfl
  · dsimp only
    rw [if_neg hne]
    exact hent
  · intro k'
    dsimp only
    rw [if_neg hne]
    exact hslot k'

theorem Slots.congr (h : Slots P o w) (hslot : ∀ k, w'.slot o k = w.slot o k)
    (hnd : w'.phys.pool.Nodup) (hsub : ∀ f ∈ w'.phys.pool, f ∈ w.phys.pool)
    (hmem : ∀ k, w.slot o k ≠ 0 → ∀ x, x / 4096 * 4096 = w.slot o k → w'.phys.mem x = w.phys.mem x)
    (hal : ∀ f ∈ P, f % 4096 = 0) : Slots P o w' where
  nodup := hnd
  pool f hf := h.pool f (hsub f hf)
  mem k hk := by
    rw [hslot] at hk ⊢
    exact ⟨(h.mem k hk).1, fun hx => (h.mem k hk).2 (hsub _ hx)⟩
  inj k k' hk he := by
    rw [hslot] at hk he
    rw [hslot] at he
    exact h.inj k k' hk he
  zero k hk x hx hx' := by
    rw [hslot] at hk hx hx'
    have := hal _ (h.mem k hk).1
    rw [hmem k hk x (by omega)]
    exact h.zero k hk x hx hx'

theorem linkFrame_apply {s : Phys} {x : ℕ} (ht : t % 4096 = 0) (hi : i < 512) (hf : f % 4096 = 0)
    (hx : x / 4096 * 4096 ≠ f) (hx' : x / 4096 * 4096 ≠ t) :
    (linkFrame s pool t i f).mem x = s.mem x := by
  rw [linkFrame, setEntry_mem, setEntry_apply_of_ne ht hi hx']
  exact fill_apply_of_ne hf hx

theorem Slots.take (h : Slots P o w) (hal : ∀ f ∈ P, f % 4096 = 0) (hpt : pt % 4096 = 0)
    (hi : i < 512) (hpool : w.phys.pool = f :: pool) (hf : f ≠ 0)
    (hptf : pt ≠ f) (hpts : ∀ k, w.slot o k ≠ 0 → pt ≠ w.slot o k)
    (hphys : w'.phys = linkFrame w.phys pool pt i f)
    (hslot : ∀ k', w'.slot o k' = if k' = k then f else w.slot o k') : Slots P o w' := by
  have hfp : f ∈ w.phys.pool := head_mem hpool
  have hnd : f ∉ pool ∧ pool.Nodup := nodup_cons.mp (hpool ▸ h.nodup)
  have hsub : ∀ g ∈ pool, g ∈ w.phys.pool := fun g hg => by
    rw [hpool]
    exact .tail _ hg
  have hpool' : w'.phys.pool = pool := by rw [hphys]; rfl
  have hfal := hal f (h.pool f hfp)
  have hne : ∀ k', w.slot o k' ≠ 0 → w.slot o k' ≠ f := fun k' hk' he => (h.mem k' hk').2 (he ▸ hfp)
  have hself : w'.slot o k = f := (hslot k).trans (if_pos rfl)
  have hother : ∀ {k'}, k' ≠ k → w'.slot o k' = w.slot o k' := fun hk => (hslot _).trans (if_neg hk)
  refine ⟨hpool' ▸ hnd.2, fun g hg => h.pool g (hsub g (hpool' ▸ hg)), fun k' hk' => ?_,
    fun k1 k2 hk1 he => ?_, fun k' hk' x hx hx' => ?_⟩
  · rw [hpool']
    by_cases hk : k' = k
    · rw [hk, hself]
      exact ⟨h.pool f hfp, hnd.1⟩
    · rw [hother hk] at hk' ⊢
      exact ⟨(h.mem k' hk').1, fun hx => (h.mem k' hk').2 (hsub _ hx)⟩
  · by_cases h1 : k1 = k <;> by_cases h2 : k2 = k
    · rw [h1, h2]
    · rw [h1, hself, hother h2] at he
      exact absurd he.symm (hne k2 (he ▸ hf))
    · rw [h2, hself, hother h1] at he
      exact absurd he (hne k1 (he ▸ hf))
    · rw [hother h1] at hk1 he
      rw [hother h2] at he
      exact h.inj k1 k2 hk1 he
  rw [hphys]
  by_cases hk : k' = k
  · rw [hk, hself] at hx hx'
    rw [linkFrame, setEntry_mem, setEntry_apply_of_ne hpt hi (by omega)]
    exact Mem.fill_apply_of_mem hx hx'
  rw [hother hk] at hk' hx hx'
  have hal' := hal _ (h.mem k' hk').1
  have h1 := hne k' hk'
  have h2 := hpts k' hk'
  rw [linkFrame_apply hpt hi hfal (by omega) (by omega)]
  exact h.zero k' hk' x hx hx'

end Slots

/-! ### The invariant of the wiring -/

/-- The page is mapped by an entry of a page table. -/
def Small (m : Mem) (r va : ℕ) : Prop := ∃ e, leaf m r va = some (0, e)

/-- A range of pages in one half of the addresses that ends before the last 2 MB. -/
structure WireRange (a stop : ℕ) : Prop where
  aligned : a % 4096 = 0
  aligned' : stop % 4096 = 0
  lt : a < stop
  le : stop ≤ 2 ^ 64 - 2 ^ 21
  half : stop ≤ 2 ^ 47 ∨ 2 ^ 64 - 2 ^ 47 ≤ a

/-- **The invariant**: the pages of the range below `cur` that were not mapped by a page table have
their frames, and the pages from `cur` on are as they were in `s₀`. -/
structure Wired (s₀ : Phys) (r o a stop cur : ℕ) (w : Wire) : Prop where
  space : Space w.phys r
  slots : Slots s₀.pool o w
  free : ∀ k, w.slot o k ≠ 0 → FreeFrame w.phys.mem r (w.slot o k)
  only : ∀ k, w.slot o k ≠ 0 → a + k * 4096 < cur ∧ ¬ Small s₀.mem r (a + k * 4096)
  wired : ∀ va, a ≤ va → va < cur → va < stop → ¬ Small s₀.mem r va →
    w.slot o ((va - a) / 4096) ≠ 0 ∧
      leaf w.phys.mem r va = some (0, w.slot o ((va - a) / 4096) + 7)
  later : ∀ va, cur ≤ va → va < stop → leaf w.phys.mem r va = leaf s₀.mem r va

section Range

variable {a stop va va' : ℕ}

theorem WireRange.page_eq (h : WireRange a stop) (h1 : a ≤ va) (h2 : va < stop) (h1' : a ≤ va')
    (h2' : va' < stop) (he : pageNo va = pageNo va') : va / 4096 = va' / 4096 := by
  have hle := h.le
  rw [pageNo, pageNo] at he
  rcases h.half with hh | hh <;> omega

theorem WireRange.slot_eq (h : WireRange a stop) (hva : va % 4096 = 0) (h1 : a ≤ va)
    (h2 : va < stop) : add64 (sub64 va a) 0 / 4096 = (va - a) / 4096 ∧
      a + (va - a) / 4096 * 4096 = va := by
  have hle := h.le
  have hal := h.aligned
  rw [add64, sub64]
  omega

theorem WireRange.chunk_eq (h : WireRange a stop) (h1 : a ≤ va) (h2 : va < stop) (h1' : a ≤ va')
    (h2' : va' < stop) (he : ∀ l, 0 < l → l ≤ 3 → idx va l = idx va' l) :
    va / 2 ^ 21 = va' / 2 ^ 21 := by
  have hc := chunk_eq_of_idx he
  have hle := h.le
  rcases h.half with hh | hh <;> omega

end Range

section Steps

variable {s₀ : Phys} {r o a stop cur l t pt va : ℕ} {w : Wire}

theorem Wired.table_ne (h : Wired s₀ r o a stop cur w) (ht : Table w.phys.mem r l t) (k : ℕ)
    (hk : w.slot o k ≠ 0) : t ≠ w.slot o k := by
  intro he
  rw [he] at ht
  exact (h.free k hk).table l ht

theorem Wired.aligned (h : Wired s₀ r o a stop cur w) {f : ℕ} (hf : f ∈ w.phys.pool) :
    f % 4096 = 0 := (h.space.pool f hf).aligned

/-- **A new table** on the walk of `va`. -/
theorem Wired.table (h : Wired s₀ r o a stop cur w) (hP : ∀ f ∈ s₀.pool, f % 4096 = 0)
    (hv : OnWalk w.phys.mem r va (l + 1) t)
    (hok : (wireTable t (idx va (l + 1)) w).ok) :
    Wired s₀ r o a stop cur (wireTable t (idx va (l + 1)) w) ∧
      OnWalk (wireTable t (idx va (l + 1)) w).phys.mem r va (l + 1) t ∧
      isPresent (get (wireTable t (idx va (l + 1)) w).phys.mem t (idx va (l + 1))) := by
  unfold wireTable at hok ⊢
  cases he : ensureTable w.phys t (idx va (l + 1)) with
  | none =>
    rw [he] at hok
    cases hok
  | some s =>
    obtain ⟨hg, hv', hp'⟩ := ensureTable_grown h.space hv he
    refine ⟨?_, hv', hp'⟩
    rcases ensureTable_cases he with ⟨-, rfl⟩ | ⟨hp, f, pool, hpool, rfl⟩
    · exact ⟨h.space, h.slots, h.free, h.only, h.wired, h.later⟩
    have hfp : f ∈ w.phys.pool := head_mem hpool
    have hf := h.space.pool f hfp
    have hne : ∀ k, w.slot o k ≠ 0 → w.slot o k ≠ f := fun k hk hx =>
      (h.slots.mem k hk).2 (hx ▸ hfp)
    have hleaf := fun va => linkFrame_leaf pool h.space.root h.space.tree hv.reach hf hp va
    refine ⟨hg.space, ?_, fun k hk => ?_, h.only, fun va h1 h2 h3 h4 => ?_, fun va h1 h2 => ?_⟩
    · refine h.slots.congr (fun _ => rfl) hg.space.nodup hg.pool (fun k hk x hx => ?_) hP
      refine linkFrame_apply (Table.aligned hv.reach h.space.root) (idx va (l + 1)).2 hf.aligned ?_ ?_
      · rw [hx]
        exact hne k hk
      · rw [hx]
        exact (h.table_ne hv.reach k hk).symm
    · exact .link (linkFrame_writes pool h.space.root hv.reach hf) (linkFrame_self pool hf) hv.reach
        hf (fun j => .inr (linkFrame_entry pool h.space.root hv.reach hf j)) (h.free k hk)
        h.space.tree (hne k hk)
    · obtain ⟨hs, hl⟩ := h.wired va h1 h2 h3 h4
      exact ⟨hs, (hleaf va).trans hl⟩
    · exact (hleaf va).trans (h.later va h1 h2)

theorem idx_of_page {cur : ℕ} (hc : cur % 4096 = 0) (h1 : cur ≤ va) (h2 : va < cur + 4096) {l : ℕ}
    (hl : l ≤ 3) : idx cur l = idx va l :=
  (idx_eq_of_pageNo (pageNo_eq_of_page hc h1 h2) hl).symm

theorem Wired.skip (h : Wired s₀ r o a stop cur w)
    (hs : ∀ va, cur ≤ va → va < cur + 4096 → a ≤ va → va < stop → Small s₀.mem r va) :
    Wired s₀ r o a stop (cur + 4096) w := by
  refine ⟨h.space, h.slots, h.free, fun k hk => ?_, fun va h1 h2 h3 h4 => ?_,
    fun va h1 h2 => h.later va (by omega) h2⟩
  · obtain ⟨hlt, hn⟩ := h.only k hk
    exact ⟨by omega, hn⟩
  · by_cases hva : va < cur
    · exact h.wired va h1 hva h3 h4
    · exact absurd (hs va (by omega) h2 h1 h3) h4

/-- **A page of the range gets its frame.** -/
theorem Wired.page (R : WireRange a stop) (h : Wired s₀ r o a stop cur w)
    (hP : ∀ f ∈ s₀.pool, f % 4096 = 0) (hc : cur % 4096 = 0) (h1 : a ≤ cur) (h2 : cur < stop)
    (hv : OnWalk w.phys.mem r cur 0 pt)
    (hp : isPresent (get w.phys.mem pt (idx cur 0)) = false)
    (hok : (wirePte o a 0 cur pt (idx cur 0) w).ok) :
    Wired s₀ r o a stop (cur + 4096) (wirePte o a 0 cur pt (idx cur 0) w) ∧
      ∀ va, OnWalk w.phys.mem r va 0 pt →
        OnWalk (wirePte o a 0 cur pt (idx cur 0) w).phys.mem r va 0 pt := by
  have hle := R.le
  have hal := R.aligned
  obtain ⟨hk, hcur⟩ := R.slot_eq hc h1 h2
  have h0 : w.slot o ((cur - a) / 4096) = 0 := by
    by_contra hne
    have := (h.only _ hne).1
    omega
  obtain ⟨f, pool, hpool, hf0, hphys, -, hslot⟩ := wirePte_ok (by rw [hk]; exact h0) hok
  rw [hk] at hslot
  generalize wirePte o a 0 cur pt (idx cur 0) w = w' at hphys hslot
  have hfp : f ∈ w.phys.pool := head_mem hpool
  have hf := h.space.pool f hfp
  have hw := linkFrame_writes (i := idx cur 0) pool h.space.root hv.reach hf
  have hon : ∀ va t, OnWalk w.phys.mem r va 0 t → OnWalk w'.phys.mem r va 0 t := fun va t hva => by
    rw [hphys]
    exact (hw.visits_iff h.space.tree hv.reach le_rfl).mpr hva
  have hfree : ∀ x, FreeFrame w.phys.mem r x → FreeFrame w'.phys.mem r x := fun x hx => by
    rw [hphys]
    exact ⟨hx.aligned, hx.low, fun l hl => hx.table l (hl.of_leaf hw h.space.tree hv.reach rfl)⟩
  have hleaf : ∀ va, a ≤ va → va < stop → ¬ (cur ≤ va ∧ va < cur + 4096) →
      leaf w'.phys.mem r va = leaf w.phys.mem r va := fun va h3 h4 hn => by
    rw [hphys]
    refine leaf_writePt h.space.tree hw hv fun he => hn ?_
    have := R.page_eq h3 h4 h1 h2 he
    omega
  have hnone : ∀ va, cur ≤ va → va < cur + 4096 → ¬ Small s₀.mem r va := by
    rintro va h3 h4 ⟨e, he⟩
    have hstop := R.aligned'
    have hva := hv.of_idx fun l' _ hl' => idx_of_page hc h3 h4 hl'
    rw [← h.later va h3 (by omega), leaf_page hva, ← idx_of_page hc h3 h4 (zero_le 3),
      leafEntry_of_absent hp] at he
    cases he
  have hself : w'.slot o ((cur - a) / 4096) = f := (hslot _).trans (if_pos rfl)
  have hother : ∀ {k}, k ≠ (cur - a) / 4096 → w'.slot o k = w.slot o k :=
    fun hk => (hslot _).trans (if_neg hk)
  refine ⟨⟨?_, ?_, fun k hk => ?_, fun k hk => ?_, fun va h3 h4 h5 h6 => ?_, fun va h3 h4 => ?_⟩,
    fun va => hon va pt⟩
  · rw [hphys]
    refine h.space.writePt hv.reach hw (nodup_cons.mp (hpool ▸ h.space.nodup)).2 fun g hg => ?_
    rw [hpool]
    exact .tail _ hg
  · exact h.slots.take hP (Table.aligned hv.reach h.space.root) (idx cur 0).2 hpool hf0
      (fun he => hf.table 0 (he ▸ hv.reach)) (h.table_ne hv.reach) hphys hslot
  · by_cases hk' : k = (cur - a) / 4096
    · rw [hk', hself]
      exact hfree f hf
    · rw [hother hk'] at hk ⊢
      exact hfree _ (h.free k hk)
  · by_cases hk' : k = (cur - a) / 4096
    · rw [hk', hcur]
      exact ⟨by omega, hnone cur le_rfl (by omega)⟩
    · rw [hother hk'] at hk
      obtain ⟨hlt, hn⟩ := h.only k hk
      exact ⟨by omega, hn⟩
  · by_cases hva : va < cur
    · obtain ⟨hs, hl⟩ := h.wired va h3 hva h5 h6
      rw [hother (by omega), hleaf va h3 h5 (by omega)]
      exact ⟨hs, hl⟩
    have hkva : (va - a) / 4096 = (cur - a) / 4096 := by omega
    have hva' := hv.of_idx fun l' _ hl' => idx_of_page hc (Nat.le_of_not_lt hva) h4 hl'
    rw [hkva, hself, leaf_page (hon va pt hva'), ← idx_of_page hc (Nat.le_of_not_lt hva) h4
      (zero_le 3), hphys, linkFrame_self pool hf]
    exact ⟨hf0, leafEntry_of_present
      (isPresent_pointer hf.aligned)⟩
  · rw [hleaf va (by omega) h4 (by omega)]
    exact h.later va (by omega) h4

/-- **The pages of a chunk with a page table.** -/
theorem Wired.pages (R : WireRange a stop) {chunk : ℕ} (h : Wired s₀ r o a stop chunk w)
    (hP : ∀ f ∈ s₀.pool, f % 4096 = 0) (hc : chunk % 2 ^ 21 = 0) (hc' : chunk + 2 ^ 21 ≤ 2 ^ 64)
    (hv : OnWalk w.phys.mem r chunk 0 pt)
    (hok : (wirePt o a 0 a stop chunk pt w).ok) :
    Wired s₀ r o a stop (chunk + 2 ^ 21) (wirePt o a 0 a stop chunk pt w) := by
  rw [wirePt] at hok ⊢
  revert hok
  refine fun hok => (forLoop_induct (fun i (w : Wire) => w.ok →
    Wired s₀ r o a stop (chunk + i * 4096) w ∧ OnWalk w.phys.mem r chunk 0 pt)
    (fun _ => ⟨by simpa using h, hv⟩) ?_ hok).1
  intro i hi w ih hok
  have hi0 := idx_of_piece hc hi
  have hnext : chunk + (i + 1) * 4096 = chunk + i * 4096 + 4096 := by ring
  obtain ⟨hw, he⟩ := ok_of_ite hok
  rw [he, add64_piece hc' hi] at hok ⊢
  rw [hnext]
  obtain ⟨h, hv⟩ := ih hw
  have hv' := hv.of_idx (idx_of_chunk hc (le_add_right chunk (i * 4096)) (by omega))
  have hal := R.aligned
  have hal' := R.aligned'
  by_cases hin : a ≤ chunk + i * 4096 ∧ chunk + i * 4096 < stop
  · by_cases hp : isPresent (entry w.phys.mem pt i) = false
    · rw [if_pos ⟨hin.1, hin.2, hp⟩] at hok ⊢
      rw [hi0] at hp
      have hpage := h.page R hP (by omega) hin.1 hin.2 hv' hp
      rw [← hi0] at hpage
      obtain ⟨h', hon⟩ := hpage hok
      exact ⟨h', hon chunk hv⟩
    rw [if_neg fun hx => hp hx.2.2] at hok ⊢
    refine ⟨h.skip fun va h1 h2 h3 h4 => ?_, hv⟩
    have hva := hv'.of_idx fun l' _ hl' => idx_of_page (by omega) h1 h2 hl'
    refine ⟨get w.phys.mem pt (idx va 0), ?_⟩
    rw [← h.later va h1 h4, leaf_page hva, ← idx_of_page (by omega) h1 h2 (zero_le 3)]
    rw [hi0] at hp
    exact leafEntry_of_present ((not_eq_false _).mp hp)
  · rw [if_neg fun hx => hin ⟨hx.1, hx.2.1⟩]
    exact ⟨h.skip fun va h1 h2 h3 h4 => absurd ⟨by omega, by omega⟩ hin, hv⟩

end Steps

/-! ### A chunk with a 2 MB entry -/

/-- The table in the frame `f` while it is filled, before an entry leads to it: `i` of its entries
are written, and besides it only frames of the pool changed. -/
structure Built (w₀ : Wire) (P pool : List ℕ) (o a stop chunk f i : ℕ) (w : Wire) : Prop where
  slots : Slots P o w
  keep : ∀ x, x / 4096 * 4096 ≠ f → x / 4096 * 4096 ∉ pool → w.phys.mem x = w₀.phys.mem x
  sub : ∀ g ∈ w.phys.pool, g ∈ pool
  fresh : ∀ k, w.slot o k ≠ w₀.slot o k → w.slot o k ∈ pool ∧
    chunk ≤ a + k * 4096 ∧ a + k * 4096 < chunk + i * 4096 ∧ a + k * 4096 < stop
  entries : ∀ j < i, a ≤ chunk + j * 4096 → chunk + j * 4096 < stop →
    w.slot o ((chunk + j * 4096 - a) / 4096) ≠ 0 ∧
      entry w.phys.mem f j = w.slot o ((chunk + j * 4096 - a) / 4096) + 7

section Huge

variable {s₀ : Phys} {r o a stop chunk pd f : ℕ} {w w₀ : Wire} {pool : List ℕ}

variable (h : Wired s₀ r o a stop chunk w₀) (hpool : w₀.phys.pool = f :: pool)

include h hpool

theorem Built.slot_ne {i : ℕ} (hb : Built w₀ s₀.pool pool o a stop chunk f i w) (k : ℕ)
    (hk : w.slot o k ≠ 0) : w.slot o k ≠ f := by
  have hnd := nodup_cons.mp (hpool ▸ h.space.nodup)
  by_cases hs : w.slot o k = w₀.slot o k
  · rw [hs] at hk ⊢
    rintro rfl
    exact (h.slots.mem k hk).2 (head_mem hpool)
  · rintro rfl
    exact hnd.1 (hb.fresh k hs).1

theorem built_zero (hP : ∀ f ∈ s₀.pool, f % 4096 = 0) :
    Built w₀ s₀.pool pool o a stop chunk f 0
      { w₀ with phys := { w₀.phys with pool := pool, mem := w₀.phys.mem.fill f 4096 0 } } := by
  have hfp : f ∈ w₀.phys.pool := head_mem hpool
  have hf := h.aligned hfp
  refine ⟨h.slots.congr (fun _ => rfl) (nodup_cons.mp (hpool ▸ h.space.nodup)).2 (fun g hg => ?_)
    (fun k hk x hx => ?_) hP, fun x hx _ => fill_apply_of_ne hf hx, fun _ hg => hg,
    fun k hk => absurd rfl hk, fun j hj => absurd hj (not_lt_zero j)⟩
  · rw [hpool]
    exact .tail _ hg
  · refine fill_apply_of_ne hf fun he => (h.slots.mem k hk).2 ?_
    rw [← hx, he]
    exact hfp

theorem Built.step {i : ℕ} (hb : Built w₀ s₀.pool pool o a stop chunk f i w) (R : WireRange a stop)
    (hP : ∀ f ∈ s₀.pool, f % 4096 = 0) (hc : chunk % 2 ^ 21 = 0) (hi : i < 512)
    (hok : (if a ≤ chunk + i * 4096 ∧ chunk + i * 4096 < stop then
        wirePte o a 0 (chunk + i * 4096) f i w
      else { w with phys := w.phys.setEntry f i (splitEntry old i) }).ok) :
    Built w₀ s₀.pool pool o a stop chunk f (i + 1)
      (if a ≤ chunk + i * 4096 ∧ chunk + i * 4096 < stop then
        wirePte o a 0 (chunk + i * 4096) f i w
      else { w with phys := w.phys.setEntry f i (splitEntry old i) }) := by
  have hfp : f ∈ w₀.phys.pool := head_mem hpool
  have hf := h.aligned hfp
  have hnd := nodup_cons.mp (hpool ▸ h.space.nodup)
  have hal := R.aligned
  have hle := R.le
  have hnext : chunk + i * 4096 < chunk + (i + 1) * 4096 := by omega
  split at hok
  · next hin =>
    rw [if_pos hin]
    obtain ⟨h1, h2⟩ := hin
    set n := (chunk + i * 4096 - a) / 4096 with hn
    obtain ⟨hk, hcur⟩ := R.slot_eq (by omega) h1 h2
    have h0 : w.slot o n = 0 := by
      by_contra hne
      by_cases hs : w.slot o n = w₀.slot o n
      · rw [hs] at hne
        have := (h.only _ hne).1
        omega
      · have := (hb.fresh _ hs).2.2.1
        omega
    obtain ⟨g, pool', hpool', hg0, hphys, -, hslot⟩ := wirePte_ok (by rw [hk]; exact h0) hok
    rw [hk] at hslot
    generalize wirePte o a 0 (chunk + i * 4096) f i w = w' at hphys hslot
    have hgw : g ∈ w.phys.pool := by rw [hpool']; exact .head _
    have hg := hb.sub g hgw
    have hgal : g % 4096 = 0 := hP g (hb.slots.pool g hgw)
    have hgf : f ≠ g := by
      rintro rfl
      exact hnd.1 hg
    have hself : w'.slot o n = g := (hslot _).trans (if_pos rfl)
    have hother : ∀ {k}, k ≠ n → w'.slot o k = w.slot o k :=
      fun hk => (hslot _).trans (if_neg hk)
    have hlow : g < 2 ^ 52 := (h.space.pool g (by rw [hpool]; exact .tail _ hg)).low
    refine ⟨hb.slots.take hP hf hi hpool' hg0 hgf (fun k hk => (hb.slot_ne h hpool k hk).symm) hphys
      hslot, fun x hx hx' => ?_, fun y hy => ?_, fun k hk => ?_, fun j hj hj1 hj2 => ?_⟩
    · rw [hphys, linkFrame_apply hf hi hgal (fun he => hx' (he ▸ hg)) hx]
      exact hb.keep x hx hx'
    · rw [hphys] at hy
      exact hb.sub y (by rw [hpool']; exact .tail _ hy)
    · by_cases hk' : k = n
      · rw [hk', hself]
        exact ⟨hg, by omega, by omega, by omega⟩
      · rw [hother hk'] at hk ⊢
        obtain ⟨q1, q2, q3, q4⟩ := hb.fresh k hk
        exact ⟨q1, q2, q3.trans hnext, q4⟩
    rw [hphys]
    by_cases hji : j = i
    · rw [hji, hself]
      refine ⟨hg0, ?_⟩
      rw [linkFrame, setEntry_mem, entry_setEntry_self, or_seven hgal]
      exact mod_eq_of_lt (by omega)
    have hne : (chunk + j * 4096 - a) / 4096 ≠ n := by omega
    obtain ⟨q1, q2⟩ := hb.entries j (by omega) hj1 hj2
    rw [hother hne]
    refine ⟨q1, ?_⟩
    rw [← q2, linkFrame, setEntry_mem, entry_setEntry_of_ne hf hf hi (by omega) (.inr hji)]
    exact entry_congr hf (by omega) fun x hx => fill_apply_of_ne hgal (by rw [hx]; exact hgf)
  · next hin =>
    rw [if_neg hin]
    refine ⟨hb.slots.congr (fun _ => rfl) hb.slots.nodup (fun _ hg => hg) (fun k hk x hx => ?_) hP,
      fun x hx hx' => ?_, hb.sub, fun k hk => ?_, fun j hj hj1 hj2 => ?_⟩
    · exact setEntry_apply_of_ne hf hi (by rw [hx]; exact hb.slot_ne h hpool k hk)
    · rw [← hb.keep x hx hx']
      exact setEntry_apply_of_ne hf hi hx
    · obtain ⟨q1, q2, q3, q4⟩ := hb.fresh k hk
      exact ⟨q1, q2, q3.trans hnext, q4⟩
    · have hji : j ≠ i := by
        rintro rfl
        exact hin ⟨hj1, hj2⟩
      obtain ⟨q1, q2⟩ := hb.entries j (by omega) hj1 hj2
      refine ⟨q1, Eq.trans ?_ q2⟩
      exact entry_setEntry_of_ne hf hf hi (by omega) (.inr hji)

theorem built_wireSplit (R : WireRange a stop) (hP : ∀ f ∈ s₀.pool, f % 4096 = 0)
    (hc : chunk % 2 ^ 21 = 0) (hc' : chunk + 2 ^ 21 ≤ 2 ^ 64)
    (hb : Built w₀ s₀.pool pool o a stop chunk f 0 w) (hok : (wireSplit o a 0 a stop chunk old f w).ok) :
    Built w₀ s₀.pool pool o a stop chunk f 512 (wireSplit o a 0 a stop chunk old f w) := by
  rw [wireSplit] at hok ⊢
  refine forLoop_induct (fun i (w : Wire) => w.ok →
    Built w₀ s₀.pool pool o a stop chunk f i w) (fun _ => hb) ?_ hok
  intro i hi w ih hok
  obtain ⟨hw, he⟩ := ok_of_ite hok
  rw [he, add64_piece hc' hi] at hok ⊢
  exact (ih hw).step h hpool R hP hc hi hok

theorem Built.writes {i : ℕ} (hb : Built w₀ s₀.pool pool o a stop chunk f i w)
    (hpd : Table w₀.phys.mem r 1 pd) (j : Fin 512) (e : ℕ) :
    Radix.Writes child (get w₀.phys.mem) (get (w.phys.setEntry pd j e).mem) 3 r pd j := by
  refine writes_of_entries h.space.root fun t' j' ht' ⟨l, htab⟩ hne => ?_
  have hpool' : ∀ g ∈ f :: pool, t' ≠ g := by
    rintro g hg rfl
    exact (h.space.pool t' (by rw [hpool]; exact hg)).table l htab
  rw [setEntry_mem, entry_setEntry_of_ne (Table.aligned hpd h.space.root) ht' j.2 j'.2
    (hne.imp_right fun hx hx' => hx (Fin.ext hx'))]
  refine entry_congr ht' j'.2 fun x hx => hb.keep x ?_ ?_
  · rw [hx]
    exact hpool' f (.head _)
  · rw [hx]
    exact fun hm => hpool' t' (.tail _ hm) rfl

/-- **The pages of a chunk with a 2 MB entry**, when the table that was built takes its place. -/
theorem Built.link (R : WireRange a stop) (hb : Built w₀ s₀.pool pool o a stop chunk f 512 w)
    (hP : ∀ f ∈ s₀.pool, f % 4096 = 0) (hc : chunk % 2 ^ 21 = 0)
    (hmeet : ∃ va, a ≤ va ∧ va < stop ∧ chunk ≤ va ∧ va < chunk + 2 ^ 21)
    (hv : OnWalk w₀.phys.mem r chunk 1 pd)
    (hp : isPresent (get w₀.phys.mem pd (idx chunk 1)))
    (hh : isHuge (get w₀.phys.mem pd (idx chunk 1))) :
    Wired s₀ r o a stop (chunk + 2 ^ 21)
      { w with phys := w.phys.setEntry pd (idx chunk 1) (f ||| 0x07) } := by
  set s := w.phys.setEntry pd (idx chunk 1) (f ||| 0x07) with hs
  have hfp : f ∈ w₀.phys.pool := head_mem hpool
  have hf := h.space.pool f hfp
  have hlow := hf.low
  have hnd := nodup_cons.mp (hpool ▸ h.space.nodup)
  have hw := hb.writes h hpool hv.reach (idx chunk 1) (f ||| 0x07)
  have hself : get s.mem pd (idx chunk 1) = f + 7 := by
    rw [Paging.get, hs, setEntry_mem, entry_setEntry_self, or_seven hf.aligned]
    exact mod_eq_of_lt (by omega)
  have hpdf : f ≠ pd := fun he => hf.table 1 (he ▸ hv.reach)
  have hentry : ∀ j : Fin 512, get s.mem f j = entry w.phys.mem f j := fun j =>
    entry_setEntry_of_ne (Table.aligned hv.reach h.space.root) hf.aligned (idx chunk 1).2 j.2
      (.inl hpdf)
  -- the slots are no tables and not the new one
  have hfree : ∀ k, w.slot o k ≠ 0 → FreeFrame w₀.phys.mem r (w.slot o k) := by
    intro k hk
    by_cases hs : w.slot o k = w₀.slot o k
    · rw [hs] at hk ⊢
      exact h.free k hk
    · exact h.space.pool _ (by rw [hpool]; exact .tail _ (hb.fresh k hs).1)
  -- the addresses of the range through the entry are those of the chunk
  have hthrough : ∀ va, a ≤ va → va < stop → OnWalk w₀.phys.mem r va 1 pd →
      idx va 1 = idx chunk 1 → chunk ≤ va ∧ va < chunk + 2 ^ 21 := by
    intro va h1 h2 hva hi
    obtain ⟨va', h1', h2', h3', h4'⟩ := hmeet
    have he := R.chunk_eq h1 h2 h1' h2' fun l hl hl' => ?_
    · omega
    rw [← idx_of_chunk hc h3' h4' _ hl hl']
    rcases lt_or_eq_of_le (succ_le_of_lt hl) with hlt | rfl
    · exact h.space.tree.key_eq hva hv hlt hl'
    · exact hi
  have hleaf : ∀ va, a ≤ va → va < stop → ¬ (chunk ≤ va ∧ va < chunk + 2 ^ 21) →
      leaf s.mem r va = leaf w₀.phys.mem r va := fun va h1 h2 hn => leaf_write hw h.space.tree hv.reach fun hva hi =>
      absurd (hthrough va h1 h2 hva hi) hn
  have hbig : ∀ va, chunk ≤ va → va < chunk + 2 ^ 21 → va < stop → ¬ Small s₀.mem r va := by
    rintro va h1 h2 h3 ⟨e, he⟩
    have hva := hv.of_idx fun l hl hl' => idx_of_chunk hc h1 h2 l (by omega) hl'
    have hi := idx_of_chunk hc h1 h2 1 (by simp) (by simp)
    rw [← h.later va h1 h3, leaf_huge hva (hi ▸ hp) (hi ▸ hh)] at he
    exact absurd (Prod.mk.inj (Option.some.inj he)).1 (by simp)
  have hnew : ∀ j : Fin 512, 0 = 0 ∨ get s.mem f j = 0 := fun _ => .inl rfl
  refine ⟨h.space.link hw hself hv.reach hf hnew hb.slots.nodup fun g hg => ⟨?_, ?_⟩, ?_,
    fun k hk => .link hw hself hv.reach hf hnew (hfree k hk) h.space.tree (hb.slot_ne h hpool k hk),
    fun k hk => ?_, fun va h1 h2 h3 h4 => ?_, fun va h1 h2 => ?_⟩
  · rw [hpool]
    exact .tail _ (hb.sub g hg)
  · rintro rfl
    exact hnd.1 (hb.sub g hg)
  · refine hb.slots.congr (fun _ => rfl) hb.slots.nodup (fun _ hg => hg) (fun k hk x hx => ?_) hP
    refine setEntry_apply_of_ne (Table.aligned hv.reach h.space.root) (idx chunk 1).2 ?_
    rw [hx]
    rintro rfl
    exact (hfree k hk).table 1 hv.reach
  · change w.slot o k ≠ 0 at hk
    by_cases hs : w.slot o k = w₀.slot o k
    · rw [hs] at hk
      obtain ⟨hlt, hn⟩ := h.only k hk
      exact ⟨by omega, hn⟩
    · obtain ⟨-, q2, q3, q4⟩ := hb.fresh k hs
      exact ⟨by omega, hbig _ q2 (by omega) q4⟩
  · change w.slot o ((va - a) / 4096) ≠ 0 ∧ _ = some (0, w.slot o ((va - a) / 4096) + 7)
    have hal := R.aligned
    by_cases hva : va < chunk
    · have hs : w.slot o ((va - a) / 4096) = w₀.slot o ((va - a) / 4096) := by
        by_contra hs
        have := (hb.fresh _ hs).2.1
        omega
      rw [hs, hleaf va h1 h3 (by omega)]
      exact h.wired va h1 hva h3 h4
    have hva' : chunk ≤ va := Nat.le_of_not_lt hva
    have hj : (idx va 0 : ℕ) = (va - chunk) / 4096 := by
      change va / 2 ^ 12 % 512 = _
      omega
    obtain ⟨q1, q2⟩ := hb.entries (idx va 0) (idx va 0).2 (by omega) (by omega)
    have hk : (chunk + (idx va 0 : ℕ) * 4096 - a) / 4096 = (va - a) / 4096 := by omega
    rw [hk] at q1 q2
    have hv1 := (hw.visits_iff h.space.tree hv.reach le_rfl).mpr
      (hv.of_idx fun l hl hl' => idx_of_chunk hc hva' h2 l (by omega) hl')
    have hi := idx_of_chunk hc hva' h2 1 (by simp) (by simp)
    have hc0 : child 1 (get s.mem pd (idx va 1)) = some f := by
      rw [← hi, hself, child_pointer hf.aligned hf.low]
    refine ⟨q1, ?_⟩
    rw [leaf_page (.down hv1 hc0), hentry, q2]
    exact leafEntry_of_present
      (isPresent_pointer (hfree _ q1).aligned)
  · rw [← h.later va (by omega) h2]
    exact hleaf va (by omega) h2 (by omega)

end Huge

/-! ### Chunks -/

section Chunks

variable {s₀ : Phys} {r o a stop chunk pd : ℕ} {w : Wire}

theorem Wired.table_small (h : Wired s₀ r o a stop chunk w) {t : ℕ} (i : Fin 512)
    (hok : (wireTable t i w).ok) (hh : isHuge (get w.phys.mem t i) = false) :
    isHuge (get (wireTable t i w).phys.mem t i) = false := by
  unfold wireTable at hok ⊢
  cases he : ensureTable w.phys t i with
  | none =>
    rw [he] at hok
    cases hok
  | some s => exact ensureTable_small h.space he hh

section

variable (R : WireRange a stop) (h : Wired s₀ r o a stop chunk w)
  (hP : ∀ f ∈ s₀.pool, f % 4096 = 0) (hc : chunk % 2 ^ 21 = 0) (hc' : chunk + 2 ^ 21 ≤ 2 ^ 64)
  (hmeet : ∃ va, a ≤ va ∧ va < stop ∧ chunk ≤ va ∧ va < chunk + 2 ^ 21)

include R h hP hc hc' hmeet

theorem Wired.hugeChunk (hv : OnWalk w.phys.mem r chunk 1 pd)
    (hp : isPresent (get w.phys.mem pd (idx chunk 1)))
    (hh : isHuge (get w.phys.mem pd (idx chunk 1)))
    (hok : (wireHuge o a 0 a stop chunk pd old w).ok) :
    Wired s₀ r o a stop (chunk + 2 ^ 21) (wireHuge o a 0 a stop chunk pd old w) := by
  unfold wireHuge Phys.zeroFrame at hok ⊢
  cases hpool : w.phys.pool with
  | nil =>
    rw [hpool] at hok
    cases hok
  | cons f pool =>
    rw [hpool] at hok
    dsimp only at hok ⊢
    have hb := built_zero h hpool hP
    obtain ⟨hx, he⟩ := ok_of_ite hok
    rw [he]
    exact (built_wireSplit h hpool R hP hc hc' hb hx).link h hpool R hP hc hmeet hv hp hh

theorem Wired.pde (hv : OnWalk w.phys.mem r chunk 1 pd)
    (hok : (wirePde o a 0 a stop chunk pd w).ok) :
    Wired s₀ r o a stop (chunk + 2 ^ 21) (wirePde o a 0 a stop chunk pd w) := by
  have hget : entry w.phys.mem pd (pdIdx chunk) = get w.phys.mem pd (idx chunk 1) := rfl
  unfold wirePde at hok ⊢
  dsimp only at hok ⊢
  rw [hget] at hok ⊢
  split at hok
  · next hold =>
    rw [if_pos hold]
    obtain ⟨hp, hh⟩ := and_eq_true_iff.mp hold
    exact h.hugeChunk R hP hc hc' hmeet hv hp hh hok
  next hold =>
  rw [if_neg hold]
  have hsmall : isHuge (get w.phys.mem pd (idx chunk 1)) = false := by
    by_contra hh
    have hh := (not_eq_false _).mp hh
    exact hold (and_eq_true_iff.mpr ⟨h.space.huge hv.reach hh, hh⟩)
  obtain ⟨hx, he⟩ := ok_of_ite hok
  rw [he] at hok ⊢
  obtain ⟨h1, hv1, hp1⟩ := h.table hP hv hx
  have hv0 := h1.space.next hv1 hp1 fun _ => h.table_small (idx chunk 1) hx hsmall
  exact h1.pages R hP hc hc' hv0 hok

/-- **A chunk is wired.** -/
theorem Wired.wireChunk (hok : (wireChunk o r a 0 a stop chunk w).ok) :
    Wired s₀ r o a stop (chunk + 2 ^ 21) (wireChunk o r a 0 a stop chunk w) := by
  unfold Vm.wireChunk at hok ⊢
  dsimp only at hok ⊢
  obtain ⟨hx, he⟩ := ok_of_ite hok
  rw [he] at hok ⊢
  obtain ⟨h3, hv3, hp3⟩ := h.table hP .root hx
  have hv2 := h3.space.next hv3 hp3 fun hl => absurd hl (lt_irrefl 2)
  obtain ⟨hx, he⟩ := ok_of_ite hok
  rw [he] at hok ⊢
  obtain ⟨h2, hv2', hp2⟩ := h3.table hP hv2 hx
  have hv1 := h2.space.next hv2' hp2 fun _ => h2.space.giga hv2'.reach hp2
  exact h2.pde R hP hc hc' hmeet hv1 hok

end

/-- **All chunks of a range are wired.** -/
theorem wireChunks_wired (R : WireRange a stop) (hs : Space s₀ r) (hphys : w.phys = s₀)
    (h0 : ∀ k, w.slot o k = 0) (hok : (wireChunks o r a 0 a stop w).ok) :
    ∃ cur, stop ≤ cur ∧ Wired s₀ r o a stop cur (wireChunks o r a 0 a stop w) := by
  have hP : ∀ f ∈ s₀.pool, f % 4096 = 0 := fun f hf => (hs.pool f hf).aligned
  have hle := R.le
  have hlt := R.lt
  have hup : hugeUp stop = (stop + 0x1FFFFF) / 2 ^ 21 * 2 ^ 21 := by
    rw [hugeUp, hugeDown, add64, mod_eq_of_lt (by omega)]
  have hdown : hugeDown a = a / 2 ^ 21 * 2 ^ 21 := rfl
  have hinit : Wired s₀ r o a stop (hugeDown a) w := by
    have hz : ∀ {k}, w.slot o k ≠ 0 → False := fun hk => hk (h0 _)
    rw [← hphys] at hs ⊢
    refine ⟨hs, ⟨hs.nodup, fun _ hf => hf, fun k hk => (hz hk).elim, fun k _ hk => (hz hk).elim,
      fun k hk => (hz hk).elim⟩, fun k hk => (hz hk).elim, fun k hk => (hz hk).elim,
      fun va h1 h2 => absurd h2 (by omega), fun va _ _ => rfl⟩
  rw [wireChunks] at hok ⊢
  refine ⟨hugeDown a + (hugeUp stop - hugeDown a) / 0x200000 * 0x200000, by omega, ?_⟩
  refine forLoop_induct (fun j (w : Wire) => w.ok →
    Wired s₀ r o a stop (hugeDown a + j * 0x200000) w) (fun _ => by simpa using hinit) ?_ hok
  intro j hj w ih hok
  obtain ⟨hw, he⟩ := ok_of_ite hok
  rw [he] at hok ⊢
  have hnext : hugeDown a + (j + 1) * 0x200000 = hugeDown a + j * 0x200000 + 2 ^ 21 := by ring
  rw [hnext]
  refine (ih hw).wireChunk R hP (by omega) (by omega) ?_ hok
  refine ⟨max a (hugeDown a + j * 0x200000), le_max_left _ _, ?_, le_max_right _ _, ?_⟩
  · exact max_lt hlt (by omega)
  · exact max_lt (by omega) (by omega)

theorem wireChunks_late (h : 2 ^ 64 - 2 ^ 21 < stop) (h' : stop < 2 ^ 64) :
    wireChunks o r a 0 a stop w = w := by
  have hup : hugeUp stop = 0 := by
    rw [hugeUp, hugeDown, add64]
    omega
  rw [wireChunks, hup, Nat.zero_sub, Nat.zero_div]
  exact forLoop_fixed fun i hi => absurd hi (not_lt_zero i)

end Chunks

/-! ### Anonymous mappings -/

/-- **What an anonymous mapping should give**: every byte of the range is in a frame of the
object and reads as zero, and different pages have different frames. -/
structure Backed (v : Map) (s : Phys) (r o a size : ℕ) : Prop where
  page : ∀ k < size, Canonical (add64 a k) ∧ (v.object o).pages (k / 4096) ≠ 0 ∧
    (translate s.mem r (add64 a k)).map Prod.fst =
      some ((v.object o).pages (k / 4096) + k % 4096) ∧
    s.mem ((v.object o).pages (k / 4096) + k % 4096) = 0
  distinct : ∀ k < size, ∀ k' < size, k / 4096 ≠ k' / 4096 →
    (v.object o).pages (k / 4096) ≠ (v.object o).pages (k' / 4096)

/-- **The condition**: the range ends before the last 2 MB, its addresses are canonical, and no page
of it is mapped by a page table. -/
def Unmapped (s : Phys) (r a size : ℕ) : Prop :=
  a + size ≤ 2 ^ 64 - 2 ^ 21 ∧ ∀ va, a ≤ va → va < a + size → Canonical va ∧
    ∀ t, OnWalk s.mem r va 0 t → isPresent (get s.mem t (idx va 0)) = false

section Main

variable {s : Phys} {v : Map} {r o a size : ℕ} {w : Wire}

theorem small_iff {m : Mem} {r va : ℕ} :
    Small m r va ↔ ∃ t, OnWalk m r va 0 t ∧ isPresent (get m t (idx va 0)) := by
  constructor
  · rintro ⟨e, he⟩
    obtain ⟨t, hv, rfl, hp, -⟩ := exists_of_leaf he
    exact ⟨t, hv, hp⟩
  · rintro ⟨t, hv, hp⟩
    exact ⟨_, (leaf_page hv).trans (leafEntry_of_present hp)⟩

theorem not_backed_of_empty (hpos : size ≠ 0) (h0 : (v.object o).pages 0 = 0) :
    ¬ Backed v s r o a size :=
  fun h => (h.page 0 (pos_of_ne_zero hpos)).2.1 h0

theorem wireRange_of_canonical (ha : a % 4096 = 0) (hs : size % 4096 = 0) (hpos : size ≠ 0)
    (hle : a + size ≤ 2 ^ 64 - 2 ^ 21)
    (hcan : ∀ va, a ≤ va → va < a + size → Canonical va) : WireRange a (a + size) := by
  refine ⟨ha, by omega, by omega, hle, ?_⟩
  by_contra hh
  rcases hcan a le_rfl (by omega) with h | ⟨h, -⟩
  · rcases hcan (2 ^ 47) (by omega) (by omega) with h' | ⟨h', -⟩
    · omega
    · omega
  · omega

theorem Wired.backed_iff {cur : ℕ} (R : WireRange a (a + size))
    (hcan : ∀ va, a ≤ va → va < a + size → Canonical va)
    (h : Wired s r o a (a + size) cur w) (hcur : a + size ≤ cur) :
    Backed w.map w.phys r o a size ↔ ∀ va, a ≤ va → va < a + size → ¬ Small s.mem r va := by
  have hle := R.le
  have hal := R.aligned
  have hadd : ∀ k < size, add64 a k = a + k := fun k hk => mod_eq_of_lt (by omega)
  constructor
  · intro hb va h1 h2 ⟨e, he⟩
    have hslot := (hb.page (va - a) (by omega)).2.1
    -- the slot of a page that was there is empty
    refine (h.only _ hslot).2 ⟨e, ?_⟩
    have hp : pageNo va = pageNo (a + (va - a) / 4096 * 4096) :=
      pageNo_eq_of_page (by omega) (by omega) (by omega)
    obtain ⟨t, hv, rfl, hpr, -⟩ := exists_of_leaf he
    have hv' := hv.of_idx fun l' _ hl' => idx_eq_of_pageNo hp hl'
    rw [leaf_page hv', ← idx_eq_of_pageNo hp (zero_le 3), leafEntry_of_present hpr]
  intro hn
  refine ⟨fun k hk => ?_, fun k hk k' hk' hne he => ?_⟩
  · have h1 := hn (a + k) (by omega) (by omega)
    obtain ⟨hs, hl⟩ := h.wired (a + k) (by omega) (by omega) (by omega) h1
    rw [Nat.add_sub_cancel_left] at hs hl
    have hf := h.free _ hs
    have hfr := frameOf_pointer hf.aligned hf.low
    have hfst := translate_fst_page hl
    have hmod : (a + k) % 2 ^ 12 = k % 4096 := by omega
    rw [hfr, hmod] at hfst
    rw [hadd k hk]
    refine ⟨hcan _ (by omega) (by omega), hs, hfst, h.slots.zero _ hs _ (le_add_right _ _) ?_⟩
    have := mod_lt k (show 0 < 4096 by simp)
    exact Nat.add_lt_add_left this _
  · have h1 := hn (a + k) (by omega) (by omega)
    obtain ⟨hs, -⟩ := h.wired (a + k) (by omega) (by omega) (by omega) h1
    rw [Nat.add_sub_cancel_left] at hs
    exact hne (h.slots.inj _ _ hs he)

theorem pages_of_place {v1 : Map} {p n stop : ℕ}
    (h : LinksOnly (fillEntry (vmObjectCreate v o n) p o 0 a stop prot flags) v1) (k : ℕ) :
    (v1.object o).pages k = 0 := by
  rw [h.object]
  simp only [fillEntry, vmObjectShare, vmObjectCreate, Map.setEntry, Map.setObject]
  split
  · simp
  · simp

/-- `vm_map_wire` of an entry with its object, over its whole range. -/
theorem wireEntry_whole {obj : Option ℕ} {p stop : ℕ} (hs : (w.map.entry p).start = a)
    (ht : (w.map.entry p).stop = stop) (ho : (w.map.entry p).object = o) (h0 : o ≠ 0)
    (hoff : (w.map.entry p).offset = 0) :
    wireEntry obj r p a stop w = wireChunks o r a 0 a stop w := by
  simp [wireEntry, hs, ht, ho, h0, hoff]

/-- **What a successful anonymous `vm_mmap` has done**: one entry over the range was added for the
new object, and that entry was wired unless its end wraps. -/
theorem mmap_wired {l : List ℕ} {objs : ℕ → Option ℕ} {e : Option ℕ} {addr : ℕ} (hl : Listed v l)
    (he : Fresh v e) (h0 : o ≠ 0) (hanon : flags &&& mapAnon ≠ 0) (haddr : addr < 2 ^ 64)
    (hok : (vmMmapPhys objs r s v (some o) e addr size prot flags).1 = 0) :
    ∃ a w, target v addr (pageUp size) flags = some a ∧ a % 4096 = 0 ∧ a < 2 ^ 64 ∧
      pageUp size ≠ 0 ∧ w.phys = s ∧ (∀ k, w.slot o k = 0) ∧
      ∃ w', w'.ok ∧
        w' = (if a < add64 a (pageUp size) then wireChunks o r a 0 a (add64 a (pageUp size)) w
          else w) ∧
        (vmMmapPhys objs r s v (some o) e addr size prot flags).2 = (a, w'.map, w'.phys) := by
  have hneg : (-1 : ℤ) ≠ 0 := by decide
  unfold vmMmapPhys at hok ⊢
  dsimp only at hok ⊢
  split at hok
  · exact absurd hok hneg
  next hsize =>
  have hsome : ¬ (flags &&& mapAnon ≠ 0 ∧ some o = none) := fun h => nomatch h.2
  rw [if_neg hsome] at hok
  rw [if_neg hsize, if_neg hsome]
  rw [anonObject_of_anon hanon] at hok ⊢
  dsimp only at hok ⊢
  split at hok
  · exact absurd hok hneg
  next hplace =>
  rw [if_neg hplace]
  split at hok
  · exact absurd hok hneg
  next hwire =>
  rw [if_neg hwire]
  set v' := vmObjectCreate v o (pageUp size)
  have hobjs : ObjectsOnly v v' := objectsOnly_setObject v o _
  have hso : SameList v v' := hobjs.sameList
  obtain ⟨a, ha, hal, p, hp, hno, hlist, hlinks⟩ := place_spec (hso.listed hl) e
    ((he.same hso).not_mem (hso.listed hl)) o addr (pageUp size) prot flags hplace
  have halt : (place v' e o addr (pageUp size) prot flags).2.1 < 2 ^ 64 := place_lt haddr
  obtain ⟨-, htgt, -⟩ | ⟨-, hbad, -⟩ := place_cases v' e o addr prot flags hsize (pageUp_pageUp size)
  swap
  · exact absurd hplace (by rw [hbad]; decide)
  rw [target_congr hobjs] at htgt
  rw [pageUp_pageUp] at hno hlinks
  rw [ha] at hwire halt htgt ⊢
  generalize (place v' e o addr (pageUp size) prot flags).2.2 = v1 at hwire hlist hlinks ⊢
  obtain ⟨q1, q2, q3, q4, -⟩ := entry_of_place hlinks
  refine ⟨a, ⟨true, v1, s⟩, htgt, hal, halt, hsize, rfl, pages_of_place hlinks,
    wireFrom objs r a (add64 a (pageUp size)) v1.nentries v1.head ⟨true, v1, s⟩, ?_, ?_, rfl⟩
  · by_contra hfail
    refine hwire ?_
    rw [vmMapWire]
    dsimp only
    rw [if_neg hfail]
    decide
  · rw [wireFrom_place (he.not_mem hl p hp).2 hno hlist hlinks, wireEntry_whole q1 q2 q3 h0 q4]

/-- **When an anonymous mapping gives what it should**: a `vm_mmap` that succeeds returns the address
`target` finds and backs the range there with zeroed frames of the new object if and only if the range
was `Unmapped`. -/
theorem mmap_backed_iff {l : List ℕ} {objs : ℕ → Option ℕ} {e : Option ℕ} {addr prot flags : ℕ}
    (hl : Listed v l) (hs : Space s r) (he : Fresh v e) (h0 : o ≠ 0)
    (hanon : flags &&& mapAnon ≠ 0) (haddr : addr < 2 ^ 64)
    (hok : (vmMmapPhys objs r s v (some o) e addr size prot flags).1 = 0) :
    ∃ a, target v addr (pageUp size) flags = some a ∧
      (vmMmapPhys objs r s v (some o) e addr size prot flags).2.1 = a ∧
      (Backed (vmMmapPhys objs r s v (some o) e addr size prot flags).2.2.1
        (vmMmapPhys objs r s v (some o) e addr size prot flags).2.2.2 r o a (pageUp size) ↔
      Unmapped s r a (pageUp size)) := by
  obtain ⟨a, w, htgt, hal, halt, hpos, hphys, hslot, w', hw', heq, hres⟩ :=
    mmap_wired hl he h0 hanon haddr hok
  refine ⟨a, htgt, by rw [hres], ?_⟩
  rw [hres]
  dsimp only
  clear hok hres htgt
  have hsize := pageUp_mod size
  have hsize' := pageUp_lt size
  generalize pageUp size = n at *
  have hempty : w' = w → ¬ Backed w'.map w'.phys r o a n := by
    rintro rfl
    exact not_backed_of_empty hpos (hslot 0)
  by_cases hlate : a + n ≤ 2 ^ 64 - 2 ^ 21
  · have hadd : add64 a n = a + n := mod_eq_of_lt (by omega)
    rw [hadd, if_pos (by omega)] at heq
    by_cases hcan : ∀ va, a ≤ va → va < a + n → Canonical va
    · have R := wireRange_of_canonical hal hsize hpos hlate hcan
      subst heq
      obtain ⟨cur, hcur, hwired⟩ := wireChunks_wired R hs hphys hslot hw'
      refine (hwired.backed_iff R hcan hcur).trans ?_
      constructor
      · intro hn
        refine ⟨hlate, fun va h1 h2 => ⟨hcan va h1 h2, fun t hv => ?_⟩⟩
        by_contra hp
        exact hn va h1 h2 (small_iff.mpr ⟨t, hv, (not_eq_false _).mp hp⟩)
      · intro hu va h1 h2 hsm
        obtain ⟨t, hv, hp⟩ := small_iff.mp hsm
        cases ((hu.2 va h1 h2).2 t hv).symm.trans hp
    · refine ⟨fun hb => absurd (fun va h1 h2 => ?_) hcan, fun hu => absurd
        (fun va h1 h2 => (hu.2 va h1 h2).1) hcan⟩
      have hc := (hb.page (va - a) (by omega)).1
      have hva : add64 a (va - a) = va := by
        rw [add64]
        omega
      rwa [hva] at hc
  · refine ⟨fun hb => absurd hb (hempty ?_), fun hu => absurd hu.1 hlate⟩
    rw [heq]
    by_cases hwrap : a + n < 2 ^ 64
    · have hadd : add64 a n = a + n := mod_eq_of_lt hwrap
      have hlt : a < a + n := by omega
      rw [hadd, if_pos hlt]
      exact wireChunks_late (by omega) hwrap
    · have hnlt : ¬ a < add64 a n := by
        rw [add64]
        omega
      rw [if_neg hnlt]

end Main

/-! ### Two mappings in a small tree -/

/-- A map of a process without entries. -/
def emptyMap : Map := vmMapInit blankMap 0x10000 0x7FFFF000

theorem emptyMap_listed : Listed emptyMap [] := ⟨rfl, rfl⟩

theorem emptyMap_fresh : Fresh emptyMap (some 1) := by
  intro p hp
  have hp : 1 = p := by simpa using hp
  refine ⟨by omega, fun l hl => ?_⟩
  rw [(hl.chain.eq_zero_iff).mp rfl]
  simp

/-- An anonymous `vm_mmap` of one page at a fixed address. -/
def mmapPage (addr : ℕ) : ℤ × ℕ × Map × Phys :=
  vmMmapPhys (fun _ => none) 0x1000 ⟨smallTree, [0x6000, 0x7000, 0x8000], false⟩ emptyMap (some 1)
    (some 1) addr 0x1000 3 (mapAnon + mapFixed)

theorem smallTree_unmapped :
    Unmapped ⟨smallTree, [0x6000, 0x7000, 0x8000], false⟩ 0x1000 0x400000 0x1000 := by
  refine ⟨by simp, fun va h1 h2 => ⟨.inl (by omega), fun t hv => ?_⟩⟩
  cases hv with
  | down hv1 hc =>
    have hi : idx va 1 = 2 := Fin.ext (show va / 2 ^ 21 % 512 = 2 by omega)
    rw [hv1.unique (smallTree_onWalk (by omega)), hi] at hc
    have hnone : child 1 (get smallTree 0x3000 2) = none := by decide +kernel
    cases hnone.symm.trans hc

theorem mmap_backed_iff_smallTree :
    Backed (mmapPage 0x400000).2.2.1 (mmapPage 0x400000).2.2.2 0x1000 1 0x400000 0x1000 := by
  have hspace : Space ⟨smallTree, [0x6000, 0x7000, 0x8000], false⟩ 0x1000 :=
    smallTree_space (by decide) (by decide)
  have htgt : target emptyMap 0x400000 (pageUp 0x1000) (mapAnon + mapFixed) = some 0x400000 := by
    decide
  have hok : (mmapPage 0x400000).1 = 0 := by decide +kernel
  obtain ⟨a, ha, -, h⟩ := mmap_backed_iff emptyMap_listed hspace emptyMap_fresh one_ne_zero
    (by decide) (by simp) hok
  cases htgt.symm.trans ha
  exact h.mpr smallTree_unmapped

/-- **A page that is mapped already is not backed**: `vm_mmap` returns 0 for the page at
`0x200000`, which stays on its old frame. -/
theorem mmap_leaves_old_frame :
    (mmapPage 0x200000).1 = 0 ∧ (mmapPage 0x200000).2.1 = 0x200000 ∧
    (translate (mmapPage 0x200000).2.2.2.mem 0x1000 0x200000).map Prod.fst = some 0x5000 ∧
    ((mmapPage 0x200000).2.2.1.object 1).pages 0 = 0 ∧
    ¬ Backed (mmapPage 0x200000).2.2.1 (mmapPage 0x200000).2.2.2 0x1000 1 0x200000 0x1000 := by
  have h0 : ((mmapPage 0x200000).2.2.1.object 1).pages 0 = 0 := by decide +kernel
  exact ⟨by decide +kernel, by decide +kernel, by decide +kernel, h0,
    not_backed_of_empty (by simp) h0⟩

end TipOS.Vm
