import Mathlib.Data.List.Range
import TipOS.Lib.Bytes
import TipOS.Lib.Query

/-!
# Reading files of an ext2 volume

`fs/ext2_new.zig`: the block cache, the inodes, the tables of blocks, the search of a path and
`readFileAt`.  All of it reads the disk through `cacheGet`, so the functions above the cache are
programs that ask for blocks.  As long as the blocks in the cache that have not been changed are
those on the disk (`Coherent`), the cache does not matter (`cacheGet_faithful`), also when blocks
are changed and flushed (`cache_transparent`), and `readFileAt` returns a piece of what the driver
takes for the contents of the file (`eval_readFileAt`).
-/

namespace TipOS.Fs

open Function Lib List Query Nat

def blockSize : ℕ := 1024
def cacheSlots : ℕ := 64
def ptrsPerBlock : ℕ := 256

/-! ### The block cache -/

structure CacheSlot where
  blockNum : ℕ
  data : Mem
  dirty : Bool
  valid : Bool

/-- The cache and the disk. -/
structure BlockCache where
  cache : ℕ → CacheSlot
  cacheNext : ℕ
  /-- The blocks on the disk. -/
  disk : ℕ → Mem

namespace BlockCache

/-- The slot of a block. -/
def slotOf (s : BlockCache) (block : ℕ) : Option ℕ :=
  (List.range cacheSlots).find? fun i => (s.cache i).valid && (s.cache i).blockNum == block

def flushOne (s : BlockCache) (i : ℕ) : BlockCache :=
  if (s.cache i).valid = true ∧ (s.cache i).dirty = true then
    { s with
      disk := update s.disk (s.cache i).blockNum (s.cache i).data
      cache := update s.cache i { s.cache i with dirty := false } }
  else s

/-- A block is read into a slot. -/
def fill (s : BlockCache) (i block : ℕ) : BlockCache :=
  { s with cache := update s.cache i ⟨block, s.disk block, false, true⟩ }

/-- The loop that looks for a slot, from the attempt `64 - n` on for the first 64 attempts; the
attempt after them takes any slot. -/
def evict (block : ℕ) : ℕ → BlockCache → Mem × BlockCache
  | 0, s =>
    let i := s.cacheNext % cacheSlots
    let t := (({ s with cacheNext := s.cacheNext + 1 } : BlockCache).flushOne i).fill i block
    ((t.cache i).data, t)
  | n + 1, s =>
    let i := s.cacheNext % cacheSlots
    let t : BlockCache := { s with cacheNext := s.cacheNext + 1 }
    if (s.cache i).valid = false ∨ (s.cache i).dirty = false then
      (((t.fill i block).cache i).data, t.fill i block)
    else evict block n t

def cacheGet (block : ℕ) (s : BlockCache) : Mem × BlockCache :=
  match s.slotOf block with
  | some i => ((s.cache i).data, s)
  | none => evict block cacheSlots s

/-! ### The cache does not matter -/

/-- Slots that have not been changed hold what is on the disk, and no block has two slots. -/
structure Coherent (s : BlockCache) : Prop where
  clean : ∀ i < cacheSlots, (s.cache i).valid = true → (s.cache i).dirty = false →
    (s.cache i).data = s.disk (s.cache i).blockNum
  once : ∀ i < cacheSlots, ∀ j < cacheSlots, (s.cache i).valid = true → (s.cache j).valid = true →
    (s.cache i).blockNum = (s.cache j).blockNum → i = j

/-- What a block is: the slot of the cache, or the disk. -/
def view (s : BlockCache) (block : ℕ) : Mem :=
  match s.slotOf block with
  | some i => (s.cache i).data
  | none => s.disk block

variable {s t : BlockCache} {i b : ℕ}

theorem slotOf_some (h : s.slotOf b = some i) :
    i < cacheSlots ∧ (s.cache i).valid ∧ (s.cache i).blockNum = b := by
  have hp := find?_some h
  rw [Bool.and_eq_true, beq_iff_eq] at hp
  exact ⟨mem_range.mp (mem_of_find?_eq_some h), hp⟩

theorem slotOf_none (h : s.slotOf b = none) (hi : i < cacheSlots) :
    ¬ ((s.cache i).valid ∧ (s.cache i).blockNum = b) := by
  have hp := find?_eq_none.mp h i (mem_range.mpr hi)
  rwa [Bool.and_eq_true, beq_iff_eq] at hp

theorem Coherent.slotOf_eq (h : s.Coherent) (hi : i < cacheSlots) (hv : (s.cache i).valid)
    (hb : (s.cache i).blockNum = b) : s.slotOf b = some i := by
  cases hs : s.slotOf b with
  | none => exact absurd ⟨hv, hb⟩ (slotOf_none hs hi)
  | some j =>
    obtain ⟨hj, hvj, hbj⟩ := slotOf_some hs
    rw [h.once j hj i hi hvj hv (hbj.trans hb.symm)]

theorem Coherent.view_of_slot (h : s.Coherent) (hi : i < cacheSlots)
    (hv : (s.cache i).valid) : s.view (s.cache i).blockNum = (s.cache i).data := by
  rw [view, h.slotOf_eq hi hv rfl]

theorem Coherent.view_of_not_dirty (h : s.Coherent)
    (hd : ∀ i < cacheSlots, (s.cache i).valid → (s.cache i).blockNum = b →
      (s.cache i).dirty = false) : s.view b = s.disk b := by
  rw [view]
  cases hs : s.slotOf b with
  | none => rfl
  | some i =>
    obtain ⟨hi, hv, hb⟩ := slotOf_some hs
    have hc := h.clean i hi hv (hd i hi hv hb)
    rw [hb] at hc
    exact hc

theorem fill_self (s : BlockCache) (i b : ℕ) : (s.fill i b).cache i = ⟨b, s.disk b, false, true⟩ :=
  update_self _ _ _

/-- **One slot changed**, which holds block `b` then and no other does; what it held was not dirty,
or was `b`. -/
theorem Coherent.slot_changed (h : s.Coherent) (hi : i < cacheSlots)
    (hdisk : ∀ b', b' ≠ b → t.disk b' = s.disk b')
    (hother : ∀ j < cacheSlots, j ≠ i → t.cache j = s.cache j)
    (hv : (t.cache i).valid) (hb : (t.cache i).blockNum = b)
    (hc : (t.cache i).dirty = false → (t.cache i).data = t.disk b)
    (hn : ∀ j < cacheSlots, j ≠ i → (s.cache j).valid → (s.cache j).blockNum ≠ b)
    (hd : (s.cache i).valid → (s.cache i).blockNum ≠ b → (s.cache i).dirty = false) :
    t.Coherent ∧ t.view = update s.view b (t.cache i).data := by
  have hco : t.Coherent := by
    refine ⟨fun j hj hvj hdj => ?_, fun j hj k hk hvj hvk he => ?_⟩
    · by_cases hji : j = i
      · rw [hji] at hdj ⊢
        rw [hb]
        exact hc hdj
      · rw [hother j hj hji] at hvj hdj ⊢
        rw [hdisk _ (hn j hj hji hvj)]
        exact h.clean j hj hvj hdj
    by_cases hji : j = i
    · by_cases hki : k = i
      · rw [hji, hki]
      · rw [hother k hk hki] at hvk he
        rw [hji, hb] at he
        exact absurd he.symm (hn k hk hki hvk)
    rw [hother j hj hji] at hvj he
    by_cases hki : k = i
    · rw [hki, hb] at he
      exact absurd he (hn j hj hji hvj)
    · rw [hother k hk hki] at hvk he
      exact h.once j hj k hk hvj hvk he
  refine ⟨hco, funext fun b' => ?_⟩
  by_cases hbb : b' = b
  · have hview := hco.view_of_slot hi hv
    rw [hb] at hview
    rw [hbb, update_self, hview]
  -- another block: in the same slot as before, or only in the slot that was given up
  rw [update_of_ne hbb]
  cases hs : t.slotOf b' with
  | some j =>
    obtain ⟨hj, hvj, hbj⟩ := slotOf_some hs
    have hji : j ≠ i := by
      intro e
      rw [e, hb] at hbj
      exact hbb hbj.symm
    rw [← hbj, hco.view_of_slot hj hvj]
    rw [hother j hj hji] at hvj ⊢
    rw [h.view_of_slot hj hvj]
  | none =>
    rw [view, hs]
    rw [hdisk b' hbb]
    refine (h.view_of_not_dirty fun j hj hvj hbj => ?_).symm
    by_cases hji : j = i
    · rw [hji] at hvj hbj ⊢
      exact hd hvj (hbj ▸ hbb)
    · have hnone := slotOf_none hs hj
      rw [hother j hj hji] at hnone
      exact absurd ⟨hvj, hbj⟩ hnone

/-- **A slot filled**, after it has been flushed. -/
theorem Coherent.fill (h : s.Coherent) (hi : i < cacheSlots) (hn : s.slotOf b = none)
    (hd : (s.cache i).valid = false ∨ (s.cache i).dirty = false) :
    (s.fill i b).Coherent ∧ (s.fill i b).view = s.view := by
  have hself := fill_self s i b
  have hother : ∀ j < cacheSlots, j ≠ i → (s.fill i b).cache j = s.cache j := fun j _ hj =>
    update_of_ne hj _ _
  have hview : s.view b = s.disk b := by rw [view, hn]
  obtain ⟨hco, hv⟩ := h.slot_changed (t := s.fill i b) (b := b) hi (fun _ _ => rfl) hother
    (by rw [hself]) (by rw [hself]) (fun _ => by rw [hself]; rfl)
    (fun j hj _ hvj hb => slotOf_none hn hj ⟨hvj, hb⟩)
    fun hvi _ => hd.resolve_left (by rw [hvi]; decide)
  refine ⟨hco, ?_⟩
  rw [hv, hself, ← hview, update_eq_self]

/-- **A slot flushed.** -/
theorem Coherent.flushOne (h : s.Coherent) (hi : i < cacheSlots) :
    (s.flushOne i).Coherent ∧ (s.flushOne i).view = s.view ∧
      (∀ b, (s.flushOne i).slotOf b = s.slotOf b) ∧
      (((s.flushOne i).cache i).valid = false ∨ ((s.flushOne i).cache i).dirty = false) := by
  rw [BlockCache.flushOne]
  split
  · next hd =>
    generalize hu : ({ s with
      disk := update s.disk (s.cache i).blockNum (s.cache i).data
      cache := update s.cache i { s.cache i with dirty := false } } : BlockCache) = u
    have hself : u.cache i = { s.cache i with dirty := false } := by
      rw [← hu]
      exact update_self _ _ _
    have hother : ∀ j, j ≠ i → u.cache j = s.cache j := by
      intro j hj
      rw [← hu]
      exact update_of_ne hj _ _
    have hdisk : u.disk = update s.disk (s.cache i).blockNum (s.cache i).data := by rw [← hu]
    obtain ⟨hco, hv⟩ := h.slot_changed (t := u) (b := (s.cache i).blockNum) hi
      (fun b' hb => by rw [hdisk, update_of_ne hb]) (fun j _ => hother j)
      (by rw [hself]; exact hd.1) (by rw [hself]) (fun _ => by rw [hself, hdisk, update_self])
      (fun j hj hji hvj he => hji (h.once j hj i hi hvj hd.1 he)) fun _ hne => absurd rfl hne
    refine ⟨hco, ?_, fun b => ?_, .inr (by rw [hself])⟩
    · rw [hv, hself, ← h.view_of_slot hi hd.1, update_eq_self]
    · rw [slotOf, slotOf]
      congr 1
      funext j
      by_cases hji : j = i
      · rw [hji, hself]
      · rw [hother j hji]
  · next hd =>
    refine ⟨h, rfl, fun _ => rfl, ?_⟩
    by_cases hv : (s.cache i).valid
    · exact .inr (by simpa using fun hdirty => hd ⟨hv, hdirty⟩)
    · exact .inl (by simpa using hv)

theorem Coherent.evict (hn : s.slotOf b = none) (h : s.Coherent) (n : ℕ) :
    (evict b n s).1 = s.view b ∧ (evict b n s).2.Coherent ∧ (evict b n s).2.view = s.view := by
  have hlt : ∀ k, k % cacheSlots < cacheSlots := fun k => mod_lt k (by decide)
  have hview : s.view b = s.disk b := by rw [view, hn]
  induction n generalizing s with
  | zero =>
    have ht : ({ s with cacheNext := s.cacheNext + 1 } : BlockCache).Coherent := ⟨h.clean, h.once⟩
    obtain ⟨hf, hfv, hfs, hfd⟩ := ht.flushOne (hlt s.cacheNext)
    have hnone := (hfs b).trans hn
    obtain ⟨hc, hcv⟩ := hf.fill (hlt s.cacheNext) hnone hfd
    refine ⟨?_, hc, hcv.trans hfv⟩
    have hself := hc.view_of_slot (hlt s.cacheNext) (by rw [fill_self])
    rw [fill_self, hcv, hfv] at hself
    rw [BlockCache.evict, fill_self]
    exact hself.symm
  | succ n ih =>
    have ht : ({ s with cacheNext := s.cacheNext + 1 } : BlockCache).Coherent := ⟨h.clean, h.once⟩
    rw [BlockCache.evict]
    split
    · next hd =>
      obtain ⟨hc, hcv⟩ := ht.fill (hlt s.cacheNext) hn hd
      refine ⟨?_, hc, hcv⟩
      rw [hview, fill_self]
    · exact ih hn ht hview

/-- **The cache is faithful.** -/
theorem cacheGet_faithful : Faithful cacheGet Coherent view := by
  have hall : ∀ b s, Coherent s →
      (cacheGet b s).1 = s.view b ∧ (cacheGet b s).2.Coherent ∧ (cacheGet b s).2.view = s.view := by
    intro b s h
    rw [cacheGet]
    cases hs : s.slotOf b with
    | some i =>
      refine ⟨?_, h, rfl⟩
      rw [view, hs]
    | none => exact h.evict hs cacheSlots
  exact ⟨fun b s h => (hall b s h).1, fun b s h => (hall b s h).2.1, fun b s h => (hall b s h).2.2⟩

/-! ### Runs of the cache -/

/-- The loop of `cacheGet` with the attempts that are left, up to 128; none for `unreachable`. -/
def evictLoop (block : ℕ) : ℕ → BlockCache → Option (ℕ × BlockCache)
  | 0, _ => none
  | n + 1, s =>
    let i := s.cacheNext % cacheSlots
    let t : BlockCache := { s with cacheNext := s.cacheNext + 1 }
    if (s.cache i).valid = false ∨ (s.cache i).dirty = false ∨ n + 1 ≤ cacheSlots then
      some (i, (t.flushOne i).fill i block)
    else evictLoop block n t

/-- `cacheGet` with the slot that its pointer goes to. -/
def cacheSlot (block : ℕ) (s : BlockCache) : Option (ℕ × BlockCache) :=
  match s.slotOf block with
  | some i => some (i, s)
  | none => evictLoop block (cacheSlots * 2) s

def cacheMarkDirty (s : BlockCache) (block : ℕ) : BlockCache :=
  { s with cache := fun i =>
      if (s.cache i).valid = true ∧ (s.cache i).blockNum = block then
        { s.cache i with dirty := true }
      else s.cache i }

/-- The bytes of a slot are changed and its block marked at once. -/
def modify (s : BlockCache) (i block : ℕ) (f : Mem → Mem) : BlockCache :=
  cacheMarkDirty
    { s with cache := update s.cache i { s.cache i with data := f (s.cache i).data } } block

def flushAll (s : BlockCache) : BlockCache := (List.range cacheSlots).foldl flushOne s

inductive Op
  | get (block : ℕ)
  | modify (block : ℕ) (f : Mem → Mem)
  | flushOne (i : Fin cacheSlots)
  | flushAll

def Op.run : Op → BlockCache → Option BlockCache
  | .get block, s => (cacheSlot block s).map Prod.snd
  | .modify block f, s => (cacheSlot block s).map fun r => r.2.modify r.1 block f
  | .flushOne i, s => some (s.flushOne i.val)
  | .flushAll, s => some s.flushAll

/-- What an operation does to the contents of the blocks. -/
def Op.write : Op → (ℕ → Mem) → ℕ → Mem
  | .modify block f, c => update c block (f (c block))
  | _, c => c

/-- The cache as the kernel starts, with any bytes in its slots. -/
def initial (junk disk : ℕ → Mem) : BlockCache where
  cache := fun i => ⟨0xFFFFFFFF, junk i, false, false⟩
  cacheNext := 0
  disk := disk

theorem initial_coherent (junk disk : ℕ → Mem) :
    (initial junk disk).Coherent ∧ (initial junk disk).view = disk := by
  refine ⟨⟨fun i _ hv => ?_, fun i _ j _ hv => ?_⟩, funext fun b => ?_⟩
  · cases hv
  · cases hv
  · cases hs : (initial junk disk).slotOf b with
    | some i => cases (slotOf_some hs).2.1
    | none =>
      rw [view, hs]
      rfl

theorem flushOne_of_not_dirty (h : (s.cache i).valid = false ∨ (s.cache i).dirty = false) :
    s.flushOne i = s := by
  refine if_neg fun hd => ?_
  rcases h with h | h
  · rw [hd.1] at h
    cases h
  · rw [hd.2] at h
    cases h

/-- **The loop finds a slot**: at the latest the attempt after the first 64 takes one. -/
theorem evictLoop_eq (n : ℕ) (s : BlockCache) : ∃ i < cacheSlots,
    evictLoop b (cacheSlots + n) s = some (i, (evict b n s).2) ∧
      ((evict b n s).2.cache i).valid ∧ ((evict b n s).2.cache i).blockNum = b := by
  have hlt : s.cacheNext % cacheSlots < cacheSlots := mod_lt _ (by decide)
  induction n generalizing s with
  | zero =>
    refine ⟨_, hlt, if_pos (.inr (.inr le_rfl)), ?_⟩
    rw [evict, fill_self]
    exact ⟨rfl, rfl⟩
  | succ n ih =>
    rw [← add_assoc, evictLoop, evict]
    by_cases hd : (s.cache (s.cacheNext % cacheSlots)).valid = false ∨
        (s.cache (s.cacheNext % cacheSlots)).dirty = false
    · have hf := flushOne_of_not_dirty (s := { s with cacheNext := s.cacheNext + 1 }) hd
      rw [if_pos (by tauto), if_pos hd, hf]
      refine ⟨_, hlt, rfl, ?_⟩
      rw [fill_self]
      exact ⟨rfl, rfl⟩
    · have hn : ¬ cacheSlots + n + 1 ≤ cacheSlots := by omega
      rw [if_neg (by tauto), if_neg hd]
      exact ih _ (mod_lt _ (by decide))

/-- **`cacheGet` never reaches the end of its loop**, and gives the slot of the block. -/
theorem cacheSlot_eq (b : ℕ) (s : BlockCache) : ∃ i < cacheSlots,
    cacheSlot b s = some (i, (cacheGet b s).2) ∧
      ((cacheGet b s).2.cache i).valid ∧ ((cacheGet b s).2.cache i).blockNum = b := by
  rw [cacheSlot, cacheGet]
  cases hs : s.slotOf b with
  | some i =>
    obtain ⟨hi, hv, hb⟩ := slotOf_some hs
    exact ⟨i, hi, rfl, hv, hb⟩
  | none => exact evictLoop_eq cacheSlots s

/-- **A block changed and marked.** -/
theorem Coherent.modify (h : s.Coherent) (hi : i < cacheSlots) (hv : (s.cache i).valid)
    (hb : (s.cache i).blockNum = b) (f : Mem → Mem) :
    (s.modify i b f).Coherent ∧ (s.modify i b f).view = update s.view b (f (s.view b)) := by
  have hself : (s.modify i b f).cache i = ⟨b, f (s.cache i).data, true, true⟩ := by
    simp [BlockCache.modify, cacheMarkDirty, hv, hb]
  have hn : ∀ j < cacheSlots, j ≠ i → (s.cache j).valid → (s.cache j).blockNum ≠ b :=
    fun j hj hji hvj he => hji (h.once j hj i hi hvj hv (he.trans hb.symm))
  have hother : ∀ j < cacheSlots, j ≠ i → (s.modify i b f).cache j = s.cache j := by
    intro j hj hji
    have hnj : ¬ ((s.cache j).valid ∧ (s.cache j).blockNum = b) := fun e =>
      hn j hj hji e.1 e.2
    simp only [BlockCache.modify, cacheMarkDirty, update_of_ne hji]
    exact if_neg hnj
  have hview := h.view_of_slot hi hv
  obtain ⟨hco, hvt⟩ := h.slot_changed (t := s.modify i b f) (b := b) hi (fun _ _ => rfl) hother
    (by rw [hself]) (by rw [hself]) (fun hd => by rw [hself] at hd; cases hd) hn
    fun _ hne => absurd hb hne
  refine ⟨hco, ?_⟩
  rw [hvt, hself, ← hb, hview]

theorem flushOne_keeps (j : ℕ) (h : (s.cache i).valid = false ∨ (s.cache i).dirty = false) :
    ((s.flushOne j).cache i).valid = false ∨ ((s.flushOne j).cache i).dirty = false := by
  by_cases hij : i = j
  · rw [← hij, flushOne_of_not_dirty h]
    exact h
  rw [BlockCache.flushOne]
  split
  · dsimp only
    rw [update_of_ne hij]
    exact h
  · exact h

/-- **All slots flushed**: the disk is what the blocks are. -/
theorem Coherent.flushAll (h : s.Coherent) :
    s.flushAll.Coherent ∧ s.flushAll.view = s.view ∧ s.flushAll.disk = s.view := by
  have hall : ∀ l : List ℕ, (∀ i ∈ l, i < cacheSlots) →
      let t := l.foldl BlockCache.flushOne s
      t.Coherent ∧ t.view = s.view ∧
        ∀ i ∈ l, (t.cache i).valid = false ∨ (t.cache i).dirty = false := by
    intro l
    induction l using List.reverseRecOn with
    | nil => exact fun _ => ⟨h, rfl, fun i hi => absurd hi not_mem_nil⟩
    | append_singleton l j ih =>
      intro hl
      obtain ⟨hc, hv, hd⟩ := ih fun i hi => hl i (mem_append_left _ hi)
      obtain ⟨hcj, hvj, -, hdj⟩ := hc.flushOne (hl j (mem_append_right _ (.head _)))
      rw [foldl_append]
      refine ⟨hcj, hvj.trans hv, fun i hi => ?_⟩
      rcases mem_append.mp hi with hi | hi
      · exact flushOne_keeps j (hd i hi)
      · rw [mem_singleton.mp hi]
        exact hdj
  obtain ⟨hc, hv, hd⟩ := hall (List.range cacheSlots) fun i hi => mem_range.mp hi
  rw [BlockCache.flushAll]
  refine ⟨hc, hv, funext fun b => ?_⟩
  rw [← hv]
  refine (hc.view_of_not_dirty fun i hi hvi _ => ?_).symm
  exact (hd i (mem_range.mpr hi)).resolve_left (by rw [hvi]; decide)

/-- **One operation** gives its result, and writes what it says. -/
theorem Op.run_spec (op : Op) (h : s.Coherent) :
    ∃ t, op.run s = some t ∧ t.Coherent ∧ t.view = op.write s.view := by
  have hf := cacheGet_faithful
  cases op with
  | get b =>
    obtain ⟨i, -, hs, -⟩ := cacheSlot_eq b s
    exact ⟨(cacheGet b s).2, by rw [Op.run, hs]; rfl, hf.keeps b s h, hf.same b s h⟩
  | modify b f =>
    obtain ⟨i, hi, hs, hv, hb⟩ := cacheSlot_eq b s
    obtain ⟨hc, hview⟩ := (hf.keeps b s h).modify hi hv hb f
    refine ⟨(cacheGet b s).2.modify i b f, by rw [Op.run, hs]; rfl, hc, ?_⟩
    rw [hview, hf.same b s h]
    rfl
  | flushOne i => exact ⟨_, rfl, (h.flushOne i.isLt).1, (h.flushOne i.isLt).2.1⟩
  | flushAll => exact ⟨_, rfl, h.flushAll.1, h.flushAll.2.1⟩

/-- **The cache is transparent over runs**: no operation fails, a block is what was last written to
it, and a flush puts that on the disk. -/
theorem cache_transparent (junk disk : ℕ → Mem) (ops : List Op) :
    ∃ s, ops.foldlM (fun s op => op.run s) (initial junk disk) = some s ∧ s.Coherent ∧
      (∀ b, ∃ i t, cacheSlot b s = some (i, t) ∧
        (t.cache i).data = ops.foldl (fun c op => op.write c) disk b) ∧
      s.flushAll.disk = ops.foldl (fun c op => op.write c) disk := by
  have hrun : ∀ (ops : List Op) (s : BlockCache), s.Coherent →
      ∃ t, ops.foldlM (fun s op => op.run s) s = some t ∧ t.Coherent ∧
        t.view = ops.foldl (fun c op => op.write c) s.view := by
    intro ops
    induction ops with
    | nil => exact fun s hs => ⟨s, rfl, hs, rfl⟩
    | cons op ops ih =>
      intro s hs
      obtain ⟨t, ht, hc, hv⟩ := op.run_spec hs
      obtain ⟨u, hu, hcu, hvu⟩ := ih t hc
      refine ⟨u, ?_, hcu, ?_⟩
      · rw [foldlM_cons, ht]
        exact hu
      · rw [hvu, hv, foldl_cons]
  obtain ⟨hi, hd⟩ := initial_coherent junk disk
  obtain ⟨s, hs, hc, hv⟩ := hrun ops _ hi
  rw [hd] at hv
  refine ⟨s, hs, hc, fun b => ?_, hc.flushAll.2.2.trans hv⟩
  obtain ⟨i, hi, hsl, hvi, hb⟩ := cacheSlot_eq b s
  have hf := cacheGet_faithful
  have hview := (hf.keeps b s hc).view_of_slot hi hvi
  rw [hb, hf.same b s hc, hv] at hview
  exact ⟨i, _, hsl, hview.symm⟩

end BlockCache

/-! ### Inodes and their blocks -/

/-- A program that reads blocks. -/
abbrev Blocks := Query ℕ Mem

structure Inode where
  mode : ℕ
  size : ℕ
  block : ℕ → ℕ

/-- `mode & S_IFMT`. -/
def Inode.format (n : Inode) : ℕ := n.mode / 2 ^ 12 * 2 ^ 12

def Inode.isDir (n : Inode) : Bool := n.format = 0x4000
def Inode.isReg (n : Inode) : Bool := n.format = 0x8000

/-- The inode at a place of a block. -/
def inodeAt (m : Mem) (off : ℕ) : Inode where
  mode := m.load off 2
  size := m.load (off + 4) 4
  block := fun i => m.load (off + 40 + 4 * i) 4

/-- `inode_table` of `readGD`. -/
def readInodeTable (firstDataBlock bg : ℕ) : Blocks ℕ := do
  let data ← Query.get (firstDataBlock + 1 + bg / 32)
  return data.load (bg % 32 * 32 + 8) 4

/-- The fields of the superblock that are used here. -/
structure Superblock where
  firstDataBlock : ℕ
  inodesPerGroup : ℕ

def readIno (s : Superblock) (ino : ℕ) : Blocks Inode := do
  let table ← readInodeTable s.firstDataBlock ((ino - 1) / s.inodesPerGroup)
  let idx := (ino - 1) % s.inodesPerGroup
  let data ← Query.get (table + idx / 8)
  return inodeAt data (idx % 8 * 128)

/-- A pointer to a block, where 0 is none. -/
def orHole (p : ℕ) : Option ℕ := if p ≠ 0 then some p else none

/-- A pointer of a table of blocks. -/
def pointerOf (table : Mem) (i : ℕ) : ℕ := table.load (4 * i) 4

def bmapRead (n : Inode) (logical : ℕ) : Blocks (Option ℕ) :=
  if logical < 12 then return orHole (n.block logical)
  else if logical - 12 < ptrsPerBlock then
    if n.block 12 = 0 then return none
    else do
      let d ← Query.get (n.block 12)
      return orHole (pointerOf d (logical - 12))
  else
    let rem := logical - 12 - ptrsPerBlock
    if rem < ptrsPerBlock * ptrsPerBlock then
      if n.block 13 = 0 then return none
      else do
        let l1d ← Query.get (n.block 13)
        let l1 := pointerOf l1d (rem / ptrsPerBlock)
        if l1 = 0 then return none
        else do
          let l2d ← Query.get l1
          return orHole (pointerOf l2d (rem % ptrsPerBlock))
    else return none

/-! ### Paths -/

def lower (c : UInt8) : UInt8 := if 65 ≤ c ∧ c ≤ 90 then c + 32 else c

/-- The records of a directory block from `doff` on: the inode with the name. -/
def findIn (blk : Mem) (name : List UInt8) : ℕ → ℕ → Option ℕ
  | 0, _ => none
  | n + 1, doff =>
    if doff < blockSize then
      let recLen := blk.load (doff + 4) 2
      let nameLen := (blk (doff + 6)).toNat
      if recLen < 8 ∨ recLen > blockSize - doff then none
      else if blk.load doff 4 ≠ 0 ∧ 0 < nameLen ∧
          ((List.range nameLen).map fun i => lower (blk (doff + 8 + i))) = name.map lower then
        some (blk.load doff 4)
      else findIn blk name n (doff + recLen)
    else none

/-- The blocks of a directory from `logical` on. -/
def lookupFrom (dir : Inode) (name : List UInt8) : ℕ → ℕ → Blocks (Option ℕ)
  | 0, _ => return none
  | n + 1, logical => do
    match ← bmapRead dir logical with
    | none => lookupFrom dir name n (logical + 1)
    | some phys =>
      let blk ← Query.get phys
      match findIn blk name blockSize 0 with
      | some ino => return some ino
      | none => lookupFrom dir name n (logical + 1)

def Superblock.lookup (s : Superblock) (dirIno : ℕ) (name : List UInt8) : Blocks (Option ℕ) := do
  let dir ← readIno s dirIno
  if dir.isDir = false then return none
  else lookupFrom dir name ((dir.size + blockSize - 1) / blockSize) 0

/-- The components of a path. -/
def components (path : List UInt8) : List (List UInt8) :=
  (path.splitOnP (· = 47)).filter (· ≠ [])

def resolveFrom (s : Superblock) : List (List UInt8) → ℕ → Blocks (Option ℕ)
  | [], ino => return some ino
  | comp :: rest, ino => do
    match ← s.lookup ino comp with
    | none => return none
    | some ino => resolveFrom s rest ino

def resolve (s : Superblock) (path : List UInt8) : Blocks (Option ℕ) :=
  if path.head? = some 47 then resolveFrom s (components path) 2 else return none

/-! ### Reading -/

/-- The bytes of a file in one block, from `pos` on; a hole is read as zeros. -/
def readChunk (n : Inode) (pos chunk : ℕ) : Blocks (List UInt8) := do
  match ← bmapRead n (pos / blockSize) with
  | none => return List.replicate chunk 0
  | some phys =>
    let blk ← Query.get phys
    return (List.range chunk).map fun i => blk (pos % blockSize + i)

/-- The loop of `readFileAt`. -/
def readLoop (n : Inode) (offset toRead : ℕ) : ℕ → ℕ → Blocks (List UInt8)
  | 0, _ => return []
  | fuel + 1, done =>
    if done < toRead then do
      let chunk := min (blockSize - (offset + done) % blockSize) (toRead - done)
      let bytes ← readChunk n (offset + done) chunk
      let rest ← readLoop n offset toRead fuel (done + chunk)
      return bytes ++ rest
    else return []

def readInode (n : Inode) (count offset : ℕ) : Blocks (List UInt8) :=
  if offset ≥ n.size then return []
  else readLoop n offset (min count (n.size - offset)) (min count (n.size - offset)) 0

/-- `readFileAt`, and `ext2new_read_at`: none for an error. -/
def readFileAt (s : Superblock) (path : List UInt8) (count offset : ℕ) :
    Blocks (Option (List UInt8)) := do
  match ← resolve s path with
  | none => return none
  | some ino =>
    let n ← readIno s ino
    if n.isReg = false then return none
    else
      let bytes ← readInode n count offset
      return some bytes

/-- A byte of a file: a hole is zero. -/
def Inode.byte (n : Inode) (view : ℕ → Mem) (pos : ℕ) : UInt8 :=
  match (bmapRead n (pos / blockSize)).eval view with
  | none => 0
  | some phys => view phys (pos % blockSize)

/-- The contents of a file. -/
def Inode.contents (n : Inode) (view : ℕ → Mem) : List UInt8 := (List.range n.size).map (n.byte view)

variable {view : ℕ → Mem} {n : Inode}

theorem contents_length : (n.contents view).length = n.size := by
  rw [Inode.contents, length_map, length_range]

theorem drop_take_contents {offset k : ℕ} (h : offset + k ≤ n.size) :
    ((n.contents view).drop offset).take k = (List.range k).map fun i => n.byte view (offset + i) := by
  refine ext_getElem ?_ fun i h1 h2 => ?_
  · rw [length_take, length_drop, contents_length, length_map, length_range]
    omega
  · simp only [Inode.contents, getElem_take, getElem_drop, getElem_map,
      getElem_range]

theorem eval_readChunk (pos chunk : ℕ) (h : pos % blockSize + chunk ≤ blockSize) :
    (readChunk n pos chunk).eval view = (List.range chunk).map fun i => n.byte view (pos + i) := by
  have hdiv : ∀ i < chunk, (pos + i) / blockSize = pos / blockSize ∧
      (pos + i) % blockSize = pos % blockSize + i := by
    intro i hi
    rw [blockSize] at h ⊢
    omega
  rw [readChunk, eval_bind]
  have hbyte : ∀ i ∈ List.range chunk, n.byte view (pos + i) =
      match (bmapRead n (pos / blockSize)).eval view with
      | none => 0
      | some phys => view phys (pos % blockSize + i) := by
    intro i hi
    obtain ⟨h1, h2⟩ := hdiv i (mem_range.mp hi)
    rw [Inode.byte, h1, h2]
  rw [map_congr_left hbyte]
  cases hb : (bmapRead n (pos / blockSize)).eval view with
  | none =>
    refine ext_getElem (by simp) fun i h1 h2 => ?_
    simp
  | some phys => rfl

/-- **The loop of `readFileAt`.** -/
theorem eval_readLoop (offset toRead fuel done : ℕ) (h : toRead ≤ done + fuel) :
    (readLoop n offset toRead fuel done).eval view =
      (List.range (toRead - done)).map fun i => n.byte view (offset + done + i) := by
  induction fuel generalizing done with
  | zero =>
    rw [Nat.sub_eq_zero_of_le (by omega)]
    rfl
  | succ fuel ih =>
    rw [readLoop]
    split
    · next hd =>
      have hb : (offset + done) % blockSize < blockSize := mod_lt _ (by decide)
      generalize hc : min (blockSize - (offset + done) % blockSize) (toRead - done) = chunk
      have hpos : 0 < chunk := by omega
      rw [eval_bind, eval_readChunk _ _ (by omega), eval_bind, eval_pure,
        ih (done + chunk) (by omega)]
      have hsplit : toRead - done = chunk + (toRead - (done + chunk)) := by omega
      rw [hsplit, range_add, map_append, map_map]
      congr 1
      refine map_congr_left fun i _ => ?_
      rw [Function.comp_apply]
      congr 1
      omega
    · next hd =>
      rw [Nat.sub_eq_zero_of_le (Nat.le_of_not_lt hd)]
      rfl

/-- **Reading a file returns the piece of its contents**, from the offset on. -/
theorem eval_readInode (count offset : ℕ) :
    (readInode n count offset).eval view = ((n.contents view).drop offset).take count := by
  rw [readInode]
  split
  · next h =>
    rw [drop_eq_nil_of_le (by rw [contents_length]; exact h), take_nil]
    rfl
  next h =>
  have hle : offset + min count (n.size - offset) ≤ n.size := by omega
  have hlen : ((n.contents view).drop offset).length = n.size - offset := by
    rw [length_drop, contents_length]
  rw [eval_readLoop offset _ _ 0 (by omega), take_eq_take_min, hlen, drop_take_contents hle]
  rfl

theorem eval_readFileAt {s : Superblock} {path : List UInt8} {ino : ℕ}
    (hr : (resolve s path).eval view = some ino) (hreg : ((readIno s ino).eval view).isReg)
    (count offset : ℕ) : (readFileAt s path count offset).eval view =
      some ((((readIno s ino).eval view).contents view).drop offset |>.take count) := by
  rw [readFileAt, eval_bind, hr, eval_bind]
  rw [if_neg (by rw [hreg]; decide), eval_bind, eval_pure, eval_readInode]

/-- `readFile`: the loop of `readFileAt` from the start of the file. -/
def readFile (s : Superblock) (path : List UInt8) (count : ℕ) : Blocks (Option (List UInt8)) := do
  match ← resolve s path with
  | none => return none
  | some ino =>
    let n ← readIno s ino
    if n.isReg = false then return none
    else
      let bytes ← readLoop n 0 (min count n.size) (min count n.size) 0
      return some bytes

theorem eval_readFile (s : Superblock) (path : List UInt8) (count : ℕ) :
    (readFile s path count).eval view = (readFileAt s path count 0).eval view := by
  rw [readFile, readFileAt, eval_bind, eval_bind]
  cases (resolve s path).eval view with
  | none => rfl
  | some ino =>
    rw [eval_bind, eval_bind]
    split
    · rfl
    rw [eval_bind, eval_bind, eval_pure, eval_pure, readInode]
    split
    · next h0 =>
      rw [le_zero.mp h0, min_zero]
      rfl
    · rfl

end TipOS.Fs
