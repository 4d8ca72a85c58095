import Mathlib.Data.List.Perm.Subperm
import TipOS.Loader.Load

/-!
# Blocks

The allocator has 64 MB, so a loader gets at most 32 blocks of 2 MB.  A free block is no table, no
frame of the pool and no block that was given before (`Ready`); a block that was given stays apart
from what the loader is given later (`Owned`).
-/

namespace TipOS.Loader

open Lib Paging List

variable {p : Phys} {m' : Mem} {map : Phys → ℕ → ℕ → ℕ → ℤ × Phys}

/-- The 2 MB at `b` in the heap of the kernel. -/
structure HeapBlock (b : ℕ) : Prop where
  aligned : b % 2 ^ 21 = 0
  lower : 0xA00000 ≤ b
  upper : b < 0x4A00000

theorem HeapBlock.length_le {l : List ℕ} (hnd : l.Nodup) (h : ∀ b ∈ l, HeapBlock b) :
    l.length ≤ 32 := by
  have hsub : l ⊆ (List.range 32).map fun k => 0xA00000 + k * 2 ^ 21 := by
    intro b hb
    obtain ⟨h0, h1, h2⟩ := h b hb
    exact mem_map.mpr ⟨(b - 0xA00000) / 2 ^ 21, mem_range.mpr (by omega), by omega⟩
  simpa using (hnd.subperm hsub).length_le

theorem HeapBlock.low {b : ℕ} (h : HeapBlock b) : b < 2 ^ 52 := lt_trans h.upper (by simp)

/-- A block beside the tables and the frames of the pool. -/
structure Apart (s : Phys) (r b : ℕ) : Prop where
  table : ∀ l t, Table s.mem r l t → hugeDown t ≠ b
  pool : ∀ f ∈ s.pool, hugeDown f ≠ b

/-- **The state before a block is asked for.** -/
structure Ready (s : Load) (r : ℕ) : Prop where
  space : Space s.phys r
  nodup : s.blocks.Nodup
  heap : ∀ b ∈ s.blocks, HeapBlock b
  apart : ∀ b ∈ s.blocks, Apart s.phys r b

/-- A block that the loader was given. -/
structure Owned (s : Load) (r b : ℕ) : Prop where
  heap : HeapBlock b
  apart : Apart s.phys r b
  fresh : b ∉ s.blocks

theorem hugeDown_page (x : ℕ) : hugeDown (x / 4096 * 4096) = hugeDown x := by
  unfold hugeDown
  omega

theorem HeapBlock.hugeDown_add {b : ℕ} (h : HeapBlock b) (x : ℕ) : hugeDown (b + x % 2 ^ 21) = b := by
  have hal := h.aligned
  unfold hugeDown
  omega

section Steps

variable {s s' : Load} {r b va : ℕ}

theorem Apart.sameTables (h : Apart p r b) (hm : ∀ x, hugeDown x ≠ b → m' x = p.mem x) :
    SameTables p.mem m' r := by
  intro l t ht x hx
  refine hm x fun hb => h.table l t ht ?_
  rw [← hx, hugeDown_page, hb]

theorem Apart.congr {p' : Phys} (h : Apart p r b) (hs : SameTables p.mem p'.mem r)
    (hr : r % 4096 = 0) (hp : ∀ f ∈ p'.pool, f ∈ p.pool) : Apart p' r b :=
  ⟨fun l t ht => h.table l t ((hs.table_iff hr).mp ht), fun f hf => h.pool f (hp f hf)⟩

/-- **Writing to a block of one's own** changes no table. -/
theorem Ready.setMem (h : Ready s r) (hb : Owned s r b)
    (hm : ∀ x, hugeDown x ≠ b → m' x = s.phys.mem x) :
    Ready (s.setMem m') r ∧ SameTables s.phys.mem m' r := by
  have hs := hb.apart.sameTables hm
  have hspace : Space (s.setMem m').phys r := hs.space h.space rfl
  exact ⟨⟨hspace, h.nodup, h.heap,
    fun b' hb' => (h.apart b' hb').congr hs h.space.root fun _ hf => hf⟩, hs⟩

theorem Owned.setMem {b' : ℕ} (h' : Owned s r b') (h : Ready s r) (hb : Owned s r b)
    (hm : ∀ x, hugeDown x ≠ b → m' x = s.phys.mem x) : Owned (s.setMem m') r b' :=
  ⟨h'.heap, h'.apart.congr (h.setMem hb hm).2 h.space.root fun _ hf => hf, h'.fresh⟩

/-- What a mapping function does that writes a 2 MB entry. -/
def Maps (map : Phys → ℕ → ℕ → ℕ → ℤ × Phys) : Prop :=
  ∀ s r va pa, Space s r → ¬ (map s r va pa).1 < 0 →
    ∃ pdpt pd s₁, MapsHuge s r va pa pdpt pd s₁ (map s r va pa).2

theorem maps_ensure : Maps map2mbEnsure := by
  intro s r va pa h hok
  refine map2mbEnsure_maps h ?_
  unfold map2mbEnsure at hok ⊢
  dsimp only at hok ⊢
  split at hok
  · omega
  · split at hok
    · omega
    · next he4 _ _ _ => rw [if_neg he4]

theorem maps_in_pml4 : Maps map2mbInPml4 := by
  intro s r va pa h hok
  have h0 : (map2mbInPml4 s r va pa).1 = 0 := by
    unfold map2mbInPml4 at hok ⊢
    dsimp only at hok ⊢
    split at hok
    · omega
    · split at hok
      · omega
      · next he4 he3 => rw [if_neg he4, if_neg he3]
  obtain ⟨pdpt, pd, hm⟩ := map2mbInPml4_maps h h0
  exact ⟨pdpt, pd, s, hm⟩

theorem mapBlock_cases (hok : s.mapBlock map r va = (some b, s')) :
    ∃ t p, s.blocks = b :: t ∧ p = { s.phys with mem := s.phys.mem.fill b 0x200000 0 } ∧
      ¬ (map p r va b).1 < 0 ∧ s' = { s with
        blocks := t, phys := { (map p r va b).2 with
          mem := (map p r va b).2.mem.fill b 0x200000 0 } } := by
  unfold Load.mapBlock Load.takeBlock at hok
  cases hb : s.blocks with
  | nil =>
    rw [hb] at hok
    cases hok
  | cons b' t =>
    rw [hb] at hok
    dsimp only at hok
    split at hok
    · cases hok
    next hneg =>
    obtain ⟨hb', hs⟩ := Prod.mk.inj hok
    cases hb'
    exact ⟨t, _, rfl, rfl, hneg, hs.symm⟩

theorem Apart.maps {q s1 : Phys} {pa pdpt pd : ℕ} (h : Apart p r b)
    (hm : MapsHuge p r va pa pdpt pd s1 q) (hs : Space p r) (hpa : pa < 2 ^ 52) : Apart q r b := by
  refine ⟨fun l t ht => ?_, fun f hf => h.pool f (hm.pool hs f hf)⟩
  rcases hm.table_cases hs hpa ht with ht' | hf
  · exact h.table l t ht'
  · exact h.pool t hf

/-- **A block for a chunk**, as both loaders ask for one. -/
structure Given (s : Load) (r va b : ℕ) (s' : Load) : Prop where
  blocks : s.blocks = b :: s'.blocks
  ready : Ready s' r
  owned : Owned s' r b
  /-- the chunk is at the block -/
  leaf_self : ∀ va', chunkNo va' = chunkNo va → leaf s'.phys.mem r va' = some (1, hugeEntry b)
  leaf_of_ne : ∀ va', chunkNo va' ≠ chunkNo va → leaf s'.phys.mem r va' = leaf s.phys.mem r va'
  zero : ∀ x, hugeDown x = b → s'.phys.mem x = 0
  /-- other blocks are as they were -/
  keep : ∀ b', Owned s r b' → Owned s' r b' ∧ ∀ x, hugeDown x = b' → s'.phys.mem x = s.phys.mem x
  mapped : s'.mapped = s.mapped
  reads : s'.reads = s.reads

theorem fill_block_of_ne {m : Mem} {x : ℕ} (hb : b % 2 ^ 21 = 0) (hx : hugeDown x ≠ b) :
    m.fill b 0x200000 0 x = m x := by
  refine Mem.fill_apply_of_not_mem ?_
  by_contra hn
  refine hx ?_
  unfold hugeDown
  omega

theorem fill_block_of_eq {m : Mem} {x : ℕ} (hx : hugeDown x = b) : m.fill b 0x200000 0 x = 0 := by
  unfold hugeDown at hx
  exact Mem.fill_apply_of_mem (by omega) (by omega)

/-- **What a loader gets for a chunk.** -/
theorem mapBlock_spec (hmap : Maps map) (h : Ready s r) (hok : s.mapBlock map r va = (some b, s')) :
    Given s r va b s' := by
  obtain ⟨t, p, hb, hp, hneg, rfl⟩ := mapBlock_cases hok
  have hmem : b ∈ s.blocks := by rw [hb]; exact .head _
  have hheap := h.heap b hmem
  have hap := h.apart b hmem
  have hnd : b ∉ t ∧ t.Nodup := nodup_cons.mp (hb ▸ h.nodup)
  have hsub : ∀ b' ∈ t, b' ∈ s.blocks := fun b' hb' => by rw [hb]; exact mem_cons_of_mem b hb'
  -- the block is zeroed
  have hsame : SameTables s.phys.mem p.mem r := by
    rw [hp]
    exact hap.sameTables fun x hx => fill_block_of_ne hheap.aligned hx
  have hpool : p.pool = s.phys.pool := by rw [hp]
  have hspace : Space p r := hsame.space h.space hpool
  -- it is mapped
  obtain ⟨pdpt, pd, s1, hm⟩ := hmap p r va b hspace hneg
  generalize hq : (map p r va b).2 = q at hm
  have hqspace : Space q r := hm.space hspace hheap.low
  have happ : ∀ b', Apart s.phys r b' → Apart q r b' := fun b' hb' =>
    (hb'.congr hsame h.space.root fun f hf => hpool ▸ hf).maps hm hspace hheap.low
  -- it is zeroed once more
  have hlast : SameTables q.mem (q.mem.fill b 0x200000 0) r :=
    (happ b hap).sameTables fun x hx => fill_block_of_ne hheap.aligned hx
  have hlastApart : ∀ b', Apart s.phys r b' →
      Apart { q with mem := q.mem.fill b 0x200000 0 } r b' := fun b' hb' =>
    (happ b' hb').congr hlast hqspace.root fun _ hf => hf
  refine ⟨hb, ⟨hlast.space hqspace rfl, hnd.2, fun b' hb' => h.heap b' (hsub b' hb'),
    fun b' hb' => hlastApart b' (h.apart b' (hsub b' hb'))⟩, ⟨hheap, hlastApart b hap, hnd.1⟩,
    fun va' hva => ?_, fun va' hva => ?_, fun x hx => fill_block_of_eq hx, fun b' hb' => ⟨?_, ?_⟩,
    rfl, rfl⟩
  · exact (hlast.leaf hqspace.root va').trans (hm.leaf_self hspace hheap.low hva)
  · refine (hlast.leaf hqspace.root va').trans ((hm.leaf_of_ne hspace hva).trans ?_)
    exact hsame.leaf h.space.root va'
  · exact ⟨hb'.heap, hlastApart b' hb'.apart, fun hx => hb'.fresh (hsub b' hx)⟩
  intro x hx
  have hne : hugeDown x ≠ b := by
    rintro rfl
    exact hb'.fresh (hx ▸ hmem)
  have hq' : q.mem x = p.mem x := by
    refine hm.same hspace (fun l ht => ?_) fun hf => ?_
    · exact hb'.apart.table l _ ((hsame.table_iff h.space.root).mp ht) (by rw [hugeDown_page, hx])
    · exact hb'.apart.pool _ (hpool ▸ hf) (by rw [hugeDown_page, hx])
  dsimp only
  rw [fill_block_of_ne hheap.aligned hne, hq', hp]
  exact fill_block_of_ne hheap.aligned hne

end Steps

end TipOS.Loader
