import TipOS.Loader.Child
import TipOS.Loader.ElfMemory
import TipOS.Loader.MachO

/-!
# A new program and its creator

A program is started by `clone_identity_tables` and then a loader on the new tables.  The creator
should not see any of it.  It does not as long as the loader maps chunks below tables of the program
alone: then only memory is written that was free (`Kept`).  A chunk in another 512 GB, or in a GB
above the first where the creator has a page directory, is mapped in the creator's own tables
(`Shares`), and the creator finds the program's block there.

`Child` is the invariant of both loaders, for every image; `start_undisturbed_iff` is the result.  For
a Mach-O image it asks that no part of the file spills over the block of its chunk (`NoSpill`): what
spills over goes to whatever stands behind the block.
-/

namespace TipOS.Loader

open Lib Paging List

variable {m' : Mem} {g : Segment}

/-! ### The invariant of the loaders -/

section Kept

variable {s : Load} {s₁ t t₁ t' : Phys} {p c pdp pd va pa pdpt' pd' b : ℕ}

theorem Kept.setMem (hk : Kept s t) (hb : b ∈ s.blocks) (hm : ∀ x, hugeDown x ≠ b → m' x = t.mem x)
    : Kept s { t with mem := m' } :=
  fun x h1 h2 => (hm x (h2 b hb)).trans (hk x h1 h2)

theorem Kept.maps (hk : Kept s t) (hf : Family s.phys s₁ p c pdp t)
    (hcl : Cloned s.phys s₁ p c pdp pd) (h : Creator s.phys p)
    (hm : MapsHuge t c va pa pdpt' pd' t₁ t') (hva : ¬ Shares s.phys.mem p va) : Kept s t' := by
  obtain ⟨rfl, hpd⟩ := hf.own_tables hcl h hm hva
  intro x h1 h2
  refine (hm.apply_of_ne hf.space (fun he => h1 ?_) (fun he => h1 (he ▸ hpd)) fun hmem => h1 ?_).trans
    (hk x h1 h2)
  · rw [he]
    exact hcl.mem_pool (by simp)
  · exact hcl.pool_sub (hf.pool _ hmem)

theorem Kept.sameTables (hk : Kept s t) (hr : Ready s p) : SameTables s.phys.mem t.mem p := by
  intro l x hx y hy
  refine hk y (fun hmem => ?_) fun b hb he => ?_
  · rw [hy] at hmem
    exact (hr.space.pool x hmem).table l hx
  · refine (hr.apart b hb).table l x hx ?_
    rw [← hy, hugeDown_page, he]

end Kept

/-- **The invariant of the loaders**: the chunks `C` of the program are at blocks that were free, and
only free memory was written if none of them is shared. -/
structure Child (s : Load) (s₁ : Phys) (p c pdp : ℕ) (C : ℕ → Prop) (t : Load) : Prop where
  ready : Ready t c
  family : Family s.phys s₁ p c pdp t.phys
  blocks : ∀ b ∈ t.blocks, b ∈ s.blocks
  leaf : ∀ va, C va → ∃ b ∈ s.blocks, leaf t.phys.mem c va = some (1, hugeEntry b)
  kept : (∀ va, C va → ¬ Shares s.phys.mem p va) → Kept s t.phys

section Child

variable {s t t' : Load} {s₁ : Phys} {p c pdp pd va b : ℕ} {C C' : ℕ → Prop}

section

variable (h : Creator s.phys p) (hr : Ready s p) (hcl : Cloned s.phys s₁ p c pdp pd)

include h hr hcl

theorem Child.init : Child s s₁ p c pdp (fun _ => False) { s with phys := s₁ } := by
  refine ⟨⟨hcl.space h, hr.nodup, hr.heap, fun b hb => ⟨fun l x hx => ?_, fun f hf => ?_⟩⟩,
    hcl.family h, fun _ hb => hb, fun _ hC => hC.elim, fun _ x hx _ => ?_⟩
  · have ho := hcl.table h hx
    by_cases hnew : x ∈ [pd, pdp, c]
    · exact (hr.apart b hb).pool x (hcl.mem_pool hnew)
    · simp only [mem_cons, not_mem_nil, or_false, not_or] at hnew
      rw [origin, if_neg hnew.2.2, if_neg hnew.2.1, if_neg hnew.1] at ho
      exact (hr.apart b hb).table l x ho
  · exact (hr.apart b hb).pool f (hcl.pool_sub hf)
  · exact hcl.same x fun hf => hx (hcl.mem_pool hf)

theorem Child.write (ht : Child s s₁ p c pdp C t) (hb : Owned t c b) (hmem : b ∈ s.blocks)
    (hm : ∀ x, hugeDown x ≠ b → m' x = t.phys.mem x) (hphys : t'.phys = { t.phys with mem := m' })
    (hblocks : t'.blocks = t.blocks) : Child s s₁ p c pdp C t' := by
  obtain ⟨hready, hsame⟩ := ht.ready.setMem hb hm
  obtain ⟨_, _, _, _⟩ := t'
  subst hphys hblocks
  refine ⟨⟨hready.space, hready.nodup, hready.heap, hready.apart⟩,
    ht.family.setMem hcl h hb.apart (hr.apart b hmem) hm, ht.blocks, fun va hC => ?_,
    fun hC => (ht.kept hC).setMem hmem hm⟩
  obtain ⟨b', hb', he⟩ := ht.leaf va hC
  exact ⟨b', hb', (hsame.leaf ht.ready.space.root va).trans he⟩

/-- **A block for a chunk.** -/
theorem Child.given {map : Phys → ℕ → ℕ → ℕ → ℤ × Phys} (ht : Child s s₁ p c pdp C t)
    (hmap : Maps map) (hok : t.mapBlock map c va = (some b, t')) :
    Given t c va b t' ∧ b ∈ s.blocks ∧ Child s s₁ p c pdp (fun x => C x ∨ x = va) t' := by
  have hg := mapBlock_spec hmap ht.ready hok
  obtain ⟨l, q, hbl, hq, hneg, rfl⟩ := mapBlock_cases hok
  have hmem : b ∈ t.blocks := by rw [hbl]; exact .head _
  have hheap := ht.ready.heap b hmem
  have hap := ht.ready.apart b hmem
  have hap' := hr.apart b (ht.blocks b hmem)
  have hfill : ∀ (m : Mem) x, hugeDown x ≠ b → m.fill b 0x200000 0 x = m x := fun m x hx =>
    fill_block_of_ne hheap.aligned hx
  -- zeroed, mapped, and zeroed once more
  have hfq : Family s.phys s₁ p c pdp q := by
    rw [hq]
    exact ht.family.setMem hcl h hap hap' (hfill _)
  have hapq : Apart q c b := by
    rw [hq]
    exact hap.congr (hap.sameTables (hfill _)) ht.ready.space.root fun _ hf => hf
  obtain ⟨pdpt, pd', q1, hm⟩ := hmap q c va b hfq.space hneg
  have hfm := hfq.maps hcl h hm hheap.low
  refine ⟨hg, ht.blocks b hmem, hg.ready, ?_, fun b' hb' => ht.blocks b' ?_, fun x hC => ?_,
    fun hC => ?_⟩
  · exact hfm.setMem hcl h (hapq.maps hm hfq.space hheap.low) hap' (hfill _)
  · rw [hbl]
    exact mem_cons_of_mem b hb'
  · by_cases hx : chunkNo x = chunkNo va
    · exact ⟨b, ht.blocks b hmem, hg.leaf_self x hx⟩
    rcases hC with hC | rfl
    · obtain ⟨b', hb', he⟩ := ht.leaf x hC
      exact ⟨b', hb', (hg.leaf_of_ne x hx).trans he⟩
    · omega
  · have hk := (ht.kept fun x hx => hC x (.inl hx)).setMem (ht.blocks b hmem) (hfill t.phys.mem)
    rw [← hq] at hk
    exact (hk.maps hfq hcl h hm (hC va (.inr rfl))).setMem (ht.blocks b hmem) (hfill _)

end

theorem Child.congr (ht : Child s s₁ p c pdp C t) (hC : ∀ x, C' x ↔ C x) (hphys : t'.phys = t.phys)
    (hblocks : t'.blocks = t.blocks) : Child s s₁ p c pdp C' t' := by
  obtain rfl : C' = C := funext fun x => propext (hC x)
  obtain ⟨_, _, _, _⟩ := t'
  subst hphys hblocks
  have hr := ht.ready
  exact ⟨⟨hr.space, hr.nodup, hr.heap, hr.apart⟩, ht.family, ht.blocks, ht.leaf, ht.kept⟩

/-! ### What the creator sees -/

/-- **The creator is not disturbed.** -/
def Undisturbed (s : Load) (p : ℕ) (t : Load) : Prop :=
  ∀ va, translate t.phys.mem p va = translate s.phys.mem p va

/-- In the part it shares, the creator has no page in a free block. -/
def FreeUnmapped (s : Load) (p : ℕ) : Prop :=
  ∀ va, Shares s.phys.mem p va → ∀ x ∈ translate s.phys.mem p va, hugeDown x.1 ∉ s.blocks

/-- **The creator is disturbed exactly by the chunks that are shared.** -/
theorem Child.undisturbed (ht : Child s s₁ p c pdp C t) (h : Creator s.phys p) (hr : Ready s p)
    (hcl : Cloned s.phys s₁ p c pdp pd) (hfree : FreeUnmapped s p) :
    Undisturbed s p t ↔ ∀ va, C va → ¬ Shares s.phys.mem p va := by
  constructor
  · intro hu va hC hva
    obtain ⟨b, hb, hl⟩ := ht.leaf va hC
    have hheap := hr.heap b hb
    rw [← ht.family.leaf_shared hcl h hva] at hl
    have hfst : (translate t.phys.mem p va).map Prod.fst = some (b + va % 2 ^ 21) := by
      rw [translate_fst_leaf, hl, Option.bind_some, leafVal_hugeEntry hheap.aligned hheap.low]
    rw [hu va] at hfst
    obtain ⟨x, hx, hx1⟩ := Option.map_eq_some_iff.mp hfst
    have hdown : hugeDown x.1 = b := by
      have hal := hheap.aligned
      rw [hx1, hugeDown]
      omega
    exact hfree va hva x hx (hdown ▸ hb)
  · intro hC va
    have hsame := (ht.kept hC).sameTables hr
    rw [translate_eq_walkFrom, translate_eq_walkFrom]
    exact Radix.look_congr fun l x hv => hsame.get_eq h.root l x _ hv.reach

end Child

/-! ### ELF images -/

namespace Image

/-- The chunks that `elf64_load_into_pml4` maps. -/
def ElfChunk (img : Image) (va : ℕ) : Prop :=
  ∃ i < img.ePhnum, img.pType (img.phdrOff i) = ptLoad ∧
    va ∈ (img.segment img.base (img.phdrOff i)).chunks

end Image

section Elf

variable {s t t' : Load} {s₁ : Phys} {img : Image} {p c pdp pd va b : ℕ} {C C' : ℕ → Prop}

/-- An entry of `mapped`: its block was free, and its chunk is at such a block. -/
structure Entered (s : Load) (c : ℕ) (t : Load) (e : ℕ) : Prop where
  owned : Owned t c (e % 2 ^ 32)
  free : e % 2 ^ 32 ∈ s.blocks
  leaf : ∀ va, va / 2 ^ 21 = e / 2 ^ 32 →
    ∃ b ∈ s.blocks, leaf t.phys.mem c va = some (1, hugeEntry b)

theorem mappedEntry_cut (tag raw : ℕ) (hr : raw < 2 ^ 32) :
    mappedEntry tag raw / 2 ^ 32 = tag % 2 ^ 32 ∧ mappedEntry tag raw % 2 ^ 32 = raw := by
  have hcut : mappedEntry tag raw = mappedEntry (tag % 2 ^ 32) raw := by
    have hshift : tag * 2 ^ 32 % 2 ^ 64 = tag % 2 ^ 32 * 2 ^ 32 % 2 ^ 64 := by omega
    rw [mappedEntry, mappedEntry, hshift]
  rw [hcut, mappedEntry_eq (Nat.mod_lt _ (by simp)) hr]
  omega

theorem findMapped_mem {mapped : List ℕ} {tag x : ℕ}
    (h : (findMapped mapped tag).filter (· ≠ 0) = some x) :
    ∃ e ∈ mapped, e / 2 ^ 32 = tag ∧ e % 2 ^ 32 = x := by
  obtain ⟨hx, -⟩ := Option.filter_eq_some_iff.mp h
  obtain ⟨e, he, rfl⟩ := Option.map_eq_some_iff.mp hx
  exact ⟨e, mem_of_find?_eq_some he, by simpa using find?_some he, rfl⟩

/-- `Child` with the table `mapped` of the ELF loader. -/
structure ElfChild (s : Load) (s₁ : Phys) (p c pdp : ℕ) (C : ℕ → Prop) (t : Load) : Prop
    extends Child s s₁ p c pdp C t where
  mapped : ∀ e ∈ t.mapped, Entered s c t e

section

variable (ht : ElfChild s s₁ p c pdp C t)

include ht

theorem ElfChild.congr (hC : ∀ x, C' x ↔ C x) :
    ElfChild s s₁ p c pdp C' t :=
  ⟨ht.toChild.congr hC rfl rfl, ht.mapped⟩

theorem ElfChild.note (off n : ℕ) :
    ElfChild s s₁ p c pdp C (t.note off n) := by
  refine ⟨ht.toChild.congr (fun _ => Iff.rfl) rfl rfl, fun e he => ?_⟩
  obtain ⟨ho, hf, hl⟩ := ht.mapped e he
  exact ⟨⟨ho.heap, ho.apart, ho.fresh⟩, hf, hl⟩

variable (h : Creator s.phys p) (hr : Ready s p) (hcl : Cloned s.phys s₁ p c pdp pd)

include h hr hcl

theorem ElfChild.copyChunk (hle : hugeDown g.dst ≤ va) (hb : Owned t c b)
    (hmem : b ∈ s.blocks) :
    ElfChild s s₁ p c pdp C (copyChunk img g va b t) := by
  unfold Loader.copyChunk
  split
  · have hm : ∀ x, hugeDown x ≠ b → t.phys.mem.blit (b + g.dstOff va) (g.copied va)
        (fun j => img.byte ((g.offset + g.chunkOff va) % 2 ^ 64 + j)) x = t.phys.mem x := by
      intro x hx
      refine Mem.blit_apply_of_not_mem ?_
      by_contra hn
      refine hx ?_
      have hal := hb.heap.aligned
      have hin := g.dstOff_add_copied_le hle
      unfold hugeDown
      omega
    obtain ⟨-, hsame⟩ := ht.ready.setMem hb hm
    refine ⟨ht.toChild.write h hr hcl hb hmem hm rfl rfl, fun e he => ?_⟩
    obtain ⟨ho, hf, hl⟩ := ht.mapped e he
    have ho' := ho.setMem ht.ready hb hm
    refine ⟨⟨ho'.heap, ho'.apart, ho'.fresh⟩, hf, fun va' hva => ?_⟩
    obtain ⟨b', hb', hl'⟩ := hl va' hva
    exact ⟨b', hb', (hsame.leaf ht.ready.space.root va').trans hl'⟩
  · exact ht

theorem ElfChild.newChunk (hok : newChunk c va t = (some b, t')) :
    ElfChild s s₁ p c pdp (fun x => C x ∨ x = va) t' ∧ Owned t' c b ∧ b ∈ s.blocks := by
  unfold Loader.newChunk at hok
  generalize hmap : t.mapBlock map2mbEnsure c va = y at hok
  obtain ⟨_ | b', t₁⟩ := y
  · cases congrArg Prod.fst hok
  obtain ⟨hb, rfl⟩ := Prod.mk.inj hok
  obtain rfl := Option.some.inj hb
  obtain ⟨hg, hmem, hch⟩ := ht.toChild.given h hr hcl maps_ensure hmap
  have hown : ∀ {x}, Owned t₁ c x →
      Owned { t₁ with mapped := t₁.mapped ++ [mappedEntry (va / 2 ^ 21) b'] } c x := fun ho =>
    ⟨ho.heap, ho.apart, ho.fresh⟩
  refine ⟨⟨hch.congr (fun _ => Iff.rfl) rfl rfl, fun e he => ?_⟩, hown hg.owned, hmem⟩
  rcases mem_append.mp he with he | he
  · rw [hg.mapped] at he
    obtain ⟨ho, hf, hl⟩ := ht.mapped e he
    refine ⟨hown (hg.keep _ ho).1, hf, fun va' hva => ?_⟩
    by_cases hx : chunkNo va' = chunkNo va
    · exact ⟨b', hmem, hg.leaf_self va' hx⟩
    · obtain ⟨b0, hb0, hl'⟩ := hl va' hva
      exact ⟨b0, hb0, (hg.leaf_of_ne va' hx).trans hl'⟩
  obtain rfl := mem_singleton.mp he
  have hup := hg.owned.heap.upper
  obtain ⟨hdiv, hmod⟩ := mappedEntry_cut (va / 2 ^ 21) b' (by omega)
  refine ⟨by rw [hmod]; exact hown hg.owned, by rw [hmod]; exact hmem, fun va' hva => ?_⟩
  refine ⟨b', hmem, hg.leaf_self va' ?_⟩
  rw [hdiv] at hva
  rw [chunkNo, chunkNo, hva]
  omega

/-- **One chunk of a segment.** -/
theorem ElfChild.loadChunk (hle : hugeDown g.dst ≤ va)
    (hok : (loadChunk img c g va t).1) :
    ElfChild s s₁ p c pdp (fun x => C x ∨ x = va) (loadChunk img c g va t).2 := by
  unfold Loader.loadChunk at hok ⊢
  split at hok
  · next b hb =>
    obtain ⟨e, he, htag, rfl⟩ := findMapped_mem hb
    obtain ⟨ho, hf, hl⟩ := ht.mapped e he
    have hadd : ElfChild s s₁ p c pdp (fun x => C x ∨ x = va) t := by
      refine ⟨⟨ht.ready, ht.family, ht.blocks, fun x hx => ?_,
        fun hC => ht.kept fun x hx => hC x (.inl hx)⟩, ht.mapped⟩
      rcases hx with hx | rfl
      · exact ht.leaf x hx
      · exact hl x htag.symm
    exact hadd.copyChunk h hr hcl hle ho hf
  · split at hok
    · cases hok
    · next b t' hn =>
      obtain ⟨ht', ho, hf⟩ := ht.newChunk h hr hcl hn
      exact ht'.copyChunk h hr hcl hle ho hf

/-- **One segment.** -/
theorem ElfChild.segment (hok : (tryLoop (Loader.loadChunk img c g) g.chunks t).1) :
    ElfChild s s₁ p c pdp (fun x => C x ∨ x ∈ g.chunks)
      (tryLoop (Loader.loadChunk img c g) g.chunks t).2 := by
  refine tryLoop_induct (fun l1 t => ElfChild s s₁ p c pdp (fun x => C x ∨ x ∈ l1) t) ?_ ?_ hok
  · exact ht.congr fun x => or_iff_left not_mem_nil
  · intro l1 va l2 t' hl ht' hokc
    have hva : va ∈ g.chunks := by rw [hl]; exact mem_append_right _ mem_cons_self
    refine (ht'.loadChunk h hr hcl (mem_chunks.mp hva).2.1 hokc).congr fun x => ?_
    rw [mem_append, mem_singleton, or_assoc]

end

/-- **All program headers.** -/
theorem ElfChild.loadPhdrs (ht : Child s s₁ p c pdp (fun _ => False) t) (h : Creator s.phys p)
    (hr : Ready s p) (hcl : Cloned s.phys s₁ p c pdp pd)
    (hok : (loadPhdrs img c img.base t).1) :
    ElfChild s s₁ p c pdp img.ElfChunk (Loader.loadPhdrs img c img.base t).2 := by
  have hall := tryLoop_induct (fun l1 t => ElfChild s s₁ p c pdp
    (fun x => ∃ i ∈ l1, img.pType (img.phdrOff i) = ptLoad ∧
      x ∈ (img.segment img.base (img.phdrOff i)).chunks) t) ?_ ?_ hok
  · refine hall.congr fun x => ?_
    simp only [Image.ElfChunk, mem_range]
  · refine ⟨ht.congr (fun x => ?_) rfl rfl, fun e he => absurd he not_mem_nil⟩
    simp only [not_mem_nil, false_and, exists_false]
  intro l1 i l2 t' hl ht' hoki
  have hsplit : ∀ x, (∃ j ∈ l1 ++ [i], img.pType (img.phdrOff j) = ptLoad ∧
      x ∈ (img.segment img.base (img.phdrOff j)).chunks) ↔
      (∃ j ∈ l1, img.pType (img.phdrOff j) = ptLoad ∧
        x ∈ (img.segment img.base (img.phdrOff j)).chunks) ∨
      img.pType (img.phdrOff i) = ptLoad ∧
        x ∈ (img.segment img.base (img.phdrOff i)).chunks := by
    intro x
    simp only [mem_append, mem_singleton, or_and_right, exists_or, exists_eq_left]
  unfold loadPhdr at hoki ⊢
  dsimp only at hoki ⊢
  split at hoki
  · cases hoki
  next hfit =>
  rw [if_neg hfit]
  split at hoki
  · next htype =>
    rw [if_pos htype]
    refine (ht'.note _ _).congr fun x => (hsplit x).trans (or_iff_left fun hx => htype hx.1)
  next htype =>
  rw [if_neg htype]
  refine ((ht'.note _ _).segment h hr hcl hoki).congr fun x => (hsplit x).trans ?_
  rw [and_iff_right (not_not.mp htype)]

end Elf

/-! ### Mach-O images -/

namespace Image

/-- The chunks of the segment of command `i`. -/
def segChunks (img : Image) (i : ℕ) : List ℕ :=
  chunks (img.vmaddr (img.cmdOff i)) (img.vmsize (img.cmdOff i))

/-- The chunks that `mach_o_load_into_pml4` maps. -/
def MachChunk (img : Image) (va : ℕ) : Prop := ∃ i, img.IsLoaded i ∧ va ∈ img.segChunks i

/-- The file part of a segment ends in the chunk where the segment begins. -/
def NoSpill (img : Image) : Prop :=
  ∀ i, img.IsLoaded i → hugeDown (img.vmaddr (img.cmdOff i)) ∈ img.segChunks i →
    img.vmaddr (img.cmdOff i) % 2 ^ 21 + img.filesize (img.cmdOff i) ≤ 2 ^ 21

end Image

section MachO

variable {s t t' : Load} {s₁ : Phys} {img : Image} {p c pdp pd va b i k dst : ℕ} {C C' : ℕ → Prop}
  {x : MachO}

theorem Child.note (ht : Child s s₁ p c pdp C t) (off n : ℕ) :
    Child s s₁ p c pdp C (t.note off n) :=
  ht.congr (fun _ => Iff.rfl) rfl rfl

section

variable (h : Creator s.phys p) (hr : Ready s p) (hcl : Cloned s.phys s₁ p c pdp pd)

include h hr hcl

/-- **One chunk of a segment.** -/
theorem Child.machChunk (ht : Child s s₁ p c pdp C t)
    (hsp : va = hugeDown dst → dst % 2 ^ 21 + img.filesize k ≤ 2 ^ 21)
    (hok : (machChunk img c k dst va t).1) :
    Child s s₁ p c pdp (fun y => C y ∨ y = va) (machChunk img c k dst va t).2 := by
  unfold Loader.machChunk at hok ⊢
  generalize hmap : t.mapBlock map2mbInPml4 c va = y at hok ⊢
  obtain ⟨_ | b, t₁⟩ := y
  · cases hok
  obtain ⟨hg, hmem, ht1⟩ := ht.given h hr hcl maps_in_pml4 hmap
  dsimp only
  split
  · next hfirst =>
    have hown : Owned (t₁.note (k + 40) 8) c b := ⟨hg.owned.heap, hg.owned.apart, hg.owned.fresh⟩
    refine (ht1.note (k + 40) 8).write h hr hcl hown hmem (fun x hx => ?_) rfl rfl
    refine Mem.blit_apply_of_not_mem ?_
    by_contra hn
    refine hx ?_
    have hal := hg.owned.heap.aligned
    unfold hugeDown
    omega
  · exact ht1

/-- **One segment.** -/
theorem Child.loadSegment (ht : Child s s₁ p c pdp C t)
    (hsp : hugeDown (img.vmaddr k) ∈ chunks (img.vmaddr k) (img.vmsize k) →
      img.vmaddr k % 2 ^ 21 + img.filesize k ≤ 2 ^ 21)
    (hok : (loadSegment img c k t).1) :
    Child s s₁ p c pdp (fun y => C y ∨ y ∈ chunks (img.vmaddr k) (img.vmsize k))
      (loadSegment img c k t).2 := by
  refine tryLoop_induct (fun l1 t => Child s s₁ p c pdp (fun y => C y ∨ y ∈ l1) t) ?_ ?_ hok
  · exact ht.congr (fun y => or_iff_left not_mem_nil) rfl rfl
  · intro l1 va l2 t' hl ht' hokc
    have hva : va ∈ chunks (img.vmaddr k) (img.vmsize k) := by
      rw [hl]
      exact mem_append_right _ (.head _)
    refine (ht'.machChunk h hr hcl (fun he => hsp (he ▸ hva)) hokc).congr (fun y => ?_) rfl rfl
    rw [mem_append, mem_singleton, or_assoc]

/-- **One command.** -/
theorem Child.machCommand (ht : Child s s₁ p c pdp C x.load) (hat : x.At img i) (hi : i < img.ncmds)
    (hns : img.NoSpill) (hok : (machCommand img c x).1) :
    (machCommand img c x).2.At img (i + 1) ∧
      Child s s₁ p c pdp (fun y => C y ∨ img.IsLoaded i ∧ y ∈ img.segChunks i)
        (machCommand img c x).2.load := by
  have hcmd := hat.cmds
  rcases machCommand_cases hat hok with ⟨y, he, haty, hsame, hno⟩ |
    ⟨y, t, he, haty, hphys, hblocks, hload, hy, hseg, hf⟩
  · rw [he]
    refine ⟨haty.next, ht.congr (fun z => or_iff_left fun hz => ?_) hsame.phys hsame.blocks⟩
    obtain ⟨⟨-, hseg⟩, hf⟩ := hz.1
    rw [← hcmd] at hseg hf
    exact hf (hno hseg)
  rw [he]
  refine ⟨haty.next, ?_⟩
  have hloaded : img.IsLoaded i := by
    rw [hcmd] at hseg hf
    exact ⟨⟨hi, hseg⟩, hf⟩
  have hsp := hns i hloaded
  have hcha := (ht.congr (fun _ => Iff.rfl) hphys hblocks).loadSegment h hr hcl (k := x.cmds)
    (by rw [hcmd]; exact hsp) hload
  rw [← hy] at hcha
  refine (hcha.note (y.cmds + 4) 4).congr (fun z => ?_) rfl rfl
  rw [Image.segChunks, hcmd]
  exact or_congr_right (and_iff_right hloaded)

/-- **All commands.** -/
theorem Child.machCommands (ht : Child s s₁ p c pdp (fun _ => False) t) (hns : img.NoSpill)
    (hok : (machCommands img t c).1) :
    Child s s₁ p c pdp img.MachChunk (machCommands img t c).2.load := by
  have hall := tryLoop_induct (fun l1 (x : MachO) => x.At img l1.length ∧ Child s s₁ p c pdp
    (fun y => ∃ i < l1.length, img.IsLoaded i ∧ y ∈ img.segChunks i) x.load) ?_ ?_ hok
  · refine hall.2.congr (fun y => ?_) rfl rfl
    rw [length_range]
    exact ⟨fun ⟨i, hi, hy⟩ => ⟨i, hi.1.1, hi, hy⟩, fun ⟨i, _, hi, hy⟩ => ⟨i, hi, hy⟩⟩
  · refine ⟨⟨rfl, rfl, by norm_num [machStart]⟩, ht.congr (fun y => ?_) rfl rfl⟩
    simp only [length_nil, Nat.not_lt_zero, false_and, exists_false]
  rintro l1 a l2 x hl ⟨hat, hx⟩ hokx
  have hi : l1.length < img.ncmds := by
    have hlen := congrArg List.length hl
    rw [length_range, length_append, length_cons] at hlen
    omega
  obtain ⟨hat', hx'⟩ := hx.machCommand h hr hcl hat hi hns hokx
  rw [length_append, length_singleton]
  exact ⟨hat', hx'.congr (fun y => Nat.exists_lt_succ_right) rfl rfl⟩

end

end MachO

/-! ### Starting a program -/

/-- **Starting a program disturbs its creator exactly if a chunk of the image is shared.** -/
theorem start_undisturbed_iff {s : Load} {s₁ : Phys} {p c : ℕ} (h : Creator s.phys p)
    (hr : Ready s p) (hfree : FreeUnmapped s p)
    (hc : cloneIdentityTables s.phys p = (some c, s₁)) (img : Image) :
    ((elf64LoadIntoPml4 img { s with phys := s₁ } c).1 ≠ 0 →
      (Undisturbed s p (elf64LoadIntoPml4 img { s with phys := s₁ } c).2 ↔
        ∀ va, img.ElfChunk va → ¬ Shares s.phys.mem p va)) ∧
    ((machOLoadIntoPml4 img { s with phys := s₁ } c).1 ≠ 0 → img.NoSpill →
      (Undisturbed s p (machOLoadIntoPml4 img { s with phys := s₁ } c).2 ↔
        ∀ va, img.MachChunk va → ¬ Shares s.phys.mem p va)) := by
  obtain ⟨pdp, pd, hcl⟩ := cloned_of_clone h hc
  have hinit := Child.init h hr hcl
  constructor
  · intro hok
    obtain ⟨-, hload, hres⟩ := elf64LoadIntoPml4_ok hok
    rw [hres]
    exact (ElfChild.loadPhdrs (hinit.note 0 ehdrSize) h hr hcl hload).toChild.undisturbed h hr hcl
      hfree
  · intro hok hns
    obtain ⟨hload, hres⟩ := machOLoadIntoPml4_ok hok
    rw [hres]
    exact (hinit.machCommands h hr hcl hns hload).undisturbed h hr hcl hfree

/-- A kernel without programs, and a free block. -/
def startLoad : Load := ⟨smallCreator, [0xA00000], [], []⟩

theorem startLoad_ready : Ready startLoad 0x1000 where
  space := smallTree_space (by decide) (by decide)
  nodup := pairwise_singleton _ _
  heap := smallLoad_ready.heap
  apart b hb := ⟨(smallLoad_ready.apart b hb).table, by
    obtain rfl := mem_singleton.mp hb
    decide⟩

theorem startLoad_unmapped : FreeUnmapped startLoad 0x1000 := by
  intro va hva x hx
  have hnone : Paging.translate smallTree 0x1000 va = none := by
    rcases hva with h4 | ⟨h3, hp⟩
    · rw [Paging.translate, smallTree_above 0x1000 (by simp) _ (pml4Idx_lt va) h4]
      rfl
    · change isPresent (entry smallTree (pdptOf smallTree 0x1000) (pdptIdx va)) = true at hp
      rw [pdptOf_smallTree, smallTree_above 0x2000 (by simp) _ (pdptIdx_lt va) h3] at hp
      cases hp
  cases hnone.symm.trans hx

theorem startLoad_four : ¬ Shares smallTree 0x1000 0x400000 := by
  rintro (h4 | ⟨h3, -⟩)
  · exact h4 (by decide)
  · exact h3 (by decide)

/-- A Mach-O image with one segment: 8 bytes of the file at `0x400000`. -/
def tinyMachO : Image where
  len := 128
  bytes :=
    let m : Mem := fun _ => 0
    let m := (m.store 0 4 mhMagic64).store 16 4 2
    let m := (m.store 32 4 lcSegment64).store 36 4 72
    let m := (m.store 56 8 0x400000).store 64 8 8
    let m := (m.store 72 8 120).store 80 8 8
    let m := (m.store 104 4 lcMain).store 108 4 24
    m.store 120 8 0x1122334455667788

theorem tinyMachO_loaded {i : ℕ} (h : tinyMachO.IsLoaded i) : i = 0 := by
  have hn : tinyMachO.ncmds = 2 := by decide +kernel
  have hi := h.1.1
  have h1 : i ≠ 1 := by
    intro hi1
    have hcmd := h.1.2
    rw [hi1] at hcmd
    cases hcmd
  omega

theorem start_undisturbed_iff_smallCreator :
    Undisturbed startLoad 0x1000
      (elf64LoadIntoPml4 tinyElf
        { startLoad with phys := (cloneIdentityTables smallCreator 0x1000).2 } 0x8000).2 ∧
    Undisturbed startLoad 0x1000
      (machOLoadIntoPml4 tinyMachO
        { startLoad with phys := (cloneIdentityTables smallCreator 0x1000).2 } 0x8000).2 := by
  have hstart := start_undisturbed_iff (s := startLoad) (p := 0x1000)
    (smallTree_creator (by decide) (by decide)) startLoad_ready startLoad_unmapped
    (show cloneIdentityTables smallCreator 0x1000 = (some 0x8000, _) from rfl)
  refine ⟨((hstart tinyElf).1 (by decide +kernel)).mpr ?_,
    ((hstart tinyMachO).2 (by decide +kernel) ?_).mpr ?_⟩
  · rintro va ⟨i, hi, htype, hva⟩
    have hi0 : i = 0 := by
      have hn : tinyElf.ePhnum = 1 := by decide +kernel
      omega
    have hchunks : (tinyElf.segment tinyElf.base (tinyElf.phdrOff 0)).chunks = [0x400000] := by
      decide +kernel
    rw [hi0, hchunks, mem_singleton] at hva
    rw [hva]
    exact startLoad_four
  · intro i hi _
    rw [tinyMachO_loaded hi]
    decide +kernel
  · rintro va ⟨i, hi, hva⟩
    have hchunks : tinyMachO.segChunks 0 = [0x400000] := by decide +kernel
    rw [tinyMachO_loaded hi, hchunks, mem_singleton] at hva
    rw [hva]
    exact startLoad_four

/-- A position-independent image: 8 bytes of the file at `pieBase`. -/
def tinyPie : Image := { tinyElf with bytes := (Mem.store tinyElf.bytes 16 2 etDyn).store 80 8 0 }

/-- **A program replaces a page of its creator**: both are loaded at 1 GB. -/
theorem pie_replaces_pie :
    (cloneIdentityTables pieCreator 0x1000).1 = some 0x9000 ∧
    (elf64LoadIntoPml4 tinyPie
      ⟨(cloneIdentityTables pieCreator 0x1000).2, [0xC00000], [], []⟩ 0x9000).1 ≠ 0 ∧
    (Paging.translate pieCreator.mem 0x1000 0x40000000).map Prod.fst = some 0xA00000 ∧
    (Paging.translate (elf64LoadIntoPml4 tinyPie
      ⟨(cloneIdentityTables pieCreator 0x1000).2, [0xC00000], [], []⟩ 0x9000).2.phys.mem
      0x1000 0x40000000).map Prod.fst = some 0xC00000 := by
  decide +kernel

/-- **`elf64_load_at` at the base of a PIE is `elf64_load_into_pml4`**, when the header passes the
checks of the latter. -/
theorem loadAt_pieBase (img : Image) (s : Load) (pml4 : ℕ) (ht : img.eType = etDyn)
    (hs : img.ePhentsize = phdrSize) (hn : img.ePhnum ≠ 0) :
    elf64LoadAt img s pml4 pieBase = elf64LoadIntoPml4 img s pml4 := by
  rw [elf64LoadAt_eq]
  unfold elf64LoadIntoPml4
  simp only [ht, hs, if_neg hn, ne_eq, not_true_eq_false, if_false, if_true]

theorem loadAt_pieBase_tinyPie : (elf64LoadAt tinyPie smallLoad 0x1000 pieBase).1 = 0x40400000 := by
  rw [loadAt_pieBase tinyPie smallLoad 0x1000 (by decide +kernel) (by decide +kernel)
    (by decide +kernel)]
  decide +kernel

end TipOS.Loader
