import TipOS.Memory.KmallocRuns

/-!
# Callers that store what they like

The runs of `KmallocRuns` keep `SLAB_MAGIC` out of the first word of the page-level blocks and
sizes below the heap.  Here the callers store any bytes in their blocks and ask for any
64-bit size; the one call that is left out is the `kfree` of a page-level block that starts
with `SLAB_MAGIC`, which takes the block for a slab.

The invariant is the one of `KmallocInv` with every page-level block of a caller held apart
(`CallerOk`): nothing is known of its bytes.  On it stand

* `caller_blocks`: the blocks of the callers never overlap, whatever is stored in them;
* `kfree_returns_iff`: `kfree` gives a page-level block back when, and only when, its first
  word is not `SLAB_MAGIC`.
-/

namespace TipOS.Memory

open Function Lib List Nat Mem KHeld

variable {s : KState} {x : ℕ}

/-! ### Runs -/

/-- One call, or one write of a caller into a block it holds. -/
inductive CallerStep : KState → KState → Prop
  | kmalloc (s : KState) (size : ℕ) (hsize : size < 2 ^ 64) :
      CallerStep s ⟨(kmalloc s.heap size).2,
        ((kmalloc s.heap size).1.map (KHeld.mk · size false)).toList ++ s.held⟩
  | kfree (s : KState) (b : KHeld) (hb : b ∈ s.held) (hm : b.mapped = false)
      (hfirst : b.isPage = true → s.heap.magic b.addr ≠ slabMagic) :
      CallerStep s ⟨kfree s.heap b.addr, s.held.erase b⟩
  | mmap (s : KState) (size : ℕ) (hsize : size < 2 ^ 64) :
      CallerStep s ⟨(mmapUser s.heap size).2,
        ((mmapUser s.heap size).1.map (KHeld.mk · size true)).toList ++ s.held⟩
  | munmap (s : KState) (b : KHeld) (hb : b ∈ s.held) (hm : b.mapped = true) :
      CallerStep s ⟨(munmapUser s.heap b.addr).2, s.held.erase b⟩
  | write (s : KState) (b : KHeld) (hb : b ∈ s.held) (m : Mem)
      (hm : ∀ x, m x ≠ s.heap.mem x → b.addr ≤ x ∧ x < b.addr + b.cap) :
      CallerStep s ⟨{ s.heap with mem := m }, s.held⟩

def CallerRun (h : Heap) (s : KState) : Prop :=
  Relation.ReflTransGen CallerStep ⟨memoryInit h, []⟩ s

/-- The invariant of a run, with the blocks of the callers held apart. -/
def CallerOk (h : Heap) (l : List KHeld) : Prop :=
  KOkWith (callerBlocks l) h [] (callerObjects l)

section Moves

variable {h : Heap} {X P : List HeldBlock} {O : ℕ → List ℕ} {b : HeldBlock} {l l' : List KHeld}

theorem KOkWith.fly (hk : KOkWith X h (b :: P) O) : KOkWith (b :: X) h P O := by
  obtain ⟨B, L, S, F, hk⟩ := hk
  exact ⟨B, L, S, F, hk.fly⟩

theorem KOkWith.land (hk : KOkWith (b :: X) h P O)
    (hb : b.user = false → h.magic b.addr ≠ slabMagic) : KOkWith X h (b :: P) O := by
  obtain ⟨B, L, S, F, hk⟩ := hk
  exact ⟨B, L, S, F, hk.land hb⟩

theorem CallerOk.held_perm (hk : CallerOk h l) (hl : l'.Perm l) : CallerOk h l' := by
  obtain ⟨B, L, S, F, hk⟩ := hk
  refine ⟨B, L, S, F, KInv.permFlying (X := callerBlocks l) ?_ ((hl.filter _).map _)⟩
  exact hk.perm (List.Perm.refl _) (fun _ => (hl.filter _).map _)

theorem CallerOk.cons_page {b : KHeld} (hp : b.isPage) :
    CallerOk h (b :: l) ↔ KOkWith (b.block :: callerBlocks l) h [] (callerObjects l) := by
  unfold CallerOk
  rw [callerBlocks_cons, callerObjects_cons, if_pos hp, if_pos hp]

theorem CallerOk.cons_object {b : KHeld} (hp : b.isPage = false) :
    CallerOk h (b :: l) ↔ KOkWith (callerBlocks l) h [] (update (callerObjects l)
      (cacheIndex b.size) (b.addr :: callerObjects l (cacheIndex b.size))) := by
  unfold CallerOk
  rw [callerBlocks_cons, callerObjects_cons, hp]
  rfl

end Moves

/-- **Every step keeps the invariant.** -/
theorem CallerOk.step {s' : KState} (hok : CallerOk s.heap s.held) (hs : CallerStep s s') :
    CallerOk s'.heap s'.held := by
  cases hs with
  | kmalloc size hsize =>
    rcases kmalloc_ok hok size with ⟨h1, hk⟩ | ⟨a, h1, hk⟩
    · rw [h1]
      exact hk
    rw [h1]
    show CallerOk _ (KHeld.mk a size false :: s.held)
    by_cases hbig : 2048 ≤ size
    · rw [if_pos hbig] at hk
      rw [CallerOk.cons_page (by simp [KHeld.isPage, hbig]), KHeld.block, order_eq]
      exact hk.fly
    · rw [if_neg hbig] at hk
      rw [CallerOk.cons_object (by simp [KHeld.isPage, hbig])]
      exact hk
  | kfree b hb hm hfirst =>
    have hk := hok.held_perm (perm_cons_erase hb).symm
    cases hp : b.isPage with
    | true =>
      rw [CallerOk.cons_page hp] at hk
      exact kfree_block_ok (hk.land (fun _ => hfirst hp)) hm
    | false =>
      rw [CallerOk.cons_object hp] at hk
      have hi := (cacheIndex_spec (not_isPage hp).2).1
      have hres := kfree_object_ok hk hi (update_self _ _ _)
      rw [update_idem, update_eq_self] at hres
      exact hres
  | mmap size hsize =>
    rcases mmapUser_ok hok size with ⟨h1, hk⟩ | ⟨p, h1, hk⟩
    · rw [h1]
      exact hk
    rw [h1]
    show CallerOk _ (KHeld.mk p size true :: s.held)
    rw [CallerOk.cons_page rfl]
    exact hk.fly
  | munmap b hb hm =>
    have hk := hok.held_perm (perm_cons_erase hb).symm
    rw [CallerOk.cons_page (by simp [KHeld.isPage, hm])] at hk
    refine munmapUser_ok (hk.land (fun hu => ?_))
    rw [KHeld.block, hm] at hu
    cases hu
  | write b hb m hm =>
    have hk := hok.held_perm (perm_cons_erase hb).symm
    refine CallerOk.held_perm (l := b :: s.held.erase b) ?_ (perm_cons_erase hb)
    unfold KHeld.cap at hm
    cases hp : b.isPage with
    | true =>
      rw [hp] at hm
      rw [CallerOk.cons_page hp] at hk ⊢
      obtain ⟨B, L, S, F, hk⟩ := hk
      exact ⟨B, L, S, F, hk.writeFlying hm⟩
    | false =>
      rw [hp] at hm
      rw [CallerOk.cons_object hp] at hk ⊢
      obtain ⟨B, L, S, F, hk⟩ := hk
      exact ⟨B, L, S, F, hk.writeObject (cacheIndex_spec (not_isPage hp).2).1 (by simp) hm⟩

/-- **The invariant holds along every run.** -/
theorem callerOk_of_run {h : Heap} (hr : CallerRun h s) : CallerOk s.heap s.held := by
  induction hr with
  | refl => exact kOk_init h
  | tail _ hs ih => exact ih.step hs

/-- **The blocks of the callers never overlap**, whatever is stored in them. -/
theorem caller_blocks {h : Heap} (hr : CallerRun h s) :
    s.held.Pairwise (fun b c => Apart b.addr b.cap c.addr c.cap) ∧
    ∀ b ∈ s.held, heapPhys ≤ b.addr ∧ b.addr + b.cap ≤ heapPhys + heapSize ∧
      (∀ t, IsSlab s.heap t → Apart b.addr b.cap t slabHeaderSize) ∧
      (∀ o k, FreeBlock s.heap o k → Apart b.addr b.cap (blkAddr o k) (4096 * 2 ^ o)) := by
  have hok := callerOk_of_run hr
  refine ⟨pairwise_of_perm (fun b c rest hp => ?_), fun b hb => ?_⟩
  · obtain ⟨B, L, S, F, hk⟩ := hok.held_perm hp.symm
    exact hk.apart (append_nil _)
  · obtain ⟨B, L, S, F, hk⟩ := hok
    exact hk.held_apart (append_nil _) hb

/-! ### Free bytes -/

/-- A byte of a page of the pool, or of a block on a free list. -/
def FreeByte (h : Heap) (x : ℕ) : Prop :=
  (∃ p ∈ h.pcpuPages, p ≤ x ∧ x < p + 4096) ∨ ∃ o k, FreeBlock h o k ∧ BlockByte o k x

/-- A byte of the block `d`. -/
def HeldBlock.HasByte (d : HeldBlock) (x : ℕ) : Prop := d.addr ≤ x ∧ x < d.addr + 4096 * 2 ^ d.order

theorem FrameByte.blockByte {f : ℕ} (h : FrameByte f x) (o : ℕ) : BlockByte o (f / 2 ^ o) x := by
  unfold FrameByte at h
  unfold BlockByte blkAddr
  rw [frameToAddr_eq] at h ⊢
  have h1 := div_mul_le_self f (2 ^ o)
  have h2 := Nat.lt_mul_div_succ f (Nat.two_pow_pos o)
  rw [mul_comm, add_mul, one_mul] at h2
  constructor <;> omega

theorem exists_frameByte (h1 : heapPhys ≤ x) (h2 : x < heapPhys + heapSize) :
    ∃ f < 2 ^ 14, FrameByte f x := by
  unfold heapPhys at h1 h2
  unfold heapSize at h2
  refine ⟨(x - 0xA00000) / 4096, by omega, ?_⟩
  unfold FrameByte
  rw [frameToAddr_eq]
  constructor <;> omega

section Free

variable {h : Heap} {X P : List HeldBlock} {O : ℕ → List ℕ} {B : FrameBlocks}
  {L S F : ℕ → List ℕ}

/-- **A byte of the heap is free when no caller and no slab has it.** -/
theorem KInv.freeByte_iff (hk : KInv h X P O B L S F) :
    FreeByte h x ↔ (heapPhys ≤ x ∧ x < heapPhys + heapSize) ∧
      ∀ d ∈ X ++ P ++ (slabPages S).map pageBlock, ¬ d.HasByte x := by
  have hsplit : owners X P S h.pcpuPages =
      (X ++ P ++ (slabPages S).map pageBlock) ++ h.pcpuPages.map pageBlock := by
    unfold owners
    rw [map_append, ← append_assoc]
  have hin : ∀ d ∈ X ++ P ++ (slabPages S).map pageBlock, d ∈ owners X P S h.pcpuPages :=
    fun d hd => by rw [hsplit]; exact mem_append_left _ hd
  have hpage : ∀ p, (pageBlock p).HasByte x ↔ p ≤ x ∧ x < p + 4096 := by
    intro p
    show p ≤ x ∧ x < p + 4096 * 2 ^ 0 ↔ _
    rw [pow_zero, mul_one]
  constructor
  · rintro (⟨p, hp, hx⟩ | ⟨o, k, hf, hx⟩)
    · -- a page of the pool is an owner of its own
      have hmem : pageBlock p ∈ h.pcpuPages.map pageBlock := mem_map.mpr ⟨p, hp, rfl⟩
      have hown : pageBlock p ∈ owners X P S h.pcpuPages := by
        rw [hsplit]
        exact mem_append_right _ hmem
      have hbyte := (hpage p).mpr hx
      have hb := hk.frames.bounds hown
      refine ⟨⟨le_trans hb.2.1 hbyte.1, lt_of_lt_of_le hbyte.2 hb.2.2⟩, fun d hd hdx => ?_⟩
      have hnd := hk.frames.nodup
      rw [hsplit] at hnd
      have hne := (nodup_append.mp hnd).2.2 d hd _ hmem
      have hdis := hk.frames.disjoint (hin d hd) hown hne
      unfold HeldBlock.HasByte at hdx hbyte
      omega
    · have hfree := hk.frames.inv.freeBlock_iff.mp hf
      obtain ⟨f, hfk, hfx⟩ := hx.frame
      have hff : B.FreeFrame f := ⟨o, by rw [hfk]; exact hfree⟩
      have hlt := freeFrame_lt hff
      refine ⟨?_, fun d hd hdx => ?_⟩
      · unfold FrameByte at hfx
        rw [frameToAddr_eq] at hfx
        unfold heapPhys heapSize
        omega
      · exact hk.frames.not_free (hin d hd) hdx.1 hdx.2 hff hfx
  · rintro ⟨⟨h1, h2⟩, hno⟩
    obtain ⟨f, hf, hfx⟩ := exists_frameByte h1 h2
    obtain ⟨o, c, hc⟩ := B.exists_cell hf
    have hbyte := hfx.blockByte o
    cases c with
    | free => exact .inr ⟨o, f / 2 ^ o, hk.frames.inv.freeBlock_iff.mpr hc, hbyte⟩
    | used u =>
      have hown : HeldBlock.mk (blkAddr o (f / 2 ^ o)) o u ∈ owners X P S h.pcpuPages :=
        (hk.frames.held_iff _).mpr ⟨_, rfl, hc⟩
      rw [hsplit] at hown
      rcases mem_append.mp hown with hd | hd
      · exact absurd hbyte (hno _ hd)
      obtain ⟨p, hp, he⟩ := mem_map.mp hd
      refine .inl ⟨p, hp, (hpage p).mp ?_⟩
      rw [he]
      exact hbyte

end Free

theorem CallerOk.not_freeByte {h : Heap} {l : List KHeld} (hok : CallerOk h l) {b : KHeld}
    (hb : b ∈ l) (hp : b.isPage) : ¬ FreeByte h b.addr := by
  obtain ⟨B, L, S, F, hk⟩ := hok
  intro hfree
  have hmem : b.block ∈ callerBlocks l := mem_map.mpr ⟨b, mem_filter.mpr ⟨hb, hp⟩, rfl⟩
  refine (hk.freeByte_iff.mp hfree).2 b.block (by simp [hmem]) ⟨le_rfl, ?_⟩
  have := Nat.two_pow_pos b.block.order
  show b.addr < b.addr + 4096 * 2 ^ b.block.order
  omega

/-! ### `kfree` of a page-level block -/

/-- Freeing the block `b` gave exactly its bytes back, to the pool or to the free lists, and
left the slab caches alone: their tables, their per-CPU objects and their pages. -/
structure Returned (h h' : Heap) (b : KHeld) : Prop where
  bytes : ∀ x, FreeByte h' x ↔ FreeByte h x ∨ (b.addr ≤ x ∧ x < b.addr + b.cap)
  caches : h'.kmallocCaches = h.kmallocCaches
  objects : h'.pcpuObjects = h.pcpuObjects
  slabs : ∀ t, IsSlab h t → ∀ x, t ≤ x → x < t + 4096 → h'.mem x = h.mem x

theorem KHeld.cap_page {b : KHeld} (hp : b.isPage) : b.cap = 4096 * 2 ^ b.order := by
  rw [KHeld.cap, if_pos hp]

/-- A block that does not start with `SLAB_MAGIC` is given back. -/
theorem CallerOk.returned {h : Heap} {l : List KHeld} (hok : CallerOk h l) {b : KHeld}
    (hb : b ∈ l) (hm : b.mapped = false) (hp : b.isPage)
    (hfirst : h.magic b.addr ≠ slabMagic) : Returned h (kfree h b.addr) b := by
  have hk := hok.held_perm (perm_cons_erase hb).symm
  rw [CallerOk.cons_page hp] at hk
  obtain ⟨B, L, S, F, hk⟩ := hk
  have hland := hk.land (fun _ => hfirst)
  obtain ⟨B', L', hk', hc, ho, hbytes⟩ := hland.kfree_block hm
  change KInv (kfree h b.addr) _ _ _ _ _ _ _ at hk'
  refine ⟨fun x => ?_, hc, ho, fun t ht x h1 h2 => ?_⟩
  · -- free before and after: by the owners, of which the block is one before
    have hb' : b.block.HasByte x ↔ b.addr ≤ x ∧ x < b.addr + b.cap := by
      rw [cap_page hp]
      rfl
    have hbd := hland.frames.bounds (b := b.block) (by simp [owners])
    have hother : ∀ d ∈ callerBlocks (l.erase b) ++ [] ++ (slabPages S).map pageBlock,
        b.block.HasByte x → ¬ d.HasByte x := by
      intro d hd hx hdx
      have hnd := hk.frames.nodup
      have hd' : d ∈ owners (callerBlocks (l.erase b)) [] S h.pcpuPages := by
        unfold owners
        rw [map_append, ← append_assoc]
        exact mem_append_left _ hd
      have hne : b.block ≠ d := by
        rintro rfl
        exact (nodup_cons.mp hnd).1 hd'
      have hdis := hk.frames.disjoint (b := b.block) (c := d) mem_cons_self
        (.tail _ hd') hne
      unfold HeldBlock.HasByte at hx hdx
      omega
    rw [hk'.freeByte_iff, hk.freeByte_iff, ← hb']
    constructor
    · rintro ⟨hin, hno⟩
      by_cases hx : b.block.HasByte x
      · exact .inr hx
      exact .inl ⟨hin, forall_mem_cons.mpr ⟨hx, hno⟩⟩
    · rintro (⟨hin, hno⟩ | hx)
      · exact ⟨hin, fun d hd => hno d (.tail _ hd)⟩
      · refine ⟨⟨le_trans hbd.2.1 hx.1, lt_of_lt_of_le hx.2 hbd.2.2⟩, fun d hd => hother d hd hx⟩
  · obtain ⟨i, hi, ts, hl, ht⟩ := ht
    rw [hl.unique (hk.slabs.chain i hi)] at ht
    refine hbytes (pageBlock t) (KInv.slab_mem hi ht) x h1 ?_
    show x < t + 4096 * 2 ^ 0
    omega

/-- `SLAB_MAGIC` in front of zeros: a slab of no cache, without objects. -/
def emptySlab (m : Mem) (a : ℕ) : Mem := (m.fill a 64 0).store a 4 slabMagic

section EmptySlab

variable {m : Mem} {a : ℕ}

theorem emptySlab_apply (h : x < a ∨ a + 64 ≤ x) : emptySlab m a x = m x := by
  rw [emptySlab, store_apply_of_not_mem (by omega), fill_apply_of_not_mem h]

theorem load_zero {m : Mem} {a n : ℕ} (h : ∀ x, a ≤ x → x < a + n → m x = 0) : m.load a n = 0 := by
  rw [load_eq_of_bytes n a 0 (fun i hi => by rw [h (a + i) (by omega) (by omega)]; simp)]
  exact zero_mod _

theorem emptySlab_zero (h1 : a + 4 ≤ x) (h2 : x < a + 64) : emptySlab m a x = 0 := by
  rw [emptySlab, store_apply_of_not_mem (by omega), fill_apply_of_mem (by omega) h2]

/-- What `kfree` makes of such a block: it is a slab with an object too many in use. -/
theorem kfree_emptySlab {h : Heap} (hm : h.mem = emptySlab m a) (h0 : a % 4096 = 0)
    (h1 : heapPhys ≤ a) (h2 : a < heapPhys + heapSize) : kfree h a = giveBack h a a := by
  have hs : heapPhys + heapSize ≤ 2 ^ 32 := by decide
  have hpos : 0 < heapPhys := by decide
  have hpb : pageBase a = a := by
    rw [pageBase_eq (by omega)]
    omega
  have hmagic : h.magic a = slabMagic := by
    rw [Heap.magic, hm, emptySlab, load_store]
    rfl
  have hcache : h.cache a = 0 := by
    rw [Heap.cache, hm]
    exact load_zero (fun x hx1 hx2 => emptySlab_zero (by omega) (by omega))
  have hfree : h.freelist a = 0 := by
    rw [Heap.freelist, hm]
    exact load_zero (fun x hx1 hx2 => emptySlab_zero (by omega) (by omega))
  -- the link stored in the "object" is the count of objects in use
  have huse : (giveBack h a a).inUse a = pred32 0 := by
    unfold giveBack
    dsimp only
    rw [Heap.inUse, Heap.write32, load_store]
    have hz : ((h.write64 a (h.freelist a)).write64 (a + 16) a).inUse a = 0 := by
      refine load_zero (fun x hx1 hx2 => ?_)
      change Mem.store (Mem.store h.mem a 8 (h.freelist a)) (a + 16) 8 a x = 0
      rw [store_apply_of_not_mem (by omega), hfree, Mem.store, if_pos (by omega), Nat.zero_div]
      rfl
    rw [hz]
    rfl
  unfold kfree
  rw [if_neg (by omega), if_neg (by omega)]
  rw [hpb, if_pos hmagic, if_neg (by rw [hcache]; exact fun hne => hne rfl)]
  unfold slabFree
  rw [if_neg (by omega)]
  dsimp only
  rw [hpb, if_neg (by rw [hmagic]; exact fun hne => hne rfl), huse]
  rfl

end EmptySlab

theorem CallerOk.not_returned {h : Heap} {l : List KHeld} (hok : CallerOk h l) {b : KHeld}
    (hb : b ∈ l) (hp : b.isPage) {m : Mem} (hmem : h.mem = emptySlab m b.addr) :
    ¬ Returned h (kfree h b.addr) b := by
  have hk := hok.held_perm (perm_cons_erase hb).symm
  rw [CallerOk.cons_page hp] at hk
  obtain ⟨B, L, S, F, hk⟩ := hk
  have hbd := hk.frames.bounds (b := b.block) (by simp [owners])
  have hpow := Nat.two_pow_pos b.order
  have hcap := cap_page hp
  have hend : b.addr + 4096 * 2 ^ b.order ≤ heapPhys + heapSize := hbd.2.2
  rw [kfree_emptySlab hmem hbd.1 hbd.2.1 (by omega)]
  -- the call only wrote into the block, which its holder could have done
  have hafter : CallerOk (giveBack h b.addr b.addr) l := by
    refine CallerOk.step (s := ⟨h, l⟩) hok (CallerStep.write ⟨h, l⟩ b hb
      (giveBack h b.addr b.addr).mem (fun x hx => ?_))
    by_contra hout
    refine hx ((onlyMem_giveBack h b.addr b.addr).mem x (fun hq => hout ?_))
    unfold CountByte at hq
    omega
  intro hret
  exact hafter.not_freeByte hb hp ((hret.bytes b.addr).mpr (.inr ⟨le_rfl, by omega⟩))

/-- **`kfree` of a page-level block tells it from a slab by its first word.**  Whatever else
the caller stored in a block of `kmalloc(size)`, 2048 ≤ size, `kfree` gives exactly the block
back and changes no slab cache, if the first word is not `SLAB_MAGIC`; with `SLAB_MAGIC` there
are contents with which it does not. -/
theorem kfree_returns_iff {h : Heap} {s : KState} (hr : CallerRun h s) {b : KHeld}
    (hb : b ∈ s.held) (hm : b.mapped = false) (hbig : 2048 ≤ b.size) (w : ℕ) :
    (∀ m : Mem, (∀ x, m x ≠ s.heap.mem x → b.addr ≤ x ∧ x < b.addr + b.cap) →
      m.load b.addr 4 = w →
      Returned { s.heap with mem := m } (kfree { s.heap with mem := m } b.addr) b) ↔
    w ≠ slabMagic := by
  have hp : b.isPage = true := by simp [KHeld.isPage, hbig]
  have hpow := Nat.two_pow_pos b.order
  have hcap := cap_page hp
  have hwrite : ∀ m : Mem, (∀ x, m x ≠ s.heap.mem x → b.addr ≤ x ∧ x < b.addr + b.cap) →
      CallerOk { s.heap with mem := m } s.held :=
    fun m hin => (callerOk_of_run hr).step (CallerStep.write s b hb m hin)
  constructor
  · rintro hall rfl
    have hin : ∀ x, emptySlab s.heap.mem b.addr x ≠ s.heap.mem x →
        b.addr ≤ x ∧ x < b.addr + b.cap := by
      intro x hx
      by_contra hout
      exact hx (emptySlab_apply (by omega))
    refine (hwrite _ hin).not_returned hb hp rfl (hall _ hin ?_)
    rw [emptySlab, load_store]
    rfl
  · intro hw m hin hfirst
    refine (hwrite m hin).returned hb hm hp ?_
    rw [Heap.magic, hfirst]
    exact hw

/-- The state after one `kmalloc(5000)`, as a run with any contents. -/
theorem callerRun_oneKmalloc : CallerRun zeroHeap oneKmalloc :=
  Relation.ReflTransGen.single (CallerStep.kmalloc ⟨memoryInit zeroHeap, []⟩ 5000 (by simp))

theorem kfree_returns_iff_oneKmalloc :
    CallerRun zeroHeap oneKmalloc ∧ ∀ w : ℕ,
      (∀ m : Mem, (∀ x, m x ≠ oneKmalloc.heap.mem x → heapPhys ≤ x ∧ x < heapPhys + 8192) →
        m.load heapPhys 4 = w →
        Returned { oneKmalloc.heap with mem := m } (kfree { oneKmalloc.heap with mem := m } heapPhys)
          ⟨heapPhys, 5000, false⟩) ↔ w ≠ slabMagic :=
  ⟨callerRun_oneKmalloc, fun w => kfree_returns_iff callerRun_oneKmalloc
    (b := ⟨heapPhys, 5000, false⟩) (by simp [oneKmalloc]) rfl (by simp) w⟩

/-- `kmalloc(5000)`, `SLAB_MAGIC` and zeros stored in front, `kfree`. -/
theorem kfree_takes_slab :
    CallerRun zeroHeap ⟨{ oneKmalloc.heap with mem := emptySlab oneKmalloc.heap.mem heapPhys },
      oneKmalloc.held⟩ ∧
    ¬ Returned { oneKmalloc.heap with mem := emptySlab oneKmalloc.heap.mem heapPhys }
      (kfree { oneKmalloc.heap with mem := emptySlab oneKmalloc.heap.mem heapPhys } heapPhys)
      ⟨heapPhys, 5000, false⟩ := by
  have hb : (⟨heapPhys, 5000, false⟩ : KHeld) ∈ oneKmalloc.held := by simp [oneKmalloc]
  have hrun : CallerRun zeroHeap ⟨{ oneKmalloc.heap with
      mem := emptySlab oneKmalloc.heap.mem heapPhys }, oneKmalloc.held⟩ := by
    refine callerRun_oneKmalloc.tail (CallerStep.write oneKmalloc _ hb _ (fun x hx => ?_))
    by_contra hout
    have hcap : (⟨heapPhys, 5000, false⟩ : KHeld).cap = 8192 := rfl
    rw [hcap] at hout
    dsimp only at hout
    exact hx (emptySlab_apply (by omega))
  exact ⟨hrun, (callerOk_of_run hrun).not_returned hb rfl rfl⟩

end TipOS.Memory
