import TipOS.Memory.BuddyInv

/-!
# Runs of the frame allocator

`FrameStep` is one call on the frame level: `buddy_alloc` with any order, `buddy_free` of a
block that is held, with its own order, `munmap_user` of any address at all, and
`munmap_all_user`.  `FrameState.held` is not in the code; it records what the calls handed
out and took back.

Every state of a run represents a decomposition of the frames whose used blocks are the
held ones and in which no two free buddies are left apart (`frameInv_of_run`).
`frames_partition` and `frames_coalesce` are read off it.
-/

namespace TipOS.Memory

open Lib List Blocks

variable {o k : ℕ} {h' h : Heap} {B' : FrameBlocks} {L' : ℕ → List ℕ} {u : Bool}
  {l : List HeldBlock} {b c : HeldBlock}

/-! ### Steps -/

structure HeldBlock where
  addr : ℕ
  order : ℕ
  user : Bool
  deriving DecidableEq, Repr

structure FrameState where
  heap : Heap
  held : List HeldBlock

inductive FrameStep : FrameState → FrameState → Prop
  | alloc (s : FrameState) (order : ℤ) (user : Bool) :
      FrameStep s ⟨(buddyAlloc s.heap order user).2,
        ((buddyAlloc s.heap order user).1.map (HeldBlock.mk · order.toNat user)).toList ++ s.held⟩
  | free (s : FrameState) (b : HeldBlock) (hb : b ∈ s.held) :
      FrameStep s ⟨buddyFree s.heap b.addr b.order, s.held.erase b⟩
  | munmap (s : FrameState) (addr : ℕ) :
      FrameStep s ⟨(munmapUser s.heap addr).2, s.held.filter (·.addr ≠ addr)⟩
  | munmapAll (s : FrameState) :
      FrameStep s ⟨munmapAllUser s.heap, s.held.filter (·.user = false)⟩

/-- The states of the runs from `memory_init`, on any memory. -/
def FrameRun (h : Heap) (s : FrameState) : Prop :=
  Relation.ReflTransGen FrameStep ⟨memoryInit h, []⟩ s

/-! ### The invariant of a run -/

/-- The state represents `B`, with the held blocks as its used ones. -/
structure FrameInv (s : FrameState) (B : FrameBlocks) (L : ℕ → List ℕ) : Prop where
  inv : BuddyInv s.heap B L (fun _ => False)
  coalesced : B.Coalesced
  nodup : s.held.Nodup
  held_iff : ∀ b, b ∈ s.held ↔
    ∃ k, b.addr = blkAddr b.order k ∧ B.cell b.order k = some (.used b.user)

namespace FrameInv

variable {s : FrameState} {B : FrameBlocks} {L : ℕ → List ℕ}

theorem eq_of_addr {B : FrameBlocks} {o' k' : ℕ} {c c' : Cell Bool} (h : B.cell o k = some c)
    (h' : B.cell o' k' = some c') (he : blkAddr o k = blkAddr o' k') :
    o = o' ∧ k = k' := eq_of_head h h' (blkAddr_inj he)

theorem alloc (hi : FrameInv s B L) (hb : BuddyInv h' B' L' (fun _ => False))
    (ha : Allocated s.heap B h' B' o k u) :
    FrameInv ⟨h', ⟨blkAddr o k, o, u⟩ :: s.held⟩ B' L' := by
  refine ⟨hb, ha.coalesced hi.coalesced, nodup_cons.mpr ⟨fun hmem => ?_, hi.nodup⟩,
    fun b => ?_⟩
  · obtain ⟨k1, he, hc⟩ := (hi.held_iff _).mp hmem
    -- the block was free, so it was not a held one
    obtain ⟨o2, hf⟩ := ha.was_free (k * 2 ^ o) (mul_two_pow_div k o)
    have hu : B.UsedFrame (k * 2 ^ o) := by
      refine ⟨o, u, ?_⟩
      rw [show k * 2 ^ o = k1 * 2 ^ o from blkAddr_inj he, mul_two_pow_div]
      exact hc
    exact not_freeFrame_of_used hu ⟨o2, hf⟩
  rw [mem_cons, hi.held_iff]
  constructor
  · rintro (rfl | ⟨k1, he, hc⟩)
    · exact ⟨k, rfl, ha.cell⟩
    · exact ⟨k1, he, (ha.used_iff _ _ _).mpr (.inr hc)⟩
  · rintro ⟨k1, he, hc⟩
    rcases (ha.used_iff _ _ _).mp hc with ⟨e1, e2, e3⟩ | hc
    · left
      obtain ⟨a, o1, u1⟩ := b
      dsimp only at he e1 e2 e3
      rw [he, e1, e2, e3]
    · exact .inr ⟨k1, he, hc⟩

theorem release (hi : FrameInv s B L) (hu : B.cell o k = some (.used u))
    (hb : BuddyInv h' B' L' (fun _ => False)) (hf : Freed s.heap B h' B' o k) :
    FrameInv ⟨h', s.held.filter (·.addr ≠ blkAddr o k)⟩ B' L' := by
  refine ⟨hb, hf.coalesced hi.coalesced, hi.nodup.filter _, fun b => ?_⟩
  rw [mem_filter, hi.held_iff, decide_eq_true_eq]
  constructor
  · rintro ⟨⟨k1, he, hc⟩, hne⟩
    refine ⟨k1, he, (hf.used_iff _ _ _).mpr ⟨hc, fun hh => hne ?_⟩⟩
    rw [he, hh.1, hh.2]
  · rintro ⟨k1, he, hc⟩
    obtain ⟨hc, hne⟩ := (hf.used_iff _ _ _).mp hc
    refine ⟨⟨k1, he, hc⟩, fun ha => hne (eq_of_addr hc hu ?_)⟩
    rw [← he, ha]

theorem perm {l' : List HeldBlock} (hi : FrameInv ⟨h, l'⟩ B L) (hl : l.Perm l') :
    FrameInv ⟨h, l⟩ B L :=
  ⟨hi.inv, hi.coalesced, hl.symm.nodup hi.nodup, fun b => by rw [hl.mem_iff]; exact hi.held_iff b⟩

section

variable (hi : FrameInv s B L)

include hi

theorem not_free (hb : b ∈ s.held) {a f : ℕ} (h1 : b.addr ≤ a)
    (h2 : a < b.addr + 4096 * 2 ^ b.order) (hf : B.FreeFrame f) :
    ¬ FrameByte f a := by
  obtain ⟨k, hk, hc⟩ := (hi.held_iff b).mp hb
  obtain ⟨g, hg, hga⟩ := BlockByte.frame (o := b.order) (k := k) (a := a) ⟨hk ▸ h1, hk ▸ h2⟩
  intro hfa
  obtain rfl := hga.unique hfa
  exact not_freeFrame_of_used ⟨b.order, b.user, by rw [hg]; exact hc⟩ hf

theorem bounds (hb : b ∈ s.held) :
    b.addr % 4096 = 0 ∧ heapPhys ≤ b.addr ∧
      b.addr + 4096 * 2 ^ b.order ≤ heapPhys + heapSize := by
  obtain ⟨k, hk, hc⟩ := (hi.held_iff b).mp hb
  have hend := end_le hc
  have hadr : b.addr = 0xA00000 + k * 2 ^ b.order * 4096 := hk.trans (frameToAddr_eq _)
  refine ⟨hk ▸ blkAddr_mod _ _, ?_, ?_⟩
  · unfold heapPhys
    omega
  · unfold heapPhys heapSize
    rw [Nat.add_mul, one_mul] at hend
    omega

theorem eq_of_held (hb : b ∈ s.held) (hc : c ∈ s.held) (he : b.addr = c.addr) : b = c := by
  obtain ⟨k, hk, hck⟩ := (hi.held_iff c).mp hc
  obtain ⟨k', hk', hbk⟩ := (hi.held_iff b).mp hb
  obtain ⟨ho, hkk⟩ := eq_of_addr hck hbk (by rw [← hk, ← hk', he])
  obtain ⟨ca, co, cu⟩ := c
  obtain ⟨ba, bo, bu⟩ := b
  dsimp only at ho he hck hbk
  subst ho hkk he
  rw [hck] at hbk
  cases hbk
  rfl

theorem erase_eq_filter (hb : b ∈ s.held) :
    s.held.erase b = s.held.filter (·.addr ≠ b.addr) := by
  rw [hi.nodup.erase_eq_filter]
  refine filter_congr fun c hc => ?_
  by_cases hcb : c = b
  · simp [hcb]
  · have hne : c.addr ≠ b.addr := fun he => hcb (hi.eq_of_held hc hb he)
    rw [bne_iff_ne.mpr hcb, decide_eq_true hne]

theorem disjoint (hb : b ∈ s.held) (hc : c ∈ s.held) (hne : b ≠ c) :
    b.addr + 4096 * 2 ^ b.order ≤ c.addr ∨ c.addr + 4096 * 2 ^ c.order ≤ b.addr := by
  by_contra hover
  obtain ⟨k, hk, hbk⟩ := (hi.held_iff b).mp hb
  obtain ⟨k', hk', hck⟩ := (hi.held_iff c).mp hc
  have hpb := Nat.two_pow_pos b.order
  have hpc := Nat.two_pow_pos c.order
  -- the larger of the two addresses is a byte of both
  obtain ⟨f, hf, hfa⟩ := BlockByte.frame (o := b.order) (k := k) (a := max b.addr c.addr)
    ⟨by rw [← hk]; omega, by rw [← hk]; omega⟩
  obtain ⟨g, hg, hga⟩ := BlockByte.frame (o := c.order) (k := k') (a := max b.addr c.addr)
    ⟨by rw [← hk']; omega, by rw [← hk']; omega⟩
  obtain rfl := hfa.unique hga
  have ho : b.order = c.order := eq_of_frame (B := B) (f := f)
    (by rw [hf]; exact hbk) (by rw [hg]; exact hck)
  refine hne (hi.eq_of_held hb hc ?_)
  rw [hk, hk', ← hf, ← hg, ho]

end

/-- **Changes outside the free frames** do not matter. -/
theorem congr (hi : FrameInv ⟨h, l⟩ B L) (hf : h'.frames = h.frames)
    (ha : h'.freeArea = h.freeArea)
    (hm : ∀ f, B.FreeFrame f → ∀ a, FrameByte f a → h'.mem a = h.mem a) : FrameInv ⟨h', l⟩ B L :=
  ⟨hi.inv.congr hf ha hm, hi.coalesced, hi.nodup, hi.held_iff⟩

/-- **Every call keeps the invariant.** -/
theorem step (hi : FrameInv s B L) {s' : FrameState} (hs : FrameStep s s') :
    ∃ B' L', FrameInv s' B' L' := by
  cases hs with
  | alloc order user =>
    rcases hi.inv.buddyAlloc_spec order user with ⟨he, hh, _⟩ | ⟨k, B', L', _, he, hb, ha⟩
    · rw [he, hh]
      exact ⟨B, L, hi⟩
    · rw [he]
      exact ⟨B', L', hi.alloc hb ha⟩
  | free b hb =>
    obtain ⟨k, hk, hc⟩ := (hi.held_iff b).mp hb
    rw [hi.erase_eq_filter hb, hk,
      BuddyInv.buddyFree_block _ (le_of_cell hc) (head_lt hc)]
    obtain ⟨B', L', hb', hf⟩ := hi.inv.release_spec hc
    exact ⟨B', L', hi.release hc hb' hf⟩
  | munmap addr =>
    rcases hi.inv.munmapUser_spec addr with ⟨o, k, u, hc, rfl, he⟩ | ⟨hnone, he⟩
    · rw [he]
      obtain ⟨B', L', hb', hf⟩ := hi.inv.release_spec hc
      exact ⟨B', L', hi.release hc hb' hf⟩
    rw [he]
    refine ⟨B, L, ?_⟩
    have hall : s.held.filter (·.addr ≠ addr) = s.held := by
      refine filter_eq_self.mpr fun b hb => ?_
      obtain ⟨k, hk, hc⟩ := (hi.held_iff b).mp hb
      rw [decide_eq_true_eq, hk]
      exact (hnone _ _ _ hc).symm
    rw [hall]
    exact hi
  | munmapAll =>
    obtain ⟨B', L', hb, hus, hco⟩ := BuddyInv.munmapAllFrom_spec (n := frameCount) (i := 0)
      (by rw [frameCount_eq]; omega) hi.inv
    refine ⟨B', L', hb, hco hi.coalesced, hi.nodup.filter _, fun b => ?_⟩
    rw [mem_filter, hi.held_iff, decide_eq_true_eq]
    constructor
    · rintro ⟨⟨k, hk, hc⟩, hu⟩
      exact ⟨k, hk, (hus _ _ _).mpr ⟨hc, fun hh => by rw [hu] at hh; cases hh.1⟩⟩
    · rintro ⟨k, hk, hc⟩
      obtain ⟨hc, hn⟩ := (hus _ _ _).mp hc
      refine ⟨⟨k, hk, hc⟩, ?_⟩
      cases hb : b.user with
      | false => rfl
      | true => exact absurd ⟨hb, Nat.zero_le _⟩ hn

end FrameInv

/-- **The invariant holds along every run.** -/
theorem frameInv_of_run {s : FrameState} (hr : FrameRun h s) :
    ∃ B L, FrameInv s B L := by
  induction hr with
  | refl =>
    refine ⟨_, _, buddyInv_init h, coalesced_whole, nodup_nil, fun b => ?_⟩
    constructor
    · exact fun hb => absurd hb not_mem_nil
    · rintro ⟨k, _, hc⟩
      have : ∀ o k, (Blocks.whole 14 Bool).cell o k ≠ some (.used b.user) := by
        intro o k
        by_cases hok : o = 14 ∧ k = 0 <;> simp [Blocks.whole, hok]
      exact absurd hc (this _ _)
  | tail _ hs ih =>
    obtain ⟨B, L, hi⟩ := ih
    exact hi.step hs

/-! ### What the tables hold -/

/-- **In every state of a run the frames are partitioned** into naturally aligned blocks,
each free or used.  `free_area[o]` is a doubly linked list of exactly the free blocks of
order `o`, `frames[head]` holds the order of the block and `FRAME_ALLOC` exactly for a used
one, no other frame has `FRAME_ALLOC`, and the used blocks are the held ones. -/
theorem frames_partition {h : Heap} {s : FrameState} (hr : FrameRun h s) :
    ∃ (B : Blocks 14 Bool) (L : ℕ → List ℕ),
      (∀ f < 2 ^ 14, ∃! o, (B.cell o (f / 2 ^ o)).isSome = true) ∧
      (∀ o ≤ 14, Chain s.heap.next s.heap.prev 0 (s.heap.freeArea o) ((L o).map (blkAddr o)) ∧
        (L o).Nodup ∧ ∀ k, k ∈ L o ↔ B.cell o k = some .free) ∧
      (∀ o k c, B.cell o k = some c → s.heap.frames (k * 2 ^ o) &&& frameOrder = o ∧
        (s.heap.frames (k * 2 ^ o) &&& frameAlloc ≠ 0 ↔ ∃ u, c = .used u)) ∧
      (∀ f < 2 ^ 14, (∀ o k c, B.cell o k = some c → f ≠ k * 2 ^ o) →
        s.heap.frames f &&& frameAlloc = 0) ∧
      (∀ b, b ∈ s.held ↔
        ∃ k, b.addr = blkAddr b.order k ∧ B.cell b.order k = some (.used b.user)) := by
  obtain ⟨B, L, hi⟩ := frameInv_of_run hr
  refine ⟨B, L, fun f hf => ?_, fun o ho => ⟨hi.inv.chains.chain o ho, hi.inv.chains.nodup o,
    hi.inv.mem_iff o⟩, fun o k c hc => ?_, fun f hf hno => ?_, hi.held_iff⟩
  · obtain ⟨o, ho⟩ := B.tiling.cover hf
    exact ⟨o, ho, fun o' ho' => B.tiling.unique ho' ho⟩
  · have ho := le_of_cell hc
    cases c with
    | free =>
      rw [hi.inv.tag_free o k hc]
      refine ⟨free_tag_order ho, fun hne => absurd (free_tag_alloc ho) hne, ?_⟩
      rintro ⟨u, e⟩
      cases e
    | used u =>
      rw [hi.inv.tag_used o k u hc id]
      exact ⟨usedTag_order ho u, fun _ => ⟨u, rfl⟩, fun _ => usedTag_alloc ho u⟩
  · by_contra hal
    obtain ⟨o, k, u, hc, he⟩ := hi.inv.tag_alloc f hf hal
    exact hno o k _ hc he

/-- A heap before `memory_init`. -/
def zeroHeap : Heap :=
  ⟨fun _ => 0, fun _ => 0, fun _ => 0, fun _ => ⟨0, 0, 0, 0⟩, [], fun _ => []⟩

/-- The state after one `buddy_alloc(3, 1)`. -/
def oneAlloc : FrameState :=
  ⟨(buddyAlloc (memoryInit zeroHeap) 3 true).2, [⟨heapPhys, 3, true⟩]⟩

theorem frameRun_oneAlloc : FrameRun zeroHeap oneAlloc :=
  Relation.ReflTransGen.single (FrameStep.alloc ⟨memoryInit zeroHeap, []⟩ 3 true)

theorem frames_partition_oneAlloc :
    ∃ B : Blocks 14 Bool, ∀ b, b ∈ oneAlloc.held ↔
      ∃ k, b.addr = blkAddr b.order k ∧ B.cell b.order k = some (.used b.user) := by
  obtain ⟨B, _, _, _, _, _, hheld⟩ := frames_partition frameRun_oneAlloc
  exact ⟨B, hheld⟩

/-! ### Coalescing -/

/-- Block `k` of order `o` is on the list `free_area[o]`. -/
def FreeBlock (h : Heap) (o k : ℕ) : Prop :=
  o ≤ maxOrder ∧ ∃ l, Chain h.next h.prev 0 (h.freeArea o) l ∧ blkAddr o k ∈ l

/-- All 2 ^ o frames of the aligned run `k` are in free blocks. -/
def FreeRun (h : Heap) (o k : ℕ) : Prop :=
  ∀ f, f / 2 ^ o = k → ∃ o', FreeBlock h o' (f / 2 ^ o')

/-- Freeing the blocks of a list one after the other. -/
def freeAll (h : Heap) (l : List HeldBlock) : Heap :=
  l.foldl (fun h b => buddyFree h b.addr b.order) h

theorem BuddyInv.freeBlock_iff {B : FrameBlocks} {L : ℕ → List ℕ} {x : ℕ → Prop}
    (hi : BuddyInv h B L x) : FreeBlock h o k ↔ B.cell o k = some .free := by
  rw [← hi.mem_iff]
  constructor
  · rintro ⟨ho, l, hl, hk⟩
    rw [hl.unique (hi.chains.chain o ho), mem_map] at hk
    obtain ⟨k', hk', he⟩ := hk
    rw [← blkAddr_injective o he]
    exact hk'
  · intro hk
    have ho := hi.chains.le o k hk
    exact ⟨ho, _, hi.chains.chain o ho, mem_map.mpr ⟨k, hk, rfl⟩⟩

theorem frameRun_freeAll (l : List HeldBlock) : ∀ {s : FrameState}, FrameRun h s →
    l.Perm s.held → FrameRun h ⟨freeAll s.heap l, []⟩ := by
  induction l with
  | nil =>
    intro s hr hp
    obtain ⟨heap, held⟩ := s
    obtain rfl : [] = held := hp.nil_eq
    exact hr
  | cons b l ih =>
    intro s hr hp
    obtain ⟨hb, hp'⟩ := cons_perm_iff_perm_erase.mp hp
    exact ih (hr.tail (FrameStep.free s b hb)) hp'

/-- **The allocator coalesces fully.**  No two free buddies are left apart; freeing the
held blocks, in any order, gives one free block of order 14 and nothing else; and
`buddy_alloc` fails only when no aligned run of free frames of that size exists. -/
theorem frames_coalesce {h : Heap} {s : FrameState} (hr : FrameRun h s) :
    (∀ o k, o < maxOrder → FreeBlock s.heap o k → ¬ FreeBlock s.heap o (k ^^^ 1)) ∧
    (∀ l, l.Perm s.held →
      (∀ o k, FreeBlock (freeAll s.heap l) o k ↔ o = maxOrder ∧ k = 0) ∧
      ∀ f < 2 ^ 14, (freeAll s.heap l).frames f &&& frameAlloc = 0) ∧
    (∀ (order : ℤ) (user : Bool), 0 ≤ order → order ≤ maxOrder →
      (buddyAlloc s.heap order user).1 = none → ∀ k, ¬ FreeRun s.heap order.toNat k) := by
  obtain ⟨B, L, hi⟩ := frameInv_of_run hr
  refine ⟨fun o k ho h1 h2 => ?_, fun l hl => ?_, fun order user h0 hmax hnone k hrun => ?_⟩
  · rw [hi.inv.freeBlock_iff] at h1 h2
    exact hi.coalesced o k ho h1 h2
  · obtain ⟨B', L', hi'⟩ := frameInv_of_run (frameRun_freeAll l hr hl)
    have hu : ∀ o k u, B'.cell o k ≠ some (.used u) := fun o k u hc =>
      absurd ((hi'.held_iff ⟨blkAddr o k, o, u⟩).mpr ⟨k, rfl, hc⟩) not_mem_nil
    have hw := hi'.coalesced.eq_whole hu
    refine ⟨fun o k => ?_, fun f hf => ?_⟩
    · rw [hi'.inv.freeBlock_iff, hw]
      by_cases hok : o = 14 ∧ k = 0 <;> simp [Blocks.whole, hok, maxOrder]
    · by_contra hal
      obtain ⟨o, k, u, hc, _⟩ := hi'.inv.tag_alloc f hf hal
      exact hu o k u hc
  have hfree : ∀ f, f / 2 ^ order.toNat = k → B.FreeFrame f := by
    intro f hf
    obtain ⟨o', ho'⟩ := hrun f hf
    exact ⟨o', hi.inv.freeBlock_iff.mp ho'⟩
  have hle : order.toNat ≤ 14 := by unfold maxOrder at hmax; omega
  obtain ⟨d, hd⟩ := hi.coalesced.exists_of_run _ k hle hfree
  rcases hi.inv.buddyAlloc_spec order user with ⟨_, _, hnil⟩ | ⟨_, _, _, _, he, _⟩
  · have hmem := (hi.inv.mem_iff _ _).mpr hd
    rw [hnil h0 _ (Nat.le_add_right _ d)] at hmem
    cases hmem
  · rw [he] at hnone
    cases hnone

theorem frames_coalesce_oneAlloc : FrameRun zeroHeap oneAlloc ∧
    ∀ o k, FreeBlock (freeAll oneAlloc.heap [⟨heapPhys, 3, true⟩]) o k ↔ o = maxOrder ∧ k = 0 :=
  ⟨frameRun_oneAlloc, ((frames_coalesce frameRun_oneAlloc).2.1 _ (List.Perm.refl _)).1⟩

end TipOS.Memory
