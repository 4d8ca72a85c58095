import TipOS.Memory.BuddyLists
import TipOS.Lib.Buddy
import Mathlib.Tactic.IntervalCases

/-!
# The frame allocator refines the buddy decomposition

`BuddyInv h B L x` connects the state `h` of `memory.c` with an abstract decomposition
`B` of the 2 ^ 14 frames whose used blocks are marked with their user flag: `L o` are the
free blocks of order `o` in list order, `free_area[o]` threads exactly them, and `frames`
holds the right tag at the head of every block.  The tag of a block whose head satisfies
`x` is not promised: inside `buddy_alloc` and `buddy_free` one block is in flight, used
in `B` and not yet (or no longer) tagged so.

Merging and splitting leave old tags in the middle of blocks, and such a tag looks like a
free block.  `BuddyInv.buddy_test` is why that does no harm: the frame `buddy_free` looks
at is always the head of a block, by `Tiling.buddy_head`.

`buddyAlloc_spec` and `release_spec` say which block changes; both keep `Blocks.Coalesced`.
-/

namespace TipOS.Memory

open Function Lib List Blocks Nat

variable {o' a f : ℕ} {P : ℕ → Prop} {h' : Heap}
  {h : Heap} {B : FrameBlocks} {L : ℕ → List ℕ} {x : ℕ → Prop} {o k : ℕ} {u : Bool}

/-- The tag of a used block. -/
def usedTag (o : ℕ) (u : Bool) : ℕ :=
  if u then (o ||| frameAlloc) ||| frameUser else o ||| frameAlloc

/-! ### Tags -/

theorem tag_facts : ∀ o < 15, (o &&& frameAlloc = 0 ∧ o &&& frameOrder = o) ∧
    o &&& (frameAlloc ||| frameOrder) = o ∧ ∀ u, usedTag o u &&& frameAlloc ≠ 0 ∧
      usedTag o u &&& frameOrder = o ∧ (∀ o' < 15, usedTag o u &&& (frameAlloc ||| frameOrder) ≠ o') ∧
      (usedTag o u &&& (frameAlloc ||| frameUser) = frameAlloc ||| frameUser ↔ u) := by
  decide

section

variable {o : ℕ} (ho : o ≤ 14)

include ho

theorem free_tag_alloc : o &&& frameAlloc = 0 :=
  (tag_facts o (by omega)).1.1

theorem free_tag_order : o &&& frameOrder = o :=
  (tag_facts o (by omega)).1.2

theorem free_tag_test : o &&& (frameAlloc ||| frameOrder) = o :=
  (tag_facts o (by omega)).2.1

theorem usedTag_alloc (u : Bool) : usedTag o u &&& frameAlloc ≠ 0 :=
  ((tag_facts o (by omega)).2.2 u).1

theorem usedTag_order (u : Bool) : usedTag o u &&& frameOrder = o :=
  ((tag_facts o (by omega)).2.2 u).2.1

theorem usedTag_test (ho' : o' ≤ 14) (u : Bool) :
    usedTag o u &&& (frameAlloc ||| frameOrder) ≠ o' :=
  ((tag_facts o (by omega)).2.2 u).2.2.1 o' (by omega)

theorem usedTag_user (u : Bool) :
    usedTag o u &&& (frameAlloc ||| frameUser) = frameAlloc ||| frameUser ↔ u :=
  ((tag_facts o (by omega)).2.2 u).2.2.2

end

/-! ### The invariant -/

/-- The abstract frames: used blocks are marked with the user flag. -/
abbrev FrameBlocks := Blocks 14 Bool

/-- **The allocator's state represents the decomposition `B`**, with free lists `L`; the
tags of the blocks with head in `x` are in flight. -/
structure BuddyInv (h : Heap) (B : FrameBlocks) (L : ℕ → List ℕ) (x : ℕ → Prop) : Prop where
  chains : Chains h L
  mem_iff : ∀ o k, k ∈ L o ↔ B.cell o k = some .free
  tag_free : ∀ o k, B.cell o k = some .free → h.frames (k * 2 ^ o) = o
  tag_used : ∀ o k u, B.cell o k = some (.used u) → ¬ x (k * 2 ^ o) →
    h.frames (k * 2 ^ o) = usedTag o u
  tag_alloc : ∀ f < 2 ^ 14, h.frames f &&& frameAlloc ≠ 0 →
    ∃ o k u, B.cell o k = some (.used u) ∧ f = k * 2 ^ o

/-- A byte of frame `f`. -/
def FrameByte (f a : ℕ) : Prop := frameToAddr f ≤ a ∧ a < frameToAddr f + 4096

theorem LinkByte.frameByte {o k : ℕ} (h : LinkByte o k a) : FrameByte (k * 2 ^ o) a :=
  ⟨h.1, by have := h.2; unfold blkAddr at this; omega⟩

theorem FrameByte.unique {g : ℕ} (h : FrameByte f a) (h' : FrameByte g a) : f = g := by
  unfold FrameByte at h h'
  rw [frameToAddr_eq] at h h'
  omega

/-- A byte of block `k` of order `o`. -/
def BlockByte (o k a : ℕ) : Prop := blkAddr o k ≤ a ∧ a < blkAddr o k + 4096 * 2 ^ o

theorem BlockByte.frame {o k : ℕ} (h : BlockByte o k a) : ∃ f, f / 2 ^ o = k ∧ FrameByte f a := by
  unfold BlockByte blkAddr at h
  rw [frameToAddr_eq] at h
  obtain ⟨r, rfl⟩ : ∃ r, a = 0xA00000 + r := ⟨a - 0xA00000, by omega⟩
  have hle : k * 2 ^ o ≤ r / 4096 := by omega
  have hlt : r / 4096 < k * 2 ^ o + 2 ^ o := by omega
  refine ⟨r / 4096, ?_, ?_⟩
  · refine Nat.div_eq_of_lt_le hle ?_
    rw [Nat.add_mul, one_mul]
    exact hlt
  · unfold FrameByte
    rw [frameToAddr_eq]
    constructor <;> omega

/-- Only bytes of frames with `P` differ. -/
def Touches (h h' : Heap) (P : ℕ → Prop) : Prop :=
  ∀ a, h'.mem a ≠ h.mem a → ∃ f, P f ∧ FrameByte f a

theorem Touches.trans {h1 h2 h3 : Heap} (h : Touches h1 h2 P) (h' : Touches h2 h3 P) :
    Touches h1 h3 P := by
  intro a hne
  by_cases he : h2.mem a = h1.mem a
  · exact h' a (by rwa [he])
  · exact h a he

theorem Touches.mono {h : Heap} {Q : ℕ → Prop} (ht : Touches h h' P) (hPQ : ∀ f, P f → Q f) :
    Touches h h' Q := by
  intro a hne
  obtain ⟨f, hf, hb⟩ := ht a hne
  exact ⟨f, hPQ f hf, hb⟩

theorem touches_setFrame (h : Heap) (i t : ℕ) (P : ℕ → Prop) : Touches h (h.setFrame i t) P :=
  fun _ hne => absurd rfl hne

theorem Chains.setFrame {h : Heap} {L : ℕ → List ℕ} (hc : Chains h L) (i t : ℕ) :
    Chains (h.setFrame i t) L := ⟨hc.chain, hc.le, hc.lt, hc.inj⟩

namespace BuddyInv

/-- The state where nothing is in flight is enough for any `x`. -/
theorem weaken (hi : BuddyInv h B L x) {x' : ℕ → Prop} (hx : ∀ f, x f → x' f) :
    BuddyInv h B L x' :=
  ⟨hi.chains, hi.mem_iff, hi.tag_free, fun o k u hc hn => hi.tag_used o k u hc (fun hh => hn (hx _ hh)),
    hi.tag_alloc⟩

theorem freeFrame_of_mem (hi : BuddyInv h B L x) (hk : k ∈ L o) : B.FreeFrame (k * 2 ^ o) :=
  ⟨o, by rw [mul_two_pow_div]; exact (hi.mem_iff o k).mp hk⟩

/-- **Only the tables and the free frames matter.** -/
theorem congr (hi : BuddyInv h B L x) (hf : h'.frames = h.frames) (ha : h'.freeArea = h.freeArea)
    (hm : ∀ f, B.FreeFrame f → ∀ a, FrameByte f a → h'.mem a = h.mem a) : BuddyInv h' B L x := by
  have hload : ∀ o k, k ∈ L o → ∀ d, d + 8 ≤ 16 →
      h'.mem.load (blkAddr o k + d) 8 = h.mem.load (blkAddr o k + d) 8 := by
    intro o k hk d hd
    refine Mem.load_congr _ _ (fun a h1 h2 => hm _ (hi.freeFrame_of_mem hk) a (LinkByte.frameByte ⟨?_, ?_⟩)) <;> omega
  refine ⟨⟨fun o ho => ?_, hi.chains.le, hi.chains.lt, hi.chains.inj⟩, hi.mem_iff, ?_, ?_, ?_⟩
  · rw [ha]
    refine (hi.chains.chain o ho).congr (fun y hy => ?_) (fun y hy => ?_)
    · obtain ⟨k, hk, rfl⟩ := mem_map.mp hy
      have h0 := hload o k hk 0 (by omega)
      rw [add_zero] at h0
      exact h0
    · obtain ⟨k, hk, rfl⟩ := mem_map.mp hy
      exact hload o k hk 8 (by omega)
  · rw [hf]
    exact hi.tag_free
  · rw [hf]
    exact hi.tag_used
  · rw [hf]
    exact hi.tag_alloc

theorem touches_listRemove (hi : BuddyInv h B L x) (hk : k ∈ L o) :
    Touches h (listRemove h o (blkAddr o k)) B.FreeFrame := by
  intro a hne
  obtain ⟨k1, hk1, hb⟩ := listRemove_mem hi.chains hk hne
  exact ⟨k1 * 2 ^ o, hi.freeFrame_of_mem hk1, hb.frameByte⟩

theorem used_iff_self (hu : B.cell o k = some (.used u)) {o1 k1 : ℕ} {u1 : Bool} :
    B.cell o1 k1 = some (.used u1) ↔ (o1 = o ∧ k1 = k ∧ u1 = u) ∨
      (B.cell o1 k1 = some (.used u1) ∧ ¬ (o1 = o ∧ k1 = k)) := by
  constructor
  · intro hc
    by_cases hok : o1 = o ∧ k1 = k
    · obtain ⟨rfl, rfl⟩ := hok
      rw [hu] at hc
      cases hc
      exact .inl ⟨rfl, rfl, rfl⟩
    · exact .inr ⟨hc, hok⟩
  · rintro (⟨rfl, rfl, rfl⟩ | ⟨hc, _⟩)
    · exact hu
    · exact hc

theorem retag (hi : BuddyInv h B L (· = k * 2 ^ o)) (hu : B.cell o k = some (.used u)) (t : ℕ) :
    BuddyInv (h.setFrame (k * 2 ^ o) t) B L (· = k * 2 ^ o) := by
  refine ⟨hi.chains.setFrame _ _, hi.mem_iff, fun o' k' hc => ?_, fun o' k' u' hc hx => ?_,
    fun f hf hal => ?_⟩
  · have hne : k' * 2 ^ o' ≠ k * 2 ^ o := by
      intro he
      obtain ⟨rfl, rfl⟩ := eq_of_head hc hu he
      rw [hc] at hu
      cases hu
    rw [frames_setFrame, update_of_ne hne]
    exact hi.tag_free o' k' hc
  · rw [frames_setFrame, update_of_ne hx]
    exact hi.tag_used o' k' u' hc hx
  · by_cases hfe : f = k * 2 ^ o
    · exact ⟨o, k, u, hu, hfe⟩
    · rw [frames_setFrame, update_of_ne hfe] at hal
      exact hi.tag_alloc f hf hal

theorem land (hi : BuddyInv h B L (· = k * 2 ^ o)) (hu : B.cell o k = some (.used u)) :
    BuddyInv (h.setFrame (k * 2 ^ o) (usedTag o u)) B L (fun _ => False) := by
  have hr := hi.retag hu (usedTag o u)
  refine ⟨hr.chains, hr.mem_iff, hr.tag_free, fun o' k' u' hc _ => ?_, hr.tag_alloc⟩
  by_cases he : k' * 2 ^ o' = k * 2 ^ o
  · obtain ⟨rfl, rfl⟩ := eq_of_head hc hu he
    rw [hu] at hc
    cases hc
    rw [frames_setFrame, update_self]
  · exact hr.tag_used o' k' u' hc he

/-! ### Taking a block from its list -/

/-- `list_remove` of a free block: the block is in flight. -/
theorem take (hi : BuddyInv h B L x) (hk : k ∈ L o) (u : Bool) :
    BuddyInv (listRemove h o (blkAddr o k))
      (B.set o k (.used u) (by rw [(hi.mem_iff o k).mp hk]; rfl))
      (update L o ((L o).erase k)) (fun f => x f ∨ f = k * 2 ^ o) := by
  have hfr := (listRemove_same h o (blkAddr o k)).1
  refine ⟨hi.chains.remove hk, fun o' k' => ?_, fun o' k' hc => ?_, fun o' k' u' hc hx => ?_,
    fun f hf hal => ?_⟩
  · simp only [set_cell_iff, mem_update_erase (hi.chains.nodup o), hi.mem_iff, reduceCtorEq,
      and_false, false_or]
  · rw [hfr]
    rcases set_cell_iff.mp hc with ⟨_, _, e⟩ | ⟨hc, _⟩
    · cases e
    · exact hi.tag_free o' k' hc
  · rw [hfr]
    rcases set_cell_iff.mp hc with ⟨rfl, rfl, _⟩ | ⟨hc, _⟩
    · omega
    · exact hi.tag_used o' k' u' hc (fun hh => hx (.inl hh))
  · rw [hfr] at hal
    obtain ⟨o', k', u', hc, he⟩ := hi.tag_alloc f hf hal
    refine ⟨o', k', u', set_cell_iff.mpr (.inr ⟨hc, ?_⟩), he⟩
    rintro ⟨rfl, rfl⟩
    rw [(hi.mem_iff o' k').mp hk] at hc
    cases hc

/-! ### Splitting the block in flight -/

theorem splitStep (hi : BuddyInv h B L (· = k * 2 ^ (o + 1)))
    (hu : B.cell (o + 1) k = some (.used u)) :
    BuddyInv (listAdd (h.setFrame ((2 * k + 1) * 2 ^ o) o) o (blkAddr o (2 * k + 1)))
      (B.split o k (.used u) .free (by rw [hu]; rfl))
      (update L o ((2 * k + 1) :: L o)) (· = k * 2 ^ (o + 1)) := by
  have ho : o + 1 ≤ 14 := le_of_cell hu
  have hfr := (listAdd_same (h.setFrame ((2 * k + 1) * 2 ^ o) o) o (blkAddr o (2 * k + 1))).1
  have hhead : k * 2 ^ (o + 1) = 2 * k * 2 ^ o := by rw [pow_succ]; ring
  -- the new head is a frame of the block that is split, and of no other
  have hin : (2 * k + 1) * 2 ^ o / 2 ^ (o + 1) = k := by
    rw [div_two_pow_succ, mul_two_pow_div]
    omega
  have hother : ∀ {o' k' c}, B.cell o' k' = some c → k' * 2 ^ o' = (2 * k + 1) * 2 ^ o →
      o' = o + 1 ∧ k' = k := fun hc he => eq_of_head_mem hu hc (by rw [he, hin])
  have hlt : (2 * k + 1) * 2 ^ o < 2 ^ 14 := by
    have := end_le hu
    rw [pow_succ] at this
    have hp := Nat.two_pow_pos o
    nlinarith
  refine ⟨(hi.chains.setFrame _ _).add (by omega) hlt (fun o' k' hk' he => ?_), fun o' k' => ?_,
    fun o' k' hc => ?_, fun o' k' u' hc hx => ?_, fun f hf hal => ?_⟩
  · have hc := (hi.mem_iff o' k').mp hk'
    obtain ⟨rfl, rfl⟩ := hother hc he
    rw [hu] at hc
    cases hc
  · have hold : k' ∈ L o' ↔ B.cell o' k' = some .free ∧ ¬ (o' = o + 1 ∧ k' = k) := by
      rw [hi.mem_iff]
      refine ⟨fun hc => ⟨hc, ?_⟩, fun hc => hc.1⟩
      rintro ⟨rfl, rfl⟩
      rw [hu] at hc
      cases hc
    simp only [split_cell_iff, mem_update_cons, hold, reduceCtorEq, and_false, false_or, and_true]
  · rw [hfr, frames_setFrame]
    rcases split_cell_iff.mp hc with ⟨_, _, e⟩ | ⟨rfl, rfl, _⟩ | ⟨hc, hne⟩
    · cases e
    · rw [update_self]
    · rw [update_of_ne (fun he => hne (hother hc he))]
      exact hi.tag_free o' k' hc
  · rw [hfr, frames_setFrame]
    rcases split_cell_iff.mp hc with ⟨rfl, rfl, _⟩ | ⟨_, _, e⟩ | ⟨hc, hne⟩
    · omega
    · cases e
    · rw [update_of_ne (fun he => hne (hother hc he))]
      exact hi.tag_used o' k' u' hc hx
  rw [hfr, frames_setFrame] at hal
  by_cases hfe : f = (2 * k + 1) * 2 ^ o
  · rw [hfe, update_self, free_tag_alloc (by omega)] at hal
    omega
  rw [update_of_ne hfe] at hal
  obtain ⟨o', k', u', hc, he⟩ := hi.tag_alloc f hf hal
  by_cases hok : o' = o + 1 ∧ k' = k
  · obtain ⟨rfl, rfl⟩ := hok
    exact ⟨o, 2 * k', u, split_cell_iff.mpr (.inl ⟨rfl, rfl, rfl⟩), he.trans hhead⟩
  · exact ⟨o', k', u', split_cell_iff.mpr (.inr (.inr ⟨hc, hok⟩)), he⟩

/-- **The splitting loop**: a block of order `order` at the same head stays in flight, the
other parts go to the free lists. -/
theorem splitDown_spec {order : ℕ} : ∀ {o : ℕ} {h : Heap} {B : FrameBlocks} {L : ℕ → List ℕ} {k : ℕ},
    order ≤ o → BuddyInv h B L (· = k * 2 ^ o) → B.cell o k = some (.used u) →
    ∃ B' L' k', BuddyInv (splitDown h (k * 2 ^ o) order o) B' L' (· = k * 2 ^ o) ∧
      k' * 2 ^ order = k * 2 ^ o ∧
      (∀ o1 k1 u1, B'.cell o1 k1 = some (.used u1) ↔ (o1 = order ∧ k1 = k' ∧ u1 = u) ∨
        (B.cell o1 k1 = some (.used u1) ∧ ¬ (o1 = o ∧ k1 = k))) ∧
      Touches h (splitDown h (k * 2 ^ o) order o) (fun f => B.FreeFrame f ∨ f / 2 ^ o = k) ∧
      (∀ b, b % 4096 = 0 → h.next b % 4096 = 0 →
        (splitDown h (k * 2 ^ o) order o).next b % 4096 = 0) ∧
      SameCaches h (splitDown h (k * 2 ^ o) order o) ∧ (B.Coalesced → B'.Coalesced) := by
  intro o
  induction o with
  | zero =>
    intro h B L k hle hi hu
    obtain rfl : order = 0 := by omega
    refine ⟨B, L, k, hi, rfl, fun o1 k1 u1 => ?_, fun a hne => absurd rfl hne, fun b _ hb => hb,
      .refl h, id⟩
    exact used_iff_self hu
  | succ o ih =>
    intro h B L k hle hi hu
    by_cases ho : order < o + 1
    · have hstep := hi.splitStep hu
      have hhead : k * 2 ^ (o + 1) = 2 * k * 2 ^ o := by rw [pow_succ]; ring
      have hbud : (k * 2 ^ (o + 1)) ^^^ (1 <<< o) = (2 * k + 1) * 2 ^ o := by
        rw [hhead, shiftLeft_eq, one_mul, mul_two_pow_xor, xor_one_of_even (by simp)]
      have hdef : splitDown h (k * 2 ^ (o + 1)) order (o + 1) =
          splitDown (listAdd (h.setFrame ((2 * k + 1) * 2 ^ o) o) o (blkAddr o (2 * k + 1)))
            (2 * k * 2 ^ o) order o := by
        rw [splitDown, if_pos ho, hbud, hhead]
        rfl
      have hle14 : o + 1 ≤ 14 := le_of_cell hu
      have hlow : (B.split o k (.used u) .free (by rw [hu]; rfl)).cell o (2 * k) =
          some (.used u) := split_cell_iff.mpr (.inl ⟨rfl, rfl, rfl⟩)
      rw [hhead] at hstep
      obtain ⟨B', L', k', hi', hk', hus, ht, hn, hs, hco⟩ := ih (by omega) hstep hlow
      rw [hdef]
      refine ⟨B', L', k', by rw [hhead]; exact hi', by rw [hhead, hk'], fun o1 k1 u1 => ?_, ?_,
        fun b hb hnb => hn b hb ?_, ?_, fun hc => hco hc.split_used⟩
      · rw [hus, split_cell_iff]
        constructor
        · rintro (hh | ⟨⟨rfl, rfl, _⟩ | ⟨_, _, e⟩ | hh, hne⟩)
          · exact .inl hh
          · omega
          · cases e
          · exact .inr hh
        · rintro (hh | ⟨hc, hne⟩)
          · exact .inl hh
          refine .inr ⟨.inr (.inr ⟨hc, hne⟩), ?_⟩
          rintro ⟨rfl, rfl⟩
          obtain ⟨hoo, _⟩ := eq_of_head hc hu hhead.symm
          omega
      · have hadd : Touches h (listAdd (h.setFrame ((2 * k + 1) * 2 ^ o) o) o
            (blkAddr o (2 * k + 1))) (fun f => B.FreeFrame f ∨ f / 2 ^ (o + 1) = k) := by
          intro a hne
          obtain ⟨k1, hk1, hb⟩ := listAdd_mem (hi.chains.setFrame _ _) (by omega) hne
          refine ⟨k1 * 2 ^ o, ?_, hb.frameByte⟩
          rcases mem_cons.mp hk1 with rfl | hk1
          · right
            rw [div_two_pow_succ, mul_two_pow_div]
            omega
          · exact .inl (hi.freeFrame_of_mem hk1)
        refine hadd.trans (ht.mono ?_)
        rintro f (⟨o1, hf⟩ | hf)
        · rcases split_cell_iff.mp hf with ⟨_, _, e⟩ | ⟨rfl, e, _⟩ | ⟨hf, _⟩
          · cases e
          · right
            rw [div_two_pow_succ]
            omega
          · exact .inl ⟨o1, hf⟩
        · right
          rw [div_two_pow_succ]
          omega
      · have hlt : (2 * k + 1) * 2 ^ o < 2 ^ 14 := (head_lt (B :=
          B.split o k (.used u) .free (by rw [hu]; rfl)) (split_cell_iff.mpr
            (.inr (.inl ⟨rfl, rfl, rfl⟩))))
        have hc := hi.chains.setFrame ((2 * k + 1) * 2 ^ o) o
        rw [(hc.listAdd_links (by omega) hlt hb).1]
        split
        · exact hc.freeArea_mod (by omega)
        · exact hnb
      · exact ((sameCaches_setFrame _ _ _).trans (listAdd_same _ _ _).2).trans hs
    · obtain rfl : order = o + 1 := by omega
      have hdef : splitDown h (k * 2 ^ (o + 1)) (o + 1) (o + 1) = h := by
        rw [splitDown, if_neg ho]
      rw [hdef]
      exact ⟨B, L, k, hi, rfl, fun o1 k1 u1 => used_iff_self hu, fun a hne => absurd rfl hne,
        fun b _ hb => hb, .refl h, id⟩

/-! ### `buddy_alloc` -/

end BuddyInv

/-- What a successful `buddy_alloc` does: block `k` of order `o` becomes used. -/
structure Allocated (h : Heap) (B : FrameBlocks) (h' : Heap) (B' : FrameBlocks) (o k : ℕ)
    (u : Bool) : Prop where
  cell : B'.cell o k = some (.used u)
  was_free : ∀ f, f / 2 ^ o = k → B.FreeFrame f
  used_iff : ∀ o' k' u', B'.cell o' k' = some (.used u') ↔
    (o' = o ∧ k' = k ∧ u' = u) ∨ B.cell o' k' = some (.used u')
  touches : Touches h h' B.FreeFrame
  next_mod : h'.next (blkAddr o k) % 4096 = 0
  caches : SameCaches h h'
  coalesced : B.Coalesced → B'.Coalesced

namespace BuddyInv

/-- The tag written last, `order | FRAME_ALLOC` and then `FRAME_USER`. -/
theorem setFrame_usedTag (h : Heap) (i o : ℕ) (u : Bool) :
    (if u then (h.setFrame i (o ||| frameAlloc)).setFrame i
        ((h.setFrame i (o ||| frameAlloc)).frames i ||| frameUser)
      else h.setFrame i (o ||| frameAlloc)) = h.setFrame i (usedTag o u) := by
  cases u with
  | false => rfl
  | true =>
    rw [if_pos rfl, frames_setFrame, update_self]
    unfold Heap.setFrame usedTag
    simp

/-- Taking a free block from its list and splitting it down to order `ord`. -/
theorem take_split (hi : BuddyInv h B L (fun _ => False)) (hk : k ∈ L o) {ord : ℕ} (hord : ord ≤ o)
    (u : Bool)
    (hh : h' = (splitDown (listRemove h o (blkAddr o k)) (k * 2 ^ o) ord o).setFrame (k * 2 ^ o)
      (usedTag ord u)) :
    ∃ k' B' L', blkAddr o k = blkAddr ord k' ∧ BuddyInv h' B' L' (fun _ => False) ∧
      Allocated h B h' B' ord k' u := by
  subst hh
  have hfree := (hi.mem_iff o k).mp hk
  have ht : BuddyInv _ _ _ (· = k * 2 ^ o) := (hi.take hk u).weaken (by simp)
  have hcell : (B.set o k (.used u) (by rw [hfree]; rfl)).cell o k = some (.used u) :=
    set_cell_iff.mpr (.inl ⟨rfl, rfl, rfl⟩)
  obtain ⟨B', L', k', hi', hk', hus, hto, hn, hs, hco⟩ := splitDown_spec hord ht hcell
  have hc' : B'.cell ord k' = some (.used u) := (hus _ _ _).mpr (.inl ⟨rfl, rfl, rfl⟩)
  have hadd : blkAddr o k = blkAddr ord k' := by rw [blkAddr, blkAddr, hk']
  rw [← hk'] at hi'
  have hland := hi'.land hc'
  rw [hk'] at hland
  refine ⟨k', B', L', hadd, hland, hc', fun f hf => ?_, fun o1 k1 u1 => ?_, ?_, ?_,
    ((listRemove_same _ _ _).2.trans hs).trans (sameCaches_setFrame _ _ _),
    fun hc => hco hc.set_used⟩
  · have h1 := div_eq_of_le (g := k' * 2 ^ ord) (by rw [hf, mul_two_pow_div]) hord
    exact ⟨o, by rw [h1, hk', mul_two_pow_div]; exact hfree⟩
  · rw [hus, set_cell_iff]
    constructor
    · rintro (hh | ⟨⟨rfl, rfl, _⟩ | hh, hne⟩)
      · exact .inl hh
      · omega
      · exact .inr hh.1
    · rintro (hh | hc)
      · exact .inl hh
      have hne : ¬ (o1 = o ∧ k1 = k) := by
        rintro ⟨rfl, rfl⟩
        rw [hfree] at hc
        cases hc
      exact .inr ⟨.inr ⟨hc, hne⟩, hne⟩
  · refine ((hi.touches_listRemove hk).trans (hto.mono ?_)).trans (touches_setFrame _ _ _ _)
    rintro f (⟨o1, hfr⟩ | hfr)
    · rcases set_cell_iff.mp hfr with ⟨_, _, e⟩ | ⟨hfr, _⟩
      · cases e
      · exact ⟨o1, hfr⟩
    · exact ⟨o, by rw [hfr]; exact hfree⟩
  · -- the links of the block itself are not written: they still hold an old `next`
    rw [next_setFrame, ← hadd]
    have hbm := blkAddr_mod o k
    refine hn _ hbm ?_
    rw [(hi.chains.listRemove_links hk hbm).1]
    have hnm := (hi.chains.link_facts (hi.chains.neighbours hk).1).1
    split <;> exact hnm

/-- **`buddy_alloc`**: it fails only when every list from `order` up is empty, and
otherwise hands out a block of the order asked for. -/
theorem buddyAlloc_spec (hi : BuddyInv h B L (fun _ => False)) (order : ℤ) (u : Bool) :
    ((buddyAlloc h order u).1 = none ∧ (buddyAlloc h order u).2 = h ∧
      (0 ≤ order → ∀ o, order.toNat ≤ o → L o = [])) ∨
    ∃ k B' L', 0 ≤ order ∧ (buddyAlloc h order u).1 = some (blkAddr order.toNat k) ∧
      BuddyInv (buddyAlloc h order u).2 B' L' (fun _ => False) ∧
      Allocated h B (buddyAlloc h order u).2 B' order.toNat k u := by
  unfold buddyAlloc
  by_cases hr : order < 0 ∨ (maxOrder : ℤ) < order
  · rw [if_pos hr]
    refine .inl ⟨rfl, rfl, fun h0 o ho => ?_⟩
    apply eq_nil_iff_forall_not_mem.mpr
    intro k hk
    have := hi.chains.le o k hk
    unfold maxOrder at hr
    omega
  rw [if_neg hr]
  dsimp only
  have hmax : order.toNat ≤ 14 := by unfold maxOrder at hr; omega
  generalize order.toNat = ord at hmax ⊢
  cases hf : (List.range' ord (maxOrder + 1 - ord)).find? (fun o => h.freeArea o ≠ 0) with
  | none =>
    refine .inl ⟨rfl, rfl, fun _ o ho => ?_⟩
    by_cases ho14 : o ≤ 14
    · have hz := find?_eq_none.mp hf o (by
        rw [mem_range'_1]; unfold maxOrder; omega)
      rcases hi.chains.freeArea_cases ho14 with ⟨hL, _⟩ | ⟨k, t, _, he⟩
      · exact hL
      · exact absurd (by simpa using hz) (he ▸ blkAddr_ne_zero o k)
    · exact eq_nil_iff_forall_not_mem.mpr (fun k hk => ho14 (hi.chains.le o k hk))
  | some o =>
    have ho := mem_of_find?_eq_some hf
    rw [mem_range'_1] at ho
    have hne : h.freeArea o ≠ 0 := by simpa using find?_some hf
    obtain ⟨k, t, hL, he⟩ : ∃ k t, L o = k :: t ∧ h.freeArea o = blkAddr o k := by
      have ho14 : o ≤ 14 := by unfold maxOrder at ho; omega
      rcases hi.chains.freeArea_cases ho14 with ⟨_, h0⟩ | hh
      · omega
      · exact hh
    have hk : k ∈ L o := by rw [hL]; exact .head _
    have hadr : addrToFrame (blkAddr o k) = k * 2 ^ o :=
      addrToFrame_frameToAddr (hi.chains.lt o k hk)
    right
    dsimp only
    rw [he, hadr, setFrame_usedTag]
    obtain ⟨k', B', L', hadd, hi', hal⟩ := hi.take_split hk ho.1 u rfl
    exact ⟨k', B', L', by omega, congrArg some hadd, hi', hal⟩

/-! ### `buddy_free` -/

/-- **The buddy test is sound**: although stale tags look free, the tag `buddy_free` reads
says whether the buddy is a free block of the same order. -/
theorem buddy_test (hi : BuddyInv h B L (· = k * 2 ^ o)) (hu : B.cell o k = some (.used u))
    (ho : o < 14) : h.frames ((k ^^^ 1) * 2 ^ o) &&& (frameAlloc ||| frameOrder) = o ↔
      k ^^^ 1 ∈ L o := by
  rw [hi.mem_iff]
  constructor
  · intro ht
    obtain ⟨o', ho', k', hS, he⟩ := B.tiling.buddy_head (by rw [hu]; rfl) ho
    obtain ⟨c, hc⟩ := Option.isSome_iff_exists.mp hS
    rw [he] at ht
    cases c with
    | free =>
      rw [hi.tag_free o' k' hc, free_tag_test (by omega)] at ht
      subst ht
      rw [Nat.eq_of_mul_eq_mul_right (Nat.two_pow_pos o') he]
      exact hc
    | used u' =>
      have hx : k' * 2 ^ o' ≠ k * 2 ^ o := by
        rw [← he]
        exact fun hh => xor_one_ne k (Nat.eq_of_mul_eq_mul_right (Nat.two_pow_pos o) hh)
      rw [hi.tag_used o' k' u' hc hx] at ht
      exact absurd ht (usedTag_test (by omega) (by omega) u')
  · intro hc
    rw [hi.tag_free o (k ^^^ 1) hc, free_tag_test (by omega)]

theorem fuse (hi : BuddyInv h B L (fun f => f = k * 2 ^ o ∨ f = (k ^^^ 1) * 2 ^ o)) (ho : o < 14)
    {u' : Bool} (hu : B.cell o k = some (.used u)) (hb : B.cell o (k ^^^ 1) = some (.used u'))
    (ht : h.frames (k * 2 ^ o) = o) (ht' : h.frames ((k ^^^ 1) * 2 ^ o) = o) :
    BuddyInv h (B.merge o k (.used u) ho (by rw [hu]; rfl) (by rw [hb]; rfl)) L
      (· = k / 2 * 2 ^ (o + 1)) := by
  refine ⟨hi.chains, fun o1 k1 => ?_, fun o1 k1 hc => ?_, fun o1 k1 u1 hc hx => ?_,
    fun f hf hal => ?_⟩
  · simp only [hi.mem_iff, merge_cell_iff, reduceCtorEq, and_false, false_or]
    refine (and_iff_left_of_imp fun hc => ?_).symm
    rintro ⟨rfl, h2⟩
    rcases div_two_eq_iff.mp h2 with rfl | rfl
    · cases hu.symm.trans hc
    · cases hb.symm.trans hc
  · rcases merge_cell_iff.mp hc with ⟨_, _, e⟩ | ⟨hc, _⟩
    · cases e
    · exact hi.tag_free o1 k1 hc
  · rcases merge_cell_iff.mp hc with ⟨rfl, rfl, _⟩ | ⟨hc, hne⟩
    · omega
    refine hi.tag_used o1 k1 u1 hc ?_
    rintro (he | he)
    · obtain ⟨rfl, rfl⟩ := eq_of_head hc hu he
      exact hne ⟨rfl, rfl⟩
    · obtain ⟨rfl, rfl⟩ := eq_of_head hc hb he
      exact hne ⟨rfl, xor_one_div_two k⟩
  · obtain ⟨o1, k1, u1, hc, he⟩ := hi.tag_alloc f hf hal
    refine ⟨o1, k1, u1, merge_cell_iff.mpr (.inr ⟨hc, ?_⟩), he⟩
    rintro ⟨rfl, h2⟩
    apply hal
    rcases div_two_eq_iff.mp h2 with rfl | rfl
    · rw [he, ht, free_tag_alloc (by omega)]
    · rw [he, ht', free_tag_alloc (by omega)]

theorem mergeStep (hi : BuddyInv h B L (· = k * 2 ^ o)) (hu : B.cell o k = some (.used u))
    (ht : h.frames (k * 2 ^ o) = o) (ho : o < 14) (hb : k ^^^ 1 ∈ L o) :
    ∃ B' L', BuddyInv ((listRemove h o (blkAddr o (k ^^^ 1))).setFrame (k / 2 * 2 ^ (o + 1)) (o + 1))
        B' L' (· = k / 2 * 2 ^ (o + 1)) ∧
      (∀ o1 k1 c, B'.cell o1 k1 = some c ↔ (o1 = o + 1 ∧ k1 = k / 2 ∧ c = .used u) ∨
        (B.cell o1 k1 = some c ∧ ¬ (o1 = o ∧ k1 / 2 = k / 2))) ∧
      (B.Coalesced → B'.Coalesced) := by
  have hfree := (hi.mem_iff _ _).mp hb
  have htake := hi.take hb u
  have hfr := (listRemove_same h o (blkAddr o (k ^^^ 1))).1
  have hcell : ∀ o1 k1 c, ¬ (o1 = o ∧ k1 = k ^^^ 1) →
      ((B.set o (k ^^^ 1) (.used u) (by rw [hfree]; rfl)).cell o1 k1 = some c ↔
        B.cell o1 k1 = some c) := by
    intro o1 k1 c hne
    rw [set_cell_iff]
    constructor
    · rintro (⟨e1, e2, _⟩ | hc)
      · omega
      · exact hc.1
    · exact fun hc => .inr ⟨hc, hne⟩
  have hu' := (hcell o k (.used u) (fun he => xor_one_ne k he.2.symm)).mpr hu
  have hb' : (B.set o (k ^^^ 1) (.used u) (by rw [hfree]; rfl)).cell o (k ^^^ 1) =
      some (.used u) := set_cell_iff.mpr (.inl ⟨rfl, rfl, rfl⟩)
  have hfuse := htake.fuse ho hu' hb' (by rw [hfr, ht]) (by rw [hfr, hi.tag_free _ _ hfree])
  refine ⟨_, _, hfuse.retag (merge_cell_iff.mpr (.inl ⟨rfl, rfl, rfl⟩)) (o + 1),
    fun o1 k1 c => ?_, fun hc => hc.set_used.merge_used⟩
  rw [merge_cell_iff]
  refine or_congr Iff.rfl (and_congr_left fun hne => hcell o1 k1 c ?_)
  rintro ⟨rfl, rfl⟩
  exact hne ⟨rfl, xor_one_div_two k⟩

end BuddyInv

/-- What the merging loop does to the block in flight, block `k` of order `o`: it comes out
as block `k'` of order `o'`, whose buddy is not free. -/
structure Merged (h : Heap) (B : FrameBlocks) (o k : ℕ) (h' : Heap) (B' : FrameBlocks)
    (L' : ℕ → List ℕ) (o' k' : ℕ) (u : Bool) : Prop where
  inv : BuddyInv h' B' L' (· = k' * 2 ^ o')
  cell : B'.cell o' k' = some (.used u)
  tag : h'.frames (k' * 2 ^ o') = o'
  stuck : o' < 14 → k' ^^^ 1 ∉ L' o'
  used_iff : ∀ o₁ k₁ u₁, B'.cell o₁ k₁ = some (.used u₁) ∧ ¬ (o₁ = o' ∧ k₁ = k') ↔
    B.cell o₁ k₁ = some (.used u₁) ∧ ¬ (o₁ = o ∧ k₁ = k)
  touches : Touches h h' B.FreeFrame
  caches : SameCaches h h'
  coalesced : B.Coalesced → B'.Coalesced

namespace BuddyInv

theorem merged_refl (hi : BuddyInv h B L (· = k * 2 ^ o)) (hu : B.cell o k = some (.used u))
    (ht : h.frames (k * 2 ^ o) = o) (hb : o < 14 → k ^^^ 1 ∉ L o) : Merged h B o k h B L o k u :=
  ⟨hi, hu, ht, hb, fun _ _ _ => Iff.rfl, fun _ hne => absurd rfl hne, .refl h, id⟩

theorem merged_step (hi : BuddyInv h B L (· = k * 2 ^ o)) (hu : B.cell o k = some (.used u))
    (hb : k ^^^ 1 ∈ L o) {B1 B' : FrameBlocks} {L' : ℕ → List ℕ} {k' : ℕ}
    (hc1 : ∀ o1 k1 c, B1.cell o1 k1 = some c ↔ (o1 = o + 1 ∧ k1 = k / 2 ∧ c = .used u) ∨
      (B.cell o1 k1 = some c ∧ ¬ (o1 = o ∧ k1 / 2 = k / 2)))
    (hco1 : B.Coalesced → B1.Coalesced)
    (hm : Merged ((listRemove h o (blkAddr o (k ^^^ 1))).setFrame (k / 2 * 2 ^ (o + 1)) (o + 1)) B1
      (o + 1) (k / 2) h' B' L' o' k' u)
    : Merged h B o k h' B' L' o' k' u := by
  refine ⟨hm.inv, hm.cell, hm.tag, hm.stuck, fun o1 k1 u1 => ?_, ?_,
    ((listRemove_same _ _ _).2.trans (sameCaches_setFrame _ _ _)).trans hm.caches,
    fun hc => hm.coalesced (hco1 hc)⟩
  · rw [hm.used_iff, hc1]
    constructor
    · rintro ⟨⟨e1, e2, _⟩ | ⟨hc, hne⟩, hne'⟩
      · omega
      · exact ⟨hc, fun he => hne ⟨he.1, by rw [he.2]⟩⟩
    rintro ⟨hc, hne⟩
    have hne1 : ¬ (o1 = o ∧ k1 / 2 = k / 2) := by
      rintro ⟨rfl, h2⟩
      rcases div_two_eq_iff.mp h2 with rfl | rfl
      · exact hne ⟨rfl, rfl⟩
      · rw [(hi.mem_iff _ _).mp hb] at hc
        cases hc
    refine ⟨.inr ⟨hc, hne1⟩, ?_⟩
    rintro ⟨rfl, rfl⟩
    -- the parent was no block before: its frames are those of the block in flight
    have := (eq_of_head_mem hc hu (by rw [div_two_pow_succ, mul_two_pow_div])).1
    omega
  · refine ((hi.touches_listRemove hb).trans (touches_setFrame _ _ _ _)).trans (hm.touches.mono ?_)
    rintro f ⟨o1, hf⟩
    rcases (hc1 _ _ _).mp hf with ⟨_, _, e⟩ | ⟨hf, _⟩
    · cases e
    · exact ⟨o1, hf⟩

/-- **The merging loop**: the block in flight grows until its buddy is not free, and no
other used block changes. -/
theorem mergeUp_spec : ∀ {n o : ℕ} {h : Heap} {B : FrameBlocks} {L : ℕ → List ℕ} {k : ℕ},
    14 ≤ o + n → BuddyInv h B L (· = k * 2 ^ o) → B.cell o k = some (.used u) →
    h.frames (k * 2 ^ o) = o →
    ∃ h' B' L' o' k', mergeUp n h (k * 2 ^ o) o = (h', k' * 2 ^ o', o') ∧
      Merged h B o k h' B' L' o' k' u := by
  intro n
  induction n with
  | zero =>
    intro o h B L k hn hi hu ht
    exact ⟨h, B, L, o, k, rfl, hi.merged_refl hu ht (fun hlt => by omega)⟩
  | succ n ih =>
    intro o h B L k hn hi hu ht
    have hbud : (k * 2 ^ o) ^^^ (1 <<< o) = (k ^^^ 1) * 2 ^ o := by
      rw [shiftLeft_eq, one_mul, mul_two_pow_xor]
    by_cases ho : o < 14
    · by_cases hb : k ^^^ 1 ∈ L o
      · have hdef : mergeUp (n + 1) h (k * 2 ^ o) o =
            mergeUp n ((listRemove h o (blkAddr o (k ^^^ 1))).setFrame (k / 2 * 2 ^ (o + 1)) (o + 1))
              (k / 2 * 2 ^ (o + 1)) (o + 1) := by
          rw [mergeUp, if_pos (show o < maxOrder from ho), hbud]
          rw [if_pos ((hi.buddy_test hu ho).mpr hb), lower_head]
          rfl
        obtain ⟨B1, L1, hi1, hc1, hco1⟩ := hi.mergeStep hu ht ho hb
        obtain ⟨h', B', L', o', k', he, hm⟩ :=
          ih (by omega) hi1 ((hc1 _ _ _).mpr (.inl ⟨rfl, rfl, rfl⟩))
            (by rw [frames_setFrame, update_self])
        exact ⟨h', B', L', o', k', hdef.trans he, hi.merged_step hu hb hc1 hco1 hm⟩
      · refine ⟨h, B, L, o, k, ?_, hi.merged_refl hu ht (fun _ => hb)⟩
        rw [mergeUp, if_pos (show o < maxOrder from ho), hbud]
        rw [if_neg (fun hh => hb ((hi.buddy_test hu ho).mp hh))]
    · refine ⟨h, B, L, o, k, ?_, hi.merged_refl hu ht (fun hlt => absurd hlt ho)⟩
      rw [mergeUp, if_neg (show ¬ o < maxOrder from ho)]

/-- `list_add` of the block in flight: it is free. -/
theorem put (hi : BuddyInv h B L (· = k * 2 ^ o)) (hu : B.cell o k = some (.used u))
    (ht : h.frames (k * 2 ^ o) = o) :
    BuddyInv (listAdd h o (blkAddr o k)) (B.set o k .free (by rw [hu]; rfl))
      (update L o (k :: L o)) (fun _ => False) := by
  have ho := le_of_cell hu
  have hfr := (listAdd_same h o (blkAddr o k)).1
  have hold : ∀ o' k', B.cell o' k' = some .free → ¬ (o' = o ∧ k' = k) := by
    rintro o' k' hc ⟨rfl, rfl⟩
    rw [hu] at hc
    cases hc
  refine ⟨hi.chains.add ho (head_lt hu) (fun o' k' hk' he => ?_), fun o' k' => ?_,
    fun o' k' hc => ?_, fun o' k' u' hc _ => ?_, fun f hf hal => ?_⟩
  · have hc := (hi.mem_iff o' k').mp hk'
    exact hold o' k' hc (eq_of_head hc hu he)
  · rw [set_cell_iff, mem_update_cons, hi.mem_iff, and_iff_left_of_imp (hold o' k')]
    simp only [and_true]
  · rw [hfr]
    rcases set_cell_iff.mp hc with ⟨rfl, rfl, _⟩ | ⟨hc, _⟩
    · exact ht
    · exact hi.tag_free o' k' hc
  · rw [hfr]
    rcases set_cell_iff.mp hc with ⟨_, _, e⟩ | ⟨hc, hne⟩
    · cases e
    · exact hi.tag_used o' k' u' hc (fun he => hne (eq_of_head hc hu he))
  · rw [hfr] at hal
    obtain ⟨o', k', u', hc, he⟩ := hi.tag_alloc f hf hal
    refine ⟨o', k', u', set_cell_iff.mpr (.inr ⟨hc, ?_⟩), he⟩
    rintro ⟨rfl, rfl⟩
    rw [he, ht, free_tag_alloc ho] at hal
    exact hal rfl

end BuddyInv

/-- What freeing block `k` of order `o` does. -/
structure Freed (h : Heap) (B : FrameBlocks) (h' : Heap) (B' : FrameBlocks) (o k : ℕ) : Prop where
  used_iff : ∀ o' k' u', B'.cell o' k' = some (.used u') ↔
    B.cell o' k' = some (.used u') ∧ ¬ (o' = o ∧ k' = k)
  touches : Touches h h' B'.FreeFrame
  caches : SameCaches h h'
  coalesced : B.Coalesced → B'.Coalesced

theorem freeFrame_iff {B : FrameBlocks} (hf : f < 2 ^ 14) :
    B.FreeFrame f ↔ ¬ B.UsedFrame f := by
  constructor
  · exact fun h hu => not_freeFrame_of_used hu h
  · intro h
    obtain ⟨o, c, hc⟩ := B.exists_cell hf
    cases c with
    | free => exact ⟨o, hc⟩
    | used u => exact absurd ⟨o, u, hc⟩ h

theorem freeFrame_lt {B : FrameBlocks} (h : B.FreeFrame f) : f < 2 ^ 14 := by
  obtain ⟨o, hc⟩ := h
  have := Blocks.end_le hc
  have hm := Nat.lt_mul_div_succ f (Nat.two_pow_pos o)
  calc f < 2 ^ o * (f / 2 ^ o + 1) := hm
    _ = (f / 2 ^ o + 1) * 2 ^ o := mul_comm _ _
    _ ≤ 2 ^ 14 := this

namespace BuddyInv

/-- **Releasing a used block**: it becomes free, and no other used block changes. -/
theorem release_spec (hi : BuddyInv h B L (fun _ => False)) (hu : B.cell o k = some (.used u)) :
    ∃ B' L', BuddyInv (release h (k * 2 ^ o) o) B' L' (fun _ => False) ∧
      Freed h B (release h (k * 2 ^ o) o) B' o k := by
  have hflight₀ : BuddyInv h B L (· = k * 2 ^ o) := hi.weaken (fun _ hf => hf.elim)
  have hflight := hflight₀.retag hu o
  obtain ⟨h', B', L', o', k', he, hm⟩ := mergeUp_spec (n := maxOrder) (by unfold maxOrder; omega)
    hflight hu (by rw [frames_setFrame, update_self])
  have hdef : release h (k * 2 ^ o) o = listAdd h' o' (blkAddr o' k') := by
    rw [release, he]
    rfl
  rw [hdef]
  have hus : ∀ o1 k1 u1, (B'.set o' k' .free (by rw [hm.cell]; rfl)).cell o1 k1 =
      some (.used u1) ↔ B.cell o1 k1 = some (.used u1) ∧ ¬ (o1 = o ∧ k1 = k) := by
    intro o1 k1 u1
    simp only [← hm.used_iff, set_cell_iff, reduceCtorEq, and_false, false_or]
  refine ⟨_, _, hm.inv.put hm.cell hm.tag, hus, ?_, ?_, fun hc => ?_⟩
  · have h1 : Touches h h' (B'.set o' k' .free (by rw [hm.cell]; rfl)).FreeFrame := by
      refine (touches_setFrame _ _ _ _).trans (hm.touches.mono fun f hf => ?_)
      rw [freeFrame_iff (freeFrame_lt hf)]
      rintro ⟨o1, u1, hc⟩
      exact (freeFrame_iff (freeFrame_lt hf)).mp hf ⟨o1, u1, ((hus _ _ _).mp hc).1⟩
    refine h1.trans fun a hne => ?_
    obtain ⟨k1, hk1, hb⟩ := listAdd_mem hm.inv.chains (le_of_cell hm.cell) hne
    refine ⟨k1 * 2 ^ o', ⟨o', ?_⟩, hb.frameByte⟩
    rw [mul_two_pow_div, set_cell_iff]
    rcases mem_cons.mp hk1 with rfl | hk1
    · exact .inl ⟨rfl, rfl, rfl⟩
    · by_cases hkk : k1 = k'
      · exact .inl ⟨rfl, hkk, rfl⟩
      · exact .inr ⟨(hm.inv.mem_iff _ _).mp hk1, fun hh => hkk hh.2⟩
  · exact ((sameCaches_setFrame _ _ _).trans hm.caches).trans (listAdd_same _ _ _).2
  · refine (hm.coalesced hc).set_free (fun ho hf => hm.stuck ho ?_)
    exact (hm.inv.mem_iff _ _).mpr hf

/-! ### The entry points -/

/-- On the address of a block `buddy_free` passes its checks. -/
theorem buddyFree_block (h : Heap) (ho : o ≤ 14) (hk : k * 2 ^ o < 2 ^ 14) :
    buddyFree h (blkAddr o k) o = release h (k * 2 ^ o) o := by
  have hadr : addrToFrame (blkAddr o k) = k * 2 ^ o := addrToFrame_frameToAddr hk
  have hb : blkAddr o k = 0xA00000 + k * 2 ^ o * 4096 := frameToAddr_eq _
  have hmask : blkAddr o k &&& (frameSize - 1) = 0 := by rw [and_frameMask, blkAddr_mod]
  unfold buddyFree
  rw [if_neg, if_neg, if_neg (fun hh => hh hmask), hadr, Int.toNat_natCast]
  · unfold heapPhys heapSize
    omega
  · unfold maxOrder
    omega

/-- An address that passes the checks of `buddy_free` is that of a frame. -/
theorem exists_frame {addr : ℕ} (h1 : ¬ (addr < heapPhys ∨ heapPhys + heapSize ≤ addr))
    (h2 : ¬ addr &&& (frameSize - 1) ≠ 0) :
    ∃ f < 2 ^ 14, addr = frameToAddr f ∧ addrToFrame addr = f := by
  rw [and_frameMask, not_not] at h2
  unfold heapPhys heapSize at h1
  obtain ⟨f, rfl⟩ : ∃ f, addr = frameToAddr f :=
    ⟨(addr - 0xA00000) / 4096, by rw [frameToAddr_eq]; omega⟩
  have hf : f < 2 ^ 14 := by
    rw [frameToAddr_eq] at h1
    simp
    omega
  exact ⟨f, hf, rfl, addrToFrame_frameToAddr hf⟩

theorem munmapUser_eq (h : Heap) (addr : ℕ) : (munmapUser h addr).2 =
    if addr = 0 ∨ addr % 4096 ≠ 0 ∨ 2 ^ 14 ≤ addrToFrame addr ∨
      h.frames (addrToFrame addr) &&& frameAlloc = 0 then h
    else buddyFree h addr (h.frames (addrToFrame addr) &&& frameOrder : ℕ) := by
  unfold munmapUser
  dsimp only
  rw [and_frameMask, frameCount_eq]
  by_cases h1 : addr = 0
  · rw [if_pos h1, if_pos (.inl h1)]
  by_cases h2 : addr % 4096 ≠ 0
  · rw [if_neg h1, if_pos h2, if_pos (.inr (.inl h2))]
  by_cases h3 : 2 ^ 14 ≤ addrToFrame addr
  · rw [if_neg h1, if_neg h2, if_pos h3, if_pos (.inr (.inr (.inl h3)))]
  by_cases h4 : h.frames (addrToFrame addr) &&& frameAlloc = 0
  · rw [if_neg h1, if_neg h2, if_neg h3, if_pos h4, if_pos (.inr (.inr (.inr h4)))]
  · rw [if_neg h1, if_neg h2, if_neg h3, if_neg h4,
      if_neg (by simp only [h1, h2, h3, h4, or_self, not_false_eq_true])]

/-- **`munmap_user`** releases a used block at its address, and does nothing elsewhere. -/
theorem munmapUser_spec (hi : BuddyInv h B L (fun _ => False)) (addr : ℕ) :
    (∃ o k u, B.cell o k = some (.used u) ∧ addr = blkAddr o k ∧
      (munmapUser h addr).2 = release h (k * 2 ^ o) o) ∨
    ((∀ o k u, B.cell o k = some (.used u) → addr ≠ blkAddr o k) ∧ (munmapUser h addr).2 = h) := by
  rw [munmapUser_eq]
  by_cases hex : ∃ o k u, B.cell o k = some (.used u) ∧ addr = blkAddr o k
  · obtain ⟨o, k, u, hc, rfl⟩ := hex
    refine .inl ⟨o, k, u, hc, rfl, ?_⟩
    have ho := le_of_cell hc
    have hlt := head_lt hc
    have hadr : addrToFrame (blkAddr o k) = k * 2 ^ o := addrToFrame_frameToAddr hlt
    rw [hadr, hi.tag_used o k u hc id, usedTag_order ho, if_neg]
    · exact buddyFree_block h ho hlt
    rintro (h0 | hm | hge | ht)
    · exact blkAddr_ne_zero o k h0
    · exact hm (blkAddr_mod o k)
    · omega
    · exact usedTag_alloc ho u ht
  have hnone : ∀ o k u, B.cell o k = some (.used u) → addr ≠ blkAddr o k :=
    fun o k u hc he => hex ⟨o, k, u, hc, he⟩
  refine .inr ⟨hnone, ?_⟩
  split
  · rfl
  rename_i hchk
  push Not at hchk
  -- the frame is the head of a used block, so the address is not one of the heap
  obtain ⟨o, k, u, hc, he⟩ := hi.tag_alloc _ hchk.2.2.1 hchk.2.2.2
  unfold buddyFree
  split
  · rfl
  split
  · rfl
  rename_i hrange
  obtain ⟨f, _, hf, hf'⟩ := exists_frame hrange (by rw [and_frameMask]; exact not_not.mpr hchk.2.1)
  exact absurd (by rw [blkAddr, ← he, hf']; exact hf) (hnone o k u hc)

/-- **`munmap_all_user`** from frame `i` on releases the used blocks with the user flag
whose head is not before `i`. -/
theorem munmapAllFrom_spec : ∀ {n i : ℕ} {h : Heap} {B : FrameBlocks} {L : ℕ → List ℕ},
    2 ^ 14 ≤ i + n → BuddyInv h B L (fun _ => False) →
    ∃ B' L', BuddyInv (munmapAllFrom n h i) B' L' (fun _ => False) ∧
      (∀ o k u, B'.cell o k = some (.used u) ↔
        B.cell o k = some (.used u) ∧ ¬ (u ∧ i ≤ k * 2 ^ o)) ∧
      (B.Coalesced → B'.Coalesced) := by
  intro n
  induction n with
  | zero =>
    intro i h B L hn hi
    refine ⟨B, L, hi, fun o k u => ⟨fun hc => ⟨hc, fun hh => ?_⟩, fun hc => hc.1⟩, id⟩
    have := head_lt hc
    omega
  | succ n ih =>
    intro i h B L hn hi
    rw [munmapAllFrom, frameCount_eq]
    by_cases hlt : i < 2 ^ 14
    · rw [if_pos hlt]
      by_cases htag : h.frames i &&& (frameAlloc ||| frameUser) = frameAlloc ||| frameUser
      · -- both bits are set, so the frame is the head of a user block
        have hal : h.frames i &&& frameAlloc ≠ 0 := by
          intro h0
          have h1 : h.frames i &&& (frameAlloc ||| frameUser) &&& frameAlloc = frameAlloc := by
            rw [htag]
            rfl
          rw [Nat.and_assoc, show (frameAlloc ||| frameUser) &&& frameAlloc = frameAlloc from rfl,
            h0] at h1
          cases h1
        obtain ⟨o, k, u, hc, rfl⟩ := hi.tag_alloc i hlt hal
        have ho := le_of_cell hc
        rw [hi.tag_used o k u hc id, usedTag_user ho] at htag
        rw [hi.tag_used o k u hc id, if_pos ((usedTag_user ho u).mpr htag), usedTag_order ho]
        obtain ⟨B1, L1, hi1, hf⟩ := hi.release_spec hc
        have hp := Nat.two_pow_pos o
        obtain ⟨B', L', hi', hus, hco⟩ := ih (i := k * 2 ^ o + 1 <<< o)
          (by rw [shiftLeft_eq, one_mul]; omega) hi1
        refine ⟨B', L', hi', fun o1 k1 u1 => ?_, fun hB => hco (hf.coalesced hB)⟩
        rw [hus, hf.used_iff, shiftLeft_eq, one_mul]
        constructor
        · rintro ⟨⟨hc1, hne⟩, hnu⟩
          refine ⟨hc1, fun hh => hnu ⟨hh.1, ?_⟩⟩
          -- a head inside the released block is its own head
          by_contra hlt1
          refine hne (eq_of_head_mem hc hc1 ?_)
          rw [Nat.div_eq_iff hp]
          constructor
          · exact hh.2
          · omega
        · rintro ⟨hc1, hnu⟩
          refine ⟨⟨hc1, ?_⟩, fun hh => hnu ⟨hh.1, by omega⟩⟩
          rintro ⟨rfl, rfl⟩
          rw [hc] at hc1
          cases hc1
          exact hnu ⟨htag, le_rfl⟩
      · rw [if_neg htag]
        obtain ⟨B', L', hi', hus, hco⟩ := ih (i := i + 1) (by omega) hi
        refine ⟨B', L', hi', fun o1 k1 u1 => ?_, hco⟩
        rw [hus]
        refine and_congr_right fun hc1 => not_congr (and_congr_right fun hu1 => ?_)
        constructor
        · exact fun hle => by omega
        · intro hle
          rcases lt_or_ge i (k1 * 2 ^ o1) with hh | hh
          · exact hh
          · obtain rfl : i = k1 * 2 ^ o1 := by omega
            rw [hi.tag_used o1 k1 u1 hc1 id, usedTag_user (le_of_cell hc1)] at htag
            exact absurd hu1 htag
    · rw [if_neg hlt]
      refine ⟨B, L, hi, fun o k u => ⟨fun hc => ⟨hc, fun hh => ?_⟩, fun hc => hc.1⟩, id⟩
      have := head_lt hc
      omega

end BuddyInv

/-- The free lists after `memory_init`. -/
def initLists : ℕ → List ℕ := fun o => if o = 14 then [0] else []

theorem mem_initLists {o k : ℕ} : k ∈ initLists o ↔ o = 14 ∧ k = 0 := by
  unfold initLists
  split <;> simp [*]

theorem chains_init (h : Heap) : Chains (memoryInit h) initLists := by
  have hone : ∀ o k, k ∈ initLists o → o = 14 ∧ k = 0 := fun o k hk => mem_initLists.mp hk
  refine ⟨fun o ho => ?_, fun o k hk => ?_, fun o k hk => ?_, fun o k o' k' hk hk' _ => ?_⟩
  · by_cases ho14 : o = 14
    · subst ho14
      have hn : (memoryInit h).next heapPhys = 0 := by
        unfold memoryInit Heap.next Heap.write64 Heap.setFreeArea Heap.setFrame
        dsimp only
        rw [Mem.load_store_of_disjoint (by omega), Mem.load_store, zero_mod]
      have hp : (memoryInit h).prev heapPhys = 0 := by
        unfold memoryInit Heap.prev Heap.write64 Heap.setFreeArea Heap.setFrame
        dsimp only
        rw [Mem.load_store, zero_mod]
      exact ⟨rfl, by decide, hp, hn⟩
    · have hL : initLists o = [] := if_neg ho14
      rw [hL]
      exact update_of_ne ho14 _ _
  · exact (hone o k hk).1.le
  · obtain ⟨rfl, rfl⟩ := hone o k hk
    decide
  · obtain ⟨rfl, rfl⟩ := hone o k hk
    obtain ⟨rfl, rfl⟩ := hone o' k' hk'
    exact ⟨rfl, rfl⟩

/-- **After `memory_init`** the heap is one free block. -/
theorem buddyInv_init (h : Heap) :
    BuddyInv (memoryInit h) (Blocks.whole 14 Bool) initLists (fun _ => False) := by
  have hcell : ∀ o k c, (Blocks.whole 14 Bool).cell o k = some c ↔ (o = 14 ∧ k = 0) ∧ c = .free := by
    intro o k c
    by_cases hok : o = 14 ∧ k = 0 <;> simp [Blocks.whole, hok, eq_comm]
  have htag : ∀ f, (memoryInit h).frames f = if f = 0 then 14 else 0 := by
    have hfr : (memoryInit h).frames = update (fun _ => 0) 0 maxOrder := rfl
    intro f
    rw [hfr, update_apply]
    rfl
  refine ⟨chains_init h, fun o k => ?_, fun o k hc => ?_, fun o k u hc _ => ?_, fun f _ hal => ?_⟩
  · rw [mem_initLists, hcell]
    simp
  · obtain ⟨⟨rfl, rfl⟩, _⟩ := (hcell _ _ _).mp hc
    rw [htag, if_pos (zero_mul _)]
  · cases ((hcell _ _ _).mp hc).2
  · rw [htag] at hal
    split at hal <;> exact absurd rfl hal

end TipOS.Memory
