import TipOS.Memory.Buddy
import TipOS.Lib.DList

/-!
# The free lists in memory

The links of a free block are in its first 16 bytes, and blocks start on frame
boundaries, so the links of different blocks never overlap: on frame-aligned addresses
`Heap.next` and `Heap.prev` behave like two tables (`next_write64`, `prev_write64` and
the two beside them).

`Chains h L` says that for every order `o`, `free_area[o]` is a well-formed doubly linked
list whose blocks are those numbered `L o`, in that order.
-/

namespace TipOS.Memory

open Function Lib List Nat Mem

variable {f i t : ℕ} {h₁ h₂ h₃ : Heap}

/-- The address of block `k` of order `o`. -/
def blkAddr (o k : ℕ) : ℕ := frameToAddr (k * 2 ^ o)

theorem frameToAddr_eq (f : ℕ) : frameToAddr f = 0xA00000 + f * 4096 := by
  rw [frameToAddr, heapPhys, frameShift, shiftLeft_eq]

theorem frameToAddr_inj {g : ℕ} (h : frameToAddr f = frameToAddr g) : f = g := by
  rw [frameToAddr_eq, frameToAddr_eq] at h
  omega

theorem frameToAddr_mod (f : ℕ) : frameToAddr f % 4096 = 0 := by
  rw [frameToAddr_eq]
  omega

theorem frameToAddr_ne_zero (f : ℕ) : frameToAddr f ≠ 0 := by
  rw [frameToAddr_eq]
  omega

theorem frameToAddr_lt (h : f < 2 ^ 14) : frameToAddr f < 256 ^ 8 := by
  rw [frameToAddr_eq]
  omega

theorem addrToFrame_frameToAddr (h : f < 2 ^ 14) : addrToFrame (frameToAddr f) = f := by
  have hsub : 0xA00000 + f * 4096 + 2 ^ 64 - 0xA00000 = f * 4096 + 2 ^ 64 := by omega
  rw [addrToFrame, frameToAddr_eq, heapPhys, frameShift, shiftRight_eq_div_pow, hsub,
    add_mod_right, mod_eq_of_lt (by norm_num at h ⊢; omega)]
  exact Nat.mul_div_cancel f (by simp)

theorem and_frameMask (a : ℕ) : a &&& (frameSize - 1) = a % 4096 :=
  and_two_pow_sub_one_eq_mod a 12

theorem frameCount_eq : frameCount = 2 ^ 14 := rfl

/-! ### Links as tables -/

section Links

variable {h : Heap} {a b v : ℕ}

/-- A link is read back from where it was written, at offset `d` of a frame. -/
theorem load_write64_link {d : ℕ} (ha : a % 4096 = 0) (hb : b % 4096 = 0) (hv : v < 256 ^ 8) :
    (h.write64 (a + d) v).mem.load (b + d) 8 = if b = a then v else h.mem.load (b + d) 8 := by
  by_cases hab : b = a
  · rw [hab, if_pos rfl, Heap.write64, load_store, mod_eq_of_lt hv]
  · rw [if_neg hab, Heap.write64, load_store_of_disjoint (by omega)]

theorem next_write64 (ha : a % 4096 = 0) (hb : b % 4096 = 0) (hv : v < 256 ^ 8) :
    (h.write64 a v).next b = if b = a then v else h.next b :=
  load_write64_link (d := 0) ha hb hv

theorem next_write64_prev (ha : a % 4096 = 0) (hb : b % 4096 = 0) :
    (h.write64 (a + 8) v).next b = h.next b := by
  rw [Heap.next, Heap.write64, load_store_of_disjoint (by omega), Heap.next]

theorem prev_write64 (ha : a % 4096 = 0) (hb : b % 4096 = 0) :
    (h.write64 a v).prev b = h.prev b := by
  rw [Heap.prev, Heap.write64, load_store_of_disjoint (by omega), Heap.prev]

theorem prev_write64_prev (ha : a % 4096 = 0) (hb : b % 4096 = 0) (hv : v < 256 ^ 8) :
    (h.write64 (a + 8) v).prev b = if b = a then v else h.prev b :=
  load_write64_link ha hb hv

@[simp] theorem next_setFrame : (h.setFrame i t).next = h.next := rfl
@[simp] theorem next_setFreeArea : (h.setFreeArea i t).next = h.next := rfl
@[simp] theorem prev_setFreeArea : (h.setFreeArea i t).prev = h.prev := rfl
@[simp] theorem freeArea_write64 : (h.write64 a v).freeArea = h.freeArea := rfl
@[simp] theorem mem_setFreeArea : (h.setFreeArea i t).mem = h.mem := rfl
@[simp] theorem frames_setFrame :
    (h.setFrame i t).frames = update h.frames i t := rfl

end Links

/-- What the frame level leaves alone: the caches and the pools. -/
def SameCaches (h h' : Heap) : Prop :=
  h'.kmallocCaches = h.kmallocCaches ∧ h'.pcpuPages = h.pcpuPages ∧ h'.pcpuObjects = h.pcpuObjects

theorem SameCaches.refl (h : Heap) : SameCaches h h := ⟨rfl, rfl, rfl⟩

theorem SameCaches.trans (a : SameCaches h₁ h₂) (b : SameCaches h₂ h₃) :
    SameCaches h₁ h₃ := ⟨b.1.trans a.1, b.2.1.trans a.2.1, b.2.2.trans a.2.2⟩

/-- Only the memory and the heads of the lists may differ. -/
def SameTags (h h' : Heap) : Prop := h'.frames = h.frames ∧ SameCaches h h'

theorem SameTags.refl (h : Heap) : SameTags h h := ⟨rfl, .refl h⟩

theorem SameTags.trans (a : SameTags h₁ h₂) (b : SameTags h₂ h₃) :
    SameTags h₁ h₃ := ⟨b.1.trans a.1, a.2.trans b.2⟩

theorem sameTags_write64 (h : Heap) (a v : ℕ) : SameTags h (h.write64 a v) := ⟨rfl, rfl, rfl, rfl⟩

theorem sameTags_setFreeArea (h : Heap) (o p : ℕ) : SameTags h (h.setFreeArea o p) :=
  ⟨rfl, rfl, rfl, rfl⟩

theorem sameCaches_setFrame (h : Heap) (i t : ℕ) : SameCaches h (h.setFrame i t) := ⟨rfl, rfl, rfl⟩

theorem listAdd_same (h : Heap) (o blk : ℕ) : SameTags h (listAdd h o blk) := by
  refine SameTags.trans ?_ (sameTags_setFreeArea _ _ _)
  have h12 := (sameTags_write64 h blk (h.freeArea o)).trans (sameTags_write64 _ (blk + 8) 0)
  split
  · exact h12.trans (sameTags_write64 _ _ _)
  · exact h12

theorem listRemove_same (h : Heap) (o blk : ℕ) : SameTags h (listRemove h o blk) := by
  have h1 : SameTags h (unlinkForward h o blk) := by
    unfold unlinkForward
    split
    · exact sameTags_write64 _ _ _
    · exact sameTags_setFreeArea _ _ _
  refine h1.trans ?_
  unfold listRemove unlinkBackward
  split
  · exact sameTags_write64 _ _ _
  · exact .refl _

/-! ### Well-formed lists -/

theorem mem_update_cons {L : ℕ → List ℕ} {o k o' k' : ℕ} :
    k' ∈ update L o (k :: L o) o' ↔ (o' = o ∧ k' = k) ∨ k' ∈ L o' := by
  rw [update_apply]
  split
  · next h => simp [h]
  · next h => simp [h]

theorem mem_update_erase {L : ℕ → List ℕ} {o k o' k' : ℕ} (hn : (L o).Nodup) :
    k' ∈ update L o ((L o).erase k) o' ↔ k' ∈ L o' ∧ ¬ (o' = o ∧ k' = k) := by
  rw [update_apply]
  split
  · next h => simp [h, hn.mem_erase_iff, and_comm]
  · next h => simp [h]

/-- `free_area[o]` is a doubly linked list of the blocks numbered `L o`, for every order;
no two of them start on the same frame, and all start inside the heap. -/
structure Chains (h : Heap) (L : ℕ → List ℕ) : Prop where
  chain : ∀ o ≤ 14, Chain h.next h.prev 0 (h.freeArea o) ((L o).map (blkAddr o))
  le : ∀ o k, k ∈ L o → o ≤ 14
  lt : ∀ o k, k ∈ L o → k * 2 ^ o < 2 ^ 14
  inj : ∀ o k o' k', k ∈ L o → k' ∈ L o' → k * 2 ^ o = k' * 2 ^ o' → o = o' ∧ k = k'

theorem blkAddr_mod (o k : ℕ) : blkAddr o k % 4096 = 0 := frameToAddr_mod _

theorem blkAddr_ne_zero (o k : ℕ) : blkAddr o k ≠ 0 := frameToAddr_ne_zero _

theorem blkAddr_inj {o k o' k' : ℕ} (h : blkAddr o k = blkAddr o' k') : k * 2 ^ o = k' * 2 ^ o' :=
  frameToAddr_inj h

theorem blkAddr_injective (o : ℕ) : Function.Injective (blkAddr o) := fun _ _ h =>
  Nat.eq_of_mul_eq_mul_right (Nat.two_pow_pos o) (blkAddr_inj h)

namespace Chains

variable {h : Heap} {L : ℕ → List ℕ} {o k : ℕ}

theorem nodup (hc : Chains h L) (o : ℕ) : (L o).Nodup := by
  by_cases ho : o ≤ 14
  · exact (hc.chain o ho).nodup.of_map _
  · rw [eq_nil_iff_forall_not_mem.mpr (fun k hk => ho (hc.le o k hk))]
    exact nodup_nil

theorem freeArea_cases (hc : Chains h L) (ho : o ≤ 14) :
    (L o = [] ∧ h.freeArea o = 0) ∨ ∃ k t, L o = k :: t ∧ h.freeArea o = blkAddr o k := by
  have hh := (hc.chain o ho).head_eq
  cases hL : L o with
  | nil => exact .inl ⟨rfl, by simpa [hL] using hh⟩
  | cons k t => exact .inr ⟨k, t, rfl, by simpa [hL] using hh⟩

theorem freeArea_mod (hc : Chains h L) (ho : o ≤ 14) : h.freeArea o % 4096 = 0 := by
  rcases hc.freeArea_cases ho with ⟨_, he⟩ | ⟨k, t, _, he⟩ <;> rw [he]
  exact blkAddr_mod o k

theorem freeArea_lt (hc : Chains h L) (ho : o ≤ 14) : h.freeArea o < 256 ^ 8 := by
  rcases hc.freeArea_cases ho with ⟨_, he⟩ | ⟨k, t, hL, he⟩ <;> rw [he]
  · simp
  · exact frameToAddr_lt (hc.lt o k (by simp [hL]))

theorem listAdd_links (hc : Chains h L) (ho : o ≤ 14) (hk : k * 2 ^ o < 2 ^ 14) {b : ℕ}
    (hb : b % 4096 = 0) :
    (listAdd h o (blkAddr o k)).next b = (if b = blkAddr o k then h.freeArea o else h.next b) ∧
    (listAdd h o (blkAddr o k)).prev b =
      (if h.freeArea o ≠ 0 ∧ b = h.freeArea o then blkAddr o k
        else if b = blkAddr o k then 0 else h.prev b) := by
  have hm := blkAddr_mod o k
  have hfm := hc.freeArea_mod ho
  have hfl := hc.freeArea_lt ho
  have hkl : blkAddr o k < 256 ^ 8 := frameToAddr_lt hk
  unfold listAdd
  dsimp only
  simp only [freeArea_write64, next_setFreeArea, prev_setFreeArea]
  by_cases h0 : h.freeArea o = 0
  · simp only [h0, ne_eq, not_true, if_false, false_and]
    rw [next_write64_prev hm hb, next_write64 hm hb (by simp), prev_write64_prev hm hb (by simp),
      prev_write64 hm hb]
    exact ⟨rfl, rfl⟩
  · simp only [ne_eq, h0, not_false_eq_true, if_true, true_and]
    rw [next_write64_prev hfm hb, next_write64_prev hm hb, next_write64 hm hb hfl,
      prev_write64_prev hfm hb hkl, prev_write64_prev hm hb (by simp), prev_write64 hm hb]
    exact ⟨rfl, rfl⟩

theorem freeArea_listAdd (h : Heap) (o blk o' : ℕ) :
    (listAdd h o blk).freeArea o' = if o' = o then blk else h.freeArea o' := by
  unfold listAdd
  dsimp only
  split <;> simp [Heap.setFreeArea, update_apply]

/-- **`list_add` puts a new block in front.** -/
theorem add (hc : Chains h L) (ho : o ≤ 14) (hk : k * 2 ^ o < 2 ^ 14)
    (hnew : ∀ o' k', k' ∈ L o' → k' * 2 ^ o' ≠ k * 2 ^ o) :
    Chains (listAdd h o (blkAddr o k)) (update L o (k :: L o)) := by
  have hlink : ∀ o' k', k' ∈ L o' → blkAddr o' k' ≠ blkAddr o k :=
    fun o' k' hk' he => hnew o' k' hk' (blkAddr_inj he)
  have hnode : ∀ o', ∀ y ∈ (L o').map (blkAddr o'), y % 4096 = 0 ∧ y ≠ blkAddr o k := by
    intro o' y hy
    obtain ⟨k', hk', rfl⟩ := mem_map.mp hy
    exact ⟨blkAddr_mod _ _, hlink o' k' hk'⟩
  refine ⟨fun o' ho' => ?_, fun o' k' hk' => ?_, fun o' k' hk' => ?_, ?_⟩
  · rw [freeArea_listAdd]
    by_cases hoo : o' = o
    · subst hoo
      rw [if_pos rfl, update_self, map_cons]
      refine (hc.chain o' ho).push (blkAddr_ne_zero _ _) ?_ ?_ ?_ ?_ ?_
      · rw [(hc.listAdd_links ho hk (blkAddr_mod _ _)).1, if_pos rfl]
      · rw [(hc.listAdd_links ho hk (blkAddr_mod _ _)).2, if_neg, if_pos rfl]
        rintro ⟨h0, he⟩
        rcases hc.freeArea_cases ho with ⟨_, hf⟩ | ⟨k', t, hL, hf⟩
        · exact h0 hf
        · exact hlink o' k' (by simp [hL]) (he.trans hf).symm
      · intro y hy
        obtain ⟨h1, h2⟩ := hnode o' y hy
        rw [(hc.listAdd_links ho hk h1).1, if_neg h2]
      · intro y hy hyp
        obtain ⟨h1, h2⟩ := hnode o' y hy
        rw [(hc.listAdd_links ho hk h1).2, if_neg (fun hh => hyp hh.2), if_neg h2]
      · intro h0
        rw [(hc.listAdd_links ho hk (hc.freeArea_mod ho)).2, if_pos ⟨h0, rfl⟩]
    · rw [if_neg hoo, update_of_ne hoo]
      -- another list: its nodes are not the old head of list `o` either
      have hhead : ∀ y ∈ (L o').map (blkAddr o'), ¬ (h.freeArea o ≠ 0 ∧ y = h.freeArea o) := by
        rintro y hy ⟨h0, he⟩
        obtain ⟨k', hk', rfl⟩ := mem_map.mp hy
        rcases hc.freeArea_cases ho with ⟨_, hf⟩ | ⟨k2, t, hL, hf⟩
        · exact h0 hf
        · rw [hf] at he
          exact hoo (hc.inj o' k' o k2 hk' (by simp [hL]) (blkAddr_inj he)).1
      refine (hc.chain o' ho').congr (fun y hy => ?_) (fun y hy => ?_)
      · obtain ⟨h1, h2⟩ := hnode o' y hy
        rw [(hc.listAdd_links ho hk h1).1, if_neg h2]
      · obtain ⟨h1, h2⟩ := hnode o' y hy
        rw [(hc.listAdd_links ho hk h1).2, if_neg (hhead y hy), if_neg h2]
  · rcases mem_update_cons.mp hk' with ⟨rfl, -⟩ | hk'
    · exact ho
    · exact hc.le o' k' hk'
  · rcases mem_update_cons.mp hk' with ⟨rfl, rfl⟩ | hk'
    · exact hk
    · exact hc.lt o' k' hk'
  intro o1 k1 o2 k2 h1 h2 he
  rcases mem_update_cons.mp h1 with ⟨e1, e1'⟩ | h1 <;>
    rcases mem_update_cons.mp h2 with ⟨e2, e2'⟩ | h2
  · exact ⟨e1.trans e2.symm, e1'.trans e2'.symm⟩
  · exact absurd (by rw [← he, e1, e1']) (hnew o2 k2 h2)
  · exact absurd (by rw [he, e2, e2']) (hnew o1 k1 h1)
  · exact hc.inj o1 k1 o2 k2 h1 h2 he

theorem neighbours (hc : Chains h L) (hk : k ∈ L o) :
    (h.next (blkAddr o k) = 0 ∨ ∃ k' ∈ L o, k' ≠ k ∧ h.next (blkAddr o k) = blkAddr o k') ∧
    (h.prev (blkAddr o k) = 0 ∨ ∃ k' ∈ L o, k' ≠ k ∧ h.prev (blkAddr o k) = blkAddr o k') := by
  have hch := hc.chain o (hc.le o k hk)
  have hmem : blkAddr o k ∈ (L o).map (blkAddr o) := mem_map.mpr ⟨k, hk, rfl⟩
  have hcase : ∀ p, (p = 0 ∨ (p ∈ (L o).map (blkAddr o) ∧ p ≠ blkAddr o k)) →
      p = 0 ∨ ∃ k' ∈ L o, k' ≠ k ∧ p = blkAddr o k' := by
    rintro p (h0 | ⟨hp, hne⟩)
    · exact .inl h0
    · obtain ⟨k', hk', rfl⟩ := mem_map.mp hp
      exact .inr ⟨k', hk', fun he => hne (by rw [he]), rfl⟩
  exact ⟨hcase _ (hch.next_cases hmem), hcase _ (hch.prev_cases hmem)⟩

theorem link_facts (hc : Chains h L) {p : ℕ} (hp : p = 0 ∨ ∃ k' ∈ L o, k' ≠ k ∧ p = blkAddr o k') :
    p % 4096 = 0 ∧ p < 256 ^ 8 ∧ p ≠ blkAddr o k := by
  rcases hp with rfl | ⟨k', hk', hne, rfl⟩
  · exact ⟨rfl, by simp, (blkAddr_ne_zero o k).symm⟩
  · exact ⟨blkAddr_mod _ _, frameToAddr_lt (hc.lt o k' hk'), fun he => hne (blkAddr_injective o he)⟩

theorem listRemove_links (hc : Chains h L) (hk : k ∈ L o) {b : ℕ} (hb : b % 4096 = 0) :
    (listRemove h o (blkAddr o k)).next b =
      (if h.prev (blkAddr o k) ≠ 0 ∧ b = h.prev (blkAddr o k) then h.next (blkAddr o k)
        else h.next b) ∧
    (listRemove h o (blkAddr o k)).prev b =
      (if h.next (blkAddr o k) ≠ 0 ∧ b = h.next (blkAddr o k) then h.prev (blkAddr o k)
        else h.prev b) ∧
    ∀ o', (listRemove h o (blkAddr o k)).freeArea o' =
      if h.prev (blkAddr o k) = 0 ∧ o' = o then h.next (blkAddr o k) else h.freeArea o' := by
  obtain ⟨hn, hp⟩ := hc.neighbours hk
  obtain ⟨hn1, hn2, _⟩ := hc.link_facts hn
  obtain ⟨hp1, hp2, hp3⟩ := hc.link_facts hp
  have hm := blkAddr_mod o k
  generalize hx : blkAddr o k = x at *
  have hF : ∀ c, c % 4096 = 0 →
      (unlinkForward h o x).next c = (if h.prev x ≠ 0 ∧ c = h.prev x then h.next x else h.next c) ∧
      (unlinkForward h o x).prev c = h.prev c := by
    intro c hcm
    unfold unlinkForward
    by_cases h0 : h.prev x = 0
    · simp [h0]
    · simp only [ne_eq, h0, not_false_eq_true, if_true, true_and]
      exact ⟨next_write64 hp1 hcm hn2, prev_write64 hp1 hcm⟩
  have hFx : (unlinkForward h o x).next x = h.next x := by
    rw [(hF x hm).1, if_neg (fun hh => hp3 hh.2.symm)]
  have hFa : ∀ o', (unlinkForward h o x).freeArea o' =
      if h.prev x = 0 ∧ o' = o then h.next x else h.freeArea o' := by
    intro o'
    unfold unlinkForward
    by_cases h0 : h.prev x = 0
    · simp [h0, Heap.setFreeArea, update_apply]
    · simp [h0]
  unfold listRemove unlinkBackward
  rw [hFx, (hF x hm).2]
  by_cases h0 : h.next x = 0
  · simp only [h0, ne_eq, not_true, if_false, false_and]
    have hb' := hF b hb
    rw [h0] at hb' hFa
    exact ⟨hb'.1, hb'.2, hFa⟩
  · simp only [ne_eq, h0, not_false_eq_true, if_true, true_and]
    rw [next_write64_prev hn1 hb, prev_write64_prev hn1 hb hp2, (hF b hb).1, (hF b hb).2,
      freeArea_write64]
    exact ⟨rfl, rfl, hFa⟩

/-- **`list_remove` takes a listed block out.** -/
theorem remove (hc : Chains h L) (hk : k ∈ L o) :
    Chains (listRemove h o (blkAddr o k)) (update L o ((L o).erase k)) := by
  have hsub : ∀ o' k', k' ∈ update L o ((L o).erase k) o' → k' ∈ L o' :=
    fun o' k' hk' => ((mem_update_erase (hc.nodup o)).mp hk').1
  refine ⟨fun o' ho' => ?_, fun o' k' hk' => hc.le o' k' (hsub o' k' hk'),
    fun o' k' hk' => hc.lt o' k' (hsub o' k' hk'),
    fun o1 k1 o2 k2 h1 h2 => hc.inj o1 k1 o2 k2 (hsub _ _ h1) (hsub _ _ h2)⟩
  rw [(hc.listRemove_links hk (blkAddr_mod o k)).2.2]
  have hmod : ∀ o', ∀ y ∈ (L o').map (blkAddr o'), y % 4096 = 0 := by
    intro o' y hy
    obtain ⟨k', _, rfl⟩ := mem_map.mp hy
    exact blkAddr_mod _ _
  by_cases hoo : o' = o
  · subst hoo
    rw [update_self]
    have hmem : blkAddr o' k ∈ (L o').map (blkAddr o') := mem_map.mpr ⟨k, hk, rfl⟩
    have hres : Chain (listRemove h o' (blkAddr o' k)).next (listRemove h o' (blkAddr o' k)).prev 0
        _ _ := (hc.chain o' ho').unlink hmem
      (fun y hy => (hc.listRemove_links hk (hmod o' y hy)).1)
      (fun y hy => (hc.listRemove_links hk (hmod o' y hy)).2.1)
    rw [← map_erase (blkAddr_injective o')] at hres
    simp only [and_true]
    exact hres
  rw [update_of_ne hoo, if_neg (fun hh => hoo hh.2)]
  obtain ⟨hn, hp⟩ := hc.neighbours hk
  -- another list: none of its nodes is a neighbour of the removed one
  have hne : ∀ p, (p = 0 ∨ ∃ k' ∈ L o, k' ≠ k ∧ p = blkAddr o k') →
      ∀ y ∈ (L o').map (blkAddr o'), ¬ (p ≠ 0 ∧ y = p) := by
    rintro p hpp y hy ⟨h0, rfl⟩
    obtain ⟨k2, hk2, rfl⟩ := mem_map.mp hy
    rcases hpp with he | ⟨k', hk', _, he⟩
    · exact h0 he
    · exact hoo (hc.inj o' k2 o k' hk2 hk' (blkAddr_inj he)).1
  refine (hc.chain o' ho').congr (fun y hy => ?_) (fun y hy => ?_)
  · rw [(hc.listRemove_links hk (hmod o' y hy)).1, if_neg (hne _ hp y hy)]
  · rw [(hc.listRemove_links hk (hmod o' y hy)).2.1, if_neg (hne _ hn y hy)]

end Chains

/-! ### Which bytes the lists touch -/

/-- A byte of the links of block `k` of order `o`. -/
def LinkByte (o k a : ℕ) : Prop := blkAddr o k ≤ a ∧ a < blkAddr o k + 16

theorem write64_mem {h : Heap} {b v a : ℕ} (hne : (h.write64 b v).mem a ≠ h.mem a) :
    b ≤ a ∧ a < b + 8 := by
  by_contra hc
  exact hne (store_apply_of_not_mem (by omega))

theorem listAdd_mem {h : Heap} {L : ℕ → List ℕ} (hc : Chains h L) {o k a : ℕ} (ho : o ≤ 14)
    (hne : (listAdd h o (blkAddr o k)).mem a ≠ h.mem a) : ∃ k' ∈ k :: L o, LinkByte o k' a := by
  by_contra hall
  push Not at hall
  have hk : ¬ LinkByte o k a := hall k (by simp)
  apply hne
  unfold listAdd
  dsimp only
  rw [mem_setFreeArea]
  have h1 : (h.write64 (blkAddr o k) (h.freeArea o)).mem a = h.mem a := by
    by_contra hc1
    have := write64_mem hc1
    exact hk ⟨this.1, by omega⟩
  have h2 : ((h.write64 (blkAddr o k) (h.freeArea o)).write64 (blkAddr o k + 8) 0).mem a = h.mem a := by
    rw [← h1]
    by_contra hc2
    have := write64_mem hc2
    exact hk ⟨by omega, by omega⟩
  split
  · rename_i h0
    rw [← h2]
    by_contra hc3
    have hw := write64_mem hc3
    simp only [freeArea_write64] at hw h0
    rcases hc.freeArea_cases ho with ⟨_, he⟩ | ⟨k', t, hL, he⟩
    · exact h0 he
    · rw [he] at hw
      exact hall k' (by simp [hL]) ⟨by omega, by omega⟩
  · exact h2

theorem listRemove_mem {h : Heap} {L : ℕ → List ℕ} (hc : Chains h L) {o k a : ℕ} (hk : k ∈ L o)
    (hne : (listRemove h o (blkAddr o k)).mem a ≠ h.mem a) : ∃ k' ∈ L o, LinkByte o k' a := by
  by_contra hall
  push Not at hall
  obtain ⟨hn, hp⟩ := hc.neighbours hk
  obtain ⟨hn1, hn2, _⟩ := hc.link_facts hn
  obtain ⟨hp1, hp2, hp3⟩ := hc.link_facts hp
  have hm := blkAddr_mod o k
  have hF : (unlinkForward h o (blkAddr o k)).mem a = h.mem a := by
    unfold unlinkForward
    split
    · rename_i h0
      by_contra hc1
      have hw := write64_mem hc1
      rcases hp with he | ⟨k', hk', _, he⟩
      · exact h0 he
      · rw [he] at hw
        exact hall k' hk' ⟨hw.1, by omega⟩
    · rfl
  have hFx : (unlinkForward h o (blkAddr o k)).next (blkAddr o k) = h.next (blkAddr o k) := by
    unfold unlinkForward
    split
    · rw [next_write64 hp1 hm hn2, if_neg (fun he => hp3 he.symm)]
    · rfl
  apply hne
  unfold listRemove unlinkBackward
  rw [hFx]
  split
  · rename_i h0
    rw [← hF]
    by_contra hc2
    have hw := write64_mem hc2
    rcases hn with he | ⟨k', hk', _, he⟩
    · exact h0 he
    · rw [he] at hw
      exact hall k' hk' ⟨by omega, by omega⟩
  · exact hF

end TipOS.Memory
