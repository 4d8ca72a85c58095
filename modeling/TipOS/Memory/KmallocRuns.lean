import TipOS.Memory.KmallocInv

/-!
# Runs of `kmalloc`, `kfree`, `mmap_user` and `munmap_user`

Each function is taken apart into the moves of `KmallocInv`, and keeps the invariant `KOk`.
A run is a sequence of calls together with what the callers write into the blocks they hold.  The
result is `held_blocks_disjoint`: in every state of every run, the blocks with the callers
do not overlap each other, a slab header or a free block.
-/

namespace TipOS.Memory

open Function Lib List Nat Blocks KInv

variable {size pages : ℕ}

/-- The invariant between calls, with the blocks `X` held apart: nothing is said of what
their first word holds. -/
def KOkWith (X : List HeldBlock) (h : Heap) (P : List HeldBlock) (O : ℕ → List ℕ) : Prop :=
  ∃ B L S F, KInv h X P O B L S F

/-- The invariant between calls. -/
def KOk (h : Heap) (P : List HeldBlock) (O : ℕ → List ℕ) : Prop :=
  KOkWith [] h P O

theorem KOkWith.perm {X : List HeldBlock} {h : Heap} {P P' : List HeldBlock}
    {O O' : ℕ → List ℕ} (hk : KOkWith X h P O)
    (hP : P'.Perm P) (hO : ∀ j, (O' j).Perm (O j)) : KOkWith X h P' O' := by
  obtain ⟨B, L, S, F, hk⟩ := hk
  exact ⟨B, L, S, F, hk.perm hP hO⟩

section Slabs

variable {X : List HeldBlock} {h : Heap} {P : List HeldBlock} {O : ℕ → List ℕ}
  {B : FrameBlocks} {L S F : ℕ → List ℕ} {i s a : ℕ}

/-! ### `slab_alloc` -/

theorem findSlab_eq {l : List ℕ} : ∀ {n b p : ℕ}, Chain h.slabNext h.slabPrev b p l → l.length < n →
    findSlab h n p = (l.find? (fun s => h.freelist s ≠ 0)).getD 0 := by
  induction l with
  | nil =>
    intro n b p hc hn
    obtain ⟨n, rfl⟩ : ∃ m, n = m + 1 := ⟨n - 1, by omega⟩
    rw [findSlab, if_pos (show p = 0 from hc)]
    rfl
  | cons t l ih =>
    intro n b p hc hn
    obtain ⟨n, rfl⟩ : ∃ m, n = m + 1 := ⟨n - 1, by omega⟩
    obtain ⟨rfl, h0, _, ht⟩ := hc
    rw [findSlab, if_neg h0]
    by_cases hf : h.freelist p ≠ 0
    · rw [if_pos hf, find?_cons_of_pos (by simpa using hf)]
      rfl
    · rw [if_neg hf, find?_cons_of_neg (by simpa using hf)]
      exact ih ht (by rw [length_cons] at hn; omega)

theorem KInv.slabs_length (hk : KInv h X P O B L S F) (hi : i < 8) :
    (S i).length ≤ 2 ^ 14 := by
  have hsub : S i ⊆ (List.range (2 ^ 14)).map (blkAddr 0) := by
    intro s hs
    obtain ⟨k, hk', hc⟩ := (hk.frames.held_iff _).mp (slab_mem hi hs)
    have hlt : k * 2 ^ 0 < 2 ^ 14 := head_lt hc
    rw [pow_zero, mul_one] at hlt
    exact mem_map.mpr ⟨k, mem_range.mpr hlt, hk'.symm⟩
  have := (subperm_of_subset (hk.slabs.chain i hi).nodup hsub).length_le
  rwa [length_map, length_range] at this

theorem KInv.findSlab_cases (hk : KInv h X P O B L S F) (hi : i < 8)
    (hs : s = findSlab h (frameCount + 1) (h.kmallocCaches i).slabs) (h0 : s ≠ 0) :
    s ∈ S i ∧ h.freelist s ≠ 0 := by
  have hlen := hk.slabs_length hi
  rw [findSlab_eq (hk.slabs.chain i hi) (by rw [frameCount_eq]; omega)] at hs
  cases hf : (S i).find? (fun s => h.freelist s ≠ 0) with
  | none =>
    rw [hf] at hs
    exact absurd hs h0
  | some t =>
    rw [hf] at hs
    obtain rfl : s = t := hs
    exact ⟨mem_of_find?_eq_some hf, by simpa using find?_some hf⟩

theorem inUse_takeFree (h : Heap) (s : ℕ) : (takeFree h s).2.inUse s = h.inUse s :=
  (onlyMem_write64 h (s + 16) _).outside (by omega)

/-- **`slab_alloc`** hands an object to the caller. -/
theorem slabAlloc_ok (hk : KInv h X P O B L S F) (hi : i < 8) :
    ((slabAlloc h i).1 = none ∧ KOkWith X (slabAlloc h i).2 P O) ∨
    ∃ a, (slabAlloc h i).1 = some a ∧
      KOkWith X (slabAlloc h i).2 P (update O i (a :: O i)) := by
  obtain ⟨s, hs⟩ : ∃ s, s = findSlab h (frameCount + 1) (h.kmallocCaches i).slabs := ⟨_, rfl⟩
  unfold slabAlloc
  rw [← hs]
  by_cases h0 : s ≠ 0
  · rw [if_pos h0]
    obtain ⟨hsS, hfree⟩ := hk.findSlab_cases hi hs h0
    obtain ⟨l, _, hk'⟩ := hk.pop hi hsS hfree (congrArg (· + 1) (inUse_takeFree h s))
    exact .inr ⟨_, rfl, B, L, S, _, hk'⟩
  rw [if_neg h0]
  rcases hk.alloc 0 false with ⟨h1, h2⟩ | ⟨p, B', L', h1, _, _, hk'⟩
  · rw [show buddyAlloc h 0 false = (none, h) from Prod.ext h1 h2]
    exact .inl ⟨rfl, B, L, S, F, hk⟩
  generalize buddyAlloc h 0 false = r at h1 hk'
  obtain ⟨r1, h₁⟩ := r
  obtain rfl : r1 = some p := h1
  have hk1 : KInv h₁ (pageBlock p :: X) P O B' L' S F := hk'
  obtain ⟨Fs, hk2, hok, hlen⟩ := hk1.toSlab hi
  -- the new slab has free objects, and none is in use
  have huse : (newSlab h₁ i p).inUse p = 0 := by
    have := hok.inUse
    omega
  have hfree : (newSlab h₁ i p).freelist p ≠ 0 := by
    intro hz
    have hst := hok.free
    rw [hz] at hst
    cases Fs with
    | nil =>
      have := (obj_facts i hi).2.1
      rw [length_nil] at hlen
      omega
    | cons c t => exact hst.2.1 hst.1.symm
  obtain ⟨l, _, hk3⟩ := hk2.pop hi (by rw [update_self]; simp) hfree (n := 1)
    (by rw [huse])
  exact .inr ⟨_, rfl, B', L', _, _, hk3⟩

/-! ### The per-CPU stacks -/

theorem refill_ok (hi : i < 8) : ∀ (want : ℕ) {h : Heap} {F : ℕ → List ℕ},
    KInv h X P O B L S F → s ∈ S i → KOkWith X (refill want h i s) P O := by
  intro want
  induction want with
  | zero => exact fun hk _ => ⟨B, L, S, _, hk⟩
  | succ want ih =>
    intro h F hk hs
    rw [refill]
    by_cases hfree : h.freelist s ≠ 0
    · rw [if_pos hfree]
      dsimp only
      obtain ⟨l, _, hk'⟩ := hk.pop hi hs hfree (congrArg (· + 1) (inUse_takeFree h s))
      split
      · rename_i hlen
        have hk2 := hk'.pushObject (update_self _ _ _) hlen
        rw [update_idem, update_eq_self] at hk2
        exact ih hk2 hs
      refine ⟨B, L, S, _, hk'.forget (fun j => ?_)⟩
      by_cases hji : j = i
      · subst hji
        rw [update_self]
        exact sublist_cons_self _ _
      · rw [update_of_ne hji]
    · rw [if_neg hfree]
      exact ⟨B, L, S, F, hk⟩

/-- **`pcpu_slab_alloc`** hands an object to the caller. -/
theorem pcpuSlabAlloc_ok (hk : KInv h X P O B L S F) (hi : i < 8) :
    ((pcpuSlabAlloc h i).1 = none ∧ KOkWith X (pcpuSlabAlloc h i).2 P O) ∨
    ∃ a, (pcpuSlabAlloc h i).1 = some a ∧
      KOkWith X (pcpuSlabAlloc h i).2 P (update O i (a :: O i)) := by
  unfold pcpuSlabAlloc
  rw [(hk.slabs.cache i hi).2]
  dsimp only
  cases hst : h.pcpuObjects i with
  | cons obj rest =>
    exact .inr ⟨obj, rfl, B, L, S, F, hk.popObject hi hst⟩
  | nil =>
    dsimp only
    rcases slabAlloc_ok hk hi with ⟨h1, h2⟩ | ⟨a, h1, h2⟩
    · generalize slabAlloc h i = r at h1 h2
      obtain ⟨r1, h₁⟩ := r
      obtain rfl : r1 = none := h1
      exact .inl ⟨rfl, h2⟩
    generalize slabAlloc h i = r at h1 h2
    obtain ⟨r1, h₁⟩ := r
    obtain rfl : r1 = some a := h1
    obtain ⟨B', L', S', F', hk'⟩ := h2
    dsimp only at hk' ⊢
    obtain ⟨s, hs, hobj, _⟩ := hk'.tokens.obj i hi a (by simp)
    have hp := hk'.pages i hi s hs
    rw [hobj.pageBase hi hp.1 hp.2.2]
    exact .inr ⟨a, rfl, refill_ok hi _ hk' hs⟩

theorem settle_ok (hk : KInv h X P O B L S F) (hi : i < 8) (hs : s ∈ S i) {c : ℕ}
    (hc : c = i + 1) : KOkWith X (if h.inUse s = 0 then detach h s c else h) P O := by
  subst hc
  split
  · rename_i h0
    have hfull : (F s).length = objCount i := by
      have := (hk.slabs.slab i hi s hs).inUse
      omega
    obtain ⟨B', L', hk', _⟩ := (hk.ofSlab hi hs hfull).release
    exact ⟨B', L', _, F, hk'⟩
  · exact ⟨B, L, S, F, hk⟩

theorem giveBack_settle_ok (hk : KOkWith X h P O) (hi : i < 8) {l : List ℕ} (hO : O i = a :: l) {c : ℕ}
    (hs : s = pageBase a) (hc : c = i + 1 ∨ c = (giveBack h a s).cache s) :
    KOkWith X (if (giveBack h a s).inUse s = 0 then detach (giveBack h a s) s c else giveBack h a s) P
      (update O i l) := by
  obtain ⟨B, L, S, F, hk⟩ := hk
  obtain ⟨t, ht, hpb, hk'⟩ := hk.give hi hO
  obtain rfl : s = t := hs.trans hpb
  refine settle_ok hk' hi ht ?_
  rcases hc with hc | hc
  · exact hc
  · exact hc.trans (hk'.slabs.slab i hi s ht).cache

theorem drain_ok (hi : i < 8) : ∀ (n : ℕ) {h : Heap}, KOkWith X h P O → KOkWith X (drain n h i) P O := by
  intro n
  induction n with
  | zero => exact fun hk => hk
  | succ n ih =>
    intro h hk
    rw [drain]
    cases hst : h.pcpuObjects i with
    | nil => exact hk
    | cons obj rest =>
      refine ih ?_
      obtain ⟨B, L, S, F, hk⟩ := hk
      -- the object is with nobody for a moment, as if a caller had it
      have hk' : KOkWith X (h.setObjects i rest) P (update O i (obj :: O i)) :=
        ⟨B, L, S, F, hk.popObject hi hst⟩
      have hg := giveBack_settle_ok hk' hi (update_self i (obj :: O i) O) rfl (.inr rfl)
      rwa [update_idem, update_eq_self] at hg

/-- **`pcpu_slab_free`** takes an object from the caller. -/
theorem pcpuSlabFree_ok (hk : KOkWith X h P O) (hi : i < 8) {l : List ℕ} (hO : O i = a :: l)
    (hs : s = pageBase a) : KOkWith X (pcpuSlabFree h a s) P (update O i l) := by
  have hk0 := hk
  obtain ⟨B, L, S, F, hk⟩ := hk
  obtain ⟨t, ht, hobj, _⟩ := hk.tokens.obj i hi a (by rw [hO]; simp)
  have hp := hk.pages i hi t ht
  obtain rfl : s = t := hs.trans (hobj.pageBase hi hp.1 hp.2.2)
  have hcache := (hk.slabs.slab i hi s ht).cache
  unfold pcpuSlabFree
  dsimp only
  rw [hcache, Nat.add_sub_cancel, (hk.slabs.cache i hi).2]
  split
  · rename_i hlen
    exact ⟨B, L, S, F, hk.pushObject hO hlen⟩
  · exact giveBack_settle_ok (drain_ok hi _ hk0) hi hO hs (.inl rfl)

end Slabs

/-! ### The entry points -/

/-- The cache `kmalloc` takes for a small size. -/
def cacheIndex (size : ℕ) : ℕ :=
  ((List.range 8).find? (fun i => (if size < 16 then 16 else size) ≤ objSize i)).getD 0

theorem cacheIndex_spec (h : size < 2048) :
    cacheIndex size < 8 ∧ size ≤ objSize (cacheIndex size) ∧
      (List.range 8).find? (fun i => (if size < 16 then 16 else size) ≤ objSize i) =
        some (cacheIndex size) := by
  unfold cacheIndex
  cases hf : (List.range 8).find? (fun i => (if size < 16 then 16 else size) ≤ objSize i) with
  | none =>
    have h7 := find?_eq_none.mp hf 7 (by decide)
    rw [decide_eq_true_eq, show objSize 7 = 2048 from rfl] at h7
    split at h7 <;> omega
  | some i =>
    have hi := mem_range.mp (mem_of_find?_eq_some hf)
    have hle := find?_some hf
    rw [decide_eq_true_eq] at hle
    refine ⟨hi, ?_, rfl⟩
    rw [Option.getD_some]
    split at hle <;> omega

theorem le_two_pow_orderLoop : ∀ {n order : ℕ}, pages ≤ 2 ^ (order + n) →
    pages ≤ 2 ^ orderLoop pages n order := by
  intro n
  induction n with
  | zero => exact fun h => h
  | succ n ih =>
    intro order h
    rw [orderLoop]
    split
    · exact ih (by rw [add_right_comm]; exact h)
    · rename_i hle
      rw [shiftLeft_eq, one_mul] at hle
      exact Nat.le_of_not_lt hle

theorem pagesFor_of_le (h : size ≤ 2 ^ 64 - 4096) : pagesFor size = (size + 4095) / 4096 := by
  unfold pagesFor frameSize
  rw [mod_eq_of_lt (by omega)]
  rfl

theorem pagesFor_le (size : ℕ) : pagesFor size ≤ 2 ^ 52 := by
  unfold pagesFor frameSize
  omega

theorem size_le_block (h : size ≤ 2 ^ 26) (hp : pagesFor size ≤ pages) (hp' : pages ≤ 2 ^ 26) :
    size ≤ 4096 * 2 ^ orderFor pages := by
  have h1 : pages ≤ 2 ^ orderFor pages := le_two_pow_orderLoop (hp'.trans (by simp))
  rw [pagesFor_of_le (by omega)] at hp
  omega

section Entry

variable {X : List HeldBlock} {h : Heap} {P : List HeldBlock} {O : ℕ → List ℕ} {a : ℕ}
  {b : HeldBlock} {B : FrameBlocks} {L S F : ℕ → List ℕ}

/-- `pcpu_page_alloc` hands a page to the caller. -/
theorem pcpuPageAlloc_ok (hk : KOkWith X h P O) :
    ((pcpuPageAlloc h).1 = none ∧ KOkWith X (pcpuPageAlloc h).2 P O) ∨
    ∃ p, (pcpuPageAlloc h).1 = some p ∧ KOkWith X (pcpuPageAlloc h).2 (pageBlock p :: P) O := by
  obtain ⟨B, L, S, F, hk⟩ := hk
  unfold pcpuPageAlloc
  cases hpool : h.pcpuPages with
  | cons p rest =>
    obtain ⟨hk', hmag⟩ := hk.ofPool hpool
    exact .inr ⟨p, rfl, B, L, S, F, hk'.land (fun _ => hmag)⟩
  | nil =>
    rcases hk.alloc 0 false with ⟨h1, h2⟩ | ⟨p, B', L', h1, _, hmag, hk'⟩
    · exact .inl ⟨h1, by rw [h2]; exact ⟨B, L, S, F, hk⟩⟩
    · exact .inr ⟨p, h1, B', L', S, F, hk'.land (fun _ => hmag)⟩

theorem findCache_eq (hk : KOkWith X h P O) (size : ℕ) :
    findCache h size = (List.range 8).find? (fun i => size ≤ objSize i) := by
  obtain ⟨B, L, S, F, hk⟩ := hk
  unfold findCache
  rw [← head?_filter, ← head?_filter]
  congr 1
  refine filter_congr (fun i hi => ?_)
  rw [(hk.slabs.cache i (mem_range.mp hi)).1]

/-- **`kmalloc`** hands a page-level block or an object to the caller. -/
theorem kmalloc_ok (hk : KOkWith X h P O) (size : ℕ) :
    ((kmalloc h size).1 = none ∧ KOkWith X (kmalloc h size).2 P O) ∨
    ∃ a, (kmalloc h size).1 = some a ∧
      (if 2048 ≤ size then
        KOkWith X (kmalloc h size).2 (⟨a, orderFor (pagesFor size), false⟩ :: P) O
      else KOkWith X (kmalloc h size).2 P
        (update O (cacheIndex size) (a :: O (cacheIndex size)))) := by
  unfold kmalloc
  by_cases h0 : size = 0
  · rw [if_pos h0]
    exact .inl ⟨rfl, hk⟩
  rw [if_neg h0]
  by_cases hbig : 2048 ≤ size
  · rw [if_neg (by omega : ¬ size < 16), if_pos hbig]
    simp only [hbig, if_true]
    split
    · rename_i hord
      rw [hord]
      exact pcpuPageAlloc_ok hk
    obtain ⟨B, L, S, F, hk⟩ := hk
    rcases hk.alloc (orderFor (pagesFor size)) false with ⟨h1, h2⟩ | ⟨p, B', L', h1, _, hmag, hk'⟩
    · exact .inl ⟨h1, by rw [h2]; exact ⟨B, L, S, F, hk⟩⟩
    · exact .inr ⟨p, h1, B', L', S, F, hk'.land (fun _ => hmag)⟩
  · obtain ⟨hi, _, hfind⟩ := cacheIndex_spec (Nat.lt_of_not_le hbig)
    have hsmall : ¬ 2048 ≤ (if size < 16 then 16 else size) := by split <;> omega
    rw [if_neg hsmall, findCache_eq hk, hfind]
    simp only [hbig, if_false]
    obtain ⟨B, L, S, F, hk⟩ := hk
    exact pcpuSlabAlloc_ok hk hi

/-- **`kfree`** of an object. -/
theorem kfree_object_ok {i : ℕ} (hk : KOkWith X h P O) (hi : i < 8) {l : List ℕ} (hO : O i = a :: l) :
    KOkWith X (kfree h a) P (update O i l) := by
  have hk0 := hk
  obtain ⟨B, L, S, F, hk⟩ := hk
  obtain ⟨s, hs, hobj, _⟩ := hk.tokens.obj i hi a (by rw [hO]; simp)
  have hp := hk.pages i hi s hs
  have hpb := hobj.pageBase hi hp.1 hp.2.2
  have hb := hk.frames.bounds (slab_mem hi hs)
  have hab := hobj.bounds hi
  have hok := hk.slabs.slab i hi s hs
  have hin : ¬ (a < heapPhys ∨ heapPhys + heapSize ≤ a) := by
    have hsz := (obj_facts i hi).1
    unfold pageBlock at hb
    dsimp only at hb
    omega
  unfold kfree
  rw [if_neg (by omega), if_neg hin]
  rw [hpb, if_pos hok.magic, if_pos (by rw [hok.cache]; omega)]
  exact pcpuSlabFree_ok hk0 hi hO hpb.symm

theorem KInv.tag (hk : KInv h X (b :: P) O B L S F) :
    ∃ f, b.addr = frameToAddr f ∧ addrToFrame b.addr = f ∧ f < 2 ^ 14 ∧ b.order ≤ 14 ∧
      h.frames f = usedTag b.order b.user := by
  obtain ⟨k, hk', hc⟩ := (hk.frames.held_iff b).mp (by simp [owners])
  have hlt := head_lt hc
  refine ⟨k * 2 ^ b.order, hk', ?_, hlt, le_of_cell hc, hk.frames.inv.tag_used _ _ _ hc id⟩
  rw [hk']
  exact addrToFrame_frameToAddr hlt

theorem KInv.kfree_eq (hk : KInv h X (b :: P) O B L S F)
    (hu : b.user = false) : kfree h b.addr =
      if b.order = 0 then pcpuPageFree h b.addr else buddyFree h b.addr b.order := by
  obtain ⟨f, hf, hidx, hlt, hord, htag⟩ := hk.tag
  have hb := hk.frames.bounds (b := b) (by simp [owners])
  have hmag := hk.magic b (by simp) hu
  have hp := Nat.two_pow_pos b.order
  have hin : ¬ (b.addr < heapPhys ∨ heapPhys + heapSize ≤ b.addr) := by omega
  have hpb : pageBase b.addr = b.addr := by
    have hs : heapPhys + heapSize ≤ 2 ^ 32 := by decide
    rw [pageBase_eq (by omega)]
    omega
  have h0 : b.addr ≠ 0 := by rw [hf]; exact frameToAddr_ne_zero f
  unfold kfree
  rw [if_neg h0, if_neg hin]
  rw [hpb, if_neg hmag, if_neg (by rw [and_frameMask]; omega), hidx, frameCount_eq,
    if_neg (not_le.mpr hlt), htag, if_neg (usedTag_alloc hord _), usedTag_order hord]

theorem KInv.kfree_block (hk : KInv h X (b :: P) O B L S F)
    (hu : b.user = false) :
    ∃ B' L', KInv (kfree h b.addr) X P O B' L' S F ∧
      (kfree h b.addr).kmallocCaches = h.kmallocCaches ∧
      (kfree h b.addr).pcpuObjects = h.pcpuObjects ∧
      ∀ c ∈ owners X P S h.pcpuPages, ∀ x, c.addr ≤ x → x < c.addr + 4096 * 2 ^ c.order →
        (kfree h b.addr).mem x = h.mem x := by
  have hback : ∃ B' L', KInv (buddyFree h b.addr b.order) X P O B' L' S F ∧
      (buddyFree h b.addr b.order).kmallocCaches = h.kmallocCaches ∧
      (buddyFree h b.addr b.order).pcpuObjects = h.pcpuObjects ∧
      ∀ c ∈ owners X P S h.pcpuPages, ∀ x, c.addr ≤ x → x < c.addr + 4096 * 2 ^ c.order →
        (buddyFree h b.addr b.order).mem x = h.mem x := by
    obtain ⟨B', L', hk', hc, hm⟩ := hk.fly.release
    exact ⟨B', L', hk', hc.1, hc.2.2, hm⟩
  rw [hk.kfree_eq hu]
  by_cases hz : b.order = 0
  · rw [if_pos hz]
    unfold pcpuPageFree
    split
    · have hbp : b = pageBlock b.addr := by
        obtain ⟨ba, bo, bu⟩ := b
        dsimp only at hz hu ⊢
        rw [hz, hu]
        rfl
      have hfly : KInv h (pageBlock b.addr :: X) P O B L S F := by
        rw [← hbp]
        exact hk.fly
      exact ⟨B, L, hfly.toPool (hk.magic b (by simp) hu), rfl, rfl, fun c _ x _ _ => rfl⟩
    · rwa [hz] at hback
  · rw [if_neg hz]
    exact hback

/-- **`kfree`** of a page-level block. -/
theorem kfree_block_ok (hk : KOkWith X h (b :: P) O) (hu : b.user = false) :
    KOkWith X (kfree h b.addr) P O := by
  obtain ⟨B, L, S, F, hk⟩ := hk
  obtain ⟨B', L', hk', _⟩ := hk.kfree_block hu
  exact ⟨B', L', S, F, hk'⟩

/-- **`mmap_user`** hands a zeroed block to the caller. -/
theorem mmapUser_ok (hk : KOkWith X h P O) (length : ℕ) :
    ((mmapUser h length).1 = none ∧ KOkWith X (mmapUser h length).2 P O) ∨
    ∃ p, (mmapUser h length).1 = some p ∧
      KOkWith X (mmapUser h length).2
        (⟨p, orderFor (if pagesFor length = 0 then 1 else pagesFor length), true⟩ :: P) O := by
  obtain ⟨B, L, S, F, hk⟩ := hk
  unfold mmapUser
  dsimp only
  obtain ⟨pages, hpg⟩ : ∃ n, n = if pagesFor length = 0 then 1 else pagesFor length := ⟨_, rfl⟩
  rw [← hpg]
  have hpages : pages ≤ 2 ^ orderFor pages := by
    have hle := pagesFor_le length
    refine le_two_pow_orderLoop ?_
    rw [hpg]
    split <;> omega
  rcases hk.alloc (orderFor pages) true with ⟨h1, h2⟩ | ⟨p, B', L', h1, _, _, hk'⟩
  · rw [show buddyAlloc h (orderFor pages) true = (none, h) from Prod.ext h1 h2]
    exact .inl ⟨rfl, B, L, S, F, hk⟩
  generalize buddyAlloc h (orderFor pages) true = r at h1 hk'
  obtain ⟨r1, h₁⟩ := r
  obtain rfl : r1 = some p := h1
  refine .inr ⟨p, rfl, B', L', S, F, (KInv.writeFlying hk' (fun x hx => ?_)).land (by simp)⟩
  by_contra hout
  refine hx (Mem.fill_apply_of_not_mem ?_)
  rw [Int.toNat_natCast] at hout
  unfold frameSize
  have : pages * 4096 ≤ 4096 * 2 ^ orderFor pages := by omega
  dsimp only at hout
  omega

/-- **`munmap_user`** of a block that a caller holds. -/
theorem munmapUser_ok (hk : KOkWith X h (b :: P) O) : KOkWith X (munmapUser h b.addr).2 P O := by
  obtain ⟨B, L, S, F, hk⟩ := hk
  obtain ⟨k, hk', hc⟩ := (hk.frames.held_iff b).mp (by simp [owners])
  have he : (munmapUser h b.addr).2 = buddyFree h b.addr b.order := by
    rcases hk.frames.inv.munmapUser_spec b.addr with ⟨o', k1, u', hc', ha, he⟩ | ⟨hnone, _⟩
    · obtain ⟨ho, hkk⟩ := FrameInv.eq_of_addr hc hc' (hk'.symm.trans ha)
      rw [he, hk', BuddyInv.buddyFree_block _ (le_of_cell hc) (head_lt hc), ← ho, ← hkk]
    · exact absurd hk' (hnone _ _ _ hc)
  rw [he]
  obtain ⟨B', L', hk2, _⟩ := hk.fly.release
  exact ⟨B', L', S, F, hk2⟩

end Entry

/-! ### Runs -/

/-- A block in the hands of a caller: where it is, how many bytes were asked for, and
whether it came from `mmap_user`. -/
structure KHeld where
  addr : ℕ
  size : ℕ
  mapped : Bool
  deriving DecidableEq, Repr

namespace KHeld

/-- Blocks of whole pages; the others are objects of slabs. -/
def isPage (b : KHeld) : Bool := b.mapped || decide (2048 ≤ b.size)

def order (b : KHeld) : ℕ := orderFor (if pagesFor b.size = 0 then 1 else pagesFor b.size)

def block (b : KHeld) : HeldBlock := ⟨b.addr, b.order, b.mapped⟩

/-- The number of bytes of the block, as `kcalloc` computes it. -/
def cap (b : KHeld) : ℕ := if b.isPage then 4096 * 2 ^ b.order else objSize (cacheIndex b.size)

end KHeld

def callerBlocks (l : List KHeld) : List HeldBlock := (l.filter (·.isPage)).map KHeld.block

def callerObjects (l : List KHeld) (i : ℕ) : List ℕ :=
  (l.filter (fun b => !b.isPage && decide (cacheIndex b.size = i))).map KHeld.addr

structure KState where
  heap : Heap
  held : List KHeld

/-- One call, or one write of a caller into a block it holds.  A caller never leaves
`SLAB_MAGIC` in the first word of a page-level `kmalloc` block. -/
inductive KStep : KState → KState → Prop
  | kmalloc (s : KState) (size : ℕ) (hsize : size ≤ 2 ^ 26) :
      KStep s ⟨(kmalloc s.heap size).2,
        ((kmalloc s.heap size).1.map (KHeld.mk · size false)).toList ++ s.held⟩
  | kfree (s : KState) (b : KHeld) (hb : b ∈ s.held) (hm : b.mapped = false) :
      KStep s ⟨kfree s.heap b.addr, s.held.erase b⟩
  | mmap (s : KState) (size : ℕ) (hsize : size ≤ 2 ^ 26) :
      KStep s ⟨(mmapUser s.heap size).2,
        ((mmapUser s.heap size).1.map (KHeld.mk · size true)).toList ++ s.held⟩
  | munmap (s : KState) (b : KHeld) (hb : b ∈ s.held) (hm : b.mapped = true) :
      KStep s ⟨(munmapUser s.heap b.addr).2, s.held.erase b⟩
  | write (s : KState) (b : KHeld) (hb : b ∈ s.held) (m : Mem)
      (hm : ∀ x, m x ≠ s.heap.mem x → b.addr ≤ x ∧ x < b.addr + b.cap)
      (hmagic : b.mapped = false → b.isPage = true → m.load b.addr 4 ≠ slabMagic) :
      KStep s ⟨{ s.heap with mem := m }, s.held⟩

def KRun (h : Heap) (s : KState) : Prop := Relation.ReflTransGen KStep ⟨memoryInit h, []⟩ s

/-- The invariant of a run. -/
structure KGood (s : KState) : Prop where
  ok : KOk s.heap (callerBlocks s.held) (callerObjects s.held)
  size : ∀ b ∈ s.held, b.size ≤ 2 ^ 26

theorem callerBlocks_cons (b : KHeld) (l : List KHeld) : callerBlocks (b :: l) =
    if b.isPage then b.block :: callerBlocks l else callerBlocks l := by
  unfold callerBlocks
  rw [filter_cons]
  split <;> simp

theorem callerObjects_cons (b : KHeld) (l : List KHeld) : callerObjects (b :: l) =
    if b.isPage then callerObjects l
    else update (callerObjects l) (cacheIndex b.size)
      (b.addr :: callerObjects l (cacheIndex b.size)) := by
  funext i
  unfold callerObjects
  rw [filter_cons]
  cases hp : b.isPage with
  | true => simp
  | false =>
    by_cases hi : cacheIndex b.size = i
    · subst hi
      simp
    · have hne : i ≠ cacheIndex b.size := fun he => hi he.symm
      simp [hi, update_of_ne hne]

theorem KOk.held_perm {h : Heap} {l l' : List KHeld}
    (hk : KOk h (callerBlocks l) (callerObjects l)) (hl : l'.Perm l) :
    KOk h (callerBlocks l') (callerObjects l') :=
  hk.perm ((hl.filter _).map _) (fun _ => (hl.filter _).map _)

theorem KHeld.not_isPage {b : KHeld} (h : b.isPage = false) : b.mapped = false ∧ b.size < 2048 := by
  unfold KHeld.isPage at h
  rw [Bool.or_eq_false_iff, decide_eq_false_iff_not] at h
  exact ⟨h.1, Nat.lt_of_not_le h.2⟩

/-- The order of a block is the one that `kmalloc` computes: no page counts as one. -/
theorem KHeld.order_eq (b : KHeld) : b.order = orderFor (pagesFor b.size) := by
  unfold KHeld.order
  split
  · rename_i h0
    rw [h0]
    rfl
  · rfl

theorem KGood.cons {s : KState} (hg : KGood s) {b : KHeld} (hb : b ∈ s.held) :
    KOk s.heap (callerBlocks (b :: s.held.erase b)) (callerObjects (b :: s.held.erase b)) :=
  hg.ok.held_perm (perm_cons_erase hb).symm

/-- **Every step keeps the invariant.** -/
theorem KGood.step {s s' : KState} (hg : KGood s) (hs : KStep s s') : KGood s' := by
  cases hs with
  | kmalloc size hsize =>
    rcases kmalloc_ok hg.ok size with ⟨h1, hk⟩ | ⟨a, h1, hk⟩
    · rw [h1]
      exact ⟨hk, hg.size⟩
    rw [h1]
    refine ⟨?_, forall_mem_cons.mpr ⟨hsize, hg.size⟩⟩
    show KOk _ (callerBlocks (_ :: s.held)) (callerObjects (_ :: s.held))
    rw [callerBlocks_cons, callerObjects_cons]
    by_cases hbig : 2048 ≤ size
    · have hpage : (KHeld.mk a size false).isPage := by simp [KHeld.isPage, hbig]
      rw [if_pos hbig] at hk
      rw [if_pos hpage, if_pos hpage, KHeld.block, KHeld.order_eq]
      exact hk
    · have hpage : (KHeld.mk a size false).isPage = false := by simp [KHeld.isPage, hbig]
      rw [if_neg hbig] at hk
      rw [hpage]
      exact hk
  | kfree b hb hm =>
    refine ⟨?_, fun c hc => hg.size c (mem_of_mem_erase hc)⟩
    have hk := hg.cons hb
    rw [callerBlocks_cons, callerObjects_cons] at hk
    cases hp : b.isPage with
    | true =>
      rw [hp, if_pos rfl, if_pos rfl] at hk
      exact kfree_block_ok hk hm
    | false =>
      rw [hp, if_neg (by simp), if_neg (by simp)] at hk
      have hi := (cacheIndex_spec (KHeld.not_isPage hp).2).1
      have hres := kfree_object_ok hk hi (update_self _ _ _)
      rwa [update_idem, update_eq_self] at hres
  | mmap size hsize =>
    rcases mmapUser_ok hg.ok size with ⟨h1, hk⟩ | ⟨p, h1, hk⟩
    · rw [h1]
      exact ⟨hk, hg.size⟩
    rw [h1]
    refine ⟨?_, forall_mem_cons.mpr ⟨hsize, hg.size⟩⟩
    show KOk _ (callerBlocks (_ :: s.held)) (callerObjects (_ :: s.held))
    rw [callerBlocks_cons, callerObjects_cons]
    exact hk
  | munmap b hb hm =>
    refine ⟨?_, fun c hc => hg.size c (mem_of_mem_erase hc)⟩
    have hk := hg.cons hb
    have hp : b.isPage := by simp [KHeld.isPage, hm]
    rw [callerBlocks_cons, callerObjects_cons, hp, if_pos rfl, if_pos rfl] at hk
    exact munmapUser_ok hk
  | write b hb m hm hmagic =>
    refine ⟨?_, hg.size⟩
    have hk := hg.cons hb
    have hback : ∀ h', KOk h' (callerBlocks (b :: s.held.erase b)) (callerObjects (b :: s.held.erase b)) →
        KOk h' (callerBlocks s.held) (callerObjects s.held) :=
      fun h' hk' => hk'.held_perm (perm_cons_erase hb)
    refine hback _ ?_
    unfold KHeld.cap at hm
    rw [callerBlocks_cons, callerObjects_cons] at hk ⊢
    cases hp : b.isPage with
    | true =>
      rw [hp, if_pos rfl, if_pos rfl] at hk
      rw [hp] at hm
      obtain ⟨B, L, S, F, hk⟩ := hk
      exact ⟨B, L, S, F, hk.writeBlock hm (fun hu => hmagic hu hp)⟩
    | false =>
      rw [hp, if_neg (by simp), if_neg (by simp)] at hk
      rw [hp] at hm
      obtain ⟨B, L, S, F, hk⟩ := hk
      exact ⟨B, L, S, F, hk.writeObject (cacheIndex_spec (KHeld.not_isPage hp).2).1 (by simp) hm⟩

theorem kOk_init (h : Heap) : KOk (memoryInit h) [] (fun _ => []) := by
  obtain ⟨B, L, hi⟩ := frameInv_of_run Relation.ReflTransGen.refl
  refine ⟨B, L, fun _ => [], fun _ => [], ?_, ⟨fun i hi => ⟨rfl, rfl⟩, fun i hi => rfl, ?_⟩,
    ⟨fun i hi => nodup_nil, ?_, fun i hi => zero_le _⟩, ?_⟩
  · exact hi
  · exact fun i hi s hs => absurd hs not_mem_nil
  · exact fun i hi a ha => absurd ha not_mem_nil
  · exact fun b hb => absurd hb not_mem_nil

/-- **The invariant holds along every run.** -/
theorem kGood_of_run {h : Heap} {s : KState} (hr : KRun h s) : KGood s := by
  induction hr with
  | refl => exact ⟨kOk_init h, fun b hb => absurd hb not_mem_nil⟩
  | tail _ hs ih => exact ih.step hs

/-! ### Where the blocks of the callers are -/

/-- The ranges of `n` bytes at `a` and of `m` bytes at `b` do not overlap. -/
def Apart (a n b m : ℕ) : Prop := a + n ≤ b ∨ b + m ≤ a

/-- A slab of one of the caches. -/
def IsSlab (h : Heap) (t : ℕ) : Prop :=
  ∃ i < cacheCount, ∃ l, Chain h.slabNext h.slabPrev 0 (h.kmallocCaches i).slabs l ∧ t ∈ l

section Places

variable {h : Heap} {l : List KHeld} {X P : List HeldBlock} {B : FrameBlocks}
  {L S F : ℕ → List ℕ} {b c : KHeld}

theorem Apart.sub {a n b m a' n' b' m' : ℕ} (h : Apart a n b m) (h1 : a ≤ a') (h2 : a' + n' ≤ a + n)
    (h3 : b ≤ b') (h4 : b' + m' ≤ b + m) : Apart a' n' b' m' := by
  unfold Apart at h ⊢
  omega

theorem KInv.place (hk : KInv h X P (callerObjects l) B L S F) (hXP : X ++ P = callerBlocks l)
    (hb : b ∈ l) : (b.isPage ∧ b.cap = 4096 * 2 ^ b.order ∧ b.block ∈ X ++ P) ∨
    (b.isPage = false ∧ b.cap = objSize (cacheIndex b.size) ∧ cacheIndex b.size < 8 ∧
      ∃ t ∈ S (cacheIndex b.size), IsObj (cacheIndex b.size) t b.addr) := by
  unfold KHeld.cap
  cases hp : b.isPage with
  | true =>
    refine .inl ⟨rfl, rfl, ?_⟩
    rw [hXP]
    exact mem_map.mpr ⟨b, mem_filter.mpr ⟨hb, hp⟩, rfl⟩
  | false =>
    have hi := (cacheIndex_spec (KHeld.not_isPage hp).2).1
    have hmem : b.addr ∈ callerObjects l (cacheIndex b.size) :=
      mem_map.mpr ⟨b, mem_filter.mpr ⟨hb, by simp [hp]⟩, rfl⟩
    obtain ⟨t, ht, hobj, _⟩ := hk.tokens.obj _ hi b.addr (mem_append_right _ hmem)
    exact .inr ⟨rfl, rfl, hi, t, ht, hobj⟩

theorem KInv.within (hk : KInv h X P (callerObjects l) B L S F) (hXP : X ++ P = callerBlocks l)
    (hb : b ∈ l) : ∃ d ∈ owners X P S h.pcpuPages,
      d.addr ≤ b.addr ∧ b.addr + b.cap ≤ d.addr + 4096 * 2 ^ d.order := by
  rcases hk.place hXP hb with ⟨_, hcap, hmem⟩ | ⟨_, hcap, hi, t, ht, hobj⟩
  · refine ⟨b.block, mem_append_left _ hmem, le_rfl, ?_⟩
    rw [hcap]
    rfl
  have hbd := hobj.bounds hi
  refine ⟨pageBlock t, slab_mem hi ht, ?_, ?_⟩
  · show t ≤ b.addr
    omega
  · show b.addr + b.cap ≤ t + 4096 * 2 ^ 0
    omega

theorem KInv.apart (hk : KInv h X P (callerObjects (b :: c :: l)) B L S F)
    (hXP : X ++ P = callerBlocks (b :: c :: l)) : Apart b.addr b.cap c.addr c.cap := by
  have hpages := hk.pages
  -- blocks at the frame level that differ are apart
  have hblk : ∀ d e, d ∈ owners X P S h.pcpuPages → e ∈ owners X P S h.pcpuPages → d ≠ e →
      Apart d.addr (4096 * 2 ^ d.order) e.addr (4096 * 2 ^ e.order) :=
    fun d e hd he hne => hk.frames.disjoint hd he hne
  have hP : ∀ d ∈ X ++ P, d ∈ owners X P S h.pcpuPages := fun d hd => mem_append_left _ hd
  -- a page-level block and an object: the slab is another block
  have hmixed : ∀ d e : KHeld, e.cap = objSize (cacheIndex e.size) → cacheIndex e.size < 8 →
      d.block ∈ X ++ P → d.cap = 4096 * 2 ^ d.order →
      ∀ t ∈ S (cacheIndex e.size), IsObj (cacheIndex e.size) t e.addr →
      Apart d.addr d.cap e.addr e.cap := by
    intro d e hcap hi hd hdcap t ht hobj
    have hne := hk.slab_ne hi ht (b := d.block) (mem_append_left _ hd)
    have hbd := hobj.bounds hi
    rw [hdcap]
    refine (hblk _ _ (hP _ hd) (slab_mem hi ht) hne).sub le_rfl le_rfl ?_ ?_
    · show t ≤ e.addr
      omega
    · show e.addr + e.cap ≤ t + 4096 * 2 ^ 0
      omega
  rcases hk.place hXP (b := b) (by simp) with ⟨hbp, hbc, hbm⟩ | ⟨hbp, hbc, hbi, t, ht, hbo⟩ <;>
    rcases hk.place hXP (b := c) (by simp) with ⟨hcp, hcc, hcm⟩ | ⟨hcp, hcc, hci, u, hu, hco⟩
  · have hne : b.block ≠ c.block := by
      have hnd := hk.frames.nodup
      unfold owners at hnd
      rw [hXP, callerBlocks_cons, hbp, if_pos rfl, callerBlocks_cons, hcp, if_pos rfl] at hnd
      intro he
      exact (nodup_cons.mp hnd).1 (by rw [he]; simp)
    rw [hbc, hcc]
    exact hblk _ _ (hP _ hbm) (hP _ hcm) hne
  · exact hmixed b c hcc hci hbm hbc u hu hco
  · exact (hmixed c b hbc hbi hcm hcc t ht hbo).symm
  have h1 := hbo.bounds hbi
  have h2 := hco.bounds hci
  have h3 := hpages _ hbi t ht
  have h4 := hpages _ hci u hu
  unfold Apart
  by_cases htu : t = u
  · subst htu
    have hij := hk.slabs.eq_of_mem hbi hci ht hu
    have hne : b.addr ≠ c.addr := by
      have hnd := hk.tokens.nodup _ hbi
      rw [callerObjects_cons, hbp, callerObjects_cons, hcp, ← hij] at hnd
      simp only [Bool.false_eq_true, if_false, update_self] at hnd
      intro he
      have := (nodup_append.mp hnd).2.1
      rw [he] at this
      exact (nodup_cons.mp this).1 (by simp)
    rw [← hij] at hco
    rw [hbc, hcc, ← hij]
    exact hbo.disjoint hco hne
  · omega

theorem pairwise_of_perm {R : KHeld → KHeld → Prop} {l : List KHeld}
    (h : ∀ b c rest, l.Perm (b :: c :: rest) → R b c) : l.Pairwise R := by
  induction l with
  | nil => exact List.Pairwise.nil
  | cons a t ih =>
    refine pairwise_cons.mpr ⟨fun c hc => ?_, ih (fun b c rest hp => ?_)⟩
    · exact h a c (t.erase c) ((perm_cons_erase hc).cons a)
    · refine h b c (a :: rest) ((hp.cons a).trans ?_)
      exact (List.Perm.swap b a _).trans ((List.Perm.swap c a rest).cons b)

theorem KHeld.size_le_cap (hsize : b.size ≤ 2 ^ 26) : b.size ≤ b.cap := by
  unfold KHeld.cap
  cases hp : b.isPage with
  | true =>
    refine size_le_block hsize ?_ ?_
    · split <;> omega
    · rw [pagesFor_of_le (by omega)]
      split
      · simp
      · omega
  | false => exact (cacheIndex_spec (KHeld.not_isPage hp).2).2.1

theorem KInv.held_apart (hk : KInv h X P (callerObjects l) B L S F) (hXP : X ++ P = callerBlocks l)
    (hb : b ∈ l) : heapPhys ≤ b.addr ∧ b.addr + b.cap ≤ heapPhys + heapSize ∧
      (∀ t, IsSlab h t → Apart b.addr b.cap t slabHeaderSize) ∧
      (∀ o k, FreeBlock h o k → Apart b.addr b.cap (blkAddr o k) (4096 * 2 ^ o)) := by
  obtain ⟨d, hd, h1, h2⟩ := hk.within hXP hb
  have hbd := hk.frames.bounds hd
  refine ⟨by omega, by omega, ?_, ?_⟩
  · rintro t ⟨i, hi, ts, hl, ht⟩
    rw [hl.unique (hk.slabs.chain i hi)] at ht
    rcases hk.place hXP hb with ⟨_, hcap, hmem⟩ | ⟨_, hcap, hj, u, hu, hobj⟩
    · have hne := hk.slab_ne hi ht (b := b.block) (mem_append_left _ hmem)
      rw [hcap]
      have hap : Apart b.addr (4096 * 2 ^ b.order) t (4096 * 2 ^ 0) :=
        hk.frames.disjoint (mem_append_left _ hmem) (slab_mem hi ht) hne
      exact hap.sub le_rfl le_rfl le_rfl (by unfold slabHeaderSize; omega)
    · have h3 := hobj.bounds hj
      have h4 := hk.pages _ hj u hu
      have h5 := hk.pages i hi t ht
      unfold Apart slabHeaderSize
      omega
  intro o k hf
  have hfree := hk.frames.inv.freeBlock_iff.mp hf
  by_contra hover
  unfold Apart at hover
  have hp := Nat.two_pow_pos o
  have hpos : 0 < b.cap := by
    rcases hk.place hXP hb with ⟨_, hcap, _⟩ | ⟨_, hcap, hj, _⟩
    · rw [hcap]
      positivity
    · have := (obj_facts _ hj).1
      omega
  -- the larger of the two addresses is a byte of both
  obtain ⟨f, hfk, hfx⟩ := BlockByte.frame (o := o) (k := k) (a := max b.addr (blkAddr o k))
    ⟨by omega, by omega⟩
  exact hk.frames.not_free hd (by omega) (by omega) ⟨o, by rw [hfk]; exact hfree⟩ hfx

end Places

/-- **The blocks of the callers never overlap.**  In every state of every run they are
pairwise disjoint, lie inside the heap, have at least the bytes that were asked for, and
overlap neither a slab header nor a block on a free list. -/
theorem held_blocks_disjoint {h : Heap} {s : KState} (hr : KRun h s) :
    s.held.Pairwise (fun b c => Apart b.addr b.cap c.addr c.cap) ∧
    ∀ b ∈ s.held, b.size ≤ b.cap ∧ heapPhys ≤ b.addr ∧ b.addr + b.cap ≤ heapPhys + heapSize ∧
      (∀ t, IsSlab s.heap t → Apart b.addr b.cap t slabHeaderSize) ∧
      (∀ o k, FreeBlock s.heap o k → Apart b.addr b.cap (blkAddr o k) (4096 * 2 ^ o)) := by
  have hg := kGood_of_run hr
  refine ⟨pairwise_of_perm (fun b c rest hp => ?_), fun b hb => ?_⟩
  · obtain ⟨B, L, S, F, hk⟩ := hg.ok.held_perm hp.symm
    exact hk.apart rfl
  · obtain ⟨B, L, S, F, hk⟩ := hg.ok
    exact ⟨KHeld.size_le_cap (hg.size b hb), hk.held_apart rfl hb⟩

/-- The state after one `kmalloc(5000)`. -/
def oneKmalloc : KState :=
  ⟨(kmalloc (memoryInit zeroHeap) 5000).2, [⟨heapPhys, 5000, false⟩]⟩

theorem kRun_oneKmalloc : KRun zeroHeap oneKmalloc :=
  Relation.ReflTransGen.single (KStep.kmalloc ⟨memoryInit zeroHeap, []⟩ 5000 (by simp))

/-- Then a page for a user and `kmalloc(64)`, which is an object of a slab. -/
def threeBlocks : KState :=
  ⟨(kmalloc (mmapUser oneKmalloc.heap 4096).2 64).2,
    [⟨heapPhys + 0x3FB0, 64, false⟩, ⟨heapPhys + 0x2000, 4096, true⟩, ⟨heapPhys, 5000, false⟩]⟩

theorem kRun_threeBlocks : KRun zeroHeap threeBlocks := by
  have hpage : (mmapUser oneKmalloc.heap 4096).1 = some (heapPhys + 0x2000) := rfl
  have hobj : (kmalloc (mmapUser oneKmalloc.heap 4096).2 64).1 = some (heapPhys + 0x3FB0) := by
    decide +kernel
  have hrun := (kRun_oneKmalloc.tail (.mmap _ 4096 (by simp))).tail (.kmalloc _ 64 (by simp))
  dsimp only at hrun
  rw [hpage, hobj] at hrun
  exact hrun

theorem held_blocks_disjoint_threeBlocks : KRun zeroHeap threeBlocks ∧
    threeBlocks.held.Pairwise (fun b c => Apart b.addr b.cap c.addr c.cap) :=
  ⟨kRun_threeBlocks, (held_blocks_disjoint kRun_threeBlocks).1⟩

end TipOS.Memory
