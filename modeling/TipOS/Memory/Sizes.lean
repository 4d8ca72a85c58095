import TipOS.Memory.CallerRuns

/-!
# Sizes

`kmalloc` and `kcalloc` compute with 64-bit sizes.  `size + FRAME_SIZE - 1` wraps for the last
4095 sizes, and the result is a block of one page; `count * size` wraps in `kcalloc`, and the
result is a block for the low half of the product.

`SizesOk` says what the two calls owe their callers in one state, and `sizesOk_iff` for which
numbers they keep it in every state of every run.
-/

namespace TipOS.Memory

open Lib List Nat KHeld

/-! ### `kcalloc` -/

/-- The number of bytes that `kcalloc` clears. -/
def clearedSize (h : Heap) (total : ℕ) : ℕ :=
  if total < 2048 then
    match findCache h total with
    | some i => (h.kmallocCaches i).objSize
    | none => total
  else 1 <<< orderFor (pagesFor total) * frameSize % 2 ^ 64

/-- `kcalloc`. -/
def kcalloc (h : Heap) (count size : ℕ) : Option ℕ × Heap :=
  let total := count * size % 2 ^ 64
  match kmalloc h total with
  | (none, h) => (none, h)
  | (some p, h) => (some p, { h with mem := h.mem.fill p (clearedSize h total) 0 })

/-! ### What the calls owe -/

/-- An object of cache `i` that waits in the per-CPU stack or on the free list of a slab. -/
def FreeObject (h : Heap) (i a : ℕ) : Prop :=
  a ∈ h.pcpuObjects i ∨ ∃ ts, Chain h.slabNext h.slabPrev 0 (h.kmallocCaches i).slabs ts ∧
    ∃ t ∈ ts, ∃ l, Stack h.next (h.freelist t) l ∧ a ∈ l

/-- The `n` bytes at `p` are in the heap and nobody else's: no byte is in a block of another
caller, in the header of a slab, in a free object, in the page pool or on a free list. -/
structure Usable (h : Heap) (others : List KHeld) (p n : ℕ) : Prop where
  heap : heapPhys ≤ p ∧ p + n ≤ heapPhys + heapSize
  callers : ∀ c ∈ others, Apart p n c.addr c.cap
  headers : ∀ t, IsSlab h t → Apart p n t slabHeaderSize
  objects : ∀ i < cacheCount, ∀ a, FreeObject h i a → Apart p n a (objSize i)
  free : ∀ x, p ≤ x → x < p + n → ¬ FreeByte h x

/-- The loops of `kmalloc(size)` that have no bound in the source end by themselves: the one
that looks for the order, the search for a slab with a free object, and the one that threads
the objects of a new slab. -/
structure LoopsEnd (h : Heap) (size : ℕ) : Prop where
  order : ¬ 1 <<< orderFor (pagesFor size) < pagesFor size
  search : ∀ i < cacheCount, ∀ n, frameCount + 1 ≤ n →
    findSlab h n (h.kmallocCaches i).slabs = findSlab h (frameCount + 1) (h.kmallocCaches i).slabs
  carve : ∀ i < cacheCount, ∀ h' p head count n, frameSize ≤ n →
    carve (h.kmallocCaches i).objSize (p + frameSize) n h' (p + slabHeaderSize) head count =
      carve (h.kmallocCaches i).objSize (p + frameSize) frameSize h' (p + slabHeaderSize) head count

/-- `kmalloc(size)` gives `NULL` or a block of at least `size` usable bytes. -/
def KmallocOk (s : KState) (size : ℕ) : Prop :=
  ∀ p, (kmalloc s.heap size).1 = some p →
    ∃ n, size ≤ n ∧ Usable (kmalloc s.heap size).2 s.held p n

/-- `kcalloc(count, size)` gives `NULL` or a block of at least `count * size` usable bytes that
are all zero, and writes nothing outside the block. -/
def KcallocOk (s : KState) (count size : ℕ) : Prop :=
  ∀ p, (kcalloc s.heap count size).1 = some p →
    ∃ n, count * size ≤ n ∧ Usable (kcalloc s.heap count size).2 s.held p n ∧
      (∀ x, p ≤ x → x < p + count * size → (kcalloc s.heap count size).2.mem x = 0) ∧
      (∀ x, (x < p ∨ p + n ≤ x) → (kcalloc s.heap count size).2.mem x =
        (kmalloc s.heap (count * size % 2 ^ 64)).2.mem x)

/-- All of it. -/
structure SizesOk (s : KState) (count size : ℕ) : Prop where
  kmalloc : KmallocOk s size
  kcalloc : KcallocOk s count size
  ends : LoopsEnd s.heap size ∧ LoopsEnd s.heap (count * size % 2 ^ 64)

/-- The numbers for which the calls do what they owe: rounding up to pages does not wrap, and
neither does the product, unless what is left of it is nothing or more than the heap. -/
def Fits (count size : ℕ) : Prop :=
  size ≤ 2 ^ 64 - 4096 ∧ count * size % 2 ^ 64 ≤ 2 ^ 64 - 4096 ∧
    (count * size < 2 ^ 64 ∨ count * size % 2 ^ 64 = 0 ∨ 2 ^ 26 < count * size % 2 ^ 64)

/-! ### The block of a caller is usable -/

section Blocks

variable {h : Heap} {l : List KHeld} {b : KHeld} {X P : List HeldBlock} {O : ℕ → List ℕ}
  {B : FrameBlocks} {L S F : ℕ → List ℕ}

theorem KInv.freeObject (hk : KInv h X P O B L S F) {i a : ℕ} (hi : i < 8) (ha : FreeObject h i a) :
    ∃ t ∈ S i, IsObj i t a ∧ (a ∈ h.pcpuObjects i ∨ a ∈ F t) := by
  rcases ha with ha | ⟨ts, hc, t, ht, fs, hfs, ha⟩
  · obtain ⟨t, ht, hobj, _⟩ := hk.tokens.obj i hi a (mem_append_left _ ha)
    exact ⟨t, ht, hobj, .inl ha⟩
  rw [hc.unique (hk.slabs.chain i hi)] at ht
  have hok := hk.slabs.slab i hi t ht
  rw [hfs.unique hok.free] at ha
  exact ⟨t, ht, hok.obj a ha, .inr ha⟩

theorem KInv.apart_freeObject (hk : KInv h X P (callerObjects (b :: l)) B L S F)
    (hXP : X ++ P = callerBlocks (b :: l)) {i a : ℕ} (hi : i < 8) (ha : FreeObject h i a) :
    Apart b.addr b.cap a (objSize i) := by
  obtain ⟨t, ht, hobj, hwhere⟩ := hk.freeObject hi ha
  have hbd := hobj.bounds hi
  rcases hk.place hXP (.head _) with ⟨_, hcap, hmem⟩ | ⟨hp, hcap, hj, u, hu, hobj'⟩
  · have hne := hk.slab_ne hi ht (b := b.block) (mem_append_left _ hmem)
    have hap : Apart b.addr (4096 * 2 ^ b.order) t (4096 * 2 ^ 0) :=
      hk.frames.disjoint (mem_append_left _ hmem) (KInv.slab_mem hi ht) hne
    rw [hcap]
    exact hap.sub le_rfl le_rfl (by omega) (by omega)
  have hbd' := hobj'.bounds hj
  have h1 := hk.pages i hi t ht
  have h2 := hk.pages _ hj u hu
  by_cases htu : t = u
  · -- in one slab: the object of the caller is in no stack and on no free list
    subst htu
    obtain rfl := hk.slabs.eq_of_mem hi hj ht hu
    have hmine : b.addr ∈ callerObjects (b :: l) (cacheIndex b.size) := by
      rw [callerObjects_cons, hp]
      simp
    have hne : b.addr ≠ a := by
      rintro rfl
      rcases hwhere with hw | hw
      · exact (nodup_append.mp (hk.tokens.nodup _ hj)).2.2 _ hw _ hmine rfl
      · obtain ⟨v, hv, hov, hno⟩ := hk.tokens.obj _ hj _ (mem_append_right _ hmine)
        obtain rfl := hov.slab_unique hobj' hj hj (hk.pages _ hj v hv).1 h2.1
        exact hno hw
    rw [hcap]
    exact hobj'.disjoint hobj hne
  · unfold Apart
    omega

/-- **The block of a caller is usable as far as `cap` says.** -/
theorem CallerOk.usable (hok : CallerOk h (b :: l)) : Usable h l b.addr b.cap := by
  obtain ⟨B, L, S, F, hk⟩ := id hok
  obtain ⟨h1, h2, hheads, _⟩ := hk.held_apart (append_nil _) mem_cons_self
  refine ⟨⟨h1, h2⟩, fun c hc => ?_, hheads,
    fun i hi a ha => hk.apart_freeObject (append_nil _) hi ha, fun x hx1 hx2 hfree => ?_⟩
  · obtain ⟨_, _, _, _, hk'⟩ := hok.held_perm ((perm_cons_erase hc).symm.cons b)
    exact hk'.apart (append_nil _)
  obtain ⟨_, hno⟩ := hk.freeByte_iff.mp hfree
  rcases hk.place (append_nil _) mem_cons_self with
    ⟨_, hcap, hmem⟩ | ⟨_, hcap, hi, t, ht, hobj⟩
  · refine hno b.block (mem_append_left _ hmem) ⟨hx1, ?_⟩
    rw [hcap] at hx2
    exact hx2
  have hbd := hobj.bounds hi
  refine hno (pageBlock t) (mem_append_right _ (mem_map.mpr
    ⟨t, mem_slabPages.mpr ⟨_, hi, ht⟩, rfl⟩)) ⟨?_, ?_⟩
  · show t ≤ x
    omega
  · show x < t + 4096 * 2 ^ 0
    omega

end Blocks

/-! ### Sizes and orders -/

theorem pagesFor_wrap {size : ℕ} (h : 2 ^ 64 - 4096 < size) (h' : size < 2 ^ 64) :
    pagesFor size = 0 := by
  unfold pagesFor frameSize
  omega

theorem le_two_pow_orderFor (size : ℕ) : pagesFor size ≤ 2 ^ orderFor (pagesFor size) :=
  le_two_pow_orderLoop ((pagesFor_le size).trans (by simp))

theorem orderLoop_le {pages k : ℕ} (hk : pages ≤ 2 ^ k) : ∀ n order, order ≤ k →
    orderLoop pages n order ≤ k := by
  intro n
  induction n with
  | zero => exact fun order h => h
  | succ n ih =>
    intro order h
    rw [orderLoop]
    split
    · rename_i hlt
      rw [shiftLeft_eq, one_mul] at hlt
      have hne : order ≠ k := by
        rintro rfl
        omega
      exact ih _ (by omega)
    · exact h

/-- **A block has the bytes that were asked for**, if rounding up did not wrap. -/
theorem KHeld.size_le_cap_of_le {b : KHeld} (h : b.size ≤ 2 ^ 64 - 4096) : b.size ≤ b.cap := by
  unfold KHeld.cap
  cases hp : b.isPage with
  | true =>
    rw [if_pos rfl, order_eq]
    have h1 := le_two_pow_orderFor b.size
    rw [pagesFor_of_le h] at h1 ⊢
    omega
  | false => exact (cacheIndex_spec (not_isPage hp).2).2.1

/-! ### The loops end -/

theorem carve_eq {size stop : ℕ} (hsize : 0 < size) : ∀ {n m : ℕ} {h : Heap} {data head count : ℕ},
    stop < data + n * size → n ≤ m →
    carve size stop m h data head count = carve size stop n h data head count := by
  intro n
  induction n with
  | zero =>
    intro m h data head count hn hm
    cases m with
    | zero => rfl
    | succ m =>
      rw [carve, carve, if_neg (by omega)]
  | succ n ih =>
    intro m h data head count hn hm
    obtain ⟨m, rfl⟩ : ∃ k, m = k + 1 := ⟨m - 1, by omega⟩
    rw [carve, carve]
    split
    · refine ih ?_ (by omega)
      rw [add_mul, one_mul] at hn
      omega
    · rfl

theorem CallerOk.loopsEnd {h : Heap} {l : List KHeld} (hok : CallerOk h l) (size : ℕ) :
    LoopsEnd h size := by
  obtain ⟨B, L, S, F, hk⟩ := hok
  refine ⟨?_, fun i hi n hn => ?_, fun i hi h' p head count n hn => ?_⟩
  · rw [shiftLeft_eq, one_mul, not_lt]
    exact le_two_pow_orderFor size
  · have hlen := hk.slabs_length hi
    have hc := hk.slabs.chain i hi
    rw [findSlab_eq hc (by rw [frameCount_eq] at hn; omega),
      findSlab_eq hc (by rw [frameCount_eq]; omega)]
  · rw [(hk.slabs.cache i hi).1]
    have hsz := (obj_facts i hi).1.1
    refine carve_eq (by omega) ?_ hn
    unfold frameSize slabHeaderSize
    omega

/-! ### What the calls hand out -/

section Calls

variable {s : KState} {count size p : ℕ}

theorem CallerOk.of_kmalloc (hok : CallerOk s.heap s.held) (hsize : size < 2 ^ 64)
    (h1 : (kmalloc s.heap size).1 = some p) :
    CallerOk (kmalloc s.heap size).2 (⟨p, size, false⟩ :: s.held) := by
  have hstep := hok.step (CallerStep.kmalloc s size hsize)
  rw [h1] at hstep
  exact hstep

theorem kmallocOk_of_le (hok : CallerOk s.heap s.held) (hsize : size ≤ 2 ^ 64 - 4096) :
    KmallocOk s size := by
  intro p h1
  have hnew := hok.of_kmalloc (by omega) h1
  exact ⟨_, size_le_cap_of_le (b := ⟨p, size, false⟩) hsize, hnew.usable⟩

theorem findCache_total {h : Heap} {l : List KHeld} (hok : CallerOk h l) (hsize : size < 2048) :
    findCache h size = some (cacheIndex size) := by
  rw [findCache_eq hok, ← (cacheIndex_spec hsize).2.2, ← head?_filter, ← head?_filter]
  congr 1
  refine filter_congr (fun i hi => ?_)
  have hobj := (obj_facts i (mem_range.mp hi)).1.1
  rw [decide_eq_decide]
  split <;> omega

theorem clearedSize_eq {h : Heap} {l : List KHeld} (hok : CallerOk h (⟨p, size, false⟩ :: l)) :
    clearedSize h size = (KHeld.mk p size false).cap := by
  have hin := hok.usable.heap
  have hsz : heapSize = 2 ^ 26 := rfl
  have hph : heapPhys < 2 ^ 32 := by decide
  unfold clearedSize
  unfold KHeld.cap at hin ⊢
  by_cases hbig : 2048 ≤ size
  · have hp : (KHeld.mk p size false).isPage := by simp [KHeld.isPage, hbig]
    rw [if_neg (by omega), if_pos hp, order_eq, shiftLeft_eq, one_mul, frameSize]
    rw [if_pos hp, order_eq] at hin
    dsimp only at hin ⊢
    rw [mod_eq_of_lt (by omega), mul_comm]
  · have hp : (KHeld.mk p size false).isPage = false := by simp [KHeld.isPage, hbig]
    have hlt : size < 2048 := by omega
    rw [if_pos hlt, findCache_total hok hlt, hp]
    obtain ⟨B, L, S, F, hk⟩ := hok
    exact (hk.slabs.cache _ (cacheIndex_spec hlt).1).1

theorem kcalloc_of_some (h1 : (kmalloc s.heap (count * size % 2 ^ 64)).1 = some p) :
    kcalloc s.heap count size = (some p, { (kmalloc s.heap (count * size % 2 ^ 64)).2 with
      mem := (kmalloc s.heap (count * size % 2 ^ 64)).2.mem.fill p
        (clearedSize (kmalloc s.heap (count * size % 2 ^ 64)).2 (count * size % 2 ^ 64)) 0 }) := by
  unfold kcalloc
  dsimp only
  generalize kmalloc s.heap (count * size % 2 ^ 64) = r at h1 ⊢
  obtain ⟨r1, h'⟩ := r
  obtain rfl : r1 = some p := h1
  rfl

theorem kcalloc_fst : (kcalloc s.heap count size).1 =
    (kmalloc s.heap (count * size % 2 ^ 64)).1 := by
  unfold kcalloc
  dsimp only
  rcases kmalloc s.heap (count * size % 2 ^ 64) with ⟨_ | p, h'⟩ <;> rfl

/-- What a block of `kcalloc` holds, if it has the bytes of the whole product. -/
theorem kcallocOk_of_le (hok : CallerOk s.heap s.held)
    (hle : ∀ p, (kmalloc s.heap (count * size % 2 ^ 64)).1 = some p →
      count * size ≤ (KHeld.mk p (count * size % 2 ^ 64) false).cap) : KcallocOk s count size := by
  intro p h1
  rw [kcalloc_fst] at h1
  have hle := hle p h1
  have hnew := hok.of_kmalloc (mod_lt _ (by simp)) h1
  have hcap := clearedSize_eq hnew
  rw [kcalloc_of_some h1, hcap]
  obtain ⟨b, hb⟩ : ∃ b : KHeld, b = KHeld.mk p (count * size % 2 ^ 64) false := ⟨_, rfl⟩
  have hp : p = b.addr := by rw [hb]
  rw [← hb] at hle hnew ⊢
  rw [hp]
  refine ⟨b.cap, hle, ?_, fun x hx1 hx2 => Mem.fill_apply_of_mem hx1 (by omega),
    fun x hx => Mem.fill_apply_of_not_mem hx⟩
  -- clearing is a write of the caller into the block
  refine CallerOk.usable (CallerOk.step (s := ⟨_, b :: s.held⟩) hnew
    (CallerStep.write ⟨_, b :: s.held⟩ b (.head _) _ (fun x hx => ?_)))
  by_contra hout
  exact hx (Mem.fill_apply_of_not_mem (by omega))

theorem cap_ge_of_fits (hok : CallerOk s.heap s.held) (hfit : Fits count size)
    (h1 : (kmalloc s.heap (count * size % 2 ^ 64)).1 = some p) :
    count * size ≤ (KHeld.mk p (count * size % 2 ^ 64) false).cap := by
  have hle := size_le_cap_of_le (b := ⟨p, count * size % 2 ^ 64, false⟩) hfit.2.1
  rcases hfit.2.2 with hlt | h0 | hlarge
  · rw [mod_eq_of_lt hlt] at hle ⊢
    exact hle
  · rw [h0] at h1
    cases h1
  · -- no block is larger than the heap
    have hin := (hok.of_kmalloc (mod_lt _ (by simp)) h1).usable.heap
    have hsz : heapSize = 2 ^ 26 := rfl
    dsimp only at hin hle
    omega

end Calls

/-! ### Blocks that are too small -/

section Init

variable (h : Heap)

theorem buddyAlloc_init {order : ℕ} (ho : order ≤ 14) (u : Bool) :
    ∃ p, (buddyAlloc (memoryInit h) order u).1 = some p := by
  rcases (buddyInv_init h).buddyAlloc_spec order u with ⟨_, _, hnone⟩ | ⟨k, _, _, _, h1, _⟩
  · have := hnone (by omega) 14 (by omega)
    cases this
  · exact ⟨_, h1⟩

/-- After `memory_init` every block of at most the heap is there. -/
theorem kmalloc_init (size : ℕ) (h0 : 0 < size) (ho : orderFor (pagesFor size) ≤ 14) :
    ∃ p, (kmalloc (memoryInit h) size).1 = some p := by
  unfold kmalloc
  rw [if_neg (by omega)]
  dsimp only
  by_cases hbig : 2048 ≤ size
  · rw [if_neg (by omega : ¬ size < 16), if_pos hbig]
    split
    · exact buddyAlloc_init h (zero_le 14) false
    · exact buddyAlloc_init h ho false
  obtain ⟨hi, _, hfind⟩ := cacheIndex_spec (Nat.lt_of_not_le hbig)
  have hsmall : ¬ 2048 ≤ (if size < 16 then 16 else size) := by split <;> omega
  rw [if_neg hsmall, findCache_eq (kOk_init h), hfind]
  obtain ⟨p, hp⟩ := buddyAlloc_init h (zero_le 14) false
  have hslab : (slabAlloc (memoryInit h) (cacheIndex size)).1.isSome := by
    unfold slabAlloc
    have hnone : findSlab (memoryInit h) (frameCount + 1)
        ((memoryInit h).kmallocCaches (cacheIndex size)).slabs = 0 := rfl
    rw [hnone]
    rw [if_neg (fun hne => hne rfl)]
    generalize buddyAlloc (memoryInit h) 0 false = r at hp ⊢
    obtain ⟨r1, h'⟩ := r
    obtain rfl : r1 = some p := hp
    rfl
  unfold pcpuSlabAlloc
  have hempty : (memoryInit h).pcpuObjects
      ((memoryInit h).kmallocCaches (cacheIndex size)).id = [] := rfl
  dsimp only
  rw [hempty]
  generalize slabAlloc (memoryInit h) (cacheIndex size) = r at hslab ⊢
  obtain ⟨r1, h'⟩ := r
  obtain ⟨a, rfl⟩ := Option.isSome_iff_exists.mp hslab
  exact ⟨a, rfl⟩

theorem not_sizesOk {count size : ℕ} (hs : size < 2 ^ 64) (hno : ¬ Fits count size) :
    ¬ SizesOk ⟨memoryInit h, []⟩ count size := by
  intro hok
  have hsz : heapSize = 2 ^ 26 := rfl
  have hph : heapPhys < 2 ^ 32 := by decide
  by_cases h1 : size ≤ 2 ^ 64 - 4096
  · -- the block of `kcalloc` is smaller than the product
    have hbig : 2 ^ 26 < count * size := by
      by_contra hle
      refine hno ⟨h1, ?_, .inl (by omega)⟩
      exact (mod_le _ _).trans (by omega)
    have hpos : 0 < count * size % 2 ^ 64 ∧ orderFor (pagesFor (count * size % 2 ^ 64)) ≤ 14 := by
      by_cases h2 : count * size % 2 ^ 64 ≤ 2 ^ 64 - 4096
      · have h3 : count * size % 2 ^ 64 ≠ 0 := fun h3 => hno ⟨h1, h2, .inr (.inl h3)⟩
        have h4 : count * size % 2 ^ 64 ≤ 2 ^ 26 := by
          by_contra h4
          exact hno ⟨h1, h2, .inr (.inr (by omega))⟩
        refine ⟨by omega, orderLoop_le ?_ 64 0 (zero_le _)⟩
        rw [pagesFor_of_le h2]
        omega
      · refine ⟨by omega, ?_⟩
        rw [pagesFor_wrap (by omega) (mod_lt _ (by simp))]
        exact zero_le _
    obtain ⟨p, hp⟩ := kmalloc_init h _ hpos.1 hpos.2
    obtain ⟨n, hn, husable, _⟩ := hok.kcalloc p (by rw [kcalloc_fst]; exact hp)
    have := husable.heap
    omega
  · obtain ⟨p, hp⟩ := kmalloc_init h size (by omega)
      (by rw [pagesFor_wrap (by omega) hs]; exact zero_le _)
    obtain ⟨n, hn, husable⟩ := hok.kmalloc p hp
    have := husable.heap
    omega

end Init

/-- **The sizes for which `kmalloc` and `kcalloc` keep their contract.**  In every state of
every run: `NULL` or a block with the bytes asked for, cleared by `kcalloc` and only there, and
the loops end. -/
theorem sizesOk_iff {count size : ℕ} (hsize : size < 2 ^ 64) :
    (∀ h s, CallerRun h s → SizesOk s count size) ↔ Fits count size := by
  constructor
  · intro hall
    by_contra hno
    exact not_sizesOk zeroHeap hsize hno (hall zeroHeap _ Relation.ReflTransGen.refl)
  · intro hfit h s hr
    have hok := callerOk_of_run hr
    exact ⟨kmallocOk_of_le hok hfit.1, kcallocOk_of_le hok (fun p => cap_ge_of_fits hok hfit),
      hok.loopsEnd _, hok.loopsEnd _⟩

theorem sizesOk_iff_array :
    (∀ h s, CallerRun h s → SizesOk s 512 8) ↔ Fits 512 8 :=
  sizesOk_iff (by simp)

/-- `kmalloc(SIZE_MAX)` right after `memory_init` hands out one page, and
`kcalloc(2^61 + 1, 8)` a block of eight bytes. -/
theorem kmalloc_wraps :
    ¬ KmallocOk ⟨memoryInit zeroHeap, []⟩ (2 ^ 64 - 1) ∧
    ¬ KcallocOk ⟨memoryInit zeroHeap, []⟩ (2 ^ 61 + 1) 8 := by
  have hsz : heapSize = 2 ^ 26 := rfl
  have hph : heapPhys < 2 ^ 32 := by decide
  constructor
  · intro hok
    obtain ⟨p, hp⟩ := kmalloc_init zeroHeap (2 ^ 64 - 1) (by simp)
      (by rw [pagesFor_wrap (by simp) (by simp)]; exact zero_le _)
    obtain ⟨n, hn, husable⟩ := hok p hp
    have := husable.heap
    omega
  · intro hok
    obtain ⟨p, hp⟩ := kmalloc_init zeroHeap ((2 ^ 61 + 1) * 8 % 2 ^ 64) (by simp)
      (orderLoop_le (by rw [pagesFor_of_le (by simp)]; norm_num) 64 0 (zero_le _))
    obtain ⟨n, hn, husable, _⟩ := hok p (by rw [kcalloc_fst]; exact hp)
    have := husable.heap
    omega

end TipOS.Memory
