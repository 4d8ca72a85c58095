import TipOS.Memory.Kmalloc
import TipOS.Memory.BuddyLists
import Mathlib.Data.List.Perm.Subperm

/-!
# One slab

A slab of cache `i` at `s` is a page whose objects are the `objAt i s j`.  `SlabOk h i s F`
says that its header is in order and that the free objects, in free-list order, are `F`.
It looks at the header without the two list links, and at the first eight bytes of the free
objects: an object that is handed out can hold anything.
-/

namespace TipOS.Memory

open Lib List Nat Mem

/-! ### Objects -/

def objSize (i : ℕ) : ℕ := cacheSizes.getD i 0
def objCount (i : ℕ) : ℕ := (frameSize - slabHeaderSize) / objSize i

theorem obj_facts : ∀ i < 8, (16 ≤ objSize i ∧ objSize i ≤ 2048) ∧ (0 < objCount i ∧
    objCount i ≤ 253) ∧ 48 + objCount i * objSize i ≤ 4096 ∧
    4096 < 48 + (objCount i + 1) * objSize i := by
  decide

/-- Object `j` of the slab at `s` of cache `i`. -/
def objAt (i s j : ℕ) : ℕ := s + 48 + j * objSize i

def IsObj (i s a : ℕ) : Prop := ∃ j < objCount i, a = objAt i s j

section Objects

variable {i s a a' : ℕ}

theorem objAt_end {j : ℕ} (hi : i < 8) (hj : j < objCount i) :
    objAt i s j + objSize i ≤ s + 4096 := by
  have h := (obj_facts i hi).2.2.1
  have hm : (j + 1) * objSize i ≤ objCount i * objSize i := mul_le_mul_right _ hj
  rw [add_mul, one_mul] at hm
  unfold objAt
  omega

theorem IsObj.bounds (h : IsObj i s a) (hi : i < 8) : s + 48 ≤ a ∧ a + objSize i ≤ s + 4096 := by
  obtain ⟨j, hj, rfl⟩ := h
  exact ⟨by unfold objAt; omega, objAt_end hi hj⟩

theorem objAt_lt {j j' : ℕ} (h : j < j') : objAt i s j + objSize i ≤ objAt i s j' := by
  have hm : (j + 1) * objSize i ≤ j' * objSize i := mul_le_mul_right _ h
  rw [add_mul, one_mul] at hm
  unfold objAt
  omega

theorem IsObj.disjoint (h : IsObj i s a) (h' : IsObj i s a') (hne : a ≠ a') :
    a + objSize i ≤ a' ∨ a' + objSize i ≤ a := by
  obtain ⟨j, _, rfl⟩ := h
  obtain ⟨j', _, rfl⟩ := h'
  rcases lt_trichotomy j j' with hlt | rfl | hlt
  · exact .inl (objAt_lt hlt)
  · omega
  · exact .inr (objAt_lt hlt)

theorem pageBase_eq {p : ℕ} (hp : p < 2 ^ 32) : pageBase p = p / 4096 * 4096 := by
  unfold pageBase
  apply eq_of_testBit_eq
  intro b
  rw [testBit_and, show (0xFFFFF000 : ℕ) = (2 ^ 20 - 1) * 2 ^ 12 from rfl,
    testBit_mul_two_pow, testBit_two_pow_sub_one, show (4096 : ℕ) = 2 ^ 12 from rfl,
    testBit_mul_two_pow, testBit_div_two_pow]
  by_cases hb : 12 ≤ b
  · rw [Nat.sub_add_cancel hb]
    by_cases hb32 : b - 12 < 20
    · simp [hb, hb32]
    · rw [Nat.testBit_lt_two_pow (lt_of_lt_of_le hp (Nat.pow_le_pow_right (by decide) (by omega)))]
      simp
  · simp [hb]

theorem IsObj.pageBase (h : IsObj i s a) (hi : i < 8) (hs : s % 4096 = 0) (hlt : s + 4096 ≤ 2 ^ 32) :
    pageBase a = s := by
  have hb := h.bounds hi
  have hsz := (obj_facts i hi).1
  rw [pageBase_eq (by omega)]
  omega

theorem length_le_objCount {F : List ℕ} (hnd : F.Nodup) (hF : ∀ a ∈ F, IsObj i s a) :
    F.length ≤ objCount i := by
  have hsub : F ⊆ (List.range (objCount i)).map (objAt i s) := by
    intro a ha
    obtain ⟨j, hj, rfl⟩ := hF a ha
    exact mem_map.mpr ⟨j, mem_range.mpr hj, rfl⟩
  have := (subperm_of_subset hnd hsub).length_le
  rwa [length_map, length_range] at this

end Objects

/-! ### Changes of the memory -/

/-- The two states differ in bytes with `P` and in nothing else. -/
structure OnlyMem (h h' : Heap) (P : ℕ → Prop) : Prop where
  frames : h'.frames = h.frames
  freeArea : h'.freeArea = h.freeArea
  caches : SameCaches h h'
  mem : ∀ x, ¬ P x → h'.mem x = h.mem x

namespace OnlyMem

variable {h h₁ h₂ : Heap} {P Q : ℕ → Prop}

theorem refl (h : Heap) (P : ℕ → Prop) : OnlyMem h h P := ⟨rfl, rfl, .refl h, fun _ _ => rfl⟩

theorem trans (a : OnlyMem h h₁ P) (b : OnlyMem h₁ h₂ P) : OnlyMem h h₂ P :=
  ⟨b.frames.trans a.frames, b.freeArea.trans a.freeArea, a.caches.trans b.caches,
    fun x hx => (b.mem x hx).trans (a.mem x hx)⟩

theorem mono (a : OnlyMem h h₁ P) (hPQ : ∀ x, P x → Q x) : OnlyMem h h₁ Q :=
  ⟨a.frames, a.freeArea, a.caches, fun x hx => a.mem x (fun hp => hx (hPQ x hp))⟩

theorem load (a : OnlyMem h h₁ P) {p n : ℕ} (hp : ∀ x, p ≤ x → x < p + n → ¬ P x) :
    h₁.mem.load p n = h.mem.load p n :=
  load_congr n p (fun x h1 h2 => a.mem x (hp x h1 h2))

theorem outside {b c p n : ℕ} (a : OnlyMem h h₁ fun x => b ≤ x ∧ x < c) (hp : p + n ≤ b ∨ c ≤ p) :
    h₁.mem.load p n = h.mem.load p n :=
  a.load fun x h1 h2 hx => by omega

end OnlyMem

section Writes

variable (h : Heap) (a v : ℕ)

theorem onlyMem_write64 : OnlyMem h (h.write64 a v) (fun x => a ≤ x ∧ x < a + 8) :=
  ⟨rfl, rfl, ⟨rfl, rfl, rfl⟩, fun x hx => store_apply_of_not_mem (by omega)⟩

theorem onlyMem_write32 : OnlyMem h (h.write32 a v) (fun x => a ≤ x ∧ x < a + 4) :=
  ⟨rfl, rfl, ⟨rfl, rfl, rfl⟩, fun x hx => store_apply_of_not_mem (by omega)⟩

theorem onlyMem_write16 : OnlyMem h (h.write16 a v) (fun x => a ≤ x ∧ x < a + 2) :=
  ⟨rfl, rfl, ⟨rfl, rfl, rfl⟩, fun x hx => store_apply_of_not_mem (by omega)⟩

theorem load_write64 (hv : v < 256 ^ 8) : (h.write64 a v).mem.load a 8 = v := by
  rw [Heap.write64, load_store, mod_eq_of_lt hv]

theorem load_write32 (hv : v < 256 ^ 4) : (h.write32 a v).mem.load a 4 = v := by
  rw [Heap.write32, load_store, mod_eq_of_lt hv]

end Writes

/-! ### The slab -/

/-- **The slab at `s` of cache `i` is in order**, and its free objects are `F`. -/
structure SlabOk (h : Heap) (i s : ℕ) (F : List ℕ) : Prop where
  magic : h.magic s = slabMagic
  cache : h.cache s = i + 1
  inUse : h.inUse s + F.length = objCount i
  free : Stack h.next (h.freelist s) F
  nodup : F.Nodup
  obj : ∀ a ∈ F, IsObj i s a

/-- The bytes `SlabOk` looks at. -/
def SlabByte (s : ℕ) (F : List ℕ) (x : ℕ) : Prop :=
  (s ≤ x ∧ x < s + 24) ∨ (s + 40 ≤ x ∧ x < s + 48) ∨ ∃ a ∈ F, a ≤ x ∧ x < a + 8

namespace SlabOk

variable {h h' : Heap} {i s : ℕ} {F : List ℕ}

theorem congr (hs : SlabOk h i s F) (hm : ∀ x, SlabByte s F x → h'.mem x = h.mem x) :
    SlabOk h' i s F := by
  have hload : ∀ p n, (∀ x, p ≤ x → x < p + n → SlabByte s F x) →
      h'.mem.load p n = h.mem.load p n :=
    fun p n hp => load_congr n p (fun x h1 h2 => hm x (hp x h1 h2))
  have hfree : h'.freelist s = h.freelist s :=
    hload _ _ (fun x h1 h2 => .inl ⟨by omega, by omega⟩)
  refine ⟨?_, ?_, ?_, ?_, hs.nodup, hs.obj⟩
  · rw [← hs.magic]
    exact hload _ _ (fun x h1 h2 => .inl ⟨by omega, by omega⟩)
  · rw [← hs.cache]
    exact hload _ _ (fun x h1 h2 => .inr (.inl ⟨by omega, by omega⟩))
  · have huse : h'.inUse s = h.inUse s := hload _ _ (fun x h1 h2 => .inl ⟨by omega, by omega⟩)
    rw [huse]
    exact hs.inUse
  · rw [hfree]
    exact hs.free.congr (fun a ha => hload _ _ (fun x h1 h2 => .inr (.inr ⟨a, ha, h1, h2⟩)))

/-- They lie in the slab, and its links are none of them. -/
theorem byte_bounds (hs : SlabOk h i s F) (hi : i < 8) {x : ℕ} (hx : SlabByte s F x) :
    s ≤ x ∧ x < s + 4096 ∧ ¬ (s + 24 ≤ x ∧ x < s + 40) := by
  rcases hx with hx | hx | ⟨a, ha, hx⟩
  · omega
  · omega
  · have := (hs.obj a ha).bounds hi
    have := (obj_facts i hi).1
    omega

end SlabOk

/-- The bytes that taking an object changes. -/
def CountByte (s x : ℕ) : Prop := (s + 4 ≤ x ∧ x < s + 8) ∨ (s + 16 ≤ x ∧ x < s + 24)

section Moves

variable {h : Heap} {i s a : ℕ} {F : List ℕ}

theorem onlyMem_takeFree (h : Heap) (s n : ℕ) :
    OnlyMem h ((takeFree h s).2.write32 (s + 4) n) (CountByte s) := by
  refine OnlyMem.trans ((onlyMem_write64 h (s + 16) _).mono fun x hx => .inr ?_)
    ((onlyMem_write32 _ (s + 4) n).mono fun x hx => .inl ?_)
  · omega
  · omega

/-- **Taking the first free object.** -/
theorem takeFree_ok (hi : i < 8) (hs : SlabOk h i s (a :: F)) {n : ℕ}
    (hn : n = h.inUse s + 1) :
    (takeFree h s).1 = a ∧ SlabOk ((takeFree h s).2.write32 (s + 4) n) i s F := by
  have hfree : h.freelist s = a := hs.free.1
  have hc := onlyMem_takeFree h s n
  have hcnt := (obj_facts i hi).2.1
  have hin := hs.inUse
  rw [length_cons] at hin
  -- the objects lie behind the header
  have hobj : ∀ b ∈ F, ∀ x, b ≤ x → x < b + 8 → ¬ CountByte s x := by
    intro b hb x h1 h2 hx
    have := ((hs.obj b (by simp [hb])).bounds hi).1
    unfold CountByte at hx
    omega
  have hnext : ∀ b ∈ F, ((takeFree h s).2.write32 (s + 4) n).next b = h.next b :=
    fun b hb => hc.load (hobj b hb)
  have hnlt : h.next a < 256 ^ 8 := load_lt _ _ _
  refine ⟨hfree, ?_, ?_, ?_, ?_, (nodup_cons.mp hs.nodup).2, fun b hb => hs.obj b (by simp [hb])⟩
  · rw [← hs.magic]
    exact hc.load (fun x h1 h2 hx => by unfold CountByte at hx; omega)
  · rw [← hs.cache]
    exact hc.load (fun x h1 h2 hx => by unfold CountByte at hx; omega)
  · have : ((takeFree h s).2.write32 (s + 4) n).inUse s = n := load_write32 _ _ _ (by omega)
    rw [this]
    omega
  · have : ((takeFree h s).2.write32 (s + 4) n).freelist s = h.next a := by
      rw [← hfree]
      unfold Heap.freelist
      rw [(onlyMem_write32 _ (s + 4) n).outside (by omega)]
      exact load_write64 _ _ _ (by rw [← hfree] at hnlt; exact hnlt)
    rw [this]
    exact hs.free.2.2.congr hnext

theorem pred32_eq {v : ℕ} (h0 : 0 < v) (hlt : v < 2 ^ 32) : pred32 v = v - 1 := by
  unfold pred32
  rw [show v + 2 ^ 32 - 1 = (v - 1) + 2 ^ 32 by omega, add_mod_right]
  exact mod_eq_of_lt (by omega)

theorem onlyMem_giveBack (h : Heap) (a s : ℕ) :
    OnlyMem h (giveBack h a s) (fun x => (a ≤ x ∧ x < a + 8) ∨ CountByte s x) := by
  refine (((onlyMem_write64 h a _).mono fun x hx => .inl hx).trans
    ((onlyMem_write64 _ (s + 16) _).mono fun x hx => .inr (.inr ?_))).trans
    ((onlyMem_write32 _ (s + 4) _).mono fun x hx => .inr (.inl ?_))
  · omega
  · omega

/-- **Giving an object back.** -/
theorem giveBack_ok (hi : i < 8) (h0 : 0 < s) (hlt : s + 4096 ≤ 2 ^ 32) (hs : SlabOk h i s F)
    (ha : IsObj i s a) (hnot : a ∉ F) :
    SlabOk (giveBack h a s) i s (a :: F) ∧ (giveBack h a s).inUse s + 1 = h.inUse s := by
  have hc := onlyMem_giveBack h a s
  have hsz := (obj_facts i hi).1
  have hcnt := (obj_facts i hi).2.1
  have hab := ha.bounds hi
  have hin := hs.inUse
  have hobj : ∀ b ∈ a :: F, IsObj i s b := forall_mem_cons.mpr ⟨ha, hs.obj⟩
  have hnd : (a :: F).Nodup := nodup_cons.mpr ⟨hnot, hs.nodup⟩
  have hlen := length_le_objCount hnd hobj
  rw [length_cons] at hlen
  have hflt : h.freelist s < 256 ^ 8 := load_lt _ _ _
  have hnext : ∀ b ∈ F, (giveBack h a s).next b = h.next b := by
    intro b hb
    have hbb := (hs.obj b hb).bounds hi
    have hd := (hs.obj b hb).disjoint ha (fun he => hnot (he ▸ hb))
    refine hc.load (fun x h1 h2 hx => ?_)
    unfold CountByte at hx
    omega
  have hna : (giveBack h a s).next a = h.freelist s := by
    unfold giveBack Heap.next
    dsimp only
    rw [(onlyMem_write32 _ (s + 4) _).outside (by omega),
      (onlyMem_write64 _ (s + 16) _).outside (by omega)]
    exact load_write64 _ _ _ hflt
  have hfree : (giveBack h a s).freelist s = a := by
    unfold giveBack Heap.freelist
    dsimp only
    rw [(onlyMem_write32 _ (s + 4) _).outside (by omega)]
    exact load_write64 _ _ _ (by norm_num; omega)
  have huse : (giveBack h a s).inUse s = h.inUse s - 1 := by
    have h2 : ∀ v w, ((h.write64 a v).write64 (s + 16) w).inUse s = h.inUse s := by
      intro v w
      unfold Heap.inUse
      rw [(onlyMem_write64 _ (s + 16) _).outside (by omega),
        (onlyMem_write64 _ a _).outside (by omega)]
    unfold giveBack
    dsimp only
    rw [h2, pred32_eq (by omega) (by omega)]
    exact load_write32 _ _ _ (by omega)
  refine ⟨⟨?_, ?_, ?_, ?_, hnd, hobj⟩, by omega⟩
  · rw [← hs.magic]
    exact hc.load (fun x h1 h2 hx => by unfold CountByte at hx; omega)
  · rw [← hs.cache]
    exact hc.load (fun x h1 h2 hx => by unfold CountByte at hx; omega)
  · rw [huse, length_cons]
    omega
  · rw [hfree]
    exact hs.free.push (by omega) hnext hna

end Moves

/-! ### A new slab -/

section NewSlab

variable {h : Heap} {i s : ℕ}

theorem OnlyMem.setSlabs {h₁ : Heap} {P : ℕ → Prop} (a : OnlyMem h h₁ P) (i s : ℕ) :
    OnlyMem (h.setSlabs i s) (h₁.setSlabs i s) P := by
  refine ⟨a.frames, a.freeArea, ⟨?_, a.caches.2.1, a.caches.2.2⟩, a.mem⟩
  unfold Heap.setSlabs
  rw [a.caches.1]

/-- The bytes that the header of a new slab changes: its own, and the back link of the slab
that was the first one. -/
def HeaderByte (s p x : ℕ) : Prop := (s ≤ x ∧ x < s + 48) ∨ (p ≠ 0 ∧ p + 32 ≤ x ∧ x < p + 40)

/-- The state before the last two steps of `initHeader`. -/
def writeHeader (h : Heap) (i s : ℕ) : Heap :=
  (((((h.write32 s slabMagic).write32 (s + 4) 0).write16 (s + 8)
    (h.kmallocCaches i).objPerSlab).write64 (s + 40) (i + 1)).write64 (s + 24)
    (h.kmallocCaches i).slabs).write64 (s + 32) 0

theorem initHeader_eq (h : Heap) (i s : ℕ) : initHeader h i s =
    (if (h.kmallocCaches i).slabs ≠ 0 then
      (writeHeader h i s).write64 ((h.kmallocCaches i).slabs + 32) s
    else writeHeader h i s).setSlabs i s := rfl

theorem onlyMem_writeHeader (h : Heap) (i s : ℕ) :
    OnlyMem h (writeHeader h i s) (fun x => s ≤ x ∧ x < s + 48) := by
  refine OnlyMem.trans (OnlyMem.trans (OnlyMem.trans (OnlyMem.trans (OnlyMem.trans
    ((onlyMem_write32 h s _).mono ?_) ((onlyMem_write32 _ (s + 4) _).mono ?_))
    ((onlyMem_write16 _ (s + 8) _).mono ?_)) ((onlyMem_write64 _ (s + 40) _).mono ?_))
    ((onlyMem_write64 _ (s + 24) _).mono ?_)) ((onlyMem_write64 _ (s + 32) _).mono ?_) <;>
  · intro x hx
    omega

theorem writeHeader_fields (hi : i < 8) :
    (writeHeader h i s).magic s = slabMagic ∧ (writeHeader h i s).inUse s = 0 ∧
    (writeHeader h i s).cache s = i + 1 ∧
    (writeHeader h i s).slabNext s = (h.kmallocCaches i).slabs % 256 ^ 8 ∧
    (writeHeader h i s).slabPrev s = 0 := by
  unfold writeHeader Heap.magic Heap.inUse Heap.cache Heap.slabNext Heap.slabPrev
  refine ⟨?_, ?_, ?_, ?_, load_write64 _ _ _ (by simp)⟩
  · rw [(onlyMem_write64 _ (s + 32) _).outside (by omega),
      (onlyMem_write64 _ (s + 24) _).outside (by omega),
      (onlyMem_write64 _ (s + 40) _).outside (by omega),
      (onlyMem_write16 _ (s + 8) _).outside (by omega),
      (onlyMem_write32 _ (s + 4) _).outside (by omega)]
    exact load_write32 _ _ _ (by decide)
  · rw [(onlyMem_write64 _ (s + 32) _).outside (by omega),
      (onlyMem_write64 _ (s + 24) _).outside (by omega),
      (onlyMem_write64 _ (s + 40) _).outside (by omega),
      (onlyMem_write16 _ (s + 8) _).outside (by omega)]
    exact load_write32 _ _ _ (by simp)
  · rw [(onlyMem_write64 _ (s + 32) _).outside (by omega),
      (onlyMem_write64 _ (s + 24) _).outside (by omega)]
    exact load_write64 _ _ _ (by norm_num; omega)
  · rw [(onlyMem_write64 _ (s + 32) _).outside (by omega), Heap.write64,
      load_store]

/-- **The header of a new slab.** -/
theorem initHeader_ok {p : ℕ} (hi : i < 8) (hs : s % 4096 = 0) (hlt : s + 4096 ≤ 2 ^ 32)
    (hp : (h.kmallocCaches i).slabs = p) (hp0 : p = 0 ∨ (p % 4096 = 0 ∧ p ≠ s ∧ p < 256 ^ 8)) :
    (initHeader h i s).magic s = slabMagic ∧ (initHeader h i s).inUse s = 0 ∧
    (initHeader h i s).cache s = i + 1 ∧ (initHeader h i s).slabNext s = p ∧
    (initHeader h i s).slabPrev s = 0 ∧ (p ≠ 0 → (initHeader h i s).slabPrev p = s) ∧
    OnlyMem (h.setSlabs i s) (initHeader h i s) (HeaderByte s p) := by
  obtain ⟨h1, h2, h3, h4, h5⟩ := writeHeader_fields (h := h) (s := s) hi
  have hw : OnlyMem h (writeHeader h i s) (HeaderByte s p) :=
    (onlyMem_writeHeader h i s).mono fun x hx => .inl hx
  rw [initHeader_eq, hp]
  by_cases hz : p = 0
  · subst hz
    rw [if_neg (by simp)]
    rw [hp] at h4
    exact ⟨h1, h2, h3, h4, h5, fun hh => absurd rfl hh, hw.setSlabs i s⟩
  obtain ⟨hpm, hne, hplt⟩ := hp0.resolve_left hz
  rw [if_pos hz]
  rw [hp, mod_eq_of_lt hplt] at h4
  have hl := onlyMem_write64 (writeHeader h i s) (p + 32) s
  refine ⟨?_, ?_, ?_, ?_, ?_, fun _ => load_write64 _ _ _ (by norm_num; omega), ?_⟩
  · exact (hl.outside (by omega)).trans h1
  · exact (hl.outside (by omega)).trans h2
  · exact (hl.outside (by omega)).trans h3
  · exact (hl.outside (by omega)).trans h4
  · exact (hl.outside (by omega)).trans h5
  · exact (hw.trans (hl.mono fun x hx => .inr ⟨hz, by omega, by omega⟩)).setSlabs i s

/-- **The loop that threads the objects**: it goes through the `m` objects from `j` on and
puts each in front of what is threaded already. -/
theorem carve_ok (hi : i < 8) (h0 : 0 < s) (hlt : s + 4096 ≤ 2 ^ 32) :
    ∀ (m j n : ℕ) {h : Heap} (head count : ℕ) (acc : List ℕ), j + m = objCount i → m ≤ n →
      Stack h.next head acc → acc.Nodup → (∀ a ∈ acc, ∃ j' < j, a = objAt i s j') →
      ∃ l, Stack (carve (objSize i) (s + 4096) n h (objAt i s j) head count).1.next
          (carve (objSize i) (s + 4096) n h (objAt i s j) head count).2.1 l ∧
        l.length = acc.length + m ∧ l.Nodup ∧ (∀ a ∈ l, IsObj i s a) ∧
        OnlyMem h (carve (objSize i) (s + 4096) n h (objAt i s j) head count).1
          (fun x => s + 48 ≤ x ∧ x < s + 4096) := by
  have hsz := (obj_facts i hi).1
  intro m
  induction m with
  | zero =>
    intro j n h head count acc hj hn hst hnd hacc
    have hstop : carve (objSize i) (s + 4096) n h (objAt i s j) head count = (h, head, count) := by
      cases n with
      | zero => rfl
      | succ n =>
        have hbig := (obj_facts i hi).2.2.2
        rw [← hj, add_zero, add_mul, one_mul] at hbig
        rw [carve, if_neg (by unfold objAt; omega)]
    rw [hstop]
    refine ⟨acc, hst, rfl, hnd, fun a ha => ?_, OnlyMem.refl _ _⟩
    obtain ⟨j', hj', rfl⟩ := hacc a ha
    exact ⟨j', by omega, rfl⟩
  | succ m ih =>
    intro j n h head count acc hj hn hst hnd hacc
    obtain ⟨n, rfl⟩ : ∃ n', n = n' + 1 := ⟨n - 1, by omega⟩
    have hfit : objAt i s j + objSize i ≤ s + 4096 := objAt_end hi (by omega)
    have hstep : carve (objSize i) (s + 4096) (n + 1) h (objAt i s j) head count =
        carve (objSize i) (s + 4096) n (h.write64 (objAt i s j) head) (objAt i s (j + 1))
          (objAt i s j) (count + 1) := by
      rw [carve, if_pos hfit]
      congr 1
      unfold objAt
      rw [add_mul, one_mul]
      omega
    have hlow : s + 48 ≤ objAt i s j := by unfold objAt; omega
    have hbelow : ∀ a ∈ acc, a + 8 ≤ objAt i s j := by
      intro a ha
      obtain ⟨j', hj', rfl⟩ := hacc a ha
      have := objAt_lt (i := i) (s := s) hj'
      omega
    have hhead : head < 256 ^ 8 := by
      rcases hst.head_cases with rfl | hmem
      · simp
      · have := hbelow head hmem
        simp
        omega
    have hw := onlyMem_write64 h (objAt i s j) head
    have hst' : Stack (h.write64 (objAt i s j) head).next (objAt i s j) (objAt i s j :: acc) := by
      refine hst.push (by omega) (fun a ha => ?_) (load_write64 _ _ _ hhead)
      have := hbelow a ha
      exact hw.outside (by omega)
    have hnot : objAt i s j ∉ acc := fun hmem => by
      have := hbelow _ hmem
      omega
    obtain ⟨l, hl, hlen, hlnd, hobj, hc⟩ := ih (j + 1) n _ (count + 1) _ (by omega) (by omega)
      hst' (nodup_cons.mpr ⟨hnot, hnd⟩) (fun a ha => by
        rcases mem_cons.mp ha with rfl | ha
        · exact ⟨j, by omega, rfl⟩
        · obtain ⟨j', hj', rfl⟩ := hacc a ha
          exact ⟨j', by omega, rfl⟩)
    rw [hstep]
    refine ⟨l, hl, by rw [hlen, length_cons]; omega, hlnd, hobj, ?_⟩
    exact (hw.mono fun x hx => ⟨by omega, by omega⟩).trans hc

/-- **A new slab** is in order, with all its objects free, and it is in front of the list
of its cache. -/
theorem newSlab_ok {p : ℕ} (hi : i < 8) (h0 : 0 < s) (hs : s % 4096 = 0)
    (hlt : s + 4096 ≤ 2 ^ 32) (hsize : (h.kmallocCaches i).objSize = objSize i)
    (hp : (h.kmallocCaches i).slabs = p) (hp0 : p = 0 ∨ (p % 4096 = 0 ∧ p ≠ s ∧ p < 256 ^ 8)) :
    (∃ F, SlabOk (newSlab h i s) i s F ∧ F.length = objCount i) ∧
    (newSlab h i s).slabNext s = p ∧ (newSlab h i s).slabPrev s = 0 ∧
    (p ≠ 0 → (newSlab h i s).slabPrev p = s) ∧
    OnlyMem (h.setSlabs i s) (newSlab h i s)
      (fun x => (s ≤ x ∧ x < s + 4096) ∨ (p ≠ 0 ∧ p + 32 ≤ x ∧ x < p + 40)) := by
  obtain ⟨h1, h2, h3, h4, h5, h6, hc⟩ := initHeader_ok hi hs hlt hp hp0
  have hsz : ((initHeader h i s).kmallocCaches i).objSize = objSize i := by
    rw [hc.caches.1, ← hsize]
    unfold Heap.setSlabs
    dsimp only
    rw [Function.update_self]
  obtain ⟨l, hl, hlen, hnd, hobj, hcv⟩ := carve_ok (h := initHeader h i s) hi h0 hlt
    (objCount i) 0 4096 0 0 [] (zero_add _) (by have := (obj_facts i hi).2.1; omega) rfl
    nodup_nil (fun a ha => absurd ha not_mem_nil)
  generalize hr : carve (objSize i) (s + 4096) 4096 (initHeader h i s) (objAt i s 0) 0 0 = r
    at hl hcv
  have hdef : newSlab h i s = (r.1.write64 (s + 16) r.2.1).write16 (s + 8) r.2.2 := by
    rw [← hr]
    unfold newSlab
    dsimp only
    rw [hsz, show objAt i s 0 = s + slabHeaderSize by unfold objAt slabHeaderSize; omega]
    rfl
  rw [hdef]
  have hw1 := onlyMem_write64 r.1 (s + 16) r.2.1
  have hw2 := onlyMem_write16 (r.1.write64 (s + 16) r.2.1) (s + 8) r.2.2
  set t := (r.1.write64 (s + 16) r.2.1).write16 (s + 8) r.2.2
  -- fields outside the two words are still those of the header
  have hfld : ∀ q n, (q + n ≤ s + 8 ∨ s + 24 ≤ q) → (q + n ≤ s + 48 ∨ s + 4096 ≤ q) →
      t.mem.load q n = (initHeader h i s).mem.load q n := by
    intro q n hq1 hq2
    rw [hw2.outside (by omega), hw1.outside (by omega),
      hcv.outside (by omega)]
  have hr2 : r.2.1 < 256 ^ 8 := by
    rcases hl.head_cases with he | hmem
    · rw [he]
      simp
    have := (hobj _ hmem).bounds hi
    have := (obj_facts i hi).1
    simp
    omega
  have hfree : t.freelist s = r.2.1 := by
    unfold Heap.freelist
    rw [hw2.outside (by omega)]
    exact load_write64 _ _ _ hr2
  refine ⟨⟨l, ⟨?_, ?_, ?_, ?_, hnd, hobj⟩, by rw [hlen]; simp⟩, ?_, ?_, fun hpne => ?_, ?_⟩
  · exact (hfld _ _ (by omega) (by omega)).trans h1
  · exact (hfld _ _ (by omega) (by omega)).trans h3
  · have : t.inUse s = 0 := (hfld _ _ (by omega) (by omega)).trans h2
    rw [this, hlen]
    simp
  · rw [hfree]
    refine hl.congr (fun a ha => ?_)
    have := (hobj a ha).bounds hi
    refine (hw2.outside (by omega)).trans (hw1.outside (by omega))
  · exact (hfld _ _ (by omega) (by omega)).trans h4
  · exact (hfld _ _ (by omega) (by omega)).trans h5
  · rcases hp0 with hz | ⟨hpm, hne, _⟩
    · omega
    · exact (hfld _ _ (by omega) (by omega)).trans (h6 hpne)
  · refine ((hc.mono fun x hx => ?_).trans (hcv.mono fun x hx => .inl ⟨by omega, hx.2⟩)).trans
      ((hw1.mono fun x hx => .inl ⟨by omega, by omega⟩).trans
        (hw2.mono fun x hx => .inl ⟨by omega, by omega⟩))
    rcases hx with hx | hx
    · exact .inl ⟨hx.1, by omega⟩
    · exact .inr hx

end NewSlab

end TipOS.Memory
