import TipOS.Memory.SlabLists
import TipOS.Memory.BuddyRuns

/-!
# One invariant for the four layers

`KInv h X P O B L S F` ties the layers of `memory.c` together.  The frame level below sees
a list of held blocks (`FrameInv`); at this level each of them has one owner:

* `X`: pages in flight inside a call;
* `P`: blocks the callers hold;
* `S i`: the slabs of cache `i`;
* the per-CPU pool of pages.

The objects of the slabs of cache `i` are free (`F s`, on the free list of the slab `s`), in
the per-CPU stack of the cache, or with a caller (`O i`); the last two are its tokens.

A call moves blocks and objects from one owner to another, and each lemma below is one such
move.  That `kfree` can tell a page from an object by its first word is the last field: no
block of a caller, and no page of the pool, starts with `SLAB_MAGIC`.
-/

namespace TipOS.Memory

open Function Lib List

variable {S' O' : ℕ → List ℕ} {X' : List HeldBlock} {m : Mem}

theorem pcpuObjects_setObjects (h : Heap) (i : ℕ) (l : List ℕ) :
    (h.setObjects i l).pcpuObjects = update h.pcpuObjects i l := rfl

/-! ### Owners -/

/-- A single page as a block. -/
def pageBlock (p : ℕ) : HeldBlock := ⟨p, 0, false⟩

def slabPages (S : ℕ → List ℕ) : List ℕ := (List.range 8).flatMap S

def owners (X P : List HeldBlock) (S : ℕ → List ℕ) (pool : List ℕ) : List HeldBlock :=
  X ++ P ++ (slabPages S ++ pool).map pageBlock

theorem flatMap_perm_cons {ι : Type} [DecidableEq ι] {S S' : ι → List ℕ} {i : ι} {a : ℕ}
    {l : List ι} (hl : l.Nodup) (hi : i ∈ l) (hne : ∀ j, j ≠ i → S' j = S j)
    (hp : (S' i).Perm (a :: S i)) : (l.flatMap S').Perm (a :: l.flatMap S) := by
  induction l with
  | nil => cases hi
  | cons j t ih =>
    obtain ⟨hj, ht⟩ := nodup_cons.mp hl
    rw [flatMap_cons, flatMap_cons]
    by_cases hji : j = i
    · subst hji
      have hrest : t.flatMap S' = t.flatMap S :=
        flatMap_congr (fun m hm => hne m (fun he => hj (he ▸ hm)))
      rw [hrest]
      exact hp.append_right _
    · have hit : i ∈ t := (mem_cons.mp hi).resolve_left (Ne.symm hji)
      rw [hne j hji]
      exact ((ih ht hit).append_left _).trans perm_middle

theorem slabPages_perm {S : ℕ → List ℕ} {i s : ℕ} (hi : i < 8) (hne : ∀ j, j ≠ i → S' j = S j)
    (hp : (S' i).Perm (s :: S i)) : (slabPages S').Perm (s :: slabPages S) :=
  flatMap_perm_cons nodup_range (mem_range.mpr hi) hne hp

theorem mem_slabPages {S : ℕ → List ℕ} {s : ℕ} : s ∈ slabPages S ↔ ∃ i < 8, s ∈ S i := by
  simp [slabPages]

theorem owners_slab {X P : List HeldBlock} {S : ℕ → List ℕ} {pool : List ℕ} {i s : ℕ} (hi : i < 8)
    (hne : ∀ j, j ≠ i → S' j = S j) (hp : (S' i).Perm (s :: S i)) :
    (owners X P S' pool).Perm (owners (pageBlock s :: X) P S pool) := by
  have h1 : (slabPages S' ++ pool).Perm (s :: (slabPages S ++ pool)) :=
    (slabPages_perm hi hne hp).append_right pool
  exact ((h1.map pageBlock).append_left (X ++ P)).trans perm_middle

theorem owners_pool (X P : List HeldBlock) (S : ℕ → List ℕ) (pool : List ℕ) (p : ℕ) :
    (owners X P S (p :: pool)).Perm (owners (pageBlock p :: X) P S pool) := by
  have h1 : (slabPages S ++ p :: pool).Perm (p :: (slabPages S ++ pool)) := perm_middle
  exact ((h1.map pageBlock).append_left (X ++ P)).trans perm_middle

theorem owners_caller (X P : List HeldBlock) (S : ℕ → List ℕ) (pool : List ℕ) (b : HeldBlock) :
    (owners X (b :: P) S pool).Perm (owners (b :: X) P S pool) :=
  List.Perm.append_right _ perm_middle

/-! ### Tokens -/

/-- The objects outside the free lists: in the per-CPU stacks `C`, or with callers, `O`. -/
structure TokensOk (C O S F : ℕ → List ℕ) : Prop where
  nodup : ∀ i < 8, (C i ++ O i).Nodup
  obj : ∀ i < 8, ∀ a ∈ C i ++ O i, ∃ s ∈ S i, IsObj i s a ∧ a ∉ F s
  len : ∀ i < 8, (C i).length ≤ 16

theorem IsObj.slab_unique {i j s t a : ℕ} (h : IsObj i s a) (h' : IsObj j t a) (hi : i < 8)
    (hj : j < 8) (hs : s % 4096 = 0) (ht : t % 4096 = 0) : s = t := by
  have h1 := h.bounds hi
  have h2 := h'.bounds hj
  have h3 := (obj_facts i hi).1
  have h4 := (obj_facts j hj).1
  omega

namespace TokensOk

variable {C O S F : ℕ → List ℕ} {i s a : ℕ} {l : List ℕ}

section

variable (ht : TokensOk C O S F)

include ht

theorem pop (hp : Pages S) (hi : i < 8) (hs : s ∈ S i) (hF : F s = a :: l) (hnd : (F s).Nodup)
    (ha : IsObj i s a) :
    TokensOk C (update O i (a :: O i)) S (update F s l) := by
  rw [hF] at hnd
  have hmono : ∀ t b, b ∉ F t → b ∉ update F s l t := by
    intro t b hb
    by_cases hts : t = s
    · subst hts
      rw [update_self]
      rw [hF] at hb
      exact fun hm => hb (.tail _ hm)
    · rw [update_of_ne hts]
      exact hb
  have hnew : a ∉ C i ++ O i := by
    intro hm
    obtain ⟨t, htS, hat, hnot⟩ := ht.obj i hi a hm
    obtain rfl := ha.slab_unique hat hi hi (hp i hi s hs).1 (hp i hi t htS).1
    exact hnot (by rw [hF]; simp)
  refine ⟨fun j hj => ?_, fun j hj b hb => ?_, ht.len⟩
  · by_cases hji : j = i
    · subst hji
      rw [update_self]
      exact perm_middle.symm.nodup (nodup_cons.mpr ⟨hnew, ht.nodup j hj⟩)
    · rw [update_of_ne hji]
      exact ht.nodup j hj
  rw [mem_append, mem_update_cons, or_left_comm, ← mem_append] at hb
  rcases hb with ⟨rfl, rfl⟩ | hb
  · refine ⟨s, hs, ha, ?_⟩
    rw [update_self]
    exact (nodup_cons.mp hnd).1
  · obtain ⟨t, htS, hbt, hnot⟩ := ht.obj j hj b hb
    exact ⟨t, htS, hbt, hmono t b hnot⟩

theorem give (hi : i < 8) (hO : O i = a :: l) (hone : ∀ j < 8, s ∈ S j → j = i) :
    TokensOk C (update O i l) S (update F s (a :: F s)) := by
  have hnd := ht.nodup i hi
  rw [hO] at hnd
  have hnd' := nodup_cons.mp (perm_middle.nodup hnd)
  refine ⟨fun j hj => ?_, fun j hj b hb => ?_, ht.len⟩
  · by_cases hji : j = i
    · subst hji
      rw [update_self]
      exact hnd'.2
    · rw [update_of_ne hji]
      exact ht.nodup j hj
  have hold : b ∈ C j ++ O j ∧ (j = i → b ≠ a) := by
    by_cases hji : j = i
    · subst hji
      rw [update_self] at hb
      refine ⟨?_, fun _ he => hnd'.1 (he ▸ hb)⟩
      rw [hO]
      exact perm_middle.mem_iff.mpr (.tail _ hb)
    · rw [update_of_ne hji] at hb
      exact ⟨hb, fun he => absurd he hji⟩
  obtain ⟨t, htS, hbt, hnot⟩ := ht.obj j hj b hold.1
  refine ⟨t, htS, hbt, ?_⟩
  by_cases hts : t = s
  · subst hts
    rw [update_self]
    intro hm
    rcases mem_cons.mp hm with he | hm
    · exact hold.2 (hone j hj htS) he
    · exact hnot hm
  · rw [update_of_ne hts]
    exact hnot

theorem move {C' : ℕ → List ℕ} (hp : ∀ j, (C' j ++ O' j).Perm (C j ++ O j))
    (hlen : ∀ j < 8, (C' j).length ≤ 16) :
    TokensOk C' O' S F :=
  ⟨fun j hj => (hp j).symm.nodup (ht.nodup j hj),
    fun j hj a ha => ht.obj j hj a ((hp j).mem_iff.mp ha), hlen⟩

theorem addSlab (hnew : ∀ j < 8, s ∉ S j) (i : ℕ) (Fs : List ℕ) :
    TokensOk C O (update S i (s :: S i)) (update F s Fs) := by
  refine ⟨ht.nodup, fun j hj a ha => ?_, ht.len⟩
  obtain ⟨t, htS, hat, hnot⟩ := ht.obj j hj a ha
  have hts : t ≠ s := fun he => hnew j hj (he ▸ htS)
  exact ⟨t, mem_update_cons.mpr (.inr htS), hat, by rw [update_of_ne hts]; exact hnot⟩

theorem removeSlab (hfull : ∀ a, IsObj i s a → a ∈ F s) :
    TokensOk C O (update S i ((S i).erase s)) F := by
  refine ⟨ht.nodup, fun j hj a ha => ?_, ht.len⟩
  obtain ⟨t, htS, hat, hnot⟩ := ht.obj j hj a ha
  refine ⟨t, ?_, hat, hnot⟩
  by_cases hji : j = i
  · subst hji
    rw [update_self]
    refine (mem_erase_of_ne ?_).mpr htS
    rintro rfl
    exact hnot (hfull a hat)
  · rw [update_of_ne hji]
    exact htS

end

end TokensOk

/-! ### The invariant -/

/-- **The invariant of the four layers.** -/
structure KInv (h : Heap) (X P : List HeldBlock) (O : ℕ → List ℕ) (B : FrameBlocks)
    (L S F : ℕ → List ℕ) : Prop where
  frames : FrameInv ⟨h, owners X P S h.pcpuPages⟩ B L
  slabs : SlabsOk h S F
  tokens : TokensOk h.pcpuObjects O S F
  magic : ∀ b ∈ P ++ h.pcpuPages.map pageBlock, b.user = false → h.magic b.addr ≠ slabMagic

namespace KInv

variable {h h' : Heap} {X P : List HeldBlock} {O : ℕ → List ℕ} {B : FrameBlocks}
  {L S F : ℕ → List ℕ} {i s a : ℕ} {b c : HeldBlock}

theorem slab_mem (hi : i < 8) (hs : s ∈ S i) : pageBlock s ∈ owners X P S h.pcpuPages :=
  mem_append_right _ (mem_map.mpr ⟨s, mem_append_left _
    (mem_slabPages.mpr ⟨i, hi, hs⟩), rfl⟩)

theorem caller_mem (hb : b ∈ P ++ h.pcpuPages.map pageBlock) : b ∈ owners X P S h.pcpuPages := by
  unfold owners
  rw [map_append]
  rcases mem_append.mp hb with hb | hb <;> simp [hb]

theorem magic_congr (hm : ∀ x, b.addr ≤ x → x < b.addr + 4096 * 2 ^ b.order → h'.mem x = h.mem x) :
    h'.magic b.addr = h.magic b.addr := by
  have := Nat.two_pow_pos b.order
  exact Mem.load_congr _ _ (fun x h1 h2 => hm x h1 (by omega))

section

variable (hk : KInv h X P O B L S F)

include hk

theorem pages : Pages S := by
  intro i hi s hs
  have hb := hk.frames.bounds (slab_mem hi hs)
  unfold pageBlock heapPhys heapSize at hb
  norm_num at hb ⊢
  omega

theorem slab_ne (hi : i < 8) (hs : s ∈ S i)
    (hb : b ∈ X ++ P ++ h.pcpuPages.map pageBlock) : b ≠ pageBlock s := by
  have hnd := hk.frames.nodup
  have hmem : pageBlock s ∈ (slabPages S).map pageBlock :=
    mem_map.mpr ⟨s, mem_slabPages.mpr ⟨i, hi, hs⟩, rfl⟩
  unfold owners at hnd
  rw [map_append] at hnd
  obtain ⟨_, h2, h3⟩ := nodup_append.mp hnd
  rcases mem_append.mp hb with hb | hb
  · exact h3 b hb _ (mem_append_left _ hmem)
  · exact fun he => (nodup_append.mp h2).2.2 _ hmem b hb he.symm

/-- **Changes inside some blocks** leave the frame level and the blocks `D` alone. -/
theorem elsewhere (h' : Heap) {D : HeldBlock → Prop} (hf : h'.frames = h.frames)
    (ha : h'.freeArea = h.freeArea)
    (hm : ∀ x, h'.mem x ≠ h.mem x → ∃ c ∈ owners X P S h.pcpuPages, ¬ D c ∧ c.addr ≤ x ∧
      x < c.addr + 4096 * 2 ^ c.order) :
    FrameInv ⟨h', owners X P S h.pcpuPages⟩ B L ∧
      ∀ b ∈ owners X P S h.pcpuPages, D b → ∀ x, b.addr ≤ x → x < b.addr + 4096 * 2 ^ b.order →
        h'.mem x = h.mem x := by
  refine ⟨hk.frames.congr hf ha (fun f hfr x hx => ?_), fun b hb hD x h1 h2 => ?_⟩
  · by_contra hne
    obtain ⟨c, hc, _, h1, h2⟩ := hm x hne
    exact hk.frames.not_free hc h1 h2 hfr hx
  · by_contra hne
    obtain ⟨c, hc, hnD, h3, h4⟩ := hm x hne
    have hbc : b ≠ c := fun he => hnD (he ▸ hD)
    rcases hk.frames.disjoint hb hc hbc with hd | hd <;> omega

theorem modifySlab (hi : i < 8) (hs : s ∈ S i) {Fs : List ℕ} {Q : ℕ → Prop} (hm : OnlyMem h h' Q)
    (hQ : ∀ x, Q x → s ≤ x ∧ x < s + 4096 ∧ ¬ (s + 24 ≤ x ∧ x < s + 40)) (hok : SlabOk h' i s Fs)
    (ht : TokensOk h.pcpuObjects O' S (update F s Fs)) :
    KInv h' X P O' B L S (update F s Fs) := by
  obtain ⟨hf, hrest⟩ := hk.elsewhere _ (D := (· ≠ pageBlock s)) hm.frames hm.freeArea (fun x hx => by
    have := hQ x (by_contra fun hq => hx (hm.mem x hq))
    refine ⟨pageBlock s, slab_mem hi hs, by simp, ?_⟩
    show s ≤ x ∧ x < s + 4096 * 2 ^ 0
    omega)
  refine ⟨by rw [hm.caches.2.1]; exact hf, hk.slabs.modify hk.pages hi hs hm hQ hok,
    by rw [hm.caches.2.2]; exact ht, fun b hb hu => ?_⟩
  rw [hm.caches.2.1] at hb
  have hne := hk.slab_ne hi hs (b := b) (by
    rcases mem_append.mp hb with hb | hb <;> simp [hb])
  rw [magic_congr (hrest b (caller_mem hb) hne)]
  exact hk.magic b hb hu

theorem perm {P' : List HeldBlock} (hP : P'.Perm P) (hO : ∀ j, (O' j).Perm (O j)) :
    KInv h X P' O' B L S F :=
  ⟨hk.frames.perm ((hP.append_left X).append_right _), hk.slabs,
    hk.tokens.move (fun j => (hO j).append_left _) hk.tokens.len,
    fun b hb => hk.magic b ((hP.append_right _).mem_iff.mp hb)⟩

theorem permFlying (hX : X'.Perm X) :
    KInv h X' P O B L S F :=
  ⟨hk.frames.perm ((hX.append_right P).append_right _), hk.slabs, hk.tokens, hk.magic⟩

theorem forget (hO : ∀ j, (O' j).Sublist (O j)) :
    KInv h X P O' B L S F :=
  ⟨hk.frames, hk.slabs, ⟨fun j hj => (hk.tokens.nodup j hj).sublist ((hO j).append_left _),
    fun j hj a ha => hk.tokens.obj j hj a (((hO j).append_left _).subset ha), hk.tokens.len⟩,
    hk.magic⟩

end

/-! ### Moves of objects -/

section

variable (hk : KInv h X P O B L S F)

include hk

/-- **An object leaves the free list of a slab.** -/
theorem pop (hi : i < 8) (hs : s ∈ S i) (hfree : h.freelist s ≠ 0) {n : ℕ} (hn : n = h.inUse s + 1)
    :
    ∃ l, IsObj i s (takeFree h s).1 ∧
      KInv ((takeFree h s).2.write32 (s + 4) n) X P
        (update O i ((takeFree h s).1 :: O i)) B L S (update F s l) := by
  have hok := hk.slabs.slab i hi s hs
  obtain ⟨l, hl, _⟩ := hok.free.exists_cons hfree
  have hobj := hok.obj (h.freelist s) (by rw [hl]; simp)
  have hok' := hok
  rw [hl] at hok'
  obtain ⟨he, hafter⟩ := takeFree_ok hi hok' hn
  rw [he]
  refine ⟨l, hobj, hk.modifySlab hi hs (onlyMem_takeFree h s n) (fun x hx => ?_) hafter
    (hk.tokens.pop hk.pages hi hs hl hok.nodup hobj)⟩
  unfold CountByte at hx
  omega

/-- **An object goes back to the free list of its slab.** -/
theorem give (hi : i < 8) {l : List ℕ} (hO : O i = a :: l) :
    ∃ s ∈ S i, pageBase a = s ∧
      KInv (giveBack h a s) X P (update O i l) B L S (update F s (a :: F s)) := by
  obtain ⟨s, hs, hobj, hnot⟩ := hk.tokens.obj i hi a (by rw [hO]; simp)
  have hp := hk.pages i hi s hs
  have hok := hk.slabs.slab i hi s hs
  obtain ⟨hafter, _⟩ := giveBack_ok hi hp.2.1 hp.2.2 hok hobj hnot
  refine ⟨s, hs, hobj.pageBase hi hp.1 hp.2.2, ?_⟩
  refine hk.modifySlab hi hs (onlyMem_giveBack h a s) (fun x hx => ?_) hafter
    (hk.tokens.give hi hO (fun j hj hsj => hk.slabs.eq_of_mem hj hi hsj hs))
  have := hobj.bounds hi
  have := (obj_facts i hi).1
  unfold CountByte at hx
  omega

/-- A token changes hands; `l` is the new per-CPU stack of cache `i`. -/
theorem moveObject {l : List ℕ} {i : ℕ}
    (hp : ∀ j, (update h.pcpuObjects i l j ++ O' j).Perm (h.pcpuObjects j ++ O j))
    (hlen : l.length ≤ 16) : KInv (h.setObjects i l) X P O' B L S F := by
  refine ⟨hk.frames.congr rfl rfl (fun _ _ _ _ => rfl),
    hk.slabs.congr rfl (fun _ _ _ _ _ _ _ => rfl), hk.tokens.move hp (fun j hj => ?_), hk.magic⟩
  by_cases hji : j = i
  · subst hji
    rw [pcpuObjects_setObjects, update_self]
    exact hlen
  · rw [pcpuObjects_setObjects, update_of_ne hji]
    exact hk.tokens.len j hj

/-- **An object goes from a caller to the per-CPU stack.** -/
theorem pushObject {l : List ℕ} (hO : O i = a :: l) (hlen : (h.pcpuObjects i).length < 16) :
    KInv (h.setObjects i (a :: h.pcpuObjects i)) X P (update O i l) B L S F := by
  refine hk.moveObject (fun j => ?_) (by rw [length_cons]; omega)
  by_cases hji : j = i
  · subst hji
    rw [update_self, update_self, hO]
    exact perm_middle.symm
  · rw [update_of_ne hji, update_of_ne hji]

/-- **An object goes from the per-CPU stack to a caller.** -/
theorem popObject (hi : i < 8) {l : List ℕ} (hst : h.pcpuObjects i = a :: l) :
    KInv (h.setObjects i l) X P (update O i (a :: O i)) B L S F := by
  have hlen := hk.tokens.len i hi
  rw [hst, length_cons] at hlen
  refine hk.moveObject (fun j => ?_) (by omega)
  by_cases hji : j = i
  · subst hji
    rw [update_self, update_self, hst]
    exact perm_middle
  · rw [update_of_ne hji, update_of_ne hji]

end

/-! ### Moves of blocks -/

theorem fly (hk : KInv h X (b :: P) O B L S F) : KInv h (b :: X) P O B L S F :=
  ⟨hk.frames.perm (owners_caller X P S _ b).symm, hk.slabs, hk.tokens,
    fun c hc => hk.magic c (.tail _ hc)⟩

theorem land (hk : KInv h (b :: X) P O B L S F)
    (hb : b.user = false → h.magic b.addr ≠ slabMagic) : KInv h X (b :: P) O B L S F := by
  exact ⟨hk.frames.perm (owners_caller X P S _ b), hk.slabs, hk.tokens,
    forall_mem_cons.mpr ⟨hb, hk.magic⟩⟩

theorem toPool (hk : KInv h (pageBlock a :: X) P O B L S F) (ha : h.magic a ≠ slabMagic) :
    KInv (h.setPages (a :: h.pcpuPages)) X P O B L S F := by
  refine ⟨?_, hk.slabs.congr rfl (fun _ _ _ _ _ _ _ => rfl), hk.tokens, fun c hc hu => ?_⟩
  · exact (hk.frames.perm (owners_pool X P S h.pcpuPages a)).congr rfl rfl (fun _ _ _ _ => rfl)
  · have hc' : c ∈ P ++ pageBlock a :: h.pcpuPages.map pageBlock := hc
    rcases mem_cons.mp (perm_middle.mem_iff.mp hc') with rfl | hc
    · exact ha
    · exact hk.magic c hc hu

theorem ofPool (hk : KInv h X P O B L S F) {l : List ℕ} (hl : h.pcpuPages = a :: l) :
    KInv (h.setPages l) (pageBlock a :: X) P O B L S F ∧ h.magic a ≠ slabMagic := by
  have hmem : ∀ c, c ∈ P ++ pageBlock a :: l.map pageBlock → c ∈ P ++ h.pcpuPages.map pageBlock := by
    intro c hc
    rw [hl]
    exact hc
  refine ⟨⟨?_, hk.slabs.congr rfl (fun _ _ _ _ _ _ _ => rfl), hk.tokens, fun c hc hu => ?_⟩, ?_⟩
  · have hf := hk.frames
    rw [hl] at hf
    exact (hf.perm (owners_pool X P S l a).symm).congr rfl rfl (fun _ _ _ _ => rfl)
  · refine hk.magic c (hmem c (perm_middle.mem_iff.mpr (.tail _ ?_))) hu
    exact hc
  · exact hk.magic (pageBlock a) (hmem _ (by simp)) rfl

theorem touched {t : FrameState} (hi : FrameInv t B L) (ht : Touches h h' B.FreeFrame) :
    ∀ b ∈ t.held, ∀ x, b.addr ≤ x → x < b.addr + 4096 * 2 ^ b.order → h'.mem x = h.mem x := by
  intro b hb x h1 h2
  by_contra hne
  obtain ⟨f, hf, hfx⟩ := ht x hne
  exact hi.not_free hb h1 h2 hf hfx

theorem above (hk : KInv h X P O B L S F) {B' : FrameBlocks} {L' : ℕ → List ℕ}
    (hc : SameCaches h h')
    (hm : ∀ b ∈ owners [] P S h.pcpuPages, ∀ x, b.addr ≤ x → x < b.addr + 4096 * 2 ^ b.order →
      h'.mem x = h.mem x)
    (hf : FrameInv ⟨h', owners X' P S h.pcpuPages⟩ B' L') : KInv h' X' P O B' L' S F := by
  refine ⟨by rw [hc.2.1]; exact hf, hk.slabs.congr hc.1 (fun i hi s hs x h1 h2 => ?_),
    by rw [hc.2.2]; exact hk.tokens, fun b hb hu => ?_⟩
  · refine hm (pageBlock s) (slab_mem hi hs) x h1 ?_
    show x < s + 4096 * 2 ^ 0
    omega
  · rw [hc.2.1] at hb
    rw [magic_congr (hm b (caller_mem hb))]
    exact hk.magic b hb hu

theorem owners_nil_mem (hb : b ∈ owners [] P S h.pcpuPages) : b ∈ owners X P S h.pcpuPages := by
  unfold owners at hb ⊢
  rw [append_assoc]
  exact mem_append_right _ hb

/-- **`buddy_alloc`** at this level. -/
theorem alloc (hk : KInv h X P O B L S F) (order : ℤ) (u : Bool) :
    ((buddyAlloc h order u).1 = none ∧ (buddyAlloc h order u).2 = h) ∨
    ∃ p B' L', (buddyAlloc h order u).1 = some p ∧ 0 ≤ order ∧
      (buddyAlloc h order u).2.magic p ≠ slabMagic ∧
      KInv (buddyAlloc h order u).2 (⟨p, order.toNat, u⟩ :: X) P O B' L' S F := by
  rcases hk.frames.inv.buddyAlloc_spec order u with ⟨h1, h2, _⟩ | ⟨k, B', L', h0, h1, hb, ha⟩
  · exact .inl ⟨h1, h2⟩
  refine .inr ⟨_, B', L', h1, h0, ?_, ?_⟩
  · -- the word is the low half of a free-list link, and links are frame aligned
    intro he
    have hmod := ha.next_mod
    unfold Heap.magic at he
    unfold Heap.next at hmod
    simp only [Mem.load] at he hmod
    unfold slabMagic at he
    omega
  · refine hk.above ha.caches (fun b hb => touched hk.frames ha.touches b (owners_nil_mem hb)) ?_
    exact hk.frames.alloc hb ha

/-- **Giving a block in flight back to the frames.**  The blocks of the other owners keep
their bytes. -/
theorem release (hk : KInv h (b :: X) P O B L S F) :
    ∃ B' L', KInv (buddyFree h b.addr b.order) X P O B' L' S F ∧
      SameCaches h (buddyFree h b.addr b.order) ∧
      ∀ c ∈ owners X P S h.pcpuPages, ∀ x, c.addr ≤ x → x < c.addr + 4096 * 2 ^ c.order →
        (buddyFree h b.addr b.order).mem x = h.mem x := by
  have hmem : b ∈ owners (b :: X) P S h.pcpuPages := by simp [owners]
  obtain ⟨k, hk', hc⟩ := (hk.frames.held_iff b).mp hmem
  rw [hk', BuddyInv.buddyFree_block _ (Blocks.le_of_cell hc) (Blocks.head_lt hc)]
  obtain ⟨B', L', hb', hf⟩ := hk.frames.inv.release_spec hc
  have hrel := hk.frames.release hc hb' hf
  have hl : (owners (b :: X) P S h.pcpuPages).filter (·.addr ≠ blkAddr b.order k) =
      owners X P S h.pcpuPages := by
    rw [← hk', ← hk.frames.erase_eq_filter hmem]
    simp [owners]
  rw [hl] at hrel
  have hbytes := touched hrel hf.touches
  exact ⟨B', L', hk.above hf.caches (fun c hc' => hbytes c (owners_nil_mem hc')) hrel, hf.caches,
    hbytes⟩

/-! ### Slabs come and go -/

theorem caller_ne (hk : KInv h X P O B L S F) (hb : b ∈ P ++ h.pcpuPages.map pageBlock)
    (hc : c ∈ X ∨ ∃ i < 8, ∃ s ∈ S i, c = pageBlock s) : b ≠ c := by
  rcases hc with hc | ⟨i, hi, s, hs, rfl⟩
  · have hnd := hk.frames.nodup
    unfold owners at hnd
    rw [append_assoc, map_append] at hnd
    refine fun he => (nodup_append.mp hnd).2.2 c hc b ?_ he.symm
    rcases mem_append.mp hb with hb | hb <;> simp [hb]
  · exact hk.slab_ne hi hs (by rcases mem_append.mp hb with hb | hb <;> simp [hb])

theorem below (hk : KInv h X P O B L S F) (h' : Heap) (hf : h'.frames = h.frames)
    (ha : h'.freeArea = h.freeArea)
    (hm : ∀ x, h'.mem x ≠ h.mem x → ∃ s, (pageBlock s ∈ X ∨ ∃ i < 8, s ∈ S i) ∧ s ≤ x ∧
      x < s + 4096) :
    FrameInv ⟨h', owners X P S h.pcpuPages⟩ B L ∧
      ∀ b ∈ P ++ h.pcpuPages.map pageBlock, h'.magic b.addr = h.magic b.addr := by
  obtain ⟨hfr, hrest⟩ := hk.elsewhere h' (D := (· ∈ P ++ h.pcpuPages.map pageBlock)) hf ha
    (fun x hx => by
      obtain ⟨s, hs, h1, h2⟩ := hm x hx
      refine ⟨pageBlock s, ?_, fun hD => ?_, h1, ?_⟩
      · rcases hs with hs | ⟨i, hi, hs⟩
        · simp [owners, hs]
        · exact slab_mem hi hs
      · refine hk.caller_ne hD ?_ rfl
        rcases hs with hs | ⟨i, hi, hs⟩
        · exact .inl hs
        · exact .inr ⟨i, hi, s, hs, rfl⟩
      · show x < s + 4096 * 2 ^ 0
        omega)
  exact ⟨hfr, fun b hb => magic_congr (hrest b (caller_mem hb) hb)⟩

/-- **A page in flight becomes a slab.** -/
theorem toSlab (hk : KInv h (pageBlock s :: X) P O B L S F) (hi : i < 8) :
    ∃ Fs, KInv (newSlab h i s) X P O B L (update S i (s :: S i)) (update F s Fs) ∧
      SlabOk (newSlab h i s) i s Fs ∧ Fs.length = objCount i := by
  have hmem : pageBlock s ∈ owners (pageBlock s :: X) P S h.pcpuPages := by simp [owners]
  have hb := hk.frames.bounds hmem
  have hps : s % 4096 = 0 ∧ 0 < s ∧ s + 4096 ≤ 2 ^ 32 := by
    unfold pageBlock heapPhys heapSize at hb
    norm_num at hb ⊢
    omega
  have hnew : ∀ j < 8, s ∉ S j := fun j hj hs =>
    hk.slab_ne hj hs (b := pageBlock s) (by simp) rfl
  obtain ⟨Fs, hslabs, hok, hlen, hc⟩ := hk.slabs.add hk.pages hi hps hnew
  obtain ⟨hfr, hmag⟩ := hk.below (newSlab h i s) hc.frames hc.freeArea (fun x hx => by
    obtain ⟨t, ht, h1⟩ := by_contra fun hq => hx (hc.mem x hq)
    refine ⟨t, ?_, h1⟩
    rcases ht with rfl | ht
    · exact .inl (by simp)
    · exact .inr ⟨i, hi, ht⟩)
  have hpool : (newSlab h i s).pcpuPages = h.pcpuPages := hc.caches.2.1
  refine ⟨Fs, ⟨?_, hslabs, ?_, fun b hb hu => ?_⟩, hok, hlen⟩
  · rw [hpool]
    refine hfr.perm (owners_slab hi (fun j hj => update_of_ne hj _ _) ?_)
    rw [update_self]
  · rw [show (newSlab h i s).pcpuObjects = h.pcpuObjects from hc.caches.2.2]
    exact hk.tokens.addSlab hnew i Fs
  · rw [hpool] at hb
    rw [hmag b hb]
    exact hk.magic b hb hu

/-- **An empty slab is unlinked**; its page is in flight. -/
theorem ofSlab (hk : KInv h X P O B L S F) (hi : i < 8) (hs : s ∈ S i)
    (hfull : (F s).length = objCount i) :
    KInv (unlinkSlab h i s) (pageBlock s :: X) P O B L (update S i ((S i).erase s)) F := by
  obtain ⟨hslabs, g, hg, hc⟩ := hk.slabs.unlink hk.pages hi hs
  have hok := hk.slabs.slab i hi s hs
  have hgf : g.frames = h.frames ∧ g.freeArea = h.freeArea ∧ g.mem = h.mem ∧
      g.pcpuPages = h.pcpuPages ∧ g.pcpuObjects = h.pcpuObjects := by
    rcases hg with rfl | ⟨n, rfl⟩ <;> exact ⟨rfl, rfl, rfl, rfl, rfl⟩
  obtain ⟨hfr, hmag⟩ := hk.below (unlinkSlab h i s) (hc.frames.trans hgf.1)
    (hc.freeArea.trans hgf.2.1) (fun x hx => by
      rw [← hgf.2.2.1] at hx
      obtain ⟨t, ht, h1⟩ := by_contra fun hq => hx (hc.mem x hq)
      exact ⟨t, .inr ⟨i, hi, ht⟩, h1⟩)
  have hpool : (unlinkSlab h i s).pcpuPages = h.pcpuPages := hc.caches.2.1.trans hgf.2.2.2.1
  -- all objects are on the free list, so none is a token
  have hall : ∀ a, IsObj i s a → a ∈ F s := by
    intro a ha
    by_contra hnot
    have := length_le_objCount (nodup_cons.mpr ⟨hnot, hok.nodup⟩)
      (forall_mem_cons.mpr ⟨ha, hok.obj⟩)
    rw [length_cons] at this
    omega
  have hperm : (owners X P S h.pcpuPages).Perm (owners (pageBlock s :: X) P
      (update S i ((S i).erase s)) h.pcpuPages) := by
    refine owners_slab hi (fun j hj => (update_of_ne hj _ _).symm) ?_
    rw [update_self]
    exact perm_cons_erase hs
  refine ⟨?_, hslabs, ?_, fun b hb hu => ?_⟩
  · rw [hpool]
    exact hfr.perm hperm.symm
  · rw [show (unlinkSlab h i s).pcpuObjects = h.pcpuObjects from hc.caches.2.2.trans hgf.2.2.2.2]
    exact hk.tokens.removeSlab hall
  · rw [hpool] at hb
    rw [hmag b hb]
    exact hk.magic b hb hu

/-! ### Writes of the callers -/

theorem writeFlying (hk : KInv h (b :: X) P O B L S F)
    (hm : ∀ x, m x ≠ h.mem x → b.addr ≤ x ∧ x < b.addr + 4096 * 2 ^ b.order) :
    KInv { h with mem := m } (b :: X) P O B L S F := by
  have hb : b ∈ owners (b :: X) P S h.pcpuPages := by simp [owners]
  obtain ⟨hf, hrest⟩ := hk.elsewhere { h with mem := m } (D := (· ≠ b)) rfl rfl
    (fun x hx => ⟨b, hb, by simp, hm x hx⟩)
  refine hk.above ⟨rfl, rfl, rfl⟩ (fun c hc => hrest c (owners_nil_mem hc) ?_) hf
  -- the other owners are not `b`: the list has no duplicates
  have hnd := hk.frames.nodup
  rintro rfl
  exact (nodup_cons.mp hnd).1 (owners_nil_mem hc)

theorem writeBlock (hk : KInv h X (b :: P) O B L S F)
    (hm : ∀ x, m x ≠ h.mem x → b.addr ≤ x ∧ x < b.addr + 4096 * 2 ^ b.order)
    (hb : b.user = false → m.load b.addr 4 ≠ slabMagic) :
    KInv { h with mem := m } X (b :: P) O B L S F :=
  (hk.fly.writeFlying hm).land hb

theorem writeObject (hk : KInv h X P O B L S F) (hi : i < 8) (ha : a ∈ O i)
    (hm : ∀ x, m x ≠ h.mem x → a ≤ x ∧ x < a + objSize i) :
    KInv { h with mem := m } X P O B L S F := by
  obtain ⟨s, hs, hobj, hnot⟩ := hk.tokens.obj i hi a (mem_append_right _ ha)
  have hok := hk.slabs.slab i hi s hs
  have hab := hobj.bounds hi
  have hc : OnlyMem h { h with mem := m } (fun x => a ≤ x ∧ x < a + objSize i) :=
    ⟨rfl, rfl, ⟨rfl, rfl, rfl⟩, fun x hx => by_contra fun hne => hx (hm x hne)⟩
  have hok' : SlabOk { h with mem := m } i s (F s) := by
    refine hok.congr (fun x hx => hc.mem x (fun hq => ?_))
    rcases hx with hx | hx | ⟨d, hd, hx⟩
    · omega
    · omega
    · have hne : d ≠ a := fun he => hnot (he ▸ hd)
      have hsz := (obj_facts i hi).1
      rcases (hok.obj d hd).disjoint hobj hne with hdis | hdis <;> omega
  have hres := hk.modifySlab hi hs hc (fun x hx => by omega) hok'
    (by rw [update_eq_self]; exact hk.tokens)
  rwa [update_eq_self] at hres

end KInv

end TipOS.Memory
