import TipOS.Memory.Slab

/-!
# The slabs of the eight caches

`SlabsOk h S F` says that the slabs of cache `i` are `S i`, threaded through the headers in
that order, and that each of them is in order with free objects `F s`.

It only looks at the pages of the slabs, so `SlabsOk.congr` carries it over everything the
frames below and the callers above do.
-/

namespace TipOS.Memory

open Function Lib

structure SlabsOk (h : Heap) (S F : ℕ → List ℕ) : Prop where
  cache : ∀ i < 8, (h.kmallocCaches i).objSize = objSize i ∧ (h.kmallocCaches i).id = i
  chain : ∀ i < 8, Chain h.slabNext h.slabPrev 0 (h.kmallocCaches i).slabs (S i)
  slab : ∀ i < 8, ∀ s ∈ S i, SlabOk h i s (F s)

/-- The slabs are pages of low memory. -/
def Pages (S : ℕ → List ℕ) : Prop :=
  ∀ i < 8, ∀ s ∈ S i, s % 4096 = 0 ∧ 0 < s ∧ s + 4096 ≤ 2 ^ 32

/-! ### Links of slabs -/

section Links

variable {h : Heap} {a b v : ℕ}

theorem slabNext_write64_next (ha : a % 4096 = 0) (hb : b % 4096 = 0) (hv : v < 256 ^ 8) :
    (h.write64 (a + 24) v).slabNext b = if b = a then v else h.slabNext b :=
  load_write64_link ha hb hv

theorem slabNext_write64_prev (ha : a % 4096 = 0) (hb : b % 4096 = 0) :
    (h.write64 (a + 32) v).slabNext b = h.slabNext b :=
  (onlyMem_write64 h (a + 32) v).outside (by omega)

theorem slabPrev_write64_next (ha : a % 4096 = 0) (hb : b % 4096 = 0) :
    (h.write64 (a + 24) v).slabPrev b = h.slabPrev b :=
  (onlyMem_write64 h (a + 24) v).outside (by omega)

theorem slabPrev_write64_prev (ha : a % 4096 = 0) (hb : b % 4096 = 0) (hv : v < 256 ^ 8) :
    (h.write64 (a + 32) v).slabPrev b = if b = a then v else h.slabPrev b :=
  load_write64_link ha hb hv

theorem slabs_setSlabs (h : Heap) (i s j : ℕ) : ((h.setSlabs i s).kmallocCaches j).slabs =
    if j = i then s else (h.kmallocCaches j).slabs := by
  unfold Heap.setSlabs
  dsimp only
  rw [update_apply]
  split <;> rfl

theorem objSize_setSlabs (h : Heap) (i s j : ℕ) : ((h.setSlabs i s).kmallocCaches j).objSize =
    (h.kmallocCaches j).objSize ∧ ((h.setSlabs i s).kmallocCaches j).id = (h.kmallocCaches j).id := by
  unfold Heap.setSlabs
  dsimp only
  rw [update_apply]
  split
  · rename_i he
    rw [he]
    exact ⟨rfl, rfl⟩
  · exact ⟨rfl, rfl⟩

end Links

/-! ### Unlinking -/

/-- A slab of cache `i` with its neighbours linked past it. -/
def unlinkSlab (h : Heap) (i s : ℕ) : Heap := detachForward (detachBackward h s) s (i + 1)

/-- The bytes that unlinking changes. -/
def UnlinkByte (n p x : ℕ) : Prop :=
  (n ≠ 0 ∧ n + 32 ≤ x ∧ x < n + 40) ∨ (p ≠ 0 ∧ p + 24 ≤ x ∧ x < p + 32)

/-- The links and the cache after unlinking a slab between `p` and `n`. -/
theorem unlinkSlab_links {h : Heap} {i s n p : ℕ} (hs : s % 4096 = 0) (hn : h.slabNext s = n)
    (hp : h.slabPrev s = p) (hnm : n % 4096 = 0 ∧ n ≠ s) (hpm : p % 4096 = 0 ∧ p ≠ s) :
    (∀ b, b % 4096 = 0 → (unlinkSlab h i s).slabNext b =
      if p ≠ 0 ∧ b = p then n else h.slabNext b) ∧
    (∀ b, b % 4096 = 0 → (unlinkSlab h i s).slabPrev b =
      if n ≠ 0 ∧ b = n then p else h.slabPrev b) ∧
    OnlyMem (if p = 0 then h.setSlabs i n else h) (unlinkSlab h i s) (UnlinkByte n p) := by
  have hnlt : n < 256 ^ 8 := hn ▸ Mem.load_lt _ _ _
  have hplt : p < 256 ^ 8 := hp ▸ Mem.load_lt _ _ _
  -- after the first half
  obtain ⟨g, hg⟩ : ∃ g, g = detachBackward h s := ⟨_, rfl⟩
  have hgn : ∀ b, b % 4096 = 0 → g.slabNext b = h.slabNext b := by
    intro b hb
    rw [hg, detachBackward, hn]
    split
    · exact slabNext_write64_prev hnm.1 hb
    · rfl
  have hgp : ∀ b, b % 4096 = 0 → g.slabPrev b = if n ≠ 0 ∧ b = n then p else h.slabPrev b := by
    intro b hb
    rw [hg, detachBackward, hn, hp]
    by_cases h0 : n = 0
    · rw [if_neg (not_not.mpr h0), if_neg (fun hh => hh.1 h0)]
    rw [if_pos h0, slabPrev_write64_prev hnm.1 hb hplt]
    by_cases hbn : b = n
    · rw [if_pos hbn, if_pos ⟨h0, hbn⟩]
    · rw [if_neg hbn, if_neg (fun hh => hbn hh.2)]
  have hgc : OnlyMem h g (UnlinkByte n p) := by
    rw [hg, detachBackward, hn]
    split
    · rename_i h0
      exact (onlyMem_write64 _ _ _).mono fun x hx => .inl ⟨h0, by omega, by omega⟩
    · exact OnlyMem.refl _ _
  have hgsn : g.slabNext s = n := (hgn s hs).trans hn
  have hgsp : g.slabPrev s = p := by
    rw [hgp s hs, if_neg (fun hh => hnm.2 hh.2.symm), hp]
  have hdef : unlinkSlab h i s = if p ≠ 0 then g.write64 (p + 24) n else g.setSlabs i n := by
    rw [unlinkSlab, ← hg, detachForward, hgsn, hgsp, if_pos (Nat.succ_ne_zero i),
      Nat.add_sub_cancel]
  rw [hdef]
  by_cases hp0 : p = 0
  · rw [if_neg (not_not.mpr hp0), if_pos hp0]
    refine ⟨fun b hb => ?_, fun b hb => hgp b hb, hgc.setSlabs i n⟩
    rw [if_neg (fun hh => hh.1 hp0)]
    exact hgn b hb
  rw [if_pos hp0, if_neg hp0]
  refine ⟨fun b hb => ?_, fun b hb => ?_,
    hgc.trans ((onlyMem_write64 _ _ _).mono fun x hx => .inr ⟨hp0, by omega, by omega⟩)⟩
  · rw [slabNext_write64_next hpm.1 hb hnlt]
    by_cases hbp : b = p
    · rw [if_pos hbp, if_pos ⟨hp0, hbp⟩]
    · rw [if_neg hbp, if_neg (fun hh => hbp hh.2), hgn b hb]
  · rw [slabPrev_write64_next hpm.1 hb, hgp b hb]

namespace SlabsOk

variable {h h' : Heap} {S F : ℕ → List ℕ} {i s : ℕ}

section

variable (hs : SlabsOk h S F)

include hs

theorem eq_of_mem {j : ℕ} (hi : i < 8) (hj : j < 8) (hsi : s ∈ S i) (hsj : s ∈ S j) : i = j := by
  have h1 := (hs.slab i hi s hsi).cache
  have h2 := (hs.slab j hj s hsj).cache
  omega

/-- **Only the pages of the slabs matter.** -/
theorem congr (hk : h'.kmallocCaches = h.kmallocCaches)
    (hm : ∀ i < 8, ∀ s ∈ S i, ∀ x, s ≤ x → x < s + 4096 → h'.mem x = h.mem x) :
    SlabsOk h' S F := by
  refine ⟨fun i hi => by rw [hk]; exact hs.cache i hi, fun i hi => ?_, fun i hi s hsi => ?_⟩
  · rw [hk]
    refine (hs.chain i hi).congr (fun s hsi => ?_) (fun s hsi => ?_)
    · exact Mem.load_congr _ _ (fun x h1 h2 => hm i hi s hsi x (by omega) (by omega))
    · exact Mem.load_congr _ _ (fun x h1 h2 => hm i hi s hsi x (by omega) (by omega))
  · refine (hs.slab i hi s hsi).congr (fun x hx => ?_)
    have := (hs.slab i hi s hsi).byte_bounds hi hx
    exact hm i hi s hsi x this.1 this.2.1

/-- **A change inside one slab** that leaves its links alone. -/
theorem modify (hp : Pages S) (hi : i < 8) (hsi : s ∈ S i) {Fs : List ℕ} {Q : ℕ → Prop}
    (hc : OnlyMem h h' Q) (hQ : ∀ x, Q x → s ≤ x ∧ x < s + 4096 ∧ ¬ (s + 24 ≤ x ∧ x < s + 40))
    (hok : SlabOk h' i s Fs) : SlabsOk h' S (update F s Fs) := by
  have hcache : h'.kmallocCaches = h.kmallocCaches := hc.caches.1
  have hpi := hp i hi s hsi
  refine ⟨fun j hj => by rw [hcache]; exact hs.cache j hj, fun j hj => ?_, fun j hj t htj => ?_⟩
  · rw [hcache]
    refine (hs.chain j hj).congr (fun t htj => ?_) (fun t htj => ?_)
    · have hpt := hp j hj t htj
      exact hc.load (fun x h1 h2 hx => by have := hQ x hx; omega)
    · have hpt := hp j hj t htj
      exact hc.load (fun x h1 h2 hx => by have := hQ x hx; omega)
  by_cases hts : t = s
  · subst hts
    obtain rfl := hs.eq_of_mem hi hj hsi htj
    rw [update_self]
    exact hok
  rw [update_of_ne hts]
  refine (hs.slab j hj t htj).congr (fun x hx => hc.mem x (fun hq => ?_))
  have hb := (hs.slab j hj t htj).byte_bounds hj hx
  have hpt := hp j hj t htj
  have := hQ x hq
  omega

theorem slabs_cases (hi : i < 8) :
    (h.kmallocCaches i).slabs = 0 ∨ (h.kmallocCaches i).slabs ∈ S i := by
  rw [(hs.chain i hi).head_eq]
  cases S i with
  | nil => exact .inl rfl
  | cons a t => exact .inr (by simp)

/-- **A new slab.** -/
theorem add (hp : Pages S) (hi : i < 8) (hps : s % 4096 = 0 ∧ 0 < s ∧ s + 4096 ≤ 2 ^ 32)
    (hnew : ∀ j < 8, s ∉ S j) :
    ∃ Fs, SlabsOk (newSlab h i s) (update S i (s :: S i)) (update F s Fs) ∧
      SlabOk (newSlab h i s) i s Fs ∧ Fs.length = objCount i ∧
      OnlyMem (h.setSlabs i s) (newSlab h i s) (fun x => ∃ t, (t = s ∨ t ∈ S i) ∧ t ≤ x ∧
        x < t + 4096) := by
  obtain ⟨p, hpe⟩ : ∃ p, (h.kmallocCaches i).slabs = p := ⟨_, rfl⟩
  have hp0 : p = 0 ∨ (p ∈ S i ∧ p % 4096 = 0 ∧ p ≠ s ∧ p < 256 ^ 8) := by
    rcases hs.slabs_cases hi with h0 | hmem
    · exact .inl (hpe.symm.trans h0)
    · rw [hpe] at hmem
      have := hp i hi p hmem
      exact .inr ⟨hmem, this.1, fun he => hnew i hi (he ▸ hmem), by norm_num; omega⟩
  obtain ⟨⟨Fs, hok, hlen⟩, hn, hv, hvp, hc⟩ := newSlab_ok hi hps.2.1 hps.1 hps.2.2
    (hs.cache i hi).1 hpe (hp0.imp id (fun hh => hh.2))
  have hpm : p % 4096 = 0 := by
    rcases hp0 with rfl | hh
    · rfl
    · exact hh.2.1
  refine ⟨Fs, ⟨fun j hj => ?_, fun j hj => ?_, fun j hj t htj => ?_⟩, hok, hlen,
    hc.mono fun x hx => ?_⟩
  · rw [hc.caches.1, (objSize_setSlabs h i s j).1, (objSize_setSlabs h i s j).2]
    exact hs.cache j hj
  · -- other slabs keep their links, up to the back link of the old first one
    have hnx : ∀ t ∈ S j, (newSlab h i s).slabNext t = h.slabNext t := by
      intro t htj
      have hpt := hp j hj t htj
      have hts : t ≠ s := fun he => hnew j hj (he ▸ htj)
      exact hc.load (fun x h1 h2 hx => by omega)
    have hpv : ∀ t ∈ S j, t ≠ p → (newSlab h i s).slabPrev t = h.slabPrev t := by
      intro t htj htp
      have hpt := hp j hj t htj
      have hts : t ≠ s := fun he => hnew j hj (he ▸ htj)
      exact hc.load (fun x h1 h2 hx => by omega)
    rw [hc.caches.1, slabs_setSlabs]
    by_cases hji : j = i
    · subst hji
      rw [if_pos rfl, update_self]
      have hch := hs.chain j hj
      rw [hpe] at hch
      exact hch.push (by omega) hn hv hnx hpv hvp
    rw [if_neg hji, update_of_ne hji]
    refine (hs.chain j hj).congr hnx (fun t htj => hpv t htj ?_)
    rintro rfl
    rcases hp0 with h0 | ⟨hmem, _⟩
    · exact absurd h0 (by have := hp j hj t htj; omega)
    · exact hji (hs.eq_of_mem hj hi htj hmem)
  · have hold : t ∈ S j → SlabOk (newSlab h i s) j t (update F s Fs t) := by
      intro htj
      have hts : t ≠ s := fun he => hnew j hj (he ▸ htj)
      have hpt := hp j hj t htj
      rw [update_of_ne hts]
      refine (hs.slab j hj t htj).congr (fun x hx => hc.mem x (fun hq => ?_))
      have hb := (hs.slab j hj t htj).byte_bounds hj hx
      rcases hq with hq | ⟨_, hq⟩
      · omega
      · rcases Nat.lt_trichotomy t p with hlt | rfl | hlt <;> omega
    rcases mem_update_cons.mp htj with ⟨rfl, rfl⟩ | htj
    · rw [update_self]
      exact hok
    · exact hold htj
  · rcases hx with hx | ⟨h0, hx⟩
    · exact ⟨s, .inl rfl, hx⟩
    · exact ⟨p, .inr (hp0.resolve_left h0).1, by omega, by omega⟩

/-- **Unlinking a slab.** -/
theorem unlink (hp : Pages S) (hi : i < 8) (hsi : s ∈ S i) :
    SlabsOk (unlinkSlab h i s) (update S i ((S i).erase s)) F ∧
      ∃ g, (g = h ∨ ∃ n, g = h.setSlabs i n) ∧
        OnlyMem g (unlinkSlab h i s) (fun x => ∃ t ∈ S i, t ≤ x ∧ x < t + 4096) := by
  have hch := hs.chain i hi
  obtain ⟨n, hn⟩ : ∃ n, h.slabNext s = n := ⟨_, rfl⟩
  obtain ⟨p, hpe⟩ : ∃ p, h.slabPrev s = p := ⟨_, rfl⟩
  have hps := hp i hi s hsi
  have hcase : ∀ q, (q = 0 ∨ (q ∈ S i ∧ q ≠ s)) → (q = 0 ∨ q ∈ S i) ∧ q % 4096 = 0 ∧ q ≠ s := by
    rintro q (rfl | ⟨hm, hne⟩)
    · exact ⟨.inl rfl, rfl, by omega⟩
    · exact ⟨.inr hm, (hp i hi q hm).1, hne⟩
  obtain ⟨hnS, hnf⟩ := hcase n (hn ▸ hch.next_cases hsi)
  obtain ⟨hpS, hpf⟩ := hcase p (hpe ▸ hch.prev_cases hsi)
  obtain ⟨hln, hlp, hc⟩ := unlinkSlab_links (i := i) hps.1 hn hpe hnf hpf
  have hmod : ∀ j < 8, ∀ t ∈ S j, t % 4096 = 0 := fun j hj t ht => (hp j hj t ht).1
  refine ⟨⟨fun j hj => ?_, fun j hj => ?_, fun j hj t htj => ?_⟩, _, ?_, hc.mono fun x hx => ?_⟩
  · rw [hc.caches.1]
    split
    · rw [(objSize_setSlabs h i n j).1, (objSize_setSlabs h i n j).2]
      exact hs.cache j hj
    · exact hs.cache j hj
  · rw [hc.caches.1]
    by_cases hji : j = i
    · subst hji
      rw [update_self]
      have hres : Chain (unlinkSlab h j s).slabNext (unlinkSlab h j s).slabPrev 0 _ _ :=
        hch.unlink hsi (fun t ht => by rw [hln t (hmod j hj t ht), hn, hpe])
          (fun t ht => by rw [hlp t (hmod j hj t ht), hn, hpe])
      rw [hpe, hn] at hres
      by_cases h0 : p = 0
      · rw [if_pos h0, slabs_setSlabs, if_pos rfl]
        rw [if_pos h0] at hres
        exact hres
      · rw [if_neg h0]
        rw [if_neg h0] at hres
        exact hres
    · rw [update_of_ne hji]
      have hslabs : ((if p = 0 then h.setSlabs i n else h).kmallocCaches j).slabs =
          (h.kmallocCaches j).slabs := by
        split
        · rw [slabs_setSlabs, if_neg hji]
        · rfl
      rw [hslabs]
      have hoth : ∀ q, (q = 0 ∨ q ∈ S i) → ∀ t ∈ S j, ¬ (q ≠ 0 ∧ t = q) := by
        rintro q hq t ht ⟨h0, rfl⟩
        exact hji (hs.eq_of_mem hj hi ht (hq.resolve_left h0))
      refine (hs.chain j hj).congr (fun t ht => ?_) (fun t ht => ?_)
      · rw [hln t (hmod j hj t ht), if_neg (hoth p hpS t ht)]
      · rw [hlp t (hmod j hj t ht), if_neg (hoth n hnS t ht)]
  · have htS := ((mem_update_erase hch.nodup).mp htj).1
    have hmem : ∀ x, ¬ UnlinkByte n p x → (unlinkSlab h i s).mem x = h.mem x := by
      intro x hx
      rw [hc.mem x hx]
      split <;> rfl
    refine (hs.slab j hj t htS).congr (fun x hx => hmem x (fun hq => ?_))
    have hb := (hs.slab j hj t htS).byte_bounds hj hx
    have hpt := hp j hj t htS
    unfold UnlinkByte at hq
    omega
  · split
    · exact .inr ⟨n, rfl⟩
    · exact .inl rfl
  · rcases hx with ⟨h0, hx⟩ | ⟨h0, hx⟩
    · exact ⟨n, hnS.resolve_left h0, by omega, by omega⟩
    · exact ⟨p, hpS.resolve_left h0, by omega, by omega⟩

end

end SlabsOk

end TipOS.Memory
