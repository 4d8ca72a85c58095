import Mathlib.Data.List.Nodup
import TipOS.Loader.Blocks
import TipOS.Loader.Elf

/-!
# What the ELF loader leaves in memory

`Placed` is the invariant of `elf64_load_into_pml4`.  Each entry of `mapped` names a chunk and its
own block, the chunk is mapped to the block, and a byte of the block is a byte of the file that was
copied there, or 0.  Segments that share a chunk find its block in `mapped`, so neither sees a new
block or zeros in place of what the other copied.

When the segments of an image do not overlap, a byte belongs to one of them, and the address
space is what the program headers say (`elf_loaded`).
-/

namespace TipOS.Loader

open Lib Paging List Nat Segment Option

/-- The byte at a virtual address. -/
def readVa (m : Mem) (r va : ℕ) : Option UInt8 := ((translate m r va).map Prod.fst).map m

/-- The byte at an address of a chunk that is mapped to the block `b`. -/
theorem readVa_of_leaf {m : Mem} {r va b : ℕ} (h : leaf m r va = some (1, hugeEntry b))
    (hb : HeapBlock b) : readVa m r va = some (m (b + va % 2 ^ 21)) := by
  rw [readVa, translate_fst_leaf, h, bind_some, leafVal_hugeEntry hb.aligned hb.low,
    map_some]

/-! ### Entries of `mapped` -/

section Mapped

variable {tag raw : ℕ}

theorem mappedEntry_eq (ht : tag < 2 ^ 32) (hr : raw < 2 ^ 32) :
    mappedEntry tag raw = tag * 2 ^ 32 + raw := by
  have h := two_pow_add_eq_or_of_lt hr tag
  rw [mappedEntry, mod_eq_of_lt (by omega), mod_eq_of_lt hr, mul_comm]
  exact h.symm

theorem findMapped_eq {M : List (ℕ × ℕ)} (hM : ∀ x ∈ M, x.1 < 2 ^ 32 ∧ 0 < x.2 ∧ x.2 < 2 ^ 32) :
    (∀ p, (findMapped (M.map fun x => mappedEntry x.1 x.2) tag).filter (· ≠ 0) = some p →
      (tag, p) ∈ M) ∧
    ((findMapped (M.map fun x => mappedEntry x.1 x.2) tag).filter (· ≠ 0) = none →
      ∀ x ∈ M, x.1 ≠ tag) := by
  induction M with
  | nil => exact ⟨fun p hp => absurd hp.symm (some_ne_none p), fun _ x hx => absurd hx not_mem_nil⟩
  | cons x M ih =>
    obtain ⟨⟨ht, h0, hb⟩, hM⟩ := forall_mem_cons.mp hM
    obtain ⟨ih1, ih2⟩ := ih hM
    have he := mappedEntry_eq ht hb
    have hdiv : mappedEntry x.1 x.2 / 2 ^ 32 = x.1 := by rw [he]; omega
    have hmod : mappedEntry x.1 x.2 % 2 ^ 32 = x.2 := by rw [he]; omega
    by_cases hx : x.1 = tag
    · have hfind : (findMapped ((x :: M).map fun x => mappedEntry x.1 x.2) tag).filter (· ≠ 0) =
          some x.2 := by
        rw [findMapped, map_cons, find?_cons_of_pos (by rw [hdiv, hx]; simp),
          map_some, hmod]
        exact filter_some_pos (by simpa using h0.ne')
      rw [hfind]
      refine ⟨fun p hp => ?_, fun hn => absurd hn (some_ne_none x.2)⟩
      cases hp
      rw [← hx]
      exact .head _
    · have hfind : findMapped ((x :: M).map fun x => mappedEntry x.1 x.2) tag =
          findMapped (M.map fun x => mappedEntry x.1 x.2) tag := by
        rw [findMapped, map_cons, find?_cons_of_neg (by rw [hdiv]; simpa using hx)]
        rfl
      rw [hfind]
      exact ⟨fun p hp => mem_cons_of_mem x (ih1 p hp),
        fun hn => forall_mem_cons.mpr ⟨hx, ih2 hn⟩⟩

end Mapped

/-! ### The invariant -/

namespace Segment

/-- The part of the segment that is in the file. -/
def InFile (g : Segment) (x : ℕ) : Prop := g.dst ≤ x ∧ x < g.dst + g.filesz

/-- The byte of the file at an address of the segment. -/
def byteAt (g : Segment) (img : Image) (x : ℕ) : UInt8 := img.byte (g.offset + (x - g.dst))

variable {g : Segment} {va x : ℕ}

theorem inFile_iff (hva : va % 2 ^ 21 = 0) (hx : hugeDown x = va) :
    g.InFile x ↔ g.chunkOff va < g.filesz ∧ g.dstOff va ≤ x % 2 ^ 21 ∧
      x % 2 ^ 21 < g.dstOff va + g.copied va := by
  unfold hugeDown at hx
  unfold InFile copied chunkOff dstOff
  split <;> omega

theorem byteAt_eq (img : Image) (hva : va % 2 ^ 21 = 0) (hx : hugeDown x = va)
    (hf : g.InFile x) : g.byteAt img x =
      img.byte ((g.offset + g.chunkOff va) % 2 ^ 64 + (x % 2 ^ 21 - g.dstOff va)) := by
  obtain ⟨h1, h2⟩ := hf
  have hoff : x - g.dst = g.chunkOff va + (x % 2 ^ 21 - g.dstOff va) := by
    unfold hugeDown at hx
    unfold chunkOff dstOff
    split <;> omega
  rw [byteAt, Image.byte, Image.byte, hoff, mod_add_mod, add_assoc]

theorem dstOff_add_copied_le (hle : hugeDown g.dst ≤ va) : g.dstOff va + g.copied va ≤ 2 ^ 21 := by
  unfold hugeDown at hle
  unfold copied dstOff
  split <;> omega

end Segment

/-- **The invariant of the ELF loader**: `M` are the chunks with their blocks, `C` the chunks that
were gone through, and `R` says which segments have been copied to which addresses. -/
structure Placed (img : Image) (s : Load) (r : ℕ) (M : List (ℕ × ℕ)) (C : ℕ → Prop)
    (R : Segment → ℕ → Prop) : Prop where
  ready : Ready s r
  mapped : s.mapped = M.map fun x => mappedEntry x.1 x.2
  nodup : (M.map Prod.snd).Nodup
  tags : ∀ x ∈ M, ∀ y ∈ M, x.1 = y.1 → x = y
  low : ∀ x ∈ M, x.1 < 2 ^ 26
  owned : ∀ x ∈ M, Owned s r x.2
  leaf : ∀ x ∈ M, ∀ va, va / 2 ^ 21 = x.1 → leaf s.phys.mem r va = some (1, hugeEntry x.2)
  bytes : ∀ x ∈ M, ∀ va, va / 2 ^ 21 = x.1 →
    (∃ g, R g va ∧ s.phys.mem (x.2 + va % 2 ^ 21) = g.byteAt img va) ∨
    (∀ g, ¬ R g va) ∧ s.phys.mem (x.2 + va % 2 ^ 21) = 0
  chunk : ∀ c, C c → ∃ x ∈ M, x.1 = c / 2 ^ 21
  copied : ∀ g va, R g va → ∃ x ∈ M, x.1 = va / 2 ^ 21

namespace Placed

variable {img : Image} {s s' : Load} {r va p : ℕ} {M : List (ℕ × ℕ)} {C : ℕ → Prop}
  {R : Segment → ℕ → Prop}

theorem init (h : Ready s r) (hm : s.mapped = []) :
    Placed img s r [] (fun _ => False) fun _ _ => False where
  ready := h
  mapped := hm
  nodup := nodup_nil
  tags := nofun
  low := nofun
  owned := nofun
  leaf := nofun
  bytes := nofun
  chunk := nofun
  copied := nofun

section

variable (h : Placed img s r M C R)

include h

theorem length_le : s.mapped.length ≤ 32 := by
  have hle := HeapBlock.length_le h.nodup fun b hb => by
    obtain ⟨x, hx, rfl⟩ := mem_map.mp hb
    exact (h.owned x hx).heap
  rw [h.mapped, length_map]
  rwa [length_map] at hle

theorem findMapped (tag : ℕ) :
    (∀ p, (findMapped s.mapped tag).filter (· ≠ 0) = some p → (tag, p) ∈ M) ∧
    ((Loader.findMapped s.mapped tag).filter (· ≠ 0) = none → ∀ x ∈ M, x.1 ≠ tag) := by
  rw [h.mapped]
  refine findMapped_eq fun x hx => ?_
  have hb := (h.owned x hx).heap
  have hl := h.low x hx
  exact ⟨by omega, by have := hb.lower; omega, by have := hb.upper; omega⟩

theorem newChunk (hva : va < 2 ^ 47) (hnone : ∀ x ∈ M, x.1 ≠ va / 2 ^ 21)
    (hok : newChunk r va s = (some p, s')) :
    Placed img s' r (M ++ [(va / 2 ^ 21, p)]) C R := by
  unfold Loader.newChunk at hok
  generalize hb : s.mapBlock map2mbEnsure r va = y at hok
  obtain ⟨_ | b, s1⟩ := y
  · cases hok
  obtain ⟨hp, rfl⟩ := Prod.mk.inj hok
  obtain rfl := Option.some.inj hp
  have hg := mapBlock_spec maps_ensure h.ready hb
  have hmem : b ∈ s.blocks := by rw [hg.blocks]; exact .head _
  have hnew : ∀ {P : ℕ × ℕ → Prop}, (∀ x ∈ M, P x) → P (va / 2 ^ 21, b) →
      ∀ x ∈ M ++ [(va / 2 ^ 21, b)], P x := fun h1 h2 =>
    forall_mem_append.mpr ⟨h1, forall_mem_singleton.mpr h2⟩
  have hchunk : ∀ va', va' / 2 ^ 21 = va / 2 ^ 21 → chunkNo va' = chunkNo va := fun va' he => by
    rw [chunkNo, chunkNo, he]
  refine ⟨⟨hg.ready.space, hg.ready.nodup, hg.ready.heap, hg.ready.apart⟩, ?_, ?_, ?_, ?_, ?_, ?_, ?_,
    fun c hc => ?_, fun g x hx => ?_⟩
  · rw [hg.mapped, h.mapped, map_append]
    rfl
  · rw [map_append]
    refine nodup_append.mpr ⟨h.nodup, pairwise_singleton _ b, fun x hx y hy => ?_⟩
    obtain ⟨z, hz, rfl⟩ := mem_map.mp hx
    obtain rfl : y = b := mem_singleton.mp hy
    rintro rfl
    exact (h.owned z hz).fresh hmem
  · refine hnew (fun x hx => hnew (fun y hy => h.tags x hx y hy) fun he => absurd he (hnone x hx))
      (hnew (fun y hy he => absurd he.symm (hnone y hy)) fun _ => rfl)
  · exact hnew h.low (by dsimp only; omega)
  · refine hnew (fun x hx => ?_) ⟨hg.owned.heap, hg.owned.apart, hg.owned.fresh⟩
    have ho := (hg.keep _ (h.owned x hx)).1
    exact ⟨ho.heap, ho.apart, ho.fresh⟩
  · refine hnew (fun x hx va' he => ?_) fun va' he => hg.leaf_self va' (hchunk va' he)
    have hl := h.low x hx
    have hne := hnone x hx
    refine (hg.leaf_of_ne va' ?_).trans (h.leaf x hx va' he)
    rw [chunkNo, chunkNo, he]
    omega
  · refine hnew (fun x hx va' he => ?_) fun va' he => .inr ⟨fun g hR => ?_, ?_⟩
    · have ho := h.owned x hx
      rw [(hg.keep _ ho).2 _ (ho.heap.hugeDown_add va')]
      exact h.bytes x hx va' he
    · obtain ⟨x, hx, he'⟩ := h.copied g va' hR
      exact hnone x hx (he'.trans he)
    · exact hg.zero _ (hg.owned.heap.hugeDown_add va')
  · obtain ⟨x, hx, he⟩ := h.chunk c hc
    exact ⟨x, mem_append_left _ hx, he⟩
  · obtain ⟨y, hy, he⟩ := h.copied g x hx
    exact ⟨y, mem_append_left _ hy, he⟩

theorem copyChunk {g : Segment} (hva : va % 2 ^ 21 = 0) (hle : hugeDown g.dst ≤ va)
    (hp : (va / 2 ^ 21, p) ∈ M) :
    Placed img (copyChunk img g va p s) r M (fun c => C c ∨ c = va)
      fun g' x => R g' x ∨ g' = g ∧ hugeDown x = va ∧ g.InFile x := by
  have hal := (h.owned _ hp).heap.aligned
  -- memory changes in the block of the chunk only, to the bytes of the file
  obtain ⟨m', hs, hm, hnew, hold⟩ : ∃ m', (∃ rd, Loader.copyChunk img g va p s =
      { s.setMem m' with reads := rd }) ∧ (∀ x, hugeDown x ≠ p → m' x = s.phys.mem x) ∧
      (∀ x, hugeDown x = va → g.InFile x → m' (p + x % 2 ^ 21) = g.byteAt img x) ∧
      ∀ x, hugeDown x = va → ¬ g.InFile x → m' (p + x % 2 ^ 21) = s.phys.mem (p + x % 2 ^ 21) := by
    unfold Loader.copyChunk
    split
    · next hlt =>
      refine ⟨_, ⟨_, rfl⟩, fun x hx => ?_, fun x hx hf => ?_, fun x hx hf => ?_⟩
      · refine Mem.blit_apply_of_not_mem ?_
        by_contra hn
        refine hx ?_
        have hb := g.dstOff_add_copied_le hle
        unfold hugeDown
        omega
      · obtain ⟨-, h1, h2⟩ := (inFile_iff hva hx).mp hf
        rw [byteAt_eq img hva hx hf]
        have hx' : p + x % 2 ^ 21 = p + g.dstOff va + (x % 2 ^ 21 - g.dstOff va) := by omega
        rw [hx']
        exact Mem.blit_apply_of_mem (by omega)
      · refine Mem.blit_apply_of_not_mem ?_
        by_contra hn
        exact hf ((inFile_iff hva hx).mpr ⟨hlt, by omega, by omega⟩)
    · next hlt =>
      refine ⟨s.phys.mem, ⟨s.reads, rfl⟩, fun _ _ => rfl, fun x hx hf => ?_, fun _ _ _ => rfl⟩
      exact absurd ((inFile_iff hva hx).mp hf).1 hlt
  obtain ⟨rd, hs⟩ := hs
  obtain ⟨hready, hsame⟩ := h.ready.setMem (h.owned _ hp) hm
  rw [hs]
  have hother : ∀ y ∈ M, y.1 ≠ va / 2 ^ 21 → y.2 ≠ p := by
    intro y hy hne he
    have := inj_on_of_nodup_map h.nodup hy hp he
    exact hne (congrArg Prod.fst this)
  refine ⟨⟨hready.space, hready.nodup, hready.heap, hready.apart⟩, h.mapped, h.nodup, h.tags, h.low,
    fun y hy => ?_, fun y hy va' he => ?_, fun y hy va' he => ?_, fun c hc => ?_, fun g' x hx => ?_⟩
  · have ho := (h.owned y hy).setMem h.ready (h.owned _ hp) hm
    exact ⟨ho.heap, ho.apart, ho.fresh⟩
  · exact (hsame.leaf h.ready.space.root va').trans (h.leaf y hy va' he)
  · change (∃ g', _ ∧ m' _ = _) ∨ _ ∧ m' _ = 0
    by_cases hy1 : y.1 = va / 2 ^ 21
    · obtain rfl : y = (va / 2 ^ 21, p) := h.tags y hy _ hp hy1
      have hx : hugeDown va' = va := by
        unfold hugeDown
        omega
      by_cases hf : g.InFile va'
      · exact .inl ⟨g, .inr ⟨rfl, hx, hf⟩, hnew va' hx hf⟩
      rw [hold va' hx hf]
      rcases h.bytes _ hy va' he with ⟨g', hR, hb⟩ | ⟨hR, hb⟩
      · exact .inl ⟨g', .inl hR, hb⟩
      · exact .inr ⟨fun g' hg' => hg'.elim (hR g') fun hg'' => hf hg''.2.2, hb⟩
    have hne : ∀ g', ¬ (g' = g ∧ hugeDown va' = va ∧ g.InFile va') := by
      rintro g' ⟨-, hx, -⟩
      refine hy1 (he.symm.trans ?_)
      unfold hugeDown at hx
      omega
    rw [hm _ (by rw [(h.owned y hy).heap.hugeDown_add]; exact hother y hy hy1)]
    rcases h.bytes y hy va' he with ⟨g', hR, hb⟩ | ⟨hR, hb⟩
    · exact .inl ⟨g', .inl hR, hb⟩
    · exact .inr ⟨fun g' hg' => hg'.elim (hR g') (hne g'), hb⟩
  · rcases hc with hc | rfl
    · exact h.chunk c hc
    · exact ⟨_, hp, rfl⟩
  · rcases hx with hR | ⟨-, hx, -⟩
    · exact h.copied g' x hR
    refine ⟨_, hp, ?_⟩
    unfold hugeDown at hx
    omega

/-- **One chunk of a segment.** -/
theorem loadChunk {g : Segment} (hva : va % 2 ^ 21 = 0) (hlt : va < 2 ^ 47)
    (hle : hugeDown g.dst ≤ va) (hok : (loadChunk img r g va s).1) :
    ∃ M', Placed img (Loader.loadChunk img r g va s).2 r M' (fun c => C c ∨ c = va)
      fun g' x => R g' x ∨ g' = g ∧ hugeDown x = va ∧ g.InFile x := by
  obtain ⟨hfound, hnone⟩ := h.findMapped (va / 2 ^ 21)
  unfold Loader.loadChunk at hok ⊢
  split at hok
  · next p hp => exact ⟨M, h.copyChunk hva hle (hfound p hp)⟩
  next hp =>
  split at hok
  · cases hok
  · next p s' hn =>
    exact ⟨_, (h.newChunk hlt (hnone hp) hn).copyChunk hva hle
      (mem_append_right _ (mem_singleton_self _))⟩

theorem note (off n : ℕ) : Placed img (s.note off n) r M C R where
  ready := ⟨h.ready.space, h.ready.nodup, h.ready.heap, h.ready.apart⟩
  mapped := h.mapped
  nodup := h.nodup
  tags := h.tags
  low := h.low
  owned x hx := ⟨(h.owned x hx).heap, (h.owned x hx).apart, (h.owned x hx).fresh⟩
  leaf := h.leaf
  bytes := h.bytes
  chunk := h.chunk
  copied := h.copied

theorem congr {C' : ℕ → Prop} {R' : Segment → ℕ → Prop} (hC : ∀ c, C' c → C c)
    (hR : ∀ g x, R g x ↔ R' g x) : Placed img s r M C' R' where
  ready := h.ready
  mapped := h.mapped
  nodup := h.nodup
  tags := h.tags
  low := h.low
  owned := h.owned
  leaf := h.leaf
  bytes x hx va he := by
    rcases h.bytes x hx va he with ⟨g, hg, hb⟩ | ⟨hn, hb⟩
    · exact .inl ⟨g, (hR g va).mp hg, hb⟩
    · exact .inr ⟨fun g hg => hn g ((hR g va).mpr hg), hb⟩
  chunk c hc := h.chunk c (hC c hc)
  copied g va hg := h.copied g va ((hR g va).mpr hg)

/-- **One segment**, in all its chunks. -/
theorem segment {g : Segment} (hlt : g.dst + g.memsz ≤ 2 ^ 47)
    (hok : (tryLoop (Loader.loadChunk img r g) g.chunks s).1) :
    ∃ M', Placed img (tryLoop (Loader.loadChunk img r g) g.chunks s).2 r M'
      (fun c => C c ∨ c ∈ g.chunks)
      fun g' x => R g' x ∨ g' = g ∧ hugeDown x ∈ g.chunks ∧ g.InFile x := by
  refine tryLoop_induct (fun l1 t => ∃ M', Placed img t r M' (fun c => C c ∨ c ∈ l1)
    fun g' x => R g' x ∨ g' = g ∧ hugeDown x ∈ l1 ∧ g.InFile x) ⟨M, ?_⟩ ?_ hok
  · exact h.congr (fun c hc => hc.resolve_right not_mem_nil) fun g' x =>
      ⟨.inl, fun hx => hx.resolve_right fun h' => not_mem_nil h'.2.1⟩
  rintro l1 va l2 t hl ⟨M', h'⟩ hokc
  have hva : va ∈ g.chunks := by rw [hl]; exact mem_append_right _ mem_cons_self
  obtain ⟨hal, hle, hlast⟩ := mem_chunks.mp hva
  have hend : va < 2 ^ 47 := by
    unfold alignedEnd hugeDown at hlast
    omega
  obtain ⟨M'', h''⟩ := h'.loadChunk hal hend hle hokc
  refine ⟨M'', h''.congr (fun c hc => ?_) fun g' x => ?_⟩
  · rw [mem_append, mem_singleton] at hc
    tauto
  · rw [mem_append, mem_singleton]
    tauto

end

end Placed

/-! ### Program headers -/

namespace Image

variable (img : Image)

/-- Where the program header `i` stands in the file. -/
def header (i : ℕ) : ℕ := img.ePhoff + i * phdrSize

/-- Where the addresses of the file are put. -/
def base : ℕ := if img.eType = etDyn then pieBase else 0

/-- A program header of the table that is to be loaded. -/
def IsLoad (i : ℕ) : Prop := i < img.ePhnum ∧ img.pType (img.header i) = ptLoad

/-- An address in memory is in the segment of the header `i`. -/
def InSegment (i x : ℕ) : Prop :=
  img.pVaddr (img.header i) ≤ x ∧ x < img.pVaddr (img.header i) + img.pMemsz (img.header i)

/-- **A well-formed ELF image.** -/
structure WellFormed : Prop where
  len : img.len < 2 ^ 32
  table : img.ePhoff + img.ePhnum * phdrSize ≤ img.len
  small : img.ePhnum * phdrSize < 2 ^ 16
  inFile : ∀ i, img.IsLoad i → img.pOffset (img.header i) + img.pFilesz (img.header i) ≤ img.len
  filesz : ∀ i, img.IsLoad i → img.pFilesz (img.header i) ≤ img.pMemsz (img.header i)
  low : ∀ i, img.IsLoad i →
    img.base + img.pVaddr (img.header i) + img.pMemsz (img.header i) ≤ 2 ^ 47
  disjoint : ∀ i j x, img.IsLoad i → img.IsLoad j → img.InSegment i x → img.InSegment j x → i = j

end Image

section Load

variable {img : Image} {s : Load} {pml4 : ℕ}

theorem phdrOff_eq (hw : img.WellFormed) (h56 : img.ePhentsize = phdrSize) {i : ℕ}
    (hi : i < img.ePhnum) : img.phdrOff i = img.header i := by
  have h1 := hw.len
  have h2 := hw.table
  have h3 := hw.small
  have hlt : i * phdrSize < 2 ^ 16 :=
    lt_of_le_of_lt (mul_le_mul_right phdrSize (le_of_lt hi)) h3
  rw [Image.phdrOff, Image.header, h56, mod_eq_of_lt hlt]
  exact mod_eq_of_lt (by omega)

theorem segment_dst (hw : img.WellFormed) {i : ℕ} (hi : img.IsLoad i) :
    (img.segment img.base (img.header i)).dst = img.base + img.pVaddr (img.header i) := by
  have h := hw.low i hi
  exact mod_eq_of_lt (by omega)

theorem elf64LoadIntoPml4_ok (hok : (elf64LoadIntoPml4 img s pml4).1 ≠ 0) :
    img.ePhentsize = phdrSize ∧ (loadPhdrs img pml4 img.base (s.note 0 ehdrSize)).1 ∧
      (elf64LoadIntoPml4 img s pml4).2 = (loadPhdrs img pml4 img.base (s.note 0 ehdrSize)).2 := by
  unfold elf64LoadIntoPml4 at hok ⊢
  dsimp only at hok ⊢
  split at hok
  · omega
  next h1 =>
  split at hok
  · omega
  next h2 =>
  split at hok
  · omega
  next h3 =>
  split at hok
  · omega
  next h4 =>
  split at hok
  · omega
  next h5 =>
  split at hok
  · omega
  next h6 =>
  by_cases h7 : (loadPhdrs img pml4 img.base (s.note 0 ehdrSize)).1 = false
  · exact absurd (if_pos h7 ▸ rfl) hok
  · rw [if_neg h1, if_neg h2, if_neg h3, if_neg h4, if_neg h5, if_neg h6]
    exact ⟨not_not.mp h5, eq_true_of_ne_false h7, congrArg Prod.snd (if_neg h7)⟩

/-- **All program headers**: the chunks of all segments are mapped, and their parts of the file are
copied. -/
theorem placed_loadPhdrs (hw : img.WellFormed) (h56 : img.ePhentsize = phdrSize)
    (hs : Ready s pml4) (hok : (loadPhdrs img pml4 img.base s).1) :
    ∃ M, Placed img (loadPhdrs img pml4 img.base s).2 pml4 M
      (fun c => ∃ i, img.IsLoad i ∧ c ∈ (img.segment img.base (img.header i)).chunks)
      fun g x => ∃ i, img.IsLoad i ∧ g = img.segment img.base (img.header i) ∧ g.InFile x := by
  have h := tryLoop_induct (fun l1 t => ∃ M, Placed img t pml4 M
    (fun c => ∃ i ∈ l1, img.IsLoad i ∧ c ∈ (img.segment img.base (img.header i)).chunks)
    fun g x => ∃ i ∈ l1, img.IsLoad i ∧ g = img.segment img.base (img.header i) ∧ g.InFile x)
    ⟨[], ?_⟩ ?_ hok
  · obtain ⟨M, h⟩ := h
    refine ⟨M, h.congr (fun c hc => ?_) fun g x => ?_⟩
    · obtain ⟨i, hi, hc⟩ := hc
      exact ⟨i, mem_range.mpr hi.1, hi, hc⟩
    · exact ⟨fun ⟨i, _, hi⟩ => ⟨i, hi⟩, fun ⟨i, hi⟩ => ⟨i, mem_range.mpr hi.1.1, hi⟩⟩
  · have hinit : Placed img { s with mapped := [] } pml4 [] (fun _ => False) fun _ _ => False :=
      .init ⟨hs.space, hs.nodup, hs.heap, hs.apart⟩ rfl
    refine hinit.congr (fun c hc => ?_) fun g x => ?_
    · obtain ⟨i, hi, -⟩ := hc
      exact not_mem_nil hi
    · exact ⟨False.elim, fun ⟨i, hi, _⟩ => absurd hi not_mem_nil⟩
  rintro l1 i l2 t hl ⟨M, h⟩ hoki
  have hi : i < img.ePhnum := by
    rw [← mem_range, hl]
    exact mem_append_right _ (.head _)
  unfold loadPhdr at hoki ⊢
  rw [phdrOff_eq hw h56 hi] at hoki ⊢
  dsimp only at hoki ⊢
  split at hoki
  · cases hoki
  next hfit =>
  rw [if_neg hfit]
  have hsnoc : ∀ P : ℕ → Prop, (∃ j ∈ l1 ++ [i], P j) ↔ (∃ j ∈ l1, P j) ∨ P i := fun P => by
    simp only [mem_append, mem_singleton, or_and_right, exists_or, exists_eq_left]
  split at hoki
  · next htype =>
    rw [if_pos htype]
    have hnot : ¬ img.IsLoad i := fun hload => htype hload.2
    refine ⟨M, (h.note _ _).congr (fun c hc => ?_) fun g x => ?_⟩
    · rw [hsnoc] at hc
      exact hc.resolve_right fun h' => hnot h'.1
    · rw [hsnoc]
      exact (or_iff_left fun h' => hnot h'.1).symm
  next htype =>
  rw [if_neg htype]
  have hload : img.IsLoad i := ⟨hi, not_not.mp htype⟩
  have hlow := hw.low i hload
  have hdst := segment_dst hw hload
  have hsz := hw.filesz i hload
  obtain ⟨M', h'⟩ := (h.note _ _).segment (by
    rw [hdst]
    exact hlow) hoki
  refine ⟨M', h'.congr (fun c hc => ?_) fun g x => ?_⟩
  · rw [hsnoc] at hc
    exact hc.imp_right And.right
  rw [hsnoc, and_iff_right hload]
  refine or_congr_right (and_congr_right fun hg => ?_)
  subst hg
  refine and_iff_right_of_imp fun hf => ?_
  refine hugeDown_mem_chunks ?_ hf.1 (lt_of_lt_of_le hf.2 (Nat.add_le_add_left hsz _))
  rw [hdst]
  exact le_trans (Nat.add_le_add_right hlow _) (by simp)

/-- **The address space is what the image says**: when `elf64_load_into_pml4` returns an address,
the segments of a well-formed image are in the address space, with zeros after their parts of the
file, and `mapped` was not overrun. -/
theorem elf_loaded (hw : img.WellFormed) (hs : Ready s pml4)
    (hok : (elf64LoadIntoPml4 img s pml4).1 ≠ 0) :
    (elf64LoadIntoPml4 img s pml4).2.mapped.length ≤ 32 ∧
    ∀ i, img.IsLoad i → ∀ k < img.pMemsz (img.header i),
      readVa (elf64LoadIntoPml4 img s pml4).2.phys.mem pml4
        (img.base + img.pVaddr (img.header i) + k) =
      some (if k < img.pFilesz (img.header i) then img.byte (img.pOffset (img.header i) + k)
        else 0) := by
  obtain ⟨h56, hload, hres⟩ := elf64LoadIntoPml4_ok hok
  rw [hres]
  obtain ⟨M, h⟩ := placed_loadPhdrs hw h56 (s := s.note 0 ehdrSize)
    ⟨hs.space, hs.nodup, hs.heap, hs.apart⟩ hload
  generalize (loadPhdrs img pml4 img.base (s.note 0 ehdrSize)).2 = t at h
  refine ⟨h.length_le, fun i hi k hk => ?_⟩
  have hdst := segment_dst hw hi
  have hlow := hw.low i hi
  set x := img.base + img.pVaddr (img.header i) + k with hx
  -- the chunk of the address is mapped
  obtain ⟨y, hy, htag⟩ := h.chunk (hugeDown x) ⟨i, hi, hugeDown_mem_chunks (by
    rw [hdst]
    exact le_trans (Nat.add_le_add_right hlow _) (by simp)) (by rw [hdst]; omega) (by
    rw [hdst]
    exact Nat.add_lt_add_left hk _)⟩
  have htag : x / 2 ^ 21 = y.1 := by
    rw [htag]
    unfold hugeDown
    omega
  rw [readVa_of_leaf (h.leaf y hy x htag) (h.owned y hy).heap]
  refine congrArg some ?_
  -- segments that hold the address are the segment of the header
  have huniq : ∀ j, img.IsLoad j → (img.segment img.base (img.header j)).InFile x → j = i := by
    intro j hj hf
    have hsz := hw.filesz j hj
    obtain ⟨h1, h2⟩ := hf
    rw [segment_dst hw hj] at h1 h2
    change _ < _ + _ + img.pFilesz (img.header j) at h2
    exact hw.disjoint j i (img.pVaddr (img.header i) + k) hj hi ⟨by omega, by omega⟩
      ⟨by omega, by omega⟩
  rcases h.bytes y hy x htag with ⟨g, ⟨j, hj, rfl, hf⟩, hbyte⟩ | ⟨hn, hbyte⟩
  · obtain rfl := huniq j hj hf
    obtain ⟨h1, h2⟩ := hf
    rw [hdst] at h1 h2
    change _ < _ + _ + img.pFilesz (img.header j) at h2
    rw [hbyte, if_pos (by omega), Segment.byteAt, hdst, hx, Nat.add_sub_cancel_left]
    rfl
  rw [hbyte, if_neg]
  intro hlt
  refine hn _ ⟨i, hi, rfl, ?_, ?_⟩
  · rw [hdst]
    omega
  · rw [hdst]
    exact Nat.add_lt_add_left hlt _

end Load

/-! ### A small image -/

/-- An image with one segment: 8 bytes of the file and 8 zeros at `0x400000`. -/
def tinyElf : Image where
  len := 128
  bytes :=
    let m : Mem := fun _ => 0
    let m := (m.store 0 4 0x464C457F).store 16 2 etExec
    let m := (m.store 18 2 emX8664).store 24 8 0x400000
    let m := (m.store 32 8 64).store 54 2 phdrSize
    let m := (m.store 56 2 1).store 64 4 ptLoad
    let m := (m.store 72 8 120).store 80 8 0x400000
    let m := (m.store 96 8 8).store 104 8 16
    m.store 120 8 0x1122334455667788

theorem tinyElf_load {i : ℕ} (h : tinyElf.IsLoad i) : i = 0 := by
  have hn : tinyElf.ePhnum = 1 := by decide +kernel
  have hi := h.1
  omega

theorem tinyElf_wellFormed : tinyElf.WellFormed where
  len := by decide
  table := by decide +kernel
  small := by decide +kernel
  inFile i hi := by
    rw [tinyElf_load hi]
    decide +kernel
  filesz i hi := by
    rw [tinyElf_load hi]
    decide +kernel
  low i hi := by
    rw [tinyElf_load hi]
    decide +kernel
  disjoint i j x hi hj _ _ := by rw [tinyElf_load hi, tinyElf_load hj]

/-- The small tree with a free block. -/
def smallLoad : Load := ⟨⟨smallTree, [0x6000, 0x7000], false⟩, [0xA00000], [], []⟩

theorem smallLoad_ready : Ready smallLoad 0x1000 where
  space := smallTree_space (by decide) (by decide)
  nodup := pairwise_singleton _ _
  heap b hb := by
    obtain rfl := mem_singleton.mp hb
    exact ⟨by simp, by simp, by norm_num⟩
  apart b hb := by
    obtain rfl := mem_singleton.mp hb
    refine ⟨fun l t ht => ?_, by decide⟩
    have hl := ht.le
    rw [smallTree_table ht]
    interval_cases l <;> decide

theorem elf_loaded_tinyElf :
    readVa (elf64LoadIntoPml4 tinyElf smallLoad 0x1000).2.phys.mem 0x1000 0x400002 = some 0x66 := by
  have h := (elf_loaded tinyElf_wellFormed smallLoad_ready (by decide +kernel)).2 0
    ⟨by decide +kernel, by decide +kernel⟩ 2 (by decide +kernel)
  have hva : tinyElf.base + tinyElf.pVaddr (tinyElf.header 0) + 2 = 0x400002 := by decide +kernel
  have hbyte : (if 2 < tinyElf.pFilesz (tinyElf.header 0) then
      tinyElf.byte (tinyElf.pOffset (tinyElf.header 0) + 2) else 0) = 0x66 := by decide +kernel
  rw [hva, hbyte] at h
  exact h

end TipOS.Loader
