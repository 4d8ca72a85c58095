import TipOS.Loader.Undisturbed
import TipOS.Memory.KmallocRuns

/-!
# The chunk table of the ELF loaders

`elf64_load_into_pml4` and `elf64_load_at` enter their chunks in `mapped[32]` without a test of
`mapped_count`.  An entry is made for a block of 2 MB that `mmap_user` returned.  The loaders give no
block back, and the heap has room for 32 of them (`huge_le`), so there is always a free entry
(`table_in_bounds`).
-/

namespace TipOS.Loader

open Lib List Memory

variable {s : KState} {bs : List ℕ}

/-! ### The blocks of a heap -/

/-- The blocks of 2 MB that `mmap_user` returns from `s` on, one after the other.  Between them
nothing is given back; `map_2mb_ensure` takes pages for its tables. -/
inductive Supply : KState → List ℕ → Prop
  | nil (s : KState) : Supply s []
  | keep {s s' : KState} {bs : List ℕ} : KStep s s' → s.held <+ s'.held → Supply s' bs → Supply s bs
  | block {s : KState} {b : ℕ} {bs : List ℕ} : (mmapUser s.heap 0x200000).1 = some b →
      Supply ⟨(mmapUser s.heap 0x200000).2, ⟨b, 0x200000, true⟩ :: s.held⟩ bs → Supply s (b :: bs)

/-- The blocks of 2 MB that were mapped. -/
def huge (l : List KHeld) : List KHeld := l.filter fun b => b.mapped ∧ b.size = 0x200000

/-- **There are at most 32 of them**: each is one of the 32 blocks of order 9 of the heap. -/
theorem huge_le (h : KGood s) : (huge s.held).length ≤ 32 := by
  obtain ⟨B, L, S, F, hk⟩ := h.ok
  have hsub : (huge s.held).map KHeld.block <+ owners [] (callerBlocks s.held) S s.heap.pcpuPages := by
    refine (Sublist.map _ (monotone_filter_right _ fun b hb => ?_)).trans (sublist_append_left _ _)
    simp_all [KHeld.isPage]
  have hin : (huge s.held).map KHeld.block ⊆ (range 32).map fun k => ⟨blkAddr 9 k, 9, true⟩ := by
    intro b hb
    obtain ⟨k, hk', hc⟩ := (hk.frames.held_iff b).mp (hsub.subset hb)
    obtain ⟨c, hc', rfl⟩ := mem_map.mp hb
    obtain ⟨-, hm, hs⟩ : c ∈ s.held ∧ c.mapped ∧ c.size = 0x200000 := by simpa [huge] using hc'
    have ho : c.order = 9 := by
      rw [KHeld.order, hs]
      decide
    have hend := Blocks.end_le hc
    simp only [KHeld.block, ho] at hend
    exact mem_map.mpr ⟨k, mem_range.mpr (by omega), by simp_all [KHeld.block]⟩
  simpa using ((hsub.nodup hk.frames.nodup).subperm hin).length_le

theorem supply_le (hs : Supply s bs) (h : KGood s) : bs.length + (huge s.held).length ≤ 32 := by
  induction hs with
  | nil s => simpa using huge_le h
  | keep hstep hsub _ ih =>
    have := ih (h.step hstep)
    have := (hsub.filter fun b => b.mapped ∧ b.size = 0x200000).length_le
    unfold huge at *
    omega
  | @block s b bs hb _ ih =>
    have hstep := KStep.mmap s 0x200000 (by decide)
    rw [hb] at hstep
    have := ih (h.step hstep)
    simp only [huge, filter_cons, and_self, decide_true, if_true, length_cons] at this ⊢
    omega

/-! ### The table -/

/-- The entries that there are or can be. -/
def Load.entries (s : Load) : ℕ := s.mapped.length + s.blocks.length

theorem loadChunk_entries (img : Image) (pml4 : ℕ) (g : Segment) (va : ℕ) (t : Load) :
    (loadChunk img pml4 g va t).2.entries ≤ t.entries := by
  have hcopy : ∀ p u, (copyChunk img g va p u).entries = u.entries := fun p u => by
    unfold copyChunk
    split <;> rfl
  have hnew : (newChunk pml4 va t).2.entries ≤ t.entries := by
    unfold newChunk Load.mapBlock Load.takeBlock Load.entries
    cases t.blocks with
    | nil => simp
    | cons b bs =>
      dsimp only
      generalize Paging.map2mbEnsure _ pml4 va b = x
      by_cases hx : x.1 < 0
      · simp [hx, Load.setMem]
      · simp [hx, Load.setMem]
        omega
  unfold loadChunk
  split
  · exact (hcopy _ _).le
  split
  · next h => rwa [h] at hnew
  · next h =>
    rw [h] at hnew
    rwa [hcopy]

theorem loadPhdrs_entries (img : Image) (pml4 base : ℕ) (t : Load) :
    (loadPhdrs img pml4 base t).2.entries ≤ t.blocks.length := by
  refine tryLoop_inv (Load.entries · ≤ t.blocks.length) (by simp [Load.entries]) fun i _ u hu => ?_
  unfold loadPhdr
  dsimp only
  split
  · exact hu
  split
  · exact hu
  · exact tryLoop_inv (Load.entries · ≤ t.blocks.length) hu fun va _ u hu =>
      (loadChunk_entries ..).trans hu

/-- **The table of 32 entries is large enough** for every image and from every state of the heap.
Entries are only added, each at the index that is the length of the table before it. -/
theorem table_in_bounds (img : Image) (t : Load) (pml4 base : ℕ) {h : Heap} (hr : KRun h s)
    (hs : Supply s t.blocks) (ht : t.mapped = []) :
    (elf64LoadIntoPml4 img t pml4).2.mapped.length ≤ 32 ∧
      (elf64LoadAt img t pml4 base).2.mapped.length ≤ 32 := by
  have hle := supply_le hs (kGood_of_run hr)
  have h0 : t.mapped.length ≤ 32 := by simp [ht]
  have hall : ∀ base (u : Load), u.blocks = t.blocks →
      (loadPhdrs img pml4 base u).2.mapped.length ≤ 32 := by
    intro base u hu
    have := loadPhdrs_entries img pml4 base u
    rw [Load.entries, hu] at this
    omega
  rw [elf64LoadAt_eq]
  unfold elf64LoadIntoPml4
  constructor
  · dsimp only
    split_ifs <;> first | exact h0 | exact hall _ _ rfl
  · dsimp only
    split_ifs <;> first | exact h0 | exact hall _ _ rfl

theorem table_in_bounds_smallLoad :
    (elf64LoadIntoPml4 tinyElf smallLoad 0x1000).2.mapped.length ≤ 32 :=
  (table_in_bounds tinyElf _ 0x1000 0 (h := zeroHeap) .refl (.block rfl (.nil _)) rfl).1

end TipOS.Loader
