import Mathlib.Order.Interval.Finset.Nat
import TipOS.Paging.Leaf
import TipOS.Paging.WalkPtes

/-!
# The program break

`SYS_brk` rounds the old and the new break up to a page, calls `map_user_4kb` for the pages
between them and moves the break only when all of them are mapped.  Two arguments are not
provided for.  The rounded sum of one in the last page of the address space is 0, so the loop is
empty and the break moves over pages that nobody mapped; and a smaller break is taken as it is,
also below `heap_start`.
-/

namespace TipOS.Vm

open Lib Paging Finset List

/-- What `SYS_brk` reads and writes of a process. -/
structure Heap where
  phys : Phys
  pml4 : ℕ
  heapStart : ℕ
  programBreak : ℕ

/-- The body of the loop. -/
def growPage (pml4 va : ℕ) (s : Phys) : Bool × Phys :=
  (decide (¬ (mapUser4kb s pml4 va).1 < 0), (mapUser4kb s pml4 va).2)

/-- The values of `va` in the loop; both ends are multiples of 4 KB below 2⁶⁴, so it does not
wrap. -/
def pagesFrom (start stop : ℕ) : List ℕ :=
  (List.range ((stop - start) / 0x1000)).map fun i => start + 0x1000 * i

/-- The loop that maps the new pages. -/
def growHeap (x : Heap) (a : ℕ) : Bool × Phys :=
  tryLoop (growPage x.pml4) (pagesFrom (pageUp x.programBreak) (pageUp a)) x.phys

/-- `SYS_brk`: what it returns and the state after it. -/
def sysBrk (x : Heap) (a : ℕ) : ℕ × Heap :=
  if a = 0 then (x.programBreak, x)
  else if x.programBreak < a then
    if (growHeap x a).1 = true then
      (a, { x with phys := (growHeap x a).2, programBreak := a })
    else (x.programBreak, { x with phys := (growHeap x a).2 })
  else (a, { x with programBreak := a })

/-! ### One page -/

section Page

variable {s s' : Phys} {r va va' : ℕ} {l : List ℕ}

/-- What mapping one page does. -/
structure MapsPage (s : Phys) (r va : ℕ) (s' : Phys) : Prop where
  space : Space s' r
  self : (translate s'.mem r va).isSome = true
  others : ∀ va', pageNo va' ≠ pageNo va → translate s'.mem r va' = translate s.mem r va'
  pool : s'.pool.length ≤ s.pool.length
  taken : translate s.mem r va = none → s'.pool.length < s.pool.length

theorem MapsPage.kept (h : MapsPage s r va s') (hs : (translate s.mem r va').isSome) :
    (translate s'.mem r va').isSome := by
  by_cases he : pageNo va' = pageNo va
  · exact isSome_of_pageNo he.symm h.self
  · rw [h.others va' he]
    exact hs

theorem grown_pool_length (h : Grown s s' r) : s'.pool.length ≤ s.pool.length :=
  (subperm_of_subset h.space.nodup fun f hf => h.pool f hf).length_le

theorem growPage_ok (h : Space s r) (hok : (growPage r va s).1) :
    MapsPage s r va (growPage r va s).2 := by
  have hm := mapUser4kb_mapped h va
  have hok : ¬ (mapUser4kb s r va).1 < 0 := of_decide_eq_true hok
  change MapsPage s r va (mapUser4kb s r va).2
  generalize mapUser4kb s r va = x at hm hok ⊢
  cases hm with
  | failed _ => exact absurd (show (-1 : ℤ) < 0 by decide) hok
  | found hg hsome =>
    refine ⟨hg.space, hsome, fun va' _ => hg.same va', grown_pool_length hg, fun hnone => ?_⟩
    rw [hg.same, hnone] at hsome
    cases hsome
  | @made s1 f t pool hg hpool hv _ =>
    have hfree := hg.space.pool f (Phys.head_mem hpool)
    have hw := linkFrame_writes (i := idx va 0) pool hg.space.root hv.reach hfree
    have hlt : pool.length < s.pool.length := by
      have := grown_pool_length hg
      rw [hpool, length_cons] at this
      omega
    obtain ⟨rt, ht⟩ := linkFrame_translate_self pool hg.space hfree hv
    refine ⟨?_, by rw [ht]; rfl, fun va' hne => ?_, hlt.le, fun _ => hlt⟩
    · refine hg.space.writePt hv.reach hw (nodup_cons.mp (hpool ▸ hg.space.nodup)).2
        fun g hg' => ?_
      rw [hpool]
      exact .tail _ hg'
    · rw [← hg.same]
      exact translate_writePt hg.space.tree hw hv hne

/-! ### The loop -/

theorem growLoop_space (h : Space s r) : Space (tryLoop (growPage r) l s).2 r :=
  tryLoop_inv (Space · r) h fun va _ _ ht => ht.mapUser4kb va

/-- **A loop that ends maps its pages** and takes no page away. -/
theorem growLoop_ok (h : Space s r) (hok : (tryLoop (growPage r) l s).1) :
    (∀ va ∈ l, (translate (tryLoop (growPage r) l s).2.mem r va).isSome) ∧
    ∀ va, (translate s.mem r va).isSome →
      (translate (tryLoop (growPage r) l s).2.mem r va).isSome := by
  have hall := tryLoop_induct (g := growPage r)
    (fun done t => Space t r ∧ (∀ va ∈ done, (translate t.mem r va).isSome) ∧
      ∀ va, (translate s.mem r va).isSome → (translate t.mem r va).isSome)
    ⟨h, nofun, fun _ hva => hva⟩ (fun l1 a _ t _ hP hg => ?_) hok
  · exact hall.2
  have hpage := growPage_ok hP.1 hg
  refine ⟨hpage.space, fun va hva => ?_, fun va hva => hpage.kept (hP.2.2 va hva)⟩
  rcases mem_append.mp hva with hva | hva
  · exact hpage.kept (hP.2.1 va hva)
  · rw [List.mem_singleton.mp hva]
    exact hpage.self

/-- The pages of `q`, by number, that are not mapped. -/
def unmapped (m : Mem) (r : ℕ) (q : Finset ℕ) : Finset ℕ :=
  q.filter fun n => translate m r (n * 0x1000) = none

theorem MapsPage.unmapped_card (h : MapsPage s r va s') {q : Finset ℕ} (hq : ∀ n ∈ q, n < 2 ^ 36) :
    (unmapped s.mem r q).card + s'.pool.length ≤ (unmapped s'.mem r q).card + s.pool.length := by
  have hno : ∀ n ∈ q, pageNo (n * 0x1000) = n := fun n hn => by
    have := hq n hn
    rw [pageNo]
    omega
  have hsub : unmapped s.mem r q ⊆ insert (pageNo va) (unmapped s'.mem r q) := by
    intro n hn
    obtain ⟨hnq, hnone⟩ := mem_filter.mp hn
    by_cases he : n = pageNo va
    · exact mem_insert.mpr (.inl he)
    · refine mem_insert_of_mem (mem_filter.mpr ⟨hnq, ?_⟩)
      rw [h.others _ (by rw [hno n hnq]; exact he)]
      exact hnone
  by_cases hva : pageNo va ∈ unmapped s.mem r q
  · have hnone : translate s.mem r va = none := by
      obtain ⟨hnq, hnone⟩ := mem_filter.mp hva
      by_contra hsome
      have := isSome_of_pageNo (hno _ hnq).symm (Option.isSome_iff_ne_none.mpr hsome)
      rw [hnone] at this
      cases this
    have htaken := h.taken hnone
    have hcard := (card_le_card hsub).trans (card_insert_le _ _)
    omega
  · have hcard := card_le_card fun n hn =>
      (mem_insert.mp (hsub hn)).resolve_left fun he => hva (he ▸ hn)
    have hpool := h.pool
    omega

/-- **A loop that ends had a frame for each page that was not mapped.** -/
theorem growLoop_room (h : Space s r) {q : Finset ℕ} (hq : ∀ n ∈ q, n < 2 ^ 36)
    (hl : ∀ n ∈ q, n * 0x1000 ∈ l) (hok : (tryLoop (growPage r) l s).1) :
    (unmapped s.mem r q).card ≤ s.pool.length := by
  have hcount := (tryLoop_induct (g := growPage r)
    (fun _ t => Space t r ∧ (unmapped s.mem r q).card + t.pool.length ≤
      (unmapped t.mem r q).card + s.pool.length)
    ⟨h, le_rfl⟩ (fun _ _ _ t _ hP hg => ?_) hok).2
  · have hnone : unmapped (tryLoop (growPage r) l s).2.mem r q = ∅ := by
      refine filter_eq_empty_iff.mpr fun n hn hnone => ?_
      have hsome := (growLoop_ok h hok).1 _ (hl n hn)
      rw [hnone] at hsome
      cases hsome
    rw [hnone, card_empty] at hcount
    omega
  · have hpage := growPage_ok hP.1 hg
    have := hpage.unmapped_card hq
    exact ⟨hpage.space, by omega⟩

end Page

/-! ### One call -/

/-- What a call owes to the process. -/
structure KeepsHeap (x : Heap) (a : ℕ) (x' : Heap) : Prop where
  mapped : x.programBreak < x'.programBreak → ∀ v, x.programBreak ≤ v → v < x'.programBreak →
    Canonical v ∧ (translate x'.phys.mem x'.pml4 v).isSome = true
  above : x.heapStart ≤ x'.programBreak
  failed : x.programBreak < a → (growHeap x a).1 = false → x'.programBreak = x.programBreak

/-- The rest of the page of the break is mapped. -/
def BreakPage (x : Heap) : Prop :=
  x.programBreak % 0x1000 = 0 ∨ (translate x.phys.mem x.pml4 x.programBreak).isSome = true

/-- There are fewer free frames than pages to map. -/
def NoRoom (x : Heap) (a : ℕ) : Prop :=
  x.phys.pool.length < (unmapped x.phys.mem x.pml4
    (Finset.Ico (pageUp x.programBreak / 0x1000) (min (pageUp a) (2 ^ 48) / 0x1000))).card

/-- An argument that the code provides for. -/
def Fits (x : Heap) (a : ℕ) : Prop :=
  a = 0 ∨ x.heapStart ≤ a ∧ (x.programBreak < a →
    a ≤ 2 ^ 64 - 0x1000 ∧ (NoRoom x a ∨ a ≤ 2 ^ 47 ∧ BreakPage x))

section Call

variable {x : Heap} {a : ℕ}

theorem pageUp_eq {n : ℕ} (h : n ≤ 2 ^ 64 - 0x1000) : pageUp n = (n + 0xFFF) / 4096 * 4096 := by
  rw [pageUp, pageDown, add64, Nat.mod_eq_of_lt (by omega)]

theorem mem_pagesFrom {start stop va : ℕ} (hs : start % 0x1000 = 0) (hp : stop % 0x1000 = 0)
    (hva : va % 0x1000 = 0) (h1 : start ≤ va) (h2 : va < stop) : va ∈ pagesFrom start stop := by
  refine List.mem_map.mpr ⟨(va - start) / 0x1000, List.mem_range.mpr ?_, ?_⟩
  · omega
  · omega

section

variable (h : Space x.phys x.pml4)

include h

theorem growHeap_fails (hr : NoRoom x a) : (growHeap x a).1 = false := by
  by_contra hok
  refine absurd (growLoop_room h (fun n hn => ?_) (fun n hn => ?_) (Bool.eq_true_of_not_eq_false hok))
    (not_le.mpr hr)
  · have := (mem_Ico.mp hn).2
    omega
  · obtain ⟨h1, h2⟩ := mem_Ico.mp hn
    have hs := pageUp_mod x.programBreak
    exact mem_pagesFrom hs (pageUp_mod a) (by omega) (by omega) (by omega)

/-- **A growth below the end of the user half maps the pages it takes in.** -/
theorem growHeap_mapped (ha : a ≤ 2 ^ 47) (hp : BreakPage x) (hlt : x.programBreak < a)
    (hok : (growHeap x a).1) {v : ℕ} (h1 : x.programBreak ≤ v) (h2 : v < a) :
    (translate (growHeap x a).2.mem x.pml4 v).isSome := by
  obtain ⟨hnew, hold⟩ := growLoop_ok h hok
  have hup := pageUp_eq (n := x.programBreak) (by omega)
  have hup' := pageUp_eq (n := a) (by omega)
  by_cases hv : v < pageUp x.programBreak
  · -- the page that the break is in
    have hsome := hp.resolve_left (by omega)
    have hno : pageNo x.programBreak = pageNo v := by
      rw [pageNo, pageNo]
      omega
    exact hold v (isSome_of_pageNo hno hsome)
  · have hmem : v / 0x1000 * 0x1000 ∈ pagesFrom (pageUp x.programBreak) (pageUp a) :=
      mem_pagesFrom (pageUp_mod x.programBreak) (pageUp_mod a) (by omega) (by omega) (by omega)
    refine isSome_of_pageNo ?_ (hnew _ hmem)
    exact (pageNo_eq_of_page (by omega) (by omega) (by omega)).symm

theorem sysBrk_space (a : ℕ) :
    Space (sysBrk x a).2.phys (sysBrk x a).2.pml4 := by
  rw [sysBrk]
  split
  · exact h
  split
  · split
    · exact growLoop_space h
    · exact growLoop_space h
  · exact h

/-- **One call.** -/
theorem sysBrk_keeps (hb : x.heapStart ≤ x.programBreak) (hfit : Fits x a) :
    KeepsHeap x a (sysBrk x a).2 := by
  rw [sysBrk]
  split
  · exact ⟨fun hlt => absurd hlt (lt_irrefl _), hb, fun _ _ => rfl⟩
  next h0 =>
  obtain ⟨habove, hgrow⟩ := hfit.resolve_left h0
  split
  · next hlt =>
    obtain ⟨-, hroom⟩ := hgrow hlt
    split
    · next hok =>
      refine ⟨fun _ v h1 h2 => ?_, habove, fun _ hbad => absurd (hok.symm.trans hbad) nofun⟩
      rcases hroom with hno | ⟨ha, hp⟩
      · cases hok.symm.trans (growHeap_fails h hno)
      · exact ⟨.inl (lt_of_lt_of_le h2 ha), growHeap_mapped h ha hp hlt hok h1 h2⟩
    · exact ⟨fun hlt => absurd hlt (lt_irrefl _), hb, fun _ _ => rfl⟩
  · next hle =>
    exact ⟨fun hlt => absurd hlt hle, habove, fun hlt => absurd hlt hle⟩

end

theorem sysBrk_heapStart (x : Heap) (a : ℕ) : (sysBrk x a).2.heapStart = x.heapStart := by
  rw [sysBrk]
  split_ifs <;> rfl

end Call

/-! ### Every sequence of calls -/

/-- Each argument of a run is one that the code provides for in the state it meets. -/
def AllFit : Heap → List ℕ → Prop
  | _, [] => True
  | x, a :: l => Fits x a ∧ AllFit (sysBrk x a).2 l

/-- Each call of a run keeps the heap. -/
def AllKeep : Heap → List ℕ → Prop
  | _, [] => True
  | x, a :: l => KeepsHeap x a (sysBrk x a).2 ∧ AllKeep (sysBrk x a).2 l

/-- **The break over a run**: pages below it are mapped when it moves up, it stays above the start
of the heap, and a growth that fails leaves it where it was. -/
theorem brk_run_keeps {x : Heap} {l : List ℕ} (h : Space x.phys x.pml4)
    (hb : x.heapStart ≤ x.programBreak) (hfit : AllFit x l) : AllKeep x l := by
  induction l generalizing x with
  | nil => trivial
  | cons a l ih =>
    have hkeep := sysBrk_keeps h hb hfit.1
    have hb' := hkeep.above
    rw [← sysBrk_heapStart x a] at hb'
    exact ⟨hkeep, ih (sysBrk_space h a) hb' hfit.2⟩

/-- A process as `proc_spawn` leaves it, with two free frames. -/
def newHeap : Heap := ⟨⟨smallTree, [0x6000, 0x7000], false⟩, 0x1000, 0x201000, 0x201000⟩

theorem brk_run_keeps_newHeap : AllKeep newHeap [0x201800, 0, 0x201000] :=
  brk_run_keeps (smallTree_space (by decide) (by decide)) le_rfl
    ⟨.inr ⟨by decide, fun _ => ⟨by decide, .inr ⟨by decide, .inl rfl⟩⟩⟩, .inl rfl,
      .inr ⟨by decide +kernel, fun h => absurd h (by decide +kernel)⟩, trivial⟩

/-- **The two slips.** The last address moves the break over pages that are not mapped, and the
argument 1 moves it below the start of the heap. -/
theorem brk_last_address_unmapped :
    (sysBrk newHeap (2 ^ 64 - 1)).2.programBreak = 2 ^ 64 - 1 ∧
    (sysBrk newHeap (2 ^ 64 - 1)).2.phys.pool = newHeap.phys.pool ∧
    ¬ KeepsHeap newHeap (2 ^ 64 - 1) (sysBrk newHeap (2 ^ 64 - 1)).2 ∧
    ¬ KeepsHeap newHeap 1 (sysBrk newHeap 1).2 := by
  have hbreak : (sysBrk newHeap (2 ^ 64 - 1)).2.programBreak = 2 ^ 64 - 1 := by decide +kernel
  have hnone : translate (sysBrk newHeap (2 ^ 64 - 1)).2.phys.mem
      (sysBrk newHeap (2 ^ 64 - 1)).2.pml4 0x400000 = none := by decide +kernel
  refine ⟨hbreak, by decide +kernel, fun h => ?_, fun h => ?_⟩
  · have hsome := (h.mapped (by rw [hbreak]; decide) 0x400000 (by decide)
      (by rw [hbreak]; decide)).2
    rw [hnone] at hsome
    cases hsome
  · exact absurd h.above (by decide +kernel)

end TipOS.Vm
