import TipOS.Paging.MapPage
import TipOS.Vm.Map

/-!
# Unmapping and protecting a range

`pml4_walk_ptes` goes over the 2 MB chunks of a range, splits 2 MB entries and applies a function
to the entries of the pages in the range that are present: 0 for `vm_munmap`, `pte_set_prot` for
`vm_mprotect`.  What the two do to the list of regions is in `Vm.Map`.

The walk takes nine bits for each level from the chunk, so addresses with the same bits 47 to
12 are one page to it.  A range outside the canonical addresses therefore reaches pages that are
not in it, and a range that ends in the last 2 MB of the 64 bits is walked forever.
`range_laws_iff` says for which ranges both functions do what they should.
-/

namespace TipOS.Paging

open Lib Nat Option Bool Phys
open Vm (add64 pageDown pageUp)

variable {e a n n' : ℕ} {x : ℤ × Phys}

/-! ### `vm_map.c` -/

/-- `fn` is applied to an entry that is present, if its page `va` is in the range. -/
def applyPte (fn : ℕ → ℕ) (start stop va pt i : ℕ) (s : Phys) : Phys :=
  if start ≤ va ∧ va < stop ∧ isPresent (entry s.mem pt i) = true then
    s.setEntry pt i (fn (entry s.mem pt i))
  else s

/-- The inner loop of `pml4_walk_ptes` over a page table. -/
def applyPt (fn : ℕ → ℕ) (start stop chunk pt : ℕ) (s : Phys) : Phys :=
  forLoop (fun i => applyPte fn start stop (add64 chunk (i * 0x1000)) pt i) 512 s

attribute [irreducible] applyPt

/-- `pml4_walk_ptes` in one chunk. -/
def walkChunk (fn : ℕ → ℕ) (root start stop chunk : ℕ) (s : Phys) : ℤ × Phys :=
  let e4 := entry s.mem root (pml4Idx chunk)
  if isPresent e4 = false then (0, s)
  else
    let pdpt := tableOf e4
    let e3 := entry s.mem pdpt (pdptIdx chunk)
    if isPresent e3 = false then (0, s)
    else
      let pde := entry s.mem (tableOf e3) (pdIdx chunk)
      if isPresent pde = false then (0, s)
      else
        match if isHuge pde then split2mbPde s root chunk else (0, s) with
        | (r, s) =>
          if r < 0 then (-1, s)
          else
            -- the page directory is read again after the split
            let pd := tableOf (entry s.mem pdpt (pdptIdx chunk))
            (0, applyPt fn start stop chunk (tableOf (entry s.mem pd (pdIdx chunk))) s)

/-- The loop of `pml4_walk_ptes` over the chunks, at most `n` steps. -/
def pml4WalkPtes (fn : ℕ → ℕ) (root start stop : ℕ) : ℕ → ℕ → Phys → Option (ℤ × Phys)
  | 0, _, _ => none
  | n + 1, chunk, s =>
    if chunk < stop then
      match walkChunk fn root start stop chunk s with
      | (r, s) =>
        if r < 0 then some (-1, s)
        else pml4WalkPtes fn root start stop n (add64 chunk 0x200000) s
    else some (0, s)

/-- `e & ~(1 << b)`. -/
def clearBit (e b : ℕ) : ℕ := e &&& (2 ^ 64 - 1 - 2 ^ b)

/-- `pte_set_prot`. -/
def pteSetProt (prot pte : ℕ) : ℕ :=
  let f := if prot.testBit 1 then pte ||| 0x02 else clearBit pte 1
  let f := f ||| 0x04
  let f := if prot.testBit 0 then f else clearBit f 1
  if prot.testBit 2 then clearBit f 63 else f ||| 0x8000000000000000

/-- `pte_clear`. -/
def pteClear (_ : ℕ) : ℕ := 0

/-- A function on the entries of a range of pages, as `vm_munmap` and `vm_mprotect` call it. -/
def onRange (fn : ℕ → ℕ) (n : ℕ) (s : Phys) (root addr size : ℕ) : Option (ℤ × Phys) :=
  let size := pageUp size
  if size = 0 then some (0, s)
  else pml4WalkPtes fn root addr (add64 addr size) n (hugeDown addr) s

/-- `vm_munmap`, on the tables. -/
def vmMunmapPtes : ℕ → Phys → ℕ → ℕ → ℕ → Option (ℤ × Phys) := onRange pteClear

/-- `vm_mprotect`, on the tables. -/
def vmMprotectPtes (prot : ℕ) : ℕ → Phys → ℕ → ℕ → ℕ → Option (ℤ × Phys) :=
  onRange (pteSetProt prot)

/-! ### Addresses and pages -/

/-- The pointers to tables on the walk have no bits above the address, so that the kernel
follows them. -/
def Clean (m : Mem) (r va : ℕ) : Prop :=
  ∀ l t t', OnWalk m r va (l + 1) t → child (l + 1) (get m t (idx va (l + 1))) = some t' →
    get m t (idx va (l + 1)) < 2 ^ 52

/-- The pointers to tables on the walk have the property `P`. -/
def Pointers (P : ℕ → Prop) (m : Mem) (r va : ℕ) : Prop :=
  ∀ l t t', OnWalk m r va (l + 1) t → child (l + 1) (get m t (idx va (l + 1))) = some t' →
    P (get m t (idx va (l + 1)))

section Pages

variable {m m' : Mem} {r va va' l t : ℕ}

theorem Clean.of_idx (h : Clean m r va) (hi : ∀ l, 0 < l → l ≤ 3 → idx va l = idx va' l) :
    Clean m r va' := by
  intro l t t' hv hc
  have hv' : OnWalk m r va (l + 1) t :=
    hv.of_idx fun l' hl hl' => (hi l' (by omega) hl').symm
  rw [← hi (l + 1) (succ_pos l) hv.le] at hc ⊢
  exact h l t t' hv' hc

theorem pointers_congr {P : ℕ → Prop} {m' : Mem}
    (hon : ∀ {l t}, OnWalk m' r va (l + 1) t ↔ OnWalk m r va (l + 1) t)
    (hsame : ∀ {l t}, OnWalk m r va (l + 1) t →
      get m' t (idx va (l + 1)) = get m t (idx va (l + 1)) ∨
        child (l + 1) (get m t (idx va (l + 1))) = none ∧ P (get m' t (idx va (l + 1)))) :
    Pointers P m' r va ↔ Pointers P m r va := by
  refine forall_congr' fun l => forall₂_congr fun t t' => ?_
  rw [hon]
  refine imp_congr_right fun hv => ?_
  rcases hsame hv with he | ⟨hn, hp⟩
  · rw [he]
  · rw [hn]
    exact iff_of_true (fun _ => hp) fun h => absurd h.symm (some_ne_none t')

theorem translate_of_onWalk (hv : OnWalk m r va 0 t) :
    (translate m r va).map Prod.fst =
      if isPresent (get m t (idx va 0)) = true then
        some (frameOf (get m t (idx va 0)) + va % 2 ^ 12) else none := by
  rw [translate_fst hv, walkFrom_zero, leafVal]
  split
  · rfl
  · rfl

end Pages

/-! ### The invariant of the walk -/

/-- A tree of tables in physical memory without 1 GB entries, and frames that are no tables. -/
structure Tables (s : Phys) (r : ℕ) : Prop where
  root : r % 4096 = 0
  phys : Physical s.mem
  tree : IsTree s.mem r
  giga : ∀ {t : ℕ} {i : Fin 512}, Table s.mem r 2 t → isPresent (get s.mem t i) = true →
    isHuge (get s.mem t i) = false
  nodup : s.pool.Nodup
  pool : ∀ f ∈ s.pool, FreeFrame s.mem r f

/-- From `s₀` to `s` the entries of the pages in `D` that were mapped were replaced, and nothing
else can be seen. -/
structure Done (fn : ℕ → ℕ) (r : ℕ) (s₀ : Phys) (D : ℕ → Prop) (s : Phys) : Prop where
  tables : Tables s r
  pointers : ∀ P : ℕ → Prop, (∀ f, f % 4096 = 0 → f < 2 ^ 52 → P (f + 7)) →
    ∀ va, Pointers P s.mem r va ↔ Pointers P s₀.mem r va
  same : ∀ va, ¬ D va → translate s.mem r va = translate s₀.mem r va
  gone : ∀ va, translate s₀.mem r va = none → translate s.mem r va = none
  done : ∀ va x, D va → translate s₀.mem r va = some x →
    ∃ pt e, OnWalk s.mem r va 0 pt ∧ get s.mem pt (idx va 0) = fn e ∧ e < 2 ^ 64 ∧
      isPresent e = true ∧ frameOf e + va % 2 ^ 12 = x.1

theorem Done.clean {fn : ℕ → ℕ} {r : ℕ} {s₀ s : Phys} {D : ℕ → Prop} (h : Done fn r s₀ D s)
    (va : ℕ) : Clean s.mem r va ↔ Clean s₀.mem r va :=
  h.pointers (· < 2 ^ 52) (fun f ha hlow => show f + 7 < 2 ^ 52 by omega) va

/-- What the functions on entries have in common. -/
structure PteFn (fn : ℕ → ℕ) : Prop where
  lt : ∀ e < 2 ^ 64, fn e < 2 ^ 64
  twice : ∀ e < 2 ^ 64, isPresent (fn e) = true → fn (fn e) = fn e

section Split

variable {s s₀ : Phys} {r pd f : ℕ} {i : Fin 512} {pool : List ℕ}

theorem splitAt_child (pool : List ℕ) (i : Fin 512) (hr : r % 4096 = 0) (hpd : Table s.mem r 1 pd)
    (hf : FreeFrame s.mem r f) :
    get (splitAt s pool f pd i (entry s.mem pd i)).mem pd i = f + 7 ∧
      child 1 (get (splitAt s pool f pd i (entry s.mem pd i)).mem pd i) = some f := by
  obtain ⟨hpde, -⟩ := splitAt_spec pool hf.aligned (Table.aligned hpd hr)
    (fun h => hf.table 1 (h ▸ hpd)) i.2 hf.low (entry_lt s.mem pd i)
  refine ⟨hpde, ?_⟩
  rw [get, hpde, child_pointer hf.aligned hf.low]

theorem Tables.split (h : Tables s r) (hpool : s.pool = f :: pool) (hpd : Table s.mem r 1 pd) :
    Tables (splitAt s pool f pd i (entry s.mem pd i)) r := by
  have hf : FreeFrame s.mem r f := h.pool f (head_mem hpool)
  have hw := splitAt_writes (i := i) pool h.root hpd hf (entry_lt s.mem pd i)
  have hc := (splitAt_child pool i h.root hpd hf).2
  have hnd := List.nodup_cons.mp (hpool ▸ h.nodup)
  obtain ⟨-, -, hbytes, -, hpool', -⟩ := splitAt_spec (s := s) pool hf.aligned
    (Table.aligned hpd h.root) (fun he => hf.table 1 (he ▸ hpd)) i.2 hf.low (entry_lt s.mem pd i)
  refine ⟨h.root, fun x hx => ?_, h.tree.node hw hpd hc (fun _ => rfl) hf.table,
    fun {t j} ht hp => ?_, by rw [hpool']; exact hnd.2, fun g hg => ?_⟩
  · have h1 := hf.low
    have h2 := Table.lt hpd (by simp)
    rw [hbytes x (by omega) (by omega)]
    exact h.phys x hx
  · rcases Radix.Reach.of_node hw h.tree hpd hc (fun _ => rfl) ht with hr | ⟨h0, -⟩
    · have hne : t ≠ pd := fun he => absurd (h.tree.level hr (he ▸ hpd)) (by simp)
      rw [hw _ _ _ hr (.inl hne)] at hp ⊢
      exact h.giga hr hp
    · omega
  · rw [hpool'] at hg
    have hfree := h.pool g (by rw [hpool]; exact .tail _ hg)
    refine ⟨hfree.aligned, hfree.low, fun l hl => ?_⟩
    rcases Radix.Reach.of_node hw h.tree hpd hc (fun _ => rfl) hl with hr | ⟨-, rfl⟩
    · exact hfree.table l hr
    · exact hnd.1 hg

theorem Done.split {fn : ℕ → ℕ} {D : ℕ → Prop} (h : Done fn r s₀ D s) (hpool : s.pool = f :: pool)
    (hpd : Table s.mem r 1 pd) (hp : isPresent (entry s.mem pd i))
    (hh : isHuge (entry s.mem pd i)) :
    Done fn r s₀ D (splitAt s pool f pd i (entry s.mem pd i)) := by
  have ht := h.tables
  have hf : FreeFrame s.mem r f := ht.pool f (head_mem hpool)
  have hw := splitAt_writes (i := i) pool ht.root hpd hf (entry_lt s.mem pd i)
  have hself := (splitAt_child pool i ht.root hpd hf).1
  have htr := splitAt_translate pool ht.root ht.tree hpd i hf hp hh
  refine ⟨ht.split hpool hpd, fun P hP va => ?_, fun va hD => (htr va).trans (h.same va hD),
    fun va h0 => (htr va).trans (h.gone va h0), fun va x hD hx => ?_⟩
  · -- the new pointer has the property, and the entry it replaces was no pointer
    rw [← h.pointers P hP va]
    refine pointers_congr (hw.visits_iff ht.tree hpd (by omega)) fun {l t} hv => ?_
    by_cases hx : t = pd ∧ idx va (l + 1) = i
    · obtain rfl : l = 0 := Nat.succ.inj (ht.tree.level hv.reach (hx.1 ▸ hpd))
      rw [hx.1, hx.2, hself]
      exact .inr ⟨child_of_huge (by simp) hh, hP f hf.aligned hf.low⟩
    · exact .inl (hw _ _ _ hv.reach (not_and_or.mp hx))
  · obtain ⟨pt, e, hv, hget, hlt, hpe, hfr⟩ := h.done va x hD hx
    refine ⟨pt, e, hv.congr fun l' t' hl' hv' => ?_, ?_, hlt, hpe, hfr⟩
    · -- the way of `va` goes on below its page directory, so it does not meet the 2 MB entry
      by_cases hx : t' = pd ∧ idx va l' = i
      · obtain rfl : l' = 1 := ht.tree.level hv'.reach (hx.1 ▸ hpd)
        cases hv with
        | down hv1 hc =>
          rw [hv1.unique hv', hx.1, hx.2, get, child_of_huge (by simp) hh] at hc
          cases hc
      · exact hw _ _ _ hv'.reach (not_and_or.mp hx)
    · rw [hw _ _ _ hv.reach (.inl fun he => ?_), hget]
      exact absurd (ht.tree.level hv.reach (he ▸ hpd)) (by simp)

end Split

section Write

variable {fn : ℕ → ℕ} {s s₀ : Phys} {r pt va₀ : ℕ} {D D' : ℕ → Prop}

theorem Tables.writePt {i : Fin 512} (h : Tables s r) (ht : Table s.mem r 0 pt) :
    Tables (s.setEntry pt i e) r := by
  have hal := Table.aligned ht h.root
  have hlt := Table.lt ht (by simp)
  have hi := i.2
  have hw : Radix.Writes child (get s.mem) (get (s.setEntry pt i e).mem) 3 r pt i :=
    setEntry_writes h.root hal
  refine ⟨h.root, fun x hx => ?_, h.tree.leaf hw ht rfl, fun {t j} ht' hp => ?_, h.nodup,
    fun g hg => ?_⟩
  · rw [setEntry_mem, setEntry_apply_of_ne hal hi (by omega)]
    exact h.phys x hx
  · have hr := ht'.of_leaf hw h.tree ht rfl
    have hne : t ≠ pt := fun he => absurd (h.tree.level hr (he ▸ ht)) (by simp)
    rw [hw _ _ _ hr (.inl hne)] at hp ⊢
    exact h.giga hr hp
  · have hfree := h.pool g hg
    exact ⟨hfree.aligned, hfree.low, fun l hl => hfree.table l (hl.of_leaf hw h.tree ht rfl)⟩

theorem Done.extend (h : Done fn r s₀ D s) (hD : ∀ va, D va → D' va)
    (hnew : ∀ va, D' va → ¬ D va → translate s₀.mem r va = none) : Done fn r s₀ D' s := by
  refine ⟨h.tables, h.pointers, fun va hva => h.same va fun hd => hva (hD va hd), h.gone,
    fun va x hva hx => ?_⟩
  by_cases hd : D va
  · exact h.done va x hd hx
  · cases (hnew va hva hd).symm.trans hx

/-- **One page more is done** when its entry is replaced. -/
theorem Done.write (h : Done fn r s₀ D s) (hfn : PteFn fn) (hv : OnWalk s.mem r va₀ 0 pt)
    (hp : isPresent (get s.mem pt (idx va₀ 0))) :
    Done fn r s₀ (fun va => D va ∨ pageNo va = pageNo va₀)
      (s.setEntry pt (idx va₀ 0) (fn (get s.mem pt (idx va₀ 0)))) := by
  set s' := s.setEntry pt (idx va₀ 0) (fn (get s.mem pt (idx va₀ 0))) with hs'
  have ht := h.tables
  have hw : Radix.Writes child (get s.mem) (get s'.mem) 3 r pt (idx va₀ 0) :=
    setEntry_writes ht.root (Table.aligned hv.reach ht.root)
  have hself : get s'.mem pt (idx va₀ 0) = fn (get s.mem pt (idx va₀ 0)) := by
    rw [get, hs', setEntry_mem, entry_setEntry_self]
    exact mod_eq_of_lt (hfn.lt _ (entry_lt _ _ _))
  have hpage : ∀ {va}, pageNo va = pageNo va₀ → OnWalk s.mem r va 0 pt ∧ idx va 0 = idx va₀ 0 :=
    fun he => ⟨hv.of_idx fun l' _ hl' => (idx_eq_of_pageNo he hl').symm,
      idx_eq_of_pageNo he (by simp)⟩
  refine ⟨ht.writePt hv.reach, fun P hP va => ?_, fun va hD => ?_, fun va h0 => ?_,
    fun va x hD hx => ?_⟩
  · rw [← h.pointers P hP va]
    exact pointers_congr (hw.visits_iff ht.tree hv.reach (zero_le _)) fun hv' =>
      .inl (hw.above ht.tree hv.reach (succ_pos _) hv')
  · rw [← h.same va fun hd => hD (.inl hd)]
    exact translate_writePt ht.tree hw hv fun he => hD (.inr he)
  · by_cases he : pageNo va = pageNo va₀
    · obtain ⟨hv', hi⟩ := hpage he
      have hsome := translate_isSome_of_leaf (l := 0) hv' (by rw [hi]; exact hp) rfl
      rw [h.gone va h0] at hsome
      cases hsome
    · rw [← h.gone va h0]
      exact translate_writePt ht.tree hw hv he
  by_cases he : pageNo va = pageNo va₀
  · obtain ⟨hv', hi⟩ := hpage he
    have hon := (hw.visits_iff ht.tree hv.reach le_rfl).mpr hv'
    by_cases hd : D va
    · -- the page was visited before under another address
      obtain ⟨pt', e, hv1, hget, hlt, hpe, hfr⟩ := h.done va x hd hx
      obtain rfl := hv1.unique hv'
      refine ⟨pt', e, hon, ?_, hlt, hpe, hfr⟩
      rw [hi] at hget ⊢
      rw [hself, hget, hfn.twice e hlt (hget ▸ hp)]
    · refine ⟨pt, get s.mem pt (idx va₀ 0), hon, by rw [hi, hself], entry_lt _ _ _, hp, ?_⟩
      have hfst := translate_of_onWalk hv'
      rw [h.same va hd, hx, hi, if_pos hp, map_some] at hfst
      exact (Option.some.inj hfst).symm
  · obtain ⟨pt', e, hv1, hget, hlt, hpe, hfr⟩ := h.done va x (hD.resolve_right he) hx
    refine ⟨pt', e, (hw.visits_iff ht.tree hv.reach le_rfl).mpr hv1, ?_, hlt, hpe, hfr⟩
    rw [hw _ _ _ hv1.reach ?_, hget]
    refine not_and_or.mp fun hx' => he (pageNo_eq_of_idx fun l hl => ?_)
    rcases Nat.eq_zero_or_pos l with rfl | hpos
    · exact hx'.2
    · exact ht.tree.key_eq (hx'.1 ▸ hv1) hv hpos hl

theorem Done.skip (h : Done fn r s₀ D s) (hv : OnWalk s.mem r va₀ 0 pt)
    (hp : isPresent (get s.mem pt (idx va₀ 0)) = false) :
    Done fn r s₀ (fun va => D va ∨ pageNo va = pageNo va₀) s := by
  refine h.extend (fun _ => .inl) fun va hD hd => ?_
  have he := hD.resolve_left hd
  have hfst := translate_of_onWalk (hv.of_idx fun l' _ hl' => (idx_eq_of_pageNo he hl').symm)
  rw [idx_eq_of_pageNo he (by simp), if_neg (by simp [hp]), map_eq_none_iff,
    h.same va hd] at hfst
  exact hfst

end Write

/-! ### The loops -/

/-- The address shares its page with one of the range below `cur`. -/
def Visited (start stop cur va : ℕ) : Prop :=
  ∃ va', start ≤ va' ∧ va' < stop ∧ va' < cur ∧ pageNo va' = pageNo va

/-- The pages that the walk has done when it is at `cur`. -/
def visitedClean (s₀ : Phys) (r start stop cur va : ℕ) : Prop :=
  Clean s₀.mem r va ∧ Visited start stop cur va

section Loops

variable {fn : ℕ → ℕ} {s s₀ : Phys} {r start stop chunk pt va : ℕ}

theorem pageNo_eq_of_page {va : ℕ} (ha : a % 4096 = 0) (h : a ≤ va) (h' : va < a + 4096) :
    pageNo va = pageNo a := by
  rw [pageNo, pageNo]
  congr 1
  omega

theorem visited_succ (ha : a % 4096 = 0) (hstart : start % 4096 = 0) (hstop : stop % 4096 = 0) :
    Visited start stop (a + 4096) va ↔
      Visited start stop a va ∨ start ≤ a ∧ a < stop ∧ pageNo va = pageNo a := by
  constructor
  · rintro ⟨va', h1, h2, h3, h4⟩
    by_cases h : va' < a
    · exact .inl ⟨va', h1, h2, h, h4⟩
    · have hp := pageNo_eq_of_page ha (by omega) h3
      exact .inr ⟨by omega, by omega, h4.symm.trans hp⟩
  · rintro (⟨va', h1, h2, h3, h4⟩ | ⟨h1, h2, h3⟩)
    · exact ⟨va', h1, h2, by omega, h4⟩
    · exact ⟨a, h1, h2, by omega, h3.symm⟩

theorem idx_of_chunk (hc : chunk % 2 ^ 21 = 0) (h : chunk ≤ va) (h' : va < chunk + 2 ^ 21) (l : ℕ)
    (hl : 0 < l) (hl' : l ≤ 3) : idx chunk l = idx va l := by
  refine Fin.ext ?_
  change chunk / 2 ^ (12 + 9 * l) % 512 = va / 2 ^ (12 + 9 * l) % 512
  interval_cases l <;> omega

theorem idx_of_piece {i : ℕ} (hc : chunk % 2 ^ 21 = 0) (hi : i < 512) :
    i = (idx (chunk + i * 4096) 0 : ℕ) := by
  change i = (chunk + i * 4096) / 2 ^ 12 % 512
  omega

theorem add64_piece {i : ℕ} (hc : chunk + 2 ^ 21 ≤ 2 ^ 64) (hi : i < 512) :
    add64 chunk (i * 0x1000) = chunk + i * 4096 := mod_eq_of_lt (by omega)

theorem onWalk_setEntry {t : ℕ} {i : Fin 512} (h : Tables s r) (ht : Table s.mem r 0 pt)
    (hv : OnWalk s.mem r va 0 t) : OnWalk (s.setEntry pt i e).mem r va 0 t :=
  ((setEntry_writes h.root (Table.aligned ht h.root)).visits_iff h.tree ht le_rfl).mpr hv

theorem applyPte_done (hfn : PteFn fn) (hstart : start % 4096 = 0) (hstop : stop % 4096 = 0)
    (ha : a % 4096 = 0) (hclean : Clean s₀.mem r a)
    (h : Done fn r s₀ (visitedClean s₀ r start stop a) s) (hv : OnWalk s.mem r a 0 pt) :
    Done fn r s₀ (visitedClean s₀ r start stop (a + 4096))
      (applyPte fn start stop a pt (idx a 0) s) := by
  have hsucc : ∀ va, Visited start stop (a + 4096) va ↔
      Visited start stop a va ∨ start ≤ a ∧ a < stop ∧ pageNo va = pageNo a :=
    fun va => visited_succ ha hstart hstop
  rw [applyPte]
  by_cases hin : start ≤ a ∧ a < stop
  · -- the page is visited, whether its entry is present or not
    have hboth : ∀ {s' : Phys}, Done fn r s₀ (fun va =>
        visitedClean s₀ r start stop a va ∨ pageNo va = pageNo a) s' →
        Done fn r s₀ (visitedClean s₀ r start stop (a + 4096)) s' := by
      intro s' hs'
      refine hs'.extend (fun va hva => ?_) fun va hva hn => absurd ?_ hn
      · rcases hva with ⟨hcl, hvis⟩ | he
        · exact ⟨hcl, (hsucc va).mpr (.inl hvis)⟩
        · exact ⟨hclean.of_idx fun l _ hl' => (idx_eq_of_pageNo he hl').symm,
            (hsucc va).mpr (.inr ⟨hin.1, hin.2, he⟩)⟩
      · rcases (hsucc va).mp hva.2 with hvis | ⟨-, -, he⟩
        · exact .inl ⟨hva.1, hvis⟩
        · exact .inr he
    by_cases hp : isPresent (entry s.mem pt (idx a 0))
    · rw [if_pos ⟨hin.1, hin.2, hp⟩]
      exact hboth (h.write hfn hv hp)
    · rw [if_neg fun hx => hp hx.2.2]
      exact hboth (h.skip hv (eq_false_iff.mpr hp))
  · rw [if_neg fun hx => hin ⟨hx.1, hx.2.1⟩]
    refine h.extend (fun va hva => ⟨hva.1, (hsucc va).mpr (.inl hva.2)⟩)
      fun va hva hn => absurd ⟨hva.1, ?_⟩ hn
    exact ((hsucc va).mp hva.2).resolve_right fun hx => hin ⟨hx.1, hx.2.1⟩

theorem applyPte_onWalk (fn : ℕ → ℕ) (start stop a : ℕ) (i : Fin 512) (h : Tables s r)
    (ht : Table s.mem r 0 pt) (hv : OnWalk s.mem r va 0 pt) :
    OnWalk (applyPte fn start stop a pt i s).mem r va 0 pt := by
  unfold applyPte
  split
  · exact onWalk_setEntry h ht hv
  · exact hv

/-- **The loop over a page table does the pages of the chunk.** -/
theorem applyPt_done (hfn : PteFn fn) (hstart : start % 4096 = 0) (hstop : stop % 4096 = 0)
    (hc : chunk % 2 ^ 21 = 0) (hc' : chunk + 2 ^ 21 ≤ 2 ^ 64)
    (h : Done fn r s₀ (visitedClean s₀ r start stop chunk) s) (hv : OnWalk s.mem r chunk 0 pt)
    (hclean : Clean s₀.mem r chunk) :
    Done fn r s₀ (visitedClean s₀ r start stop (chunk + 2 ^ 21))
      (applyPt fn start stop chunk pt s) := by
  rw [applyPt]
  refine (forLoop_induct (n := 512) (fun i (s : Phys) =>
    Done fn r s₀ (visitedClean s₀ r start stop (chunk + i * 4096)) s ∧
      OnWalk s.mem r chunk 0 pt) ⟨by simpa using h, hv⟩ ?_).1
  intro i hi s ⟨h, hv⟩
  have hidx := idx_of_chunk hc (le_add_right chunk (i * 4096)) (by omega)
  have hi0 := idx_of_piece hc hi
  have hstep := applyPte_done hfn hstart hstop (by omega) (hclean.of_idx hidx) h (hv.of_idx hidx)
  have hon := applyPte_onWalk fn start stop (chunk + i * 4096) (idx (chunk + i * 4096) 0) h.tables
    hv.reach hv
  rw [← hi0] at hstep hon
  rw [add64_piece hc' hi, show chunk + (i + 1) * 4096 = chunk + i * 4096 + 4096 by ring]
  exact ⟨hstep, hon⟩

end Loops

/-! ### One chunk -/

section Chunk

variable {fn : ℕ → ℕ} {m : Mem} {s s₀ : Phys} {r start stop chunk va va' e4 e3 e2 : ℕ}

theorem lt_of_tableOf (he : e < 2 ^ 64) (h : tableOf e = frameOf e) : e < 2 ^ 52 := by
  rw [tableOf, frameOf] at h
  omega

theorem Followed.of_idx (h : Followed m r va e4 e3 e2)
    (hi : ∀ l, 0 < l → l ≤ 3 → idx va l = idx va' l) : Followed m r va' e4 e3 e2 := by
  have h3 : pml4Idx va = pml4Idx va' := congrArg Fin.val (hi 3 (by simp) le_rfl)
  have h2 : pdptIdx va = pdptIdx va' := congrArg Fin.val (hi 2 (by simp) (by simp))
  have h1 : pdIdx va = pdIdx va' := congrArg Fin.val (hi 1 (by simp) (by simp))
  exact ⟨h3 ▸ h.at4, h2 ▸ h.at3, h1 ▸ h.at2, h.present4, h.present3, h.present2⟩

theorem Followed.visits (h : Followed s.mem r va e4 e3 e2) (ht : Tables s r) :
    OnWalk s.mem r va 2 (tableOf e4) ∧ OnWalk s.mem r va 1 (tableOf e3) := by
  obtain ⟨h4, h3⟩ := h.frames ht.phys
  have hget4 : get s.mem r (idx va 3) = e4 := h.at4
  have hget3 : get s.mem (tableOf e4) (idx va 2) = e3 := h.at3
  have hv2 : OnWalk s.mem r va 2 (tableOf e4) := by
    refine .down .root ?_
    rw [hget4, child_root h.present4, h4]
  have hh : isHuge e3 = false := by
    rw [← hget3]
    exact ht.giga hv2.reach (hget3 ▸ h.present3)
  refine ⟨hv2, .down hv2 ?_⟩
  rw [hget3, child_of_small h.present3 hh, h3]

theorem Followed.clean (h : Followed s.mem r va e4 e3 e2) (ht : Tables s r)
    (h2 : isHuge e2 = false → e2 < 2 ^ 52) : Clean s.mem r va := by
  obtain ⟨hv2, hv1⟩ := h.visits ht
  obtain ⟨h4, h3⟩ := h.frames ht.phys
  intro l t t' hv hc
  have hl : l + 1 ≤ 3 := hv.le
  obtain rfl | rfl | rfl : l = 0 ∨ l = 1 ∨ l = 2 := by omega
  · obtain rfl := hv.unique hv1
    have hget : get s.mem (tableOf e3) (idx va 1) = e2 := h.at2
    rw [hget] at hc ⊢
    exact h2 ((child_eq_some hc).2.1 (by simp))
  · obtain rfl := hv.unique hv2
    have hget : get s.mem (tableOf e4) (idx va 2) = e3 := h.at3
    rw [hget]
    exact lt_of_tableOf (h.at3 ▸ entry_lt _ _ _) h3
  · have hget : get s.mem r (idx va 3) = e4 := h.at4
    rw [hv.unique .root, hget]
    exact lt_of_tableOf (h.at4 ▸ entry_lt _ _ _) h4

theorem followed_of_translate (ht : Tables s r) (hclean : Clean s.mem r va)
    (h : translate s.mem r va ≠ none) :
    ∃ e4 e3 e2, Followed s.mem r va e4 e3 e2 ∧ (isHuge e2 = false → e2 < 2 ^ 52) := by
  rw [translate_eq_walkFrom] at h
  have p4 : isPresent (get s.mem r (idx va 3)) := by
    by_contra hn
    exact h (walkFrom_absent (eq_false_iff.mpr hn))
  have c4 := child_root p4
  have hv2 : OnWalk s.mem r va 2 (frameOf (get s.mem r (idx va 3))) := .down .root c4
  have t4 := tableOf_eq_frameOf (hclean 2 _ _ .root c4)
  rw [walkFrom_child c4, Ne, map_eq_none_iff] at h
  generalize hpdpt : frameOf (get s.mem r (idx va 3)) = pdpt at h hv2 t4
  have p3 : isPresent (get s.mem pdpt (idx va 2)) := by
    by_contra hn
    exact h (walkFrom_absent (eq_false_iff.mpr hn))
  have c3 := child_of_small (l := 1) p3 (ht.giga hv2.reach p3)
  have hv1 : OnWalk s.mem r va 1 (frameOf (get s.mem pdpt (idx va 2))) := .down hv2 c3
  have t3 := tableOf_eq_frameOf (hclean 1 _ _ hv2 c3)
  rw [walkFrom_child c3, map_eq_none_iff] at h
  generalize hpd : frameOf (get s.mem pdpt (idx va 2)) = pd at h hv1 t3
  have p2 : isPresent (get s.mem pd (idx va 1)) := by
    by_contra hn
    exact h (walkFrom_absent (eq_false_iff.mpr hn))
  refine ⟨_, _, _, ⟨rfl, ?_, ?_, p4, p3, p2⟩, fun hh => ?_⟩
  · exact congrArg (fun t => entry s.mem t (pdptIdx va)) t4
  · exact congrArg (fun t => entry s.mem t (pdIdx va)) t3
  · exact hclean 0 _ _ hv1 (child_of_small p2 hh)

theorem Visited.idx_chunk (hc : chunk % 2 ^ 21 = 0) (h : Visited start stop (chunk + 2 ^ 21) va)
    (hn : ¬ Visited start stop chunk va) {l : ℕ} (hl : 0 < l) (hl' : l ≤ 3) :
    idx chunk l = idx va l := by
  obtain ⟨va', h1, h2, h3, h4⟩ := h
  rw [← idx_eq_of_pageNo h4 hl']
  exact idx_of_chunk hc (Nat.le_of_not_lt fun hlt => hn ⟨va', h1, h2, hlt, h4⟩) h3 l hl hl'

theorem Done.noChunk (hc : chunk % 2 ^ 21 = 0)
    (h : Done fn r s₀ (visitedClean s₀ r start stop chunk) s)
    (hno : ∀ e4 e3 e2, Followed s.mem r chunk e4 e3 e2 → isHuge e2 = false ∧ 2 ^ 52 ≤ e2) :
    Done fn r s₀ (visitedClean s₀ r start stop (chunk + 2 ^ 21)) s := by
  refine h.extend (fun va ⟨hcl, va', h1, h2, h3, h4⟩ => ⟨hcl, va', h1, h2, by omega, h4⟩)
    fun va ⟨hcl, hvis⟩ hn => ?_
  by_contra hsome
  rw [← h.same va hn] at hsome
  obtain ⟨e4, e3, e2, hf, h2⟩ := followed_of_translate h.tables ((h.clean va).mpr hcl) hsome
  have hnv : ¬ Visited start stop chunk va := fun hv => hn ⟨hcl, hv⟩
  obtain ⟨hh, hle⟩ := hno e4 e3 e2 (hf.of_idx fun l hl hl' => (hvis.idx_chunk hc hnv hl hl').symm)
  exact absurd (h2 hh) (by omega)

theorem applyPt_outside {pt : ℕ} (hm : Physical s.mem) (hpt : 2 ^ 52 ≤ pt) :
    applyPt fn start stop chunk pt s = s := by
  rw [applyPt]
  refine forLoop_fixed fun i _ => if_neg fun h => ?_
  rw [hm.entry_eq_zero hpt] at h
  cases h.2.2

/-- The cases of `walkChunk`. -/
theorem walkChunk_of_absent (h : ∀ e4 e3 e2, ¬ Followed s.mem r chunk e4 e3 e2) :
    walkChunk fn r start stop chunk s = (0, s) := by
  unfold walkChunk
  dsimp only
  split
  · rfl
  next h4 =>
  split
  · rfl
  next h3 =>
  split
  · rfl
  · next h2 =>
    exact absurd ⟨rfl, rfl, rfl, by simpa using h4, by simpa using h3, by simpa using h2⟩
      (h _ _ _)

theorem walkChunk_of_small (h : Followed s.mem r chunk e4 e3 e2) (hh : isHuge e2 = false) :
    walkChunk fn r start stop chunk s = (0, applyPt fn start stop chunk (tableOf e2) s) := by
  obtain ⟨at4, at3, at2, p4, p3, p2⟩ := h
  simp [walkChunk, at4, at3, at2, p4, p3, p2, hh]

theorem Followed.split {f : ℕ} (pool : List ℕ) (h : Followed s.mem r va e4 e3 e2)
    (ht : Tables s r) (hf : FreeFrame s.mem r f) :
    entry (splitAt s pool f (tableOf e3) (pdIdx va) e2).mem (tableOf e4) (pdptIdx va) = e3 ∧
    entry (splitAt s pool f (tableOf e3) (pdIdx va) e2).mem (tableOf e3) (pdIdx va) = f + 7 ∧
    OnWalk (splitAt s pool f (tableOf e3) (pdIdx va) e2).mem r va 0 f := by
  obtain ⟨hv2, hv1⟩ := h.visits ht
  have he2 : e2 = entry s.mem (tableOf e3) (idx va 1) := h.at2.symm
  have hw := splitAt_writes (i := idx va 1) pool ht.root hv1.reach hf (he2 ▸ entry_lt _ _ _)
  obtain ⟨hself, hc⟩ := splitAt_child pool (idx va 1) ht.root hv1.reach hf
  rw [← he2] at hself hc
  have hne : tableOf e4 ≠ tableOf e3 := by
    intro he
    rw [he] at hv2
    exact absurd (ht.tree.level hv2.reach hv1.reach) (by simp)
  refine ⟨?_, hself, .down ((hw.visits_iff ht.tree hv1.reach le_rfl).mpr hv1) hc⟩
  have hsame := hw 2 (tableOf e4) (idx va 2) hv2.reach (.inl hne)
  exact hsame.trans h.at3

theorem walkChunk_of_huge (fn : ℕ → ℕ) (start stop : ℕ) (h : Followed s.mem r chunk e4 e3 e2)
    (hh : isHuge e2) :
    walkChunk fn r start stop chunk s = match s.pool with
      | [] => (-1, { s with oom := true })
      | f :: pool =>
        let s' := splitAt s pool f (tableOf e3) (pdIdx chunk) e2
        (0, applyPt fn start stop chunk
          (tableOf (entry s'.mem (tableOf (entry s'.mem (tableOf e4) (pdptIdx chunk)))
            (pdIdx chunk))) s') := by
  have hs := split2mbPde_of_huge h hh
  obtain ⟨at4, at3, at2, p4, p3, p2⟩ := h
  cases hpool : s.pool with
  | nil => simp [walkChunk, at4, at3, at2, p4, p3, p2, hh, hs, hpool]
  | cons f pool => simp [walkChunk, at4, at3, at2, p4, p3, p2, hh, hs, hpool]

/-- **A chunk is done** unless a split fails. -/
theorem walkChunk_done (hfn : PteFn fn) (hstart : start % 4096 = 0) (hstop : stop % 4096 = 0)
    (hc : chunk % 2 ^ 21 = 0) (hc' : chunk + 2 ^ 21 ≤ 2 ^ 64)
    (h : Done fn r s₀ (visitedClean s₀ r start stop chunk) s) :
    (∃ s', walkChunk fn r start stop chunk s = (-1, s')) ∨
    ∃ s', walkChunk fn r start stop chunk s = (0, s') ∧
      Done fn r s₀ (visitedClean s₀ r start stop (chunk + 2 ^ 21)) s' := by
  have ht := h.tables
  by_cases hf : ∃ e4 e3 e2, Followed s.mem r chunk e4 e3 e2
  · obtain ⟨e4, e3, e2, hf⟩ := hf
    obtain ⟨hv2, hv1⟩ := hf.visits ht
    have hget2 : get s.mem (tableOf e3) (idx chunk 1) = e2 := hf.at2
    cases hh : isHuge e2 with
    | false =>
      refine .inr ⟨_, walkChunk_of_small hf hh, ?_⟩
      by_cases hlow : e2 < 2 ^ 52
      · have hv0 : OnWalk s.mem r chunk 0 (tableOf e2) := by
          refine .down hv1 ?_
          rw [hget2, child_of_small hf.present2 hh, tableOf_eq_frameOf hlow]
        exact applyPt_done hfn hstart hstop hc hc' h hv0
          ((h.clean chunk).mp (hf.clean ht fun _ => hlow))
      -- the kernel reads beyond memory, and the processor's walk is not clean
      rw [applyPt_outside ht.phys (by rw [tableOf]; omega)]
      refine h.noChunk hc fun e4' e3' e2' hf' => ?_
      obtain rfl : e4' = e4 := hf'.at4.symm.trans hf.at4
      obtain rfl : e3' = e3 := hf'.at3.symm.trans hf.at3
      obtain rfl : e2' = e2 := hf'.at2.symm.trans hf.at2
      exact ⟨hh, by omega⟩
    | true =>
      have hw := walkChunk_of_huge fn start stop hf hh
      cases hpool : s.pool with
      | nil =>
        rw [hpool] at hw
        exact .inl ⟨_, hw⟩
      | cons f pool =>
        rw [hpool] at hw
        refine .inr ⟨_, hw, ?_⟩
        have hfree := ht.pool f (head_mem hpool)
        obtain ⟨h3, h2, hv0⟩ := hf.split pool ht hfree
        have htab : tableOf (f + 7) = f := by
          have := hfree.aligned
          rw [tableOf]
          omega
        have he : entry s.mem (tableOf e3) (idx chunk 1) = e2 := hf.at2
        have hd := h.split (i := idx chunk 1) hpool hv1.reach (he ▸ hf.present2) (he ▸ hh)
        rw [he] at hd
        rw [h3, h2, htab]
        exact applyPt_done hfn hstart hstop hc hc' hd hv0
          ((h.clean chunk).mp (hf.clean ht fun hx => absurd (hh.symm.trans hx) false_ne_true.symm))
  · exact .inr ⟨s, walkChunk_of_absent fun e4 e3 e2 hx => hf ⟨e4, e3, e2, hx⟩,
      h.noChunk hc fun e4 e3 e2 hx => absurd ⟨e4, e3, e2, hx⟩ hf⟩

end Chunk

/-! ### The range -/

/-- What the walk over a range does: the addresses over clean pointers that share their page with
one of the range. -/
def Touched (m : Mem) (r start stop va : ℕ) : Prop :=
  Clean m r va ∧ ∃ va', start ≤ va' ∧ va' < stop ∧ pageNo va' = pageNo va

section Range

variable {fn : ℕ → ℕ} {s s₀ : Phys} {r start stop addr size : ℕ}

theorem Done.touched {cur : ℕ} (h : Done fn r s₀ (visitedClean s₀ r start stop cur) s)
    (hcur : stop ≤ cur) : Done fn r s₀ (Touched s₀.mem r start stop) s :=
  h.extend (fun _ ⟨hcl, va', h1, h2, _, h4⟩ => ⟨hcl, va', h1, h2, h4⟩)
    fun _ ⟨hcl, va', h1, h2, h4⟩ hn =>
      absurd ⟨hcl, va', h1, h2, lt_of_lt_of_le h2 hcur, h4⟩ hn

/-- **The walk does the range**, unless a split fails, when the last chunk can be passed. -/
theorem pml4WalkPtes_done (hfn : PteFn fn) (hstart : start % 4096 = 0) (hstop : stop % 4096 = 0)
    (hend : stop ≤ 2 ^ 64 - 2 ^ 21) (n chunk : ℕ) (s : Phys) (hc : chunk % 2 ^ 21 = 0)
    (hn : stop ≤ chunk + n * 2 ^ 21) (h : Done fn r s₀ (visitedClean s₀ r start stop chunk) s) :
    (∃ s', pml4WalkPtes fn r start stop (n + 1) chunk s = some (-1, s')) ∨
    ∃ s', pml4WalkPtes fn r start stop (n + 1) chunk s = some (0, s') ∧
      Done fn r s₀ (Touched s₀.mem r start stop) s' := by
  induction n generalizing chunk s with
  | zero => exact .inr ⟨s, by rw [pml4WalkPtes, if_neg (by omega)], h.touched (by omega)⟩
  | succ n ih =>
    by_cases hlt : chunk < stop
    · have hadd : add64 chunk 0x200000 = chunk + 2 ^ 21 := mod_eq_of_lt (by omega)
      rcases walkChunk_done hfn hstart hstop hc (by omega) h with ⟨s', hs'⟩ | ⟨s', hs', hd⟩
      · exact .inl ⟨s', by rw [pml4WalkPtes, if_pos hlt, hs']; exact if_pos (by decide)⟩
      have hrun : pml4WalkPtes fn r start stop (n + 1 + 1) chunk s =
          pml4WalkPtes fn r start stop (n + 1) (chunk + 2 ^ 21) s' := by
        rw [pml4WalkPtes, if_pos hlt, hs', hadd]
        exact if_neg (lt_irrefl 0)
      rw [hrun]
      exact ih (chunk + 2 ^ 21) s' (by omega) (by omega) hd
    · exact .inr ⟨s, by rw [pml4WalkPtes, if_neg hlt], h.touched (by omega)⟩

theorem pml4WalkPtes_ne_zero (hend : 2 ^ 64 - 2 ^ 21 < stop) (n chunk : ℕ) (s s' : Phys)
    (hc : chunk % 2 ^ 21 = 0) (hc' : chunk < 2 ^ 64) :
    pml4WalkPtes fn r start stop n chunk s ≠ some (0, s') := by
  induction n generalizing chunk s with
  | zero => nofun
  | succ n ih =>
    rw [pml4WalkPtes, if_pos (by omega)]
    obtain ⟨x, t⟩ := walkChunk fn r start stop chunk s
    dsimp only
    split
    · intro h
      exact absurd (congrArg Prod.fst (Option.some.inj h)) (show (-1 : ℤ) ≠ 0 by decide)
    · refine ih (add64 chunk 0x200000) t ?_ (mod_lt _ (by simp))
      change (chunk + 0x200000) % 2 ^ 64 % 2 ^ 21 = 0
      omega

theorem pml4WalkPtes_mono {chunk : ℕ} (hn : n ≤ n')
    (h : pml4WalkPtes fn r start stop n chunk s = some x) :
    pml4WalkPtes fn r start stop n' chunk s = some x := by
  induction n generalizing n' chunk s with
  | zero => cases h
  | succ n ih =>
    obtain ⟨n', rfl⟩ : ∃ k, n' = k + 1 := ⟨n' - 1, by omega⟩
    rw [pml4WalkPtes] at h ⊢
    split at h
    · next hlt =>
      rw [if_pos hlt]
      dsimp only at h ⊢
      split at h
      · next hneg => rwa [if_pos hneg]
      · next hneg =>
        rw [if_neg hneg]
        exact ih (by omega) h
    · next hlt => rwa [if_neg hlt]

theorem onRange_of_pos (hs : size % 4096 = 0) (hpos : size ≠ 0) (hlt : addr + size < 2 ^ 64)
    (n : ℕ) : onRange fn n s r addr size =
      pml4WalkPtes fn r addr (addr + size) n (hugeDown addr) s := by
  have hup : pageUp size = size := by
    rw [pageUp, pageDown, add64]
    omega
  rw [onRange, hup, if_neg hpos, show add64 addr size = addr + size from mod_eq_of_lt hlt]

theorem onRange_unique {x' : ℤ × Phys} (hs : size % 4096 = 0) (hpos : size ≠ 0)
    (hlt : addr + size < 2 ^ 64) (h : onRange fn n s r addr size = some x)
    (h' : onRange fn n' s r addr size = some x') : x = x' := by
  rw [onRange_of_pos hs hpos hlt] at h h'
  have h1 := pml4WalkPtes_mono (le_max_left n n') h
  have h2 := pml4WalkPtes_mono (le_max_right n n') h'
  exact Option.some.inj (h1.symm.trans h2)

theorem Tables.done_none (ht : Tables s r) (ha : addr % 4096 = 0) :
    Done fn r s (visitedClean s r addr stop (hugeDown addr)) s := by
  have hnone : ∀ va, ¬ visitedClean s r addr stop (hugeDown addr) va := by
    rintro va ⟨-, va', h1, -, h3, -⟩
    rw [hugeDown] at h3
    omega
  exact ⟨ht, fun _ _ _ => Iff.rfl, fun _ _ => rfl, fun _ => id,
    fun va _ hd => absurd hd (hnone va)⟩

/-- **A range is walked to its end** when no split fails. -/
theorem onRange_done (hfn : PteFn fn) (ht : Tables s r) (ha : addr % 4096 = 0)
    (hs : size % 4096 = 0) (hpos : size ≠ 0) (hend : addr + size ≤ 2 ^ 64 - 2 ^ 21)
    (hok : ∀ n s', onRange fn n s r addr size ≠ some (-1, s')) :
    ∃ n s', onRange fn n s r addr size = some (0, s') ∧
      Done fn r s (Touched s.mem r addr (addr + size)) s' := by
  have hd : hugeDown addr % 2 ^ 21 = 0 := by
    rw [hugeDown]
    omega
  have hrun : ∀ n, onRange fn n s r addr size =
      pml4WalkPtes fn r addr (addr + size) n (hugeDown addr) s :=
    onRange_of_pos hs hpos (by omega)
  obtain ⟨n, hn⟩ : ∃ n, addr + size ≤ hugeDown addr + n * 2 ^ 21 := ⟨2 ^ 43, by omega⟩
  rcases pml4WalkPtes_done hfn ha (by omega) hend n _ s hd hn (ht.done_none ha) with
    ⟨s', hs'⟩ | ⟨s', hs', hdone⟩
  · exact absurd ((hrun _).trans hs') (hok _ s')
  · exact ⟨_, s', (hrun _).trans hs', hdone⟩

theorem onRange_ne_zero (hs : size % 4096 = 0) (hlt : addr + size < 2 ^ 64)
    (hend : 2 ^ 64 - 2 ^ 21 < addr + size) (hpos : size ≠ 0) (n : ℕ) (s' : Phys) :
    onRange fn n s r addr size ≠ some (0, s') := by
  rw [onRange_of_pos hs hpos hlt]
  refine pml4WalkPtes_ne_zero hend n _ s s' ?_ ?_
  · rw [hugeDown]
    omega
  · rw [hugeDown]
    omega

end Range

/-! ### The two functions on entries -/

theorem testBit_clearBit {b i : ℕ} (hb : b < 64) (hi : i < 64) :
    (clearBit e b).testBit i = (e.testBit i && decide (i ≠ b)) := by
  have hlt : 2 ^ b < 2 ^ 64 := Nat.pow_lt_pow_right (by simp) hb
  rw [clearBit, testBit_and, show 2 ^ 64 - 1 - 2 ^ b = 2 ^ 64 - (2 ^ b + 1) by omega,
    testBit_two_pow_sub_succ hlt, testBit_two_pow]
  simp [hi, eq_comm]

theorem clearBit_lt {b : ℕ} (he : e < 2 ^ 64) : clearBit e b < 2 ^ 64 :=
  lt_of_le_of_lt and_le_left he

theorem testBit_pteSetProt (prot e : ℕ) {i : ℕ} (hi : i < 64) :
    (pteSetProt prot e).testBit i =
      if i = 1 then prot.testBit 0 && prot.testBit 1 else if i = 2 then true
      else if i = 63 then !prot.testBit 2 else e.testBit i := by
  have h1 : (0x02 : ℕ).testBit i = decide (1 = i) := testBit_two_pow (n := 1)
  have h2 : (0x04 : ℕ).testBit i = decide (2 = i) := testBit_two_pow (n := 2)
  have h63 : (0x8000000000000000 : ℕ).testBit i = decide (63 = i) := testBit_two_pow (n := 63)
  unfold pteSetProt
  dsimp only
  cases prot.testBit 0 <;> cases prot.testBit 1 <;> cases prot.testBit 2 <;>
    simp only [false_eq_true, if_true, if_false, testBit_or, h1, h2, h63,
      testBit_clearBit (show 1 < 64 by simp) hi, testBit_clearBit (show 63 < 64 by simp) hi] <;>
    by_cases c1 : i = 1 <;> by_cases c2 : i = 2 <;> by_cases c63 : i = 63 <;>
    first | omega | simp [c1, c2, c63, eq_comm]

theorem pteSetProt_lt (prot : ℕ) (he : e < 2 ^ 64) : pteSetProt prot e < 2 ^ 64 := by
  have hor : ∀ {x y : ℕ}, x < 2 ^ 64 → y < 2 ^ 64 → x ||| y < 2 ^ 64 := or_lt_two_pow
  have hif : ∀ {b : Bool} {x y : ℕ}, x < 2 ^ 64 → y < 2 ^ 64 → (if b then x else y) < 2 ^ 64 := by
    intro b x y hx hy
    split
    · exact hx
    · exact hy
  have h1 := hif (b := prot.testBit 1) (hor he (by norm_num : 0x02 < 2 ^ 64))
    (clearBit_lt (b := 1) he)
  have h2 := hor h1 (by norm_num : 0x04 < 2 ^ 64)
  have h3 := hif (b := prot.testBit 0) h2 (clearBit_lt (b := 1) h2)
  exact hif (clearBit_lt h3) (hor h3 (by simp))

theorem pteFn_pteSetProt (prot : ℕ) : PteFn (pteSetProt prot) where
  lt e he := pteSetProt_lt prot he
  twice e he _ := by
    refine eq_of_testBit_eq fun i => ?_
    have hlt := pteSetProt_lt prot he
    rcases lt_or_ge i 64 with hi | hi
    · simp only [testBit_pteSetProt _ _ hi]
      split_ifs <;> rfl
    · have hpow : 2 ^ 64 ≤ 2 ^ i := Nat.pow_le_pow_right (by simp) hi
      rw [testBit_lt_two_pow (lt_of_lt_of_le hlt hpow),
        testBit_lt_two_pow (lt_of_lt_of_le (pteSetProt_lt prot hlt) hpow)]

theorem pteFn_pteClear : PteFn pteClear where
  lt _ _ := show 0 < 2 ^ 64 by simp
  twice _ _ _ := rfl

theorem isPresent_pteSetProt (prot e : ℕ) : isPresent (pteSetProt prot e) = isPresent e := by
  rw [isPresent, testBit_pteSetProt prot e (by simp)]
  rfl

theorem frameOf_pteSetProt (prot e : ℕ) : frameOf (pteSetProt prot e) = frameOf e := by
  rw [frameOf, frameOf]
  congr 1
  refine eq_of_testBit_eq fun i => ?_
  rw [testBit_div_two_pow, testBit_div_two_pow, testBit_mod_two_pow,
    testBit_mod_two_pow]
  by_cases hi : i + 12 < 52
  · rw [testBit_pteSetProt prot e (by omega), if_neg (by omega), if_neg (by omega),
      if_neg (by omega)]
  · simp [hi]

/-! ### The laws -/

/-- Bits 63 to 48 repeat bit 47. -/
def Canonical (va : ℕ) : Prop := va < 2 ^ 47 ∨ 2 ^ 64 - 2 ^ 47 ≤ va ∧ va < 2 ^ 64

/-- What unmapping a range should do. -/
def UnmapLaw (s : Phys) (r addr size : ℕ) : Prop :=
  ∃ n s', vmMunmapPtes n s r addr size = some (0, s') ∧ ∀ va, Canonical va →
    (addr ≤ va → va < addr + size → translate s'.mem r va = none) ∧
    (¬ (addr ≤ va ∧ va < addr + size) → translate s'.mem r va = translate s.mem r va)

/-- What protecting a range should do. -/
def ProtectLaw (prot : ℕ) (s : Phys) (r addr size : ℕ) : Prop :=
  ∃ n s', vmMprotectPtes prot n s r addr size = some (0, s') ∧ ∀ va, Canonical va →
    (addr ≤ va → va < addr + size → ∀ x, translate s.mem r va = some x →
      (translate s'.mem r va).map Prod.fst = some x.1 ∧ ∃ pt, OnWalk s'.mem r va 0 pt ∧
        isWritable (get s'.mem pt (idx va 0)) = (prot.testBit 0 && prot.testBit 1) ∧
        isNx (get s'.mem pt (idx va 0)) = !prot.testBit 2) ∧
    (¬ (addr ≤ va ∧ va < addr + size) → translate s'.mem r va = translate s.mem r va)

/-- The ranges for which the walk touches the pages that it should: it ends, and among the
translated addresses it reaches those of the range. -/
def Exact (s : Phys) (r addr size : ℕ) : Prop :=
  size = 0 ∨ addr + size ≤ 2 ^ 64 - 2 ^ 21 ∧
    ∀ va, Canonical va → (translate s.mem r va).isSome = true →
      (Touched s.mem r addr (addr + size) va ↔ addr ≤ va ∧ va < addr + size)

section Laws

variable {s s' : Phys} {r addr size prot va : ℕ} {D : ℕ → Prop}

theorem Done.translate_clear (h : Done pteClear r s D s') (hva : D va) :
    translate s'.mem r va = none := by
  cases hx : translate s.mem r va with
  | none => exact h.gone va hx
  | some x =>
    obtain ⟨pt, e, hv, hget, -⟩ := h.done va x hva hx
    have hfst := translate_of_onWalk hv
    rwa [hget, pteClear, if_neg (by decide), map_eq_none_iff] at hfst

theorem Done.translate_protect (h : Done (pteSetProt prot) r s D s') (hva : D va) {x : ℕ × Rights}
    (hx : translate s.mem r va = some x) :
    (translate s'.mem r va).map Prod.fst = some x.1 ∧ ∃ pt, OnWalk s'.mem r va 0 pt ∧
      isWritable (get s'.mem pt (idx va 0)) = (prot.testBit 0 && prot.testBit 1) ∧
      isNx (get s'.mem pt (idx va 0)) = !prot.testBit 2 := by
  obtain ⟨pt, e, hv, hget, -, hp, hfr⟩ := h.done va x hva hx
  refine ⟨?_, pt, hv, ?_, ?_⟩
  · rw [translate_of_onWalk hv, hget, if_pos (by rw [isPresent_pteSetProt]; exact hp),
      frameOf_pteSetProt, hfr]
  · rw [hget, isWritable, testBit_pteSetProt prot e (by simp)]
    rfl
  · rw [hget, isNx, testBit_pteSetProt prot e (by simp)]
    rfl

theorem translate_of_not_touched (h : Exact s r addr size) (hpos : size ≠ 0)
    {fn : ℕ → ℕ} (hd : Done fn r s (Touched s.mem r addr (addr + size)) s') (hva : Canonical va)
    (hout : ¬ (addr ≤ va ∧ va < addr + size)) : translate s'.mem r va = translate s.mem r va := by
  cases hx : translate s.mem r va with
  | none => exact hd.gone va hx
  | some x =>
    rw [← hx]
    refine hd.same va fun ht => hout ?_
    exact (((h.resolve_left hpos).2 va hva (by rw [hx]; rfl)).mp ht)

/-- **When unmapping and protecting do to the tables what they should**: for the ranges that are
`Exact`. -/
theorem range_laws_iff (ht : Tables s r) (ha : addr % 4096 = 0) (hs : size % 4096 = 0)
    (hlt : addr + size < 2 ^ 64)
    (hclear : ∀ n s', vmMunmapPtes n s r addr size ≠ some (-1, s'))
    (hprot : ∀ n s', vmMprotectPtes prot n s r addr size ≠ some (-1, s')) :
    UnmapLaw s r addr size ∧ ProtectLaw prot s r addr size ↔ Exact s r addr size := by
  by_cases hpos : size = 0
  · subst hpos
    refine ⟨fun _ => .inl rfl, fun _ => ⟨⟨0, s, rfl, fun va _ => ⟨fun h h' => by omega,
      fun _ => rfl⟩⟩, ⟨0, s, rfl, fun va _ => ⟨fun h h' => by omega, fun _ => rfl⟩⟩⟩⟩
  constructor
  · rintro ⟨⟨n, s', hrun, hlaw⟩, -⟩
    have hend : addr + size ≤ 2 ^ 64 - 2 ^ 21 := by
      by_contra hgt
      exact onRange_ne_zero hs hlt (by omega) hpos n s' hrun
    obtain ⟨n', s'', hrun', hd⟩ := onRange_done pteFn_pteClear ht ha hs hpos hend hclear
    obtain rfl : s'' = s' := congrArg Prod.snd (onRange_unique hs hpos hlt hrun' hrun)
    refine .inr ⟨hend, fun va hva hsome => ⟨fun htou => ?_, fun hin => ?_⟩⟩
    · by_contra hout
      rw [← (hlaw va hva).2 hout, hd.translate_clear htou] at hsome
      cases hsome
    · by_contra hnot
      rw [← hd.same va hnot, (hlaw va hva).1 hin.1 hin.2] at hsome
      cases hsome
  · intro hex
    obtain ⟨hend, hex'⟩ := hex.resolve_left hpos
    obtain ⟨n, s₁, hrun, hd⟩ := onRange_done pteFn_pteClear ht ha hs hpos hend hclear
    obtain ⟨n', s₂, hrun', hd'⟩ := onRange_done (pteFn_pteSetProt prot) ht ha hs hpos hend hprot
    refine ⟨⟨n, s₁, hrun, fun va hva => ⟨fun h1 h2 => ?_, fun hout => ?_⟩⟩,
      ⟨n', s₂, hrun', fun va hva => ⟨fun h1 h2 x hx => ?_, fun hout => ?_⟩⟩⟩
    · cases hx : translate s.mem r va with
      | none => exact hd.gone va hx
      | some x => exact hd.translate_clear ((hex' va hva (by rw [hx]; rfl)).mpr ⟨h1, h2⟩)
    · exact translate_of_not_touched hex hpos hd hva hout
    · exact hd'.translate_protect ((hex' va hva (by rw [hx]; rfl)).mpr ⟨h1, h2⟩) hx
    · exact translate_of_not_touched hex hpos hd' hva hout

theorem exact_of_user (hend : addr + size ≤ 2 ^ 47)
    (hclean : ∀ va, addr ≤ va → va < addr + size → Clean s.mem r va) (ha : addr % 4096 = 0)
    (hs : size % 4096 = 0) : Exact s r addr size := by
  refine .inr ⟨by omega, fun va hva _ => ⟨?_, fun h => ⟨hclean va h.1 h.2, va, h.1, h.2, rfl⟩⟩⟩
  rintro ⟨-, va', h1, h2, h3⟩
  rw [pageNo, pageNo] at h3
  rcases hva with hva | ⟨hva, hva'⟩
  · omega
  · omega

theorem onRange_no_fail {fn : ℕ → ℕ} (hs : size % 4096 = 0) (hpos : size ≠ 0)
    (hlt : addr + size < 2 ^ 64) (h : (onRange fn n s r addr size).map Prod.fst = some 0) (n' : ℕ)
    (s' : Phys) : onRange fn n' s r addr size ≠ some (-1, s') := by
  intro h'
  obtain ⟨x, hx, h0⟩ := map_eq_some_iff.mp h
  rw [onRange_unique hs hpos hlt hx h'] at h0
  omega

end Laws

/-! ### Ranges of a small tree -/

theorem smallTree_tables : Tables ⟨smallTree, [], false⟩ 0x1000 where
  root := by simp
  phys := smallTree_physical
  tree := smallTree_isTree
  giga ht _ := smallTree_giga ht
  nodup := List.nodup_nil
  pool := nofun

theorem smallTree_clean (va : ℕ) : Clean smallTree 0x1000 va := by
  intro l t t' hv _
  rw [get, smallTree_entry (Table.aligned hv.reach (by simp)) (idx va (l + 1)).2]
  split_ifs <;> norm_num

theorem range_laws_iff_smallTree :
    UnmapLaw ⟨smallTree, [], false⟩ 0x1000 0x200000 0x1000 ∧
      ProtectLaw 5 ⟨smallTree, [], false⟩ 0x1000 0x200000 0x1000 :=
  (range_laws_iff smallTree_tables (by simp) (by simp) (by simp)
    (onRange_no_fail (n := 2) (by simp) (by simp) (by simp) (by decide +kernel))
    (onRange_no_fail (n := 2) (by simp) (by simp) (by simp) (by decide +kernel))).mpr
    (exact_of_user (by simp) (fun va _ _ => smallTree_clean va) (by simp) (by simp))

/-- Unmapping a page outside the canonical addresses unmaps the page at `0x200000`. -/
theorem munmap_reaches_alias :
    (translate smallTree 0x1000 0x200000).isSome = true ∧
    (∃ n s', vmMunmapPtes n ⟨smallTree, [], false⟩ 0x1000 (2 ^ 48 + 0x200000) 0x1000 =
      some (0, s') ∧ translate s'.mem 0x1000 0x200000 = none) ∧
    ¬ UnmapLaw ⟨smallTree, [], false⟩ 0x1000 (2 ^ 48 + 0x200000) 0x1000 := by
  have hsome : (translate smallTree 0x1000 0x200000).isSome = true := by decide +kernel
  have hok : ∀ n s', onRange pteClear n ⟨smallTree, [], false⟩ 0x1000 (2 ^ 48 + 0x200000) 0x1000 ≠
      some (-1, s') :=
    onRange_no_fail (n := 2) (by simp) (by simp) (by simp) (by decide +kernel)
  obtain ⟨n, s', hs', hd⟩ := onRange_done pteFn_pteClear smallTree_tables (by simp)
    (by simp) (by simp) (by simp) hok
  have hnone : translate s'.mem 0x1000 0x200000 = none :=
    hd.translate_clear ⟨smallTree_clean _, 2 ^ 48 + 0x200000, le_rfl, by simp, by decide⟩
  refine ⟨hsome, ⟨n, s', hs', hnone⟩, ?_⟩
  rintro ⟨n', s'', hs'', hlaw⟩
  obtain rfl : s' = s'' :=
    congrArg Prod.snd (onRange_unique (by simp) (by simp) (by simp) hs' hs'')
  have hsame := (hlaw 0x200000 (.inl (by simp))).2 (by simp)
  rw [← hsame, hnone] at hsome
  cases hsome

end TipOS.Paging
