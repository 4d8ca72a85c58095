import TipOS.Paging.Leaf

/-!
# Mapping 2 MB

`map_2mb_in_pml4` of `mach_o.c` writes a 2 MB entry over whatever the page directory holds, and
`map_2mb_ensure` of `elf64.zig` makes the page directory first when there is none.  Both find the
directory below the PML4 they are given, whoever else uses it.

`MapsHuge` is what the two do when they succeed.
-/

namespace TipOS.Paging

open Lib Phys Nat

variable {va' x : ℕ}

/-! ### The two functions -/

/-- `(phys & ~0x1FFFFF) | 0x87`: present, writable, user, 2 MB. -/
def hugeEntry (pa : ℕ) : ℕ := hugeDown pa ||| 0x87

/-- `map_2mb_in_pml4`. -/
def map2mbInPml4 (s : Phys) (pml4 virt phys : ℕ) : ℤ × Phys :=
  let e4 := entry s.mem pml4 (pml4Idx virt)
  if isPresent e4 = false then (-1, s)
  else
    let e3 := entry s.mem (tableOf e4) (pdptIdx virt)
    if isPresent e3 = false then (-1, s)
    else (0, s.setEntry (tableOf e3) (pdIdx virt) (hugeEntry phys))

/-- `map_2mb_ensure`. -/
def map2mbEnsure (s : Phys) (pml4 virt phys : ℕ) : ℤ × Phys :=
  let e4 := entry s.mem pml4 (pml4Idx virt)
  if isPresent e4 = false then (-1, s)
  else
    let pdpt := tableOf e4
    match ensureTable s pdpt (pdptIdx virt) with
    | none => (-1, { s with oom := true })
    | some s =>
      (0, s.setEntry (tableOf (entry s.mem pdpt (pdptIdx virt))) (pdIdx virt) (hugeEntry phys))

/-! ### The entry -/

section Entry

variable (pa : ℕ)

theorem hugeEntry_eq : hugeEntry pa = hugeDown pa + 0x87 := by
  have h := two_pow_add_eq_or_of_lt (i := 21) (b := 0x87) (by simp) (pa / 2 ^ 21)
  rw [hugeEntry, hugeDown, mul_comm]
  exact h.symm

theorem isPresent_hugeEntry : isPresent (hugeEntry pa) := by
  simp only [hugeEntry_eq, hugeDown, isPresent, testBit_eq_decide_div_mod_eq, decide_eq_true_eq]
  omega

theorem isHuge_hugeEntry : isHuge (hugeEntry pa) := by
  simp only [hugeEntry_eq, hugeDown, isHuge, testBit_eq_decide_div_mod_eq, decide_eq_true_eq]
  omega

theorem hugeEntry_lt {pa : ℕ} (h : pa < 2 ^ 52) : hugeEntry pa < 2 ^ 64 := by
  rw [hugeEntry_eq, hugeDown]
  omega

theorem leafVal_hugeEntry {pa : ℕ} (hal : pa % 2 ^ 21 = 0) (h : pa < 2 ^ 52) (va : ℕ) :
    (leafVal va 1 (hugeEntry pa)).map Prod.fst = some (pa + va % 2 ^ 21) := by
  rw [leafVal, if_pos (isPresent_hugeEntry pa), Option.map_some, hugeEntry_eq, hugeDown]
  congr 2
  simp
  omega

end Entry

/-- The number of the 2 MB chunk of an address. -/
def chunkNo (va : ℕ) : ℕ := va / 2 ^ 21 % 2 ^ 27

theorem idx_eq_of_chunkNo {va l : ℕ} (h : chunkNo va = chunkNo va') (h1 : 1 ≤ l) (h3 : l ≤ 3) :
    idx va l = idx va' l := by
  rw [chunkNo, chunkNo] at h
  refine Fin.ext ?_
  simp only [idx]
  interval_cases l <;> norm_num <;> omega

/-! ### A write of a 2 MB entry -/

section Write

variable {s s' : Phys} {r pd va e : ℕ} {i : Fin 512}

/-- **A present 2 MB entry keeps the address space**, whatever it replaces. -/
theorem Space.writeHuge (h : Space s r) (ht : Table s.mem r 1 pd) (hlt : e < 2 ^ 64)
    (hp : isPresent e) (hh : isHuge e) : Space (s.setEntry pd i e) r := by
  have hw := setEntry_writes (m := s.mem) (i := i) (e := e) h.root (Table.aligned ht h.root)
  set s' := s.setEntry pd i e with hs'
  have hself : get s'.mem pd i = e := by
    rw [get, hs', setEntry_mem, entry_setEntry_self, mod_eq_of_lt hlt]
  have hnone : child 1 (get s'.mem pd i) = none := by
    rw [hself]
    exact child_of_huge (by simp) hh
  -- an entry is an old one or the new one, which is in a page directory
  have hold : ∀ {l t j}, Table s'.mem r l t → Table s.mem r l t ∧
      (get s'.mem t j = get s.mem t j ∨ l = 1 ∧ get s'.mem t j = e) := by
    intro l t j ht'
    have hr := ht'.of_leaf hw h.tree ht hnone
    refine ⟨hr, ?_⟩
    by_cases hx : t = pd ∧ j = i
    · obtain ⟨rfl, rfl⟩ := hx
      exact .inr ⟨h.tree.level hr ht, hself⟩
    · exact .inl (hw _ _ _ hr (not_and_or.mp hx))
  refine ⟨h.root, h.tree.leaf hw ht hnone, fun {l t t' j} ht' hc => ?_, fun {t j} ht' hp' => ?_,
    fun {t j} ht' hh' => ?_, h.nodup, fun f hf => ?_⟩
  · obtain ⟨hr, he | ⟨hl, he⟩⟩ := hold (j := j) ht'
    · rw [he] at hc ⊢
      exact h.low hr hc
    · rw [he, child_of_huge (by omega) hh] at hc
      cases hc
  · obtain ⟨hr, he | ⟨hl, -⟩⟩ := hold (j := j) ht'
    · rw [he] at hp' ⊢
      exact h.giga hr hp'
    · exact absurd hl (by simp)
  · obtain ⟨hr, he | ⟨-, he⟩⟩ := hold (j := j) ht'
    · rw [he] at hh' ⊢
      exact h.huge hr hh'
    · rw [he]
      exact hp
  · have hf' := h.pool f hf
    exact ⟨hf'.aligned, hf'.low, fun l hl => hf'.table l (hold (j := i) hl).1⟩

theorem leaf_writeHuge_self (h : Space s r) (hv : OnWalk s.mem r va 1 pd) (hlt : e < 2 ^ 64)
    (hp : isPresent e) (hh : isHuge e) (hva : chunkNo va' = chunkNo va) :
    leaf (s.setEntry pd (idx va 1) e).mem r va' = some (1, e) := by
  have hw := setEntry_writes (m := s.mem) (i := idx va 1) (e := e) h.root
    (Table.aligned hv.reach h.root)
  have hv' : OnWalk s.mem r va' 1 pd :=
    OnWalk.of_idx hv fun l hl hl' => idx_eq_of_chunkNo hva.symm (by omega) hl'
  have hself : get (setEntry s.mem pd (idx va 1) e) pd (idx va' 1) = e := by
    rw [idx_eq_of_chunkNo hva le_rfl (by simp), get, entry_setEntry_self, mod_eq_of_lt hlt]
  have hleaf := leaf_huge ((hw.visits_iff h.tree hv.reach le_rfl).mpr hv') (by rw [hself]; exact hp)
    (by rw [hself]; exact hh)
  rw [hself] at hleaf
  exact hleaf

theorem leaf_writeHuge_of_ne (h : Space s r) (hv : OnWalk s.mem r va 1 pd)
    (hva : chunkNo va' ≠ chunkNo va) :
    leaf (s.setEntry pd (idx va 1) e).mem r va' = leaf s.mem r va' := by
  refine leaf_write (setEntry_writes h.root (Table.aligned hv.reach h.root)) h.tree hv.reach
    fun hv' hi => absurd (chunk_eq_of_idx fun l h1 hl => ?_) hva
  rcases lt_or_eq_of_le h1 with hpos | rfl
  · exact h.tree.key_eq hv' hv hpos hl
  · exact hi

end Write

/-! ### What the functions do -/

section Ensure

variable {s s₁ : Phys} {r l t : ℕ} {i : Fin 512}

theorem ensureTable_table (h : Space s r) (ht : Table s.mem r (l + 1) t)
    (he : ensureTable s t i = some s₁) {l' t' : ℕ} (ht' : Table s₁.mem r l' t') :
    Table s.mem r l' t' ∨ t' ∈ s.pool := by
  rcases ensureTable_cases he with ⟨-, rfl⟩ | ⟨-, f, pool, hpool, rfl⟩
  · exact .inl ht'
  have hmem : f ∈ s.pool := head_mem hpool
  have hf := h.pool f hmem
  rcases table_of_link (linkFrame_writes pool h.root ht hf) (linkFrame_self pool hf) ht hf
    (fun j => .inr (linkFrame_entry pool h.root ht hf j)) h.tree ht' with hr | ⟨-, rfl⟩
  · exact .inl hr
  · exact .inr hmem

theorem ensureTable_apply (h : Space s r) (ht : t % 4096 = 0) (he : ensureTable s t i = some s₁)
    (hx : x / 4096 * 4096 ≠ t) (hpool : x / 4096 * 4096 ∉ s.pool) : s₁.mem x = s.mem x := by
  rcases ensureTable_cases he with ⟨-, rfl⟩ | ⟨-, f, pool, hp, rfl⟩
  · rfl
  · have hmem : f ∈ s.pool := by rw [hp]; exact .head _
    rw [linkFrame, setEntry_mem, setEntry_apply_of_ne ht i.2 hx]
    exact fill_apply_of_ne (h.pool f hmem).aligned fun h' => hpool (h' ▸ hmem)

end Ensure

/-- **What both do when they succeed**: the page directory is made where it is missing, and its
entry is written. -/
structure MapsHuge (s : Phys) (r va pa pdpt pd : ℕ) (s₁ s' : Phys) : Prop where
  on_pdpt : OnWalk s.mem r va 2 pdpt
  made : ensureTable s pdpt (idx va 2) = some s₁
  on_pd : OnWalk s₁.mem r va 1 pd
  eq : s' = s₁.setEntry pd (idx va 1) (hugeEntry pa)

section Maps

variable {s s₁ s' : Phys} {r va pa pdpt pd : ℕ}

theorem map2mbEnsure_maps (h : Space s r) (hok : (map2mbEnsure s r va pa).1 = 0) :
    ∃ pdpt pd s₁, MapsHuge s r va pa pdpt pd s₁ (map2mbEnsure s r va pa).2 := by
  unfold map2mbEnsure at hok ⊢
  dsimp only at hok ⊢
  split at hok
  · exact absurd hok (show (-1 : ℤ) ≠ 0 by decide)
  next hp4 =>
  have hp4 := eq_true_of_ne_false hp4
  have hv2 := h.next .root hp4 (fun h2 => absurd h2 (lt_irrefl 2))
  rw [if_neg (by assumption)]
  split at hok
  · exact absurd hok (show (-1 : ℤ) ≠ 0 by decide)
  · next s₁ he =>
    obtain ⟨g, hv, hp⟩ := ensureTable_grown h hv2 he
    exact ⟨_, _, s₁, hv2, he, g.space.next hv hp fun _ => g.space.giga hv.reach hp, rfl⟩

theorem map2mbInPml4_maps (h : Space s r) (hok : (map2mbInPml4 s r va pa).1 = 0) :
    ∃ pdpt pd, MapsHuge s r va pa pdpt pd s (map2mbInPml4 s r va pa).2 := by
  unfold map2mbInPml4 at hok ⊢
  dsimp only at hok ⊢
  split at hok
  · exact absurd hok (show (-1 : ℤ) ≠ 0 by decide)
  next hp4 =>
  have hp4 := eq_true_of_ne_false hp4
  have hv2 := h.next .root hp4 (fun h2 => absurd h2 (lt_irrefl 2))
  rw [if_neg (by assumption)]
  split at hok
  · exact absurd hok (show (-1 : ℤ) ≠ 0 by decide)
  next hp3 =>
  rw [if_neg hp3]
  have hp3 := eq_true_of_ne_false hp3
  exact ⟨_, _, hv2, ensureTable_present hp3,
    h.next hv2 hp3 fun _ => h.giga hv2.reach hp3, rfl⟩

namespace MapsHuge

section

variable (hm : MapsHuge s r va pa pdpt pd s₁ s')

include hm

section

variable (h : Space s r)

include h

theorem grown : Grown s s₁ r :=
  (ensureTable_grown h hm.on_pdpt hm.made).1

theorem space (hpa : pa < 2 ^ 52) :
    Space s' r := by
  rw [hm.eq]
  exact (hm.grown h).space.writeHuge hm.on_pd.reach (hugeEntry_lt hpa) (isPresent_hugeEntry pa)
    (isHuge_hugeEntry pa)

theorem pool :
    ∀ f ∈ s'.pool, f ∈ s.pool := by
  rw [hm.eq]
  exact (hm.grown h).pool

theorem leaf_self (hpa : pa < 2 ^ 52) (hva : chunkNo va' = chunkNo va) :
    leaf s'.mem r va' = some (1, hugeEntry pa) := by
  rw [hm.eq]
  exact leaf_writeHuge_self (hm.grown h).space hm.on_pd (hugeEntry_lt hpa) (isPresent_hugeEntry pa)
    (isHuge_hugeEntry pa) hva

theorem leaf_of_ne (hva : chunkNo va' ≠ chunkNo va) :
    leaf s'.mem r va' = leaf s.mem r va' := by
  rw [hm.eq, leaf_writeHuge_of_ne (hm.grown h).space hm.on_pd hva]
  rcases ensureTable_cases hm.made with ⟨-, rfl⟩ | ⟨hp, f, pool, hpool, rfl⟩
  · rfl
  · exact linkFrame_leaf pool h.root h.tree hm.on_pdpt.reach
      (h.pool f (head_mem hpool)) hp va'

theorem table_cases (hpa : pa < 2 ^ 52) {l t : ℕ} (ht : Table s'.mem r l t) :
    Table s.mem r l t ∨ t ∈ s.pool := by
  have hg := (hm.grown h).space
  have ht1 : Table s₁.mem r l t := by
    rw [hm.eq] at ht
    refine ht.of_leaf (setEntry_writes hg.root (Table.aligned hm.on_pd.reach hg.root)) hg.tree
      hm.on_pd.reach ?_
    rw [get, setEntry_mem, entry_setEntry_self, mod_eq_of_lt (hugeEntry_lt hpa)]
    exact child_of_huge (by simp) (isHuge_hugeEntry pa)
  exact ensureTable_table h hm.on_pdpt.reach hm.made ht1

theorem pd_cases :
    Table s.mem r 1 pd ∨ pd ∈ s.pool :=
  ensureTable_table h hm.on_pdpt.reach hm.made hm.on_pd.reach

theorem ne_pd {l t : ℕ} (ht : Table s.mem r l t) (hl : l ≠ 1) : t ≠ pd := by
  rintro rfl
  rcases hm.pd_cases h with ht' | hf
  · exact hl (h.tree.level ht ht')
  · exact (h.pool t hf).table l ht

theorem get_eq {l t : ℕ} {i : Fin 512} (ht : Table s.mem r l t) (hl : l ≠ 1)
    (hx : t ≠ pdpt ∨ i ≠ idx va 2) :
    get s'.mem t i = get s.mem t i := by
  have hset : get s'.mem t i = get s₁.mem t i := by
    rw [hm.eq]
    exact entry_setEntry_of_ne (Table.aligned hm.on_pd.reach h.root) (Table.aligned ht h.root)
      (Fin.is_lt _) i.2 (.inl (hm.ne_pd h ht hl))
  rw [hset]
  rcases ensureTable_cases hm.made with ⟨-, he⟩ | ⟨-, f, pool, hpool, he⟩
  · rw [he]
  · rw [he]
    exact linkFrame_writes pool h.root hm.on_pdpt.reach
      (h.pool f (head_mem hpool)) l t i ht hx

theorem get_pdpt :
    (get s'.mem pdpt (idx va 2) = get s.mem pdpt (idx va 2) ∧
      child 2 (get s.mem pdpt (idx va 2)) = some pd) ∨
    (isPresent (get s.mem pdpt (idx va 2)) = false ∧ pd ∈ s.pool ∧
      get s'.mem pdpt (idx va 2) = pd + 7) := by
  have hne : pdpt ≠ pd := hm.ne_pd h hm.on_pdpt.reach (by simp)
  have hset : get s'.mem pdpt (idx va 2) = get s₁.mem pdpt (idx va 2) := by
    rw [hm.eq]
    exact entry_setEntry_of_ne (Table.aligned hm.on_pd.reach h.root)
      (Table.aligned hm.on_pdpt.reach h.root) (Fin.is_lt _) (Fin.is_lt _) (.inl hne)
  have hchild : child 2 (get s₁.mem pdpt (idx va 2)) = some pd := by
    have hon := (ensureTable_grown h hm.on_pdpt hm.made).2.1
    cases hm.on_pd with
    | down hv hc =>
      rwa [hv.unique hon] at hc
  rw [hset]
  rcases ensureTable_cases hm.made with ⟨-, he⟩ | ⟨hp, f, pool, hpool, he⟩
  · rw [he] at hchild ⊢
    exact .inl ⟨rfl, hchild⟩
  have hmem : f ∈ s.pool := head_mem hpool
  have hf := h.pool f hmem
  have hself : get s₁.mem pdpt (idx va 2) = f + 7 := by
    rw [he]
    exact linkFrame_self pool hf
  have hpd : f = pd := by
    rw [hself, child_pointer hf.aligned hf.low] at hchild
    exact Option.some.inj hchild
  rw [hself, ← hpd]
  exact .inr ⟨hp, hmem, rfl⟩

theorem apply_of_ne (h2 : x / 4096 * 4096 ≠ pdpt) (h1 : x / 4096 * 4096 ≠ pd)
    (hx : x / 4096 * 4096 ∉ s.pool) :
    s'.mem x = s.mem x := by
  rw [hm.eq, setEntry_mem,
    setEntry_apply_of_ne (Table.aligned hm.on_pd.reach h.root) (Fin.is_lt _) h1]
  exact ensureTable_apply h (Table.aligned hm.on_pdpt.reach h.root) hm.made h2 hx

theorem same (ht : ∀ l, ¬ Table s.mem r l (x / 4096 * 4096)) (hx : x / 4096 * 4096 ∉ s.pool) :
    s'.mem x = s.mem x := by
  refine hm.apply_of_ne h (fun h' => ht 2 (h' ▸ hm.on_pdpt.reach)) (fun h' => ?_) hx
  rcases hm.pd_cases h with ht' | hf
  · exact ht 1 (h' ▸ ht')
  · exact hx (h' ▸ hf)

end

end

end MapsHuge

end Maps

end TipOS.Paging
