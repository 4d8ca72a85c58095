import TipOS.Loader.Blocks
import TipOS.Loader.Clone

/-!
# The tables of a new program beside those of its creator

The tables that `clone_identity_tables` makes are a copy of a part of the creator's: the new PML4,
PDPT and page directory stand over the old ones (`origin`), and what is below their other entries is
the creator's own.  So the clone is an address space as the kernel builds them (`Cloned.space`).
-/

namespace TipOS.Loader

open Lib Paging List

/-! ### The clone is an address space -/

/-- The table of the creator that a table of the clone stands over. -/
def origin (m : Mem) (p c pdp pd t : ℕ) : ℕ :=
  if t = c then p else if t = pdp then pdptOf m p else if t = pd then pdOf m p else t

section Origin

variable {s s' : Phys} {p c pdp pd l t t' : ℕ} {i : Fin 512}

/-- The three new frames. -/
structure NewFrames (s : Phys) (p c pdp pd : ℕ) : Prop where
  free : ∀ f ∈ [pd, pdp, c], FreeFrame s.mem p f
  ne_pdp : c ≠ pdp
  ne_pd : c ≠ pd
  pdp_ne : pdp ≠ pd

theorem Cloned.newFrames (hcl : Cloned s s' p c pdp pd) (h : Space s p) :
    NewFrames s p c pdp pd := by
  have hnd := h.nodup
  rw [hcl.pool] at hnd
  simp only [nodup_cons, mem_cons, not_or] at hnd
  exact ⟨fun f hf => h.pool f (hcl.mem_pool hf), fun he => hnd.2.1.1 he.symm,
    fun he => hnd.1.2.1 he.symm, fun he => hnd.1.1 he.symm⟩

theorem NewFrames.origin_table (hn : NewFrames s p c pdp pd) (ht : Table s.mem p l t) :
    origin s.mem p c pdp pd t = t := by
  have hne : ∀ f ∈ [pd, pdp, c], t ≠ f := fun f hf he => (hn.free f hf).table l (he ▸ ht)
  rw [origin, if_neg (hne c (by simp)), if_neg (hne pdp (by simp)), if_neg (hne pd (by simp))]

theorem NewFrames.origin_c : origin s.mem p c pdp pd c = p := if_pos rfl

theorem NewFrames.origin_pdp (hn : NewFrames s p c pdp pd) :
    origin s.mem p c pdp pd pdp = pdptOf s.mem p := by
  rw [origin, if_neg hn.ne_pdp.symm, if_pos rfl]

theorem NewFrames.origin_pd (hn : NewFrames s p c pdp pd) :
    origin s.mem p c pdp pd pd = pdOf s.mem p := by
  rw [origin, if_neg hn.ne_pd.symm, if_neg hn.pdp_ne.symm, if_pos rfl]

/-- **The entries of the clone** are the pointers to the new tables, the page directory of the first
GB, and otherwise those of the creator. -/
theorem Cloned.get_cases (hcl : Cloned s s' p c pdp pd) (h : Creator s p) (i : Fin 512)
    (ht : Table s.mem p l (origin s.mem p c pdp pd t)) :
    (t = c ∧ i = 0 ∧ l = 3 ∧ get s'.mem t i = pdp + 7) ∨
    (t = pdp ∧ i = 0 ∧ l = 2 ∧ get s'.mem t i = pd + 7) ∨
    (t = pd ∧ l = 1 ∧ get s'.mem t i = cloneEntry (get s.mem (pdOf s.mem p) i)) ∨
    get s'.mem t i = get s.mem (origin s.mem p c pdp pd t) i := by
  have hn := hcl.newFrames h.toSpace
  have hi : i ≠ 0 → (i : ℕ) ≠ 0 := fun hne he => hne (Fin.ext he)
  by_cases htc : t = c
  · subst htc
    rw [NewFrames.origin_c] at ht ⊢
    by_cases h0 : i = 0
    · subst h0
      exact .inl ⟨rfl, rfl, h.tree.level ht .root, hcl.root_zero⟩
    · exact .inr (.inr (.inr (hcl.root_succ i i.2 (hi h0))))
  by_cases htp : t = pdp
  · subst htp
    rw [hn.origin_pdp] at ht ⊢
    by_cases h0 : i = 0
    · subst h0
      exact .inr (.inl ⟨rfl, rfl, h.tree.level ht h.pdpt_table, hcl.pdp_zero⟩)
    · exact .inr (.inr (.inr (hcl.pdp_succ i i.2 (hi h0))))
  by_cases htd : t = pd
  · subst htd
    rw [hn.origin_pd] at ht
    exact .inr (.inr (.inl ⟨rfl, h.tree.level ht h.pd_table, hcl.pd_entry i i.2⟩))
  have ho : origin s.mem p c pdp pd t = t := by
    rw [origin, if_neg htc, if_neg htp, if_neg htd]
  rw [ho] at ht ⊢
  exact .inr (.inr (.inr (hcl.entry_eq h ht i.2)))

theorem child_cloneEntry (e : ℕ) : child 1 (cloneEntry e) = none := by
  by_cases hh : isHuge e
  · exact child_of_huge (by simp) (by rw [isHuge_cloneEntry, hh])
  · refine child_of_absent ?_
    rw [isPresent_cloneEntry, Bool.eq_false_iff.mpr hh, Bool.false_and]

section

variable (hcl : Cloned s s' p c pdp pd)

include hcl

/-- **A step down in the clone is a step down in the creator.** -/
theorem Cloned.step (h : Creator s p) (ht : Table s.mem p (l + 1) (origin s.mem p c pdp pd t))
    (hchild : child (l + 1) (get s'.mem t i) = some t') :
    child (l + 1) (get s.mem (origin s.mem p c pdp pd t) i) = some (origin s.mem p c pdp pd t') := by
  have hn := hcl.newFrames h.toSpace
  rcases hcl.get_cases h i ht with ⟨rfl, rfl, hl, -⟩ | ⟨rfl, rfl, hl, -⟩ | ⟨rfl, hl, he⟩ | he
  · obtain rfl : l = 2 := Nat.succ.inj hl
    cases hchild.symm.trans (hcl.root_child h)
    rw [NewFrames.origin_c, hn.origin_pdp]
    exact h.pdpt_child
  · obtain rfl : l = 1 := Nat.succ.inj hl
    cases hchild.symm.trans (hcl.pdp_child h)
    rw [hn.origin_pdp, hn.origin_pd]
    exact h.pd_child
  · obtain rfl : l = 0 := Nat.succ.inj hl
    rw [he, child_cloneEntry] at hchild
    cases hchild
  · rw [he] at hchild
    rw [hchild, hn.origin_table (.down ht hchild)]

theorem Cloned.table (h : Creator s p) (ht : Table s'.mem c l t) :
    Table s.mem p l (origin s.mem p c pdp pd t) :=
  ht.map _ NewFrames.origin_c fun _ ht' hc => hcl.step h ht' hc

theorem Cloned.not_copied (h : Creator s p) (ht : Table s'.mem c l t) :
    t ≠ p ∧ t ≠ pdptOf s.mem p ∧ t ≠ pdOf s.mem p := by
  have hn := hcl.newFrames h.toSpace
  have hold : ∀ {l0 x}, Table s.mem p l0 x → x ≠ c ∧ x ≠ pdp ∧ x ≠ pd := fun hx =>
    ⟨fun he => (hn.free c (by simp)).table _ (he ▸ hx),
      fun he => (hn.free pdp (by simp)).table _ (he ▸ hx),
      fun he => (hn.free pd (by simp)).table _ (he ▸ hx)⟩
  -- only the root of the clone stands over the root, and so on
  have hroot : ∀ {x}, Table s'.mem c 3 x → x = c := by
    intro x hx
    cases hx with
    | root => rfl
    | down hr _ => exact absurd hr.le (by simp)
  have hpdpt : ∀ {x}, Table s'.mem c 2 x → origin s.mem p c pdp pd x = pdptOf s.mem p → x = pdp := by
    intro x hx ho
    cases hx with
    | @down _ n _ j hr hc =>
      have hstep := hcl.step h (hcl.table h hr) hc
      rw [ho] at hstep
      obtain ⟨-, rfl⟩ := h.tree.parent (hcl.table h hr) hstep .root h.pdpt_child
      obtain rfl := hroot hr
      exact Option.some.inj (hc.symm.trans (hcl.root_child h))
  have ho := hcl.table h ht
  refine ⟨?_, ?_, ?_⟩
  · rintro rfl
    rw [hn.origin_table .root] at ho
    obtain rfl := h.tree.level ho .root
    exact (hold .root).1 (hroot ht)
  · rintro rfl
    have heq := hn.origin_table h.pdpt_table
    rw [heq] at ho
    obtain rfl := h.tree.level ho h.pdpt_table
    exact (hold h.pdpt_table).2.1 (hpdpt ht heq)
  rintro rfl
  have heq := hn.origin_table h.pd_table
  rw [heq] at ho
  obtain rfl := h.tree.level ho h.pd_table
  cases ht with
  | @down _ n _ j hr hc =>
    have hstep := hcl.step h (hcl.table h hr) hc
    rw [heq] at hstep
    obtain ⟨hnn, rfl⟩ := h.tree.parent (hcl.table h hr) hstep h.pdpt_table h.pd_child
    obtain rfl := hpdpt hr hnn
    exact (hold h.pd_table).2.2 (Option.some.inj (hc.symm.trans (hcl.pdp_child h)))

theorem Cloned.origin_inj (h : Creator s p) {l' : ℕ} (ht : Table s'.mem c l t)
    (ht' : Table s'.mem c l' t') (he : origin s.mem p c pdp pd t = origin s.mem p c pdp pd t') :
    t = t' := by
  have h32 : p ≠ pdptOf s.mem p := fun hx =>
    absurd (h.tree.level (hx ▸ .root : Table s.mem p 3 (pdptOf s.mem p)) h.pdpt_table) (by simp)
  have h31 : p ≠ pdOf s.mem p := fun hx =>
    absurd (h.tree.level (hx ▸ .root : Table s.mem p 3 (pdOf s.mem p)) h.pd_table) (by simp)
  have h21 : pdptOf s.mem p ≠ pdOf s.mem p := fun hx =>
    absurd (h.tree.level h.pdpt_table (hx ▸ h.pd_table)) (by simp)
  obtain ⟨a1, a2, a3⟩ := hcl.not_copied h ht
  obtain ⟨b1, b2, b3⟩ := hcl.not_copied h ht'
  rw [origin, origin] at he
  split_ifs at he <;> omega

/-- **The clone is an address space as the kernel builds them.** -/
theorem Cloned.space (h : Creator s p) : Space s' c := by
  have hn := hcl.newFrames h.toSpace
  have hfc := hn.free c (by simp)
  have hfpdp := hn.free pdp (by simp)
  have hfpd := hn.free pd (by simp)
  have hnd := h.nodup
  rw [hcl.pool] at hnd
  refine ⟨hfc.aligned, ?_, fun {l t t' i} ht hchild => ?_, fun {t i} ht hpres => ?_,
    fun {t i} ht hhuge => ?_, ?_, ?_⟩
  · exact h.tree.of_copy _ NewFrames.origin_c (fun _ ht' hc => hcl.step h ht' hc)
      fun ht ht' he => hcl.origin_inj h ht ht' he
  · have ho := hcl.table h ht
    have hlt : ∀ {f}, FreeFrame s.mem p f → f + 7 < 2 ^ 52 := fun hf => by
      have h1 := hf.aligned
      have h2 := hf.low
      omega
    rcases hcl.get_cases h i ho with ⟨-, -, -, he⟩ | ⟨-, -, -, he⟩ | ⟨-, hl, he⟩ | he
    · rw [he]
      exact hlt hfpdp
    · rw [he]
      exact hlt hfpd
    · obtain rfl : l = 0 := Nat.succ.inj hl
      rw [he, child_cloneEntry] at hchild
      cases hchild
    · rw [he] at hchild ⊢
      exact h.low ho hchild
  · have ho := hcl.table h ht
    rcases hcl.get_cases h i ho with ⟨-, -, hl, -⟩ | ⟨-, -, -, he⟩ | ⟨-, hl, -⟩ | he
    · exact absurd hl (by simp)
    · rw [he]
      exact isHuge_pointer hfpd.aligned
    · exact absurd hl (by simp)
    · rw [he] at hpres ⊢
      exact h.giga ho hpres
  · have ho := hcl.table h ht
    rcases hcl.get_cases h i ho with ⟨-, -, hl, -⟩ | ⟨-, -, hl, -⟩ | ⟨-, -, he⟩ | he
    · exact absurd hl (by simp)
    · exact absurd hl (by simp)
    · rw [he, isHuge_cloneEntry] at hhuge
      rw [he, isPresent_cloneEntry, hhuge, Bool.true_and]
      exact h.huge h.pd_table hhuge
    · rw [he] at hhuge ⊢
      exact h.huge ho hhuge
  · exact ((nodup_cons.mp (nodup_cons.mp (nodup_cons.mp hnd).2).2).2)
  intro f hf
  have hfree := h.pool f (hcl.pool_sub hf)
  refine ⟨hfree.aligned, hfree.low, fun l ht => ?_⟩
  simp only [nodup_cons, mem_cons, not_or] at hnd
  have hne : f ≠ c ∧ f ≠ pdp ∧ f ≠ pd :=
    ⟨fun he => hnd.2.2.1 (he ▸ hf), fun he => hnd.2.1.2 (he ▸ hf), fun he => hnd.1.2.2 (he ▸ hf)⟩
  have ho := hcl.table h ht
  rw [origin, if_neg hne.1, if_neg hne.2.1, if_neg hne.2.2] at ho
  exact hfree.table l ho

end

end Origin

/-! ### The two address spaces side by side -/

/-- The address is reached through a table that the clone has in common with the creator. -/
def Shares (m : Mem) (p va : ℕ) : Prop :=
  pml4Idx va ≠ 0 ∨
    pdptIdx va ≠ 0 ∧ isPresent (entry m (pdptOf m p) (pdptIdx va)) = true

/-- **The tables of the program and of its creator while the program is loaded.**  `s` is the state
before the clone and `s₁` the state after it.  The PML4 and the PDPT of the first 512 GB stay what
they were, but for new page directories in the PDPT of the program. -/
structure Family (s s₁ : Phys) (p c pdp : ℕ) (t : Phys) : Prop where
  space : Space t c
  pool : ∀ f ∈ t.pool, f ∈ s₁.pool
  tables : ∀ {l x : ℕ}, Table t.mem c l x → Table s₁.mem c l x ∨ x ∈ s₁.pool
  root : ∀ i, get t.mem c i = get s₁.mem c i
  pdpt : ∀ i, get t.mem pdp i = get s₁.mem pdp i ∨
    isPresent (get s₁.mem pdp i) = false ∧ ∃ f ∈ s₁.pool, get t.mem pdp i = f + 7
  creator : ∀ x, x / 4096 * 4096 = p ∨ x / 4096 * 4096 = pdptOf s.mem p → t.mem x = s.mem x

/-- Only memory that was free is written. -/
def Kept (s : Load) (t : Phys) : Prop :=
  ∀ x, x / 4096 * 4096 ∉ s.phys.pool → (∀ b ∈ s.blocks, hugeDown x ≠ b) → t.mem x = s.phys.mem x

section Family

variable {s s₁ t t₁ t' : Phys} {p c pdp pd va pa pdpt' pd' b : ℕ}

theorem Cloned.family (hcl : Cloned s s₁ p c pdp pd) (h : Creator s p) :
    Family s s₁ p c pdp s₁ where
  space := hcl.space h
  pool _ hf := hf
  tables ht := .inl ht
  root _ := rfl
  pdpt _ := .inl rfl
  creator x hx := by
    refine hcl.same x fun hf => ?_
    have hfree := h.pool _ (hcl.mem_pool hf)
    rcases hx with hx | hx
    · exact hfree.table 3 (hx ▸ .root)
    · exact hfree.table 2 (hx ▸ h.pdpt_table)

section

variable (hf : Family s s₁ p c pdp t)

include hf

section

variable (hcl : Cloned s s₁ p c pdp pd)

include hcl

section

variable (h : Creator s p)

include h

theorem Family.pdpt_child :
    child 3 (get t.mem c 0) = some pdp := by
  rw [hf.root, hcl.root_child h]

theorem Family.pdpt_table :
    Table t.mem c 2 pdp :=
  .down .root (hf.pdpt_child hcl h)

theorem Family.setMem {m' : Mem} (hap : Apart t c b) (hp : Apart s p b)
    (hm : ∀ x, hugeDown x ≠ b → m' x = t.mem x) :
    Family s s₁ p c pdp { t with mem := m' } := by
  have hsame : SameTables t.mem m' c := hap.sameTables hm
  have hroot := hf.space.root
  refine ⟨hsame.space hf.space rfl, hf.pool, fun ht => hf.tables ((hsame.table_iff hroot).mp ht),
    fun i => ?_, fun i => ?_, fun x hx => ?_⟩
  · rw [← hf.root i]
    exact hsame.get_eq hroot 3 c i .root
  · have he := hsame.get_eq hroot 2 pdp i (hf.pdpt_table hcl h)
    rw [he]
    exact hf.pdpt i
  · refine (hm x ?_).trans (hf.creator x hx)
    rw [← hugeDown_page]
    rcases hx with hx | hx
    · rw [hx]
      exact hp.table 3 p .root
    · rw [hx]
      exact hp.table 2 _ h.pdpt_table

/-- **A mapping for the program** leaves the two upper tables of the creator alone. -/
theorem Family.maps (hm : MapsHuge t c va pa pdpt' pd' t₁ t') (hpa : pa < 2 ^ 52) :
    Family s s₁ p c pdp t' := by
  have hs := hf.space
  refine ⟨hm.space hs hpa, fun f hf' => hf.pool f (hm.pool hs f hf'), fun ht => ?_, fun i => ?_,
    fun i => ?_, fun x hx => ?_⟩
  · rcases hm.table_cases hs hpa ht with ht' | hf'
    · exact hf.tables ht'
    · exact .inr (hf.pool _ hf')
  · refine (hm.get_eq hs .root (by simp) (.inl ?_)).trans (hf.root i)
    rintro rfl
    exact absurd (hs.tree.level .root hm.on_pdpt.reach) (by simp)
  · by_cases hx : pdp = pdpt' ∧ i = idx va 2
    · obtain ⟨rfl, rfl⟩ := hx
      rcases hm.get_pdpt hs with ⟨he, -⟩ | ⟨hp, hmem, he⟩
      · rw [he]
        exact hf.pdpt _
      -- a new page directory
      refine .inr ⟨?_, pd', hf.pool _ hmem, he⟩
      rcases hf.pdpt (idx va 2) with he' | ⟨hp', -⟩
      · rw [he'] at hp
        exact hp
      · exact hp'
    · rw [hm.get_eq hs (hf.pdpt_table hcl h) (by simp) (not_and_or.mp hx)]
      exact hf.pdpt i
  · -- the two tables are not the program's
    rw [← hf.creator x hx]
    have hnot : ∀ {l}, ¬ Table s₁.mem c l (x / 4096 * 4096) := fun ht => by
      obtain ⟨h3, h2, -⟩ := hcl.not_copied h ht
      exact hx.elim h3 h2
    have hpool : x / 4096 * 4096 ∉ s₁.pool := fun hmem => by
      have hfree := h.pool _ (hcl.pool_sub hmem)
      rcases hx with hx | hx
      · exact hfree.table 3 (hx ▸ .root)
      · exact hfree.table 2 (hx ▸ h.pdpt_table)
    exact hm.same hs (fun l ht => (hf.tables ht).elim hnot hpool) fun hmem => hpool (hf.pool _ hmem)

/-- **The page directory of an address that is not shared was free.** -/
theorem Family.own_tables (hm : MapsHuge t c va pa pdpt' pd' t₁ t') (hva : ¬ Shares s.mem p va) :
    pdpt' = pdp ∧ pd' ∈ s.pool := by
  obtain ⟨h4, h3⟩ := not_or.mp hva
  have hi3 : idx va 3 = 0 := Fin.ext (not_not.mp h4)
  have hpdpt : pdpt' = pdp := by
    have hon : OnWalk t.mem c va 2 pdp := .down .root (by rw [hi3]; exact hf.pdpt_child hcl h)
    exact hm.on_pdpt.unique hon
  subst hpdpt
  refine ⟨rfl, ?_⟩
  rcases hm.get_pdpt hf.space with ⟨-, hc⟩ | ⟨-, hmem, -⟩
  · rcases hf.pdpt (idx va 2) with he | ⟨-, f, hmem, he⟩
    · by_cases h0 : idx va 2 = 0
      · -- the page directory of the first GB
        rw [he, h0] at hc
        cases hc.symm.trans (hcl.pdp_child h)
        exact hcl.mem_pool (by simp)
      · -- the creator has no page directory there
        have hne : pdptIdx va ≠ 0 := fun hx => h0 (Fin.ext hx)
        have hsucc : get s₁.mem pdpt' (idx va 2) = entry s.mem (pdptOf s.mem p) (pdptIdx va) :=
          hcl.pdp_succ _ (pdptIdx_lt va) hne
        rw [he, hsucc] at hc
        exact absurd ⟨hne, (child_eq_some hc).1⟩ h3
    · have hfree := h.pool f (hcl.pool_sub hmem)
      rw [he, child_pointer hfree.aligned hfree.low] at hc
      cases hc
      exact hcl.pool_sub hmem
  · exact hcl.pool_sub (hf.pool _ hmem)

/-- **What is shared is shared**: the creator finds at such an address what the program finds. -/
theorem Family.leaf_shared (hva : Shares s.mem p va) :
    leaf t.mem p va = leaf t.mem c va := by
  have hroot : ∀ i, get t.mem p i = get s.mem p i := fun i =>
    entry_congr h.root i.2 fun x hx => hf.creator x (.inl hx)
  have hpdpt : ∀ i, get t.mem (pdptOf s.mem p) i = get s.mem (pdptOf s.mem p) i := fun i =>
    entry_congr (Table.aligned h.pdpt_table h.root) i.2 fun x hx => hf.creator x (.inr hx)
  by_cases h4 : pml4Idx va = 0
  · obtain ⟨h3, hp⟩ := hva.resolve_left (not_not.mpr h4)
    have hi3 : idx va 3 = 0 := Fin.ext h4
    have hvp : OnWalk t.mem p va 2 (pdptOf s.mem p) :=
      .down .root (by rw [hi3, hroot]; exact h.pdpt_child)
    have hvc : OnWalk t.mem c va 2 pdp := .down .root (by rw [hi3]; exact hf.pdpt_child hcl h)
    have hsucc : get s₁.mem pdp (idx va 2) = get s.mem (pdptOf s.mem p) (idx va 2) :=
      hcl.pdp_succ _ (pdptIdx_lt va) h3
    have he : get t.mem pdp (idx va 2) = get t.mem (pdptOf s.mem p) (idx va 2) := by
      rcases hf.pdpt (idx va 2) with he | ⟨hno, -⟩
      · rw [he, hsucc, hpdpt]
      · rw [hsucc] at hno
        cases hno.symm.trans hp
    rw [leaf_of_onWalk hvp, leaf_of_onWalk hvc, leafFrom, leafFrom, Radix.look, Radix.look, he]
  · have he : get t.mem c (idx va 3) = get t.mem p (idx va 3) := by
      rw [hf.root, hroot]
      exact hcl.root_succ _ (pml4Idx_lt va) h4
    rw [leaf, leaf, leafFrom, leafFrom, Radix.look, Radix.look, he]

end

end

end

end Family

end TipOS.Loader
