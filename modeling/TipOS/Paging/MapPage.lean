import TipOS.Paging.Tree

/-!
# Mapping one page

`map_user_4kb` makes up to three tables and one page.  A new table is empty and takes the place
of an absent entry, so no address sees it (`addTable_translate`); a new page is seen by the
addresses of that page only.

`Space` is what the tables of an address space have when they were built by the mapping
functions of the kernel: they are a tree, pointers to tables have no bits above the address, there
are no 1 GB entries, and a PD entry with PS is present.  The frames of the allocator are not
in use as tables.
-/

namespace TipOS.Paging

open Lib Phys Option Bool

/-- **An address space that the kernel built.** -/
structure Space (s : Phys) (r : ℕ) : Prop where
  root : r % 4096 = 0
  tree : IsTree s.mem r
  low : ∀ {l t t' : ℕ} {i : Fin 512}, Table s.mem r (l + 1) t →
    child (l + 1) (get s.mem t i) = some t' → get s.mem t i < 2 ^ 52
  giga : ∀ {t : ℕ} {i : Fin 512}, Table s.mem r 2 t → isPresent (get s.mem t i) = true →
    isHuge (get s.mem t i) = false
  huge : ∀ {t : ℕ} {i : Fin 512}, Table s.mem r 1 t → isHuge (get s.mem t i) = true →
    isPresent (get s.mem t i) = true
  nodup : s.pool.Nodup
  pool : ∀ f ∈ s.pool, FreeFrame s.mem r f

/-- The number of the page of an address. -/
def pageNo (va : ℕ) : ℕ := va / 2 ^ 12 % 2 ^ 36

theorem chunk_eq_of_idx {va va' : ℕ} (h : ∀ l, 1 ≤ l → l ≤ 3 → idx va l = idx va' l) :
    va / 2 ^ 21 % 2 ^ 27 = va' / 2 ^ 21 % 2 ^ 27 := by
  have h1 : va / 2 ^ 21 % 512 = va' / 2 ^ 21 % 512 := congrArg Fin.val (h 1 le_rfl (by simp))
  have h2 : va / 2 ^ 30 % 512 = va' / 2 ^ 30 % 512 :=
    congrArg Fin.val (h 2 (by simp) (by simp))
  have h3 : va / 2 ^ 39 % 512 = va' / 2 ^ 39 % 512 := congrArg Fin.val (h 3 (by simp) le_rfl)
  omega

theorem pageNo_eq_of_idx {va va' : ℕ} (h : ∀ l ≤ 3, idx va l = idx va' l) :
    pageNo va = pageNo va' := by
  have h0 : va / 2 ^ 12 % 512 = va' / 2 ^ 12 % 512 := congrArg Fin.val (h 0 (by simp))
  have hc := chunk_eq_of_idx fun l _ => h l
  rw [pageNo, pageNo]
  omega

theorem idx_eq_of_pageNo {va va' l : ℕ} (h : pageNo va = pageNo va') (hl : l ≤ 3) :
    idx va l = idx va' l := by
  refine Fin.ext ?_
  change va / 2 ^ (12 + 9 * l) % 512 = va' / 2 ^ (12 + 9 * l) % 512
  rw [pageNo, pageNo] at h
  interval_cases l <;> omega

/-! ### Entries that lead to a zeroed frame -/

/-- Entry `i` of `t` leads to the frame `f`, which is zeroed and leaves the pool. -/
def linkFrame (s : Phys) (pool : List ℕ) (t i f : ℕ) : Phys :=
  ({ s with pool := pool, mem := s.mem.fill f 4096 0 } : Phys).setEntry t i (f ||| 0x07)

section Link

variable {s : Phys} {r l t f : ℕ} {i : Fin 512}

theorem linkFrame_self (pool : List ℕ) (hf : FreeFrame s.mem r f) :
    get (linkFrame s pool t i f).mem t i = f + 7 := by
  have hlow := hf.low
  rw [get, linkFrame, setEntry_mem, entry_setEntry_self, or_seven hf.aligned]
  exact Nat.mod_eq_of_lt (by omega)

theorem linkFrame_zero (pool : List ℕ) (hr : r % 4096 = 0) (ht : Table s.mem r l t)
    (hf : FreeFrame s.mem r f) {x : ℕ} (hx : f ≤ x) (hx' : x < f + 4096) :
    (linkFrame s pool t i f).mem x = 0 := by
  have hal := hf.aligned
  have hne : t ≠ f := fun h => hf.table l (h ▸ ht)
  rw [linkFrame, setEntry_mem, setEntry_apply_of_ne (Table.aligned ht hr) i.2 (by omega)]
  exact Mem.fill_apply_of_mem hx hx'

theorem linkFrame_entry (pool : List ℕ) (hr : r % 4096 = 0) (ht : Table s.mem r l t)
    (hf : FreeFrame s.mem r f) (j : Fin 512) : get (linkFrame s pool t i f).mem f j = 0 := by
  have hz : get (linkFrame s pool t i f).mem f j = entry (fun _ => 0) f j :=
    Mem.load_congr 8 _ fun x h1 h2 => linkFrame_zero pool hr ht hf (by omega) (by omega)
  rw [hz, entry_zero]

theorem linkFrame_writes (pool : List ℕ) (hr : r % 4096 = 0) (ht : Table s.mem r l t)
    (hf : FreeFrame s.mem r f) :
    Radix.Writes child (get s.mem) (get (linkFrame s pool t i f).mem) 3 r t i := by
  refine writes_of_entries hr fun t' i' ht' ⟨l', htab⟩ hne => ?_
  have hne' : t' ≠ f := fun h => hf.table l' (h ▸ htab)
  rw [linkFrame, setEntry_mem, entry_setEntry_of_ne (Table.aligned ht hr) ht' i.2 i'.2
    (hne.imp_right fun h h' => h (Fin.ext h'))]
  exact entry_congr ht' i'.2 fun x hx => fill_apply_of_ne hf.aligned (by rw [hx]; exact hne')

end Link

/-! ### A new table -/

section AddTable

variable {s : Phys} {r l t f : ℕ} {i : Fin 512} {pool : List ℕ}

theorem linkFrame_child (hf : FreeFrame s.mem r f) :
    child (l + 1) (get (linkFrame s pool t i f).mem t i) = some f := by
  rw [linkFrame_self pool hf, child_pointer hf.aligned hf.low]

/-- **An empty table in place of an absent entry is seen by no address.** -/
theorem linkFrame_translate (hr : r % 4096 = 0) (htree : IsTree s.mem r)
    (ht : Table s.mem r (l + 1) t) (hf : FreeFrame s.mem r f)
    (hp : isPresent (get s.mem t i) = false) (va : ℕ) :
    translate (linkFrame s pool t i f).mem r va = translate s.mem r va := by
  refine translate_write (linkFrame_writes pool hr ht hf) htree ht fun _ hi => ?_
  subst hi
  have hz : isPresent (get (linkFrame s pool t (idx va (l + 1)) f).mem f (idx va l)) = false := by
    rw [linkFrame_entry pool hr ht hf]
    decide
  rw [walkFrom_child (linkFrame_child hf), walkFrom_absent hz, walkFrom_absent hp]
  rfl

section Pointer

variable {s' : Phys} (hw : Radix.Writes child (get s.mem) (get s'.mem) 3 r t i)
  (hself : get s'.mem t i = f + 7) (ht : Table s.mem r (l + 1) t) (hf : FreeFrame s.mem r f)
  (hnew : ∀ j, l = 0 ∨ get s'.mem f j = 0)

include hw hself ht hf hnew

/-- The tables after an entry was made to lead to the frame `f`. -/
theorem table_of_link {l' t' : ℕ} (h : IsTree s.mem r) (ht' : Table s'.mem r l' t') :
    Table s.mem r l' t' ∨ l' = l ∧ t' = f := by
  refine Radix.Reach.of_node hw h ht ?_ (fun j => ?_) ht'
  · rw [hself, child_pointer hf.aligned hf.low]
  · rcases hnew j with rfl | h0
    · rfl
    · rw [h0]
      exact child_of_absent (by decide)

theorem FreeFrame.link {x : ℕ} (hx : FreeFrame s.mem r x) (h : IsTree s.mem r) (hne : x ≠ f) :
    FreeFrame s'.mem r x := by
  refine ⟨hx.aligned, hx.low, fun l' hl' => ?_⟩
  rcases table_of_link hw hself ht hf hnew h hl' with hr | ⟨-, rfl⟩
  · exact hx.table l' hr
  · exact hne rfl

/-- **The address space stays one that the kernel built** when an entry is made to lead to a
page table, or to an empty table. -/
theorem Space.link (h : Space s r) (hnd : s'.pool.Nodup)
    (hsub : ∀ g ∈ s'.pool, g ∈ s.pool ∧ g ≠ f) : Space s' r := by
  have hc : child (l + 1) (get s'.mem t i) = some f := by
    rw [hself, child_pointer hf.aligned hf.low]
  have hleaf : ∀ j, child l (get s'.mem f j) = none := fun j => by
    rcases hnew j with rfl | h0
    · rfl
    · rw [h0]
      exact child_of_absent (by decide)
  -- an entry above the page tables is an old one, the new one, or 0
  have hold : ∀ {l' t' j}, Table s'.mem r (l' + 1) t' →
      Table s.mem r (l' + 1) t' ∧
        (get s'.mem t' j = get s.mem t' j ∨ get s'.mem t' j = f + 7) ∨ get s'.mem t' j = 0 := by
    intro l' t' j ht'
    rcases table_of_link hw hself ht hf hnew h.tree ht' with hr | ⟨hl, rfl⟩
    · by_cases hx : t' = t ∧ j = i
      · rw [hx.1, hx.2]
        exact .inl ⟨hx.1 ▸ hr, .inr hself⟩
      · exact .inl ⟨hr, .inl (hw _ _ _ hr (not_and_or.mp hx))⟩
    · exact .inr ((hnew j).resolve_left (by omega))
  have hlow := hf.low
  have hal := hf.aligned
  refine ⟨h.root, h.tree.node hw ht hc hleaf hf.table, fun {l' t' t'' j} ht' hc' => ?_,
    fun {t' j} ht' hp' => ?_, fun {t' j} ht' hh' => ?_, hnd, fun g hg => ?_⟩
  · rcases hold ht' with ⟨hr, he | he⟩ | he
    · rw [he] at hc' ⊢
      exact h.low hr hc'
    · rw [he]
      omega
    · rw [he]
      simp
  · rcases hold ht' with ⟨hr, he | he⟩ | he
    · rw [he] at hp' ⊢
      exact h.giga hr hp'
    · rw [he]
      exact isHuge_pointer hf.aligned
    · rw [he] at hp'
      cases hp'
  · rcases hold ht' with ⟨hr, he | he⟩ | he
    · rw [he] at hh' ⊢
      exact h.huge hr hh'
    · rw [he]
      exact isPresent_pointer hf.aligned
    · rw [he] at hh'
      cases hh'
  · obtain ⟨hg', hne⟩ := hsub g hg
    exact FreeFrame.link hw hself ht hf hnew (h.pool g hg') h.tree hne

end Pointer

theorem Space.addTable (h : Space s r) (hpool : s.pool = f :: pool)
    (ht : Table s.mem r (l + 1) t) : Space (linkFrame s pool t i f) r := by
  have hf : FreeFrame s.mem r f := h.pool f (head_mem hpool)
  have hnd : f ∉ pool ∧ pool.Nodup := List.nodup_cons.mp (hpool ▸ h.nodup)
  refine h.link (linkFrame_writes pool h.root ht hf) (linkFrame_self pool hf) ht hf
    (fun j => .inr (linkFrame_entry pool h.root ht hf j)) hnd.2 fun g hg => ⟨?_, ?_⟩
  · rw [hpool]
    exact .tail _ hg
  · rintro rfl
    exact hnd.1 hg

end AddTable

/-! ### A new page -/

section AddPage

variable {s : Phys} {r t f va : ℕ} {i : Fin 512} {pool : List ℕ}

theorem Space.writePt {s' : Phys} (h : Space s r) (ht : Table s.mem r 0 t)
    (hw : Radix.Writes child (get s.mem) (get s'.mem) 3 r t i) (hnd : s'.pool.Nodup)
    (hpool : ∀ g ∈ s'.pool, g ∈ s.pool) : Space s' r := by
  have hold : ∀ {l t' j}, Table s'.mem r (l + 1) t' →
      Table s.mem r (l + 1) t' ∧ get s'.mem t' j = get s.mem t' j := by
    intro l t' j ht'
    have hr := ht'.of_leaf hw h.tree ht rfl
    refine ⟨hr, hw _ _ _ hr (.inl ?_)⟩
    rintro rfl
    exact absurd (h.tree.level hr ht) (Nat.succ_ne_zero l)
  refine ⟨h.root, h.tree.leaf hw ht rfl, fun {l t' t'' j} ht' hc => ?_, fun {t' j} ht' hp => ?_,
    fun {t' j} ht' hh => ?_, hnd, fun g hg => ?_⟩
  · obtain ⟨hr, he⟩ := hold ht'
    rw [he] at hc ⊢
    exact h.low hr hc
  · obtain ⟨hr, he⟩ := hold ht'
    rw [he] at hp ⊢
    exact h.giga hr hp
  · obtain ⟨hr, he⟩ := hold ht'
    rw [he] at hh ⊢
    exact h.huge hr hh
  · have hfree := h.pool g (hpool g hg)
    exact ⟨hfree.aligned, hfree.low, fun l hl => hfree.table l (hl.of_leaf hw h.tree ht rfl)⟩

theorem translate_fst {m : Mem} {r va l t : ℕ} (hv : OnWalk m r va l t) :
    (translate m r va).map Prod.fst = (walkFrom m va l t).map Prod.fst := by
  rw [translate_eq_walkFrom]
  exact Radix.look_proj (fun _ _ => rfl) hv

theorem linkFrame_translate_self (pool : List ℕ) (h : Space s r) (hf : FreeFrame s.mem r f)
    (hv : OnWalk s.mem r va 0 t) : ∃ a,
      translate (linkFrame s pool t (idx va 0) f).mem r va = some (f + va % 2 ^ 12, a) := by
  have hw := linkFrame_writes (i := idx va 0) pool h.root hv.reach hf
  have hself := linkFrame_self (t := t) (i := idx va 0) pool hf
  have hleaf : leafVal va 0 (f + 7) = some (f + va % 2 ^ 12, rightsOf (f + 7)) := by
    have hfr := frameOf_pointer hf.aligned hf.low
    rw [leafVal, if_pos (isPresent_pointer hf.aligned)]
    exact congrArg (fun a => some (a + va % 2 ^ 12, rightsOf (f + 7))) hfr
  have hfst := translate_fst ((hw.visits_iff h.tree hv.reach le_rfl).mpr hv)
  rw [walkFrom_zero, hself, hleaf, map_some, map_eq_some_iff] at hfst
  obtain ⟨⟨pa, a⟩, ha, rfl⟩ := hfst
  exact ⟨a, ha⟩

/-- **Only the addresses of the page go through its entry.** -/
theorem translate_writePt {m m' : Mem} {va' : ℕ} (ht : IsTree m r)
    (hw : Radix.Writes child (get m) (get m') 3 r t (idx va 0)) (hv : OnWalk m r va 0 t)
    (hne : pageNo va' ≠ pageNo va) : translate m' r va' = translate m r va' := by
  refine translate_write hw ht hv.reach fun hv' hi => absurd (pageNo_eq_of_idx fun l hl => ?_) hne
  rcases Nat.eq_zero_or_pos l with rfl | hpos
  · exact hi
  · exact ht.key_eq hv' hv hpos hl

end AddPage

/-! ### `map_user_4kb` -/

/-- `s'` is `s` with more tables. -/
structure Grown (s s' : Phys) (r : ℕ) : Prop where
  space : Space s' r
  same : ∀ va, translate s'.mem r va = translate s.mem r va
  pool : ∀ f ∈ s'.pool, f ∈ s.pool

theorem Grown.refl {s : Phys} {r : ℕ} (h : Space s r) : Grown s s r :=
  ⟨h, fun _ => rfl, fun _ hf => hf⟩

theorem Grown.trans {s s' s'' : Phys} {r : ℕ} (h : Grown s s' r) (h' : Grown s' s'' r) :
    Grown s s'' r :=
  ⟨h'.space, fun va => (h'.same va).trans (h.same va), fun f hf => h.pool f (h'.pool f hf)⟩

theorem Grown.setOom {s s' : Phys} {r : ℕ} (h : Grown s s' r) :
    Grown s { s' with oom := true } r :=
  ⟨⟨h.space.root, h.space.tree, h.space.low, h.space.giga, h.space.huge, h.space.nodup,
    h.space.pool⟩, h.same, h.pool⟩

section Map

variable {s s' : Phys} {r va l t : ℕ}

theorem ensureTable_cases {i : ℕ} (he : ensureTable s t i = some s') :
    isPresent (entry s.mem t i) ∧ s' = s ∨
    isPresent (entry s.mem t i) = false ∧
      ∃ f pool, s.pool = f :: pool ∧ s' = linkFrame s pool t i f := by
  unfold ensureTable at he
  split at he
  · next hp => exact .inl ⟨hp, (Option.some.inj he).symm⟩
  next hp =>
  refine .inr ⟨by simpa using hp, ?_⟩
  unfold Phys.zeroFrame at he
  cases hpool : s.pool with
  | nil =>
    rw [hpool] at he
    cases he
  | cons f pool =>
    rw [hpool] at he
    exact ⟨f, pool, rfl, (Option.some.inj he).symm⟩

/-- **A table is made where it is missing.** -/
theorem ensureTable_grown (h : Space s r) (hv : OnWalk s.mem r va (l + 1) t)
    (he : ensureTable s t (idx va (l + 1)) = some s') :
    Grown s s' r ∧ OnWalk s'.mem r va (l + 1) t ∧
      isPresent (get s'.mem t (idx va (l + 1))) := by
  rcases ensureTable_cases he with ⟨hp, rfl⟩ | ⟨hp, f, pool, hpool, rfl⟩
  · exact ⟨Grown.refl h, hv, hp⟩
  have hf : FreeFrame s.mem r f := h.pool f (head_mem hpool)
  have hw := linkFrame_writes (i := idx va (l + 1)) pool h.root hv.reach hf
  refine ⟨⟨h.addTable hpool hv.reach,
    linkFrame_translate h.root h.tree hv.reach hf hp, fun g hg => ?_⟩,
    (hw.visits_iff h.tree hv.reach le_rfl).mpr hv, ?_⟩
  · rw [hpool]
    exact .tail _ hg
  · rw [linkFrame_self pool hf]
    exact isPresent_pointer hf.aligned

theorem ensureTable_small {i : Fin 512} (h : Space s r) (he : ensureTable s t i = some s')
    (hh : isHuge (get s.mem t i) = false) : isHuge (get s'.mem t i) = false := by
  rcases ensureTable_cases he with ⟨-, rfl⟩ | ⟨-, f, pool, hpool, rfl⟩
  · exact hh
  · have hf := h.pool f (head_mem hpool)
    rw [linkFrame_self pool hf]
    exact isHuge_pointer hf.aligned

theorem Space.next (h : Space s r) (hv : OnWalk s.mem r va (l + 1) t)
    (hp : isPresent (get s.mem t (idx va (l + 1))))
    (hh : l < 2 → isHuge (get s.mem t (idx va (l + 1))) = false) :
    OnWalk s.mem r va l (tableOf (get s.mem t (idx va (l + 1)))) := by
  have hc : child (l + 1) (get s.mem t (idx va (l + 1))) =
      some (frameOf (get s.mem t (idx va (l + 1)))) := if_pos ⟨hp, hh⟩
  rw [tableOf_eq_frameOf (h.low hv.reach hc)]
  exact .down hv hc

/-- **What `map_user_4kb` can do**: fail, find the page mapped, or map it. -/
inductive Mapped (s : Phys) (r va : ℕ) : ℤ × Phys → Prop
  | failed {s' : Phys} : Grown s s' r → Mapped s r va (-1, s')
  | found {s' : Phys} : Grown s s' r → (translate s'.mem r va).isSome = true →
      Mapped s r va (0, s')
  | made {s' : Phys} {f t : ℕ} {pool : List ℕ} : Grown s s' r → s'.pool = f :: pool →
      OnWalk s'.mem r va 0 t → isPresent (get s'.mem t (idx va 0)) = false →
      Mapped s r va (0, linkFrame s' pool t (idx va 0) f)

theorem translate_isSome_of_leaf {m : Mem} (hv : OnWalk m r va l t)
    (hp : isPresent (get m t (idx va l))) (hc : child l (get m t (idx va l)) = none) :
    (translate m r va).isSome := by
  have hw : (walkFrom m va l t).isSome := by
    cases l with
    | zero => rw [walkFrom_zero, leafVal, if_pos hp]; rfl
    | succ l => rw [walkFrom_leaf hc, leafVal, if_pos hp]; rfl
  have hfst := translate_fst hv
  rw [← isSome_map (f := Prod.fst), hfst, isSome_map]
  exact hw

theorem mapUser4kb_mapped (h : Space s r) (va : ℕ) : Mapped s r va (mapUser4kb s r va) := by
  unfold mapUser4kb
  split
  · exact .failed (Grown.refl h).setOom
  next s1 he1 =>
  obtain ⟨g1, hv1, hp1⟩ := ensureTable_grown h .root he1
  have hv1 := g1.space.next hv1 hp1 (fun h2 => absurd h2 (lt_irrefl 2))
  dsimp only
  split
  · exact .failed g1.setOom
  next s2 he2 =>
  obtain ⟨g2, hv2, hp2⟩ := ensureTable_grown g1.space hv1 he2
  have hv2 := g2.space.next hv2 hp2 (fun _ => g2.space.giga hv2.reach hp2)
  have g2 := g1.trans g2
  split
  · next hh =>
    have hp := g2.space.huge (i := idx va 1) hv2.reach hh
    exact .found g2 (translate_isSome_of_leaf hv2 hp (child_of_huge (by simp) hh))
  next hh =>
  split
  · exact .failed g2.setOom
  next s3 he3 =>
  obtain ⟨g3, hv3, hp3⟩ := ensureTable_grown g2.space hv2 he3
  have hsmall := ensureTable_small (i := idx va 1) g2.space he3 (eq_false_iff.mpr hh)
  have hv3 := g3.space.next hv3 hp3 (fun _ => hsmall)
  have g3 := g2.trans g3
  split
  · next hp => exact .found g3 (translate_isSome_of_leaf hv3 hp rfl)
  next hp =>
  unfold Phys.zeroFrame
  cases hpool : s3.pool with
  | nil =>
    have g4 := g3.setOom
    rw [hpool] at g4
    exact .failed g4
  | cons f pool => exact .made g3 hpool hv3 (eq_false_iff.mpr hp)

theorem present_of_translated {m : Mem} (hv : OnWalk m r va l t)
    (ht : (translate m r va).isSome) : isPresent (get m t (idx va l)) := by
  by_contra hp
  have hfst := translate_fst hv
  rw [walkFrom_absent (eq_false_iff.mpr hp)] at hfst
  rw [← isSome_map (f := Prod.fst), hfst] at ht
  cases ht

/-- **A page that is mapped is left alone.** -/
theorem mapUser4kb_of_translated (h : Space s r) (ht : (translate s.mem r va).isSome) :
    mapUser4kb s r va = (0, s) := by
  have p3 := present_of_translated .root ht
  have hv2 := h.next .root p3 (fun h2 => absurd h2 (lt_irrefl 2))
  have p2 := present_of_translated hv2 ht
  have hv1 := h.next hv2 p2 (fun _ => h.giga hv2.reach p2)
  have p1 := present_of_translated hv1 ht
  have e3 : ensureTable s r (pml4Idx va) = some s := ensureTable_present p3
  have e2 : ensureTable s (tableOf (entry s.mem r (pml4Idx va))) (pdptIdx va) = some s :=
    ensureTable_present p2
  have e1 : ensureTable s (tableOf (entry s.mem (tableOf (entry s.mem r (pml4Idx va)))
      (pdptIdx va))) (pdIdx va) = some s := ensureTable_present p1
  simp only [mapUser4kb, e3, e2, e1]
  split
  · rfl
  · next hh =>
    have hv0 := h.next (l := 0) hv1 p1 (fun _ => eq_false_iff.mpr hh)
    exact if_pos (present_of_translated hv0 ht)

/-- **`map_user_4kb` keeps the address space**, also when it fails on the way. -/
theorem Space.mapUser4kb (h : Space s r) (va : ℕ) : Space (mapUser4kb s r va).2 r := by
  have hm := mapUser4kb_mapped h va
  generalize Paging.mapUser4kb s r va = x at hm
  cases hm with
  | failed hg => exact hg.space
  | found hg _ => exact hg.space
  | @made s' f t pool hg hpool hv _ =>
    have hf := hg.space.pool f (head_mem hpool)
    refine hg.space.writePt hv.reach (linkFrame_writes pool hg.space.root hv.reach hf)
      (List.nodup_cons.mp (hpool ▸ hg.space.nodup)).2 fun g hg' => ?_
    rw [hpool]
    exact .tail _ hg'

/-- **What a `map_user_4kb` that returns 0 does.** -/
theorem mapUser4kb_spec (h : Space s r) (hok : (mapUser4kb s r va).1 = 0) :
    (translate (mapUser4kb s r va).2.mem r va).isSome = true ∧
    ((translate s.mem r va).isSome = true → (mapUser4kb s r va).2 = s) ∧
    (translate s.mem r va = none → ∃ f ∈ s.pool, f ∉ (mapUser4kb s r va).2.pool ∧
      (∃ a, translate (mapUser4kb s r va).2.mem r va = some (f + va % 2 ^ 12, a)) ∧
      ∀ x, f ≤ x → x < f + 4096 → (mapUser4kb s r va).2.mem x = 0) ∧
    ∀ va', pageNo va' ≠ pageNo va →
      translate (mapUser4kb s r va).2.mem r va' = translate s.mem r va' := by
  cases ht : translate s.mem r va with
  | some x =>
    have hs : mapUser4kb s r va = (0, s) := mapUser4kb_of_translated h (by rw [ht]; rfl)
    rw [hs]
    exact ⟨by rw [ht]; rfl, fun _ => rfl, nofun, fun _ _ => rfl⟩
  | none =>
    have hm := mapUser4kb_mapped h va
    generalize hx : mapUser4kb s r va = x at hm hok
    cases hm with
    | failed _ => exact absurd hok (show (-1 : ℤ) ≠ 0 by decide)
    | found hg hsome =>
      rw [hg.same, ht] at hsome
      cases hsome
    | @made s' f t pool hg hpool hv hp =>
      have hf : f ∈ s'.pool := head_mem hpool
      have hfree := hg.space.pool f hf
      have hnd := List.nodup_cons.mp (hpool ▸ hg.space.nodup)
      obtain ⟨a, ha⟩ := linkFrame_translate_self pool hg.space hfree hv
      refine ⟨by rw [ha]; rfl, fun h0 => absurd h0 false_ne_true, fun _ => ⟨f, hg.pool f hf,
        hnd.1, ⟨a, ha⟩, fun x => linkFrame_zero pool hg.space.root hv.reach hfree⟩,
        fun va' hne => ?_⟩
      rw [← hg.same]
      exact translate_writePt hg.space.tree (linkFrame_writes pool hg.space.root hv.reach hfree) hv
        hne

end Map

/-! ### Pages of a small tree -/

theorem smallTree_giga {t : ℕ} {i : Fin 512} (ht : Table smallTree 0x1000 2 t) :
    isHuge (get smallTree t i) = false := by
  rw [get, smallTree_entry (Table.aligned ht (by simp)) i.2, smallTree_table ht]
  simp only [smallTable]
  split_ifs <;> first | decide | omega

theorem smallTree_space {pool : List ℕ} {oom : Bool} (hnd : pool.Nodup)
    (hpool : ∀ f ∈ pool, f % 4096 = 0 ∧ 0x5000 ≤ f ∧ f < 2 ^ 52) :
    Space ⟨smallTree, pool, oom⟩ 0x1000 where
  root := by simp
  tree := smallTree_isTree
  low {l t t' i} ht _ := by
    rw [get, smallTree_entry (Table.aligned ht (by simp)) i.2]
    split_ifs <;> norm_num
  giga ht _ := smallTree_giga ht
  huge {t i} ht hh := by
    rw [get, smallTree_entry (Table.aligned ht (by simp)) i.2, smallTree_table ht] at hh ⊢
    split_ifs at hh ⊢ <;> first | decide | cases hh
  nodup := hnd
  pool f hf := smallTree_free (hpool f hf).1 (hpool f hf).2.1 (hpool f hf).2.2

/-- The page at `0x400000` needs a table and a frame. -/
theorem mapUser4kb_spec_smallTree :
    (translate (mapUser4kb ⟨smallTree, [0x6000, 0x7000], false⟩ 0x1000 0x400000).2.mem 0x1000
      0x400000).isSome = true :=
  (mapUser4kb_spec (smallTree_space (by decide) (by decide)) (by decide +kernel)).1

end TipOS.Paging
