import TipOS.Paging.MapPage

/-!
# The leaf of an address

`translate` gives the address and the rights that the whole walk leaves.  What a mapping function
decides is the last entry of the walk and its level, `leaf`: a page of 4 KB, 2 MB or 1 GB.
The physical address depends on the leaf only (`translate_fst_leaf`), and a write to a table
is seen by the leaves of the addresses through it (`leaf_write`).
-/

namespace TipOS.Paging

open Lib Option

variable {e l' va' : ℕ} {i : Fin 512} {s : Phys}

/-- An entry that ends a walk, with its level. -/
def leafEntry (l e : ℕ) : Option (ℕ × ℕ) := if isPresent e = true then some (l, e) else none

def leafFrom (m : Mem) (va l t : ℕ) : Option (ℕ × ℕ) :=
  Radix.look child leafEntry (fun _ x => x) (get m) (idx va) l t

/-- The level and the entry at which the walk of `va` ends. -/
def leaf (m : Mem) (r va : ℕ) : Option (ℕ × ℕ) := leafFrom m va 3 r

section Leaf

variable {m m' : Mem} {r va l t : ℕ}

theorem leafEntry_of_present (h : isPresent e) : leafEntry l e = some (l, e) :=
  if_pos h

theorem leafEntry_of_absent (h : isPresent e = false) : leafEntry l e = none :=
  if_neg (by rw [h]; exact Bool.false_ne_true)

theorem leafFrom_child {t' : ℕ} (h : child (l + 1) (get m t (idx va (l + 1))) = some t') :
    leafFrom m va (l + 1) t = leafFrom m va l t' := by
  rw [leafFrom, Radix.look, h]
  exact map_id'

theorem leafFrom_none (h : child l (get m t (idx va l)) = none) :
    leafFrom m va l t = leafEntry l (get m t (idx va l)) := by
  cases l with
  | zero => rfl
  | succ l => rw [leafFrom, Radix.look, h]

theorem leafFrom_absent (h : isPresent (get m t (idx va l)) = false) :
    leafFrom m va l t = none := by
  rw [leafFrom_none (child_of_absent h), leafEntry_of_absent h]

theorem leaf_of_onWalk (hv : OnWalk m r va l t) : leaf m r va = leafFrom m va l t := by
  induction hv with
  | root => rfl
  | down _ hc ih => rw [ih, leafFrom_child hc]

theorem leaf_page (hv : OnWalk m r va 0 t) : leaf m r va = leafEntry 0 (get m t (idx va 0)) :=
  leaf_of_onWalk hv

theorem leaf_huge (hv : OnWalk m r va 1 t) (hp : isPresent (get m t (idx va 1)))
    (hh : isHuge (get m t (idx va 1))) :
    leaf m r va = some (1, get m t (idx va 1)) := by
  rw [leaf_of_onWalk hv, leafFrom_none (child_of_huge (by simp) hh), leafEntry_of_present hp]

theorem exists_of_leafFrom (hv : OnWalk m r va l t) (h : leafFrom m va l t = some (l', e)) :
    ∃ t', OnWalk m r va l' t' ∧ get m t' (idx va l') = e ∧ isPresent e ∧
      child l' e = none := by
  induction l generalizing t with
  | zero =>
    rw [leafFrom_none rfl, leafEntry] at h
    split at h
    · next hp =>
      cases h
      exact ⟨t, hv, rfl, hp, rfl⟩
    · cases h
  | succ l ih =>
    cases hc : child (l + 1) (get m t (idx va (l + 1))) with
    | some t' =>
      rw [leafFrom_child hc] at h
      exact ih (.down hv hc) h
    | none =>
      rw [leafFrom_none hc, leafEntry] at h
      split at h
      · next hp =>
        cases h
        exact ⟨t, hv, rfl, hp, hc⟩
      · cases h

theorem exists_of_leaf (h : leaf m r va = some (l', e)) :
    ∃ t', OnWalk m r va l' t' ∧ get m t' (idx va l') = e ∧ isPresent e ∧
      child l' e = none :=
  exists_of_leafFrom .root h

/-- **The leaf decides the physical address.** -/
theorem translate_fst_leaf (m : Mem) (r va : ℕ) : (translate m r va).map Prod.fst =
    (leaf m r va).bind fun x => (leafVal va x.1 x.2).map Prod.fst := by
  have hall : ∀ l t, (walkFrom m va l t).map Prod.fst =
      (leafFrom m va l t).bind fun x => (leafVal va x.1 x.2).map Prod.fst := by
    intro l
    have hval : ∀ l e, (leafVal va l e).map Prod.fst =
        (leafEntry l e).bind fun x => (leafVal va x.1 x.2).map Prod.fst := by
      intro l e
      cases hp : isPresent e with
      | true => rw [leafEntry_of_present hp]; rfl
      | false => rw [leafEntry_of_absent hp, leafVal_of_absent hp]; rfl
    induction l with
    | zero => exact fun t => hval 0 _
    | succ l ih =>
      intro t
      cases hc : child (l + 1) (get m t (idx va (l + 1))) with
      | some t' =>
        rw [walkFrom_child hc, leafFrom_child hc, ← ih t', map_map]
        rfl
      | none => rw [walkFrom_leaf hc, leafFrom_none hc, hval]
  rw [translate_eq_walkFrom, hall, leaf]

theorem translate_fst_page (h : leaf m r va = some (0, e)) :
    (translate m r va).map Prod.fst = some (frameOf e + va % 2 ^ 12) := by
  obtain ⟨-, -, -, hp, -⟩ := exists_of_leaf h
  rw [translate_fst_leaf, h, bind_some, leafVal, if_pos hp]
  rfl

theorem isSome_of_pageNo (he : pageNo va = pageNo va') (h : (translate m r va).isSome) :
    (translate m r va').isSome := by
  have hleaf : (leaf m r va).isSome := by
    rw [← isSome_map (f := Prod.fst), translate_fst_leaf] at h
    cases hl : leaf m r va with
    | none => rw [hl] at h; exact h
    | some x => rfl
  obtain ⟨⟨l, e⟩, hl⟩ := isSome_iff_exists.mp hleaf
  obtain ⟨t, hv, hget, hp, hc⟩ := exists_of_leaf hl
  have hi := idx_eq_of_pageNo (l := l) he hv.le
  have hv' := hv.of_idx fun l' _ hl' => idx_eq_of_pageNo he hl'
  rw [hi] at hget
  rw [← hget] at hp hc
  exact translate_isSome_of_leaf hv' hp hc

/-- **Writes are seen through the entry only.** -/
theorem leaf_write (hw : Radix.Writes child (get m) (get m') 3 r t i) (ht : IsTree m r)
    (htab : Table m r l t)
    (h : OnWalk m r va l t → idx va l = i → leafFrom m' va l t = leafFrom m va l t) :
    leaf m' r va = leaf m r va :=
  Radix.look_write hw ht htab h

theorem leaf_writePt (ht : IsTree m r) (hw : Radix.Writes child (get m) (get m') 3 r t (idx va 0))
    (hv : OnWalk m r va 0 t) (hne : pageNo va' ≠ pageNo va) : leaf m' r va' = leaf m r va' := by
  refine leaf_write hw ht hv.reach fun hv' hi => absurd (pageNo_eq_of_idx fun l hl => ?_) hne
  rcases Nat.eq_zero_or_pos l with rfl | hpos
  · exact hi
  · exact ht.key_eq hv' hv hpos hl

end Leaf

theorem linkFrame_leaf {r l t f : ℕ} (pool : List ℕ) (hr : r % 4096 = 0) (htree : IsTree s.mem r)
    (ht : Table s.mem r (l + 1) t) (hf : FreeFrame s.mem r f)
    (hp : isPresent (get s.mem t i) = false) (va : ℕ) :
    leaf (linkFrame s pool t i f).mem r va = leaf s.mem r va := by
  refine leaf_write (linkFrame_writes pool hr ht hf) htree ht fun _ hi => ?_
  subst hi
  have hz : isPresent (get (linkFrame s pool t (idx va (l + 1)) f).mem f (idx va l)) = false := by
    rw [linkFrame_entry pool hr ht hf]
    decide
  rw [leafFrom_child (linkFrame_child hf), leafFrom_absent hz, leafFrom_absent hp]

/-! ### Memory beside the tables -/

/-- The tables below `r` have the same bytes in `m'`. -/
def SameTables (m m' : Mem) (r : ℕ) : Prop :=
  ∀ l t, Table m r l t → ∀ x, x / 4096 * 4096 = t → m' x = m x

namespace SameTables

variable {m m' : Mem} {r : ℕ}

theorem get_eq (h : SameTables m m' r) (hr : r % 4096 = 0) (l t : ℕ) (i : Fin 512)
    (ht : Table m r l t) : get m' t i = get m t i :=
  entry_congr (Table.aligned ht hr) i.2 (h l t ht)

theorem table_iff (h : SameTables m m' r) (hr : r % 4096 = 0) {l t : ℕ} :
    Table m' r l t ↔ Table m r l t :=
  ⟨Radix.Reach.of_same (h.get_eq hr), Radix.Reach.same (h.get_eq hr)⟩

theorem leaf (h : SameTables m m' r) (hr : r % 4096 = 0) (va : ℕ) :
    leaf m' r va = Paging.leaf m r va :=
  Radix.look_congr fun l t hv => h.get_eq hr l t _ hv.reach

/-- **What is written beside the tables keeps the address space.** -/
theorem space {s' : Phys} (h : SameTables s.mem s'.mem r) (hs : Space s r) (hp : s'.pool = s.pool) :
    Space s' r := by
  have hg := h.get_eq hs.root
  refine ⟨hs.root, hs.tree.of_same hg, fun {l t t' i} ht hc => ?_, fun {t i} ht hp' => ?_,
    fun {t i} ht hh => ?_, by rw [hp]; exact hs.nodup, fun f hf => ?_⟩
  · have ht' := (h.table_iff hs.root).mp ht
    rw [hg _ _ _ ht'] at hc ⊢
    exact hs.low ht' hc
  · have ht' := (h.table_iff hs.root).mp ht
    rw [hg _ _ _ ht'] at hp' ⊢
    exact hs.giga ht' hp'
  · have ht' := (h.table_iff hs.root).mp ht
    rw [hg _ _ _ ht'] at hh ⊢
    exact hs.huge ht' hh
  · rw [hp] at hf
    have hf' := hs.pool f hf
    exact ⟨hf'.aligned, hf'.low, fun l hl => hf'.table l ((h.table_iff hs.root).mp hl)⟩

end SameTables

end TipOS.Paging
