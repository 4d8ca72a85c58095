import Mathlib.Tactic.IntervalCases
import TipOS.Lib.Radix
import TipOS.Paging.Fork

/-!
# Page tables as a tree

The tables below a root are a radix tree with four levels, 3 for the PML4 to 0 for page
tables, and the walk of the processor is the lookup of the nine-bit fields of an address in
it (`translate_eq_walkFrom`).

A tree is a structure of tables in which every table has one place.  `split_2mb_pde` replaces
a 2 MB entry by a table of its pieces, and no address sees it (`split_transparent`).

The kernel follows an entry with `& ~0xFFF`, the processor takes bits 51 to 12.  The two differ
when bits from 52 on are set, and then the pointer of the kernel leaves physical memory.
-/

namespace TipOS.Paging

open Lib

variable {e t' e4 e3 e2 : ℕ} {i : Fin 512}

/-! ### The walk as a lookup -/

/-- Entry `i` of a table. -/
def get (m : Mem) (t : ℕ) (i : Fin 512) : ℕ := entry m t i

/-- The index of `va` in tables of level `l`. -/
def idx (va l : ℕ) : Fin 512 := ⟨va / 2 ^ (12 + 9 * l) % 512, Nat.mod_lt _ (by norm_num)⟩

/-- The table that an entry of level `l` leads to; 2 MB and 1 GB entries lead to none. -/
def child : ℕ → ℕ → Option ℕ
  | 0, _ => none
  | l + 1, e =>
    if isPresent e = true ∧ (l < 2 → isHuge e = false) then some (frameOf e) else none

/-- The address and the rights that a leaf of level `l` gives to `va`. -/
def leafVal (va l e : ℕ) : Option (ℕ × Rights) :=
  if isPresent e = true then
    some (e % 2 ^ 52 / 2 ^ (12 + 9 * l) * 2 ^ (12 + 9 * l) + va % 2 ^ (12 + 9 * l), rightsOf e)
  else none

/-- What is found below a table of level `l`. -/
def walkFrom (m : Mem) (va l t : ℕ) : Option (ℕ × Rights) :=
  Radix.look child (leafVal va) (fun e => restrict (rightsOf e)) (get m) (idx va) l t

theorem child_of_absent (h : isPresent e = false) : child l e = none := by
  cases l with
  | zero => rfl
  | succ l => exact if_neg fun hc => absurd (h.symm.trans hc.1) Bool.false_ne_true

theorem child_of_huge (hl : l < 3) (h : isHuge e) : child l e = none := by
  cases l with
  | zero => rfl
  | succ l =>
    exact if_neg fun hc => absurd ((hc.2 (by omega)).symm.trans h) Bool.false_ne_true

theorem child_of_small (hp : isPresent e) (hh : isHuge e = false) :
    child (l + 1) e = some (frameOf e) :=
  if_pos ⟨hp, fun _ => hh⟩

theorem child_pointer {l f : ℕ} (hf : f % 4096 = 0) (hlt : f < 2 ^ 52) :
    child (l + 1) (f + 7) = some f := by
  rw [child_of_small (isPresent_pointer hf) (isHuge_pointer hf), frameOf_pointer hf hlt]

theorem child_root (hp : isPresent e) : child 3 e = some (frameOf e) :=
  if_pos ⟨hp, fun h => absurd h (lt_irrefl 2)⟩

theorem child_eq_some {l t : ℕ} (h : child l e = some t) :
    isPresent e ∧ (l < 3 → isHuge e = false) ∧ frameOf e = t := by
  cases l with
  | zero => cases h
  | succ l =>
    rw [child] at h
    split at h
    · next hc => exact ⟨hc.1, fun hl => hc.2 (by omega), Option.some.inj h⟩
    · cases h

theorem leafVal_of_absent {va l : ℕ} (h : isPresent e = false) : leafVal va l e = none :=
  if_neg (by rw [h]; exact Bool.false_ne_true)

theorem walkFrom_zero (m : Mem) (va t : ℕ) :
    walkFrom m va 0 t = leafVal va 0 (get m t (idx va 0)) := rfl

theorem walkFrom_child
    (h : child (l + 1) (get m t (idx va (l + 1))) = some t') :
    walkFrom m va (l + 1) t =
      (walkFrom m va l t').map (restrict (rightsOf (get m t (idx va (l + 1))))) := by
  rw [walkFrom, Radix.look, h]
  rfl

theorem walkFrom_leaf
    (h : child (l + 1) (get m t (idx va (l + 1))) = none) :
    walkFrom m va (l + 1) t = leafVal va (l + 1) (get m t (idx va (l + 1))) := by
  rw [walkFrom, Radix.look, h]

theorem walkFrom_absent
    (h : isPresent (get m t (idx va l)) = false) : walkFrom m va l t = none := by
  cases l with
  | zero => rw [walkFrom_zero, leafVal_of_absent h]
  | succ l => rw [walkFrom_leaf (child_of_absent h), leafVal_of_absent h]

theorem walkPd_eq_walkFrom (m : Mem) (va t : ℕ) :
    walkPd m (entry m t (pdIdx va)) va = walkFrom m va 1 t := by
  change walkPd m (get m t (idx va 1)) va = _
  unfold walkPd
  cases hp : isPresent (get m t (idx va 1)) with
  | false => rw [if_pos rfl, walkFrom_absent hp]
  | true =>
    rw [if_neg (by simp)]
    cases hh : isHuge (get m t (idx va 1)) with
    | true =>
      rw [if_pos rfl, walkFrom_leaf (child_of_huge (by simp) hh), leafVal, if_pos hp]
    | false =>
      rw [if_neg (by simp), walkFrom_child (child_of_small hp hh), walkFrom_zero]
      change (if isPresent (get m (frameOf (get m t (idx va 1))) (idx va 0)) = false then none
        else _) = _
      cases h1 : isPresent (get m (frameOf (get m t (idx va 1))) (idx va 0)) with
      | false => rw [if_pos rfl, leafVal_of_absent h1]; rfl
      | true => rw [if_neg (by simp), leafVal, if_pos h1]; rfl

theorem walkPdpt_eq_walkFrom (m : Mem) (va t : ℕ) :
    walkPdpt m (entry m t (pdptIdx va)) va = walkFrom m va 2 t := by
  change walkPdpt m (get m t (idx va 2)) va = _
  unfold walkPdpt
  cases hp : isPresent (get m t (idx va 2)) with
  | false => rw [if_pos rfl, walkFrom_absent hp]
  | true =>
    rw [if_neg (by simp)]
    cases hh : isHuge (get m t (idx va 2)) with
    | true =>
      rw [if_pos rfl, walkFrom_leaf (child_of_huge (by simp) hh), leafVal, if_pos hp]
    | false =>
      rw [if_neg (by simp), walkFrom_child (child_of_small hp hh), walkPd_eq_walkFrom]

/-- **The walk of the processor is a lookup in the tree.** -/
theorem translate_eq_walkFrom (m : Mem) (r va : ℕ) : translate m r va = walkFrom m va 3 r := by
  change (if isPresent (get m r (idx va 3)) = false then none else _) = _
  cases hp : isPresent (get m r (idx va 3)) with
  | false => rw [if_pos rfl, walkFrom_absent hp]
  | true =>
    rw [if_neg (by simp), walkFrom_child (child_root hp), ← walkPdpt_eq_walkFrom]
    rfl

/-! ### Tables and trees -/

/-- A table of level `l` below the root `r`. -/
abbrev Table (m : Mem) (r l t : ℕ) : Prop := Radix.Reach child (get m) 3 r l t

/-- The table of level `l` on the walk of `va`. -/
abbrev OnWalk (m : Mem) (r va l t : ℕ) : Prop := Radix.Visits child (get m) (idx va) 3 r l t

abbrev IsTree (m : Mem) (r : ℕ) : Prop := Radix.Tree child (get m) 3 r

variable {m m' : Mem} {r va l t f : ℕ}

theorem Table.aligned (h : Table m r l t) (hr : r % 4096 = 0) : t % 4096 = 0 := by
  cases h with
  | root => exact hr
  | down _ hc =>
    rw [← (child_eq_some hc).2.2]
    exact frameOf_mod _

theorem Table.lt (h : Table m r l t) (hl : l < 3) : t < 2 ^ 52 := by
  cases h with
  | root => exact absurd hl (lt_irrefl 3)
  | @down _ n _ i _ hc =>
    rw [← (child_eq_some hc).2.2, frameOf]
    omega

/-- What two memories must share for a write to entry `i` of `t` to be their only difference in
the tree. -/
theorem writes_of_entries (hr : r % 4096 = 0)
    (h : ∀ t' (i' : Fin 512), t' % 4096 = 0 → (∃ l, Table m r l t') → t' ≠ t ∨ i' ≠ i →
      entry m' t' i' = entry m t' i')
    : Radix.Writes child (get m) (get m') 3 r t i :=
  fun l t' i' ht' hne => h t' i' (Table.aligned ht' hr) ⟨l, ht'⟩ hne

theorem setEntry_writes (hr : r % 4096 = 0) (ht : t % 4096 = 0) :
    Radix.Writes child (get m) (get (setEntry m t i e)) 3 r t i :=
  writes_of_entries hr fun _ i' ht' _ hne => entry_setEntry_of_ne ht ht' i.2 i'.2
    (hne.imp_right fun h h' => h (Fin.ext h'))

/-- **The two ways a write can be seen**: a write to an entry of a table of level `l` is seen by
the addresses that go through it, and changes nothing if it changes nothing below. -/
theorem translate_write (hw : Radix.Writes child (get m) (get m') 3 r t i) (ht : IsTree m r)
    (htab : Table m r l t)
    (h : OnWalk m r va l t → idx va l = i → walkFrom m' va l t = walkFrom m va l t) :
    translate m' r va = translate m r va := by
  rw [translate_eq_walkFrom, translate_eq_walkFrom]
  exact Radix.look_write hw ht htab h

/-! ### Splitting a 2 MB entry -/

/-- What lies beyond 52 bits is no memory, and reads as 0. -/
def Physical (m : Mem) : Prop := ∀ x, 2 ^ 52 ≤ x → m x = 0

/-- A frame that is no table. -/
structure FreeFrame (m : Mem) (r f : ℕ) : Prop where
  aligned : f % 4096 = 0
  low : f < 2 ^ 52
  table : ∀ l, ¬ Table m r l f

theorem Physical.entry_eq_zero (h : Physical m) (ht : 2 ^ 52 ≤ t) (i : ℕ) : entry m t i = 0 := by
  have hz : entry m t i = entry (fun _ => 0) t i :=
    Mem.load_congr 8 _ fun x hx _ => h x (by omega)
  rw [hz, entry_zero]

theorem Physical.entry_tableOf (h : Physical m) (i : ℕ)
    (hp : isPresent (entry m (tableOf e) i)) : tableOf e = frameOf e := by
  by_cases he : e < 2 ^ 52
  · exact tableOf_eq_frameOf he
  · rw [h.entry_eq_zero (by rw [tableOf]; omega)] at hp
    cases hp

theorem leafVal_split (hp : isPresent e) (hf : f % 4096 = 0) (hlow : f < 2 ^ 52) :
    (leafVal va 0 (splitEntry e (idx va 0))).map (restrict (rightsOf (f + 7))) =
      leafVal va 1 e := by
  have hi : (idx va 0 : ℕ) < 512 := (idx va 0).2
  have hpa : frameOf (splitEntry e (idx va 0)) + va % 2 ^ 12 =
      e % 2 ^ 52 / 2 ^ 21 * 2 ^ 21 + va % 2 ^ 21 := by
    rw [frameOf_splitEntry e hi, show (idx va 0 : ℕ) = va / 2 ^ 12 % 512 from rfl]
    omega
  have h0 : leafVal va 0 (splitEntry e (idx va 0)) =
      some (frameOf (splitEntry e (idx va 0)) + va % 2 ^ 12, rightsOf e) := by
    rw [← rightsOf_splitEntry e hi]
    exact if_pos (by rw [isPresent_splitEntry]; exact hp)
  have h1 : leafVal va 1 e = some (e % 2 ^ 52 / 2 ^ 21 * 2 ^ 21 + va % 2 ^ 21, rightsOf e) :=
    if_pos hp
  rw [h0, h1, hpa, rightsOf_pointer hf hlow]
  simp [restrict, Rights.meet]

section Split

variable {s : Phys} {pd : ℕ}

theorem splitAt_writes (pool : List ℕ) (hr : r % 4096 = 0) (hpd : Table s.mem r l pd)
    (hf : FreeFrame s.mem r f) (he : e < 2 ^ 64) :
    Radix.Writes child (get s.mem) (get (splitAt s pool f pd i e).mem) 3 r pd i := by
  have hne : pd ≠ f := fun h => hf.table l (h ▸ hpd)
  obtain ⟨-, -, -, hs, -⟩ := splitAt_spec (s := s) pool hf.aligned (Table.aligned hpd hr) hne i.2
    hf.low he
  refine writes_of_entries hr fun t' i' ht' ⟨l', htab⟩ hx => hs t' i' ht' i'.2 ?_ ?_
  · rintro rfl
    exact hf.table l' htab
  · exact hx.imp_right fun h h' => h (Fin.ext h')

/-- **A split is seen by no address.** -/
theorem splitAt_translate (pool : List ℕ) (hr : r % 4096 = 0) (ht : IsTree s.mem r)
    (hpd : Table s.mem r 1 pd) (i : Fin 512) (hf : FreeFrame s.mem r f)
    (hp : isPresent (entry s.mem pd i)) (hh : isHuge (entry s.mem pd i)) (va : ℕ) :
    translate (splitAt s pool f pd i (entry s.mem pd i)).mem r va = translate s.mem r va := by
  have hne : pd ≠ f := fun h => hf.table 1 (h ▸ hpd)
  obtain ⟨hpde, hpt, -⟩ := splitAt_spec (s := s) pool hf.aligned (Table.aligned hpd hr) hne i.2
    hf.low (entry_lt s.mem pd i)
  refine translate_write (splitAt_writes pool hr hpd hf (entry_lt _ _ _)) ht hpd fun _ hi => ?_
  subst hi
  have hnew : child 1 (get (splitAt s pool f pd (idx va 1) (entry s.mem pd (idx va 1))).mem pd
      (idx va 1)) = some f := by
    rw [get, hpde, child_pointer hf.aligned hf.low]
  rw [walkFrom_child hnew, walkFrom_leaf (child_of_huge (by simp) hh), walkFrom_zero, get, get,
    hpde, hpt _ (idx va 0).2]
  exact leafVal_split hp hf.aligned hf.low

end Split

/-- The entries that the kernel reads on the way to the page directory of `va`. -/
structure Followed (m : Mem) (r va e4 e3 e2 : ℕ) : Prop where
  at4 : entry m r (pml4Idx va) = e4
  at3 : entry m (tableOf e4) (pdptIdx va) = e3
  at2 : entry m (tableOf e3) (pdIdx va) = e2
  present4 : isPresent e4 = true
  present3 : isPresent e3 = true
  present2 : isPresent e2 = true

/-- A `split_2mb_pde` that succeeds has found the three entries. -/
theorem split2mbPde_followed {s : Phys} (hok : (split2mbPde s r va).1 = 0) :
    ∃ e4 e3 e2, Followed s.mem r va e4 e3 e2 := by
  have hne : ∀ s' : Phys, ((-1, s') : ℤ × Phys).1 ≠ 0 := fun _ => show (-1 : ℤ) ≠ 0 by decide
  unfold split2mbPde at hok
  dsimp only at hok
  split at hok
  · exact absurd hok (hne s)
  next h4 =>
  split at hok
  · exact absurd hok (hne s)
  next h3 =>
  split at hok
  · exact absurd hok (hne s)
  · next h2 =>
    exact ⟨_, _, _, rfl, rfl, rfl, by simpa using h4, by simpa using h3, by simpa using h2⟩

theorem split2mbPde_of_huge {s : Phys} (h : Followed s.mem r va e4 e3 e2)
    (hh : isHuge e2) : split2mbPde s r va = match s.pool with
      | [] => (-1, { s with oom := true })
      | f :: pool => (0, splitAt s pool f (tableOf e3) (pdIdx va) e2) := by
  obtain ⟨at4, at3, at2, p4, p3, p2⟩ := h
  cases hpool : s.pool with
  | nil => simp [split2mbPde, at4, at3, at2, p4, p3, p2, hh, Phys.zeroFrame, hpool]
  | cons f pool => simp [split2mbPde, at4, at3, at2, p4, p3, p2, hh, Phys.zeroFrame, hpool, splitAt]

theorem Followed.frames (h : Followed m r va e4 e3 e2) (hphys : Physical m) :
    tableOf e4 = frameOf e4 ∧ tableOf e3 = frameOf e3 :=
  ⟨hphys.entry_tableOf (pdptIdx va) (h.at3 ▸ h.present3),
    hphys.entry_tableOf (pdIdx va) (h.at2 ▸ h.present2)⟩

theorem OnWalk.pdpt_eq {r va t : ℕ} (h : OnWalk m r va 2 t) :
    frameOf (entry m r (pml4Idx va)) = t := by
  cases h with
  | down hv hc =>
    obtain rfl := hv.unique .root
    exact (child_eq_some hc).2.2

theorem OnWalk.pd_eq {r va t : ℕ} (h : OnWalk m r va 1 t) :
    frameOf (entry m (frameOf (entry m r (pml4Idx va))) (pdptIdx va)) = t := by
  cases h with
  | down hv hc =>
    rw [OnWalk.pdpt_eq hv]
    exact (child_eq_some hc).2.2

theorem OnWalk.of_idx {r va va' l t : ℕ} (h : OnWalk m r va l t)
    (hi : ∀ l', l < l' → l' ≤ 3 → idx va l' = idx va' l') : OnWalk m r va' l t := by
  induction h with
  | root => exact .root
  | @down l n n' hv hc ih =>
    refine .down (ih fun l' hl => hi l' (by omega)) ?_
    rwa [← hi (l + 1) (Nat.lt_succ_self l) hv.le]

theorem Followed.onWalk {r va pd : ℕ} (h : Followed m r va e4 e3 e2) (hphys : Physical m)
    (hpd : OnWalk m r va 1 pd) :
    tableOf e3 = pd ∧ e2 = entry m pd (pdIdx va) := by
  obtain ⟨h4, h3⟩ := h.frames hphys
  have htab : tableOf e3 = pd := by
    rw [h3, ← h.at3, h4, ← h.at4]
    exact OnWalk.pd_eq hpd
  exact ⟨htab, by rw [← h.at2, htab]⟩

/-- **Splitting is transparent**: when `split_2mb_pde` succeeds on an address below a 2 MB entry,
every address has the translation and the rights it had. -/
theorem split_transparent {s : Phys} {r va pd : ℕ} (hphys : Physical s.mem) (hr : r % 4096 = 0)
    (ht : IsTree s.mem r) (hpd : OnWalk s.mem r va 1 pd)
    (hp : isPresent (entry s.mem pd (pdIdx va)) = true)
    (hh : isHuge (entry s.mem pd (pdIdx va)) = true)
    (hfresh : ∀ f ∈ s.pool.head?, FreeFrame s.mem r f) (hok : (split2mbPde s r va).1 = 0)
    (va' : ℕ) : translate (split2mbPde s r va).2.mem r va' = translate s.mem r va' := by
  obtain ⟨e4, e3, e2, hf⟩ := split2mbPde_followed hok
  obtain ⟨htab, he2⟩ := hf.onWalk hphys hpd
  have hs := split2mbPde_of_huge hf (he2 ▸ hh)
  cases hpool : s.pool with
  | nil =>
    rw [hpool] at hs
    rw [hs] at hok
    exact absurd hok (show (-1 : ℤ) ≠ 0 by decide)
  | cons f pool =>
    rw [hpool] at hs
    rw [hs, htab, he2]
    exact splitAt_translate pool hr ht hpd.reach (idx va 1) (hfresh f (by rw [hpool]; rfl)) hp hh va'

/-! ### A small tree -/

theorem entry_setEntry {t i i' : ℕ} (ht : t % 4096 = 0) (ht' : t' % 4096 = 0)
    (hi : i < 512) (hi' : i' < 512) (he : e < 2 ^ 64) :
    entry (setEntry m t i e) t' i' = if t' = t ∧ i' = i then e else entry m t' i' := by
  split
  · next h => rw [h.1, h.2, entry_setEntry_self m t i e, Nat.mod_eq_of_lt he]
  · next h => exact entry_setEntry_of_ne ht ht' hi hi' (not_and_or.mp h)

/-- Four tables, with a 2 MB page at 0 and a page at `0x200000`. -/
def smallTree : Mem :=
  setEntry (setEntry (setEntry (setEntry (setEntry (fun _ => 0) 0x1000 0 0x2007) 0x2000 0 0x3007)
    0x3000 0 0x200087) 0x3000 1 0x4007) 0x4000 0 0x5007

theorem smallTree_entry {t i : ℕ} (ht : t % 4096 = 0) (hi : i < 512) : entry smallTree t i =
    if t = 0x4000 ∧ i = 0 then 0x5007 else if t = 0x3000 ∧ i = 1 then 0x4007
    else if t = 0x3000 ∧ i = 0 then 0x200087 else if t = 0x2000 ∧ i = 0 then 0x3007
    else if t = 0x1000 ∧ i = 0 then 0x2007 else 0 := by
  rw [smallTree, entry_setEntry (by simp) ht (by simp) hi (by simp),
    entry_setEntry (by simp) ht (by simp) hi (by simp),
    entry_setEntry (by simp) ht (by simp) hi (by simp),
    entry_setEntry (by simp) ht (by simp) hi (by simp),
    entry_setEntry (by simp) ht (by simp) hi (by simp), entry_zero]

/-- The table of each level. -/
def smallTable : ℕ → ℕ
  | 0 => 0x4000
  | 1 => 0x3000
  | 2 => 0x2000
  | _ => 0x1000

theorem smallTable_mod (l : ℕ) : smallTable l % 4096 = 0 := by
  unfold smallTable
  split <;> rfl

/-- The index of the entry that leads to the table of a level. -/
def smallIndex (l : ℕ) : ℕ := if l = 0 then 1 else 0

theorem smallTree_down (hl : l < 3)
    (h : child (l + 1) (get smallTree (smallTable (l + 1)) i) = some t') :
    t' = smallTable l ∧ i = smallIndex l := by
  obtain ⟨hp, hh, rfl⟩ := child_eq_some h
  rw [get, smallTree_entry (smallTable_mod _) i.2] at hp hh ⊢
  by_cases h0 : (i : ℕ) = 0
  · interval_cases l
    · simp only [smallTable, h0, isHuge] at hh
      exact absurd (hh (by simp)) (by decide)
    · simp [smallTable, smallIndex, h0, frameOf]
    · simp [smallTable, smallIndex, h0, frameOf]
  interval_cases l
  · by_cases h1 : (i : ℕ) = 1
    · simp [smallTable, smallIndex, h1, frameOf]
    · simp [h0, h1, isPresent] at hp
  · simp [smallTable, h0, isPresent] at hp
  · simp [smallTable, h0, isPresent] at hp

theorem smallTree_table {l t : ℕ} (h : Table smallTree 0x1000 l t) : t = smallTable l := by
  induction h with
  | root => rfl
  | @down l n n' i hr hc ih =>
    rw [ih] at hc
    exact (smallTree_down (Nat.lt_of_succ_le hr.le) hc).1

theorem smallTable_inj {l l' : ℕ} (hl : l ≤ 3) (hl' : l' ≤ 3) (h : smallTable l = smallTable l') :
    l = l' := by
  revert h
  interval_cases l <;> interval_cases l' <;> decide

theorem smallTree_isTree : IsTree smallTree 0x1000 where
  level h h' := smallTable_inj h.le h'.le ((smallTree_table h).symm.trans (smallTree_table h'))
  parent {l n1 n2 n' i1 i2} h1 hc1 h2 hc2 := by
    have hl : l < 3 := Nat.lt_of_succ_le h1.le
    rw [smallTree_table h1] at hc1 ⊢
    rw [smallTree_table h2] at hc2 ⊢
    exact ⟨rfl, Fin.ext ((smallTree_down hl hc1).2.trans (smallTree_down hl hc2).2.symm)⟩

theorem smallTree_free {f : ℕ} (hf : f % 4096 = 0) (hlo : 0x5000 ≤ f) (hlow : f < 2 ^ 52) :
    FreeFrame smallTree 0x1000 f where
  aligned := hf
  low := hlow
  table l h := by
    have hle := h.le
    have ht := smallTree_table h
    interval_cases l <;> simp only [smallTable] at ht <;> omega

theorem smallTree_physical : Physical smallTree := by
  intro x hx
  simp only [smallTree, setEntry]
  repeat rw [Mem.store_apply_of_not_mem (by omega)]

theorem smallTree_onWalk {va : ℕ} (hva : va < 2 ^ 30) : OnWalk smallTree 0x1000 va 1 0x3000 := by
  have h3 : idx va 3 = 0 := Fin.ext (show va / 2 ^ 39 % 512 = 0 by omega)
  have h2 : idx va 2 = 0 := Fin.ext (show va / 2 ^ 30 % 512 = 0 by omega)
  have hc3 : child 3 (get smallTree 0x1000 (idx va 3)) = some 0x2000 := by
    rw [h3]
    decide +kernel
  have hc2 : child 2 (get smallTree 0x2000 (idx va 2)) = some 0x3000 := by
    rw [h2]
    decide +kernel
  exact .down (.down .root hc3) hc2

theorem split_transparent_smallTree :
    translate (split2mbPde ⟨smallTree, [0x6000], false⟩ 0x1000 0x1234).2.mem 0x1000 0x5678 =
      translate smallTree 0x1000 0x5678 := by
  refine split_transparent (s := ⟨smallTree, [0x6000], false⟩) smallTree_physical (by simp)
    smallTree_isTree (smallTree_onWalk (by simp)) (by decide +kernel) (by decide +kernel)
    (fun f hf => ?_) (by decide +kernel) _
  have hf : 0x6000 = f := by simpa using hf
  exact smallTree_free (by omega) (by omega) (by omega)

end TipOS.Paging
