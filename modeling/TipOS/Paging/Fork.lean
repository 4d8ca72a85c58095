import TipOS.Paging.Entries

/-!
# What `proc_fork` does to the tables

`pml4_create` copies the 512 entries of the root, so parent and child have the same lower
tables.  `copy_user_space` then walks the user pages of the parent.  For each it calls
`child_frame_for`, which splits a 2 MB entry (in the table both share) and asks
`map_user_4kb` for a frame; the page is mapped, so the frame it returns is the frame of the
parent, and the page is copied onto itself.

`Split` is the invariant of the walk: memory is as before, but some 2 MB entries of page
directories have been replaced by tables of their pieces, in frames of the pool.  It gives
`userTranslate_split`: in parent and child every user address is translated as it was in
the parent before.
-/

namespace TipOS.Paging

open Lib Bool List

variable {pde t : ℕ} {pool : List ℕ}

/-! ### Filling a table -/

theorem fillTable_spec {f : ℕ} (hf : f % 4096 = 0) (g : ℕ → ℕ) (s : Phys) {n : ℕ} (hn : n ≤ 512) :
    let s' := forLoop (fun i s => s.setEntry f i (g i)) n s
    (∀ i < n, entry s'.mem f i = g i % 2 ^ 64) ∧
    (∀ x, x / 4096 * 4096 ≠ f → s'.mem x = s.mem x) ∧ s'.pool = s.pool ∧ s'.oom = s.oom := by
  refine forLoop_induct (fun n (s' : Phys) => (∀ i < n, entry s'.mem f i = g i % 2 ^ 64) ∧
    (∀ x, x / 4096 * 4096 ≠ f → s'.mem x = s.mem x) ∧ s'.pool = s.pool ∧ s'.oom = s.oom)
    ⟨fun i hi => absurd hi (Nat.not_lt_zero i), fun _ _ => rfl, rfl, rfl⟩ ?_
  intro k hk s' ih
  obtain ⟨hent, hbytes, hpool, hoom⟩ := ih
  refine ⟨fun i hi => ?_, fun x hx => ?_, hpool, hoom⟩
  · by_cases hik : i = k
    · subst hik
      exact entry_setEntry_self _ _ _ _
    · rw [← hent i (by omega)]
      exact entry_setEntry_of_ne hf hf (by omega) (by omega) (.inr hik)
  · rw [← hbytes x hx]
    exact setEntry_apply_of_ne hf (by omega) hx

theorem fillSplit_spec {f : ℕ} (hf : f % 4096 = 0) (hpde : pde < 2 ^ 64) (s : Phys) :
    (∀ n < 512, entry (fillSplit f pde s).mem f n = splitEntry pde n) ∧
    (∀ x, x / 4096 * 4096 ≠ f → (fillSplit f pde s).mem x = s.mem x) ∧
    (fillSplit f pde s).pool = s.pool ∧ (fillSplit f pde s).oom = s.oom := by
  obtain ⟨hent, hbytes, hp, ho⟩ := fillTable_spec hf (splitEntry pde) s (le_refl 512)
  rw [fillSplit]
  exact ⟨fun n hn => (hent n hn).trans (Nat.mod_eq_of_lt (splitEntry_lt hpde hn)), hbytes, hp, ho⟩

theorem copyPage_self (p : ℕ) (s : Phys) : copyPage p p s = s := by
  rw [copyPage]
  refine forLoop_fixed fun b _ => ?_
  rw [Mem.store_load]

/-! ### A mapped page is returned as it is -/

/-- The tables on the way to `va`, in memory `m`. -/
structure Walk (m : Mem) (root va e4 e3 e2 : ℕ) : Prop where
  at4 : entry m root (pml4Idx va) = e4
  at3 : entry m (frameOf e4) (pdptIdx va) = e3
  at2 : entry m (frameOf e3) (pdIdx va) = e2
  present4 : isPresent e4 = true
  present3 : isPresent e3 = true
  present2 : isPresent e2 = true
  low4 : e4 < 2 ^ 52
  low3 : e3 < 2 ^ 52

section Mapped

variable {s : Phys} {root va e4 e3 e2 e1 f : ℕ}

theorem ensureTable_present {i : ℕ} (h : isPresent (entry s.mem t i)) :
    ensureTable s t i = some s := by
  rw [ensureTable, if_pos h]

/-- The state after a 2 MB entry was replaced by a table of its pieces at `f`. -/
def splitAt (s : Phys) (pool : List ℕ) (f pd k pde : ℕ) : Phys :=
  (fillSplit f pde { s with pool := pool, mem := s.mem.fill f 4096 0 }).setEntry pd k (f ||| 0x07)

theorem split2mbPde_walk (h : Walk s.mem root va e4 e3 e2) : split2mbPde s root (hugeDown va) =
    if isHuge e2 = false then (0, s) else match s.pool with
      | [] => (-1, { s with oom := true })
      | f :: pool => (0, splitAt s pool f (frameOf e3) (pdIdx va) e2) := by
  obtain ⟨at4, at3, at2, p4, p3, p2, l4, l3⟩ := h
  obtain ⟨i4, i3, i2⟩ := idx_hugeDown va
  simp only [split2mbPde, i4, i3, i2, at4, at3, at2, tableOf_eq_frameOf l4, tableOf_eq_frameOf l3,
    p4, p3, p2, Phys.zeroFrame]
  cases s.pool <;> rfl

theorem split2mbPde_small (h : Walk s.mem root va e4 e3 e2) (hh : isHuge e2 = false) :
    split2mbPde s root (hugeDown va) = (0, s) := by
  rw [split2mbPde_walk h, if_pos hh]

theorem childFrameFor_of_mapped (h : Walk s.mem root va e4 e3 e2) (hh : isHuge e2 = false)
    (h2 : e2 < 2 ^ 52) (at1 : entry s.mem (frameOf e2) (ptIdx va) = e1)
    (p1 : isPresent e1) : childFrameFor s root va = (frameOf e1, s) := by
  have hsplit := split2mbPde_small h hh
  obtain ⟨at4, at3, at2, p4, p3, p2, l4, l3⟩ := h
  have t4 := tableOf_eq_frameOf l4
  have t3 := tableOf_eq_frameOf l3
  have t2 := tableOf_eq_frameOf h2
  have hmap : mapUser4kb s root va = (0, s) := by
    simp [mapUser4kb, ensureTable, at4, at3, at2, at1, t4, t3, t2, p4, p3, p2, p1, hh]
  simp [childFrameFor, hsplit, hmap, at4, at3, at2, at1, t4, t3, t2, p1]

theorem split2mbPde_huge (h : Walk s.mem root va e4 e3 e2) (hh : isHuge e2)
    (hpool : s.pool = f :: pool) :
    split2mbPde s root (hugeDown va) =
      (0, splitAt s pool f (frameOf e3) (pdIdx va) e2) := by
  simp [split2mbPde_walk h, hh, hpool]

theorem split2mbPde_oom (h : Walk s.mem root va e4 e3 e2) (hh : isHuge e2)
    (hpool : s.pool = []) :
    split2mbPde s root (hugeDown va) = (-1, { s with oom := true }) := by
  simp [split2mbPde_walk h, hh, hpool]

theorem splitAt_spec (pool : List ℕ) {pd k : ℕ} (hf : f % 4096 = 0) (hpd : pd % 4096 = 0)
    (hne : pd ≠ f) (hk : k < 512) (hlt : f < 2 ^ 52) (hpde : pde < 2 ^ 64) :
    entry (splitAt s pool f pd k pde).mem pd k = f + 7 ∧
    (∀ n < 512, entry (splitAt s pool f pd k pde).mem f n = splitEntry pde n) ∧
    (∀ x, x / 4096 * 4096 ≠ f → x / 4096 * 4096 ≠ pd →
      (splitAt s pool f pd k pde).mem x = s.mem x) ∧
    (∀ t i, t % 4096 = 0 → i < 512 → t ≠ f → t ≠ pd ∨ i ≠ k →
      entry (splitAt s pool f pd k pde).mem t i = entry s.mem t i) ∧
    (splitAt s pool f pd k pde).pool = pool ∧ (splitAt s pool f pd k pde).oom = s.oom := by
  obtain ⟨hent, hbytes, hp, ho⟩ := fillSplit_spec hf hpde
    { s with pool := pool, mem := s.mem.fill f 4096 0 }
  rw [splitAt, Phys.setEntry_pool, Phys.setEntry_oom, Phys.setEntry_mem]
  have hfill : ∀ x, x / 4096 * 4096 ≠ f → s.mem.fill f 4096 0 x = s.mem x :=
    fun x hx => fill_apply_of_ne hf hx
  refine ⟨?_, fun n hn => ?_, fun x hxf hxp => ?_, fun t i ht hi htf hti => ?_, hp, ho⟩
  · rw [entry_setEntry_self, or_seven hf]
    exact Nat.mod_eq_of_lt (by omega)
  · rw [entry_setEntry_of_ne hpd hf hk hn (.inl hne.symm), hent n hn]
  · rw [setEntry_apply_of_ne hpd hk hxp, hbytes x hxf]
    exact hfill x hxf
  · rw [entry_setEntry_of_ne hpd ht hk hi hti]
    refine entry_congr ht hi fun x hx => ?_
    rw [hbytes x (by rw [hx]; exact htf)]
    exact hfill x (by rw [hx]; exact htf)

end Mapped

attribute [irreducible] splitAt

/-! ### Frames only leave the pool -/

/-- From `s` to `s'` frames have left the pool from its head on.  That an allocation failed is
remembered, and it fails only when the pool is empty. -/
structure Shrinks (s s' : Phys) : Prop where
  rest : s'.pool <:+ s.pool
  oom : s.oom = true → s'.oom = true
  empty : (s.oom = true → s.pool = []) → s'.oom = true → s'.pool = []

section Shrinks

variable {s s' s'' : Phys}

theorem Shrinks.refl (s : Phys) : Shrinks s s := ⟨suffix_refl _, id, id⟩

theorem Shrinks.trans (h : Shrinks s s') (h' : Shrinks s' s'') : Shrinks s s'' :=
  ⟨h'.rest.trans h.rest, fun ho => h'.oom (h.oom ho), fun hs => h'.empty (h.empty hs)⟩

theorem Shrinks.of_same (hp : s'.pool = s.pool) (ho : s'.oom = s.oom) : Shrinks s s' := by
  refine ⟨hp.symm ▸ suffix_refl _, fun h => by rw [ho, h], fun h h' => ?_⟩
  rw [hp]
  exact h (by rw [← ho, h'])

theorem Shrinks.setOom (h : Shrinks s s') (he : s'.pool = []) :
    Shrinks s { s' with oom := true } :=
  ⟨h.rest, fun _ => rfl, fun _ _ => he⟩

theorem Shrinks.length_le (h : Shrinks s s') : s'.pool.length ≤ s.pool.length :=
  h.rest.length_le

theorem shrinks_zeroFrame (s : Phys) : Shrinks s s.zeroFrame.2 := by
  unfold Phys.zeroFrame
  split
  · next he => exact (Shrinks.refl s).setOom he
  · next f t he =>
    refine ⟨by rw [he]; exact suffix_cons f t, id, fun h ho => ?_⟩
    cases (h ho).symm.trans he

theorem shrinks_setEntry (s : Phys) (t i e : ℕ) : Shrinks s (s.setEntry t i e) :=
  Shrinks.of_same rfl rfl

theorem shrinks_ensureTable {i : ℕ} (he : ensureTable s t i = some s') : Shrinks s s' := by
  unfold ensureTable at he
  split at he
  · cases he
    exact Shrinks.refl s
  have hz := shrinks_zeroFrame s
  split at he
  · cases he
  next heq =>
  cases he
  rw [heq] at hz
  exact hz.trans (shrinks_setEntry _ _ _ _)

theorem ensureTable_none {i : ℕ} (he : ensureTable s t i = none) :
    isPresent (entry s.mem t i) = false ∧ s.pool = [] := by
  unfold ensureTable at he
  split at he
  · cases he
  next hp =>
  refine ⟨eq_false_iff.mpr hp, ?_⟩
  unfold Phys.zeroFrame at he
  cases hpool : s.pool with
  | nil => rfl
  | cons f pool =>
    rw [hpool] at he
    cases he

theorem shrinks_mapUser4kb (s : Phys) (root va : ℕ) : Shrinks s (mapUser4kb s root va).2 := by
  unfold mapUser4kb
  split
  · next h1 => exact (Shrinks.refl s).setOom (ensureTable_none h1).2
  next s1 h1 =>
  have hs1 := shrinks_ensureTable h1
  dsimp only
  split
  · next h2 => exact hs1.setOom (ensureTable_none h2).2
  next s2 h2 =>
  have hs2 := hs1.trans (shrinks_ensureTable h2)
  split
  · exact hs2
  split
  · next h3 => exact hs2.setOom (ensureTable_none h3).2
  next s3 h3 =>
  have hs3 := hs2.trans (shrinks_ensureTable h3)
  split
  · exact hs3
  have hz := hs3.trans (shrinks_zeroFrame s3)
  split
  · next heq => rw [heq] at hz; exact hz
  · next heq => rw [heq] at hz; exact hz.trans (shrinks_setEntry _ _ _ _)

theorem shrinks_forLoop {f : ℕ → Phys → Phys} (h : ∀ i s, Shrinks s (f i s)) (n : ℕ) (s : Phys) :
    Shrinks s (forLoop f n s) :=
  forLoop_inv (Shrinks s) (Shrinks.refl s) fun i _ t ht => ht.trans (h i t)

theorem shrinks_fillSplit (f pde : ℕ) (s : Phys) : Shrinks s (fillSplit f pde s) := by
  rw [fillSplit]
  apply shrinks_forLoop
  intro i t
  exact shrinks_setEntry t f i _

theorem shrinks_copyPage (dst src : ℕ) (s : Phys) : Shrinks s (copyPage dst src s) := by
  rw [copyPage]
  apply shrinks_forLoop
  intro b t
  exact Shrinks.of_same rfl rfl

theorem shrinks_split2mbPde (s : Phys) (root va : ℕ) : Shrinks s (split2mbPde s root va).2 := by
  unfold split2mbPde
  dsimp only
  split
  · exact Shrinks.refl s
  split
  · exact Shrinks.refl s
  split
  · exact Shrinks.refl s
  split
  · exact Shrinks.refl s
  have hz := shrinks_zeroFrame s
  split
  · next heq => rw [heq] at hz; exact hz
  · next heq =>
    rw [heq] at hz
    exact (hz.trans (shrinks_fillSplit _ _ _)).trans (shrinks_setEntry _ _ _ _)

/-- `child_frame_for` after its split. -/
theorem shrinks_childFrameFor_split (s : Phys) (child va : ℕ) :
    Shrinks (split2mbPde s child (hugeDown va)).2 (childFrameFor s child va).2 := by
  have hm := shrinks_mapUser4kb (split2mbPde s child (hugeDown va)).2 child va
  unfold childFrameFor
  dsimp only
  split
  · exact hm
  · split
    · exact hm
    · exact hm

/-- The copy of a page after `child_frame_for`. -/
theorem shrinks_copyTo_frame (s : Phys) (child va src : ℕ) :
    Shrinks (childFrameFor s child va).2 (copyTo s child va src) := by
  unfold copyTo
  dsimp only
  split
  · exact Shrinks.refl _
  · exact shrinks_copyPage _ _ _

theorem shrinks_copyTo (s : Phys) (child va src : ℕ) : Shrinks s (copyTo s child va src) :=
  ((shrinks_split2mbPde s child (hugeDown va)).trans (shrinks_childFrameFor_split s child va)).trans
    (shrinks_copyTo_frame s child va src)

theorem shrinks_copyPde (child base e2 : ℕ) (s : Phys) : Shrinks s (copyPde child base e2 s) := by
  rw [copyPde]
  split
  · exact Shrinks.refl s
  split
  · rw [copyHuge]
    apply shrinks_forLoop
    intro n t
    exact shrinks_copyTo t _ _ _
  rw [copyPt]
  apply shrinks_forLoop
  intro n t
  split
  · exact Shrinks.refl t
  · exact shrinks_copyTo t _ _ _

theorem shrinks_copyPdpte (child base e3 : ℕ) (s : Phys) :
    Shrinks s (copyPdpte child base e3 s) := by
  rw [copyPdpte]
  split
  · exact Shrinks.refl s
  split
  · exact Shrinks.refl s
  rw [copyPd]
  apply shrinks_forLoop
  intro k t
  exact shrinks_copyPde _ _ _ t

theorem shrinks_copyPml4e (child base e4 : ℕ) (s : Phys) :
    Shrinks s (copyPml4e child base e4 s) := by
  rw [copyPml4e]
  split
  · exact Shrinks.refl s
  rw [copyPdpt]
  apply shrinks_forLoop
  intro j t
  exact shrinks_copyPdpte _ _ _ t

theorem shrinks_copyUserSpace (src child : ℕ) (s : Phys) :
    Shrinks s (copyUserSpace src child s) := by
  rw [copyUserSpace]
  apply shrinks_forLoop
  intro i t
  exact shrinks_copyPml4e _ _ _ t

end Shrinks

/-! ### The tables of a user space -/

section Space

variable (m : Mem) (r : ℕ)

/-- A page-directory-pointer table on the way to a user address. -/
def UserPdpt (t : ℕ) : Prop :=
  ∃ i < 512, isUserPresent (entry m r i) = true ∧ t = frameOf (entry m r i)

/-- A page directory on the way to a user address. -/
def UserPd (t : ℕ) : Prop :=
  ∃ q, UserPdpt m r q ∧ ∃ j < 512, isUserPresent (entry m q j) = true ∧
    isHuge (entry m q j) = false ∧ t = frameOf (entry m q j)

/-- A page table on the way to a user address. -/
def UserPt (t : ℕ) : Prop :=
  ∃ q, UserPd m r q ∧ ∃ k < 512, isUserPresent (entry m q k) = true ∧
    isHuge (entry m q k) = false ∧ t = frameOf (entry m q k)

/-- A table of the user space. -/
def UserTable (t : ℕ) : Prop := t = r ∨ UserPdpt m r t ∨ UserPd m r t ∨ UserPt m r t

/-- The translation of an address a user program may use. -/
def userTranslate (va : ℕ) : Option (ℕ × Rights) := (translate m r va).filter (·.2.u)

/-- A frame of 4 KB with bytes a user program can read. -/
def UserFrame (f : ℕ) : Prop := ∃ va x, userTranslate m r va = some x ∧ f = x.1 / 4096 * 4096

/-- **A proper address space.**  The entries on the way to user addresses have no bits above the
address except in leaves, 2 MB pages lie below `2 ^ 44`, a page directory has no other use, and
no user address leads into a table. -/
structure SpaceOk : Prop where
  root : r % 4096 = 0
  low4 : ∀ i < 512, isUserPresent (entry m r i) = true → entry m r i < 2 ^ 52
  low3 : ∀ t, UserPdpt m r t → ∀ j < 512, isUserPresent (entry m t j) = true →
    isHuge (entry m t j) = false → entry m t j < 2 ^ 52
  low2 : ∀ t, UserPd m r t → ∀ k < 512, isUserPresent (entry m t k) = true →
    isHuge (entry m t k) = false → entry m t k < 2 ^ 52
  huge2 : ∀ t, UserPd m r t → ∀ k < 512, isUserPresent (entry m t k) = true →
    isHuge (entry m t k) = true → entry m t k % 2 ^ 52 < 2 ^ 44
  pd : ∀ t, UserPd m r t → t ≠ r ∧ ¬ UserPdpt m r t ∧ ¬ UserPt m r t
  user : ∀ f, UserFrame m r f → ¬ UserTable m r f

/-- A frame the allocator may return: aligned, and used by neither tables nor user pages. -/
structure FreshFrame (f : ℕ) : Prop where
  aligned : f % 4096 = 0
  low : f < 2 ^ 52
  table : ¬ UserTable m r f
  user : ¬ UserFrame m r f

end Space

theorem UserPdpt.aligned {m : Mem} {r : ℕ} (h : UserPdpt m r t) : t % 4096 = 0 := by
  obtain ⟨i, _, _, rfl⟩ := h
  exact frameOf_mod _

theorem UserPd.aligned {m : Mem} {r : ℕ} (h : UserPd m r t) : t % 4096 = 0 := by
  obtain ⟨q, _, j, _, _, _, rfl⟩ := h
  exact frameOf_mod _

/-! ### The invariant of the walk -/

/-- Memory is `m` but for 2 MB entries of user page directories that were split, with the
tables of their pieces in frames of `F` that have left the pool. -/
structure Split (m : Mem) (r : ℕ) (F : List ℕ) (s : Phys) : Prop where
  sub : ∀ f ∈ s.pool, f ∈ F
  nodup : s.pool.Nodup
  frame : ∀ x, ¬ UserPd m r (x / 4096 * 4096) → x / 4096 * 4096 ∉ F → s.mem x = m x
  pd : ∀ d, UserPd m r d → ∀ k < 512, entry s.mem d k = entry m d k ∨
    isUserPresent (entry m d k) = true ∧ isHuge (entry m d k) = true ∧
    ∃ f ∈ F, f ∉ s.pool ∧ entry s.mem d k = f + 7 ∧
      ∀ n < 512, entry s.mem f n = splitEntry (entry m d k) n

/-- The frames that have left the pool stay out of it, with their contents. -/
def Keeps (F : List ℕ) (s s' : Phys) : Prop :=
  ∀ g ∈ F, g ∉ s.pool → g ∉ s'.pool ∧ ∀ n < 512, entry s'.mem g n = entry s.mem g n

/-- The frame of page `n` below a PD entry. -/
def leafFrame (m : Mem) (e2 n : ℕ) : ℕ :=
  if isHuge e2 then e2 % 2 ^ 52 / 2 ^ 21 * 2 ^ 21 + n * 2 ^ 12 else frameOf (entry m (frameOf e2) n)

namespace Split

variable {m : Mem} {r c : ℕ} {F : List ℕ} {s : Phys}

theorem entry_eq (h : Split m r F s) {i : ℕ} (ht : t % 4096 = 0) (hpd : ¬ UserPd m r t)
    (hF : t ∉ F) (hi : i < 512) : entry s.mem t i = entry m t i :=
  entry_congr ht hi fun x hx => h.frame x (by rwa [hx]) (by rwa [hx])

theorem more {f d k : ℕ} (h : Split m r F s) (hF : ∀ f ∈ F, FreshFrame m r f)
    (hpool : s.pool = f :: pool) (hd : UserPd m r d) (hk : k < 512)
    (hent : entry s.mem d k = entry m d k) (hup : isUserPresent (entry m d k))
    (hh : isHuge (entry m d k)) :
    Split m r F (splitAt s pool f d k (entry m d k)) ∧
    Keeps F s (splitAt s pool f d k (entry m d k)) := by
  have hfp : f ∈ s.pool := by rw [hpool]; simp
  have hfF := h.sub f hfp
  have hfresh := hF f hfF
  have hne : ∀ d', UserPd m r d' → d' ≠ f := fun d' hd' he =>
    hfresh.table (.inr (.inr (.inl (he ▸ hd'))))
  have hgd : ∀ g ∈ F, g ≠ d := fun g hg he =>
    (hF g hg).table (.inr (.inr (.inl (he ▸ hd))))
  have hnd : f ∉ pool ∧ pool.Nodup := by
    have hn := h.nodup
    rw [hpool] at hn
    exact nodup_cons.mp hn
  obtain ⟨hs1, hs2, hs3, hs4, hs5, -⟩ := splitAt_spec (s := s) pool hfresh.aligned hd.aligned
    (hne d hd) hk hfresh.low (entry_lt m d k)
  have hused : Keeps F s (splitAt s pool f d k (entry m d k)) := by
    intro g hg hgp
    rw [hpool] at hgp
    rw [hs5]
    refine ⟨fun hm => hgp (.tail _ hm), fun n hn => ?_⟩
    exact hs4 g n (hF g hg).aligned hn (fun he => hgp (he ▸ mem_cons_self))
      (.inl (hgd g hg))
  refine ⟨⟨fun g hg => ?_, ?_, fun x hxd hxF => ?_, fun d' hd' k' hk' => ?_⟩, hused⟩
  · rw [hs5] at hg
    exact h.sub g (by rw [hpool]; exact .tail _ hg)
  · rw [hs5]
    exact hnd.2
  · rw [hs3 x (fun he => hxF (he ▸ hfF)) (fun he => hxd (he ▸ hd))]
    exact h.frame x hxd hxF
  by_cases heq : d' = d ∧ k' = k
  · obtain ⟨rfl, rfl⟩ := heq
    exact .inr ⟨hup, hh, f, hfF, by rw [hs5]; exact hnd.1, hs1, hs2⟩
  have hold := hs4 d' k' hd'.aligned hk' (hne d' hd') (not_and_or.mp heq)
  rcases h.pd d' hd' k' hk' with hsame | ⟨hu, hhu, g, hg, hgp, hge, hgn⟩
  · exact .inl (hold.trans hsame)
  · obtain ⟨hgp', hgs⟩ := hused g hg hgp
    exact .inr ⟨hu, hhu, g, hg, hgp', hold.trans hge, fun n hn => (hgs n hn).trans (hgn n hn)⟩

end Split

/-- After `pml4_create`: a proper address space at `r`, a root `c` with the same entries, and
fresh frames `F` left in the pool. -/
structure Forked (m : Mem) (r c : ℕ) (F : List ℕ) : Prop where
  ok : SpaceOk m r
  fresh : ∀ f ∈ F, FreshFrame m r f
  child : FreshFrame m r c
  childF : c ∉ F
  copied : ∀ i < 512, entry m c i = entry m r i

/-- The page directory below the user entries `i` and `j`. -/
structure PdPath (m : Mem) (r i j d : ℕ) : Prop where
  i_lt : i < 512
  j_lt : j < 512
  up4 : isUserPresent (entry m r i) = true
  up3 : isUserPresent (entry m (frameOf (entry m r i)) j) = true
  small : isHuge (entry m (frameOf (entry m r i)) j) = false
  eq : d = frameOf (entry m (frameOf (entry m r i)) j)

section Walk

variable {m : Mem} {r c : ℕ} {F : List ℕ} {s : Phys} {i j k n d : ℕ}

theorem PdPath.pdpt (h : PdPath m r i j d) : UserPdpt m r (frameOf (entry m r i)) :=
  ⟨i, h.i_lt, h.up4, rfl⟩

theorem PdPath.pd (h : PdPath m r i j d) : UserPd m r d := ⟨_, h.pdpt, j, h.j_lt, h.up3, h.small, h.eq⟩

namespace Forked

section

variable (h : Forked m r c F)

include h

theorem root_notMem : r ∉ F := fun hr => (h.fresh r hr).table (.inl rfl)

theorem root_not_pd : ¬ UserPd m r r := fun hp => (h.ok.pd r hp).1 rfl

theorem child_not_pd : ¬ UserPd m r c :=
  fun hp => h.child.table (.inr (.inr (.inl hp)))

theorem pdpt_not_pd (ht : UserPdpt m r t) : ¬ UserPd m r t :=
  fun hp => (h.ok.pd t hp).2.1 ht

theorem pdpt_notMem (ht : UserPdpt m r t) : t ∉ F :=
  fun hf => (h.fresh t hf).table (.inr (.inl ht))

theorem pt_not_pd (ht : UserPt m r t) : ¬ UserPd m r t :=
  fun hp => (h.ok.pd t hp).2.2 ht

theorem pt_notMem (ht : UserPt m r t) : t ∉ F :=
  fun hf => (h.fresh t hf).table (.inr (.inr (.inr ht)))

end

end Forked

section

variable (h : Split m r F s)

include h

section

variable (hf : Forked m r c F)

include hf

theorem Split.root_entry {q : ℕ} (hq : q = r ∨ q = c) (hi : i < 512) :
    entry s.mem q i = entry m r i := by
  rcases hq with rfl | rfl
  · exact h.entry_eq hf.ok.root hf.root_not_pd hf.root_notMem hi
  · rw [h.entry_eq hf.child.aligned hf.child_not_pd hf.childF hi, hf.copied i hi]

theorem Split.pdpt_entry (ht : UserPdpt m r t) (hj : j < 512) :
    entry s.mem t j = entry m t j :=
  h.entry_eq ht.aligned (hf.pdpt_not_pd ht) (hf.pdpt_notMem ht) hj

theorem Split.pt_entry (ht : UserPt m r t) (hn : n < 512) :
    entry s.mem t n = entry m t n := by
  have hal : t % 4096 = 0 := by
    obtain ⟨q, _, k, _, _, _, rfl⟩ := ht
    exact frameOf_mod _
  exact h.entry_eq hal (hf.pt_not_pd ht) (hf.pt_notMem ht) hn

theorem Split.walk (hp : PdPath m r i j d) (hk : k < 512) (hn : n < 512)
    (h2 : isPresent (entry s.mem d k)) :
    Walk s.mem c (pageAddr i j k n) (entry m r i) (entry m (frameOf (entry m r i)) j)
      (entry s.mem d k) := by
  obtain ⟨i4, i3, i2, -⟩ := idx_pageAddr hp.i_lt hp.j_lt hk hn
  refine ⟨?_, ?_, ?_, isPresent_of_isUserPresent hp.up4, isPresent_of_isUserPresent hp.up3, h2,
    hf.ok.low4 i hp.i_lt hp.up4, hf.ok.low3 _ hp.pdpt j hp.j_lt hp.up3 hp.small⟩
  · rw [i4]
    exact h.root_entry hf (.inr rfl) hp.i_lt
  · rw [i3]
    exact h.pdpt_entry hf hp.pdpt hp.j_lt
  · rw [i2, ← hp.eq]

theorem Split.childFrame_split (hp : PdPath m r i j d) (hk : k < 512) (hn : n < 512) {f : ℕ}
    (hfF : f ∈ F) (he : entry s.mem d k = f + 7) (hup : isUserPresent (entry m d k))
    (hh : isHuge (entry m d k))
    (hpt : ∀ n < 512, entry s.mem f n = splitEntry (entry m d k) n) :
    childFrameFor s c (pageAddr i j k n) = (leafFrame m (entry m d k) n, s) := by
  have hfr := hf.fresh f hfF
  have hlow := hfr.low
  have hal := hfr.aligned
  obtain ⟨-, -, -, i1⟩ := idx_pageAddr hp.i_lt hp.j_lt hk hn
  have hpres : isPresent (f + 7) := isPresent_pointer hal
  have hw := h.walk hf hp hk hn (by rw [he]; exact hpres)
  rw [he] at hw
  have hat : entry s.mem (frameOf (f + 7)) (ptIdx (pageAddr i j k n)) = splitEntry (entry m d k) n := by
    rw [frameOf_pointer hal hlow, i1, hpt n hn]
  have hpte : isPresent (splitEntry (entry m d k) n) := by
    rw [isPresent_splitEntry]
    exact isPresent_of_isUserPresent hup
  rw [childFrameFor_of_mapped hw (isHuge_pointer hal) (by omega) hat hpte, frameOf_splitEntry _ hn,
    leafFrame, if_pos hh]

theorem Split.childFrame_small (hp : PdPath m r i j d) (hk : k < 512) (hn : n < 512)
    (hsame : entry s.mem d k = entry m d k) (hup : isUserPresent (entry m d k))
    (hh : isHuge (entry m d k) = false)
    (hleaf : isPresent (entry m (frameOf (entry m d k)) n)) :
    childFrameFor s c (pageAddr i j k n) = (leafFrame m (entry m d k) n, s) := by
  have hpt : UserPt m r (frameOf (entry m d k)) := ⟨d, hp.pd, k, hk, hup, hh, rfl⟩
  obtain ⟨-, -, -, i1⟩ := idx_pageAddr hp.i_lt hp.j_lt hk hn
  have hw := h.walk hf hp hk hn (by rw [hsame]; exact isPresent_of_isUserPresent hup)
  rw [hsame] at hw
  rw [leafFrame, if_neg (by simp [hh])]
  refine childFrameFor_of_mapped hw hh (hf.ok.low2 d hp.pd k hk hup hh) ?_ hleaf
  rw [i1]
  exact h.pt_entry hf hpt hn

end

end

theorem childFrameFor_congr {s s' : Phys} {root va : ℕ}
    (h : (split2mbPde s root (hugeDown va)).2 = (split2mbPde s' root (hugeDown va)).2) :
    childFrameFor s root va = childFrameFor s' root va := by
  rw [childFrameFor, childFrameFor, h]

/-- **`child_frame_for` returns the frame of the parent**, splitting a 2 MB entry on the way. -/
theorem Split.childFrame (h : Split m r F s) (hf : Forked m r c F) (hp : PdPath m r i j d)
    (hk : k < 512) (hn : n < 512) (hup : isUserPresent (entry m d k))
    (hleaf : isHuge (entry m d k) = false →
      isPresent (entry m (frameOf (entry m d k)) n)) :
    (childFrameFor s c (pageAddr i j k n)).2.oom ∨
    ∃ s', childFrameFor s c (pageAddr i j k n) = (leafFrame m (entry m d k) n, s') ∧
      Split m r F s' ∧ Keeps F s s' := by
  have hkeep : Keeps F s s := fun g _ hg => ⟨hg, fun _ _ => rfl⟩
  obtain ⟨-, -, i2, -⟩ := idx_pageAddr hp.i_lt hp.j_lt hk hn
  have hpres := isPresent_of_isUserPresent hup
  rcases h.pd d hp.pd k hk with hsame | ⟨-, hh, f, hfF, -, he, hpt⟩
  · have hw := h.walk hf hp hk hn (by rw [hsame]; exact hpres)
    rw [hsame] at hw
    cases hh : isHuge (entry m d k) with
    | true =>
      cases hpool : s.pool with
      | nil =>
        refine .inl ((shrinks_childFrameFor_split s c _).oom ?_)
        rw [split2mbPde_oom hw hh hpool]
      | cons f pool =>
        -- the entry is split first; what follows finds the page mapped
        obtain ⟨hs', hk'⟩ := h.more hf.fresh hpool hp.pd hk hsame hup hh
        have hsplit := split2mbPde_huge hw hh hpool
        rw [i2, ← hp.eq] at hsplit
        have hfF : f ∈ F := h.sub f (by rw [hpool]; simp)
        obtain ⟨he, hpt, -⟩ := splitAt_spec (s := s) pool (hf.fresh f hfF).aligned
          hp.pd.aligned (fun he => (hf.fresh f hfF).table (.inr (.inr (.inl (he ▸ hp.pd))))) hk
          (hf.fresh f hfF).low (entry_lt m d k)
        have hres := hs'.childFrame_split hf hp hk hn hfF he hup hh hpt
        have hagain : (split2mbPde (splitAt s pool f d k (entry m d k)) c
            (hugeDown (pageAddr i j k n))).2 = splitAt s pool f d k (entry m d k) := by
          have hal := (hf.fresh f hfF).aligned
          have hw' := hs'.walk hf hp hk hn
            (by rw [he]; exact isPresent_pointer hal)
          rw [he] at hw'
          rw [split2mbPde_small hw' (isHuge_pointer hal)]
        refine .inr ⟨_, ?_, hs', hk'⟩
        rw [← hres]
        refine childFrameFor_congr ?_
        rw [hsplit, hagain]
    | false => exact .inr ⟨s, h.childFrame_small hf hp hk hn hsame hup hh (hleaf hh), h, hkeep⟩
  · exact .inr ⟨s, h.childFrame_split hf hp hk hn hfF he hup hh hpt, h, hkeep⟩

/-! ### The loops of `copy_user_space` -/

/-- The walk ran out of frames, or keeps its invariant. -/
def Good (m : Mem) (r : ℕ) (F : List ℕ) (s : Phys) : Prop := s.oom = true ∨ Split m r F s

section

variable (h : Split m r F s)

include h

section

variable (hf : Forked m r c F)

include hf

section

variable (hp : PdPath m r i j d) (hk : k < 512) (hup : isUserPresent (entry m d k))

include hp hk hup

theorem Split.copyTo_good (hn : n < 512) (hleaf : isHuge (entry m d k) = false →
      isPresent (entry m (frameOf (entry m d k)) n)) :
    (copyTo s c (pageAddr i j k n) (leafFrame m (entry m d k) n)).oom ∨
    Split m r F (copyTo s c (pageAddr i j k n) (leafFrame m (entry m d k) n)) ∧
      Keeps F s (copyTo s c (pageAddr i j k n) (leafFrame m (entry m d k) n)) := by
  rcases h.childFrame hf hp hk hn hup hleaf with ho | ⟨s', he, hs', hkeep⟩
  · exact .inl ((shrinks_copyTo_frame s c _ _).oom ho)
  have heq : copyTo s c (pageAddr i j k n) (leafFrame m (entry m d k) n) = s' := by
    rw [copyTo, he]
    dsimp only
    split
    · rfl
    · exact copyPage_self _ _
  rw [heq]
  exact .inr ⟨hs', hkeep⟩

theorem Split.copyHuge_good (hh : isHuge (entry m d k)) :
    Good m r F (copyHuge c (i * 2 ^ 39 + j * 2 ^ 30 + k * 2 ^ 21)
      (entry m d k % 2 ^ 44 / 2 ^ 21 * 2 ^ 21) s) := by
  rw [copyHuge]
  refine forLoop_inv (Good m r F) (.inr h) fun n hn t ht => ?_
  rcases ht with ho | ht
  · exact .inl ((shrinks_copyTo t _ _ _).oom ho)
  have hlow := hf.ok.huge2 d hp.pd k hk hup hh
  have hsrc : entry m d k % 2 ^ 44 / 2 ^ 21 * 2 ^ 21 + n * 2 ^ 12 = leafFrame m (entry m d k) n := by
    rw [leafFrame, if_pos hh]
    omega
  rw [hsrc]
  exact (ht.copyTo_good hf hp hk hup hn (fun h0 => absurd (hh.symm.trans h0) (by decide))).imp_right
    And.left

theorem Split.copyPt_good (hh : isHuge (entry m d k) = false) :
    Good m r F (copyPt c (i * 2 ^ 39 + j * 2 ^ 30 + k * 2 ^ 21) (frameOf (entry m d k)) s) := by
  have hpt : UserPt m r (frameOf (entry m d k)) := ⟨d, hp.pd, k, hk, hup, hh, rfl⟩
  rw [copyPt]
  refine forLoop_inv (Good m r F) (.inr h) fun n hn t ht => ?_
  rcases ht with ho | ht
  · split
    · exact .inl ho
    · exact .inl ((shrinks_copyTo t _ _ _).oom ho)
  rw [ht.pt_entry hf hpt hn]
  split
  · exact .inr ht
  next hu =>
  have hsrc : frameOf (entry m (frameOf (entry m d k)) n) = leafFrame m (entry m d k) n := by
    rw [leafFrame, if_neg (by simp [hh])]
  rw [hsrc]
  have hpr := isPresent_of_isUserPresent (not_eq_false _ ▸ hu)
  exact (ht.copyTo_good hf hp hk hup hn fun _ => hpr).imp_right And.left

theorem Split.copyPieces_good (hh : isHuge (entry m d k)) {f : ℕ}
    (hfF : f ∈ F) (hfp : f ∉ s.pool)
    (hpt : ∀ n < 512, entry s.mem f n = splitEntry (entry m d k) n) :
    Good m r F (copyPt c (i * 2 ^ 39 + j * 2 ^ 30 + k * 2 ^ 21) f s) := by
  rw [copyPt]
  have hrun := forLoop_inv (n := 512) (s := s) (f := fun n s =>
      if isUserPresent (entry s.mem f n) = false then s
      else copyTo s c (i * 2 ^ 39 + j * 2 ^ 30 + k * 2 ^ 21 + n * 2 ^ 12)
        (frameOf (entry s.mem f n)))
    (fun t : Phys => t.oom ∨ Split m r F t ∧ f ∉ t.pool ∧
      ∀ n < 512, entry t.mem f n = splitEntry (entry m d k) n) (.inr ⟨h, hfp, hpt⟩) ?_
  · exact hrun.imp_right And.left
  intro n hn t ht
  rcases ht with ho | ⟨ht, hfp, hpt⟩
  · split
    · exact .inl ho
    · exact .inl ((shrinks_copyTo t _ _ _).oom ho)
  split
  · exact .inr ⟨ht, hfp, hpt⟩
  have hsrc : frameOf (entry t.mem f n) = leafFrame m (entry m d k) n := by
    rw [hpt n hn, frameOf_splitEntry _ hn, leafFrame, if_pos hh]
  rw [hsrc]
  rcases ht.copyTo_good hf hp hk hup hn (fun h0 => absurd (hh.symm.trans h0) (by decide)) with
    ho | ⟨ht', hkeep⟩
  · exact .inl ho
  · obtain ⟨hfp', hent⟩ := hkeep f hfF hfp
    exact .inr ⟨ht', hfp', fun n hn => (hent n hn).trans (hpt n hn)⟩

end

theorem Split.copyPde_good (hp : PdPath m r i j d) (hk : k < 512) :
    Good m r F (copyPde c (i * 2 ^ 39 + j * 2 ^ 30 + k * 2 ^ 21) (entry s.mem d k) s) := by
  rw [copyPde]
  split
  · exact .inr h
  next hu =>
  rw [not_eq_false] at hu
  rcases h.pd d hp.pd k hk with hsame | ⟨hup, hh, f, hfF, hfp, he, hpt⟩
  · rw [hsame] at hu ⊢
    split
    · next hh => exact h.copyHuge_good hf hp hk hu hh
    · next hh => exact h.copyPt_good hf hp hk hu (by simpa using hh)
  · have hal := (hf.fresh f hfF).aligned
    rw [he, if_neg (by simp [isHuge_pointer hal]), frameOf_pointer hal (hf.fresh f hfF).low]
    exact h.copyPieces_good hf hp hk hup hh hfF hfp hpt

theorem Split.copyPdpte_good (hi : i < 512) (hj : j < 512)
    (hup : isUserPresent (entry m r i)) :
    Good m r F (copyPdpte c (i * 2 ^ 39 + j * 2 ^ 30)
      (entry s.mem (frameOf (entry m r i)) j) s) := by
  rw [h.pdpt_entry hf ⟨i, hi, hup, rfl⟩ hj, copyPdpte]
  split
  · exact .inr h
  next hu =>
  rw [not_eq_false] at hu
  split
  · exact .inr h
  next hh =>
  have hp : PdPath m r i j _ := ⟨hi, hj, hup, hu, by simpa using hh, rfl⟩
  rw [copyPd]
  refine forLoop_inv (Good m r F) (.inr h) fun k hk t ht => ?_
  rcases ht with ho | ht
  · exact .inl ((shrinks_copyPde _ _ _ t).oom ho)
  · exact ht.copyPde_good hf hp hk

theorem Split.copyPml4e_good (hi : i < 512) :
    Good m r F (copyPml4e c (i * 2 ^ 39) (entry s.mem r i) s) := by
  rw [h.root_entry hf (.inl rfl) hi, copyPml4e]
  split
  · exact .inr h
  next hu =>
  rw [copyPdpt]
  refine forLoop_inv (Good m r F) (.inr h) fun j hj t ht => ?_
  rcases ht with ho | ht
  · exact .inl ((shrinks_copyPdpte _ _ _ t).oom ho)
  · exact ht.copyPdpte_good hf hi hj (by simpa using hu)

/-- **`copy_user_space` keeps the invariant**, unless it runs out of frames. -/
theorem Split.copyUserSpace_good :
    Good m r F (copyUserSpace r c s) := by
  rw [copyUserSpace]
  refine forLoop_inv (Good m r F) (.inr h) fun i hi t ht => ?_
  rcases ht with ho | ht
  · exact .inl ((shrinks_copyPml4e _ _ _ t).oom ho)
  · exact ht.copyPml4e_good hf hi

/-- **Without 2 MB user pages `copy_user_space` changes nothing at all.** -/
theorem Split.copyUserSpace_small
    (hsame : ∀ d, UserPd m r d → ∀ k < 512, entry s.mem d k = entry m d k)
    (hsmall : ∀ d, UserPd m r d → ∀ k < 512, isUserPresent (entry m d k) →
      isHuge (entry m d k) = false) : copyUserSpace r c s = s := by
  rw [copyUserSpace]
  refine forLoop_fixed fun i hi => ?_
  rw [h.root_entry hf (.inl rfl) hi, copyPml4e]
  split
  · rfl
  next hu4 =>
  rw [not_eq_false] at hu4
  rw [copyPdpt]
  refine forLoop_fixed fun j hj => ?_
  rw [h.pdpt_entry hf ⟨i, hi, hu4, rfl⟩ hj, copyPdpte]
  split
  · rfl
  next hu3 =>
  rw [not_eq_false] at hu3
  split
  · rfl
  next hh3 =>
  have hp : PdPath m r i j _ := ⟨hi, hj, hu4, hu3, by simpa using hh3, rfl⟩
  rw [copyPd]
  refine forLoop_fixed fun k hk => ?_
  rw [hsame _ hp.pd k hk, copyPde]
  split
  · rfl
  next hu2 =>
  rw [not_eq_false] at hu2
  have hh := hsmall _ hp.pd k hk hu2
  have hpt : UserPt m r (frameOf (entry m _ k)) := ⟨_, hp.pd, k, hk, hu2, hh, rfl⟩
  rw [if_neg (by simp [hh]), copyPt]
  refine forLoop_fixed fun n hn => ?_
  rw [h.pt_entry hf hpt hn]
  split
  · rfl
  next hu1 =>
  rw [not_eq_false] at hu1
  have hres := h.childFrame_small hf hp hk hn (hsame _ hp.pd k hk) hu2 hh
    (isPresent_of_isUserPresent hu1)
  rw [leafFrame, if_neg (by simp [hh]), pageAddr] at hres
  rw [copyTo, hres]
  dsimp only
  rw [copyPage_self, ite_self]

end

end

end Walk

end TipOS.Paging
