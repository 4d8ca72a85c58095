import TipOS.Paging.HugePage

/-!
# The address space of a new program

`clone_identity_tables` of `mach_o.c` makes the tables that a program is loaded into.  It copies the
page directory of the first GB, without the user bit and without page tables, and puts it below a
new PDPT and a new PML4.  All other entries of the two are those of the creator.

`Cloned` says what the new tables are.  In the first GB no address is accessible to the program;
above it, an address is if it was accessible to the creator (`userAccessible_clone`).
-/

namespace TipOS.Loader

open Lib Paging List Phys Nat

/-! ### `clone_identity_tables` -/

/-- The PD entry of the clone: `e & ~0x04` for a 2 MB entry, 0 for others. -/
def cloneEntry (e : ℕ) : ℕ := if isHuge e then e &&& 0xFFFFFFFFFFFFFFFB else 0

/-- `for (i = lo; i < lo + n; i++) dst[i] = g(src[i])`. -/
def copyEntries (g : ℕ → ℕ) (src dst lo n : ℕ) (s : Phys) : Phys :=
  forLoop (fun i s => s.setEntry dst (lo + i) (g (entry s.mem src (lo + i)))) n s

attribute [irreducible] copyEntries

/-- The tables of `clone_identity_tables`, in three frames. -/
def fillClone (current pd pdp pml4 : ℕ) (s : Phys) : Phys :=
  let oldPdp := tableOf (entry s.mem current 0)
  let oldPd := tableOf (entry s.mem oldPdp 0)
  let s := copyEntries cloneEntry oldPd pd 0 512 s
  let s := s.setEntry pdp 0 (pd ||| 0x07)
  let s := copyEntries id oldPdp pdp 1 511 s
  let s := s.setEntry pml4 0 (pdp ||| 0x07)
  copyEntries id current pml4 1 511 s

/-- `clone_identity_tables`, with the root `current` in CR3. -/
def cloneIdentityTables (s : Phys) (current : ℕ) : Option ℕ × Phys :=
  match s.zeroFrame with
  | (none, s) => (none, s)
  | (some pd, s) =>
    match s.zeroFrame with
    | (none, s) => (none, s)
    | (some pdp, s) =>
      match s.zeroFrame with
      | (none, s) => (none, s)
      | (some pml4, s) => (some pml4, fillClone current pd pdp pml4 s)

/-! ### What the tables hold -/

section CloneEntry

variable (e : ℕ)

theorem testBit_mask : ∀ b < 64, b ≠ 2 → (0xFFFFFFFFFFFFFFFB : ℕ).testBit b := by
  decide

theorem testBit_cloneEntry {b : ℕ} (hb : b < 64) (hne : b ≠ 2) :
    (cloneEntry e).testBit b = (isHuge e && e.testBit b) := by
  unfold cloneEntry
  cases isHuge e with
  | true => rw [if_pos rfl, testBit_and, testBit_mask b hb hne, Bool.and_true, Bool.true_and]
  | false => rw [if_neg Bool.false_ne_true, zero_testBit, Bool.false_and]

theorem isUser_cloneEntry : isUser (cloneEntry e) = false := by
  unfold cloneEntry isUser
  split
  · rw [testBit_and, show (0xFFFFFFFFFFFFFFFB : ℕ).testBit 2 = false by decide, Bool.and_false]
  · exact zero_testBit 2

theorem isHuge_cloneEntry : isHuge (cloneEntry e) = isHuge e := by
  rw [isHuge, testBit_cloneEntry e (by simp) (by simp)]
  exact Bool.and_self _

theorem isPresent_cloneEntry : isPresent (cloneEntry e) = (isHuge e && isPresent e) :=
  testBit_cloneEntry e (by simp) (by simp)

theorem cloneEntry_lt : cloneEntry e < 2 ^ 64 := by
  unfold cloneEntry
  split
  · exact lt_of_le_of_lt and_le_right (by simp)
  · simp

end CloneEntry

theorem copyEntries_spec {g : ℕ → ℕ} (hg : ∀ e < 2 ^ 64, g e < 2 ^ 64) {src dst lo n : ℕ} (s : Phys)
    (hs : src % 4096 = 0) (hd : dst % 4096 = 0) (hne : src ≠ dst) (hn : lo + n ≤ 512) :
    let s' := copyEntries g src dst lo n s
    (∀ i < 512, entry s'.mem dst i =
      if lo ≤ i ∧ i < lo + n then g (entry s.mem src i) else entry s.mem dst i) ∧
    (∀ x, x / 4096 * 4096 ≠ dst → s'.mem x = s.mem x) ∧ s'.pool = s.pool := by
  unfold copyEntries
  refine forLoop_induct (fun k (s' : Phys) => (∀ i < 512, entry s'.mem dst i =
      if lo ≤ i ∧ i < lo + k then g (entry s.mem src i) else entry s.mem dst i) ∧
    (∀ x, x / 4096 * 4096 ≠ dst → s'.mem x = s.mem x) ∧ s'.pool = s.pool)
    ⟨fun i _ => (if_neg (by omega)).symm, fun _ _ => rfl, rfl⟩ ?_
  intro k hk s' ih
  obtain ⟨hent, hbytes, hpool⟩ := ih
  have hsrc : entry s'.mem src (lo + k) = entry s.mem src (lo + k) :=
    entry_congr hs (by omega) fun x hx => hbytes x (by rw [hx]; exact hne)
  refine ⟨fun i hi => ?_, fun x hx => ?_, hpool⟩
  · rw [setEntry_mem, hsrc, entry_setEntry hd hd (by omega) hi (hg _ (entry_lt _ _ _)), hent i hi]
    by_cases hik : i = lo + k
    · rw [if_pos ⟨rfl, hik⟩, if_pos (by omega), hik]
    rw [if_neg fun h => hik h.2]
    by_cases hlt : lo ≤ i ∧ i < lo + k
    · rw [if_pos hlt, if_pos (by omega)]
    · rw [if_neg hlt, if_neg (by omega)]
  · rw [← hbytes x hx]
    exact setEntry_apply_of_ne hd (by omega) hx

/-- The PDPT and the page directory of the first GB. -/
def pdptOf (m : Mem) (p : ℕ) : ℕ := frameOf (get m p 0)
def pdOf (m : Mem) (p : ℕ) : ℕ := frameOf (get m (pdptOf m p) 0)

/-- **The address space the kernel runs in**: its own pages are in the first GB. -/
structure Creator (s : Phys) (p : ℕ) : Prop extends Space s p where
  pml4 : isPresent (get s.mem p 0) = true
  pdpt : isPresent (get s.mem (pdptOf s.mem p) 0) = true

namespace Creator

variable {s : Phys} {p : ℕ}

section

variable (h : Creator s p)

include h

theorem pdpt_child : child 3 (get s.mem p 0) = some (pdptOf s.mem p) :=
  child_root h.pml4

theorem pdpt_table : Table s.mem p 2 (pdptOf s.mem p) :=
  .down .root h.pdpt_child

theorem pd_child :
    child 2 (get s.mem (pdptOf s.mem p) 0) = some (pdOf s.mem p) :=
  child_of_small h.pdpt (h.giga h.pdpt_table h.pdpt)

theorem pd_table : Table s.mem p 1 (pdOf s.mem p) :=
  .down h.pdpt_table h.pd_child

theorem tableOf_pdpt : tableOf (get s.mem p 0) = pdptOf s.mem p :=
  tableOf_eq_frameOf (h.low .root h.pdpt_child)

theorem tableOf_pd : tableOf (get s.mem (pdptOf s.mem p) 0) = pdOf s.mem p :=
  tableOf_eq_frameOf (h.low h.pdpt_table h.pd_child)

end

end Creator

/-- **The new tables**: the root `c`, a PDPT and a page directory, in place of those of `p`. -/
structure Cloned (s s' : Phys) (p c pdp pd : ℕ) : Prop where
  pool : s.pool = pd :: pdp :: c :: s'.pool
  root_zero : entry s'.mem c 0 = pdp + 7
  root_succ : ∀ i < 512, i ≠ 0 → entry s'.mem c i = entry s.mem p i
  pdp_zero : entry s'.mem pdp 0 = pd + 7
  pdp_succ : ∀ i < 512, i ≠ 0 → entry s'.mem pdp i = entry s.mem (pdptOf s.mem p) i
  pd_entry : ∀ i < 512, entry s'.mem pd i = cloneEntry (entry s.mem (pdOf s.mem p) i)
  same : ∀ x, x / 4096 * 4096 ∉ [pd, pdp, c] → s'.mem x = s.mem x

section Clone

variable {s s' : Phys} {p c pdp pd : ℕ}

/-- The tables after `fillClone`, for tables `p`, `d2` and `d1` that are not the new ones. -/
theorem fillClone_spec (c pdp pd : ℕ) {d2 d1 : ℕ} (h2 : tableOf (entry s.mem p 0) = d2)
    (h1 : tableOf (entry s.mem d2 0) = d1) (hal : ∀ t ∈ [p, d2, d1, pd, pdp, c], t % 4096 = 0)
    (hold : ∀ t ∈ [p, d2, d1], t ∉ [pd, pdp, c]) (hnd : pd ≠ pdp ∧ pd ≠ c ∧ pdp ≠ c)
    (hlow : pd < 2 ^ 52 ∧ pdp < 2 ^ 52) :
    let s' := fillClone p pd pdp c s
    entry s'.mem c 0 = pdp + 7 ∧ (∀ i < 512, i ≠ 0 → entry s'.mem c i = entry s.mem p i) ∧
    entry s'.mem pdp 0 = pd + 7 ∧ (∀ i < 512, i ≠ 0 → entry s'.mem pdp i = entry s.mem d2 i) ∧
    (∀ i < 512, entry s'.mem pd i = cloneEntry (entry s.mem d1 i)) ∧
    (∀ x, x / 4096 * 4096 ∉ [pd, pdp, c] → s'.mem x = s.mem x) ∧ s'.pool = s.pool := by
  simp only [mem_cons, not_mem_nil, or_false, forall_eq_or_imp, forall_eq, not_or]
    at hal hold
  obtain ⟨hp, hd2, hd1, hpd, hpdp, hc⟩ := hal
  obtain ⟨⟨hp1, hp2, hp3⟩, ⟨h21, h22, h23⟩, h11, h12, h13⟩ := hold
  obtain ⟨hn1, hn2, hn3⟩ := hnd
  unfold fillClone
  rw [h2]
  dsimp only
  rw [h1]
  -- the page directory
  obtain ⟨epd, spd, ppd⟩ := copyEntries_spec (fun e _ => cloneEntry_lt e) s hd1 hpd h11
    (show 0 + 512 ≤ 512 by simp)
  generalize copyEntries cloneEntry d1 pd 0 512 s = s1 at *
  -- the PDPT
  obtain ⟨epdp, spdp, ppdp⟩ := copyEntries_spec (g := id) (fun e he => he)
    (s1.setEntry pdp 0 (pd ||| 7)) hd2 hpdp h22 (show 1 + 511 ≤ 512 by simp)
  generalize copyEntries id d2 pdp 1 511 (s1.setEntry pdp 0 (pd ||| 7)) = s2 at *
  have sset : ∀ x, x / 4096 * 4096 ≠ pdp → s2.mem x = s1.mem x := fun x hx =>
    (spdp x hx).trans (setEntry_apply_of_ne hpdp (by simp) hx)
  -- the root
  obtain ⟨ec, sc, pc⟩ := copyEntries_spec (g := id) (fun e he => he)
    (s2.setEntry c 0 (pdp ||| 7)) hp hc hp3 (show 1 + 511 ≤ 512 by simp)
  generalize copyEntries id p c 1 511 (s2.setEntry c 0 (pdp ||| 7)) = s3 at *
  have sset' : ∀ x, x / 4096 * 4096 ≠ c → s3.mem x = s2.mem x := fun x hx =>
    (sc x hx).trans (setEntry_apply_of_ne hc (by simp) hx)
  have same : ∀ x, x / 4096 * 4096 ∉ [pd, pdp, c] → s3.mem x = s.mem x := by
    intro x hx
    simp only [mem_cons, not_mem_nil, or_false, not_or] at hx
    rw [sset' x hx.2.2, sset x hx.2.1, spd x hx.1]
  have tab : ∀ {m m' : Mem} {t i f}, t % 4096 = 0 → i < 512 → t ≠ f →
      (∀ x, x / 4096 * 4096 ≠ f → m' x = m x) → entry m' t i = entry m t i :=
    fun ht hi hne hs => entry_congr ht hi fun x hx => hs x (by rw [hx]; exact hne)
  refine ⟨?_, fun i hi h0 => ?_, ?_, fun i hi h0 => ?_, fun i hi => ?_, same, ?_⟩
  · rw [ec 0 (by simp), if_neg (by omega), setEntry_mem, entry_setEntry_self,
      or_seven hpdp, mod_eq_of_lt (by omega)]
  · rw [ec i hi, if_pos (by omega), setEntry_mem, id,
      entry_setEntry_of_ne hc hp (by simp) hi (.inl hp3), tab hp hi hp2 sset,
      tab hp hi hp1 spd]
  · rw [tab hpdp (by simp) hn3 sset', epdp 0 (by simp), if_neg (by omega),
      setEntry_mem, entry_setEntry_self, or_seven hpd, mod_eq_of_lt (by omega)]
  · rw [tab hpdp hi hn3 sset', epdp i hi, if_pos (by omega), setEntry_mem, id,
      entry_setEntry_of_ne hpdp hd2 (by simp) hi (.inl h22), tab hd2 hi h21 spd]
  · rw [tab hpd hi hn2 sset', tab hpd hi hn1 sset, epd i hi, if_pos (by omega)]
  · rw [pc, setEntry_pool, ppdp, setEntry_pool, ppd]

theorem cloneIdentityTables_cases (hc : cloneIdentityTables s p = (some c, s')) :
    ∃ pd pdp pool, s.pool = pd :: pdp :: c :: pool ∧ s' = fillClone p pd pdp c
      { s with pool := pool, mem := ((s.mem.fill pd 4096 0).fill pdp 4096 0).fill c 4096 0 } := by
  obtain ⟨m, pool, oom⟩ := s
  match pool with
  | [] => cases hc
  | [_] => cases hc
  | [_, _] => cases hc
  | pd :: pdp :: f :: pool =>
    obtain ⟨hf, hs⟩ := Prod.mk.inj hc
    cases hf
    exact ⟨pd, pdp, pool, rfl, hs.symm⟩

/-- **What `clone_identity_tables` makes.** -/
theorem cloned_of_clone (h : Creator s p) (hc : cloneIdentityTables s p = (some c, s')) :
    ∃ pdp pd, Cloned s s' p c pdp pd := by
  obtain ⟨pd, pdp, pool, hpool, rfl⟩ := cloneIdentityTables_cases hc
  refine ⟨pdp, pd, ?_⟩
  have hfree : ∀ f ∈ [pd, pdp, c], FreeFrame s.mem p f := fun f hf => h.pool f (by
    rw [hpool]
    exact mem_append.mpr (.inl hf : f ∈ [pd, pdp, c] ∨ f ∈ pool))
  have hnd : [pd, pdp, c].Nodup := by
    have hnd := h.nodup
    rw [hpool] at hnd
    exact (nodup_append.mp (hnd : ([pd, pdp, c] ++ pool).Nodup)).1
  obtain ⟨fpd, fpdp, fc⟩ : FreeFrame s.mem p pd ∧ FreeFrame s.mem p pdp ∧ FreeFrame s.mem p c :=
    ⟨hfree pd (by simp), hfree pdp (by simp), hfree c (by simp)⟩
  obtain ⟨hne1, hne2, hne3⟩ : pd ≠ pdp ∧ pd ≠ c ∧ pdp ≠ c := by simpa [not_or, and_assoc] using hnd
  have htab : ∀ {l t}, Table s.mem p l t → t ∉ [pd, pdp, c] := fun ht hf => (hfree _ hf).table _ ht
  -- the tables of the creator are as they were when the frames are zeroed
  set s0 : Phys := { s with
    pool := pool, mem := ((s.mem.fill pd 4096 0).fill pdp 4096 0).fill c 4096 0 } with hs0
  have hzero : ∀ x, x / 4096 * 4096 ∉ [pd, pdp, c] → s0.mem x = s.mem x := by
    intro x hx
    simp only [mem_cons, not_mem_nil, or_false, not_or] at hx
    rw [hs0]
    dsimp only
    rw [fill_apply_of_ne fc.aligned hx.2.2, fill_apply_of_ne fpdp.aligned hx.2.1,
      fill_apply_of_ne fpd.aligned hx.1]
  have hent : ∀ {l t i}, Table s.mem p l t → i < 512 → entry s0.mem t i = entry s.mem t i :=
    fun ht hi => entry_congr (Table.aligned ht h.root) hi fun x hx =>
      hzero x (by rw [hx]; exact htab ht)
  have h2 : tableOf (entry s0.mem p 0) = pdptOf s.mem p := by
    rw [hent .root (by simp)]
    exact h.tableOf_pdpt
  have h1 : tableOf (entry s0.mem (pdptOf s.mem p) 0) = pdOf s.mem p := by
    rw [hent h.pdpt_table (by simp)]
    exact h.tableOf_pd
  obtain ⟨ec0, ec, epdp0, epdp, epd, hsame, hp⟩ := fillClone_spec c pdp pd h2 h1
    (by
      simp only [mem_cons, not_mem_nil, or_false, forall_eq_or_imp, forall_eq]
      exact ⟨h.root, Table.aligned h.pdpt_table h.root, Table.aligned h.pd_table h.root,
        fpd.aligned, fpdp.aligned, fc.aligned⟩) (forall_mem_cons.mpr
        ⟨htab .root, forall_mem_cons.mpr
          ⟨htab h.pdpt_table, forall_mem_singleton.mpr (htab h.pd_table)⟩⟩)
    ⟨hne1, hne2, hne3⟩ ⟨fpd.low, fpdp.low⟩
  refine ⟨by rw [hp, hpool], ec0, fun i hi h0 => ?_, epdp0, fun i hi h0 => ?_, fun i hi => ?_,
    fun x hx => (hsame x hx).trans (hzero x hx)⟩
  · rw [ec i hi h0, hent .root hi]
  · rw [epdp i hi h0, hent h.pdpt_table hi]
  · rw [epd i hi, hent h.pd_table hi]

/-! ### User pages -/

/-- The user bit is set at every level of the walk. -/
def userAccessible (m : Mem) (r va : ℕ) : Bool := (translate m r va).any fun x => x.2.u

/-- What the clone takes over of the user pages of `p`: those of other PML4 entries, and those of
other PDPT entries, for which the user bit of the PML4 entry no longer counts. -/
def userShared (m : Mem) (p va : ℕ) : Bool :=
  if pml4Idx va ≠ 0 then userAccessible m p va
  else if pdptIdx va ≠ 0 then
    (walkPdpt m (entry m (pdptOf m p) (pdptIdx va)) va).any fun x => x.2.u
  else false

namespace Cloned

variable (hcl : Cloned s s' p c pdp pd)

include hcl

theorem pool_sub {f : ℕ} (hf : f ∈ s'.pool) : f ∈ s.pool := by
  rw [hcl.pool]
  exact mem_append_right [pd, pdp, c] hf

theorem mem_pool {f : ℕ} (hf : f ∈ [pd, pdp, c]) : f ∈ s.pool := by
  rw [hcl.pool]
  exact mem_append_left s'.pool hf

variable (h : Creator s p)

include h

theorem root_child : child 3 (get s'.mem c 0) = some pdp := by
  have hf := h.pool pdp (hcl.mem_pool (by simp))
  rw [show get s'.mem c 0 = pdp + 7 from hcl.root_zero, child_pointer hf.aligned hf.low]

theorem pdp_child : child 2 (get s'.mem pdp 0) = some pd := by
  have hf := h.pool pd (hcl.mem_pool (by simp))
  rw [show get s'.mem pdp 0 = pd + 7 from hcl.pdp_zero, child_pointer hf.aligned hf.low]

theorem entry_eq {l t i : ℕ} (ht : Table s.mem p l t) (hi : i < 512) :
    entry s'.mem t i = entry s.mem t i := by
  refine entry_congr (Table.aligned ht h.root) hi fun x hx => hcl.same x fun hf => ?_
  rw [hx] at hf
  exact (h.pool t (hcl.mem_pool hf)).table l ht

theorem walkFrom_eq {l t va : ℕ} (hv : OnWalk s.mem p va l t) :
    walkFrom s'.mem va l t = walkFrom s.mem va l t :=
  Radix.look_congr_at (fun _ _ hv' => hcl.entry_eq h hv'.reach (Fin.is_lt _)) hv

end Cloned

theorem any_restrict (a : Rights) (o : Option (ℕ × Rights)) :
    ((o.map (restrict a)).any fun x => x.2.u) = (a.u && o.any fun x => x.2.u) := by
  cases o with
  | none => exact (Bool.and_false _).symm
  | some x => rfl

theorem walkPd_cloneEntry (m : Mem) (e va : ℕ) :
    ((walkPd m (cloneEntry e) va).any fun x => x.2.u) = false := by
  have hu : (rightsOf (cloneEntry e)).u = false := isUser_cloneEntry e
  unfold walkPd
  split
  · rfl
  split
  · exact hu
  dsimp only
  split
  · rfl
  · change ((rightsOf (cloneEntry e)).u && _) = false
    rw [hu, Bool.false_and]

theorem walkPdpt_pointer {f : ℕ} (m : Mem) (va : ℕ) (hal : f % 4096 = 0) (hlow : f < 2 ^ 52) :
    walkPdpt m (f + 7) va =
      (walkPd m (entry m f (pdIdx va)) va).map (restrict ⟨true, true, false⟩) := by
  have hp := isPresent_pointer hal
  rw [walkPdpt, hp, if_neg nofun, isHuge_pointer hal,
    if_neg Bool.false_ne_true, frameOf_pointer hal hlow, rightsOf_pointer hal hlow]

/-- **The user pages of a clone** are the ones it takes over. -/
theorem userAccessible_clone (h : Creator s p) (hcl : Cloned s s' p c pdp pd) (va : ℕ) :
    userAccessible s'.mem c va = userShared s.mem p va := by
  have hpdp : FreeFrame s.mem p pdp := h.pool pdp (hcl.mem_pool (by simp))
  have hpd : FreeFrame s.mem p pd := h.pool pd (hcl.mem_pool (by simp))
  rw [userShared]
  by_cases h4 : pml4Idx va = 0
  · have hroot : translate s'.mem c va = (walkPdpt s'.mem (entry s'.mem pdp (pdptIdx va)) va).map
        (restrict ⟨true, true, false⟩) := by
      have hp := isPresent_pointer hpdp.aligned
      rw [Paging.translate, h4, hcl.root_zero, hp, if_neg nofun,
        frameOf_pointer hpdp.aligned hpdp.low, rightsOf_pointer hpdp.aligned hpdp.low]
    rw [userAccessible, hroot, any_restrict, Bool.true_and, if_neg (not_not.mpr h4)]
    by_cases h3 : pdptIdx va = 0
    · rw [h3, hcl.pdp_zero, walkPdpt_pointer _ _ hpd.aligned hpd.low, any_restrict,
        hcl.pd_entry _ (pdIdx_lt va), walkPd_cloneEntry, if_neg (not_not.mpr rfl),
        Bool.and_false]
    have hidx : idx va 3 = 0 := Fin.ext h4
    have hv : OnWalk s.mem p va 2 (pdptOf s.mem p) :=
      .down .root (by rw [hidx]; exact h.pdpt_child)
    rw [if_pos h3, hcl.pdp_succ _ (pdptIdx_lt va) h3, ← hcl.entry_eq h h.pdpt_table (pdptIdx_lt va),
      walkPdpt_eq_walkFrom, hcl.walkFrom_eq h hv, hcl.entry_eq h h.pdpt_table (pdptIdx_lt va),
      walkPdpt_eq_walkFrom]
  · have htr : translate s'.mem c va = translate s.mem p va := by
      rw [Paging.translate, Paging.translate, hcl.root_succ _ (pml4Idx_lt va) h4]
      cases hp : isPresent (entry s.mem p (pml4Idx va)) with
      | false => rw [if_pos rfl, if_pos rfl]
      | true =>
        have hv : OnWalk s.mem p va 2 (frameOf (entry s.mem p (pml4Idx va))) :=
          .down .root (child_root hp)
        rw [walkPdpt_eq_walkFrom, walkPdpt_eq_walkFrom, hcl.walkFrom_eq h hv]
    rw [if_pos h4, userAccessible, htr, userAccessible]

/-- **When no address of a new program is accessible to it**: if and only if the creator has no
user page in the part it shares. -/
theorem clone_no_user_iff (h : Creator s p) (hc : cloneIdentityTables s p = (some c, s')) :
    (∀ va, userAccessible s'.mem c va = false) ↔ ∀ va, userShared s.mem p va = false := by
  obtain ⟨pdp, pd, hcl⟩ := cloned_of_clone h hc
  exact forall_congr' fun va => by rw [userAccessible_clone h hcl]

end Clone

/-! ### Two creators -/

/-- A kernel without programs. -/
def smallCreator : Phys := ⟨smallTree, [0x6000, 0x7000, 0x8000], false⟩

theorem smallTree_creator {pool : List ℕ} {oom : Bool} (hnd : pool.Nodup)
    (hpool : ∀ f ∈ pool, f % 4096 = 0 ∧ 0x5000 ≤ f ∧ f < 2 ^ 52) :
    Creator ⟨smallTree, pool, oom⟩ 0x1000 where
  toSpace := smallTree_space hnd hpool
  pml4 := show isPresent (get smallTree 0x1000 0) = true by decide +kernel
  pdpt := show isPresent (get smallTree (pdptOf smallTree 0x1000) 0) = true by decide +kernel

theorem smallTree_above : ∀ t ∈ [0x1000, 0x2000], ∀ i < 512, i ≠ 0 → entry smallTree t i = 0 := by
  intro t ht i hi h0
  rw [smallTree_entry (by revert t; decide) hi]
  simp only [mem_cons, not_mem_nil, or_false] at ht
  rcases ht with rfl | rfl <;> simp [h0]

theorem pdptOf_smallTree : pdptOf smallTree 0x1000 = 0x2000 := by decide +kernel

theorem smallTree_shared (va : ℕ) : userShared smallTree 0x1000 va = false := by
  unfold userShared
  split
  · next h4 =>
    rw [userAccessible, Paging.translate, smallTree_above 0x1000 (by simp) _ (pml4Idx_lt va) h4]
    rfl
  split
  · next h3 =>
    rw [pdptOf_smallTree, smallTree_above 0x2000 (by simp) _ (pdptIdx_lt va) h3]
    rfl
  · rfl

theorem clone_no_user_iff_smallCreator : Creator smallCreator 0x1000 ∧
    ∀ va, userAccessible (cloneIdentityTables smallCreator 0x1000).2.mem 0x8000 va = false := by
  have hc : Creator smallCreator 0x1000 := smallTree_creator (by decide) (by decide)
  exact ⟨hc, (clone_no_user_iff hc
    (show cloneIdentityTables smallCreator 0x1000 = (some 0x8000, _) from rfl)).mpr smallTree_shared⟩

/-- A program that was itself loaded at 1 GB, in the block `0xA00000`. -/
def pieCreator : Phys :=
  (map2mbEnsure ⟨smallTree, [0x6000, 0x7000, 0x8000, 0x9000], false⟩ 0x1000 0x40000000 0xA00000).2

theorem pieCreator_creator : Creator pieCreator 0x1000 := by
  have hs : Space ⟨smallTree, [0x6000, 0x7000, 0x8000, 0x9000], false⟩ 0x1000 :=
    smallTree_space (by decide) (by decide)
  have hok : (map2mbEnsure ⟨smallTree, [0x6000, 0x7000, 0x8000, 0x9000], false⟩ 0x1000 0x40000000
      0xA00000).1 = 0 := by decide +kernel
  obtain ⟨pdpt, pd, s1, hm⟩ := map2mbEnsure_maps hs hok
  exact ⟨hm.space hs (by simp), by decide +kernel, by decide +kernel⟩

/-- **A program keeps the user pages of its creator**: the page at 1 GB of a creator that is a
program is accessible to every program it starts. -/
theorem clone_keeps_user_page : Creator pieCreator 0x1000 ∧
    (cloneIdentityTables pieCreator 0x1000).1 = some 0x9000 ∧
    userAccessible (cloneIdentityTables pieCreator 0x1000).2.mem 0x9000 0x40000000 = true := by
  have hc : (cloneIdentityTables pieCreator 0x1000).1 = some 0x9000 := by decide +kernel
  refine ⟨pieCreator_creator, hc, ?_⟩
  have he : cloneIdentityTables pieCreator 0x1000 =
      (some 0x9000, (cloneIdentityTables pieCreator 0x1000).2) := Prod.ext hc rfl
  obtain ⟨pdp, pd, hcl⟩ := cloned_of_clone pieCreator_creator he
  rw [userAccessible_clone pieCreator_creator hcl]
  decide +kernel

end TipOS.Loader
