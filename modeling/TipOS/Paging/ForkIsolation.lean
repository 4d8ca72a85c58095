import TipOS.Paging.Fork

/-!
# Isolation of parent and child

After a fork that did not run out of frames, parent and child translate every user address as
the parent did before (`Split.userTranslate`): they have all user frames in common.  So the
child reads what the parent had, and the two are isolated exactly when the parent has no
writable user page at all (`fork_isolated_iff`).
-/

namespace TipOS.Paging

open Function Lib

variable {e f : ℕ} {x : ℕ × Rights}

/-! ### Walks of user programs -/

section

variable {m m' : Mem} {r q va : ℕ}

theorem filter_restrict (a : Rights) (x : Option (ℕ × Rights)) :
    (x.map (restrict a)).filter (·.2.u) =
      if a.u = false then none else (x.filter (·.2.u)).map (restrict a) := by
  cases x with
  | none => simp
  | some y => cases ha : a.u <;> cases hy : y.2.u <;> simp [restrict, Rights.meet, Option.filter_some, ha, hy]

theorem isUserPresent_eq_false (h : isUserPresent e = false) :
    isPresent e = false ∨ (rightsOf e).u = false := by
  rwa [isUserPresent, Bool.and_eq_false_iff] at h

theorem isUserPresent_eq_true (h : isUserPresent e) :
    isPresent e ∧ (rightsOf e).u := by
  rwa [isUserPresent, Bool.and_eq_true] at h

theorem userWalkPd_eq (m : Mem) (e2 va : ℕ) : (walkPd m e2 va).filter (·.2.u) =
    if isUserPresent e2 = false then none
    else if isHuge e2 then some (e2 % 2 ^ 52 / 2 ^ 21 * 2 ^ 21 + va % 2 ^ 21, rightsOf e2)
    else if isUserPresent (entry m (frameOf e2) (ptIdx va)) = false then none
    else some (frameOf (entry m (frameOf e2) (ptIdx va)) + va % 2 ^ 12,
      (rightsOf e2).meet (rightsOf (entry m (frameOf e2) (ptIdx va)))) := by
  unfold walkPd
  dsimp only
  generalize entry m (frameOf e2) (ptIdx va) = e1
  cases h2 : isUserPresent e2 with
  | false =>
    rcases isUserPresent_eq_false h2 with hp | hu
    · simp [hp]
    · split <;> [skip; split <;> [skip; split]] <;> simp [Rights.meet, hu]
  | true =>
    obtain ⟨hp, hu⟩ := isUserPresent_eq_true h2
    cases hh : isHuge e2 with
    | true => simp [hp, hu]
    | false =>
      cases h1 : isUserPresent e1 with
      | false => rcases isUserPresent_eq_false h1 with hp1 | hu1 <;> simp_all [Rights.meet]
      | true =>
        obtain ⟨hp1, hu1⟩ := isUserPresent_eq_true h1
        simp [hp, hp1, Rights.meet, hu, hu1]

theorem userWalkPdpt_eq (m : Mem) (e3 va : ℕ) : (walkPdpt m e3 va).filter (·.2.u) =
    if isUserPresent e3 = false then none
    else if isHuge e3 then some (e3 % 2 ^ 52 / 2 ^ 30 * 2 ^ 30 + va % 2 ^ 30, rightsOf e3)
    else ((walkPd m (entry m (frameOf e3) (pdIdx va)) va).filter (·.2.u)).map
      (restrict (rightsOf e3)) := by
  unfold walkPdpt
  cases h3 : isUserPresent e3 with
  | false =>
    rcases isUserPresent_eq_false h3 with hp | hu
    · simp [hp]
    · split <;> [skip; split] <;> simp [filter_restrict, hu]
  | true =>
    obtain ⟨hp, hu⟩ := isUserPresent_eq_true h3
    cases hh : isHuge e3 <;> simp [filter_restrict, hp, hu]

theorem userTranslate_eq (m : Mem) (r va : ℕ) : userTranslate m r va =
    if isUserPresent (entry m r (pml4Idx va)) = false then none
    else ((walkPdpt m (entry m (frameOf (entry m r (pml4Idx va))) (pdptIdx va)) va).filter
      (·.2.u)).map (restrict (rightsOf (entry m r (pml4Idx va)))) := by
  unfold userTranslate translate
  dsimp only
  cases h4 : isUserPresent (entry m r (pml4Idx va)) with
  | false =>
    rcases isUserPresent_eq_false h4 with hp | hu
    · simp [hp]
    · split <;> simp [filter_restrict, hu]
  | true =>
    obtain ⟨hp, hu⟩ := isUserPresent_eq_true h4
    simp [filter_restrict, hp, hu]

theorem userTranslate_congr (h4 : entry m' q (pml4Idx va) = entry m r (pml4Idx va))
    (h3 : isUserPresent (entry m r (pml4Idx va)) →
      entry m' (frameOf (entry m r (pml4Idx va))) (pdptIdx va) =
        entry m (frameOf (entry m r (pml4Idx va))) (pdptIdx va))
    (h2 : ∀ d, PdPath m r (pml4Idx va) (pdptIdx va) d →
      (walkPd m' (entry m' d (pdIdx va)) va).filter (·.2.u) =
        (walkPd m (entry m d (pdIdx va)) va).filter (·.2.u)) :
    userTranslate m' q va = userTranslate m r va := by
  rw [userTranslate_eq, userTranslate_eq, h4]
  by_cases u4 : isUserPresent (entry m r (pml4Idx va)) = false
  · rw [if_pos u4, if_pos u4]
  rw [if_neg u4, if_neg u4]
  rw [Bool.not_eq_false] at u4
  rw [h3 u4, userWalkPdpt_eq, userWalkPdpt_eq]
  by_cases u3 : isUserPresent (entry m (frameOf (entry m r (pml4Idx va))) (pdptIdx va)) = false
  · rw [if_pos u3, if_pos u3]
  rw [if_neg u3, if_neg u3]
  rw [Bool.not_eq_false] at u3
  by_cases hh : isHuge (entry m (frameOf (entry m r (pml4Idx va))) (pdptIdx va))
  · rw [if_pos hh, if_pos hh]
  rw [if_neg hh, if_neg hh,
    h2 _ ⟨pml4Idx_lt va, pdptIdx_lt va, u4, u3, by simpa using hh, rfl⟩]

theorem userWalkPd_congr {e2 : ℕ} (h : isUserPresent e2 → isHuge e2 = false →
      entry m' (frameOf e2) (ptIdx va) = entry m (frameOf e2) (ptIdx va)) :
    (walkPd m' e2 va).filter (·.2.u) = (walkPd m e2 va).filter (·.2.u) := by
  rw [userWalkPd_eq, userWalkPd_eq]
  by_cases u2 : isUserPresent e2 = false
  · rw [if_pos u2, if_pos u2]
  rw [if_neg u2, if_neg u2]
  by_cases hh : isHuge e2
  · rw [if_pos hh, if_pos hh]
  rw [if_neg hh, if_neg hh, h (by simpa using u2) (by simpa using hh)]

end

/-! ### The fork keeps all walks -/

section Walks

variable {m m' : Mem} {r c q va : ℕ} {F : List ℕ} {s : Phys}

theorem userWalkPd_split (hf : f % 4096 = 0) (hlow : f < 2 ^ 52) (hup : isUserPresent e)
    (hh : isHuge e) (hpt : ∀ n < 512, entry m f n = splitEntry e n) :
    (walkPd m (f + 7) va).filter (·.2.u) = (walkPd m' e va).filter (·.2.u) := by
  have hn := ptIdx_lt va
  have hu : isUserPresent (splitEntry e (ptIdx va)) := by
    have hr : isUser (splitEntry e (ptIdx va)) = isUser e :=
      congrArg Rights.u (rightsOf_splitEntry e hn)
    rw [isUserPresent, isPresent_splitEntry, hr]
    exact hup
  have hoff : va % 2 ^ 21 = ptIdx va * 2 ^ 12 + va % 2 ^ 12 := by
    rw [ptIdx]
    omega
  rw [userWalkPd_eq, userWalkPd_eq]
  rw [if_neg (by simp [isUserPresent_pointer hf]), if_neg (by simp [isHuge_pointer hf]),
    frameOf_pointer hf hlow, hpt _ hn, if_neg (by simp [hu]), if_neg (by simp [hup]), if_pos hh,
    frameOf_splitEntry e hn, rightsOf_splitEntry e hn, rightsOf_pointer hf hlow, hoff, Nat.add_assoc]
  simp [Rights.meet]

/-- **In parent and child every user address is translated as in the parent before.** -/
theorem Split.userTranslate (h : Split m r F s) (hf : Forked m r c F) (hq : q = r ∨ q = c) :
    userTranslate s.mem q va = userTranslate m r va := by
  refine userTranslate_congr (h.root_entry hf hq (pml4Idx_lt va)) (fun u4 => ?_) (fun d hp => ?_)
  · exact h.pdpt_entry hf ⟨_, pml4Idx_lt va, u4, rfl⟩ (pdptIdx_lt va)
  · have hk := pdIdx_lt va
    rcases h.pd d hp.pd _ hk with hsame | ⟨hup, hh, f, hfF, -, he, hpt⟩
    · rw [hsame]
      refine userWalkPd_congr fun u2 hh => ?_
      exact h.pt_entry hf ⟨d, hp.pd, _, hk, u2, hh, rfl⟩ (ptIdx_lt va)
    · rw [he]
      exact userWalkPd_split (hf.fresh f hfF).aligned (hf.fresh f hfF).low hup hh hpt

theorem Split.user_byte (h : Split m r F s) (hf : Forked m r c F)
    (hx : Paging.userTranslate m r va = some x) : s.mem x.1 = m x.1 := by
  have hu : UserFrame m r (x.1 / 4096 * 4096) := ⟨va, x, hx, rfl⟩
  refine h.frame x.1 (fun hpd => ?_) (fun hF => (hf.fresh _ hF).user hu)
  exact hf.ok.user _ hu (.inr (.inr (.inl hpd)))

theorem Split.pdPath (h : Split m r F s) (hf : Forked m r c F) (hq : q = r ∨ q = c) {i j d : ℕ}
    (hp : PdPath s.mem q i j d) : PdPath m r i j d := by
  obtain ⟨hi, hj, u4, u3, hh, hd⟩ := hp
  rw [h.root_entry hf hq hi] at u4 u3 hh hd
  have ht : UserPdpt m r (frameOf (entry m r i)) := ⟨i, hi, u4, rfl⟩
  rw [h.pdpt_entry hf ht hj] at u3 hh hd
  exact ⟨hi, hj, u4, u3, hh, hd⟩

theorem Split.userTranslate_write (h : Split m r F s) (hf : Forked m r c F) (hq : q = r ∨ q = c)
    (hfr : UserFrame m r f) (hm' : ∀ x, x / 4096 * 4096 ≠ f → m' x = s.mem x) :
    Paging.userTranslate m' q va = Paging.userTranslate s.mem q va := by
  have hnt := hf.ok.user f hfr
  have hagree : ∀ {t i}, t % 4096 = 0 → i < 512 → t ≠ f → entry m' t i = entry s.mem t i :=
    fun ht hi hne => entry_congr ht hi fun x hx => hm' x (by rw [hx]; exact hne)
  have hqal : q % 4096 = 0 ∧ q ≠ f := by
    rcases hq with rfl | rfl
    · exact ⟨hf.ok.root, fun he => hnt (.inl he.symm)⟩
    · exact ⟨hf.child.aligned, fun he => hf.child.user (he ▸ hfr)⟩
  refine userTranslate_congr (hagree hqal.1 (pml4Idx_lt va) hqal.2) (fun u4 => ?_) (fun d hp => ?_)
  · rw [h.root_entry hf hq (pml4Idx_lt va)] at u4 ⊢
    have ht : UserPdpt m r (frameOf (entry m r (pml4Idx va))) := ⟨_, pml4Idx_lt va, u4, rfl⟩
    exact hagree ht.aligned (pdptIdx_lt va) fun he => hnt (.inr (.inl (he ▸ ht)))
  have hd := (h.pdPath hf hq hp).pd
  have hk := pdIdx_lt va
  rw [hagree hd.aligned hk fun he => hnt (.inr (.inr (.inl (he ▸ hd))))]
  refine userWalkPd_congr fun u2 hh => ?_
  rcases h.pd d hd _ hk with hsame | ⟨-, -, g, hg, -, he, -⟩
  · rw [hsame] at u2 hh ⊢
    have ht : UserPt m r (frameOf (entry m d (pdIdx va))) := ⟨d, hd, _, hk, u2, hh, rfl⟩
    exact hagree (frameOf_mod _) (ptIdx_lt va) fun he => hnt (.inr (.inr (.inr (he ▸ ht))))
  · rw [he, frameOf_pointer (hf.fresh g hg).aligned (hf.fresh g hg).low]
    exact hagree (hf.fresh g hg).aligned (ptIdx_lt va) fun he => (hf.fresh g hg).user (he ▸ hfr)

end Walks

/-! ### `pml4_create` -/

section Create

variable {m m₀ : Mem} {r c : ℕ}

theorem copyTable_spec {s : Phys} (hr : r % 4096 = 0) (hc : c % 4096 = 0) (hne : c ≠ r) :
    (∀ i < 512, entry (copyTable r c s).mem c i = entry s.mem r i) ∧
    (∀ x, x / 4096 * 4096 ≠ c → (copyTable r c s).mem x = s.mem x) ∧
    (copyTable r c s).pool = s.pool ∧ (copyTable r c s).oom = s.oom := by
  rw [copyTable]
  refine forLoop_induct (fun n (t : Phys) => (∀ i < n, entry t.mem c i = entry s.mem r i) ∧
    (∀ x, x / 4096 * 4096 ≠ c → t.mem x = s.mem x) ∧ t.pool = s.pool ∧ t.oom = s.oom)
    ⟨fun i hi => absurd hi (Nat.not_lt_zero i), fun _ _ => rfl, rfl, rfl⟩ ?_
  intro k hk t ih
  obtain ⟨hent, hbytes, hp, ho⟩ := ih
  have hsrc : entry t.mem r k = entry s.mem r k :=
    entry_congr hr hk fun x hx => hbytes x (by rw [hx]; exact hne.symm)
  refine ⟨fun i hi => ?_, fun x hx => ?_, hp, ho⟩
  · rw [Phys.setEntry_mem]
    by_cases hik : i = k
    · subst hik
      rw [entry_setEntry_self, hsrc, Nat.mod_eq_of_lt (entry_lt _ _ _)]
    · rw [entry_setEntry_of_ne hc hc hk (by omega) (.inr hik)]
      exact hent i (by omega)
  · rw [Phys.setEntry_mem, setEntry_apply_of_ne hc hk hx]
    exact hbytes x hx

/-- Memory that differs from `m₀` only in a fresh frame has the same user space. -/
structure Agrees (m₀ m : Mem) (r c : ℕ) : Prop where
  ok : SpaceOk m₀ r
  fresh : FreshFrame m₀ r c
  bytes : ∀ x, x / 4096 * 4096 ≠ c → m x = m₀ x

namespace Agrees

section

variable (h : Agrees m₀ m r c)

include h

theorem entry_eq {t i : ℕ} (ht : t % 4096 = 0) (hi : i < 512) (hne : t ≠ c) :
    entry m t i = entry m₀ t i :=
  entry_congr ht hi fun x hx => h.bytes x (by rw [hx]; exact hne)

theorem table_ne {t : ℕ} (ht : UserTable m₀ r t) : t ≠ c :=
  fun he => h.fresh.table (he ▸ ht)

theorem root_entry {i : ℕ} (hi : i < 512) : entry m r i = entry m₀ r i :=
  h.entry_eq h.ok.root hi (h.table_ne (.inl rfl))

theorem pdpt : UserPdpt m r = UserPdpt m₀ r := by
  funext t
  refine propext (exists_congr fun i => and_congr_right fun hi => ?_)
  rw [h.root_entry hi]

theorem pdpt_entry {q j : ℕ} (hq : UserPdpt m₀ r q) (hj : j < 512) :
    entry m q j = entry m₀ q j :=
  h.entry_eq hq.aligned hj (h.table_ne (.inr (.inl hq)))

theorem pd : UserPd m r = UserPd m₀ r := by
  funext t
  refine propext (exists_congr fun q => ?_)
  rw [h.pdpt]
  refine and_congr_right fun hq => exists_congr fun j => and_congr_right fun hj => ?_
  rw [h.pdpt_entry hq hj]

theorem pd_entry {q k : ℕ} (hq : UserPd m₀ r q) (hk : k < 512) :
    entry m q k = entry m₀ q k :=
  h.entry_eq hq.aligned hk (h.table_ne (.inr (.inr (.inl hq))))

theorem pt : UserPt m r = UserPt m₀ r := by
  funext t
  refine propext (exists_congr fun q => ?_)
  rw [h.pd]
  refine and_congr_right fun hq => exists_congr fun k => and_congr_right fun hk => ?_
  rw [h.pd_entry hq hk]

theorem table : UserTable m r = UserTable m₀ r := by
  funext t
  rw [UserTable, UserTable, h.pdpt, h.pd, h.pt]

theorem translate (va : ℕ) : userTranslate m r va = userTranslate m₀ r va := by
  refine userTranslate_congr (h.root_entry (pml4Idx_lt va)) (fun u4 => ?_) (fun d hp => ?_)
  · exact h.pdpt_entry ⟨_, pml4Idx_lt va, u4, rfl⟩ (pdptIdx_lt va)
  · rw [h.pd_entry hp.pd (pdIdx_lt va)]
    refine userWalkPd_congr fun u2 hh => ?_
    have ht : UserPt m₀ r (frameOf (entry m₀ d (pdIdx va))) :=
      ⟨d, hp.pd, _, pdIdx_lt va, u2, hh, rfl⟩
    exact h.entry_eq (frameOf_mod _) (ptIdx_lt va) (h.table_ne (.inr (.inr (.inr ht))))

theorem frame : UserFrame m r = UserFrame m₀ r := by
  funext f
  simp only [UserFrame, h.translate]

theorem freshFrame (hf : FreshFrame m₀ r f) : FreshFrame m r f :=
  ⟨hf.aligned, hf.low, by rw [h.table]; exact hf.table, by rw [h.frame]; exact hf.user⟩

theorem spaceOk : SpaceOk m r := by
  refine ⟨h.ok.root, ?_, ?_, ?_, ?_, ?_, ?_⟩
  · intro i hi
    rw [h.root_entry hi]
    exact h.ok.low4 i hi
  · intro t ht j hj
    rw [h.pdpt] at ht
    rw [h.pdpt_entry ht hj]
    exact h.ok.low3 t ht j hj
  · intro t ht k hk
    rw [h.pd] at ht
    rw [h.pd_entry ht hk]
    exact h.ok.low2 t ht k hk
  · intro t ht k hk
    rw [h.pd] at ht
    rw [h.pd_entry ht hk]
    exact h.ok.huge2 t ht k hk
  · rw [h.pd, h.pdpt, h.pt]
    exact h.ok.pd
  · rw [h.frame, h.table]
    exact h.ok.user

end

end Agrees

end Create

/-! ### The whole fork -/

/-- A proper parent at `r`, and a pool of fresh frames. -/
structure ForkOk (s : Phys) (r : ℕ) : Prop where
  ok : SpaceOk s.mem r
  fresh : ∀ f ∈ s.pool, FreshFrame s.mem r f
  nodup : s.pool.Nodup

section Whole

variable {s : Phys} {r : ℕ}

/-- The state after `pml4_create`. -/
theorem forkSpace_cons (h : ForkOk s r) {c : ℕ} {F : List ℕ} (hpool : s.pool = c :: F) :
    ∃ s1, forkSpace s r = (some c, copyUserSpace r c s1) ∧ Agrees s.mem s1.mem r c ∧
      Forked s1.mem r c F ∧ Split s1.mem r F s1 ∧ s1.oom = s.oom ∧ s1.pool = F := by
  have hc : c ∈ s.pool := by rw [hpool]; simp
  have hfc := h.fresh c hc
  have hnd := h.nodup
  rw [hpool] at hnd
  obtain ⟨hcF, hF⟩ := List.nodup_cons.mp hnd
  have hne : c ≠ r := fun he => hfc.table (.inl he)
  obtain ⟨hent, hbytes, hp, ho⟩ :=
    copyTable_spec (s := { s with pool := F }) h.ok.root hfc.aligned hne
  have hag : Agrees s.mem (copyTable r c { s with pool := F }).mem r c := ⟨h.ok, hfc, hbytes⟩
  refine ⟨copyTable r c { s with pool := F }, ?_, hag, ?_, ?_, ho, hp⟩
  · rw [forkSpace, pml4Create, Phys.takeFrame, hpool]
  · refine ⟨hag.spaceOk, fun f hf => hag.freshFrame (h.fresh f ?_), hag.freshFrame hfc, hcF, ?_⟩
    · rw [hpool]
      exact .tail _ hf
    · intro i hi
      rw [hent i hi, hag.root_entry hi]
  · exact ⟨fun f hf => by rwa [hp] at hf, by rw [hp]; exact hF, fun _ _ _ => rfl,
      fun _ _ _ _ => .inl rfl⟩

/-- **After a fork that did not run out of frames** parent and child translate every user
address as the parent did, and every user byte is as it was. -/
theorem forkSpace_spec (h : ForkOk s r) (hoom : (forkSpace s r).2.oom = false) :
    ∃ c m F, (forkSpace s r).1 = some c ∧ Forked m r c F ∧ Split m r F (forkSpace s r).2 ∧
      (∀ q va, q = r ∨ q = c → userTranslate (forkSpace s r).2.mem q va = userTranslate s.mem r va) ∧
      (∀ va x, userTranslate s.mem r va = some x → (forkSpace s r).2.mem x.1 = s.mem x.1) ∧
      UserFrame m r = UserFrame s.mem r := by
  cases hpool : s.pool with
  | nil =>
    rw [forkSpace, pml4Create, Phys.takeFrame, hpool] at hoom
    cases hoom
  | cons c F =>
    obtain ⟨s1, heq, hag, hf, hs, -⟩ := forkSpace_cons h hpool
    rw [heq] at hoom ⊢
    have hs' : Split s1.mem r F (copyUserSpace r c s1) := by
      rcases hs.copyUserSpace_good hf with ho | hs'
      · cases ho.symm.trans hoom
      · exact hs'
    refine ⟨c, s1.mem, F, rfl, hf, hs', fun q va hq => ?_, fun va x hx => ?_, hag.frame⟩
    · rw [hs'.userTranslate hf hq, hag.translate]
    · rw [← hag.translate] at hx
      rw [hs'.user_byte hf hx]
      refine hag.bytes x.1 fun he => hf.child.user ?_
      exact ⟨va, x, hx, he.symm⟩

end Whole

/-! ### Isolation -/

/-- The byte a user program reads at `va`. -/
def userRead (m : Mem) (root va : ℕ) : Option UInt8 :=
  (userTranslate m root va).map fun x => m x.1

/-- Memory after a user program writes `b` at `va`; nothing when it may not. -/
def userWrite (m : Mem) (root va : ℕ) (b : UInt8) : Option Mem :=
  match userTranslate m root va with
  | none => none
  | some x => if x.2.w then some (update m x.1 b) else none

/-- Memory reached by user writes of the two processes with roots `r` and `c`. -/
inductive UserRun (r c : ℕ) (m : Mem) : Mem → Prop
  | start : UserRun r c m m
  | write {m₁ m₂ : Mem} (q va : ℕ) (b : UInt8) : UserRun r c m m₁ → q = r ∨ q = c →
      userWrite m₁ q va b = some m₂ → UserRun r c m m₂

/-- **Fork isolation.**  The child reads what the parent had, and from then on no write of one
of the two changes what the other reads. -/
structure Isolated (s : Phys) (r : ℕ) : Prop where
  reads : ∀ c, (forkSpace s r).1 = some c → ∀ va b,
    userRead (forkSpace s r).2.mem c va = some b → userRead s.mem r va = some b
  writes : ∀ c, (forkSpace s r).1 = some c → ∀ m₁, UserRun r c (forkSpace s r).2.mem m₁ →
    ∀ p q, p = r ∧ q = c ∨ p = c ∧ q = r → ∀ va b m₂, userWrite m₁ p va b = some m₂ →
      ∀ vb, userRead m₂ q vb = userRead m₁ q vb

section Isolation

variable {s : Phys} {r : ℕ}

theorem not_isolated_of_writable (h : ForkOk s r) (hoom : (forkSpace s r).2.oom = false) {va : ℕ}
    (hx : userTranslate s.mem r va = some x) (hw : x.2.w) :
    ¬ Isolated s r := by
  intro hiso
  obtain ⟨c, m, F, hc, hf, hs, htr, -, hfr⟩ := forkSpace_spec h hoom
  have hr := (htr r va (.inl rfl)).trans hx
  have hcx := (htr c va (.inr rfl)).trans hx
  have hiso' := hiso.writes c hc
  generalize (forkSpace s r).2 = s' at hs htr hr hcx hiso'
  have hwrite : ∀ b, userWrite s'.mem r va b = some (update s'.mem x.1 b) := by
    intro b
    rw [userWrite, hr]
    exact if_pos hw
  have hread : ∀ b, userRead (update s'.mem x.1 b) c va = some b := by
    intro b
    have hu : UserFrame m r (x.1 / 4096 * 4096) := by
      rw [hfr]
      exact ⟨va, x, hx, rfl⟩
    have hkeep : userTranslate (update s'.mem x.1 b) c va = userTranslate s'.mem c va := by
      refine hs.userTranslate_write hf (.inr rfl) hu fun y hy => ?_
      rw [update_of_ne]
      rintro rfl
      exact hy rfl
    rw [userRead, hkeep, hcx, Option.map_some, update_self]
  have hsame := fun b =>
    hiso' s'.mem .start r c (.inl ⟨rfl, rfl⟩) va b _ (hwrite b) va
  have h0 := (hread 0).symm.trans ((hsame 0).trans ((hsame 1).symm.trans (hread 1)))
  cases h0

theorem isolated_of_not_writable (h : ForkOk s r) (hoom : (forkSpace s r).2.oom = false)
    (hw : ∀ va x, userTranslate s.mem r va = some x → x.2.w = false) : Isolated s r := by
  obtain ⟨c, m, F, hc, -, -, htr, hbytes, -⟩ := forkSpace_spec h hoom
  have hnone : ∀ q va b, q = r ∨ q = c → userWrite (forkSpace s r).2.mem q va b = none := by
    intro q va b hq
    rw [userWrite, htr q va hq]
    cases hx : userTranslate s.mem r va with
    | none => rfl
    | some x => exact if_neg (by simp [hw va x hx])
  have hrun : ∀ m1, UserRun r c (forkSpace s r).2.mem m1 → m1 = (forkSpace s r).2.mem := by
    intro m1 hm
    induction hm with
    | start => rfl
    | write q va b _ hq hwr ih =>
      rw [ih, hnone q va b hq] at hwr
      cases hwr
  constructor
  · intro c' hc' va b hb
    obtain rfl : c = c' := Option.some.inj (hc.symm.trans hc')
    rw [userRead, htr c va (.inr rfl)] at hb
    rw [userRead]
    cases hx : userTranslate s.mem r va with
    | none => simp [hx] at hb
    | some x =>
      rw [hx, Option.map_some, hbytes va x hx] at hb
      exact hb
  · intro c' hc' m1 hm p q hpq va b m2 hwr
    obtain rfl : c = c' := Option.some.inj (hc.symm.trans hc')
    rw [hrun m1 hm, hnone p va b (hpq.imp And.left And.left)] at hwr
    cases hwr

/-- **Parent and child are isolated exactly when the parent has no writable user page.** -/
theorem fork_isolated_iff (h : ForkOk s r) (hoom : (forkSpace s r).2.oom = false) :
    Isolated s r ↔ ∀ va x, userTranslate s.mem r va = some x → x.2.w = false := by
  refine ⟨fun hiso va x hx => ?_, isolated_of_not_writable h hoom⟩
  by_contra hw
  exact not_isolated_of_writable h hoom hx (by simpa using hw) hiso

end Isolation

/-! ### A parent with one page -/

/-- Tables at `0x1000` to `0x4000` that map address 0 to the frame at `0x5000`. -/
def onePage (flags : ℕ) : Phys where
  mem := setEntry (setEntry (setEntry (setEntry (fun _ => 0) 0x1000 0 0x2007) 0x2000 0 0x3007)
    0x3000 0 0x4007) 0x4000 0 (0x5000 + flags)
  pool := [0x10000]
  oom := false

section OnePage

variable {flags t i : ℕ}

section

variable (hf : flags < 8)

include hf

theorem onePage_entry (ht : t % 4096 = 0) (hi : i < 512) :
    entry (onePage flags).mem t i =
      if t = 0x4000 ∧ i = 0 then 0x5000 + flags else if t = 0x3000 ∧ i = 0 then 0x4007
      else if t = 0x2000 ∧ i = 0 then 0x3007 else if t = 0x1000 ∧ i = 0 then 0x2007 else 0 := by
  have hset : ∀ (m : Mem) (a e : ℕ), a % 4096 = 0 → e < 2 ^ 64 →
      entry (setEntry m a 0 e) t i = if t = a ∧ i = 0 then e else entry m t i := by
    intro m a e ha he
    by_cases h : t = a ∧ i = 0
    · rw [if_pos h, h.1, h.2, entry_setEntry_self, Nat.mod_eq_of_lt he]
    · rw [if_neg h, entry_setEntry_of_ne ha ht (by simp) hi (not_and_or.mp h)]
  rw [onePage, hset _ _ _ (by simp) (by omega), hset _ _ _ (by simp) (by simp),
    hset _ _ _ (by simp) (by simp), hset _ _ _ (by simp) (by simp), entry_zero]

/-- Only the first entry of a table is present. -/
theorem onePage_up (ht : t % 4096 = 0) (hi : i < 512)
    (u : isUserPresent (entry (onePage flags).mem t i)) :
    entry (onePage flags).mem t i = entry (onePage flags).mem t 0 := by
  by_cases h0 : i = 0
  · rw [h0]
  · rw [onePage_entry hf ht hi] at u
    simp [h0, isUserPresent, isPresent] at u

theorem onePage_first : entry (onePage flags).mem 0x1000 0 = 0x2007 ∧
    entry (onePage flags).mem 0x2000 0 = 0x3007 ∧ entry (onePage flags).mem 0x3000 0 = 0x4007 ∧
    entry (onePage flags).mem 0x4000 0 = 0x5000 + flags := by
  simp [onePage_entry hf]

theorem onePage_pdpt {q : ℕ} (h : UserPdpt (onePage flags).mem 0x1000 q) :
    q = 0x2000 := by
  obtain ⟨i, hi, u, rfl⟩ := h
  rw [onePage_up hf (by simp) hi u, (onePage_first hf).1]
  rfl

theorem onePage_pd {q : ℕ} (h : UserPd (onePage flags).mem 0x1000 q) :
    q = 0x3000 := by
  obtain ⟨p, hp, j, hj, u, -, rfl⟩ := h
  obtain rfl := onePage_pdpt hf hp
  rw [onePage_up hf (by simp) hj u, (onePage_first hf).2.1]
  rfl

theorem onePage_pt {q : ℕ} (h : UserPt (onePage flags).mem 0x1000 q) :
    q = 0x4000 := by
  obtain ⟨p, hp, k, hk, u, -, rfl⟩ := h
  obtain rfl := onePage_pd hf hp
  rw [onePage_up hf (by simp) hk u, (onePage_first hf).2.2.1]
  rfl

theorem onePage_table {q : ℕ} (h : UserTable (onePage flags).mem 0x1000 q) :
    q = 0x1000 ∨ q = 0x2000 ∨ q = 0x3000 ∨ q = 0x4000 := by
  rcases h with h | h | h | h
  · exact .inl h
  · exact .inr (.inl (onePage_pdpt hf h))
  · exact .inr (.inr (.inl (onePage_pd hf h)))
  · exact .inr (.inr (.inr (onePage_pt hf h)))

/-- Every user address of the page is in the frame at `0x5000`, with the rights of its entry. -/
theorem onePage_translate {va : ℕ} (h : userTranslate (onePage flags).mem 0x1000 va = some x) :
    x.1 = 0x5000 + va % 2 ^ 12 ∧ x.2.w = isWritable (0x5000 + flags) := by
  obtain ⟨at4, at3, at2, at1⟩ := onePage_first hf
  have hfr : frameOf (0x5000 + flags) = 0x5000 := by
    rw [frameOf]
    omega
  rw [userTranslate_eq] at h
  split at h
  · cases h
  next u4 =>
  rw [onePage_up hf (by simp) (pml4Idx_lt va) (eq_true_of_ne_false u4), at4,
    show frameOf 0x2007 = 0x2000 by rfl, userWalkPdpt_eq] at h
  split at h
  · cases h
  next u3 =>
  rw [onePage_up hf (by simp) (pdptIdx_lt va) (eq_true_of_ne_false u3), at3, if_neg (by decide),
    show frameOf 0x3007 = 0x3000 by rfl, userWalkPd_eq] at h
  split at h
  · cases h
  next u2 =>
  rw [onePage_up hf (by simp) (pdIdx_lt va) (eq_true_of_ne_false u2), at2, if_neg (by decide),
    show frameOf 0x4007 = 0x4000 by rfl] at h
  split at h
  · cases h
  next u1 =>
  rw [onePage_up hf (by simp) (ptIdx_lt va) (eq_true_of_ne_false u1), at1, hfr] at h
  cases h
  exact ⟨rfl, rfl⟩

theorem onePage_user {f : ℕ} (h : UserFrame (onePage flags).mem 0x1000 f) : f = 0x5000 := by
  obtain ⟨va, x, hx, rfl⟩ := h
  have h1 := (onePage_translate hf hx).1
  omega

theorem onePage_fresh {f : ℕ} (h : f % 4096 = 0 ∧ 0x6000 ≤ f ∧ f < 2 ^ 52) :
    FreshFrame (onePage flags).mem 0x1000 f := by
  refine ⟨h.1, h.2.2, fun ht => ?_, fun hu => ?_⟩
  · have := onePage_table hf ht
    omega
  · have := onePage_user hf hu
    omega

theorem onePage_forkOk : ForkOk (onePage flags) 0x1000 := by
  refine ⟨⟨by simp, ?_, ?_, ?_, ?_, ?_, ?_⟩, ?_, by simp [onePage]⟩
  · intro i hi _
    rw [onePage_entry hf (by simp) hi]
    split_ifs <;> omega
  · intro t ht j hj _ _
    obtain rfl := onePage_pdpt hf ht
    rw [onePage_entry hf (by simp) hj]
    split_ifs <;> omega
  · intro t ht k hk _ _
    obtain rfl := onePage_pd hf ht
    rw [onePage_entry hf (by simp) hk]
    split_ifs <;> omega
  · intro t ht k hk _ _
    obtain rfl := onePage_pd hf ht
    rw [onePage_entry hf (by simp) hk]
    split_ifs <;> omega
  · intro t ht
    obtain rfl := onePage_pd hf ht
    refine ⟨by simp, fun h => ?_, fun h => ?_⟩
    · exact absurd (onePage_pdpt hf h) (by simp)
    · exact absurd (onePage_pt hf h) (by simp)
  · intro f hfr htab
    obtain rfl := onePage_user hf hfr
    exact absurd (onePage_table hf htab) (by simp)
  · intro f hp
    obtain rfl : f = 0x10000 := by simpa [onePage] using hp
    exact onePage_fresh hf (by simp)

theorem onePage_oom : (forkSpace (onePage flags) 0x1000).2.oom = false := by
  obtain ⟨s1, heq, hag, hfk, hs, ho, -⟩ :=
    forkSpace_cons (onePage_forkOk hf) (c := 0x10000) (F := []) rfl
  rw [heq, hs.copyUserSpace_small hfk (fun _ _ _ _ => rfl), ho]
  · rfl
  intro d hd k hk _
  rw [hag.pd] at hd
  rw [hag.pd_entry hd hk]
  obtain rfl := onePage_pd hf hd
  rw [onePage_entry hf (by simp) hk]
  by_cases h0 : k = 0 <;> simp [h0, isHuge, Nat.testBit_eq_decide_div_mod_eq]

end

theorem fork_isolated_iff_readOnly : Isolated (onePage 5) 0x1000 := by
  refine (fork_isolated_iff (onePage_forkOk (by simp)) (onePage_oom (by simp))).mpr ?_
  intro va x hx
  rw [(onePage_translate (by simp) hx).2]
  decide

/-- **A parent with one writable page**: after the fork its writes change what the child reads. -/
theorem fork_shares : ¬ Isolated (onePage 7) 0x1000 :=
  not_isolated_of_writable (onePage_forkOk (by simp)) (onePage_oom (by simp))
    (show userTranslate (onePage 7).mem 0x1000 0 = some (0x5000, ⟨true, true, false⟩) by decide) rfl

end OnePage

end TipOS.Paging
