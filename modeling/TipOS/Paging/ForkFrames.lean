import TipOS.Paging.ForkIsolation

/-!
# The frames that a fork takes

Besides the root of the child a fork takes a frame for each 2 MB user page of the parent, in the
table that replaces its entry.  It takes no others: pages of 4 KB are found mapped.
-/

namespace TipOS.Paging

open Lib

/-- Some 2 MB page is for users. -/
def UserHuge (m : Mem) (r : ℕ) : Prop :=
  ∃ d, UserPd m r d ∧ ∃ k < 512, isUserPresent (entry m d k) = true ∧ isHuge (entry m d k) = true

/-- The walk has not taken a frame. -/
structure Untouched (m : Mem) (r : ℕ) (F : List ℕ) (s : Phys) : Prop where
  split : Split m r F s
  pool : s.pool = F
  oom : s.oom = false

/-- The walk has taken a frame, or not yet. -/
def Started (m : Mem) (r : ℕ) (F : List ℕ) (s : Phys) : Prop :=
  s.pool.length < F.length ∨ Untouched m r F s

section Takes

variable {m : Mem} {r c i j k n d : ℕ} {F : List ℕ} {s s' : Phys}

theorem Started.step (h : Started m r F s) (hF : F ≠ []) (hs : Shrinks s s')
    (hg : Split m r F s → Good m r F s') : Started m r F s' := by
  rcases h with hlt | h
  · exact .inl (lt_of_le_of_lt hs.length_le hlt)
  cases ho : s'.oom with
  | true =>
    have he := hs.empty (fun h' => absurd (h.oom.symm.trans h') nofun) ho
    rw [Started, he]
    exact .inl (List.length_pos_iff.mpr hF)
  | false =>
    have hsplit := (hg h.split).resolve_left (by rw [ho]; exact Bool.false_ne_true)
    have hrest := h.pool ▸ hs.rest
    rcases Nat.lt_or_ge s'.pool.length F.length with hlt | hge
    · exact .inl hlt
    · exact .inr ⟨hsplit, hrest.eq_of_length_le hge, ho⟩

section

variable (h : Untouched m r F s)

include h

theorem Untouched.pd_entry (hp : PdPath m r i j d) (hk : k < 512) :
    entry s.mem d k = entry m d k := by
  rcases h.split.pd d hp.pd k hk with he | ⟨-, -, f, hfF, hf, -⟩
  · exact he
  · exact absurd (h.pool.symm ▸ hfF) hf

section

variable (hf : Forked m r c F) (hF : F ≠ []) (hp : PdPath m r i j d) (hk : k < 512)
  (hup : isUserPresent (entry m d k)) (hh : isHuge (entry m d k))

include hf hF hp hk hup hh

theorem Untouched.copyTo_takes (hn : n < 512) (src : ℕ) :
    (copyTo s c (pageAddr i j k n) src).pool.length < F.length := by
  obtain ⟨f, pool, hpool⟩ := List.exists_cons_of_ne_nil hF
  have hent := h.pd_entry hp hk
  have hw := h.split.walk hf hp hk hn (by rw [hent]; exact isPresent_of_isUserPresent hup)
  rw [hent] at hw
  have hsplit := split2mbPde_huge hw hh (h.pool.trans hpool)
  have hrest := (shrinks_childFrameFor_split s c (pageAddr i j k n)).trans
    (shrinks_copyTo_frame s c (pageAddr i j k n) src)
  rw [hsplit] at hrest
  have hle := hrest.length_le
  rw [splitAt, Phys.setEntry_pool] at hle
  have hle' := (shrinks_fillSplit f (entry m d k)
    { s with pool := pool, mem := s.mem.fill f 4096 0 }).length_le
  rw [hpool, List.length_cons]
  exact Nat.lt_succ_of_le (hle.trans hle')

theorem Untouched.copyPde_takes :
    (copyPde c (i * 2 ^ 39 + j * 2 ^ 30 + k * 2 ^ 21) (entry s.mem d k) s).pool.length <
      F.length := by
  rw [h.pd_entry hp hk, copyPde, if_neg (by rw [hup]; decide), if_pos hh,
    copyHuge]
  -- any page of the 512 will do
  obtain ⟨n0, hn0⟩ : ∃ n, n < 512 := ⟨0, by norm_num⟩
  refine forLoop_hits (Started m r F) (fun t : Phys => t.pool.length < F.length) hn0 (.inr h)
    (fun n hn t ht => ?_) (fun t ht => ?_) fun n _ t ht => ?_
  · refine ht.step hF (shrinks_copyTo t _ _ _) fun hs => ?_
    have hlow := hf.ok.huge2 d hp.pd k hk hup hh
    have hsrc : entry m d k % 2 ^ 44 / 2 ^ 21 * 2 ^ 21 + n * 2 ^ 12 =
        leafFrame m (entry m d k) n := by
      rw [leafFrame, if_pos hh]
      omega
    rw [hsrc]
    exact (hs.copyTo_good hf hp hk hup hn
      (fun h0 => absurd (hh.symm.trans h0) (by decide))).imp_right And.left
  · rcases ht with hlt | ht
    · exact lt_of_le_of_lt (shrinks_copyTo t _ _ _).length_le hlt
    · exact ht.copyTo_takes hf hF hp hk hup hh hn0 _
  · exact lt_of_le_of_lt (shrinks_copyTo t _ _ _).length_le ht

theorem Untouched.copyPdpte_takes :
    (copyPdpte c (i * 2 ^ 39 + j * 2 ^ 30) (entry s.mem (frameOf (entry m r i)) j) s).pool.length <
      F.length := by
  rw [h.split.pdpt_entry hf hp.pdpt hp.j_lt, copyPdpte, if_neg (by rw [hp.up3]; decide),
    if_neg (by rw [hp.small]; decide), ← hp.eq, copyPd]
  refine forLoop_hits (Started m r F) (fun t : Phys => t.pool.length < F.length) hk (.inr h)
    (fun k' hk' t ht => ?_) (fun t ht => ?_) fun k' _ t ht => ?_
  · exact ht.step hF (shrinks_copyPde _ _ _ t) fun hs => hs.copyPde_good hf hp hk'
  · rcases ht with hlt | ht
    · exact lt_of_le_of_lt (shrinks_copyPde _ _ _ t).length_le hlt
    · exact ht.copyPde_takes hf hF hp hk hup hh
  · exact lt_of_le_of_lt (shrinks_copyPde _ _ _ t).length_le ht

theorem Untouched.copyPml4e_takes :
    (copyPml4e c (i * 2 ^ 39) (entry s.mem r i) s).pool.length < F.length := by
  rw [h.split.root_entry hf (.inl rfl) hp.i_lt, copyPml4e, if_neg (by rw [hp.up4]; decide),
    copyPdpt]
  refine forLoop_hits (Started m r F) (fun t : Phys => t.pool.length < F.length) hp.j_lt (.inr h)
    (fun j' hj' t ht => ?_) (fun t ht => ?_) fun j' _ t ht => ?_
  · exact ht.step hF (shrinks_copyPdpte _ _ _ t) fun hs => hs.copyPdpte_good hf hp.i_lt hj' hp.up4
  · rcases ht with hlt | ht
    · exact lt_of_le_of_lt (shrinks_copyPdpte _ _ _ t).length_le hlt
    · exact ht.copyPdpte_takes hf hF hp hk hup hh
  · exact lt_of_le_of_lt (shrinks_copyPdpte _ _ _ t).length_le ht

end

/-- **With a 2 MB user page `copy_user_space` takes a frame**, when there is one. -/
theorem Untouched.copyUserSpace_takes (hf : Forked m r c F) (hF : F ≠ []) (hu : UserHuge m r) :
    (copyUserSpace r c s).pool.length < F.length := by
  obtain ⟨d, ⟨q, ⟨i, hi, hu4, rfl⟩, j, hj, hu3, hh3, rfl⟩, k, hk, hup, hh⟩ := hu
  have hp : PdPath m r i j (frameOf (entry m (frameOf (entry m r i)) j)) :=
    ⟨hi, hj, hu4, hu3, hh3, rfl⟩
  rw [copyUserSpace]
  refine forLoop_hits (Started m r F) (fun t : Phys => t.pool.length < F.length) hi (.inr h)
    (fun i' hi' t ht => ?_) (fun t ht => ?_) fun i' _ t ht => ?_
  · exact ht.step hF (shrinks_copyPml4e _ _ _ t) fun hs => hs.copyPml4e_good hf hi'
  · rcases ht with hlt | ht
    · exact lt_of_le_of_lt (shrinks_copyPml4e _ _ _ t).length_le hlt
    · exact ht.copyPml4e_takes hf hF hp hk hup hh
  · exact lt_of_le_of_lt (shrinks_copyPml4e _ _ _ t).length_le ht

end

end Takes

/-- **What a fork leaves of the pool** behind the root of the child. -/
theorem forkSpace_pool {s : Phys} {r c : ℕ} {F : List ℕ} (h : ForkOk s r) (ho : s.oom = false)
    (hpool : s.pool = c :: F) :
    (forkSpace s r).1 = some c ∧
    ((forkSpace s r).2.pool.length = F.length ↔ F = [] ∨ ¬ UserHuge s.mem r) ∧
    (forkSpace s r).2.pool.length ≤ F.length := by
  obtain ⟨s1, heq, hag, hf, hs, ho1, hp1⟩ := forkSpace_cons h hpool
  have hhuge : UserHuge s1.mem r ↔ UserHuge s.mem r := by
    unfold UserHuge
    rw [hag.pd]
    refine exists_congr fun d => and_congr_right fun hd => exists_congr fun k =>
      and_congr_right fun hk => ?_
    rw [hag.pd_entry hd hk]
  have hle := (shrinks_copyUserSpace r c s1).length_le
  rw [hp1] at hle
  rw [heq]
  refine ⟨rfl, ⟨fun hlen => ?_, fun hcase => ?_⟩, hle⟩
  · by_contra hno
    obtain ⟨hF, hu⟩ := not_or.mp hno
    have hlt := (Untouched.mk hs hp1 (ho1.trans ho)).copyUserSpace_takes hf hF
      (hhuge.mpr (not_not.mp hu))
    exact absurd hlen hlt.ne
  · rcases hcase with rfl | hno
    · exact le_antisymm hle (Nat.zero_le _)
    · rw [hs.copyUserSpace_small hf (fun _ _ _ _ => rfl) fun d hd k hk hup => ?_, hp1]
      by_contra hh
      exact hno (hhuge.mp ⟨d, hd, k, hk, hup, Bool.eq_true_of_not_eq_false hh⟩)

end TipOS.Paging
