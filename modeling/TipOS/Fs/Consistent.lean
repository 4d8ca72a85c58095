import Mathlib.Data.List.Find
import Mathlib.Data.List.Perm.Subperm
import TipOS.Fs.Records

/-!
# Consistent volumes

The records of a volume are those of its directories that are in use, up to the first one whose
name begins with 0, without the pieces of long names and without `.` and `..` (`Volume.live`).
The root directory and every record with a first cluster own a chain (`Volume.Owns`).  A volume is
consistent if these chains end in an end marker and no two of them share a cluster.

Two rules say how a consistent volume stays consistent:

* `Consistent.change`, for what leaves the directories alone (`SameDirs`): the chain of one owner
  may change, into clusters that no other owner has (`Holds`);
* `Consistent.edit`, for a change of one record of the current directory.
-/

namespace TipOS.Fs

open Lib List

namespace Volume

variable {v v' v'' : Volume} {o o₀ : Option Slot} {s t : Slot} {c d x : ℕ} {l l' : List ℕ}

/-- The clusters `l` are the chain of `c`: it has no cycle and ends in an end marker. -/
structure IsChain (v : Volume) (c : ℕ) (l : List ℕ) : Prop where
  trail : Trail v.fat endMark c l
  range : ∀ x ∈ l, 2 ≤ x ∧ x < v.bound

/-- The records in use of a directory. -/
def live (v : Volume) (d : ℕ) : List Slot :=
  ((v.slots d).takeWhile fun s => !v.isEnd s).filter fun s =>
    !v.isFree s && !v.isLong s && !(v.entry s).isDot

/-- The first clusters of the directories. -/
inductive Dir (v : Volume) : ℕ → Prop
  | root : Dir v v.geo.rootCluster
  | sub {d : ℕ} {s : Slot} : Dir v d → s ∈ v.live d → (v.entry s).isDir = true →
      (v.entry s).cluster ≠ 0 → Dir v (v.entry s).cluster

/-- The owners of chains: the root directory, and the records that have a first cluster. -/
inductive Owns (v : Volume) : Option Slot → ℕ → Prop
  | root : Owns v none v.geo.rootCluster
  | record {d : ℕ} {s : Slot} : v.Dir d → s ∈ v.live d → (v.entry s).cluster ≠ 0 →
      Owns v (some s) (v.entry s).cluster

/-- **Consistency.** -/
structure Consistent (v : Volume) : Prop where
  chained : ∀ o c, v.Owns o c → ∃ l, v.IsChain c (c :: l)
  disjoint : ∀ o o' c c' l l', o ≠ o' → v.Owns o c → v.Owns o' c' → v.IsChain c l →
    v.IsChain c' l' → l.Disjoint l'
  cwd : v.Dir v.cwd

/-! ### Chains -/

theorem IsChain.unique (h : v.IsChain c l) (h' : v.IsChain c l') : l = l' := h.trail.unique h'.trail

theorem IsChain.congr (h : v.IsChain c l) (hg : v'.geo = v.geo) (hf : ∀ x ∈ l, v'.fat x = v.fat x) :
    v'.IsChain c l := by
  refine ⟨h.trail.congr hf, fun x hx => ?_⟩
  rw [bound, hg]
  exact h.range x hx

theorem IsChain.fat_ne_zero (h : v.IsChain c l) (hx : x ∈ l) : v.fat x ≠ 0 := by
  intro h0
  rcases h.trail.next_cases hx with hs | hm
  · rw [h0] at hs
    cases hs
  · rw [h0] at hm
    exact absurd (h.range 0 hm).1 (by decide)

theorem not_ended_of_range (h : 2 ≤ x ∧ x < v.bound) : ¬ ended x := by
  have hs : v.bound ≤ 0x0FFFFFF8 := v.geo.small
  rintro (hx | hx)
  · omega
  · have : 0x0FFFFFF8 ≤ x := hx
    omega

theorem IsChain.length_le (h : v.IsChain c l) : l.length ≤ v.geo.total := by
  have hsub : l ⊆ (List.range v.geo.total).map (· + 2) := by
    intro x hx
    obtain ⟨h2, hb⟩ := h.range x hx
    rw [bound] at hb
    exact mem_map.mpr ⟨x - 2, mem_range.mpr (by omega), by omega⟩
  have hle := (h.trail.nodup.subperm hsub).length_le
  rwa [length_map, length_range] at hle

theorem IsChain.clusters_eq (h : v.IsChain c l) : v.clusters c = l :=
  (h.trail.weaken (fun _ hy => .inr hy) fun _ hy => not_ended_of_range (h.range _ hy)).follow_eq
    h.length_le

theorem mem_slots : s ∈ v.slots d ↔ s.1 ∈ v.clusters d ∧ s.2 < 16 * v.geo.sectorsPerCluster := by
  rw [slots, mem_flatMap]
  constructor
  · rintro ⟨c, hc, hs⟩
    obtain ⟨k, hk, rfl⟩ := mem_map.mp hs
    exact ⟨hc, mem_range.mp hk⟩
  · rintro ⟨hc, hk⟩
    exact ⟨s.1, hc, mem_map.mpr ⟨s.2, mem_range.mpr hk, rfl⟩⟩

theorem slots_congr (h : v.IsChain d l) (hg : v'.geo = v.geo) (hf : ∀ x ∈ l, v'.fat x = v.fat x) :
    v'.slots d = v.slots d := by
  rw [slots, slots, h.clusters_eq, (h.congr hg hf).clusters_eq, hg]

/-! ### Owners -/

theorem Owns.unique (h : v.Owns o c) (h' : v.Owns o d) : c = d := by
  cases h with
  | root => cases h' with | root => rfl
  | record => cases h' with | record => rfl

theorem Dir.owner (h : v.Dir d) :
    ∃ o, v.Owns o d ∧ ∀ s, o = some s → (v.entry s).isDir := by
  cases h with
  | root => exact ⟨none, .root, fun s hs => absurd hs (Option.some_ne_none s).symm⟩
  | sub hp hs hd hc =>
    refine ⟨_, .record hp hs hc, fun t ht => ?_⟩
    cases ht
    exact hd

theorem mem_live : s ∈ v.live d ↔ s ∈ (v.slots d).takeWhile (fun s => !v.isEnd s) ∧
    (v.entry s).isFree = false ∧ (v.entry s).isLong = false ∧ (v.entry s).isDot = false := by
  rw [live, mem_filter]
  simp only [isFree_eq, isLong_eq, Bool.and_eq_true, Bool.not_eq_true', and_assoc]

theorem slot_of_live (h : s ∈ v.live d) : s ∈ v.slots d :=
  (takeWhile_sublist _).mem (mem_live.mp h).1

theorem Consistent.chain_of_dir (h : v.Consistent) (hd : v.Dir d) : ∃ l, v.IsChain d (d :: l) := by
  obtain ⟨o, ho, -⟩ := hd.owner
  exact h.chained o d ho

theorem IsChain.mem_of_slot (h : v.IsChain d l) (hs : s ∈ v.slots d) : s.1 ∈ l := by
  rw [← h.clusters_eq]
  exact (mem_slots.mp hs).1

theorem Consistent.same_dir {d' : ℕ} (h : v.Consistent) (hd : v.Dir d) (hd' : v.Dir d')
    (hs : s ∈ v.slots d) (hs' : s ∈ v.slots d') : d = d' := by
  by_contra hne
  obtain ⟨o, ho, -⟩ := hd.owner
  obtain ⟨o', ho', -⟩ := hd'.owner
  obtain ⟨l, hl⟩ := h.chained o d ho
  obtain ⟨l', hl'⟩ := h.chained o' d' ho'
  have hoo : o ≠ o' := fun e => hne (ho.unique (e ▸ ho'))
  exact h.disjoint o o' d d' _ _ hoo ho ho' hl hl' (hl.mem_of_slot hs) (hl'.mem_of_slot hs')

/-- A chain that no owner but `o` has clusters of. -/
structure Holds (v : Volume) (o : Option Slot) (c : ℕ) (l : List ℕ) : Prop where
  chain : v.IsChain c (c :: l)
  apart : ∀ o' c' l', o' ≠ o → v.Owns o' c' → v.IsChain c' l' → (c :: l).Disjoint l'

theorem Consistent.holds (h : v.Consistent) (ho : v.Owns o c) : ∃ l, v.Holds o c l := by
  obtain ⟨l, hl⟩ := h.chained o c ho
  exact ⟨l, hl, fun o' c' l' hne ho' hl' => h.disjoint o o' c c' _ l' (Ne.symm hne) ho ho' hl hl'⟩

theorem consistent_of_holds (h : ∀ o c, v.Owns o c → ∃ l, v.Holds o c l) (hc : v.Dir v.cwd) :
    v.Consistent := by
  refine ⟨fun o c ho => ?_, fun o o' c c' l l' hne ho ho' hl hl' => ?_, hc⟩
  · obtain ⟨l, hl⟩ := h o c ho
    exact ⟨l, hl.chain⟩
  · obtain ⟨k, hk⟩ := h o c ho
    rw [hl.unique hk.chain]
    exact hk.apart o' c' l' (Ne.symm hne) ho' hl'

theorem IsChain.not_mem_of_free (h : v.IsChain c l) (hx : v.fat x = 0) : x ∉ l :=
  fun hm => h.fat_ne_zero hm hx

/-! ### Changes that leave the directories alone -/

/-- The same directories, with the same records. -/
structure SameDirs (v v' : Volume) : Prop where
  geo : v'.geo = v.geo
  cwd : v'.cwd = v.cwd
  slots : ∀ d, v.Dir d → v'.slots d = v.slots d
  entry : ∀ d, v.Dir d → ∀ s ∈ v.slots d, v'.entry s = v.entry s

theorem front_congr (hs : v'.slots d = v.slots d)
    (he : ∀ s ∈ v.slots d, v'.isEnd s = v.isEnd s) :
    (v'.slots d).takeWhile (fun s => !v'.isEnd s) = (v.slots d).takeWhile fun s => !v.isEnd s := by
  rw [hs]
  generalize v.slots d = k at he ⊢
  induction k with
  | nil => rfl
  | cons s k ih =>
    rw [takeWhile_cons, takeWhile_cons, he s mem_cons_self,
      ih fun b hb => he b (mem_cons_of_mem s hb)]

theorem live_congr (hs : v'.slots d = v.slots d)
    (he : ∀ s ∈ v.slots d, v'.entry s = v.entry s) : v'.live d = v.live d := by
  have hfront := front_congr hs fun s hm => by rw [isEnd_eq, isEnd_eq, he s hm]
  rw [live, live, hfront]
  refine filter_congr fun s hm => ?_
  rw [isFree_eq, isFree_eq, isLong_eq, isLong_eq, he s ((takeWhile_sublist _).mem hm)]

namespace SameDirs

theorem live_eq (h : SameDirs v v') (hd : v.Dir d) : v'.live d = v.live d :=
  live_congr (h.slots d hd) (h.entry d hd)

theorem dir (h : SameDirs v v') (hd : v.Dir d) : v'.Dir d := by
  induction hd with
  | root =>
    rw [← h.geo]
    exact .root
  | sub hp hs hdir hc ih =>
    have he := h.entry _ hp _ (slot_of_live hs)
    rw [← he]
    exact .sub ih (by rwa [h.live_eq hp]) (by rwa [he]) (by rwa [he])

theorem dir_back (h : SameDirs v v') (hd : v'.Dir d) : v.Dir d := by
  induction hd with
  | root =>
    rw [h.geo]
    exact .root
  | sub hp hs hdir hc ih =>
    rw [h.live_eq ih] at hs
    have he := h.entry _ ih _ (slot_of_live hs)
    rw [he] at hdir hc ⊢
    exact .sub ih hs hdir hc

theorem owns_back (h : SameDirs v v') (ho : v'.Owns o c) : v.Owns o c := by
  cases ho with
  | root =>
    rw [h.geo]
    exact .root
  | record hp hs hc =>
    have hp' := h.dir_back hp
    rw [h.live_eq hp'] at hs
    have he := h.entry _ hp' _ (slot_of_live hs)
    rw [he] at hc ⊢
    exact .record hp' hs hc

theorem refl (v : Volume) : SameDirs v v := ⟨rfl, rfl, fun _ _ => rfl, fun _ _ _ _ => rfl⟩

theorem trans (h : SameDirs v v') (h' : SameDirs v' v'') : SameDirs v v'' := by
  refine ⟨h'.geo.trans h.geo, h'.cwd.trans h.cwd, fun d hd => ?_, fun d hd s hs => ?_⟩
  · rw [h'.slots d (h.dir hd), h.slots d hd]
  · rw [h'.entry d (h.dir hd) s (by rwa [h.slots d hd]), h.entry d hd s hs]

theorem lookup_eq (h : SameDirs v v') (hc : v.Dir v.cwd) {p q : Slot → Bool}
    (hp : ∀ s ∈ v.slots v.cwd, q s = p s) (name : List UInt8) : v'.lookup q name = v.lookup p name := by
  rw [lookup, lookup, h.cwd, h.slots _ hc]
  refine find?_congr fun s hs => ?_
  have he := h.entry _ hc s hs
  have hn : v'.name s = v.name s := congrArg Entry.name he
  rw [isFree_eq, isFree_eq, isLong_eq, isLong_eq, he, hn, hp s hs]

end SameDirs

/-- **A change that leaves the directories alone**, and may change the chain of the owner `o₀`. -/
theorem Consistent.change (h : v.Consistent) (o₀ : Option Slot) (hs : SameDirs v v')
    (hold : ∀ o c l, o ≠ o₀ → v.Owns o c → v.IsChain c l → v'.IsChain c l)
    (hnew : ∀ c, v.Owns o₀ c → ∃ l, v'.IsChain c (c :: l) ∧
      ∀ o c' l', o ≠ o₀ → v.Owns o c' → v.IsChain c' l' → (c :: l).Disjoint l') :
    v'.Consistent := by
  -- the chains of the other owners are the old ones
  have hback : ∀ o c l, o ≠ o₀ → v'.Owns o c → v'.IsChain c l → v.Owns o c ∧ v.IsChain c l := by
    intro o c l hne ho hl
    have hov := hs.owns_back ho
    obtain ⟨k, hk⟩ := h.chained o c hov
    rw [hl.unique (hold o c _ hne hov hk)]
    exact ⟨hov, hk⟩
  refine consistent_of_holds (fun o c ho => ?_) ?_
  · by_cases hne : o = o₀
    · subst hne
      obtain ⟨l, hl, hapart⟩ := hnew c (hs.owns_back ho)
      refine ⟨l, hl, fun o' c' l' hne' ho' hl' => ?_⟩
      obtain ⟨hov, hlv⟩ := hback o' c' l' hne' ho' hl'
      exact hapart o' c' l' hne' hov hlv
    have hov := hs.owns_back ho
    obtain ⟨l, hl⟩ := h.holds hov
    refine ⟨l, hold o c _ hne hov hl.chain, fun o' c' l' hne' ho' hl' => ?_⟩
    by_cases hne'' : o' = o₀
    · subst hne''
      obtain ⟨k, hk, hapart⟩ := hnew c' (hs.owns_back ho')
      rw [hl'.unique hk]
      exact fun a h1 h2 => hapart o c _ hne hov hl.chain h2 h1
    · obtain ⟨hov', hlv'⟩ := hback o' c' l' hne'' ho' hl'
      exact hl.apart o' c' l' hne' hov' hlv'
  · rw [hs.cwd]
    exact hs.dir h.cwd

/-! ### Changes of one record -/

/-- A change of the record `s` of the current directory alone. -/
structure Edits (v v' : Volume) (s : Slot) : Prop where
  geo : v'.geo = v.geo
  cwd : v'.cwd = v.cwd
  fat : v'.fat = v.fat
  entry : ∀ t, t ≠ s → v'.entry t = v.entry t
  mem : s ∈ v.slots v.cwd

namespace Edits

theorem slots_eq (h : Edits v v' s) (d : ℕ) : v'.slots d = v.slots d := by
  rw [slots, slots, clusters, clusters, h.fat, h.geo]

theorem isChain_iff (h : Edits v v' s) : v'.IsChain c l ↔ v.IsChain c l := by
  have hb : v'.bound = v.bound := by rw [bound, bound, h.geo]
  constructor
  · rintro ⟨ht, hr⟩
    rw [h.fat] at ht
    rw [hb] at hr
    exact ⟨ht, hr⟩
  · rintro ⟨ht, hr⟩
    refine ⟨?_, ?_⟩
    · rwa [h.fat]
    · rwa [hb]

theorem live_eq (h : Edits v v' s) (hc : v.Consistent) (hd : v.Dir d) (hne : d ≠ v.cwd) :
    v'.live d = v.live d := by
  refine live_congr (h.slots_eq d) fun t ht => h.entry t fun hts => ?_
  exact hne (hc.same_dir hd hc.cwd ht (hts ▸ h.mem))

theorem dir_cwd (h : Edits v v' s) (hc : v.Consistent) : v'.Dir v'.cwd := by
  have hall : ∀ d, v.Dir d → v'.Dir d ∨ v'.Dir v.cwd := by
    intro d hd
    induction hd with
    | root =>
      rw [← h.geo]
      exact .inl .root
    | @sub p t hp ht hdir hcl ih =>
      rcases ih with ih | ih
      · by_cases hpc : p = v.cwd
        · rw [← hpc]
          exact .inr ih
        have hts : t ≠ s := fun e => hpc (hc.same_dir hp hc.cwd (slot_of_live ht) (e ▸ h.mem))
        rw [← h.entry t hts] at hdir hcl ⊢
        rw [← h.live_eq hc hp hpc] at ht
        exact .inl (.sub ih ht hdir hcl)
      · exact .inr ih
  rw [h.cwd]
  rcases hall _ hc.cwd with hd | hd
  · exact hd
  · exact hd

end Edits

/-- What a change of the record `s` may do: the other records in use were in use before, and the
record is no new directory, unless the directory is empty. -/
structure Allowed (v v' : Volume) (s : Slot) : Prop where
  live : ∀ t ∈ v'.live v.cwd, t ≠ s → t ∈ v.live v.cwd
  dir : s ∈ v'.live v.cwd → (v'.entry s).isDir = true → (v'.entry s).cluster ≠ 0 →
    v.Dir (v'.entry s).cluster ∨ v'.live (v'.entry s).cluster = []

namespace Edits

section

variable (h : Edits v v' s)

include h

theorem live_old (hc : v.Consistent) (ha : Allowed v v' s) (hd : v.Dir d) (ht : t ∈ v'.live d)
    (hts : t ≠ s) : t ∈ v.live d := by
  by_cases hdc : d = v.cwd
  · rw [hdc] at ht ⊢
    exact ha.live t ht hts
  · rwa [h.live_eq hc hd hdc] at ht

theorem live_cwd (hc : v.Consistent) (hd : v.Dir d) (hs : s ∈ v'.live d) :
    s ∈ v'.live v.cwd := by
  have hsd : s ∈ v.slots d := by
    rw [← h.slots_eq]
    exact slot_of_live hs
  rwa [← hc.same_dir hd hc.cwd hsd h.mem]

theorem dir_old (hc : v.Consistent) (ha : Allowed v v' s) (hd : v'.Dir d) :
    v.Dir d ∨ v'.live d = [] := by
  induction hd with
  | root =>
    rw [h.geo]
    exact .inl .root
  | @sub p t hp ht hdt hcl ih =>
    rcases ih with ih | ih
    · by_cases hts : t = s
      · subst hts
        exact ha.dir (h.live_cwd hc ih ht) hdt hcl
      · have ht' := h.live_old hc ha ih ht hts
        rw [h.entry t hts] at hdt hcl ⊢
        exact .inl (.sub ih ht' hdt hcl)
    · rw [ih] at ht
      cases ht

theorem dir_of_live (hc : v.Consistent) (ha : Allowed v v' s) (hd : v'.Dir d) (ht : t ∈ v'.live d) :
    v.Dir d := by
  rcases h.dir_old hc ha hd with hd' | he
  · exact hd'
  · rw [he] at ht
    cases ht

theorem owns_old (hc : v.Consistent) (ha : Allowed v v' s) (ho : v'.Owns o c) (hne : o ≠ some s) :
    v.Owns o c := by
  cases ho with
  | root =>
    rw [h.geo]
    exact .root
  | @record p t hp ht hcl =>
    have hts : t ≠ s := fun e => hne (congrArg some e)
    have hpv := h.dir_of_live hc ha hp ht
    have ht' := h.live_old hc ha hpv ht hts
    rw [h.entry t hts] at hcl ⊢
    exact .record hpv ht' hcl

end

end Edits

/-- **A change of one record of the current directory**, after which the record has a chain that
nobody else has. -/
theorem Consistent.edit (h : v.Consistent) (he : Edits v v' s) (ha : Allowed v v' s)
    (hnew : s ∈ v'.live v.cwd → (v'.entry s).cluster ≠ 0 →
      ∃ l, v.Holds (some s) (v'.entry s).cluster l) : v'.Consistent := by
  have hself : ∀ c, v'.Owns (some s) c → ∃ l, v.Holds (some s) c l := by
    intro c ho
    cases ho with
    | record hp ht hcl => exact hnew (he.live_cwd h (he.dir_of_live h ha hp ht) ht) hcl
  refine consistent_of_holds (fun o c ho => ?_) (he.dir_cwd h)
  by_cases hos : o = some s
  · subst hos
    obtain ⟨l, hl⟩ := hself c ho
    refine ⟨l, he.isChain_iff.mpr hl.chain, fun o' c' l' hne' ho' hl' => ?_⟩
    exact hl.apart o' c' l' hne' (he.owns_old h ha ho' hne') (he.isChain_iff.mp hl')
  have hov := he.owns_old h ha ho hos
  obtain ⟨l, hl⟩ := h.holds hov
  refine ⟨l, he.isChain_iff.mpr hl.chain, fun o' c' l' hne' ho' hl' => ?_⟩
  by_cases hos' : o' = some s
  · subst hos'
    obtain ⟨k, hk⟩ := hself c' ho'
    rw [(he.isChain_iff.mp hl').unique hk.chain]
    exact fun a h1 h2 => hk.apart o c _ hos hov hl.chain h2 h1
  · exact hl.apart o' c' l' hne' (he.owns_old h ha ho' hos') (he.isChain_iff.mp hl')

end Volume

end TipOS.Fs
