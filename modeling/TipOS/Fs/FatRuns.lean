import Mathlib.Data.Finset.Card
import Mathlib.Data.List.TakeWhile
import TipOS.Fs.Consistent

/-!
# What the FAT32 calls do to a consistent volume

`create_file`, `write_file`, `mkdir`, `rename`, `rmdir` and `delete_file` keep a volume consistent
as long as each of them is called with care (`FatOp.Careful`).  The care that is needed is what the
driver does not see to:

* a record is put where the directory ends, and the records behind it come into use with it;
  `mkdir` clears the first sector of a directory only (`Tidy`);
* `write_file` writes into directories;
* `write_file` goes by the long name when it reads a record, and by the short name when it changes
  one;
* `write_file`, `rename` and `rmdir` take `.` and `..` for records like others.
-/

namespace TipOS.Fs

open Function Lib List Bool Volume

variable {p : Slot → Bool} {y f : ℕ} {k : List ℕ} {buf : List UInt8}
  {v v' w : Volume} {o : Option Slot} {s t : Slot} {c d x : ℕ} {l : List ℕ}
  {name : List UInt8}

namespace Volume

/-! ### Records of the current directory -/

/-- Behind the end of the current directory there are no records in use. -/
def Tidy (v : Volume) : Prop :=
  (v.slots v.cwd).Pairwise fun s t => v.isEnd s = true → v.isEnd t = true

theorem mem_takeWhile_of_update {q : Slot → Bool} {k : List Slot}
    (hk : k.Pairwise fun a b => p a = false → p b = false) (hpq : ∀ a, a ≠ s → q a = p a)
    (ht : t ∈ k.takeWhile q) (hts : t ≠ s) : t ∈ k.takeWhile p := by
  induction k with
  | nil => exact ht
  | cons a k ih =>
    obtain ⟨ha, hk⟩ := pairwise_cons.mp hk
    have hpt : p t := by
      rw [← hpq t hts]
      exact mem_takeWhile_imp ht
    rw [takeWhile_cons] at ht
    split at ht
    · rcases mem_cons.mp ht with rfl | ht
      · rw [takeWhile_cons_of_pos hpt]
        exact .head _
      by_cases hpa : p a
      · rw [takeWhile_cons_of_pos hpa]
        exact mem_cons_of_mem a (ih hk ht)
      · have hf := ha t ((takeWhile_sublist _).mem ht) (by simpa using hpa)
        rw [hpt] at hf
        cases hf
    · cases ht

namespace Edits

theorem isEnd_eq (h : Edits v v' s) (hts : t ≠ s) : v'.isEnd t = v.isEnd t := by
  rw [Volume.isEnd_eq, Volume.isEnd_eq, h.entry t hts]

theorem front_eq (h : Edits v v' s) (he : v'.isEnd s = v.isEnd s) :
    (v'.slots v.cwd).takeWhile (fun s => !v'.isEnd s) =
      (v.slots v.cwd).takeWhile fun s => !v.isEnd s := by
  refine front_congr (h.slots_eq _) fun t _ => ?_
  by_cases hts : t = s
  · rw [hts, he]
  · exact h.isEnd_eq hts

theorem live_of_isEnd (h : Edits v v' s) (he : v'.isEnd s = v.isEnd s) :
    ∀ t ∈ v'.live v.cwd, t ≠ s → t ∈ v.live v.cwd := by
  intro t ht hts
  rw [mem_live, h.front_eq he, h.entry t hts] at ht
  exact mem_live.mpr ht

theorem live_of_tidy (h : Edits v v' s) (hv : v.Tidy) :
    ∀ t ∈ v'.live v.cwd, t ≠ s → t ∈ v.live v.cwd := by
  intro t ht hts
  rw [mem_live, h.slots_eq, h.entry t hts] at ht
  refine mem_live.mpr ⟨mem_takeWhile_of_update ?_ (fun a ha => ?_) ht.1 hts, ht.2⟩
  · exact hv.imp fun hab ha => by
      rw [not_eq_false'] at ha ⊢
      exact hab ha
  · rw [h.isEnd_eq ha]

end Edits

theorem edits_put {j : ℕ} {k : List UInt8} (hk : j + k.length ≤ 32) (hs : s ∈ v.slots v.cwd) :
    Edits v (v.put s j k) s :=
  ⟨rfl, rfl, rfl, fun _ ht => put_other hk ht, hs⟩

/-! ### Giving up a record -/

/-- **A record marked as free.** -/
theorem Consistent.markFree (h : v.Consistent) (hs : s ∈ v.slots v.cwd) (he : v.isEnd s = false) :
    (v.markFree s).Consistent ∧
      ∀ o c, (v.markFree s).Owns o c → o ≠ some s ∧ v.Owns o c := by
  have hed : Edits v (v.markFree s) s := edits_put (by simp) hs
  have hfree := markFree_self v s
  have hdead : ∀ d, s ∉ (v.markFree s).live d := by
    intro d hd
    rw [mem_live, hfree] at hd
    exact absurd hd.2.1 (by decide)
  have hend : (v.markFree s).isEnd s = v.isEnd s := by
    rw [he, isEnd_eq, Entry.isEnd]
    rw [Entry.isFree, decide_eq_true_iff] at hfree
    rw [hfree]
    rfl
  have hal : Allowed v (v.markFree s) s :=
    ⟨hed.live_of_isEnd hend, fun hl => absurd hl (hdead _)⟩
  refine ⟨h.edit hed hal fun hl => absurd hl (hdead _), fun o c ho => ?_⟩
  have hne : o ≠ some s := by
    rintro rfl
    cases ho with
    | record _ hl _ => exact hdead _ hl
  exact ⟨hne, hed.owns_old h hal ho hne⟩

theorem Consistent.deleteEntryAt (h : v.Consistent) (name : List UInt8) :
    (deleteEntryAt v name).2.Consistent := by
  rw [Fs.deleteEntryAt]
  split
  · exact h
  next s hf =>
  have hm := mem_of_find?_eq_some hf
  have he := mem_takeWhile_imp hm
  rw [not_eq_true'] at he
  exact (h.markFree ((takeWhile_sublist _).mem hm) he).1

/-! ### A new record -/

/-- **A record made in a tidy directory.** -/
theorem Consistent.createEntryAt (h : v.Consistent) (ht : v.Tidy) (name : List UInt8)
    (attr : UInt8) : (createEntryAt v name attr).2.Consistent := by
  rw [Fs.createEntryAt]
  split
  · exact h
  next s hf =>
  have he := makeEntry_self v s name attr
  have hed : Edits v (v.makeEntry s name attr) s :=
    ⟨rfl, rfl, rfl, fun t hts => makeEntry_other name attr hts, mem_of_find?_eq_some hf⟩
  refine h.edit hed ⟨hed.live_of_tidy ht, fun _ _ hc => ?_⟩ fun _ hc => ?_
  · rw [he] at hc
    exact absurd rfl hc
  · rw [he] at hc
    exact absurd rfl hc

/-! ### Another name -/

theorem lookup_some (h : v.lookup p name = some s) :
    s ∈ v.slots v.cwd ∧ (v.entry s).isFree = false ∧ (v.entry s).isLong = false ∧
      (v.entry s).name = nameTo83 name ∧ p s := by
  have hp := find?_some h
  simp only [and_eq_true, not_eq_true', decide_eq_true_iff] at hp
  exact ⟨mem_of_find?_eq_some h, hp.1.1.1, hp.1.1.2, hp.1.2, hp.2⟩

end Volume

/-- The name is neither `.` nor `..`. -/
def NoDots (name : List UInt8) : Prop := name ≠ [46] ∧ name ≠ [46, 46]

/-- The short name of any other name is not that of `.` or `..`. -/
theorem nameTo83_not_dot {name : List UInt8} (h : NoDots name) :
    nameTo83 name ≠ dotName ∧ nameTo83 name ≠ dotDotName := by
  have hhead : (nameTo83 name).headD 0 ≠ 46 := by
    rw [nameTo83, if_neg h.1, if_neg h.2]
    cases hb : (name.takeWhile (· ≠ 46)).map upper with
    | nil => exact show (32 : UInt8) ≠ 46 by decide
    | cons a k =>
      have ha : a ∈ (name.takeWhile (· ≠ 46)).map upper := by
        rw [hb]
        exact .head _
      obtain ⟨b, hm, rfl⟩ := mem_map.mp ha
      have hne := mem_takeWhile_imp hm
      exact upper_ne (by decide) (by simpa using hne)
  constructor
  · intro he
    rw [he] at hhead
    exact hhead rfl
  · intro he
    rw [he] at hhead
    exact hhead rfl

namespace Volume

theorem isDot_of_name (hn : (v.entry s).name = nameTo83 name) (h : NoDots name) :
    (v.entry s).isDot = false := by
  obtain ⟨h1, h2⟩ := nameTo83_not_dot h
  rw [Entry.isDot, hn]
  simp only [h1, h2, decide_false, Bool.or_self]

/-- **A record with another name.** -/
theorem Consistent.rename (h : v.Consistent) {oldname : List UInt8} (ho : NoDots oldname)
    (newname : CString) : (fat32Rename v oldname newname.val).2.Consistent := by
  rw [fat32Rename]
  split
  · exact h
  next s hf =>
  obtain ⟨hs, hfree, hlong, hname, hend⟩ := lookup_some hf
  have hlen := nameTo83_length newname.val
  have hed : Edits v (v.put s 0 (nameTo83 newname.val)) s := edits_put (by omega) hs
  have he := put_name_self (v := v) (s := s) hlen
  have hend' : (v.put s 0 (nameTo83 newname.val)).isEnd s = v.isEnd s := by
    rw [not_eq_true'] at hend
    rw [hend, isEnd_eq, he, Entry.isEnd, decide_eq_false_iff_not]
    exact headD_nameTo83_ne_zero newname
  -- a record in use with the new name was one with the old name
  have hlive : s ∈ (v.put s 0 (nameTo83 newname.val)).live v.cwd → s ∈ v.live v.cwd := by
    intro hl
    rw [mem_live, hed.front_eq hend'] at hl
    exact mem_live.mpr ⟨hl.1, hfree, hlong, isDot_of_name hname ho⟩
  refine h.edit hed ⟨hed.live_of_isEnd hend', fun hl hd hc => ?_⟩ fun hl hc => ?_
  · rw [he] at hd hc ⊢
    exact .inl (.sub h.cwd (hlive hl) hd hc)
  · rw [he] at hc ⊢
    exact h.holds (.record h.cwd (hlive hl) hc)

/-! ### Giving up a chain -/

theorem freeChain_keeps (n : ℕ) : ∀ (v : Volume) (c : ℕ), (freeChain n v c).geo = v.geo ∧
    (freeChain n v c).cwd = v.cwd ∧ (freeChain n v c).data = v.data := by
  induction n with
  | zero => exact fun v c => ⟨rfl, rfl, rfl⟩
  | succ n ih =>
    intro v c
    rw [freeChain]
    split
    · exact ⟨rfl, rfl, rfl⟩
    · exact ih (v.fatWriteEntry c 0) (v.fat c)

/-- `x` is `c`, or comes behind it in its chain, which may be a cycle. -/
def Follows (fat : ℕ → ℕ) : ℕ → ℕ → Prop :=
  Relation.ReflTransGen fun a b => b = fat a ∧ ¬ ended b

/-- A chain that comes back to a freed entry ends there, and has visited all entries. -/
theorem follows_iff (h : ¬ ended (v.fat c)) :
    Follows v.fat c x ↔ x = c ∨ Follows (v.fatWriteEntry c 0).fat (v.fat c) x := by
  constructor
  · intro hf
    induction hf with
    | refl => exact .inl rfl
    | @tail a b _ hs ih =>
      by_cases hac : a = c
      · rw [hs.1, hac]
        exact .inr .refl
      · refine .inr ((ih.resolve_left hac).tail ⟨hs.1.trans ?_, hs.2⟩)
        exact (update_of_ne hac _ _).symm
  · rintro (rfl | hf)
    · exact .refl
    induction hf with
    | refl => exact .single ⟨rfl, h⟩
    | @tail a b _ hs ih =>
      refine ih.tail ⟨hs.1.trans (update_of_ne ?_ _ _), hs.2⟩
      rintro rfl
      rw [hs.1] at hs
      exact hs.2 (.inl (by simp [fatWriteEntry]))

theorem IsChain.mem_of_follows (h : v.IsChain c (c :: l)) (hf : Follows v.fat c x) : x ∈ c :: l := by
  induction hf with
  | refl => exact .head _
  | tail _ hs ih =>
    obtain ⟨rfl, hs⟩ := hs
    exact (h.trail.next_cases ih).resolve_left fun he => hs (.inr he)

theorem freeChain_fat (n : ℕ) : ∀ (v : Volume) (c : ℕ), ¬ Follows v.fat c x →
    (freeChain n v c).fat x = v.fat x := by
  induction n with
  | zero => exact fun v c _ => rfl
  | succ n ih =>
    intro v c hx
    have hxc : x ≠ c := fun e => hx (e ▸ .refl)
    have hstep : (v.fatWriteEntry c 0).fat x = v.fat x := update_of_ne hxc _ _
    rw [freeChain]
    split
    · exact hstep
    next hne =>
    rw [ih _ _ fun hf => hx ((follows_iff hne).mpr (.inr hf)), hstep]

theorem freeChain_markFree (n : ℕ) : ∀ (v : Volume) (c : ℕ),
    (freeChain n v c).markFree s = freeChain n (v.markFree s) c := by
  induction n with
  | zero => exact fun v c => rfl
  | succ n ih =>
    intro v c
    have hfat : (v.markFree s).fat = v.fat := rfl
    rw [freeChain, freeChain, hfat]
    split
    · rfl
    · rw [ih]
      rfl

/-- **A directory that is given up**, with its chain. -/
theorem Consistent.rmdir (h : v.Consistent) (hn : NoDots name) (ht : v.Tidy) :
    (fat32Rmdir v name).2.Consistent := by
  rw [fat32Rmdir]
  split
  · exact h
  next s hf =>
  obtain ⟨hs, hfree, hlong, hname, hend⟩ := lookup_some hf
  rw [not_eq_true'] at hend
  obtain ⟨hcons, howns⟩ := h.markFree hs hend
  split
  · exact h
  split
  · exact hcons
  next hc =>
  split
  · exact h
  rw [freeChain_markFree]
  -- the record is in front of the end, so it owns the chain
  have hfront : s ∈ (v.slots v.cwd).takeWhile fun s => !v.isEnd s := by
    obtain ⟨k, m, hkm⟩ := append_of_mem hs
    have hk : ∀ a ∈ k, (!v.isEnd a) := by
      intro a ha
      rw [not_eq_true']
      by_contra hne
      rw [Tidy, hkm, pairwise_append] at ht
      have hse := ht.2.2 a ha s mem_cons_self (by simpa using hne)
      rw [hend] at hse
      cases hse
    rw [hkm, takeWhile_append_of_pos hk, takeWhile_cons_of_pos (by rw [hend]; rfl)]
    exact mem_append_right _ (.head _)
  have hlive : s ∈ v.live v.cwd :=
    mem_live.mpr ⟨hfront, hfree, hlong, isDot_of_name hname hn⟩
  obtain ⟨l, hl⟩ := h.holds (.record h.cwd hlive hc)
  have hchain : (v.markFree s).IsChain (v.firstCluster s) (v.firstCluster s :: l) :=
    hl.chain.congr rfl fun _ _ => rfl
  obtain ⟨hgeo, hcwd, hdata⟩ :=
    freeChain_keeps (v.geo.total + 1) (v.markFree s) (v.firstCluster s)
  set w := freeChain (v.geo.total + 1) (v.markFree s) (v.firstCluster s)
  -- the chains of the others do not meet it
  have hkept : ∀ o c' k, (v.markFree s).Owns o c' → (v.markFree s).IsChain c' k →
      ∀ y ∈ k, w.fat y = (v.markFree s).fat y := by
    intro o c' k ho hk y hy
    obtain ⟨hne, hov⟩ := howns o c' ho
    exact freeChain_fat _ _ _ fun hf =>
      hl.apart o c' k hne hov (hk.congr rfl fun _ _ => rfl) (hchain.mem_of_follows hf) hy
  have hsame : SameDirs (v.markFree s) w := by
    refine ⟨hgeo, hcwd, fun d hd => ?_, fun d hd t _ => ?_⟩
    · obtain ⟨o, ho, -⟩ := hd.owner
      obtain ⟨k, hk⟩ := hcons.chained o d ho
      exact slots_congr hk hgeo (hkept o d _ ho hk)
    · refine entry_congr fun i _ => ?_
      rw [byte, byte, hdata]
  refine hcons.change (some s) hsame (fun o c' k _ ho hk => ?_) fun c' ho => ?_
  · exact hk.congr hgeo (hkept o c' k ho hk)
  · exact absurd rfl (howns _ c' ho).1

/-- A volume with nothing but an empty root directory. -/
theorem consistent_of_empty (h : v.IsChain v.geo.rootCluster [v.geo.rootCluster])
    (hlive : v.live v.geo.rootCluster = []) (hc : v.cwd = v.geo.rootCluster) : v.Consistent := by
  have hdir : ∀ d, v.Dir d → d = v.geo.rootCluster := by
    intro d hd
    induction hd with
    | root => rfl
    | sub _ hs _ _ ih =>
      rw [ih, hlive] at hs
      cases hs
  have howns : ∀ o c, v.Owns o c → o = none ∧ c = v.geo.rootCluster := by
    intro o c ho
    cases ho with
    | root => exact ⟨rfl, rfl⟩
    | record hd hs _ =>
      rw [hdir _ hd, hlive] at hs
      cases hs
  refine ⟨fun o c ho => ?_, fun o o' c c' l l' hne ho ho' => ?_, hc ▸ .root⟩
  · rw [(howns o c ho).2]
    exact ⟨[], h⟩
  · exact absurd ((howns o c ho).1.trans (howns o' c' ho').1.symm) hne

/-! ### Free clusters -/

theorem fatFindFree_some (h : v.fatFindFree = some c) :
    v.fat c = 0 ∧ 2 ≤ c ∧ c < v.bound := by
  have h0 := find?_some h
  obtain ⟨i, hi, rfl⟩ := mem_map.mp (mem_of_find?_eq_some h)
  have hi' := mem_range.mp hi
  refine ⟨by simpa using h0, by omega, ?_⟩
  rw [bound]
  omega

theorem fatWriteEntry_of_ne (h : x ≠ c) : (v.fatWriteEntry c y).fat x = v.fat x :=
  update_of_ne h _ _

theorem fatWriteEntry_self (h : y < 2 ^ 28) : (v.fatWriteEntry c y).fat c = y := by
  change update v.fat c (y % 2 ^ 28) c = y
  rw [update_self, Nat.mod_eq_of_lt h]

/-! ### Changes of a table and of clusters without directories -/

theorem Consistent.sameDirs_fat (h : v.Consistent) (hg : w.geo = v.geo) (hc : w.cwd = v.cwd)
    (hd : w.data = v.data)
    (hf : ∀ d k, v.Dir d → v.IsChain d k → ∀ y ∈ k, w.fat y = v.fat y) : SameDirs v w := by
  refine ⟨hg, hc, fun d hdir => ?_, fun d hdir t _ => entry_congr fun i _ => ?_⟩
  · obtain ⟨k, hk⟩ := h.chain_of_dir hdir
    exact slots_congr hk hg (hf d _ hdir hk)
  · rw [byte, byte, hd]

theorem Consistent.sameDirs_data (h : v.Consistent) (m : Mem)
    (hf : ∀ d k, v.Dir d → v.IsChain d k → c ∉ k) : SameDirs v (v.setData c m) := by
  refine ⟨rfl, rfl, fun d hdir => rfl, fun d hdir t ht => entry_congr fun i _ => ?_⟩
  obtain ⟨k, hk⟩ := h.chain_of_dir hdir
  have htc : t.1 ≠ c := fun e => hf d _ hdir hk (e ▸ hk.mem_of_slot ht)
  rw [byte, byte, setData_data, update_of_ne htc]

/-- **A free cluster taken as a chain of its own.** -/
theorem Consistent.take_free (h : v.Consistent) (hf : v.fatFindFree = some c) (o : Option Slot) :
    (v.fatWriteEntry c 0x0FFFFFFF).Consistent ∧ SameDirs v (v.fatWriteEntry c 0x0FFFFFFF) ∧
      (v.fatWriteEntry c 0x0FFFFFFF).Holds o c [] := by
  obtain ⟨h0, hr⟩ := fatFindFree_some hf
  have hkeep : ∀ c' k, v.IsChain c' k → ∀ y ∈ k, (v.fatWriteEntry c 0x0FFFFFFF).fat y = v.fat y :=
    fun c' k hk y hy => fatWriteEntry_of_ne fun e => hk.not_mem_of_free h0 (e ▸ hy)
  have hsame : SameDirs v (v.fatWriteEntry c 0x0FFFFFFF) :=
    h.sameDirs_fat rfl rfl rfl fun d k _ hk => hkeep d k hk
  have hchain : ∀ o' c' k, v.Owns o' c' → v.IsChain c' k →
      (v.fatWriteEntry c 0x0FFFFFFF).IsChain c' k :=
    fun _ c' k _ hk => hk.congr rfl (hkeep c' k hk)
  refine ⟨?_, hsame, ⟨⟨rfl, fun he => not_ended_of_range hr (.inr he), ?_⟩, ?_⟩, ?_⟩
  · refine h.change none hsame (fun o' c' k _ ho hk => hchain o' c' k ho hk) fun c' ho => ?_
    obtain ⟨k, hk⟩ := h.holds ho
    exact ⟨k, hchain none c' _ ho hk.chain, hk.apart⟩
  · rw [fatWriteEntry_self (by decide)]
    exact show endMark 0x0FFFFFFF by decide
  · intro y hy
    rw [mem_singleton.mp hy]
    exact hr
  · intro o' c' k _ ho hk
    have hov := hsame.owns_back ho
    obtain ⟨k', hk'⟩ := h.chained o' c' hov
    rw [hk.unique (hchain o' c' _ hov hk')]
    intro y hy hyk
    rw [mem_singleton.mp hy] at hyk
    exact hk'.not_mem_of_free h0 hyk

theorem IsChain.eq_nil_of_endMark {m : List ℕ} (h : v.IsChain c (k ++ x :: m))
    (he : endMark (v.fat x)) : m = [] := by
  cases m with
  | nil => rfl
  | cons y m =>
    rw [h.trail.next_eq] at he
    exact absurd (.inr he) (not_ended_of_range (h.range y (by simp)))

/-! ### Writing a chain -/

/-- A free cluster behind the last one of a chain. -/
def link (v : Volume) (x f : ℕ) : Volume := (v.fatWriteEntry x f).fatWriteEntry f 0x0FFFFFFF

theorem link_fat (hx : y ≠ x) (hf : y ≠ f) : (v.link x f).fat y = v.fat y := by
  rw [link, fatWriteEntry_of_ne hf, fatWriteEntry_of_ne hx]

theorem link_fat_last (h : x ≠ f) (hf : f < 2 ^ 28) : (v.link x f).fat x = f := by
  rw [link, fatWriteEntry_of_ne h, fatWriteEntry_self hf]

theorem link_fat_new : (v.link x f).fat f = 0x0FFFFFFF := fatWriteEntry_self (by decide)

/-- **A chain and one more cluster.** -/
theorem IsChain.link (h : v.IsChain c (k ++ [x])) (hf : v.fatFindFree = some f) :
    (v.link x f).IsChain c (k ++ [x] ++ [f]) := by
  obtain ⟨h0, hr⟩ := fatFindFree_some hf
  have hb : v.bound ≤ 0x0FFFFFF8 := v.geo.small
  have hxf : x ≠ f := fun e => h.not_mem_of_free h0 (e ▸ by simp)
  have hxk : x ∉ k := fun hm => (nodup_append.mp h.trail.nodup).2.2 x hm x (by simp) rfl
  refine ⟨h.trail.extend (fun hm => not_ended_of_range hr (.inr hm))
    (link_fat_last hxf (by omega)) ?_ fun y hy => ?_, fun y hy => ?_⟩
  · rw [link_fat_new]
    exact show endMark 0x0FFFFFFF by decide
  · refine link_fat (fun e => hxk (e ▸ hy)) fun e => ?_
    exact h.not_mem_of_free h0 (e ▸ mem_append_left [x] hy)
  · rcases mem_append.mp hy with hy | hy
    · exact h.range y hy
    · rw [mem_singleton.mp hy]
      exact hr

/-- The record `s` of a file is being written: its clusters are `c` and `l`, though it may not say
so yet. -/
structure Writing (v : Volume) (s : Slot) (c : ℕ) (l : List ℕ) : Prop where
  consistent : v.Consistent
  holds : v.Holds (some s) c l
  own : ∀ c', v.Owns (some s) c' → c' = c
  live : s ∈ v.live v.cwd
  file : (v.entry s).isDir = false

namespace Writing

theorem not_dir (h : Writing v s c l) (hx : x ∈ c :: l) (hd : v.Dir d) (hk : v.IsChain d k) :
    x ∉ k := by
  obtain ⟨o, ho, hdir⟩ := hd.owner
  have hne : o ≠ some s := by
    intro hos
    cases h.file.symm.trans (hdir s hos)
  exact h.holds.apart o d k hne ho hk hx

/-- **One step of writing**: the other chains are the same, and the clusters written were there or
were free. -/
theorem step (h : Writing v s c l) (hs : SameDirs v w)
    (hold : ∀ o c' m, o ≠ some s → v.Owns o c' → v.IsChain c' m → w.IsChain c' m)
    (hch : w.IsChain c (c :: k)) (hsub : ∀ y ∈ c :: k, y ∈ c :: l ∨ v.fat y = 0) :
    Writing w s c k := by
  have hapart : ∀ o c' m, o ≠ some s → v.Owns o c' → v.IsChain c' m → (c :: k).Disjoint m := by
    intro o c' m hne ho hm y hy hym
    rcases hsub y hy with hyl | hy0
    · exact h.holds.apart o c' m hne ho hm hyl hym
    · exact hm.not_mem_of_free hy0 hym
  have hlive : s ∈ w.live w.cwd := by
    rw [hs.cwd, hs.live_eq h.consistent.cwd]
    exact h.live
  refine ⟨?_, ⟨hch, ?_⟩, fun c' ho => h.own c' (hs.owns_back ho), hlive, ?_⟩
  · refine h.consistent.change (some s) hs hold fun c' ho => ?_
    rw [h.own c' ho]
    exact ⟨k, hch, hapart⟩
  · intro o c' m hne ho hm
    have hov := hs.owns_back ho
    obtain ⟨m', hm'⟩ := h.consistent.chained o c' hov
    rw [hm.unique (hold o c' _ hne hov hm')]
    exact hapart o c' _ hne hov hm'
  · rw [hs.entry _ h.consistent.cwd s (slot_of_live h.live)]
    exact h.file

theorem writeCluster (h : Writing v s c l) (hx : x ∈ c :: l) (buf : List UInt8) :
    Writing (v.writeCluster x buf) s c l ∧ SameDirs v (v.writeCluster x buf) := by
  have hs : SameDirs v (v.writeCluster x buf) :=
    h.consistent.sameDirs_data _ fun d k hd hk => h.not_dir hx hd hk
  refine ⟨h.step hs (fun _ _ _ _ _ hm => hm.congr rfl fun _ _ => rfl) ?_ fun y hy => .inl hy, hs⟩
  exact h.holds.chain.congr rfl fun _ _ => rfl

theorem extend (h : Writing v s c l) (hx : x ∈ c :: l) (he : endMark (v.fat x))
    (hf : v.fatFindFree = some f) :
    Writing (v.link x f) s c (l ++ [f]) ∧ SameDirs v (v.link x f) := by
  obtain ⟨h0, -⟩ := fatFindFree_some hf
  have hs : SameDirs v (v.link x f) :=
    h.consistent.sameDirs_fat rfl rfl rfl fun d k hd hk y hy =>
      link_fat (fun e => h.not_dir hx hd hk (e ▸ hy)) fun e => hk.not_mem_of_free h0 (e ▸ hy)
  refine ⟨h.step hs (fun o c' m hne ho hm => hm.congr rfl fun y hy => ?_) ?_ fun y hy => ?_, hs⟩
  · exact link_fat (fun e => h.holds.apart o c' m hne ho hm hx (e ▸ hy))
      fun e => hm.not_mem_of_free h0 (e ▸ hy)
  · obtain ⟨k, m, hkm⟩ := append_of_mem hx
    have hch := h.holds.chain
    rw [hkm] at hch
    have hlast : c :: l = k ++ [x] := by rw [hkm, hch.eq_nil_of_endMark he]
    rw [hch.eq_nil_of_endMark he] at hch
    rw [← cons_append, hlast]
    exact hch.link hf
  · rw [← cons_append] at hy
    rcases mem_append.mp hy with hy | hy
    · exact .inl hy
    · rw [mem_singleton.mp hy]
      exact .inr h0

/-- **`write_chain`** from a cluster of the chain on. -/
theorem writeChain (n : ℕ) : ∀ (v : Volume) (x : ℕ) (l : List ℕ) (buf : List UInt8),
    Writing v s c l → x ∈ c :: l → (∃ l', Writing (writeChain n v x buf).2 s c l') ∧
      SameDirs v (writeChain n v x buf).2 := by
  induction n with
  | zero => exact fun v x l buf h hx => ⟨⟨l, h⟩, .refl v⟩
  | succ n ih =>
    intro v x l buf h hx
    obtain ⟨hw, hs⟩ := h.writeCluster hx (buf.take v.clusterBytes)
    rw [Fs.writeChain]
    split
    · exact ⟨⟨l, h⟩, .refl v⟩
    dsimp only
    split
    · exact ⟨⟨l, hw⟩, hs⟩
    split
    · next hend =>
      split
      · exact ⟨⟨l, hw⟩, hs⟩
      next f hf =>
      have he := hend.resolve_left (hw.holds.chain.fat_ne_zero hx)
      obtain ⟨hw', hs'⟩ := hw.extend hx he hf
      obtain ⟨hx', hs''⟩ := ih _ f (l ++ [f]) (buf.drop v.clusterBytes) hw' (by simp)
      exact ⟨hx', (hs.trans hs').trans hs''⟩
    · next hend =>
      have hnext := (hw.holds.chain.trail.next_cases hx).resolve_left fun he => hend (.inr he)
      obtain ⟨hx', hs'⟩ := ih _ _ l (buf.drop v.clusterBytes) hw hnext
      exact ⟨hx', hs.trans hs'⟩

theorem record (h : Writing v s c l) (hf : v.lookup (fun _ => true) name = some s) (n : ℕ) :
    (v.record name c n).Consistent := by
  have hr := h.holds.chain.range c (.head _)
  have hb : v.bound ≤ 0x0FFFFFF8 := v.geo.small
  rw [Volume.record, hf]
  have hself : ((v.setSize s n).setFirstCluster s c).entry s = { v.entry s with cluster := c } := by
    rw [setFirstCluster_self (by omega), setSize_entry]
  have hed : Edits v ((v.setSize s n).setFirstCluster s c) s := by
    refine ⟨rfl, rfl, rfl, fun t hts => ?_, (lookup_some hf).1⟩
    rw [setFirstCluster_other hts, setSize_entry]
  have hend : ((v.setSize s n).setFirstCluster s c).isEnd s = v.isEnd s := by
    rw [isEnd_eq, isEnd_eq, hself]
    rfl
  refine h.consistent.edit hed ⟨hed.live_of_isEnd hend, fun _ hd _ => ?_⟩ fun _ _ => ?_
  · rw [hself] at hd
    cases h.file.symm.trans hd
  · rw [hself]
    exact ⟨l, h.holds⟩

theorem writeFrom (h : Writing v s c l) (hf : v.lookup (fun _ => true) name = some s)
    (buf : List UInt8) : (writeFrom v c name buf).2.Consistent := by
  obtain ⟨⟨l', hw⟩, hs⟩ := Writing.writeChain buf.length v c l buf h (.head _)
  rw [Fs.writeFrom]
  split
  · exact hw.consistent
  split
  · exact hw.consistent
  · refine hw.record ?_ buf.length
    rw [hs.lookup_eq h.consistent.cwd fun _ _ => rfl]
    exact hf

end Writing

/-- What `find_entry` finds is in front of the end, and is neither free nor a piece of a name. -/
theorem findFrom_some : ∀ (k : List Slot) (n : LongName), v.findFrom name k n = some s →
    s ∈ k.takeWhile (fun s => !v.isEnd s) := by
  intro k
  induction k with
  | nil => exact fun n h => absurd h (by simp [findFrom])
  | cons a k ih =>
    intro n h
    rw [findFrom] at h
    split at h
    · exact absurd h (by simp)
    next ha =>
    rw [takeWhile_cons_of_pos (by simpa using ha)]
    split at h
    · exact mem_cons_of_mem a (ih _ h)
    split at h
    · exact mem_cons_of_mem a (ih _ h)
    split at h
    · cases h
      exact .head _
    split at h
    · cases h
      exact .head _
    · exact mem_cons_of_mem a (ih _ h)

/-- What `fat32_write_file` does with a record that is no directory and has the short name: it has
no cluster and there is none, or its chain is written. -/
theorem Consistent.writeFile_cases (h : v.Consistent) {junk : ℕ → UInt8} (hn : NoDots name)
    (hf : v.findEntry junk v.cwd name = some s) (hdir : v.isDir s = false)
    (hlook : v.lookup (fun _ => true) name = some s) (buf : List UInt8) :
    fat32WriteFile junk v name buf = (-1, v) ∨ ∃ v1 c l, Writing v1 s c l ∧
      v1.lookup (fun _ => true) name = some s ∧
      fat32WriteFile junk v name buf = writeFrom v1 c name buf := by
  obtain ⟨-, hfree, hlong, hname, -⟩ := lookup_some hlook
  have hlive : s ∈ v.live v.cwd :=
    mem_live.mpr ⟨findFrom_some _ _ hf, hfree, hlong, isDot_of_name hname hn⟩
  rw [fat32WriteFile, hf]
  dsimp only
  split
  · next hc0 =>
    split
    · exact .inl rfl
    next c hfc =>
    obtain ⟨hcons, hsame, hholds⟩ := h.take_free hfc (some s)
    refine .inr ⟨_, c, [], ⟨hcons, hholds, fun c' ho => ?_, ?_, hdir⟩, ?_, rfl⟩
    · cases ho with
      | record _ _ hc => exact absurd hc0 hc
    · rw [hsame.cwd, hsame.live_eq h.cwd]
      exact hlive
    · rw [hsame.lookup_eq h.cwd fun _ _ => rfl]
      exact hlook
  · next hc0 =>
    have ho := Owns.record h.cwd hlive hc0
    obtain ⟨l, hl⟩ := h.holds ho
    exact .inr ⟨v, _, l, ⟨h, hl, fun c' ho' => ho'.unique ho, hlive, hdir⟩, hlook, rfl⟩

/-- **`fat32_write_file`** of a record that is no directory and is found by its short name. -/
theorem Consistent.writeFile (h : v.Consistent) (junk : ℕ → UInt8) (hn : NoDots name)
    (hcare : ∀ s, v.findEntry junk v.cwd name = some s →
      v.isDir s = false ∧ v.lookup (fun _ => true) name = some s) (buf : List UInt8) :
    (fat32WriteFile junk v name buf).2.Consistent := by
  cases hf : v.findEntry junk v.cwd name with
  | none =>
    rw [fat32WriteFile, hf]
    exact h
  | some s =>
    obtain ⟨hdir, hlook⟩ := hcare s hf
    rcases h.writeFile_cases hn hf hdir hlook buf with he | ⟨v1, c, l, hw, hl, he⟩
    · rw [he]
      exact h
    · rw [he]
      exact hw.writeFrom hl buf

/-! ### A new directory -/

theorem mem_takeWhile_range' {q : ℕ → Bool} {k : ℕ} : ∀ n a, k ∈ (List.range' a n).takeWhile q →
    ∀ j, a ≤ j → j ≤ k → q j := by
  intro n
  induction n with
  | zero => exact fun a hk => absurd hk not_mem_nil
  | succ n ih =>
    intro a hk j haj hjk
    rw [range'_succ, takeWhile_cons] at hk
    split at hk
    · next hq =>
      rcases Nat.eq_or_lt_of_le haj with rfl | hlt
      · exact hq
      · rcases mem_cons.mp hk with rfl | hk
        · omega
        · exact ih (a + 1) hk j hlt hjk
    · cases hk

/-- A directory whose first records are `.`, `..` and an end has nothing in it. -/
theorem live_eq_nil (h : v.IsChain c [c]) (h0 : (v.entry (c, 0)).isDot)
    (h1 : (v.entry (c, 1)).isDot) (h2 : v.isEnd (c, 2)) : v.live c = [] := by
  refine eq_nil_iff_forall_not_mem.mpr fun t ht => ?_
  obtain ⟨hfront, -, -, hdot⟩ := mem_live.mp ht
  have hslots : v.slots c = (List.range' 0 (16 * v.geo.sectorsPerCluster)).map (c, ·) := by
    rw [slots, h.clusters_eq, flatMap_singleton, range_eq_range']
  rw [hslots, takeWhile_map] at hfront
  obtain ⟨k, hk, rfl⟩ := mem_map.mp hfront
  have hbefore := mem_takeWhile_range' _ _ hk
  by_cases hk2 : 2 ≤ k
  · have hne := hbefore 2 (by omega) hk2
    simp only [Function.comp_apply, h2, Bool.not_true] at hne
    cases hne
  have hk01 : k = 0 ∨ k = 1 := by omega
  rcases hk01 with rfl | rfl
  · rw [h0] at hdot
    cases hdot
  · rw [h1] at hdot
    cases hdot

theorem byte_writeCluster {k i : ℕ} (h : 32 * k + i < buf.length) :
    (v.writeCluster c buf).byte (c, k) i = buf.getD (32 * k + i) 0 := by
  have hb := Mem.blit_apply_of_mem (m := v.data c) (a := 0) (f := fun i => buf.getD i 0) h
  rw [Nat.zero_add] at hb
  rw [byte, Volume.writeCluster, setData_data, update_self, hb]

theorem dirSector_length (c p : ℕ) : (dirSector c p).length = 512 := by
  simp only [dirSector, dirRecord, dotName, dotDotName, length_append, length_replicate,
    length_cons, length_nil, padded_length]

theorem name_writeCluster {k : ℕ} (h : 32 * k + 11 ≤ buf.length) :
    (v.writeCluster c buf).name (c, k) = (buf.drop (32 * k)).take 11 := by
  refine ext_getElem ?_ fun i h1 h2 => ?_
  · rw [name_length, length_take, length_drop]
    omega
  · rw [name_length] at h1
    simp only [name, getElem_map, getElem_range, getElem_take, getElem_drop]
    rw [byte_writeCluster (by omega), getD_eq_getElem?_getD, getElem?_eq_getElem,
      Option.getD_some]

theorem dirSector_records (v : Volume) (c p : ℕ) :
    ((v.writeCluster c (dirSector c p)).entry (c, 0)).isDot ∧
      ((v.writeCluster c (dirSector c p)).entry (c, 1)).isDot ∧
      (v.writeCluster c (dirSector c p)).isEnd (c, 2) := by
  have hlen := dirSector_length c p
  have hself : (dirSector c p).take 11 = dotName := rfl
  have hparent : ((dirSector c p).drop 32).take 11 = dotDotName := rfl
  have hend : (dirSector c p).getD 64 0 = 0 := rfl
  refine ⟨?_, ?_, ?_⟩
  · rw [Entry.isDot, or_eq_true]
    refine .inl (decide_eq_true ?_)
    exact (name_writeCluster (by omega)).trans hself
  · rw [Entry.isDot, or_eq_true]
    refine .inr (decide_eq_true ?_)
    exact (name_writeCluster (by omega)).trans hparent
  · rw [isEnd, byte_writeCluster (by omega)]
    exact decide_eq_true hend

theorem newDir_comm (hs : s.1 ≠ c) (y : ℕ) (buf : List UInt8) :
    ((v.setFirstCluster s x).fatWriteEntry c y).writeCluster c buf =
      ((v.fatWriteEntry c y).writeCluster c buf).setFirstCluster s x := by
  have hcs : c ≠ s.1 := Ne.symm hs
  simp only [Volume.writeCluster, setFirstCluster, putNum, setData, fatWriteEntry,
    update_self, update_of_ne hs, update_of_ne hcs, update_idem]
  rw [update_comm hs]

/-- **A record becomes that of a new directory**, in a cluster that was free. -/
theorem Consistent.newDir (h : v.Consistent) (hf : v.fatFindFree = some c)
    (hs : s ∈ v.slots v.cwd) (p : ℕ) :
    (((v.setFirstCluster s c).fatWriteEntry c 0x0FFFFFFF).writeCluster c
      (dirSector c p)).Consistent := by
  obtain ⟨h0, hr⟩ := fatFindFree_some hf
  have hb : v.bound ≤ 0x0FFFFFF8 := v.geo.small
  have hsc : s.1 ≠ c := by
    obtain ⟨k, hk⟩ := h.chain_of_dir h.cwd
    exact fun e => hk.not_mem_of_free h0 (e ▸ hk.mem_of_slot hs)
  rw [newDir_comm hsc]
  -- first the cluster, which belongs to nobody yet
  obtain ⟨hc1, hs1, hh1⟩ := h.take_free hf (some s)
  have hapart := (h.take_free hf none).2.2.apart
  set w := v.fatWriteEntry c 0x0FFFFFFF
  have hnot : ∀ o c' k, w.Owns o c' → w.IsChain c' k → c ∉ k := by
    intro o c' k ho hk
    by_cases hos : o = some s
    · exact hapart o c' k (by rw [hos]; exact Option.some_ne_none s) ho hk mem_cons_self
    · exact hh1.apart o c' k hos ho hk (.head _)
  obtain ⟨hd0, hd1, hd2⟩ := dirSector_records w c p
  set u := w.writeCluster c (dirSector c p)
  have hs2 : SameDirs w u := by
    refine hc1.sameDirs_data _ fun d k hd hk => ?_
    obtain ⟨o, ho, -⟩ := hd.owner
    exact hnot o d k ho hk
  have hc2 : u.Consistent := by
    refine hc1.change none hs2 (fun _ _ _ _ _ hk => hk.congr rfl fun _ _ => rfl) fun c' ho => ?_
    obtain ⟨k, hk⟩ := hc1.holds ho
    exact ⟨k, hk.chain.congr rfl fun _ _ => rfl, hk.apart⟩
  have hh2 : u.Holds (some s) c [] :=
    ⟨hh1.chain.congr rfl fun _ _ => rfl, fun o c' k hne ho hk =>
      hh1.apart o c' k hne (hs2.owns_back ho) (hk.congr rfl fun _ _ => rfl)⟩
  -- then the record
  clear_value u
  have hsu : s ∈ u.slots u.cwd := by
    have hcwd := (hs1.trans hs2).slots _ h.cwd
    rw [(hs1.trans hs2).cwd, hcwd]
    exact hs
  have hed : Edits u (u.setFirstCluster s c) s :=
    ⟨rfl, rfl, rfl, fun t hts => setFirstCluster_other hts, hsu⟩
  have hself : (u.setFirstCluster s c).entry s = { u.entry s with cluster := c } :=
    setFirstCluster_self (by omega)
  have hend : (u.setFirstCluster s c).isEnd s = u.isEnd s := by
    rw [isEnd_eq, isEnd_eq, hself]
    rfl
  have hother : ∀ k, (u.setFirstCluster s c).entry (c, k) = u.entry (c, k) := fun k =>
    setFirstCluster_other fun e => hsc (congrArg Prod.fst e).symm
  refine hc2.edit hed ⟨hed.live_of_isEnd hend, fun _ _ _ => .inr ?_⟩ fun _ _ => ?_
  · rw [hself]
    refine live_eq_nil (hed.isChain_iff.mpr hh2.chain) ?_ ?_ ?_
    · rwa [hother]
    · rwa [hother]
    · rwa [isEnd_eq, hother]
  · rw [hself]
    exact ⟨[], hh2⟩

theorem createEntryAt_keeps (v : Volume) (name : List UInt8) (attr : UInt8) :
    (createEntryAt v name attr).2.fatFindFree = v.fatFindFree ∧
      (createEntryAt v name attr).2.cwd = v.cwd := by
  rw [Fs.createEntryAt]
  split
  · exact ⟨rfl, rfl⟩
  · exact ⟨rfl, rfl⟩

theorem Consistent.mkdir (h : v.Consistent) (ht : v.Tidy) (junk : ℕ → UInt8) (name : List UInt8) :
    (fat32Mkdir junk v name).2.Consistent := by
  have hr := h.createEntryAt ht name 0x10
  obtain ⟨hfree, -⟩ := createEntryAt_keeps v name 0x10
  rw [fat32Mkdir]
  split
  · exact h
  next c hf =>
  rw [hf] at hfree
  split
  · exact h
  dsimp only
  split
  · exact hr
  · split
    · exact hr
    · next s hlook => exact hr.newDir hfree (lookup_some hlook).1 v.cwd

end Volume

/-! ### Runs -/

inductive FatOp
  | createFile (name : CString)
  | writeFile (junk : ℕ → UInt8) (name : CString) (buf : List UInt8)
  | mkdir (junk : ℕ → UInt8) (name : CString)
  | rename (oldname newname : CString)
  | rmdir (name : CString)
  | deleteFile (name : CString)

namespace FatOp

def step (v : Volume) : FatOp → Volume
  | createFile name => (fat32CreateFile v name.val).2
  | writeFile junk name buf => (fat32WriteFile junk v name.val buf).2
  | mkdir junk name => (fat32Mkdir junk v name.val).2
  | rename oldname newname => (fat32Rename v oldname.val newname.val).2
  | rmdir name => (fat32Rmdir v name.val).2
  | deleteFile name => (fat32DeleteFile v name.val).2

def run (v : Volume) (ops : List FatOp) : Volume := ops.foldl step v

/-- The care that a call needs. -/
def Careful (v : Volume) : FatOp → Prop
  | createFile _ => v.Tidy
  | writeFile junk name _ => NoDots name.val ∧ ∀ s, v.findEntry junk v.cwd name.val = some s →
      v.isDir s = false ∧ v.lookup (fun _ => true) name.val = some s
  | mkdir _ _ => v.Tidy
  | rename oldname _ => NoDots oldname.val
  | rmdir name => NoDots name.val ∧ v.Tidy
  | deleteFile _ => True

def CarefulRun : Volume → List FatOp → Prop
  | _, [] => True
  | v, op :: ops => op.Careful v ∧ CarefulRun (op.step v) ops

/-- **A call made with care** keeps a volume consistent. -/
theorem consistent_step {v : Volume} {op : FatOp} (h : v.Consistent) (hc : op.Careful v) :
    (op.step v).Consistent := by
  cases op with
  | createFile name => exact h.createEntryAt hc name.val 0x20
  | writeFile junk name buf => exact h.writeFile junk hc.1 hc.2 buf
  | mkdir junk name => exact h.mkdir hc junk name.val
  | rename oldname newname => exact h.rename hc newname
  | rmdir name => exact h.rmdir hc.1 hc.2
  | deleteFile name => exact h.deleteEntryAt name.val

/-- **Calls made with care keep a volume consistent**, whatever their names are. -/
theorem consistent_run (v : Volume) (ops : List FatOp) (h : v.Consistent) (hc : CarefulRun v ops) :
    (run v ops).Consistent := by
  induction ops generalizing v with
  | nil => exact h
  | cons op ops ih => exact ih (op.step v) (consistent_step h hc.1) hc.2

/-- A small volume with an empty root directory. -/
def blank : Volume where
  geo := .tiny
  cwd := 2
  fat := fun c => if c = 2 then 0x0FFFFFFF else 0
  data := fun _ _ => 0

def letter (c : UInt8) (h : c ≠ 0) : CString := ⟨[c], by simpa using Ne.symm h⟩

theorem blank_consistent : blank.Consistent := by
  refine consistent_of_empty ⟨⟨rfl, by decide, show endMark 0x0FFFFFFF by decide⟩,
    fun x hx => ?_⟩ (by decide) rfl
  rw [mem_singleton.mp hx]
  decide

/-- Each of the calls once. -/
def plainRun : List FatOp :=
  [.createFile (letter 65 (by decide)), .writeFile (fun _ => 0) (letter 65 (by decide)) [1, 2, 3],
    .mkdir (fun _ => 0) (letter 66 (by decide)),
    .rename (letter 65 (by decide)) (letter 67 (by decide)), .rmdir (letter 66 (by decide)),
    .deleteFile (letter 67 (by decide))]

theorem consistent_run_plainRun : (run blank plainRun).Consistent := by
  refine consistent_run blank plainRun blank_consistent ⟨?_, ⟨?_, ?_⟩, ?_, ?_, ⟨?_, ?_⟩, ?_, ?_⟩
  · exact show List.Pairwise _ _ by decide +kernel
  · exact ⟨by decide, by decide⟩
  · intro s hs
    have hf : (step blank (.createFile (letter 65 (by decide)))).findEntry (fun _ => 0) 2 [65] =
        some (2, 0) := by decide +kernel
    cases hf.symm.trans hs
    exact ⟨by decide +kernel, by decide +kernel⟩
  · exact show List.Pairwise _ _ by decide +kernel
  · exact ⟨by decide, by decide⟩
  · exact ⟨by decide, by decide⟩
  · exact show List.Pairwise _ _ by decide +kernel
  · trivial
  · trivial

/-- A record with the first cluster 3. -/
def recordOfThree : List UInt8 :=
  List.replicate 11 88 ++ [0x20] ++ List.replicate 14 0 ++ [3] ++ List.replicate 5 0

/-- A directory is made, and a file written under its name. -/
def dirWritten : List FatOp :=
  [.mkdir (fun _ => 0) (letter 65 (by decide)),
    .writeFile (fun _ => 0) (letter 65 (by decide)) recordOfThree]

/-- **A file written over a directory**: its bytes are the records of the directory now, and one of
them has the cluster of the directory itself. -/
theorem dirWritten_inconsistent : blank.Consistent ∧ ¬ (run blank dirWritten).Consistent := by
  refine ⟨blank_consistent, fun h => ?_⟩
  have hdir : (run blank dirWritten).entry (2, 0) = ⟨nameTo83 [65], 0x10, 3⟩ := by decide +kernel
  have hrec : (run blank dirWritten).entry (3, 0) = ⟨List.replicate 11 88, 0x20, 3⟩ := by
    decide +kernel
  have hlive : (2, 0) ∈ (run blank dirWritten).live (run blank dirWritten).geo.rootCluster := by
    decide +kernel
  have hlive' : (3, 0) ∈ (run blank dirWritten).live 3 := by decide +kernel
  have howner := Volume.Owns.record .root hlive (by rw [hdir]; decide)
  have hthree := Volume.Dir.sub .root hlive (by rw [hdir]; decide) (by rw [hdir]; decide)
  rw [hdir] at howner hthree
  have howner' := Volume.Owns.record hthree hlive' (by rw [hrec]; decide)
  rw [hrec] at howner'
  obtain ⟨l, hl⟩ := h.chained _ _ howner
  exact h.disjoint _ _ _ _ _ _ (by decide) howner howner' hl hl (.head _)
    mem_cons_self

end FatOp

end TipOS.Fs
