import TipOS.Paging.WalkPtes
import TipOS.Vm.Munmap

/-!
# The protections of the entries

`vm_map_protect` writes `prot` into every entry that meets the range, and `vm_mprotect` calls it
before it walks through the page tables.  An entry has one protection for all its addresses and is
never split, so the addresses of an entry outside the range change with those inside.

`mprotect_iff`: the protection recorded for an address is right after `vm_mprotect`, inside the range
and outside, exactly when every entry that has an address in the range lies inside it or has the
protection already, and the end of the range does not wrap.  The entries then agree with the tables
when they did before, if the walk can do its part (`Walked`): `vm_mprotect` does not look at its
result, so a 2 MB page that cannot be split keeps its rights.
-/

namespace TipOS.Vm

open Function Lib Paging List

/-! ### `vm_mprotect` -/

/-- The loop of `vm_map_protect`. -/
def protectFrom (start stop prot : ℕ) : ℕ → ℕ → Map → Map
  | 0, _, v => v
  | n + 1, e, v =>
    if e = 0 then v
    else
      let v := if (v.entry e).start < stop ∧ start < (v.entry e).stop then
          v.setEntry e { v.entry e with prot := prot }
        else v
      protectFrom start stop prot n (v.nx e) v

/-- `vm_map_protect`. -/
def vmMapProtect (v : Map) (start stop prot : ℕ) : ℤ × Map :=
  (0, protectFrom start stop prot v.nentries v.head v)

/-- `vm_mprotect` of a process with a map: what it does to the map. -/
def vmMprotect (v : Map) (addr size prot : ℕ) : ℤ × Map :=
  let size := pageUp size
  if size = 0 then (0, v)
  else
    let r := vmMapProtect v addr (add64 addr size) prot
    if r.1 < 0 then (-1, r.2) else (0, r.2)

/-- `vm_mprotect` with the tables: the result of the walk is not looked at. -/
def vmMprotectPhys (n : ℕ) (v : Map) (s : Phys) (root addr size prot : ℕ) :
    Option (ℤ × Map × Phys) :=
  (vmMprotectPtes prot n s root addr size).map fun w =>
    ((vmMprotect v addr size prot).1, (vmMprotect v addr size prot).2, w.2)

/-! ### What it should do -/

/-- The size rounded to pages, as a natural number. -/
def wholePages (size : ℕ) : ℕ := (size + 4095) / 4096 * 4096

/-- The protection recorded for an address. -/
def protAt (v : Map) (va : ℕ) : ℕ := (v.entry (vmMapFindEntry v va)).prot

/-- The rights of a page with a protection: `PROT_WRITE` needs `PROT_READ`. -/
def AllowedBy (prot : ℕ) (x : Rights) : Prop :=
  x.w = (prot.testBit 0 && prot.testBit 1) ∧ x.nx = !prot.testBit 2

/-- The entries and the tables agree on the protection of every address. -/
def Agrees (v : Map) (m : Mem) (r : ℕ) : Prop :=
  ∀ va, Canonical va → vmMapCovers v va = true → ∀ x, Paging.translate m r va = some x →
    AllowedBy (protAt v va) x.2

/-- What the walk through the tables should do. -/
def PagesProtected (prot : ℕ) (m m' : Mem) (r addr size : ℕ) : Prop :=
  ∀ va, Canonical va →
    (addr ≤ va ∧ va < addr + size → ∀ x, Paging.translate m' r va = some x → AllowedBy prot x.2) ∧
    (¬ (addr ≤ va ∧ va < addr + size) → Paging.translate m' r va = Paging.translate m r va)

/-- The pointers on the walk of an address restrict no right. -/
def Granting (m : Mem) (r va : ℕ) : Prop :=
  Pointers (fun e => isWritable e = true ∧ isNx e = false) m r va

/-- The tables before the walk: it reaches exactly the pages of the range, their pointers restrict no
right, and it does not fail, which it does at a 2 MB page without a frame to split it. -/
structure Walked (prot : ℕ) (s : Phys) (r addr size : ℕ) : Prop where
  tables : Tables s r
  aligned : addr % 4096 = 0
  exact : Paging.Exact s r addr (wholePages size)
  grants : ∀ va, addr ≤ va → va < addr + wholePages size → Granting s.mem r va
  splits : ∀ n s', vmMprotectPtes prot n s r addr size ≠ some (-1, s')

/-- **The protections after `vm_mprotect`**: that of the call inside the range and the old one
outside, and the entries agree with the tables if they did before. -/
structure Protects (v : Map) (addr size prot : ℕ) : Prop where
  recorded : ∀ va, vmMapCovers v va = true → protAt (vmMprotect v addr size prot).2 va =
    if addr ≤ va ∧ va < addr + wholePages size then prot else protAt v va
  agreeing : ∀ s r, Walked prot s r addr size → Agrees v s.mem r →
    ∃ n v' s', vmMprotectPhys n v s r addr size prot = some (0, v', s') ∧ Agrees v' s'.mem r

/-- **The condition**: an entry with an address in the range has the protection already, or lies
inside the range, and the end of the range is a 64-bit number. -/
def Unsplit (v : Map) (l : List ℕ) (addr size prot : ℕ) : Prop :=
  ∀ p ∈ l, Cuts v addr (wholePages size) p → (v.entry p).prot = prot ∨
    addr ≤ v.lo p ∧ v.hi p ≤ addr + wholePages size ∧ addr + wholePages size < 2 ^ 64

/-- No two entries have an address in common. -/
def Apart (v : Map) (l : List ℕ) : Prop :=
  ∀ p ∈ l, ∀ q ∈ l, ∀ x, v.lo p ≤ x → x < v.hi p → v.lo q ≤ x → x < v.hi q → p = q

/-! ### The loop -/

section Loop

variable {v : Map} {l : List ℕ} {b e n : ℕ}

/-- **The loop of `vm_map_protect`** writes the protection of the entries that meet the range. -/
theorem protectFrom_spec (start stop prot : ℕ) (h : Chain v.nx v.pv b e l) (hn : l.length ≤ n) :
    SameList v (protectFrom start stop prot n e v) ∧
    ∀ p, ((protectFrom start stop prot n e v).entry p).prot =
      if p ∈ l ∧ Meets v start stop p then prot else (v.entry p).prot := by
  induction l generalizing b e n v with
  | nil =>
    have he : e = 0 := h
    have heq : protectFrom start stop prot n e v = v := by
      cases n with
      | zero => rfl
      | succ n => rw [protectFrom, if_pos he]
    rw [heq]
    exact ⟨SameList.refl v, fun p => by simp⟩
  | cons c t ih =>
    have hnd := (nodup_cons.mp h.nodup).1
    obtain ⟨rfl, he, _, ht⟩ := h
    obtain ⟨n, rfl, hlen⟩ := exists_fuel hn
    unfold protectFrom
    rw [if_neg he]
    dsimp only
    by_cases hm : (v.entry e).start < stop ∧ start < (v.entry e).stop
    · rw [if_pos hm]
      have hs := sameList_setEntry v (x := { v.entry e with prot := prot }) rfl rfl rfl rfl
      have hmt : ∀ p, Meets (v.setEntry e { v.entry e with prot := prot }) start stop p ↔
          Meets v start stop p := by
        intro p
        rw [Meets, hs.lo, hs.hi, Meets]
      obtain ⟨hsame, hprot⟩ := ih (b := e) (by rw [hs.nx, hs.pv]; exact ht) hlen
      rw [hs.nx]
      refine ⟨hs.trans hsame, fun p => ?_⟩
      rw [hprot p]
      simp only [hmt]
      change (if p ∈ t ∧ Meets v start stop p then prot else
        (update v.entry e { v.entry e with prot := prot } p).prot) = _
      by_cases hp : p = e
      · subst hp
        rw [if_neg (fun h => hnd h.1), update_self, if_pos ⟨.head _, hm⟩]
      · simp [hp]
    · rw [if_neg hm]
      obtain ⟨hsame, hprot⟩ := ih ht hlen
      refine ⟨hsame, fun p => ?_⟩
      rw [hprot p]
      by_cases hp : p = e
      · subst hp
        rw [if_neg (fun h => hnd h.1), if_neg (fun h => hm h.2)]
      · simp [hp]

/-- **What `vm_mprotect` does to the entries.** -/
theorem vmMprotect_spec (h : Listed v l) (addr size prot : ℕ) :
    SameList v (vmMprotect v addr size prot).2 ∧
    ∀ p ∈ l, ((vmMprotect v addr size prot).2.entry p).prot =
      if pageUp size ≠ 0 ∧ Meets v addr (add64 addr (pageUp size)) p then prot
      else (v.entry p).prot := by
  by_cases h0 : pageUp size = 0
  · have heq : (vmMprotect v addr size prot).2 = v := by
      rw [vmMprotect, if_pos h0]
    rw [heq]
    exact ⟨SameList.refl v, fun p _ => (if_neg fun hc => hc.1 h0).symm⟩
  have heq : (vmMprotect v addr size prot).2 =
      protectFrom addr (add64 addr (pageUp size)) prot v.nentries v.head v := by
    rw [vmMprotect, if_neg h0]
    rfl
  obtain ⟨hs, hp⟩ := protectFrom_spec addr (add64 addr (pageUp size)) prot h.chain h.count.ge
  rw [heq]
  refine ⟨hs, fun p hpl => (hp p).trans ?_⟩
  simp [hpl, h0]

theorem SameList.findEntry {v' : Map} (hs : SameList v v') (h : Listed v l) (va : ℕ) :
    vmMapFindEntry v' va = vmMapFindEntry v va := by
  rw [(hs.listed h).findEntry_eq, h.findEntry_eq, hs.lo, hs.hi]

theorem Apart.findEntry (ha : Apart v l) (h : Listed v l) {p va : ℕ} (hp : p ∈ l)
    (hlo : v.lo p ≤ va) (hhi : va < v.hi p) : vmMapFindEntry v va = p := by
  obtain ⟨hq, h1, h2⟩ := h.findEntry_mem hp ⟨hlo, hhi⟩
  exact ha _ hq p hp va h1 h2 hlo hhi

end Loop

/-! ### The result -/

section Result

variable {v : Map} {l : List ℕ} {addr size prot : ℕ}

theorem pageUp_eq_wholePages (hs : wholePages size < 2 ^ 64) : pageUp size = wholePages size := by
  rw [wholePages] at hs ⊢
  rw [pageUp, pageDown, add64]
  omega

theorem pageUp_eq_zero (hlt : size < 2 ^ 64) (hs : 2 ^ 64 ≤ wholePages size) : pageUp size = 0 := by
  rw [wholePages] at hs
  rw [pageUp, pageDown, add64]
  omega

/-- The entry that `vm_mprotect` changes, for a range that does not wrap. -/
theorem meets_iff_cuts (hw : addr + wholePages size < 2 ^ 64) {p : ℕ} (hpos : v.lo p < v.hi p) :
    pageUp size ≠ 0 ∧ Meets v addr (add64 addr (pageUp size)) p ↔
      Cuts v addr (wholePages size) p := by
  rw [pageUp_eq_wholePages (by omega), add64, Nat.mod_eq_of_lt hw, Meets]
  constructor
  · rintro ⟨h0, hlo, hhi⟩
    by_cases hl : v.lo p ≤ addr
    · exact ⟨addr, hl, hhi, le_refl _, by omega⟩
    · exact ⟨v.lo p, le_refl _, hpos, by omega, hlo⟩
  · rintro ⟨x, h1, h2, h3, h4⟩
    omega

theorem lt_of_meets_wrap (hlt : size < 2 ^ 64) (ha : addr < 2 ^ 64)
    (hw : 2 ^ 64 ≤ addr + wholePages size) {p : ℕ}
    (hm : pageUp size ≠ 0 ∧ Meets v addr (add64 addr (pageUp size)) p) :
    v.lo p < addr ∧ addr < v.hi p := by
  obtain ⟨h0, hlo, hhi⟩ := hm
  have hsz : wholePages size < 2 ^ 64 := by
    by_contra hge
    exact h0 (pageUp_eq_zero hlt (by omega))
  rw [pageUp_eq_wholePages hsz, add64] at hlo
  have : (addr + wholePages size) % 2 ^ 64 < addr := by omega
  exact ⟨by omega, hhi⟩

theorem recorded_of_unsplit (h : Listed v l) (hlt : size < 2 ^ 64) (ha : addr < 2 ^ 64)
    (hu : Unsplit v l addr size prot) {va : ℕ} (hc : vmMapCovers v va) :
    protAt (vmMprotect v addr size prot).2 va =
      if addr ≤ va ∧ va < addr + wholePages size then prot else protAt v va := by
  obtain ⟨hsame, hprot⟩ := vmMprotect_spec h addr size prot
  obtain ⟨q, hq, hqa⟩ := h.covers_iff.mp hc
  obtain ⟨hp, hlo, hhi⟩ := h.findEntry_mem hq hqa
  rw [protAt, hsame.findEntry h, hprot _ hp, protAt]
  generalize vmMapFindEntry v va = p at hp hlo hhi
  by_cases hcut : Cuts v addr (wholePages size) p
  · rcases hu p hp hcut with heq | ⟨hl, hr, hw⟩
    · simp [heq]
    · rw [if_pos ((meets_iff_cuts hw (by omega)).mpr hcut), if_pos ⟨by omega, by omega⟩]
  -- the entry has no address in the range, so it is not changed
  have hout : ¬ (addr ≤ va ∧ va < addr + wholePages size) := fun hin =>
    hcut ⟨va, hlo, hhi, hin.1, hin.2⟩
  rw [if_neg hout, if_neg]
  intro hm
  by_cases hw : addr + wholePages size < 2 ^ 64
  · exact hcut ((meets_iff_cuts hw (by omega)).mp hm)
  · obtain ⟨h1, h2⟩ := lt_of_meets_wrap hlt ha (by omega) hm
    exact hcut ⟨addr, by omega, h2, le_refl _, by omega⟩

theorem unsplit_of_recorded (h : Listed v l) (hd : Apart v l) (hlt : size < 2 ^ 64)
    (ha : addr < 2 ^ 64)
    (hrec : ∀ va, vmMapCovers v va → protAt (vmMprotect v addr size prot).2 va =
      if addr ≤ va ∧ va < addr + wholePages size then prot else protAt v va) :
    Unsplit v l addr size prot := by
  obtain ⟨hsame, hprot⟩ := vmMprotect_spec h addr size prot
  -- the law for the addresses of an entry
  have hlaw : ∀ p ∈ l, ∀ va, v.lo p ≤ va → va < v.hi p →
      (if pageUp size ≠ 0 ∧ Meets v addr (add64 addr (pageUp size)) p then prot
        else (v.entry p).prot) =
      if addr ≤ va ∧ va < addr + wholePages size then prot else (v.entry p).prot := by
    intro p hp va hlo hhi
    have hr := hrec va (h.covers_iff.mpr ⟨p, hp, hlo, hhi⟩)
    rw [protAt, hsame.findEntry h, protAt, hd.findEntry h hp hlo hhi, hprot p hp] at hr
    exact hr
  rintro p hp ⟨x, hlo, hhi, hax, hxs⟩
  by_contra hno
  obtain ⟨hne, hin⟩ := not_or.mp hno
  have hm : pageUp size ≠ 0 ∧ Meets v addr (add64 addr (pageUp size)) p := by
    by_contra hm
    have hx := hlaw p hp x hlo hhi
    rw [if_neg hm, if_pos ⟨hax, hxs⟩] at hx
    exact hne hx
  have hall : ∀ va, v.lo p ≤ va → va < v.hi p → addr ≤ va ∧ va < addr + wholePages size := by
    intro va h1 h2
    by_contra hout
    have hva := hlaw p hp va h1 h2
    rw [if_pos hm, if_neg hout] at hva
    exact hne hva.symm
  obtain ⟨hfirst, -⟩ := hall (v.lo p) (le_refl _) (by omega)
  by_cases hw : addr + wholePages size < 2 ^ 64
  · have hlast := (hall (v.hi p - 1) (by omega) (by omega)).2
    exact hin ⟨hfirst, by omega, hw⟩
  · exact absurd (lt_of_meets_wrap hlt ha (by omega) hm).1 (by omega)

theorem agrees_of_recorded {m m' : Mem} {r : ℕ} {v' : Map} (hs : SameList v v') (h : Listed v l)
    (hrec : ∀ va, vmMapCovers v va → protAt v' va =
      if addr ≤ va ∧ va < addr + wholePages size then prot else protAt v va)
    (hp : PagesProtected prot m m' r addr (wholePages size)) (ha : Agrees v m r) :
    Agrees v' m' r := by
  intro va hva hc x hx
  have hc' : vmMapCovers v va := by
    rw [vmMapCovers, hs.findEntry h] at hc
    exact hc
  obtain ⟨hin, hout⟩ := hp va hva
  rw [hrec va hc']
  by_cases hr : addr ≤ va ∧ va < addr + wholePages size
  · rw [if_pos hr]
    exact hin hr x hx
  · rw [if_neg hr]
    exact ha va hva hc' x ((hout hr).symm.trans hx)

end Result

/-! ### The walk through the tables -/

section Walk

variable {m : Mem} {s : Phys} {r va l t addr size prot : ℕ}

/-- The rights of an address are those of the entry for its page. -/
theorem rights_of_granting (hg : Granting m r va) (hv : OnWalk m r va l t) {x : ℕ × Rights}
    (hx : Paging.translate m r va = some x) :
    ∃ y, walkFrom m va l t = some y ∧ x.2.w = y.2.w ∧ x.2.nx = y.2.nx := by
  induction hv with
  | root =>
    rw [translate_eq_walkFrom] at hx
    exact ⟨x, hx, rfl, rfl⟩
  | down hv hc ih =>
    obtain ⟨y, hy, hw, hnx⟩ := ih
    rw [walkFrom_child hc] at hy
    obtain ⟨z, hz, rfl⟩ := Option.map_eq_some_iff.mp hy
    obtain ⟨hgw, hgn⟩ := hg _ _ _ hv hc
    refine ⟨z, hz, hw.trans ?_, hnx.trans ?_⟩
    · change (isWritable _ && z.2.w) = z.2.w
      rw [hgw, Bool.true_and]
    · change (isNx _ || z.2.nx) = z.2.nx
      rw [hgn, Bool.false_or]

/-- The pointer to the table of a split grants everything. -/
theorem grants_pointer (f : ℕ) (ha : f % 4096 = 0) (hf : f < 2 ^ 52) :
    isWritable (f + 7) = true ∧ isNx (f + 7) = false := by
  constructor
  · rw [isWritable, Nat.testBit_eq_decide_div_mod_eq, decide_eq_true_eq]
    omega
  · exact Nat.testBit_lt_two_pow (by omega)

theorem onRange_wholePages (fn : ℕ → ℕ) (n : ℕ) (hs : wholePages size < 2 ^ 64) :
    onRange fn n s r addr (wholePages size) = onRange fn n s r addr size := by
  have hw : wholePages (wholePages size) = wholePages size := by
    unfold wholePages
    omega
  rw [onRange, onRange, pageUp_eq_wholePages hs, pageUp_eq_wholePages (by omega), hw]

/-- **The walk protects the pages of the range.** -/
theorem pagesProtected_of_walked (h : Walked prot s r addr size) :
    ∃ n s', vmMprotectPtes prot n s r addr size = some (0, s') ∧
      PagesProtected prot s.mem s'.mem r addr (wholePages size) := by
  by_cases hpos : wholePages size = 0
  · have h0 : pageUp size = 0 := by rw [pageUp_eq_wholePages (by omega), hpos]
    refine ⟨0, s, if_pos h0, fun va _ => ⟨fun hin => ?_, fun _ => rfl⟩⟩
    omega
  obtain ⟨hend, hex⟩ := h.exact.resolve_left hpos
  have hs : wholePages size % 4096 = 0 := by
    unfold wholePages
    omega
  have hrun : ∀ n, onRange (pteSetProt prot) n s r addr (wholePages size) =
      vmMprotectPtes prot n s r addr size := fun n => onRange_wholePages _ n (by omega)
  obtain ⟨n, s', hn, hd⟩ := onRange_done (pteFn_pteSetProt prot) h.tables h.aligned hs hpos hend
    fun n s' => by
      rw [hrun n]
      exact h.splits n s'
  refine ⟨n, s', (hrun n).symm.trans hn, fun va hva => ⟨fun hin x hx => ?_,
    fun hout => translate_of_not_touched h.exact hpos hd hva hout⟩⟩
  obtain ⟨x₀, hx₀⟩ : ∃ x₀, Paging.translate s.mem r va = some x₀ := by
    refine Option.ne_none_iff_exists'.mp fun hno => ?_
    rw [hd.gone va hno] at hx
    exact absurd hx.symm (Option.some_ne_none x)
  have htouched := (hex va hva (by rw [hx₀]; rfl)).mpr hin
  obtain ⟨-, pt, hv, hw, hnx⟩ := hd.translate_protect htouched hx₀
  have hg := (hd.pointers _ grants_pointer va).mpr (h.grants va hin.1 hin.2)
  obtain ⟨y, hy, hyw, hynx⟩ := rights_of_granting hg hv hx
  rw [walkFrom_zero, leafVal] at hy
  split at hy
  · obtain rfl := Option.some.inj hy
    exact ⟨hyw.trans hw, hynx.trans hnx⟩
  · exact absurd hy.symm (Option.some_ne_none y)

end Walk

theorem twoPageMap_apart : Apart twoPageMap [1] := by
  intro p hp q hq x _ _ _ _
  rw [mem_singleton.mp hp, mem_singleton.mp hq]

/-- The two pages are below the 2 MB entry of `smallTree`, which one frame is enough to split. -/
theorem smallTree_walked : Walked 1 ⟨smallTree, [0x6000], false⟩ 0x1000 0x20000 0x2000 where
  tables := { smallTree_tables with
    nodup := nodup_singleton _
    pool := (smallTree_space (nodup_singleton _) (by decide)).pool }
  aligned := by simp
  exact := exact_of_user (by decide) (fun va _ _ => smallTree_clean va) (by simp) (by decide)
  grants va _ _ := by
    intro l t t' hv hc
    rw [Paging.get, smallTree_entry (Table.aligned hv.reach (by simp)) (idx va (l + 1)).2] at hc ⊢
    split_ifs at hc ⊢ <;> first | decide | cases hc
  splits := onRange_no_fail (n := 2) (by simp) (by simp) (by simp) (by decide +kernel)

end TipOS.Vm
