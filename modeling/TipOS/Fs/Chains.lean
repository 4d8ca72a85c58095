import Mathlib.Order.Interval.Finset.Nat
import TipOS.Fs.FatRuns

/-!
# What `write_chain` does to a volume

`write_chain` is given the first cluster of a chain.  Whatever else is on the volume, it puts the
bytes over the beginning of the chain, appends free clusters when the chain is too short, and
leaves everything beside the chain as it was (`writeChain_written`).  It fails only if the bytes
do not fit into the chain and all free clusters together, and then none of them is free any more.
-/

namespace TipOS.Fs

open Function Lib List Nat

namespace Volume

variable {v u w : Volume} {s : Slot} {c x f : ℕ} {l k m ext : List ℕ} {buf name : List UInt8}

/-! ### Free clusters -/

/-- The free clusters. -/
def freeSet (v : Volume) : Finset ℕ := (Finset.Ico 2 v.bound).filter fun c => v.fat c = 0

theorem mem_freeSet : x ∈ v.freeSet ↔ (2 ≤ x ∧ x < v.bound) ∧ v.fat x = 0 := by
  rw [freeSet, Finset.mem_filter, Finset.mem_Ico]

theorem mem_freeSet_of_find (h : v.fatFindFree = some f) : f ∈ v.freeSet := by
  obtain ⟨h0, hr⟩ := fatFindFree_some h
  exact mem_freeSet.mpr ⟨hr, h0⟩

theorem fatFindFree_eq_none : v.fatFindFree = none ↔ v.freeSet = ∅ := by
  constructor
  · intro h
    rw [Finset.eq_empty_iff_forall_notMem]
    intro x hx
    obtain ⟨⟨h2, hb⟩, h0⟩ := mem_freeSet.mp hx
    have hmem : x ∈ (List.range v.geo.total).map (· + 2) := by
      rw [bound] at hb
      exact mem_map.mpr ⟨x - 2, mem_range.mpr (by omega), by omega⟩
    have := find?_eq_none.mp h x hmem
    exact this (by simpa using h0)
  · intro h
    cases hf : v.fatFindFree with
    | none => rfl
    | some f => exact absurd (mem_freeSet_of_find hf) (by rw [h]; exact Finset.notMem_empty f)

theorem freeSet_congr (hg : w.geo = v.geo) (hf : w.fat = v.fat) : w.freeSet = v.freeSet := by
  rw [freeSet, freeSet, bound, bound, hg, hf]

theorem freeSet_link (hx : v.fat x ≠ 0) (hf : v.fatFindFree = some f) :
    (v.link x f).freeSet = v.freeSet.erase f := by
  obtain ⟨h0, h2, hb⟩ := fatFindFree_some hf
  have hs : v.bound ≤ 0x0FFFFFF8 := v.geo.small
  have hxf : x ≠ f := fun e => hx (e ▸ h0)
  ext y
  rw [Finset.mem_erase, mem_freeSet, mem_freeSet]
  by_cases hyf : y = f
  · rw [hyf, link_fat_new]
    exact ⟨fun h => absurd h.2 (by decide), fun h => absurd rfl h.1⟩
  by_cases hyx : y = x
  · rw [hyx, link_fat_last hxf (by omega)]
    exact ⟨fun h => absurd h.2 (by omega), fun h => absurd h.2.2 hx⟩
  · rw [link_fat hyx hyf]
    exact ⟨fun h => ⟨hyf, h⟩, fun h => h.2⟩

/-! ### Chains that grow -/

/-- The chain `l` has got the clusters `ext`, which were free, and no other entry of the table has
changed. -/
structure Grown (v w : Volume) (c : ℕ) (l ext : List ℕ) : Prop where
  geo : w.geo = v.geo
  cwd : w.cwd = v.cwd
  chain : w.IsChain c (l ++ ext)
  free : ∀ y ∈ ext, v.fat y = 0
  fat : ∀ y, y ∉ l ++ ext → w.fat y = v.fat y
  same : ext = [] → w.fat = v.fat

namespace Grown

theorem of_fat (h : v.IsChain c l) (hg : w.geo = v.geo) (hc : w.cwd = v.cwd) (hf : w.fat = v.fat) :
    Grown v w c l [] := by
  refine ⟨hg, hc, ?_, fun y hy => absurd hy (not_mem_nil), fun y _ => by rw [hf], fun _ => hf⟩
  rw [append_nil]
  exact h.congr hg fun y _ => by rw [hf]

theorem link (h : v.IsChain c (k ++ [x])) (hf : v.fatFindFree = some f) :
    Grown v (v.link x f) c (k ++ [x]) [f] := by
  refine ⟨rfl, rfl, h.link hf, fun y hy => ?_, fun y hy => ?_, fun hn => absurd hn (by simp)⟩
  · rw [mem_singleton.mp hy]
    exact (fatFindFree_some hf).1
  · exact link_fat (fun e => hy (by simp [e])) fun e => hy (by simp [e])

theorem trans {e1 e2 : List ℕ} (h1 : Grown v u c l e1) (h2 : Grown u w c (l ++ e1) e2) :
    Grown v w c l (e1 ++ e2) := by
  refine ⟨h2.geo.trans h1.geo, h2.cwd.trans h1.cwd, ?_, fun y hy => ?_, fun y hy => ?_,
    fun hn => ?_⟩
  · rw [← append_assoc]
    exact h2.chain
  · rcases mem_append.mp hy with hy | hy
    · exact h1.free y hy
    · have h0 := h2.free y hy
      rw [← h1.fat y (h1.chain.not_mem_of_free h0)]
      exact h0
  · rw [← append_assoc] at hy
    rw [h2.fat y hy, h1.fat y fun hm => hy (mem_append_left e2 hm)]
  · obtain ⟨hn1, hn2⟩ := append_eq_nil_iff.mp hn
    rw [h2.same hn2, h1.same hn1]

theorem freeSet_eq (h : Grown v w c l ext) (hl : v.IsChain c l) :
    w.freeSet = v.freeSet \ ext.toFinset := by
  have hb : w.bound = v.bound := by rw [bound, bound, h.geo]
  ext y
  rw [Finset.mem_sdiff, mem_toFinset, mem_freeSet, mem_freeSet, hb]
  by_cases hy : y ∈ l ++ ext
  · have hw : w.fat y ≠ 0 := h.chain.fat_ne_zero hy
    refine ⟨fun hm => absurd hm.2 hw, fun hm => ?_⟩
    rcases mem_append.mp hy with hyl | hye
    · exact absurd hm.1.2 (hl.fat_ne_zero hyl)
    · exact absurd hye hm.2
  · rw [h.fat y hy]
    exact ⟨fun hm => ⟨hm, fun he => hy (mem_append_right l he)⟩, fun hm => hm.1⟩

theorem mem_freeSet_of_ext (h : Grown v w c l ext) (hx : x ∈ ext) : x ∈ v.freeSet := by
  have hr := h.chain.range x (mem_append_right l hx)
  rw [bound, h.geo] at hr
  exact mem_freeSet.mpr ⟨hr, h.free x hx⟩

end Grown

/-! ### The bytes -/

/-- The bytes of some clusters. -/
def bytesOf (v : Volume) (l : List ℕ) : List UInt8 := l.flatMap fun c => v.firstBytes c v.clusterBytes

theorem bytesOf_congr (hg : w.geo = v.geo) (h : ∀ y ∈ l, w.data y = v.data y) :
    w.bytesOf l = v.bytesOf l := by
  have hb : w.clusterBytes = v.clusterBytes := by rw [clusterBytes, clusterBytes, hg]
  rw [bytesOf, bytesOf, flatMap_congr]
  intro y hy
  rw [firstBytes, firstBytes, h y hy, hb]

theorem firstBytes_writeCluster (v : Volume) (c : ℕ) (buf : List UInt8) :
    (v.writeCluster c buf).firstBytes c buf.length = buf := by
  refine ext_getElem (length_firstBytes _ _ _) fun i h1 h2 => ?_
  have hb := Mem.blit_apply_of_mem (m := v.data c) (a := 0) (f := fun i => buf.getD i 0) h2
  rw [zero_add] at hb
  simp only [firstBytes, getElem_map, getElem_range]
  rw [Volume.writeCluster, setData_data, update_self, hb, getD_eq_getElem?_getD,
    getElem?_eq_getElem, Option.getD_some]

theorem writeCluster_other {y : ℕ} (h : y ≠ c) (buf : List UInt8) :
    (v.writeCluster c buf).data y = v.data y := update_of_ne h _ _

theorem firstBytes_writeCluster_append (v : Volume) (c n : ℕ) (h : buf.length ≤ n) :
    (v.writeCluster c buf).firstBytes c n = buf ++ (v.firstBytes c n).drop buf.length := by
  have hsplit : (v.writeCluster c buf).firstBytes c n =
      ((v.writeCluster c buf).firstBytes c n).take buf.length ++
        ((v.writeCluster c buf).firstBytes c n).drop buf.length := (take_append_drop _ _).symm
  rw [hsplit, firstBytes_take, min_eq_left h, firstBytes_writeCluster]
  congr 1
  refine ext_getElem (by simp [length_firstBytes]) fun i h1 h2 => ?_
  rw [getElem_drop, getElem_drop]
  simp only [firstBytes, getElem_map, getElem_range]
  rw [Volume.writeCluster, setData_data, update_self]
  exact Mem.blit_apply_of_not_mem (.inr (by omega))

theorem append_overwritten {a b : List UInt8} {n : ℕ} (ha : a.length = n) :
    (buf.take n ++ a.drop (buf.take n).length) ++ (buf.drop n ++ b.drop (buf.drop n).length) =
      buf ++ (a ++ b).drop buf.length := by
  rw [drop_append, ha, length_take, length_drop]
  rcases le_total buf.length n with h | h
  · rw [take_of_length_le h, drop_of_length_le h, min_eq_right h]
    simp
  · rw [min_eq_left h, drop_of_length_le (by omega : a.length ≤ n),
      drop_of_length_le (by omega : a.length ≤ buf.length), append_nil, nil_append,
      ← append_assoc, take_append_drop]

theorem bytesOf_cons (v : Volume) (x : ℕ) (m : List ℕ) :
    v.bytesOf (x :: m) = v.firstBytes x v.clusterBytes ++ v.bytesOf m := rfl

/-- What `write_chain` has done, from the cluster `x` of the chain on. -/
structure Written (v : Volume) (c : ℕ) (k : List ℕ) (x : ℕ) (m ext : List ℕ) (buf : List UInt8)
    (r : Bool × Volume) : Prop where
  grown : Grown v r.2 c (k ++ x :: m) ext
  data : ∀ y, y ∉ x :: (m ++ ext) → r.2.data y = v.data y
  bytes : r.1 = true →
    r.2.bytesOf (x :: (m ++ ext)) = buf ++ (v.bytesOf (x :: (m ++ ext))).drop buf.length
  full : r.1 = false →
    r.2.freeSet = ∅ ∧ ((x :: m).length + v.freeSet.card) * v.clusterBytes < buf.length

theorem Written.last (h : v.IsChain c (k ++ x :: m)) (hb : buf.length ≤ v.clusterBytes) :
    Written v c k x m [] buf (true, v.writeCluster x buf) := by
  refine ⟨.of_fat h rfl rfl rfl, fun y hy => ?_, fun _ => ?_,
    fun hf => absurd hf (by simp)⟩
  · exact writeCluster_other (fun e => hy (by rw [e]; exact .head _)) buf
  · have hnd := (nodup_append.mp h.trail.nodup).2.1
    rw [append_nil, bytesOf_cons, bytesOf_cons]
    rw [bytesOf_congr (v := v) (w := v.writeCluster x buf) rfl fun y hy =>
      writeCluster_other (fun e => (nodup_cons.mp hnd).1 (by rw [← e]; exact hy)) buf]
    change (v.writeCluster x buf).firstBytes x v.clusterBytes ++ _ = _
    rw [firstBytes_writeCluster_append v x _ hb, drop_append_of_le_length
      (by rw [length_firstBytes]; exact hb), append_assoc]

/-- One cluster is written, the chain goes on with `y` behind it, perhaps since a free cluster has
been linked, and the rest is written from there. -/
theorem Written.cons {y : ℕ} {m1 e1 e2 : List ℕ} {r : Bool × Volume}
    (hg : Grown v u c (k ++ x :: m) e1) (hm : m ++ e1 = y :: m1) (hx : u.firstBytes x v.clusterBytes =
      buf.take v.clusterBytes ++ (v.firstBytes x v.clusterBytes).drop (buf.take v.clusterBytes).length)
    (hu : ∀ z, z ≠ x → u.data z = v.data z)
    (hcard : u.freeSet.card + e1.length = v.freeSet.card) (hlt : v.clusterBytes < buf.length)
    (hr : Written u c (k ++ [x]) y m1 e2 (buf.drop v.clusterBytes) r) :
    Written v c k x m (e1 ++ e2) buf r := by
  have hcb : u.clusterBytes = v.clusterBytes := by rw [clusterBytes, clusterBytes, hg.geo]
  have hlist : m ++ (e1 ++ e2) = y :: (m1 ++ e2) := by
    rw [← append_assoc, hm, cons_append]
  have hgr : Grown u r.2 c (k ++ x :: m ++ e1) e2 := by
    have := hr.grown
    rwa [append_assoc, singleton_append, ← hm, ← cons_append,
      ← append_assoc] at this
  have hnd : x ∉ y :: (m1 ++ e2) := by
    have hch := hr.grown.chain
    rw [append_assoc, append_assoc] at hch
    exact (nodup_cons.mp (nodup_append.mp hch.trail.nodup).2.1).1
  refine ⟨hg.trans hgr, fun z hz => ?_, fun hok => ?_, fun hfail => ?_⟩
  · rw [hlist] at hz
    rw [hr.data z fun hm => hz (mem_cons_of_mem x hm)]
    exact hu z fun e => hz (e ▸ mem_cons_self)
  · have hrest : r.2.bytesOf (y :: (m1 ++ e2)) = buf.drop v.clusterBytes ++
        (v.bytesOf (y :: (m1 ++ e2))).drop (buf.drop v.clusterBytes).length := by
      rw [hr.bytes hok, bytesOf_congr hg.geo fun z hz => hu z fun e => hnd (e ▸ hz)]
    have hrcb : r.2.clusterBytes = v.clusterBytes := by
      rw [clusterBytes, clusterBytes, hr.grown.geo, hg.geo]
    have hfirst : r.2.firstBytes x v.clusterBytes = u.firstBytes x v.clusterBytes := by
      rw [firstBytes, firstBytes, hr.data x hnd]
    rw [hlist, bytesOf_cons, bytesOf_cons v x, hrest, hrcb, hfirst, hx]
    exact append_overwritten (length_firstBytes v x _)
  obtain ⟨hempty, hlen⟩ := hr.full hfail
  refine ⟨hempty, ?_⟩
  have hl : m.length + e1.length = m1.length + 1 := by
    have := congrArg List.length hm
    rwa [length_append, length_cons] at this
  rw [hcb, length_drop, length_cons] at hlen
  rw [length_cons]
  have hsum : m.length + 1 + v.freeSet.card = (m1.length + 1 + u.freeSet.card) + 1 := by omega
  rw [hsum, add_mul, one_mul]
  omega

/-- **`write_chain` on any volume**, from a cluster of a chain on. -/
theorem writeChain_written (n : ℕ) : ∀ (v : Volume) (x : ℕ) (k m : List ℕ) (buf : List UInt8),
    v.IsChain c (k ++ x :: m) → buf.length ≤ n →
    ∃ ext, Written v c k x m ext buf (writeChain n v x buf) := by
  induction n with
  | zero =>
    intro v x k m buf h hn
    have hb : buf = [] := eq_nil_of_length_eq_zero (le_zero.mp hn)
    subst hb
    exact ⟨[], .of_fat h rfl rfl rfl, fun _ _ => rfl, fun _ => rfl, fun hf => absurd hf (by simp [writeChain])⟩
  | succ n ih =>
    intro v x k m buf h hn
    have hcb : 0 < v.clusterBytes := mul_pos v.geo.pos (by decide)
    rw [writeChain]
    split
    · next hb =>
      rw [isEmpty_iff.mp hb]
      exact ⟨[], .of_fat h rfl rfl rfl, fun _ _ => rfl, fun _ => rfl, fun hf => absurd hf (by simp)⟩
    dsimp only
    split
    · next hdrop =>
      have hle : buf.length ≤ v.clusterBytes :=
        drop_eq_nil_iff.mp (isEmpty_iff.mp hdrop)
      rw [take_of_length_le hle]
      exact ⟨[], .last h hle⟩
    next hdrop =>
    have hlt : v.clusterBytes < buf.length := by
      by_contra hle
      exact hdrop (isEmpty_iff.mpr (drop_eq_nil_iff.mpr (Nat.le_of_not_lt hle)))
    have hlen : (buf.drop v.clusterBytes).length ≤ n := by
      rw [length_drop]
      omega
    -- the volume with the cluster written, and what is the same in it
    set u := v.writeCluster x (buf.take v.clusterBytes)
    have hw : v.IsChain c (k ++ x :: m) → u.IsChain c (k ++ x :: m) :=
      fun h => h.congr rfl fun _ _ => rfl
    have hfirst := firstBytes_writeCluster_append v x v.clusterBytes
      (show (buf.take v.clusterBytes).length ≤ _ by
        rw [length_take]; exact min_le_left _ _)
    have hu : ∀ z, z ≠ x → u.data z = v.data z := fun z hz => writeCluster_other hz _
    split
    · next hend =>
      have he := hend.resolve_left ((hw h).fat_ne_zero (by simp))
      obtain rfl := (hw h).eq_nil_of_endMark he
      split
      · next hnone =>
        refine ⟨[], .of_fat h rfl rfl rfl, fun y hy => hu y fun e => hy (by simp [e]),
          fun hok => absurd hok (by simp), fun _ => ?_⟩
        have hempty := fatFindFree_eq_none.mp hnone
        refine ⟨hempty, ?_⟩
        have hv : v.freeSet = ∅ := hempty
        rw [hv]
        simpa using hlt
      next f hf =>
      obtain ⟨e2, hr⟩ := ih (u.link x f) f (k ++ [x]) [] (buf.drop v.clusterBytes)
        (by exact (hw h).link hf) hlen
      have hfv : v.fatFindFree = some f := hf
      refine ⟨[f] ++ e2, Written.cons (u := u.link x f) ?_ rfl hfirst hu ?_ hlt hr⟩
      · have hg := Grown.link (hw h) hf
        exact ⟨hg.geo, hg.cwd, hg.chain, hg.free, hg.fat, hg.same⟩
      · rw [freeSet_link ((hw h).fat_ne_zero (by simp)) hf,
          Finset.card_erase_of_mem (mem_freeSet_of_find hf), length_singleton]
        have hpos := Finset.card_pos.mpr ⟨f, mem_freeSet_of_find hfv⟩
        have := congrArg Finset.card (freeSet_congr (v := v) (w := u) rfl rfl)
        omega
    · next hend =>
      cases m with
      | nil => exact absurd (.inr (hw h).trail.stop_last) hend
      | cons y m =>
        rw [(hw h).trail.next_eq]
        obtain ⟨e2, hr⟩ := ih u y (k ++ [x]) m (buf.drop v.clusterBytes)
          (by rw [append_assoc]; exact hw h) hlen
        exact ⟨[] ++ e2, Written.cons (u := u) (.of_fat h rfl rfl rfl) (append_nil _) hfirst hu rfl
          hlt hr⟩

/-- What `write_chain` returns. -/
def writeChainRet (v : Volume) (c : ℕ) (buf : List UInt8) : ℤ :=
  if (writeChain buf.length v c buf).1 = true then asInt buf.length else -1

/-- The chain `c :: l` has got free clusters, its bytes begin with `buf` and are the same behind
that, and nothing has changed beside it. -/
def Appended (v w : Volume) (c : ℕ) (l : List ℕ) (buf : List UInt8) : Prop :=
  ∃ ext, Grown v w c (c :: l) ext ∧ (∀ y, y ∉ c :: (l ++ ext) → w.data y = v.data y) ∧
    w.bytesOf (c :: (l ++ ext)) = buf ++ (v.bytesOf (c :: (l ++ ext))).drop buf.length

theorem asInt_eq_iff {n : ℕ} : asInt n = n ↔ n < 2 ^ 31 := by
  unfold asInt
  split
  · next hn => exact iff_of_true rfl hn
  · next hn => exact iff_of_false (by omega) hn

theorem writeChain_appended (h : v.IsChain c (c :: l))
    (hroom : buf.length ≤ ((c :: l).length + v.freeSet.card) * v.clusterBytes) :
    (writeChain buf.length v c buf).1 ∧
      Appended v (writeChain buf.length v c buf).2 c l buf := by
  obtain ⟨ext, hr⟩ := writeChain_written (c := c) buf.length v c [] l buf h le_rfl
  have hok : (writeChain buf.length v c buf).1 := by
    by_contra hfail
    exact absurd hroom (not_le.mpr (hr.full (Bool.eq_false_iff.mpr hfail)).2)
  exact ⟨hok, ext, hr.grown, hr.data, hr.bytes hok⟩

/-- **`write_chain` with enough free clusters** writes the bytes and changes nothing else, and
returns their number if that is an `int`. -/
theorem write_chain_iff (v : Volume) (c : ℕ) (l : List ℕ) (buf : List UInt8)
    (h : v.IsChain c (c :: l)) (_hsize : buf.length < 2 ^ 32)
    (hroom : buf.length ≤ ((c :: l).length + v.freeSet.card) * v.clusterBytes) :
    (v.writeChainRet c buf = buf.length ∧ Appended v (writeChain buf.length v c buf).2 c l buf) ↔
      buf.length < 2 ^ 31 := by
  obtain ⟨hok, happ⟩ := writeChain_appended h hroom
  rw [writeChainRet, if_pos hok, asInt_eq_iff]
  exact and_iff_left happ

/-- A volume on which one cluster is in use. -/
def oneChain (g : Geometry) : Volume := ⟨g, 2, fun c => if c = 2 then 0x0FFFFFFF else 0, fun _ _ => 0⟩

theorem oneChain_isChain {g : Geometry} (h : 0 < g.total) : (oneChain g).IsChain 2 [2] := by
  refine ⟨⟨rfl, by decide, show endMark 0x0FFFFFFF by decide⟩, fun x hx => ?_⟩
  rw [mem_singleton.mp hx, bound]
  exact ⟨le_rfl, Nat.lt_add_of_pos_left h⟩

/-- 513 bytes, which do not fit into a cluster of one sector. -/
def longBuf : List UInt8 := List.replicate 513 7

theorem write_chain_iff_tiny : (oneChain .tiny).clusterBytes < longBuf.length ∧
    (oneChain .tiny).writeChainRet 2 longBuf = longBuf.length ∧
    Appended (oneChain .tiny) (writeChain longBuf.length (oneChain .tiny) 2 longBuf).2 2 [] longBuf := by
  have hfree : 3 ∈ (oneChain .tiny).freeSet := mem_freeSet.mpr ⟨by decide, by decide⟩
  have hcard := Finset.card_pos.mpr ⟨3, hfree⟩
  have hlen : longBuf.length = 513 := length_replicate
  have hbytes : (oneChain .tiny).clusterBytes = 512 := rfl
  refine ⟨by omega, (write_chain_iff (oneChain .tiny) 2 [] longBuf (oneChain_isChain (by decide))
    (by omega) ?_).mpr (by omega)⟩
  rw [hbytes, length_singleton]
  omega

/-- Two gigabytes in clusters of 64 kilobytes. -/
def wide : Volume := oneChain ⟨128, 40000, 2, by decide, by decide⟩

theorem write_chain_negative : wide.IsChain 2 [2] ∧
    2 ^ 31 ≤ ([2].length + wide.freeSet.card) * wide.clusterBytes ∧
    wide.writeChainRet 2 (List.replicate (2 ^ 31) 0) = -2 ^ 31 := by
  have hchain : wide.IsChain 2 [2] := oneChain_isChain (by decide)
  have hsub : Finset.Ico 3 40002 ⊆ wide.freeSet := by
    intro x hx
    obtain ⟨h3, hlt⟩ := Finset.mem_Ico.mp hx
    exact mem_freeSet.mpr ⟨⟨by omega, hlt⟩, if_neg (by omega)⟩
  have hcard : 39999 ≤ wide.freeSet.card := by
    have := Finset.card_le_card hsub
    rwa [card_Ico] at this
  have hroom : 2 ^ 31 ≤ ([2].length + wide.freeSet.card) * wide.clusterBytes := by
    have hcb : wide.clusterBytes = 65536 := rfl
    rw [hcb, length_singleton]
    omega
  refine ⟨hchain, hroom, ?_⟩
  have hlen : (List.replicate (2 ^ 31) (0 : UInt8)).length = 2 ^ 31 := length_replicate
  generalize List.replicate (2 ^ 31) (0 : UInt8) = buf at hlen ⊢
  rw [writeChainRet, if_pos (writeChain_appended hchain (by rw [hlen]; exact hroom)).1, hlen]
  decide

/-! ### Files that have been written -/

/-- The record has a chain, and the bytes of its file are `f`. -/
def Contains (v : Volume) (s : Slot) (f : List UInt8) : Prop :=
  v.firstCluster s ≠ 0 ∧ ∃ l, v.IsChain (v.firstCluster s) (v.firstCluster s :: l) ∧
    f = (v.bytesOf (v.firstCluster s :: l)).take (v.size s)

namespace Writing

theorem slot_not_mem (h : Writing v s c l) : s.1 ∉ c :: l := by
  intro hm
  obtain ⟨k, hk⟩ := h.consistent.chain_of_dir h.consistent.cwd
  exact h.not_dir hm h.consistent.cwd hk (hk.mem_of_slot (slot_of_live h.live))

theorem record_contains (h : Writing v s c l) (hf : v.lookup (fun _ => true) name = some s)
    {buf : List UInt8} (hb : (v.bytesOf (c :: l)).take buf.length = buf)
    (hlen : buf.length < 2 ^ 31) : (v.record name c buf.length).Contains s buf := by
  have hr := h.holds.chain.range c (.head _)
  have hbound : v.bound ≤ 0x0FFFFFF8 := v.geo.small
  rw [Volume.record, hf]
  dsimp only
  set u := (v.setSize s buf.length).setFirstCluster s c
  have hc : u.firstCluster s = c := congrArg Entry.cluster (setFirstCluster_self (by omega))
  have hsize : u.size s = buf.length := by
    simp only [u, Volume.size, setFirstCluster, setSize, putNum, setData, update_self]
    rw [Mem.load_store_of_disjoint (.inr (by omega)), Mem.load_store_of_disjoint (.inr (by omega)),
      Mem.load_store]
    exact mod_eq_of_lt (by omega)
  have hdata (y) (hy : y ≠ s.1) : u.data y = v.data y := by
    simp only [u, setFirstCluster, setSize, putNum, setData, update_of_ne hy]
  rw [Contains, hc, hsize]
  refine ⟨by omega, l, h.holds.chain.congr rfl fun _ _ => rfl, ?_⟩
  rw [bytesOf_congr (show u.geo = v.geo from rfl) fun y hy => hdata y fun e =>
    h.slot_not_mem (e ▸ hy), hb]

theorem writeFrom_contains (h : Writing v s c l) (hf : v.lookup (fun _ => true) name = some s)
    {buf : List UInt8} (hb : buf.length < 2 ^ 32) (hok : 0 ≤ (Fs.writeFrom v c name buf).1) :
    (Fs.writeFrom v c name buf).2.Contains s buf := by
  obtain ⟨⟨l', hw⟩, hs⟩ := Writing.writeChain buf.length v c l buf h (.head _)
  revert hok
  rw [Fs.writeFrom]
  split
  · exact fun hok => absurd hok (show ¬ (0 : ℤ) ≤ -1 by decide)
  next hfail =>
  split
  · next hneg => exact fun hok => absurd hneg (Int.not_lt.mpr hok)
  next hneg =>
  intro _
  rw [Bool.not_eq_false] at hfail
  obtain ⟨ext, hr⟩ := writeChain_written (c := c) buf.length v c [] l buf h.holds.chain le_rfl
  have hl' : c :: l' = c :: (l ++ ext) := hw.holds.chain.unique hr.grown.chain
  have hbytes : ((Fs.writeChain buf.length v c buf).2.bytesOf (c :: l')).take buf.length = buf := by
    rw [hl', hr.bytes hfail, take_left]
  refine hw.record_contains ?_ hbytes ?_
  · rw [hs.lookup_eq h.consistent.cwd fun _ _ => rfl]
    exact hf
  · by_contra hbig
    rw [asInt, if_neg hbig] at hneg
    omega

end Writing

/-- **A file that has been written has the bytes of that call.** -/
theorem Consistent.writeFile_contains (h : v.Consistent) {junk : ℕ → UInt8} (hn : NoDots name)
    (hf : v.findEntry junk v.cwd name = some s) (hdir : v.isDir s = false)
    (hlook : v.lookup (fun _ => true) name = some s) {buf : List UInt8} (hb : buf.length < 2 ^ 32)
    (hok : 0 ≤ (fat32WriteFile junk v name buf).1) :
    (fat32WriteFile junk v name buf).2.Contains s buf := by
  rcases h.writeFile_cases hn hf hdir hlook buf with he | ⟨v1, c, l, hw, hl, he⟩
  · rw [he] at hok
    exact absurd hok (show ¬ (0 : ℤ) ≤ -1 by decide)
  · rw [he] at hok ⊢
    exact hw.writeFrom_contains hl hb hok

/-- A volume with an empty file and three free clusters. -/
def roomForThree : Volume := (fat32CreateFile FatOp.blank [65]).2

theorem writeFile_contains_roomForThree :
    (fat32WriteFile (fun _ => 0) roomForThree [65] [7]).2.Contains (2, 0) [7] := by
  have h := FatOp.blank_consistent.createEntryAt (show List.Pairwise _ _ by decide +kernel) [65] 0x20
  apply h.writeFile_contains ⟨by decide, by decide⟩ <;> decide +kernel

end Volume

end TipOS.Fs
