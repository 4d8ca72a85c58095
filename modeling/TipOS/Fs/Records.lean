import TipOS.Fs.Fat32

/-!
# The records of a directory

What the driver reads in a record is its name, its attributes and its first cluster
(`Volume.entry`).  Here is what each change of a record does to the entries; the results about
volumes need nothing else of the bytes.
-/

namespace TipOS.Fs

open Function Lib List Volume Mem UInt8

variable {j n i : ℕ} {l : List UInt8}

/-- What a record says, but for the size and the times. -/
structure Entry where
  name : List UInt8
  attr : UInt8
  cluster : ℕ
deriving DecidableEq

namespace Entry

def isEnd (e : Entry) : Bool := e.name.headD 0 = 0
def isFree (e : Entry) : Bool := e.name.headD 0 = 0xE5
def isLong (e : Entry) : Bool := e.attr = 0x0F
def isDir (e : Entry) : Bool := e.attr.toNat / 16 % 2 = 1
/-- The records `.` and `..`. -/
def isDot (e : Entry) : Bool := e.name = dotName || e.name = dotDotName

end Entry

namespace Volume

variable {v v' : Volume} {s t : Slot}

def entry (v : Volume) (s : Slot) : Entry := ⟨v.name s, v.attr s, v.firstCluster s⟩

theorem isEnd_eq (v : Volume) (s : Slot) : v.isEnd s = (v.entry s).isEnd := rfl
theorem isFree_eq (v : Volume) (s : Slot) : v.isFree s = (v.entry s).isFree := rfl
theorem isLong_eq (v : Volume) (s : Slot) : v.isLong s = (v.entry s).isLong := rfl
theorem name_length (v : Volume) (s : Slot) : (v.name s).length = 11 := by
  rw [name, length_map, length_range]

/-! ### Equal bytes -/

theorem name_congr (h : ∀ i < 11, v'.byte s i = v.byte s i) : v'.name s = v.name s :=
  map_congr_left fun i hi => h i (mem_range.mp hi)

theorem firstCluster_congr (h : ∀ i < 28, 20 ≤ i → v'.byte s i = v.byte s i) :
    v'.firstCluster s = v.firstCluster s := by
  have hload : ∀ j, 20 ≤ j → j + 2 ≤ 28 →
      (v'.data s.1).load (32 * s.2 + j) 2 = (v.data s.1).load (32 * s.2 + j) 2 := by
    intro j hj hj'
    refine load_congr 2 _ fun x h1 h2 => ?_
    have hx : x = 32 * s.2 + (x - 32 * s.2) := by omega
    rw [hx]
    exact h (x - 32 * s.2) (by omega) (by omega)
  rw [firstCluster, firstCluster, hload 20 (by omega) (by omega), hload 26 (by omega) (by omega)]

theorem entry_congr (h : ∀ i < 32, v'.byte s i = v.byte s i) : v'.entry s = v.entry s := by
  have hn : v'.name s = v.name s := name_congr fun i hi => h i (by omega)
  have ha : v'.attr s = v.attr s := h 11 (by omega)
  have hc : v'.firstCluster s = v.firstCluster s := firstCluster_congr fun i hi _ => h i (by omega)
  rw [entry, entry, hn, ha, hc]

/-! ### Changing some bytes -/

@[simp] theorem setData_data (v : Volume) (c : ℕ) (m : Mem) :
    (v.setData c m).data = update v.data c m := rfl

/-- A change of the bytes from `j` on, `n` of them, of the record `s` alone. -/
theorem byte_setData {m : Mem}
    (hm : ∀ x, (x < 32 * s.2 + j ∨ 32 * s.2 + j + n ≤ x) → m x = v.data s.1 x) (hn : j + n ≤ 32)
    (hi : i < 32) (h : t ≠ s ∨ i < j ∨ j + n ≤ i) : (v.setData s.1 m).byte t i = v.byte t i := by
  rw [byte, byte, setData_data]
  by_cases ht : t.1 = s.1
  · rw [ht, update_self]
    refine hm _ ?_
    by_cases ht2 : t.2 = s.2
    · have hts : t = s := Prod.ext ht ht2
      rcases h with h | h
      · exact absurd hts h
      · omega
    · omega
  · rw [update_of_ne ht]

theorem byte_put (hn : j + l.length ≤ 32) (hi : i < 32) (h : t ≠ s ∨ i < j ∨ j + l.length ≤ i) :
    (v.put s j l).byte t i = v.byte t i :=
  byte_setData (fun _ hx => blit_apply_of_not_mem hx) hn hi h

theorem byte_put_self (hi : i < l.length) :
    (v.put s j l).byte s (j + i) = l.getD i 0 := by
  rw [byte, put, setData_data, update_self, ← Nat.add_assoc, blit_apply_of_mem hi]

theorem byte_putNum {x : ℕ} (hn : j + n ≤ 32) (hi : i < 32) (h : t ≠ s ∨ i < j ∨ j + n ≤ i) :
    (v.putNum s j n x).byte t i = v.byte t i :=
  byte_setData (fun _ hx => store_apply_of_not_mem hx) hn hi h

theorem name_put_self (hl : l.length = 11) : (v.put s 0 l).name s = l := by
  have hbyte : ∀ i < 11, (v.put s 0 l).byte s i = l.getD i 0 := by
    intro i hi
    have := byte_put_self (v := v) (s := s) (j := 0) (hl.symm ▸ hi : i < l.length)
    rwa [Nat.zero_add] at this
  refine ext_getElem (by rw [name_length, hl]) fun i h1 h2 => ?_
  rw [hl] at h2
  simp only [name, getElem_map, getElem_range]
  rw [hbyte i h2, getD_eq_getElem?_getD, getElem?_eq_getElem, Option.getD_some]

/-! ### The changes of the driver -/

theorem setFirstCluster_other {c : ℕ} (h : t ≠ s) :
    (v.setFirstCluster s c).entry t = v.entry t := by
  refine entry_congr fun i hi => ?_
  rw [setFirstCluster, byte_putNum (by omega) hi (.inl h), byte_putNum (by omega) hi (.inl h)]

theorem setFirstCluster_self {c : ℕ} (hc : c < 2 ^ 32) :
    (v.setFirstCluster s c).entry s = { v.entry s with cluster := c } := by
  set w := v.setFirstCluster s c with hw
  have hbyte : ∀ i < 32, i < 20 → w.byte s i = v.byte s i := by
    intro i hi hi'
    rw [hw, setFirstCluster, byte_putNum (by omega) hi (.inr (by omega)),
      byte_putNum (by omega) hi (.inr (by omega))]
  have hn : w.name s = v.name s :=
    name_congr fun i hi => hbyte i (by omega) (by omega)
  have ha : w.attr s = v.attr s := hbyte 11 (by omega) (by omega)
  have hcl : w.firstCluster s = c := by
    have hhigh : (w.data s.1).load (32 * s.2 + 20) 2 = c / 2 ^ 16 := by
      simp only [hw, setFirstCluster, putNum, setData, update_self, load_store]
      omega
    have hlow : (w.data s.1).load (32 * s.2 + 26) 2 = c % 2 ^ 16 := by
      simp only [hw, setFirstCluster, putNum, setData, update_self]
      rw [load_store_of_disjoint (.inr (by omega)), load_store]
      omega
    rw [firstCluster, hhigh, hlow]
    omega
  rw [entry, hn, ha, hcl]
  rfl

theorem setSize_entry (v : Volume) (s t : Slot) (n : ℕ) : (v.setSize s n).entry t = v.entry t := by
  have hbyte : ∀ i < 28, (v.setSize s n).byte t i = v.byte t i := fun i hi =>
    byte_putNum (by omega) (by omega) (.inr (by omega))
  have hn : (v.setSize s n).name t = v.name t := name_congr fun i hi => hbyte i (by omega)
  have ha : (v.setSize s n).attr t = v.attr t := hbyte 11 (by omega)
  have hc : (v.setSize s n).firstCluster t = v.firstCluster t :=
    firstCluster_congr fun i hi _ => hbyte i hi
  rw [entry, entry, hn, ha, hc]

theorem put_other (hn : j + l.length ≤ 32) (h : t ≠ s) :
    (v.put s j l).entry t = v.entry t :=
  entry_congr fun _ hi => byte_put hn hi (.inl h)

theorem put_name_self (hl : l.length = 11) :
    (v.put s 0 l).entry s = { v.entry s with name := l } := by
  have ha : (v.put s 0 l).attr s = v.attr s :=
    byte_put (by omega) (by omega) (.inr (.inr (by omega)))
  have hc : (v.put s 0 l).firstCluster s = v.firstCluster s :=
    firstCluster_congr fun i hi h20 => byte_put (by omega) (by omega) (.inr (.inr (by omega)))
  rw [entry, name_put_self hl, ha, hc]
  rfl

theorem put_attr_self {a : UInt8} : (v.put s 11 [a]).entry s = { v.entry s with attr := a } := by
  have hn : (v.put s 11 [a]).name s = v.name s :=
    name_congr fun i hi => byte_put (by simp) (by omega) (.inr (.inl hi))
  have ha : (v.put s 11 [a]).attr s = a := byte_put_self (j := 11) (i := 0) (by simp)
  have hc : (v.put s 11 [a]).firstCluster s = v.firstCluster s :=
    firstCluster_congr fun i hi h20 =>
      byte_put (by simp) (by omega) (.inr (.inr (by simp only [length_singleton]; omega)))
  rw [entry, hn, ha, hc]
  rfl

theorem markFree_self (v : Volume) (s : Slot) : ((v.markFree s).entry s).isFree := by
  have h : (v.markFree s).byte s 0 = 0xE5 := byte_put_self (j := 0) (i := 0) (by simp)
  rw [← isFree_eq, isFree, h]
  rfl

end Volume

/-! ### Short names -/

theorem padded_length (n : ℕ) (l : List UInt8) : (padded n l).length = n := by
  rw [padded, length_append, length_take, length_replicate]
  omega

theorem nameTo83_length (name : List UInt8) : (nameTo83 name).length = 11 := by
  rw [nameTo83]
  split
  · rfl
  · split
    · rfl
    · rw [length_append, padded_length, padded_length]

theorem upper_ne {c x : UInt8} (hx : x.toNat < 65) (h : c ≠ x) : upper c ≠ x := by
  rw [upper]
  split
  · next hc =>
    intro h0
    have h97 : 97 ≤ c.toNat := le_iff_toNat_le.mp hc.1
    have hsub := congrArg UInt8.toNat h0
    rw [UInt8.toNat_sub_of_le _ _ (by rw [UInt8.le_iff_toNat_le]; simp; omega)] at hsub
    simp at hsub
    omega
  · exact h

theorem zero_not_mem_padded (h : 0 ∉ l) : 0 ∉ padded n l := by
  rw [padded, mem_append]
  rintro (h0 | h0)
  · exact h (mem_of_mem_take h0)
  · cases eq_of_mem_replicate h0

theorem zero_not_mem_map_upper (h : 0 ∉ l) : 0 ∉ l.map upper := by
  intro h0
  obtain ⟨c, hc, hu⟩ := mem_map.mp h0
  exact upper_ne (x := 0) (by decide) (fun h1 => h (h1 ▸ hc)) hu

theorem zero_not_mem_nameTo83 (name : CString) : 0 ∉ nameTo83 name.val := by
  have hsub : ∀ l : List UInt8, l.Sublist name.val → 0 ∉ l := fun l hl h => name.property (hl.mem h)
  rw [nameTo83]
  split
  · decide
  split
  · decide
  rw [mem_append, not_or]
  exact ⟨zero_not_mem_padded (zero_not_mem_map_upper (hsub _ (takeWhile_sublist _))),
    zero_not_mem_padded (zero_not_mem_map_upper
      (hsub _ ((drop_sublist 1 _).trans (dropWhile_sublist _))))⟩

theorem headD_nameTo83_ne_zero (name : CString) : (nameTo83 name.val).headD 0 ≠ 0 := by
  have hlen := nameTo83_length name.val
  have h0 := zero_not_mem_nameTo83 name
  cases hn : nameTo83 name.val with
  | nil =>
    rw [hn] at hlen
    cases hlen
  | cons a l =>
    rw [hn] at h0
    exact fun h => h0 (h ▸ mem_cons_self)

theorem makeEntry_self (v : Volume) (s : Slot) (name : List UInt8) (attr : UInt8) :
    (v.makeEntry s name attr).entry s = ⟨nameTo83 name, attr, 0⟩ := by
  rw [Volume.makeEntry, setFirstCluster_self (by decide), setSize_entry,
    put_attr_self, put_name_self (nameTo83_length name)]

theorem makeEntry_other {v : Volume} {s t : Slot} (name : List UInt8) (attr : UInt8) (h : t ≠ s) :
    (v.makeEntry s name attr).entry t = v.entry t := by
  rw [Volume.makeEntry, setFirstCluster_other h, setSize_entry,
    put_other (by simp) h, put_other (by rw [nameTo83_length]; omega) h]

end TipOS.Fs
