import TipOS.Paging.Tables

/-!
# Entries of tables

What a write to one entry does to the others, and the bits of the two kinds of entries the
kernel makes: a pointer to a table, `pt | 0x07`, and a piece of a 2 MB entry, `splitEntry`.
-/

namespace TipOS.Paging

open Lib Nat

variable {m : Mem} {t t' i i' e x f n va : ℕ}

/-! ### Reading and writing -/

theorem entry_setEntry_self (m : Mem) (t i e : ℕ) : entry (setEntry m t i e) t i = e % 2 ^ 64 :=
  Mem.load_store m (t + 8 * i) 8 e

theorem entry_setEntry_of_ne (ht : t % 4096 = 0) (ht' : t' % 4096 = 0) (hi : i < 512) (hi' : i' < 512)
    (hne : t' ≠ t ∨ i' ≠ i) : entry (setEntry m t i e) t' i' = entry m t' i' :=
  Mem.load_store_of_disjoint (by omega)

theorem setEntry_apply_of_ne (ht : t % 4096 = 0) (hi : i < 512) (hx : x / 4096 * 4096 ≠ t) :
    setEntry m t i e x = m x :=
  Mem.store_apply_of_not_mem (by omega)

theorem fill_apply_of_ne (hf : f % 4096 = 0) (hx : x / 4096 * 4096 ≠ f) {b : UInt8} :
    m.fill f 4096 b x = m x :=
  Mem.fill_apply_of_not_mem (by omega)

theorem entry_congr {m' : Mem} (ht : t % 4096 = 0) (hi : i < 512)
    (h : ∀ x, x / 4096 * 4096 = t → m' x = m x) : entry m' t i = entry m t i :=
  Mem.load_congr 8 _ fun x h1 h2 => h x (by omega)

theorem entry_zero (t i : ℕ) : entry (fun _ => 0) t i = 0 := by
  simp [entry, Mem.load]

theorem entry_lt (m : Mem) (t i : ℕ) : entry m t i < 2 ^ 64 := Mem.load_lt m 8 _

/-! ### Frames in entries -/

theorem frameOf_mod (e : ℕ) : frameOf e % 4096 = 0 := by
  rw [frameOf]
  omega

theorem tableOf_eq_frameOf (h : e < 2 ^ 52) : tableOf e = frameOf e := by
  rw [tableOf, frameOf, mod_eq_of_lt h]

theorem isPresent_of_isUserPresent (h : isUserPresent e) : isPresent e := by
  rw [isUserPresent, Bool.and_eq_true] at h
  exact h.1

/-! ### Pointers to tables -/

section

variable (hf : f % 4096 = 0)

include hf

theorem or_seven : f ||| 0x07 = f + 7 := by
  have h := two_pow_add_eq_or_of_lt (i := 12) (b := 7) (by simp) (f / 4096)
  rw [show (2 : ℕ) ^ 12 * (f / 4096) = f by omega] at h
  exact h.symm

theorem frameOf_pointer (hlt : f < 2 ^ 52) : frameOf (f + 7) = f := by
  rw [frameOf]
  omega

theorem isUserPresent_pointer : isUserPresent (f + 7) := by
  simp only [isUserPresent, isPresent, isUser, testBit_eq_decide_div_mod_eq, Bool.and_eq_true,
    decide_eq_true_eq]
  omega

theorem isPresent_pointer : isPresent (f + 7) :=
  isPresent_of_isUserPresent (isUserPresent_pointer hf)

theorem isHuge_pointer : isHuge (f + 7) = false := by
  simp only [isHuge, testBit_eq_decide_div_mod_eq, decide_eq_false_iff_not]
  omega

theorem rightsOf_pointer (hlt : f < 2 ^ 52) :
    rightsOf (f + 7) = ⟨true, true, false⟩ := by
  have hw : isWritable (f + 7) := by
    simp only [isWritable, testBit_eq_decide_div_mod_eq, decide_eq_true_eq]
    omega
  have hu : isUser (f + 7) := by
    simp only [isUser, testBit_eq_decide_div_mod_eq, decide_eq_true_eq]
    omega
  have hx : isNx (f + 7) = false := by
    simp only [isNx, testBit_eq_decide_div_mod_eq, decide_eq_false_iff_not]
    omega
  rw [rightsOf, hw, hu, hx]

end

/-! ### Pieces of a 2 MB entry -/

theorem splitEntry_eq (e n : ℕ) :
    splitEntry e n = e / 2 ^ 21 * 2 ^ 21 + n * 0x1000 + (e &&& 0x17F) := by
  have hflags : e &&& 0x17F < 2 ^ 12 := lt_of_le_of_lt and_le_right (by simp)
  have h := two_pow_add_eq_or_of_lt hflags (e / 2 ^ 21 * 2 ^ 9 + n)
  rw [splitEntry, show e / 2 ^ 21 * 2 ^ 21 + n * 0x1000 = 2 ^ 12 * (e / 2 ^ 21 * 2 ^ 9 + n) by ring]
  exact h.symm

theorem testBit_splitEntry_low (e n : ℕ) {b : ℕ} (hb : b < 12) :
    (splitEntry e n).testBit b = (e.testBit b && (0x17F : ℕ).testBit b) := by
  have hbase : e / 2 ^ 21 * 2 ^ 21 + n * 0x1000 = 2 ^ 12 * (e / 2 ^ 21 * 2 ^ 9 + n) := by ring
  rw [splitEntry, hbase, testBit_or, testBit_two_pow_mul, testBit_and]
  simp [not_le.mpr hb]

theorem frameOf_splitEntry (e : ℕ) (hn : n < 512) :
    frameOf (splitEntry e n) = e % 2 ^ 52 / 2 ^ 21 * 2 ^ 21 + n * 2 ^ 12 := by
  have hflags : e &&& 0x17F < 2 ^ 12 := lt_of_le_of_lt and_le_right (by simp)
  rw [frameOf, splitEntry_eq]
  omega

theorem isPresent_splitEntry (e n : ℕ) : isPresent (splitEntry e n) = isPresent e := by
  rw [isPresent, testBit_splitEntry_low e n (by simp), isPresent]
  simp [show (0x17F : ℕ).testBit 0 = true by decide]

theorem rightsOf_splitEntry (e : ℕ) (hn : n < 512) :
    rightsOf (splitEntry e n) = rightsOf e := by
  have hw : isWritable (splitEntry e n) = isWritable e := by
    rw [isWritable, testBit_splitEntry_low e n (by simp), isWritable]
    simp [show (0x17F : ℕ).testBit 1 = true by decide]
  have hu : isUser (splitEntry e n) = isUser e := by
    rw [isUser, testBit_splitEntry_low e n (by simp), isUser]
    simp [show (0x17F : ℕ).testBit 2 = true by decide]
  have hx : isNx (splitEntry e n) = isNx e := by
    have hflags : e &&& 0x17F < 2 ^ 12 := lt_of_le_of_lt and_le_right (by simp)
    have hdiv : splitEntry e n / 2 ^ 63 = e / 2 ^ 63 := by
      rw [splitEntry_eq]
      omega
    rw [isNx, isNx, testBit_eq_decide_div_mod_eq, testBit_eq_decide_div_mod_eq, hdiv]
  rw [rightsOf, rightsOf, hw, hu, hx]

theorem splitEntry_lt (he : e < 2 ^ 64) (hn : n < 512) : splitEntry e n < 2 ^ 64 := by
  have hflags : e &&& 0x17F < 2 ^ 12 := lt_of_le_of_lt and_le_right (by simp)
  rw [splitEntry_eq]
  omega

/-! ### Indices -/

theorem pml4Idx_lt (va : ℕ) : pml4Idx va < 512 := mod_lt _ (by simp)
theorem pdptIdx_lt (va : ℕ) : pdptIdx va < 512 := mod_lt _ (by simp)
theorem pdIdx_lt (va : ℕ) : pdIdx va < 512 := mod_lt _ (by simp)
theorem ptIdx_lt (va : ℕ) : ptIdx va < 512 := mod_lt _ (by simp)

/-- The address of page `n` below the entries `i`, `j` and `k`. -/
def pageAddr (i j k n : ℕ) : ℕ := i * 2 ^ 39 + j * 2 ^ 30 + k * 2 ^ 21 + n * 2 ^ 12

theorem idx_pageAddr {i j k n : ℕ} (hi : i < 512) (hj : j < 512) (hk : k < 512) (hn : n < 512) :
    pml4Idx (pageAddr i j k n) = i ∧ pdptIdx (pageAddr i j k n) = j ∧
    pdIdx (pageAddr i j k n) = k ∧ ptIdx (pageAddr i j k n) = n := by
  simp only [pml4Idx, pdptIdx, pdIdx, ptIdx, pageAddr]
  omega

theorem idx_hugeDown (va : ℕ) : pml4Idx (hugeDown va) = pml4Idx va ∧
    pdptIdx (hugeDown va) = pdptIdx va ∧ pdIdx (hugeDown va) = pdIdx va := by
  simp only [pml4Idx, pdptIdx, pdIdx, hugeDown]
  omega

end TipOS.Paging
