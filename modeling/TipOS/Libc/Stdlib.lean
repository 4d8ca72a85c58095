import TipOS.Libc.Printf

/-!
# Numbers and text

`atoi` and `itoa` of `userland/libc/stdlib.c`.  `itoa` takes the absolute value in unsigned
arithmetic, and `atoi` multiplies with the sign at the end.  For the most negative number both wrap
around, and the number comes back all the same (`itoa_spec`).
-/

namespace TipOS.Libc

open List

/-- The loop that fills `tmp`, the last digit first. -/
def tmpDigits (u : ℕ) : List UInt8 :=
  UInt8.ofNat (48 + u % 10) :: if u / 10 = 0 then [] else tmpDigits (u / 10)
decreasing_by omega

/-- The bytes that `itoa` writes. -/
def itoa (n : BitVec 32) : List UInt8 :=
  if n.toInt < 0 then 45 :: ((tmpDigits (-n).toNat).reverse ++ [0])
  else (tmpDigits n.toNat).reverse ++ [0]

def atoiDigits (n : BitVec 32) : List UInt8 → BitVec 32
  | [] => n
  | b :: s => if 48 ≤ b ∧ b ≤ 57 then atoiDigits (n * 10 + BitVec.ofNat 32 (b.toNat - 48)) s else n

def atoi (s : List UInt8) : BitVec 32 :=
  match s.dropWhile (· = 32) with
  | 45 :: s => -1 * atoiDigits 0 s
  | 43 :: s => atoiDigits 0 s
  | s => atoiDigits 0 s

/-- The canonical text of a number. -/
def decimal (z : ℤ) : List UInt8 :=
  if z < 0 then 45 :: digits 10 z.natAbs else digits 10 z.natAbs

theorem digit_byte : ∀ d < 10, UInt8.ofNat (48 + d) = (Nat.digitChar d).toUInt8 ∧
    (48 ≤ UInt8.ofNat (48 + d) ∧ UInt8.ofNat (48 + d) ≤ 57) ∧
      (UInt8.ofNat (48 + d)).toNat - 48 = d := by decide

theorem tmpDigits_eq (u : ℕ) : (tmpDigits u).reverse = digits 10 u := by
  induction u using tmpDigits.induct with
  | _ u ih =>
    rw [tmpDigits, reverse_cons, (digit_byte _ (Nat.mod_lt u (by decide))).1]
    split
    · next h0 =>
      rw [digits, Nat.toDigits_of_lt_base (by omega), Nat.mod_eq_of_lt (by omega)]
      rfl
    · next h0 =>
      rw [ih h0, digits, digits, Nat.toDigits_of_base_le (n := u) (by decide) (by omega), map_append]
      rfl

theorem tmpDigits_head (u : ℕ) : ∃ b s, (tmpDigits u).reverse = b :: s ∧ 48 ≤ b := by
  induction u using tmpDigits.induct with
  | _ u ih =>
    rw [tmpDigits, reverse_cons]
    split
    · exact ⟨_, _, rfl, (digit_byte _ (Nat.mod_lt u (by decide))).2.1.1⟩
    · next h0 =>
      obtain ⟨b, s, he, hb⟩ := ih h0
      exact ⟨b, _, by rw [he]; rfl, hb⟩

/-- `atoi` takes the digits back in. -/
theorem atoiDigits_tmpDigits (u : ℕ) (s : List UInt8) :
    atoiDigits 0 ((tmpDigits u).reverse ++ s) = atoiDigits (BitVec.ofNat 32 u) s := by
  induction u using tmpDigits.induct generalizing s with
  | _ u ih =>
    obtain ⟨-, hr, hv⟩ := digit_byte _ (Nat.mod_lt u (by decide))
    have hstep : BitVec.ofNat 32 (u / 10) * 10 + BitVec.ofNat 32 (u % 10) = BitVec.ofNat 32 u := by
      conv_rhs => rw [← Nat.div_add_mod' u 10, BitVec.ofNat_add, BitVec.ofNat_mul]
      rfl
    have hdigits : atoiDigits 0 (((if u / 10 = 0 then [] else tmpDigits (u / 10)).reverse ++
        UInt8.ofNat (48 + u % 10) :: s)) = atoiDigits (BitVec.ofNat 32 (u / 10))
        (UInt8.ofNat (48 + u % 10) :: s) := by
      split
      · next h0 => rw [h0]; rfl
      · next h0 => exact ih h0 _
    rw [tmpDigits, reverse_cons, append_assoc, singleton_append, hdigits, atoiDigits, if_pos hr, hv,
      hstep]

/-- **A number written by `itoa` is read back by `atoi`.** -/
theorem itoa_spec (n : BitVec 32) : (itoa n).length ≤ 12 ∧ itoa n = decimal n.toInt ++ [0] ∧
    atoi (itoa n) = n := by
  have hlen : ∀ m : BitVec 32, (digits 10 m.toNat).length ≤ 10 := by
    intro m
    rw [digits, length_map, Nat.length_toDigits_le_iff (by decide) (by decide)]
    omega
  have hback : ∀ m : BitVec 32, atoiDigits 0 (digits 10 m.toNat ++ [0]) = m := by
    intro m
    rw [← tmpDigits_eq, atoiDigits_tmpDigits, BitVec.ofNat_toNat, BitVec.setWidth_eq]
    rfl
  have hn := n.isLt
  rw [itoa, decimal, tmpDigits_eq, tmpDigits_eq]
  by_cases h : n.toInt < 0
  · have habs : n.toInt.natAbs = (-n).toNat := by
      rw [BitVec.toInt_eq_toNat_cond] at h ⊢
      rw [BitVec.toNat_neg]
      split_ifs at h ⊢ <;> omega
    rw [if_pos h, if_pos h, habs]
    refine ⟨?_, rfl, ?_⟩
    · rw [length_cons, length_append]
      exact Nat.succ_le_succ (Nat.succ_le_succ (hlen (-n)))
    · change -1 * atoiDigits 0 _ = n
      rw [hback]
      exact (BitVec.neg_mul_neg 1 n).trans (BitVec.one_mul n)
  · have habs : n.toInt.natAbs = n.toNat := by
      rw [BitVec.toInt_eq_toNat_cond] at h ⊢
      split_ifs at h ⊢ <;> omega
    rw [if_neg h, if_neg h, habs]
    refine ⟨?_, rfl, ?_⟩
    · rw [length_append]
      exact Nat.le_trans (Nat.succ_le_succ (hlen n)) (by decide)
    -- the first digit is no space and no sign
    have hb := hback n
    obtain ⟨b, s, he, h48⟩ := tmpDigits_head n.toNat
    have hne : b ≠ 32 ∧ b ≠ 45 ∧ b ≠ 43 := by
      refine ⟨?_, ?_, ?_⟩ <;> rintro rfl <;> revert h48 <;> decide
    rw [← tmpDigits_eq, he, cons_append] at hb ⊢
    rw [atoi, dropWhile_cons_of_neg (by simpa using hne.1)]
    split
    · next hs => exact absurd (cons.inj hs).1 hne.2.1
    · next hs => exact absurd (cons.inj hs).1 hne.2.2
    · exact hb

end TipOS.Libc
