import Mathlib.Data.FinEnum

/-!
# Random bytes

`SYS_getrandom` takes its bytes from a word that it keeps between the calls.  Xor-ing a word with
itself shifted loses nothing, since the bits can be read back from the end that the shift fills
with zeros.  So the states form cycles, and zero is a cycle of its own (`getrandom_states`).
-/

namespace TipOS.Io

open Function

/-- One turn of the loop. -/
def xorshift (x : BitVec 64) : BitVec 64 :=
  let x := x ^^^ x <<< 13
  let x := x ^^^ x >>> 7
  x ^^^ x <<< 17

/-- The bytes of the loop and the state behind it. -/
def randomBytes : ℕ → BitVec 64 → List UInt8 × BitVec 64
  | 0, x => ([], x)
  | n + 1, x =>
    let x := xorshift x
    let r := randomBytes n x
    (UInt8.ofNat x.toNat :: r.1, r.2)

/-- `SYS_getrandom`: the result, the bytes written and the next state. -/
def getrandom (buf len : ℕ) (x : BitVec 64) : ℤ × List UInt8 × BitVec 64 :=
  if buf = 0 ∨ len = 0 then (0, [], x) else ((BitVec.ofNat 32 len).toInt, randomBytes len x)

def seed : BitVec 64 := 0x9E3779B97F4A7C15

/-- The state after some calls. -/
def randomState (calls : List (ℕ × ℕ)) : BitVec 64 :=
  calls.foldl (fun x c => (getrandom c.1 c.2 x).2.2) seed

section Shifts

variable {w k : ℕ} (hk : 0 < k)

include hk

theorem xor_shiftLeft_injective : Injective fun x : BitVec w => x ^^^ x <<< k := by
  intro x y h
  refine BitVec.eq_of_getLsbD_eq fun i hi => ?_
  induction i using Nat.strong_induction_on with
  | _ i ih =>
    have hbit := congrArg (BitVec.getLsbD · i) h
    simp only [BitVec.getLsbD_xor, BitVec.getLsbD_shiftLeft, hi, decide_true, Bool.true_and] at hbit
    by_cases hik : i < k
    · simpa [hik] using hbit
    · rw [ih (i - k) (by omega) (by omega)] at hbit
      simpa using hbit

theorem xor_shiftRight_injective : Injective fun x : BitVec w => x ^^^ x >>> k := by
  intro x y h
  refine BitVec.eq_of_getLsbD_eq fun i hi => ?_
  -- from the highest bit down
  induction hn : w - i using Nat.strong_induction_on generalizing i with
  | _ n ih =>
    have hbit := congrArg (BitVec.getLsbD · i) h
    simp only [BitVec.getLsbD_xor, BitVec.getLsbD_ushiftRight] at hbit
    by_cases hik : k + i < w
    · rw [ih _ (by omega) (k + i) hik rfl] at hbit
      simpa using hbit
    · rw [BitVec.getLsbD_of_ge x (k + i) (by omega),
        BitVec.getLsbD_of_ge y (k + i) (by omega)] at hbit
      simpa using hbit

end Shifts

theorem xorshift_injective : Injective xorshift :=
  (xor_shiftLeft_injective (by decide)).comp
    ((xor_shiftRight_injective (by decide)).comp (xor_shiftLeft_injective (by decide)))

theorem xorshift_eq_zero_iff (x : BitVec 64) : xorshift x = 0 ↔ x = 0 :=
  xorshift_injective.eq_iff (b := 0)

theorem randomBytes_ne_zero (n : ℕ) {x : BitVec 64} (hx : x ≠ 0) : (randomBytes n x).2 ≠ 0 := by
  induction n generalizing x with
  | zero => exact hx
  | succ n ih => exact ih fun h => hx ((xorshift_eq_zero_iff x).mp h)

theorem randomState_ne_zero (calls : List (ℕ × ℕ)) : randomState calls ≠ 0 := by
  induction calls using List.reverseRecOn with
  | nil => decide
  | append_singleton calls c ih =>
    rw [randomState, List.foldl_append]
    dsimp only [List.foldl, getrandom]
    split
    · exact ih
    · exact randomBytes_ne_zero _ ih

/-- **The update is a bijection that fixes zero, so no sequence of calls makes the state zero.** -/
theorem getrandom_states : Bijective xorshift ∧ (∀ x, xorshift x = 0 ↔ x = 0) ∧
    ∀ calls, randomState calls ≠ 0 ∧ ∃! x, xorshift x = randomState calls := by
  have hb : Bijective xorshift := Finite.injective_iff_bijective.mp xorshift_injective
  exact ⟨hb, xorshift_eq_zero_iff, fun calls => ⟨randomState_ne_zero calls, hb.existsUnique _⟩⟩

end TipOS.Io
