import Mathlib.Data.List.Nodup
import Mathlib.Tactic.Ring

/-!
# Registers on a stack

A machine with registers `R`, a stack pointer and a memory of words, each word
`w` addresses long.  `pushAll` and `popAll` push and pop registers in the order
of a list.  `pushAll_mem` says which register a word of the pushed block holds
and `popAll_reg` which word a popped register gets, so that the agreement of a
push order with a pop order is an equation between two lists.
-/

namespace TipOS.Lib

open Function List

/-- Registers, stack pointer and memory. -/
structure Cpu (R V : Type*) where
  reg : R → V
  sp : ℕ
  mem : ℕ → V

namespace Cpu

variable {R V : Type*} [DecidableEq R] {w : ℕ} {c : Cpu R V} {r : R} {rs : List R}

/-- Store a word. -/
def poke (c : Cpu R V) (a : ℕ) (v : V) : Cpu R V := { c with mem := update c.mem a v }

def push (w : ℕ) (c : Cpu R V) (r : R) : Cpu R V :=
  { c.poke (c.sp - w) (c.reg r) with sp := c.sp - w }

def pop (w : ℕ) (c : Cpu R V) (r : R) : Cpu R V :=
  { c with reg := update c.reg r (c.mem c.sp), sp := c.sp + w }

def pushAll (w : ℕ) (rs : List R) (c : Cpu R V) : Cpu R V := rs.foldl (push w) c

def popAll (w : ℕ) (rs : List R) (c : Cpu R V) : Cpu R V := rs.foldl (pop w) c

/-! ### Pushing -/

omit [DecidableEq R] in
theorem pushAll_sp (rs : List R) (c : Cpu R V) : (pushAll w rs c).sp = c.sp - w * rs.length := by
  induction rs generalizing c with
  | nil => simp [pushAll]
  | cons r rs ih =>
    refine (ih _).trans ?_
    simp only [push, poke, length_cons, Nat.mul_succ]
    omega

omit [DecidableEq R] in
theorem pushAll_mem_above (hw : 0 < w) (rs : List R) (c : Cpu R V) {a : ℕ} (ha : c.sp ≤ a)
    (hs : w * rs.length ≤ c.sp) : (pushAll w rs c).mem a = c.mem a := by
  induction rs generalizing c with
  | nil => rfl
  | cons r rs ih =>
    rw [length_cons, Nat.mul_succ] at hs
    refine (ih _ (by simp only [push, poke]; omega) (by simp only [push, poke]; omega)).trans ?_
    exact update_of_ne (by omega) _ _

omit [DecidableEq R] in
/-- **The words of the pushed block**, from the lowest on, hold the registers in reverse order. -/
theorem pushAll_mem (hw : 0 < w) (rs : List R) (c : Cpu R V) (hs : w * rs.length ≤ c.sp) {i : ℕ}
    (hi : rs.reverse[i]? = some r) :
    (pushAll w rs c).mem (c.sp - w * rs.length + w * i) = c.reg r := by
  induction rs generalizing c with
  | nil => simp at hi
  | cons x rs ih =>
    rw [length_cons, Nat.mul_succ] at hs
    rw [length_cons, Nat.mul_succ]
    rw [reverse_cons] at hi
    rcases lt_or_ge i rs.length with hlt | hge
    · rw [getElem?_append_left (by simpa using hlt)] at hi
      have h := ih (push w c x) (by simp only [push, poke]; omega) hi
      have ha : (push w c x).sp - w * rs.length = c.sp - (w * rs.length + w) := by
        simp only [push, poke]
        omega
      rwa [ha] at h
    -- the register pushed first is in the highest word
    rw [getElem?_append_right (by simpa using hge), length_reverse] at hi
    obtain ⟨h0, rfl⟩ : i - rs.length = 0 ∧ x = r := by
      rw [getElem?_singleton] at hi
      split at hi <;> simp_all
    obtain rfl : i = rs.length := by omega
    rw [show c.sp - (w * rs.length + w) + w * rs.length = c.sp - w by omega]
    refine (pushAll_mem_above hw rs _ le_rfl (by simp only [push, poke]; omega)).trans ?_
    simp [push, poke]

/-! ### Popping -/

@[simp] theorem popAll_mem (rs : List R) (c : Cpu R V) : (popAll w rs c).mem = c.mem := by
  induction rs generalizing c with
  | nil => rfl
  | cons r rs ih => exact ih _

theorem popAll_sp (rs : List R) (c : Cpu R V) : (popAll w rs c).sp = c.sp + w * rs.length := by
  induction rs generalizing c with
  | nil => simp [popAll]
  | cons r rs ih =>
    refine (ih _).trans ?_
    simp only [pop, length_cons, Nat.mul_succ]
    omega

theorem popAll_reg_of_not_mem (rs : List R) (c : Cpu R V) (hr : r ∉ rs) :
    (popAll w rs c).reg r = c.reg r := by
  induction rs generalizing c with
  | nil => rfl
  | cons x rs ih =>
    rw [mem_cons, not_or] at hr
    exact (ih _ hr.2).trans (update_of_ne hr.1 _ _)

/-- **The `i`-th popped register gets the `i`-th word.** -/
theorem popAll_reg (rs : List R) (c : Cpu R V) (hn : rs.Nodup) {i : ℕ} (hi : rs[i]? = some r) :
    (popAll w rs c).reg r = c.mem (c.sp + w * i) := by
  induction rs generalizing c i with
  | nil => simp at hi
  | cons x rs ih =>
    obtain ⟨hx, hn⟩ := nodup_cons.mp hn
    cases i with
    | zero =>
      obtain rfl : x = r := by simpa using hi
      refine (popAll_reg_of_not_mem rs _ hx).trans ?_
      simp [pop]
    | succ i =>
      refine (ih (pop w c x) hn (by simpa using hi)).trans ?_
      simp only [pop]
      congr 1
      ring

end Cpu

end TipOS.Lib
