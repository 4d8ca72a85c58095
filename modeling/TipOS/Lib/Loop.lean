import Mathlib.Data.Nat.Notation

/-!
# Counted loops

`forLoop f n s` is `for (i = 0; i < n; i++) s = f(i, s)`.  An invariant may mention the
counter (`forLoop_induct`) or not (`forLoop_inv`).

`downLoop f n s` is `for (i = n - 1; i >= 0; i--) s = f(i, s)`.

`tryLoop f l s` is a loop over a list whose bodies can fail; it ends with the first that does.
An invariant of the runs that do not fail may mention what has been done (`tryLoop_induct`).
-/

namespace TipOS.Lib

open Nat

variable {σ : Type*} {f : ℕ → σ → σ} {n : ℕ} {s : σ}

/-- Run the bodies `0, …, n - 1` in this order. -/
def forLoop (f : ℕ → σ → σ) : ℕ → σ → σ
  | 0, s => s
  | n + 1, s => f n (forLoop f n s)

/-- **The rule for counted loops**, with an invariant that mentions the counter. -/
theorem forLoop_induct (P : ℕ → σ → Prop) (h0 : P 0 s)
    (hs : ∀ i < n, ∀ t, P i t → P (i + 1) (f i t)) : P n (forLoop f n s) := by
  induction n with
  | zero => exact h0
  | succ n ih => exact hs n (lt_succ_self n) _ (ih fun i hi => hs i (lt_succ_of_lt hi))

theorem forLoop_inv (P : σ → Prop) (h0 : P s) (hs : ∀ i < n, ∀ t, P t → P (f i t)) :
    P (forLoop f n s) :=
  forLoop_induct (fun _ t => P t) h0 hs

theorem forLoop_fixed (h : ∀ i < n, f i s = s) : forLoop f n s = s :=
  forLoop_inv (· = s) rfl fun i hi t ht => by rw [ht, h i hi]

theorem forLoop_first (P Q : σ → Prop) {j : ℕ} (hj : j < n) (h0 : P s)
    (hs : ∀ i < j, ∀ t, P t → P (f i t)) (hit : ∀ t, P t → Q (f j t))
    (hkeep : ∀ i < n, ∀ t, Q t → Q (f i t)) : Q (forLoop f n s) := by
  have hall := forLoop_induct (f := f) (n := n) (fun i t => (i ≤ j → P t) ∧ (j < i → Q t))
    ⟨fun _ => h0, fun h => absurd h (not_lt_zero j)⟩
    fun i hi t ht => ⟨fun hle => hs i hle t (ht.1 (le_of_succ_le hle)), fun hlt => ?_⟩
  · exact hall.2 hj
  · rcases Nat.lt_succ_iff_lt_or_eq.mp hlt with hlt | rfl
    · exact hkeep i hi t (ht.2 hlt)
    · exact hit t (ht.1 (Nat.le_refl _))

theorem forLoop_hits (P Q : σ → Prop) {j : ℕ} (hj : j < n) (h0 : P s)
    (hs : ∀ i < n, ∀ t, P t → P (f i t)) (hit : ∀ t, P t → Q (f j t))
    (hkeep : ∀ i < n, ∀ t, Q t → Q (f i t)) : Q (forLoop f n s) :=
  forLoop_first P Q hj h0 (fun i hi => hs i (Nat.lt_trans hi hj)) hit hkeep

/-- Run the bodies `n - 1, …, 0` in this order. -/
def downLoop (f : ℕ → σ → σ) : ℕ → σ → σ
  | 0, s => s
  | n + 1, s => downLoop f n (f n s)

/-- **The rule for loops that count down.** -/
theorem downLoop_induct (P : ℕ → σ → Prop) (hn : P n s)
    (hs : ∀ i < n, ∀ t, P (i + 1) t → P i (f i t)) : P 0 (downLoop f n s) := by
  induction n generalizing s with
  | zero => exact hn
  | succ n ih =>
    exact ih (hs n (lt_succ_self n) s hn) fun i hi => hs i (lt_succ_of_lt hi)

variable {α : Type*} {g : α → σ → Bool × σ} {l : List α}

/-- Run the bodies of a list in its order, until one fails. -/
def tryLoop (g : α → σ → Bool × σ) : List α → σ → Bool × σ
  | [], s => (true, s)
  | a :: l, s => if (g a s).1 = true then tryLoop g l (g a s).2 else g a s

theorem tryLoop_cons_ok {a : α} (h : (tryLoop g (a :: l) s).1) :
    (g a s).1 ∧ tryLoop g (a :: l) s = tryLoop g l (g a s).2 := by
  by_cases hg : (g a s).1
  · exact ⟨hg, if_pos hg⟩
  · rw [tryLoop, if_neg hg] at h
    exact absurd h hg

/-- **The rule for loops that can fail**: what the bodies that succeed do to a property of the
part done is what the loop does when it succeeds. -/
theorem tryLoop_induct (P : List α → σ → Prop) (h0 : P [] s)
    (hs : ∀ l1 a l2 t, l = l1 ++ a :: l2 → P l1 t → (g a t).1 → P (l1 ++ [a]) (g a t).2)
    (hok : (tryLoop g l s).1) : P l (tryLoop g l s).2 := by
  have hall : ∀ l2 l1 t, l = l1 ++ l2 → P l1 t → (tryLoop g l2 t).1 →
      P l (tryLoop g l2 t).2 := by
    intro l2
    induction l2 with
    | nil =>
      intro l1 t hl hP _
      rw [hl, List.append_nil]
      exact hP
    | cons a l2 ih =>
      intro l1 t hl hP hok
      obtain ⟨hg, he⟩ := tryLoop_cons_ok hok
      rw [he] at hok ⊢
      exact ih (l1 ++ [a]) _ (by rw [hl, List.append_assoc]; rfl) (hs l1 a l2 t hl hP hg) hok
  exact hall l [] s rfl h0 hok

theorem tryLoop_inv (P : σ → Prop) (h0 : P s) (hs : ∀ a ∈ l, ∀ t, P t → P (g a t).2) :
    P (tryLoop g l s).2 := by
  induction l generalizing s with
  | nil => exact h0
  | cons a l ih =>
    have ha := hs a (.head _) s h0
    rw [tryLoop]
    split
    · exact ih ha fun b hb => hs b (List.mem_cons_of_mem a hb)
    · exact ha

-- a loop with a large bound must not be unfolded by accident
attribute [irreducible] forLoop tryLoop

end TipOS.Lib
