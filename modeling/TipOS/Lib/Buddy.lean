import Mathlib.Data.Nat.Bitwise
import Mathlib.Tactic.Ring

/-!
# Buddy decompositions

`2 ^ N` frames are cut into blocks of sizes `2 ^ o`, each aligned to its own size.  A
block is named by its order `o` and its number `k`: it holds the frames `f` with
`f / 2 ^ o = k`, its first frame is `k * 2 ^ o`, the block it was split from is
`(o + 1, k / 2)` and its buddy is `(o, k ^^^ 1)`.

`Tiling N S` says that the blocks `S` cover every frame exactly once, and `Blocks N α`
is a tiling whose blocks are marked free or used; a value of it cannot be anything
else.  Blocks change in three ways, `Blocks.set`, `Blocks.split` and `Blocks.merge`.

By `Tiling.buddy_head`, looking at one frame is enough to know whether a buddy is whole.
Where no free block has a free buddy (`Coalesced`), the free blocks are determined by the
free frames.
-/

namespace TipOS.Lib

open Nat

/-! ### Block numbers -/

theorem xor_one_div_two (k : ℕ) : (k ^^^ 1) / 2 = k / 2 := by
  rcases even_or_odd k with h | h
  · rw [xor_one_of_even h]
    obtain ⟨m, rfl⟩ := h
    omega
  · rw [xor_one_of_odd h]
    obtain ⟨m, rfl⟩ := h
    omega

theorem div_two_eq_iff {k k' : ℕ} : k' / 2 = k / 2 ↔ k' = k ∨ k' = k ^^^ 1 := by
  constructor
  · intro h
    rcases even_or_odd k with he | ho
    · rw [xor_one_of_even he]
      obtain ⟨m, rfl⟩ := he
      omega
    · rw [xor_one_of_odd ho]
      obtain ⟨m, rfl⟩ := ho
      omega
  · rintro (rfl | rfl)
    · rfl
    · exact xor_one_div_two k

theorem xor_one_ne (k : ℕ) : k ^^^ 1 ≠ k := by
  rcases even_or_odd k with h | h
  · rw [xor_one_of_even h]; omega
  · rw [xor_one_of_odd h]
    obtain ⟨m, rfl⟩ := h
    omega

@[simp] theorem xor_one_xor_one (k : ℕ) : k ^^^ 1 ^^^ 1 = k := by
  rw [Nat.xor_assoc, Nat.xor_self, Nat.xor_zero]

theorem mul_two_pow_xor (k o : ℕ) : (k * 2 ^ o) ^^^ 2 ^ o = (k ^^^ 1) * 2 ^ o := by
  have h := Nat.shiftLeft_xor_distrib (a := k) (b := 1) (i := o)
  rw [shiftLeft_eq, shiftLeft_eq, shiftLeft_eq, one_mul] at h
  exact h.symm

theorem lower_head (k o : ℕ) :
    (if k * 2 ^ o < (k ^^^ 1) * 2 ^ o then k * 2 ^ o else (k ^^^ 1) * 2 ^ o) =
      k / 2 * 2 ^ (o + 1) := by
  have hp := Nat.two_pow_pos o
  rw [pow_succ]
  rcases Nat.even_or_odd k with h | h
  · rw [xor_one_of_even h]
    obtain ⟨m, rfl⟩ := h
    rw [if_pos ((Nat.mul_lt_mul_right hp).mpr (by omega)), show (m + m) / 2 = m by omega]
    ring
  rw [xor_one_of_odd h]
  obtain ⟨m, rfl⟩ := h
  rw [if_neg (fun hlt => by have := (Nat.mul_lt_mul_right hp).mp hlt; omega),
    Nat.add_sub_cancel, show (2 * m + 1) / 2 = m by omega]
  ring

theorem div_two_pow_succ (f o : ℕ) : f / 2 ^ (o + 1) = f / 2 ^ o / 2 := by
  rw [Nat.div_div_eq_div_mul, pow_succ]

theorem div_two_pow_add (f o d : ℕ) : f / 2 ^ (o + d) = f / 2 ^ o / 2 ^ d := by
  rw [Nat.div_div_eq_div_mul, pow_add]

theorem mul_two_pow_div (k o : ℕ) : k * 2 ^ o / 2 ^ o = k :=
  Nat.mul_div_cancel _ (Nat.two_pow_pos o)

theorem div_eq_of_le {f g o o' : ℕ} (h : f / 2 ^ o = g / 2 ^ o) (ho : o ≤ o') :
    f / 2 ^ o' = g / 2 ^ o' := by
  obtain ⟨d, rfl⟩ := Nat.exists_eq_add_of_le ho
  rw [div_two_pow_add, div_two_pow_add, h]

/-! ### Tilings -/

/-- The blocks `S` cover the `2 ^ N` frames, each exactly once. -/
structure Tiling (N : ℕ) (S : ℕ → ℕ → Prop) : Prop where
  le : ∀ {o k}, S o k → o ≤ N
  lt : ∀ {o k}, S o k → k < 2 ^ (N - o)
  cover : ∀ {f}, f < 2 ^ N → ∃ o, S o (f / 2 ^ o)
  unique : ∀ {f o o'}, S o (f / 2 ^ o) → S o' (f / 2 ^ o') → o = o'

namespace Tiling

variable {N : ℕ} {S S' : ℕ → ℕ → Prop} {o k : ℕ}

section

variable (h : Tiling N S)

include h

theorem end_le (hk : S o k) : (k + 1) * 2 ^ o ≤ 2 ^ N := by
  have h1 : k + 1 ≤ 2 ^ (N - o) := h.lt hk
  calc (k + 1) * 2 ^ o ≤ 2 ^ (N - o) * 2 ^ o := mul_le_mul_right _ h1
    _ = 2 ^ N := by rw [← pow_add, Nat.sub_add_cancel (h.le hk)]

theorem head_lt (hk : S o k) : k * 2 ^ o < 2 ^ N := by
  have := h.end_le hk
  have hp := Nat.two_pow_pos o
  rw [Nat.add_mul, one_mul] at this
  omega

theorem eq_of_head {o' k' : ℕ} (hk : S o k) (hk' : S o' k') (he : k * 2 ^ o = k' * 2 ^ o') :
    o = o' ∧ k = k' := by
  have h1 : S o (k * 2 ^ o / 2 ^ o) := by rwa [mul_two_pow_div]
  have h2 : S o' (k * 2 ^ o / 2 ^ o') := by rwa [he, mul_two_pow_div]
  obtain rfl := h.unique h1 h2
  exact ⟨rfl, Nat.eq_of_mul_eq_mul_right (Nat.two_pow_pos o) he⟩

/-- **The first frame of a buddy is the first frame of a block**, of the same order or
a smaller one: a larger block around it would hold the block `(o, k)` as well. -/
theorem buddy_head (hk : S o k) (ho : o < N) :
    ∃ o' ≤ o, ∃ k', S o' k' ∧ (k ^^^ 1) * 2 ^ o = k' * 2 ^ o' := by
  have hlt : (k ^^^ 1) * 2 ^ o < 2 ^ N := by
    have h1 := h.lt hk
    have h2 : (k ^^^ 1) / 2 < 2 ^ (N - o - 1) := by
      rw [xor_one_div_two, div_lt_iff_lt_mul (by decide), ← pow_succ]
      rwa [Nat.sub_add_cancel (by omega)]
    have h3 : k ^^^ 1 < 2 ^ (N - o) := by
      rw [Nat.div_lt_iff_lt_mul (by decide), ← pow_succ, Nat.sub_add_cancel (by omega)] at h2
      exact h2
    calc (k ^^^ 1) * 2 ^ o < 2 ^ (N - o) * 2 ^ o := Nat.mul_lt_mul_of_pos_right h3 (Nat.two_pow_pos o)
      _ = 2 ^ N := by rw [← pow_add, Nat.sub_add_cancel ho.le]
  obtain ⟨o', ho'⟩ := h.cover hlt
  by_cases hle : o' ≤ o
  · refine ⟨o', hle, _, ho', ?_⟩
    obtain ⟨d, rfl⟩ := Nat.exists_eq_add_of_le hle
    rw [Nat.div_mul_cancel]
    exact ⟨(k ^^^ 1) * 2 ^ d, by rw [pow_add]; ring⟩
  have hsame : (k ^^^ 1) * 2 ^ o / 2 ^ (o + 1) = k * 2 ^ o / 2 ^ (o + 1) := by
    rw [div_two_pow_succ, div_two_pow_succ, mul_two_pow_div, mul_two_pow_div, xor_one_div_two]
  rw [div_eq_of_le hsame (by omega : o + 1 ≤ o')] at ho'
  have := h.unique (f := k * 2 ^ o) (o := o) (by rwa [mul_two_pow_div]) ho'
  omega

/-- Some blocks give way to blocks of order `o` over the same frames. -/
theorem replace {P : ℕ → ℕ → Prop} {Q : ℕ → Prop} (ho : o ≤ N) (hlt : ∀ k, Q k → k < 2 ^ (N - o))
    (hPQ : ∀ {f o'}, S o' (f / 2 ^ o') → (P o' (f / 2 ^ o') ↔ Q (f / 2 ^ o)))
    (hS : ∀ o' k', S' o' k' ↔ (S o' k' ∧ ¬ P o' k') ∨ (o' = o ∧ Q k')) : Tiling N S' := by
  refine ⟨fun {o' k'} hs => ?_, fun {o' k'} hs => ?_, fun {f} hf => ?_, fun {f o1 o2} h1 h2 => ?_⟩
  · rcases (hS _ _).mp hs with ⟨hs, _⟩ | ⟨rfl, _⟩
    · exact h.le hs
    · exact ho
  · rcases (hS _ _).mp hs with ⟨hs, _⟩ | ⟨rfl, hq⟩
    · exact h.lt hs
    · exact hlt k' hq
  · obtain ⟨o1, h1⟩ := h.cover hf
    by_cases hc : P o1 (f / 2 ^ o1)
    · exact ⟨o, (hS _ _).mpr (.inr ⟨rfl, (hPQ h1).mp hc⟩)⟩
    · exact ⟨o1, (hS _ _).mpr (.inl ⟨h1, hc⟩)⟩
  · rcases (hS _ _).mp h1 with h1 | ⟨rfl, h1⟩ <;> rcases (hS _ _).mp h2 with h2 | ⟨rfl, h2⟩
    · exact h.unique h1.1 h2.1
    · exact absurd ((hPQ h1.1).mpr h2) h1.2
    · exact absurd ((hPQ h2.1).mpr h1) h2.2
    · rfl

/-- **Splitting a block in two.** -/
theorem split (hk : S (o + 1) k)
    (hS : ∀ o' k', S' o' k' ↔ (S o' k' ∧ ¬ (o' = o + 1 ∧ k' = k)) ∨ (o' = o ∧ k' / 2 = k)) :
    Tiling N S' := by
  have hle := h.le hk
  refine h.replace (P := fun o' k' => o' = o + 1 ∧ k' = k) (by omega) (fun k' hq => ?_)
    (fun {f o'} hs => ⟨?_, fun he => ?_⟩) hS
  · have := h.lt hk
    rw [← hq, div_lt_iff_lt_mul (by decide), ← pow_succ] at this
    rwa [show N - (o + 1) + 1 = N - o by omega] at this
  · rintro ⟨rfl, he⟩
    rwa [← div_two_pow_succ]
  · rw [← div_two_pow_succ] at he
    obtain rfl := h.unique hs (by rw [he]; exact hk : S (o + 1) (f / 2 ^ (o + 1)))
    exact ⟨rfl, he⟩

/-- **Merging a block with its buddy.** -/
theorem merge (ho : o < N) (hk : S o k) (hb : S o (k ^^^ 1)) (hS : ∀ o' k', S' o' k' ↔
      (S o' k' ∧ ¬ (o' = o ∧ k' / 2 = k / 2)) ∨ (o' = o + 1 ∧ k' = k / 2)) :
    Tiling N S' := by
  refine h.replace (P := fun o' k' => o' = o ∧ k' / 2 = k / 2) ho (fun k' hq => ?_)
    (fun {f o'} hs => ⟨?_, fun he => ?_⟩) hS
  · have := h.lt hk
    rw [hq, div_lt_iff_lt_mul (by decide), ← pow_succ]
    rwa [show N - (o + 1) + 1 = N - o by omega]
  · rintro ⟨rfl, he⟩
    rwa [div_two_pow_succ]
  · rw [div_two_pow_succ] at he
    have hso : S o (f / 2 ^ o) := by
      rcases div_two_eq_iff.mp he with h' | h' <;> rw [h'] <;> assumption
    obtain rfl := h.unique hs hso
    exact ⟨rfl, he⟩

end

end Tiling

/-! ### Marked blocks -/

/-- What a block is doing; a used block carries a mark. -/
inductive Cell (α : Type)
  | free
  | used (a : α)
  deriving DecidableEq, Repr

/-- A tiling whose blocks are marked. -/
structure Blocks (N : ℕ) (α : Type) where
  cell : ℕ → ℕ → Option (Cell α)
  tiling : Tiling N (fun o k => (cell o k).isSome = true)

namespace Blocks

variable {N : ℕ} {α : Type}

/-- One free block. -/
def whole (N : ℕ) (α : Type) : Blocks N α where
  cell := fun o k => if o = N ∧ k = 0 then some .free else none
  tiling := by
    have key : ∀ o k : ℕ, (if o = N ∧ k = 0 then some (Cell.free : Cell α) else none).isSome = true ↔
        o = N ∧ k = 0 := by
      intro o k
      by_cases h : o = N ∧ k = 0 <;> simp [h]
    refine ⟨fun {o k} h => ?_, fun {o k} h => ?_, fun {f} hf => ?_, fun {f o o'} h h' => ?_⟩
    · exact ((key o k).mp h).1.le
    · obtain ⟨rfl, rfl⟩ := (key o k).mp h
      exact Nat.two_pow_pos _
    · exact ⟨N, (key _ _).mpr ⟨rfl, Nat.div_eq_of_lt hf⟩⟩
    · rw [((key _ _).mp h).1, ((key _ _).mp h').1]

variable {B : Blocks N α} {o k : ℕ} {c l r : Cell α}

theorem le_of_cell (h : B.cell o k = some c) : o ≤ N :=
  B.tiling.le (by rw [h]; rfl)

theorem head_lt (h : B.cell o k = some c) : k * 2 ^ o < 2 ^ N :=
  B.tiling.head_lt (by rw [h]; rfl)

theorem end_le (h : B.cell o k = some c) : (k + 1) * 2 ^ o ≤ 2 ^ N :=
  B.tiling.end_le (by rw [h]; rfl)

theorem eq_of_head {o' k' : ℕ} {c' : Cell α} (h : B.cell o k = some c)
    (h' : B.cell o' k' = some c') (he : k * 2 ^ o = k' * 2 ^ o') : o = o' ∧ k = k' :=
  B.tiling.eq_of_head (by rw [h]; rfl) (by rw [h']; rfl) he

theorem eq_of_frame {o' f : ℕ} {c' : Cell α}
    (h : B.cell o (f / 2 ^ o) = some c) (h' : B.cell o' (f / 2 ^ o') = some c') : o = o' :=
  B.tiling.unique (by rw [h]; rfl) (by rw [h']; rfl)

theorem eq_of_head_mem {o' k k' : ℕ} {c' : Cell α} (h : B.cell o k = some c)
    (h' : B.cell o' k' = some c') (hin : k' * 2 ^ o' / 2 ^ o = k) : o' = o ∧ k' = k := by
  obtain rfl := eq_of_frame (by rw [mul_two_pow_div]; exact h') (by rw [hin]; exact h)
  exact ⟨rfl, by rw [← hin, mul_two_pow_div]⟩

variable (B)

theorem exists_cell {f : ℕ} (hf : f < 2 ^ N) : ∃ o c, B.cell o (f / 2 ^ o) = some c := by
  obtain ⟨o, h⟩ := B.tiling.cover hf
  obtain ⟨c, hc⟩ := Option.isSome_iff_exists.mp h
  exact ⟨o, c, hc⟩

/-- Mark a block anew. -/
def set (o k : ℕ) (c : Cell α) (h : (B.cell o k).isSome = true) : Blocks N α where
  cell := fun o' k' => if o' = o ∧ k' = k then some c else B.cell o' k'
  tiling := by
    have : (fun o' k' => (if o' = o ∧ k' = k then some c else B.cell o' k').isSome = true)
        = fun o' k' => (B.cell o' k').isSome = true := by
      funext o' k'
      by_cases hc : o' = o ∧ k' = k
      · rw [if_pos hc, hc.1, hc.2, h]; rfl
      · rw [if_neg hc]
    rw [this]
    exact B.tiling

/-- Split a block into its two halves. -/
def split (o k : ℕ) (l r : Cell α) (h : (B.cell (o + 1) k).isSome = true) : Blocks N α where
  cell := fun o' k' =>
    if o' = o + 1 ∧ k' = k then none
    else if o' = o ∧ k' = 2 * k then some l
    else if o' = o ∧ k' = 2 * k + 1 then some r
    else B.cell o' k'
  tiling := by
    refine B.tiling.split h (fun o' k' => ?_)
    by_cases h1 : o' = o + 1 ∧ k' = k
    · obtain ⟨rfl, rfl⟩ := h1
      simp
    · by_cases h2 : o' = o ∧ k' = 2 * k
      · obtain ⟨rfl, rfl⟩ := h2
        simp
      · by_cases h3 : o' = o ∧ k' = 2 * k + 1
        · obtain ⟨rfl, rfl⟩ := h3
          simp
          omega
        · have h4 : ¬ (o' = o ∧ k' / 2 = k) := by omega
          simp [h1, h2, h3, h4]

/-- Merge a block with its buddy. -/
def merge (o k : ℕ) (c : Cell α) (ho : o < N) (h : (B.cell o k).isSome = true)
    (hb : (B.cell o (k ^^^ 1)).isSome = true) : Blocks N α where
  cell := fun o' k' =>
    if o' = o + 1 ∧ k' = k / 2 then some c
    else if o' = o ∧ k' / 2 = k / 2 then none
    else B.cell o' k'
  tiling := by
    refine B.tiling.merge ho h hb (fun o' k' => ?_)
    by_cases h1 : o' = o + 1 ∧ k' = k / 2
    · simp [h1]
    · by_cases h2 : o' = o ∧ k' / 2 = k / 2
      · simp [h2]
      · simp [h1, h2]

/-! ### The blocks after a change -/

variable {B} {o' k' : ℕ} {c' : Cell α}

theorem set_cell_iff {h : (B.cell o k).isSome = true} :
    (B.set o k c h).cell o' k' = some c' ↔
      (o' = o ∧ k' = k ∧ c' = c) ∨ (B.cell o' k' = some c' ∧ ¬ (o' = o ∧ k' = k)) := by
  by_cases hc : o' = o ∧ k' = k
  · obtain ⟨rfl, rfl⟩ := hc
    simp [set, eq_comm]
  simp only [set, hc, not_false_eq_true, and_true]
  exact (or_iff_right fun h' => hc ⟨h'.1, h'.2.1⟩).symm

theorem cell_parent (h : (B.cell o k).isSome) : B.cell (o + 1) (k / 2) = none := by
  by_contra hne
  have hs : (B.cell o (k * 2 ^ o / 2 ^ o)).isSome := by rwa [mul_two_pow_div]
  have hs' : (B.cell (o + 1) (k * 2 ^ o / 2 ^ (o + 1))).isSome := by
    rw [div_two_pow_succ, mul_two_pow_div]
    exact Option.isSome_iff_ne_none.mpr hne
  have := B.tiling.unique hs hs'
  omega

theorem split_cell_iff {h : (B.cell (o + 1) k).isSome = true} :
    (B.split o k l r h).cell o' k' = some c' ↔
      (o' = o ∧ k' = 2 * k ∧ c' = l) ∨ (o' = o ∧ k' = 2 * k + 1 ∧ c' = r) ∨
        (B.cell o' k' = some c' ∧ ¬ (o' = o + 1 ∧ k' = k)) := by
  -- the halves were not blocks before: the block that is split holds their frames
  have hhalf : ∀ j, j / 2 = k → B.cell o j = none := by
    intro j hj
    by_contra hne
    rw [← hj, cell_parent (Option.isSome_iff_ne_none.mpr hne)] at h
    cases h
  by_cases h1 : o' = o + 1 ∧ k' = k
  · obtain ⟨rfl, rfl⟩ := h1
    simp [split]
  by_cases h2 : o' = o ∧ k' = 2 * k
  · obtain ⟨rfl, rfl⟩ := h2
    simp only [split, hhalf (2 * k) (by omega)]
    simp [eq_comm]
  by_cases h3 : o' = o ∧ k' = 2 * k + 1
  · obtain ⟨rfl, rfl⟩ := h3
    simp only [split, hhalf (2 * k + 1) (by omega)]
    simp [eq_comm]
  simp only [split, if_neg h2, if_neg h3, h1, if_false, not_false_eq_true, and_true]
  rw [or_iff_right fun h' => h2 ⟨h'.1, h'.2.1⟩, or_iff_right fun h' => h3 ⟨h'.1, h'.2.1⟩]

theorem merge_cell_iff {ho : o < N} {h : (B.cell o k).isSome = true}
    {hb : (B.cell o (k ^^^ 1)).isSome = true} :
    (B.merge o k c ho h hb).cell o' k' = some c' ↔
      (o' = o + 1 ∧ k' = k / 2 ∧ c' = c) ∨
        (B.cell o' k' = some c' ∧ ¬ (o' = o ∧ k' / 2 = k / 2)) := by
  have hpar := cell_parent h
  by_cases h1 : o' = o + 1 ∧ k' = k / 2
  · obtain ⟨rfl, rfl⟩ := h1
    simp only [merge, hpar]
    simp [eq_comm]
  by_cases h2 : o' = o ∧ k' / 2 = k / 2
  · obtain ⟨rfl, h2⟩ := h2
    simp [merge, h2]
  simp only [merge, if_neg h1, h2, not_false_eq_true, and_true]
  exact (or_iff_right fun h' => h1 ⟨h'.1, h'.2.1⟩).symm

variable (B)

/-! ### Free frames -/

/-- A frame of a free block. -/
def FreeFrame (f : ℕ) : Prop := ∃ o, B.cell o (f / 2 ^ o) = some .free

/-- A frame of a used block. -/
def UsedFrame (f : ℕ) : Prop := ∃ o a, B.cell o (f / 2 ^ o) = some (.used a)

theorem not_freeFrame_of_used {B : Blocks N α} {f : ℕ} (h : B.UsedFrame f) : ¬ B.FreeFrame f := by
  rintro ⟨o, ho⟩
  obtain ⟨o', a, h'⟩ := h
  obtain rfl := eq_of_frame ho h'
  rw [ho] at h'
  cases h'

/-- No free block has a free buddy. -/
def Coalesced : Prop :=
  ∀ o k, o < N → B.cell o k = some .free → B.cell o (k ^^^ 1) ≠ some .free

variable {B}

theorem coalesced_whole : (whole N α).Coalesced := by
  intro o k ho h
  have : ¬ (o = N ∧ k = 0) := by omega
  simp [whole, this] at h

theorem Coalesced.set_used (hc : B.Coalesced) {a : α}
    {h : (B.cell o k).isSome = true} : (B.set o k (.used a) h).Coalesced := by
  intro o' k' ho' h1 h2
  rcases set_cell_iff.mp h1 with ⟨_, _, e⟩ | ⟨h1, _⟩
  · cases e
  rcases set_cell_iff.mp h2 with ⟨_, _, e⟩ | ⟨h2, _⟩
  · cases e
  exact hc o' k' ho' h1 h2

theorem Coalesced.set_free (hc : B.Coalesced)
    {h : (B.cell o k).isSome = true} (hb : o < N → B.cell o (k ^^^ 1) ≠ some .free) :
    (B.set o k .free h).Coalesced := by
  intro o' k' ho' h1 h2
  rcases set_cell_iff.mp h1 with ⟨rfl, rfl, _⟩ | ⟨h1, _⟩
  · rcases set_cell_iff.mp h2 with ⟨_, e, _⟩ | ⟨h2, _⟩
    · exact xor_one_ne k' e
    · exact hb ho' h2
  · rcases set_cell_iff.mp h2 with ⟨rfl, rfl, _⟩ | ⟨h2, _⟩
    · exact hb ho' (by rwa [xor_one_xor_one])
    · exact hc o' k' ho' h1 h2

theorem Coalesced.split_used (hc : B.Coalesced) {a : α}
    {h : (B.cell (o + 1) k).isSome = true} : (B.split o k (.used a) .free h).Coalesced := by
  intro o' k' ho' h1 h2
  have heven : (2 * k) ^^^ 1 = 2 * k + 1 := xor_one_of_even (by simp)
  have hleft : (B.split o k (.used a) .free h).cell o (2 * k) = some (.used a) :=
    split_cell_iff.mpr (.inl ⟨rfl, rfl, rfl⟩)
  rcases split_cell_iff.mp h1 with ⟨_, _, e⟩ | ⟨rfl, rfl, _⟩ | ⟨h1', _⟩
  · cases e
  · rw [← heven, xor_one_xor_one, hleft] at h2
    cases h2
  · rcases split_cell_iff.mp h2 with ⟨_, _, e⟩ | ⟨rfl, e, _⟩ | ⟨h2', _⟩
    · cases e
    · have hk : k' = 2 * k := by rw [← xor_one_xor_one k', e, ← heven, xor_one_xor_one]
      rw [hk, hleft] at h1
      cases h1
    · exact hc o' k' ho' h1' h2'

theorem Coalesced.merge_used (hc : B.Coalesced) {a : α} {ho : o < N}
    {h : (B.cell o k).isSome = true} {hb : (B.cell o (k ^^^ 1)).isSome = true} :
    (B.merge o k (.used a) ho h hb).Coalesced := by
  intro o' k' ho' h1 h2
  rcases merge_cell_iff.mp h1 with ⟨_, _, e⟩ | ⟨h1, _⟩
  · cases e
  rcases merge_cell_iff.mp h2 with ⟨_, _, e⟩ | ⟨h2, _⟩
  · cases e
  exact hc o' k' ho' h1 h2

/-- **In a coalesced decomposition an aligned run of free frames lies in one free
block.**  By induction on the order of the run: its halves lie in free blocks; if one
of these is larger than the half it holds the whole run, and otherwise they are two
free buddies. -/
theorem Coalesced.exists_of_run (h : B.Coalesced) :
    ∀ (o k : ℕ), o ≤ N → (∀ f, f / 2 ^ o = k → B.FreeFrame f) →
      ∃ d, B.cell (o + d) (k / 2 ^ d) = some .free := by
  intro o
  induction o with
  | zero =>
    intro k _ hf
    obtain ⟨o', ho'⟩ := hf k (by simp)
    exact ⟨o', by simpa using ho'⟩
  | succ o ih =>
    intro k ho hf
    have hhalf : ∀ k', k' / 2 = k → ∃ d, B.cell (o + d) (k' / 2 ^ d) = some .free := by
      intro k' hk'
      refine ih k' (by omega) (fun f hff => hf f ?_)
      rw [div_two_pow_succ, hff, hk']
    -- a free block that holds more than a half holds the whole run
    have hbig : ∀ k' d, k' / 2 = k → B.cell (o + (d + 1)) (k' / 2 ^ (d + 1)) = some .free →
        ∃ d, B.cell (o + 1 + d) (k / 2 ^ d) = some .free := by
      intro k' d hk' hd
      refine ⟨d, ?_⟩
      rw [← hk', Nat.div_div_eq_div_mul, ← pow_succ', show o + 1 + d = o + (d + 1) by omega]
      exact hd
    obtain ⟨d1, h1⟩ := hhalf (2 * k) (by omega)
    obtain ⟨d2, h2⟩ := hhalf (2 * k + 1) (by omega)
    cases d1 with
    | succ d => exact hbig _ d (by omega) h1
    | zero =>
      cases d2 with
      | succ d => exact hbig _ d (by omega) h2
      | zero =>
        rw [pow_zero, Nat.div_one, add_zero] at h1 h2
        refine absurd ?_ (h o (2 * k) (by omega) h1)
        rw [xor_one_of_even (by simp)]
        exact h2

/-- **With nothing used there is one free block.** -/
theorem Coalesced.eq_whole (h : B.Coalesced)
    (hu : ∀ o k a, B.cell o k ≠ some (.used a)) : B.cell = (whole N α).cell := by
  have hfree : ∀ o k c, B.cell o k = some c → c = .free := by
    intro o k c hc
    cases c with
    | free => rfl
    | used a => exact absurd hc (hu o k a)
  have htop : B.cell N 0 = some .free := by
    obtain ⟨d, hd⟩ := h.exists_of_run N 0 le_rfl (fun f hf => by
      have hlt : f < 2 ^ N := by
        rcases Nat.div_eq_zero_iff.mp hf with h0 | h0
        · exact absurd h0 (Nat.two_pow_pos N).ne'
        · exact h0
      obtain ⟨o, c, hc⟩ := B.exists_cell hlt
      exact ⟨o, by rw [hc, hfree _ _ _ hc]⟩)
    have := le_of_cell hd
    obtain rfl : d = 0 := by omega
    simpa using hd
  funext o k
  by_cases hc : o = N ∧ k = 0
  · simp [whole, hc, htop]
  cases hk : B.cell o k with
  | none => simp [whole, hc]
  | some c =>
    exfalso
    have hend := head_lt hk
    have h0 : k * 2 ^ o / 2 ^ N = 0 := div_eq_of_lt hend
    have hoN : o = N := eq_of_frame (f := k * 2 ^ o) (by rw [mul_two_pow_div]; exact hk)
      (by rw [h0]; exact htop)
    subst hoN
    rw [mul_two_pow_div] at h0
    exact hc ⟨rfl, h0⟩

end Blocks

end TipOS.Lib
