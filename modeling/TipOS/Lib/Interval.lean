import Mathlib.Data.List.TakeWhile
import Mathlib.Data.List.Pairwise
import Mathlib.Order.Lattice

/-!
# Lists of disjoint intervals

The items of a list own the half-open intervals `[lo x, hi x)` of a linear order.
`Ordered lo hi l` says that each interval ends before the next ones begin: the list is
sorted and the intervals are disjoint.  A new interval that meets none of the others is
inserted before the first item that does not begin below it.
-/

namespace TipOS.Lib

open List

variable {α β : Type*} [LinearOrder β] {lo hi lo' hi' : α → β} {l : List α} {x y : α} {a : β}

/-- Every interval ends before the later ones begin. -/
def Ordered (lo hi : α → β) (l : List α) : Prop := l.Pairwise fun x y => hi x ≤ lo y

/-- The items that begin below `a`, up to the first that does not. -/
def below (lo : α → β) (a : β) (l : List α) : List α := l.takeWhile fun y => decide (lo y < a)

/-- The items from the first that does not begin below `a` on. -/
def above (lo : α → β) (a : β) (l : List α) : List α := l.dropWhile fun y => decide (lo y < a)

theorem below_append_above (lo : α → β) (a : β) (l : List α) : below lo a l ++ above lo a l = l :=
  takeWhile_append_dropWhile

theorem below_cons_of_lt (h : lo x < a) : below lo a (x :: l) = x :: below lo a l :=
  takeWhile_cons_of_pos (decide_eq_true h)

theorem above_cons_of_lt (h : lo x < a) : above lo a (x :: l) = above lo a l :=
  dropWhile_cons_of_pos (decide_eq_true h)

theorem below_cons_of_not_lt (h : ¬ lo x < a) : below lo a (x :: l) = [] :=
  takeWhile_cons_of_neg fun hx => h (of_decide_eq_true hx)

theorem above_cons_of_not_lt (h : ¬ lo x < a) : above lo a (x :: l) = x :: l :=
  dropWhile_cons_of_neg fun hx => h (of_decide_eq_true hx)

theorem below_above_congr (h : ∀ y ∈ l, lo' y = lo y) :
    below lo' a l = below lo a l ∧ above lo' a l = above lo a l := by
  induction l with
  | nil => exact ⟨rfl, rfl⟩
  | cons c t ih =>
    have hc := h c (by simp)
    obtain ⟨hb, ha⟩ := ih fun y hy => h y (.tail _ hy)
    by_cases hca : lo c < a
    · have hca' := hc.trans_lt hca
      simp only [below_cons_of_lt, above_cons_of_lt, hca, hca', hb, ha, and_self]
    · have hca' : ¬ lo' c < a := by rwa [hc]
      simp only [below_cons_of_not_lt hca, below_cons_of_not_lt hca', above_cons_of_not_lt hca,
        above_cons_of_not_lt hca', and_self]

theorem lt_of_mem_below (hx : x ∈ below lo a l) : lo x < a := by
  simpa using mem_takeWhile_imp hx

namespace Ordered

theorem cases (h : Ordered lo hi l) (hx : x ∈ l) (hy : y ∈ l) :
    x = y ∨ hi x ≤ lo y ∨ hi y ≤ lo x := by
  induction l with
  | nil => simp at hx
  | cons c t ih =>
    obtain ⟨hc, ht⟩ := pairwise_cons.mp h
    rcases mem_cons.mp hx with rfl | hxt <;> rcases mem_cons.mp hy with rfl | hyt
    · exact .inl rfl
    · exact .inr (.inl (hc y hyt))
    · exact .inr (.inr (hc x hxt))
    · exact ih ht hxt hyt

/-- **At most one interval of the list contains a point.** -/
theorem eq_of_mem (h : Ordered lo hi l) (hx : x ∈ l) (hy : y ∈ l) (hxa : lo x ≤ a)
    (hax : a < hi x) (hya : lo y ≤ a) (hay : a < hi y) : x = y := by
  rcases cases h hx hy with he | hxy | hyx
  · exact he
  · exact absurd (hax.trans_le (hxy.trans hya)) (lt_irrefl a)
  · exact absurd (hay.trans_le (hyx.trans hxa)) (lt_irrefl a)

theorem filter (p : α → Bool) (h : Ordered lo hi l) : Ordered lo hi (l.filter p) :=
  List.Pairwise.filter p h

theorem congr (h : Ordered lo hi l) (hl : ∀ y ∈ l, lo' y = lo y) (hh : ∀ y ∈ l, hi' y = hi y) :
    Ordered lo' hi' l := by
  refine List.Pairwise.imp_of_mem ?_ h
  intro y z hy hz hyz
  rw [hl z hz, hh y hy]
  exact hyz

/-- The items after the first that does not begin below `a` do not begin below it. -/
theorem le_of_mem_above (h : Ordered lo hi l) (hpos : ∀ y ∈ l, lo y < hi y)
    (hx : x ∈ above lo a l) : a ≤ lo x := by
  induction l with
  | nil => simp [above] at hx
  | cons c t ih =>
    obtain ⟨hc, ht⟩ := pairwise_cons.mp h
    by_cases hca : lo c < a
    · rw [above_cons_of_lt hca] at hx
      exact ih ht (fun y hy => hpos y (.tail _ hy)) hx
    rw [above_cons_of_not_lt hca] at hx
    rcases mem_cons.mp hx with rfl | hx
    · exact not_lt.mp hca
    · exact (not_lt.mp hca).trans ((hpos c (by simp)).le.trans (hc x hx))

/-- **Inserting an interval that meets no other** keeps the list ordered. -/
theorem insert (h : Ordered lo hi l) (hpos : ∀ y ∈ l, lo y < hi y) (hx : lo x < hi x)
    (hno : ∀ y ∈ l, ¬ (lo y < hi x ∧ lo x < hi y)) :
    Ordered lo hi (below lo (lo x) l ++ x :: above lo (lo x) l) := by
  have hsub : Ordered lo hi (below lo (lo x) l ++ above lo (lo x) l) := by
    rw [below_append_above]
    exact h
  have hmem : ∀ y ∈ below lo (lo x) l ++ above lo (lo x) l, y ∈ l := by
    rw [below_append_above]
    exact fun y hy => hy
  obtain ⟨hb, ha, hba⟩ := pairwise_append.mp hsub
  -- an item below the new one ends before it, an item above begins after it
  have hlow : ∀ y ∈ below lo (lo x) l, hi y ≤ lo x := by
    intro y hy
    have hyx := lt_of_mem_below hy
    exact not_lt.mp fun hxy => hno y (hmem y (by simp [hy])) ⟨hyx.trans hx, hxy⟩
  have hhigh : ∀ y ∈ above lo (lo x) l, hi x ≤ lo y := by
    intro y hy
    have hyl := hmem y (by simp [hy])
    have hxy := le_of_mem_above h hpos hy
    exact not_lt.mp fun hyx => hno y hyl ⟨hyx, hxy.trans_lt (hpos y hyl)⟩
  exact pairwise_append.mpr ⟨hb, pairwise_cons.mpr ⟨hhigh, ha⟩,
    fun y hy => forall_mem_cons.mpr ⟨hlow y hy, hba y hy⟩⟩

end Ordered

end TipOS.Lib
