import Mathlib.Data.List.Nodup

/-!
# Chains that end in a marker

`Trail nx stop p l` says that following `nx` from `p` visits exactly the nodes of `l` and then
comes to an end marker, a number with `stop`.  The link function and the markers are arbitrary.

`follow` collects the nodes with a bound on their number; `Trail.follow_eq` says that a large
enough bound does not matter.
-/

namespace TipOS.Lib

open List

/-- The nodes `l` are threaded from `p` by `nx`, and the last of them links to a marker. -/
def Trail (nx : ℕ → ℕ) (stop : ℕ → Prop) : ℕ → List ℕ → Prop
  | p, [] => stop p
  | p, a :: t => p = a ∧ ¬ stop a ∧ Trail nx stop (nx a) t

/-- The first `n` nodes from `p` on. -/
def follow (nx : ℕ → ℕ) (stop : ℕ → Prop) [DecidablePred stop] : ℕ → ℕ → List ℕ
  | 0, _ => []
  | n + 1, p => if stop p then [] else p :: follow nx stop n (nx p)

namespace Trail

variable {nx nx' : ℕ → ℕ} {stop : ℕ → Prop} {p x : ℕ} {l l₁ l₂ : List ℕ}

/-- **The nodes are determined by the links.** -/
theorem unique (h1 : Trail nx stop p l₁) (h2 : Trail nx stop p l₂) : l₁ = l₂ := by
  induction l₁ generalizing p l₂ with
  | nil =>
    cases l₂ with
    | nil => rfl
    | cons b u =>
      obtain ⟨rfl, hb, -⟩ := h2
      exact absurd h1 hb
  | cons a t ih =>
    obtain ⟨rfl, ha, ht⟩ := h1
    cases l₂ with
    | nil => exact absurd h2 ha
    | cons b u =>
      obtain ⟨rfl, -, hu⟩ := h2
      rw [ih ht hu]

theorem suffix (h : Trail nx stop p (l₁ ++ x :: l₂)) : Trail nx stop x (x :: l₂) := by
  induction l₁ generalizing p with
  | nil =>
    obtain ⟨rfl, hx, ht⟩ := h
    exact ⟨rfl, hx, ht⟩
  | cons a t ih => exact ih h.2.2

/-- **No node is visited twice.** -/
theorem nodup (h : Trail nx stop p l) : l.Nodup := by
  induction l generalizing p with
  | nil => exact nodup_nil
  | cons a t ih =>
    refine nodup_cons.mpr ⟨fun hmem => ?_, ih h.2.2⟩
    -- a second visit of `a` would have the nodes behind it for its tail, and so be as long
    obtain ⟨u, w, rfl⟩ := append_of_mem hmem
    have hsuf : Trail nx stop a (a :: w) := suffix h.2.2
    have heq := unique hsuf.2.2 h.2.2
    have hlen := congrArg List.length heq
    simp only [length_append, length_cons] at hlen
    omega

/-- **Only the links of the nodes matter.** -/
theorem congr (h : Trail nx stop p l) (hn : ∀ y ∈ l, nx' y = nx y) : Trail nx' stop p l := by
  induction l generalizing p with
  | nil => exact h
  | cons a t ih =>
    obtain ⟨hp, ha, ht⟩ := h
    refine ⟨hp, ha, ?_⟩
    rw [hn a mem_cons_self]
    exact ih ht fun y hy => hn y (mem_cons_of_mem a hy)

theorem weaken {stop' : ℕ → Prop} (h : Trail nx stop p l) (hs : ∀ y, stop y → stop' y)
    (hl : ∀ y ∈ l, ¬ stop' y) : Trail nx stop' p l := by
  induction l generalizing p with
  | nil => exact hs p h
  | cons a t ih =>
    obtain ⟨hp, -, ht⟩ := h
    exact ⟨hp, hl a (.head _), ih ht fun y hy => hl y (mem_cons_of_mem a hy)⟩

theorem next_eq {a : ℕ} (h : Trail nx stop p (l₁ ++ a :: x :: l₂)) : nx a = x :=
  (suffix h).2.2.1

theorem stop_last (h : Trail nx stop p (l ++ [x])) : stop (nx x) :=
  (suffix h).2.2

/-- **One more node**, behind the last. -/
theorem extend {b : ℕ} (h : Trail nx stop p (l ++ [x])) (hb : ¬ stop b) (hx : nx' x = b)
    (hs : stop (nx' b)) (hn : ∀ y ∈ l, nx' y = nx y) : Trail nx' stop p (l ++ [x] ++ [b]) := by
  induction l generalizing p with
  | nil => exact ⟨h.1, h.2.1, hx, hb, hs⟩
  | cons a t ih =>
    obtain ⟨hp, ha, ht⟩ := h
    refine ⟨hp, ha, ?_⟩
    rw [hn a mem_cons_self]
    exact ih ht fun y hy => hn y (mem_cons_of_mem a hy)

theorem next_cases (h : Trail nx stop p l) (hx : x ∈ l) : stop (nx x) ∨ nx x ∈ l := by
  obtain ⟨u, w, rfl⟩ := append_of_mem hx
  cases w with
  | nil => exact .inl h.stop_last
  | cons y w =>
    rw [h.next_eq]
    exact .inr (by simp)

theorem follow_eq [DecidablePred stop] (h : Trail nx stop p l) {n : ℕ} (hn : l.length ≤ n) :
    follow nx stop n p = l := by
  induction l generalizing p n with
  | nil =>
    cases n with
    | zero => rfl
    | succ n => exact if_pos h
  | cons a t ih =>
    obtain ⟨rfl, ha, ht⟩ := h
    obtain ⟨n, rfl⟩ := Nat.exists_eq_add_of_le' hn
    change follow nx stop (n + t.length + 1) p = _
    rw [follow, if_neg ha, ih ht (by omega)]

end Trail

end TipOS.Lib
