import TipOS.Lib.Trail

/-!
# Doubly linked lists

A doubly linked list is read through two link functions, `nx` and `pv`, from an
address to the address of its neighbour; `0` is the null pointer.  `Chain nx pv b p l`
says that following `nx` from `p` visits exactly the nodes of `l`, that each node's
`pv` is the node before it, and that the first node's `pv` is `b`.  A whole list with
head pointer `p` is `Chain nx pv 0 p l`.

The link functions are arbitrary, so a list threaded through a byte memory, through a
table of records or through anything else is an instance.

`Stack nx p l` is the singly linked case.
-/

namespace TipOS.Lib

open List

/-- The nodes `l` are threaded from `p` by `nx`, and backwards by `pv`; the first node
points back to `b`. -/
def Chain (nx pv : ℕ → ℕ) : ℕ → ℕ → List ℕ → Prop
  | _, p, [] => p = 0
  | b, p, a :: t => p = a ∧ a ≠ 0 ∧ pv a = b ∧ Chain nx pv a (nx a) t

/-- Fuel for a list that is not empty. -/
theorem exists_fuel {a n : ℕ} {t : List ℕ} (h : (a :: t).length ≤ n) :
    ∃ m, n = m + 1 ∧ t.length ≤ m :=
  ⟨n - 1, by simp only [length_cons] at h; omega⟩

namespace Chain

variable {nx pv nx' pv' : ℕ → ℕ} {b p x : ℕ} {l l₁ l₂ : List ℕ}

theorem ne_zero (h : Chain nx pv b p l) : ∀ y ∈ l, y ≠ 0 := by
  induction l generalizing b p with
  | nil => intro y hy; simp at hy
  | cons a t ih =>
    obtain ⟨_, ha, _, ht⟩ := h
    exact forall_mem_cons.mpr ⟨ha, ih ht⟩

theorem head_eq (h : Chain nx pv b p l) : p = l.headD 0 := by
  cases l with
  | nil => exact h
  | cons a t => exact h.1

theorem eq_zero_iff (h : Chain nx pv b p l) : p = 0 ↔ l = [] := by
  cases l with
  | nil => exact ⟨fun _ => rfl, fun _ => h⟩
  | cons a t => simp [h.1, h.2.1]

/-- Forwards it is a trail that ends in the null pointer. -/
theorem trail (h : Chain nx pv b p l) : Trail nx (· = 0) p l := by
  induction l generalizing b p with
  | nil => exact h
  | cons a t ih => exact ⟨h.1, h.2.1, ih h.2.2.2⟩

/-- **The nodes are determined by the links and the head.** -/
theorem unique {b' : ℕ} (h1 : Chain nx pv b p l₁) (h2 : Chain nx pv b' p l₂) : l₁ = l₂ :=
  h1.trail.unique h2.trail

theorem suffix (h : Chain nx pv b p (l₁ ++ x :: l₂)) : Chain nx pv (pv x) x (x :: l₂) := by
  induction l₁ generalizing b p with
  | nil => exact ⟨rfl, h.2.1, rfl, h.2.2.2⟩
  | cons a t ih => exact ih h.2.2.2

/-- **No node is visited twice.** -/
theorem nodup (h : Chain nx pv b p l) : l.Nodup := h.trail.nodup

/-- **Only the links of the nodes matter.** -/
theorem congr (h : Chain nx pv b p l) (hn : ∀ y ∈ l, nx' y = nx y)
    (hv : ∀ y ∈ l, pv' y = pv y) : Chain nx' pv' b p l := by
  induction l generalizing b p with
  | nil => exact h
  | cons a t ih =>
    obtain ⟨hp, ha, hb, ht⟩ := h
    refine ⟨hp, ha, (hv a (by simp)).trans hb, ?_⟩
    rw [hn a (by simp)]
    exact ih ht (fun y hy => hn y (by simp [hy])) (fun y hy => hv y (by simp [hy]))

theorem rebase {b' : ℕ} (h : Chain nx pv b p l) (hn : ∀ y ∈ l, nx' y = nx y)
    (hv : ∀ y ∈ l, y ≠ p → pv' y = pv y) (hp : p ≠ 0 → pv' p = b') :
    Chain nx' pv' b' p l := by
  cases l with
  | nil => exact h
  | cons a t =>
    have hnot : a ∉ t := (nodup_cons.mp (nodup h)).1
    obtain ⟨rfl, ha, _, ht⟩ := h
    refine ⟨rfl, ha, hp ha, ?_⟩
    rw [hn p (by simp)]
    refine ht.congr (fun y hy => hn y (by simp [hy])) (fun y hy => hv y (by simp [hy]) ?_)
    rintro rfl
    exact hnot hy

/-- **Adding at the front.** -/
theorem push (h : Chain nx pv 0 p l) (hx : x ≠ 0) (hnx : nx' x = p) (hpx : pv' x = 0)
    (hn : ∀ y ∈ l, nx' y = nx y) (hv : ∀ y ∈ l, y ≠ p → pv' y = pv y)
    (hp : p ≠ 0 → pv' p = x) : Chain nx' pv' 0 x (x :: l) := by
  refine ⟨rfl, hx, hpx, ?_⟩
  rw [hnx]
  exact h.rebase hn hv hp

theorem next_eq (h : Chain nx pv b p (l₁ ++ x :: l₂)) : nx x = l₂.headD 0 :=
  h.suffix.2.2.2.head_eq

theorem prev_eq (h : Chain nx pv b p (l₁ ++ x :: l₂)) : pv x = l₁.getLastD b := by
  induction l₁ generalizing b p with
  | nil => exact h.2.2.1
  | cons a t ih => rw [ih h.2.2.2, getLastD_cons]

theorem right (h : Chain nx pv b p (l₁ ++ l₂)) : ∃ b', Chain nx pv b' (l₂.headD 0) l₂ := by
  cases l₂ with
  | nil => exact ⟨0, rfl⟩
  | cons a t => exact ⟨_, h.suffix⟩

theorem links_eq {p' : ℕ} (h : Chain nx pv b p l) (h' : Chain nx' pv' b p' l) (hx : x ∈ l) :
    nx' x = nx x ∧ pv' x = pv x := by
  obtain ⟨l₁, l₂, rfl⟩ := append_of_mem hx
  exact ⟨h'.next_eq.trans h.next_eq.symm, h'.prev_eq.trans h.prev_eq.symm⟩

section

variable (h : Chain nx pv b p (l₁ ++ x :: l₂))

include h

theorem next_mem (h0 : nx x ≠ 0) : nx x ∈ l₂ := by
  rw [next_eq h] at h0 ⊢
  cases l₂ with
  | nil => simp at h0
  | cons a t => simp

theorem prev_mem (hne : l₁ ≠ []) : pv x ∈ l₁ := by
  rw [prev_eq h, getLastD_eq_getLast?, getLast?_eq_some_getLast hne]
  exact getLast_mem hne

/-- **Unlinking a node.**  The node before it takes over its `nx`, the node after it its
`pv`, and the head moves when there is no node before it. -/
theorem remove (hb : b ∉ l₁ ++ x :: l₂) (hn : ∀ y ∈ l₁ ++ l₂, y ≠ pv x → nx' y = nx y)
    (hnp : l₁ ≠ [] → nx' (pv x) = nx x) (hv : ∀ y ∈ l₁ ++ l₂, y ≠ nx x → pv' y = pv y)
    (hvn : nx x ≠ 0 → pv' (nx x) = pv x) :
    Chain nx' pv' b (if l₁ = [] then nx x else p) (l₁ ++ l₂) := by
  induction l₁ generalizing b p with
  | nil =>
    rw [if_pos rfl]
    obtain ⟨_, _, hpv, ht⟩ := h
    refine ht.rebase (fun y hy => hn y hy ?_) (fun y hy hne => hv y hy hne)
      (fun h0 => (hvn h0).trans hpv)
    rintro rfl
    exact hb (by rw [← hpv]; simp [hy])
  | cons a t ih =>
    have hnd := nodup_cons.mp (nodup h)
    have hpv := prev_eq h
    obtain ⟨hp, ha, hab, ht⟩ := h
    have hax : a ≠ nx x := by
      intro he
      have := next_mem ht (he ▸ ha)
      exact hnd.1 (by simp [he, this])
    have hrec := ih ht hnd.1 (fun y hy => hn y (by simp_all)) (fun _ => hnp (by simp))
      (fun y hy => hv y (by simp_all))
    rw [if_neg (by simp)]
    refine ⟨hp, ha, (hv a (by simp) hax).trans hab, ?_⟩
    by_cases ht0 : t = []
    · subst ht0
      have hpa : pv x = a := by simpa using hpv
      rw [if_pos rfl] at hrec
      rw [← hpa, hnp (by simp), hpa]
      exact hrec
    · rw [if_neg ht0] at hrec
      have hmem := prev_mem ht ht0
      rw [hn a (by simp) (fun he => hnd.1 (by rw [he]; simp [hmem]))]
      exact hrec

end

/-- **Inserting a node** between two parts of a list, with the new links as tables. -/
theorem insert (h : Chain nx pv b p (l₁ ++ l₂)) (hx : x ≠ 0) (hnx : nx' x = l₂.headD 0)
    (hpx : pv' x = l₁.getLastD b)
    (hn : ∀ y ∈ l₁ ++ l₂, nx' y = if l₁ ≠ [] ∧ y = l₁.getLastD b then x else nx y)
    (hv : ∀ y ∈ l₁ ++ l₂, pv' y = if l₂ ≠ [] ∧ y = l₂.headD 0 then x else pv y) :
    Chain nx' pv' b (if l₁ = [] then x else p) (l₁ ++ x :: l₂) := by
  induction l₁ generalizing b p with
  | nil =>
    have hp := head_eq h
    rw [nil_append] at hp
    refine ⟨rfl, hx, hpx, ?_⟩
    rw [hnx, ← hp]
    refine rebase h (fun y hy => ?_) (fun y hy hne => ?_) (fun h0 => ?_)
    · rw [hn y hy, if_neg (fun hh => hh.1 rfl)]
    · rw [hv y hy, if_neg (fun hh => hne (hh.2.trans hp.symm))]
    · have hl : l₂ ≠ [] := fun he => h0 ((eq_zero_iff h).mpr he)
      have hmem : p ∈ l₂ := by
        rw [hp]
        cases l₂ with
        | nil => exact absurd rfl hl
        | cons c r => simp
      rw [hv p hmem, if_pos ⟨hl, hp⟩]
  | cons a t ih =>
    have hnd := nodup_cons.mp (nodup h)
    obtain ⟨hp, ha, hab, ht⟩ := h
    rw [getLastD_cons] at hpx
    have hah : ¬ (l₂ ≠ [] ∧ a = l₂.headD 0) := by
      rintro ⟨hl, he⟩
      cases l₂ with
      | nil => exact hl rfl
      | cons c r => exact hnd.1 (by rw [he]; simp)
    have hrec := ih ht hpx (fun y hy => ?_) (fun y hy => hv y (.tail _ hy))
    · rw [if_neg (by simp)]
      refine ⟨hp, ha, ?_, ?_⟩
      · rw [hv a (by simp), if_neg hah, hab]
      rw [hn a (by simp), getLastD_cons]
      by_cases ht0 : t = []
      · subst ht0
        rw [if_pos ⟨by simp, rfl⟩]
        exact hrec
      rw [if_neg ht0] at hrec
      rw [if_neg]
      · exact hrec
      rintro ⟨_, he⟩
      refine hnd.1 (mem_append_left _ ?_)
      rw [he, getLastD_eq_getLast?, getLast?_eq_some_getLast ht0]
      exact getLast_mem ht0
    · rw [hn y (.tail _ hy), getLastD_cons]
      by_cases ht0 : t = []
      · subst ht0
        have hya : y ≠ a := fun he => hnd.1 (he ▸ hy)
        simp [hya]
      · simp [ht0]

theorem next_cases (h : Chain nx pv b p l) (hx : x ∈ l) : nx x = 0 ∨ (nx x ∈ l ∧ nx x ≠ x) := by
  obtain ⟨l₁, l₂, rfl⟩ := append_of_mem hx
  by_cases h0 : nx x = 0
  · exact .inl h0
  · have hm := h.next_mem h0
    refine .inr ⟨mem_append_right _ (.tail _ hm), fun he => ?_⟩
    exact (nodup_cons.mp (nodup_append.mp h.nodup).2.1).1 (he ▸ hm)

theorem prev_cases (h : Chain nx pv 0 p l) (hx : x ∈ l) : pv x = 0 ∨ (pv x ∈ l ∧ pv x ≠ x) := by
  obtain ⟨l₁, l₂, rfl⟩ := append_of_mem hx
  by_cases h1 : l₁ = []
  · subst h1
    exact .inl h.2.2.1
  · have hm := h.prev_mem h1
    refine .inr ⟨mem_append_left _ hm, fun he => ?_⟩
    exact (nodup_append.mp h.nodup).2.2 x (he ▸ hm) x (by simp) rfl

/-- **Unlinking a node**, with the new links as tables. -/
theorem unlink (h : Chain nx pv 0 p l) (hx : x ∈ l)
    (hn : ∀ y ∈ l, nx' y = if pv x ≠ 0 ∧ y = pv x then nx x else nx y)
    (hv : ∀ y ∈ l, pv' y = if nx x ≠ 0 ∧ y = nx x then pv x else pv y) :
    Chain nx' pv' 0 (if pv x = 0 then nx x else p) (l.erase x) := by
  obtain ⟨l₁, l₂, hnot, rfl, her⟩ := exists_erase_eq hx
  have hsub : ∀ y ∈ l₁ ++ l₂, y ∈ l₁ ++ x :: l₂ := by
    intro y hy
    rcases mem_append.mp hy with hy | hy <;> simp [hy]
  have h0 : pv x = 0 ↔ l₁ = [] := by
    constructor
    · intro hz
      by_contra hne
      exact h.ne_zero _ (mem_append_left _ (h.prev_mem hne)) hz
    · rintro rfl
      exact h.2.2.1
  rw [her, if_congr h0 rfl rfl]
  refine h.remove (fun hz => h.ne_zero 0 hz rfl) (fun y hy hne => ?_) (fun hne => ?_)
    (fun y hy hne => ?_) (fun hnz => ?_)
  · rw [hn y (hsub y hy), if_neg (fun hh => hne hh.2)]
  · rw [hn _ (mem_append_left _ (h.prev_mem hne)), if_pos ⟨fun hz => hne (h0.mp hz), rfl⟩]
  · rw [hv y (hsub y hy), if_neg (fun hh => hne hh.2)]
  · rw [hv _ (mem_append_right _ (.tail _ (h.next_mem hnz))),
      if_pos ⟨hnz, rfl⟩]

end Chain

/-- The nodes `l` are threaded from `p` by `nx`. -/
def Stack (nx : ℕ → ℕ) : ℕ → List ℕ → Prop
  | p, [] => p = 0
  | p, a :: t => p = a ∧ a ≠ 0 ∧ Stack nx (nx a) t

namespace Stack

variable {nx nx' : ℕ → ℕ} {p : ℕ} {l : List ℕ}

theorem trail_iff : Stack nx p l ↔ Trail nx (· = 0) p l := by
  induction l generalizing p with
  | nil => rfl
  | cons a t ih => exact and_congr_right fun _ => and_congr_right fun _ => ih

theorem congr (h : Stack nx p l) (hn : ∀ y ∈ l, nx' y = nx y) : Stack nx' p l :=
  trail_iff.mpr ((trail_iff.mp h).congr hn)

theorem unique {l' : List ℕ} (h : Stack nx p l) (h' : Stack nx p l') : l = l' :=
  (trail_iff.mp h).unique (trail_iff.mp h')

theorem exists_cons (h : Stack nx p l) (hp : p ≠ 0) : ∃ t, l = p :: t ∧ Stack nx (nx p) t := by
  cases l with
  | nil => exact absurd h hp
  | cons a t => exact ⟨t, by rw [h.1], by rw [h.1]; exact h.2.2⟩

theorem push {a : ℕ} (h : Stack nx p l) (ha : a ≠ 0) (hn : ∀ y ∈ l, nx' y = nx y)
    (hna : nx' a = p) : Stack nx' a (a :: l) :=
  ⟨rfl, ha, by rw [hna]; exact h.congr hn⟩

theorem head_cases (h : Stack nx p l) : p = 0 ∨ p ∈ l := by
  cases l with
  | nil => exact .inl h
  | cons a t => exact .inr (by rw [h.1]; simp)

end Stack

end TipOS.Lib
