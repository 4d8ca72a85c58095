import Mathlib.Data.Option.Basic
import Mathlib.Order.Nat

/-!
# Radix trees in a memory

A memory `get` has entries `get n i`, for nodes `n` and indices `i`.  At level
`l` an entry leads to a node of level `l - 1` (`child`), or else it has a value
or none (`val`).  `look` follows a key, which has one index for each level, and
applies to a value what the entries on the way do to it (`via`).

`Reach` are the nodes of the whole tree and `Visits` those on the way of one
key.  In a `Tree` every node has one place.  A write to one entry is seen by
the keys through it (`look_of_not_through`), and those agree on all levels
above (`Tree.key_eq`); what it does to a key through it is decided below the
node written to (`look_congr_below`, `look_proj`).  `Tree.leaf` and `Tree.node`
say which writes keep a tree.
-/

namespace TipOS.Lib.Radix

variable {N I E V W : Type*} (child : ℕ → E → Option N)

section Look

variable (val : ℕ → E → Option V) (via : E → V → V)

/-- What a key finds below a node of a level. -/
def look (get : N → I → E) (key : ℕ → I) : ℕ → N → Option V
  | 0, n => val 0 (get n (key 0))
  | l + 1, n =>
    match child (l + 1) (get n (key (l + 1))) with
    | some n' => (look get key l n').map (via (get n (key (l + 1))))
    | none => val (l + 1) (get n (key (l + 1)))

end Look

/-- The nodes below a root of level `top`. -/
inductive Reach (get : N → I → E) (top : ℕ) (root : N) : ℕ → N → Prop
  | root : Reach get top root top root
  | down {l : ℕ} {n n' : N} {i : I} : Reach get top root (l + 1) n →
      child (l + 1) (get n i) = some n' → Reach get top root l n'

/-- The nodes on the way of a key. -/
inductive Visits (get : N → I → E) (key : ℕ → I) (top : ℕ) (root : N) : ℕ → N → Prop
  | root : Visits get key top root top root
  | down {l : ℕ} {n n' : N} : Visits get key top root (l + 1) n →
      child (l + 1) (get n (key (l + 1))) = some n' → Visits get key top root l n'

variable {child} {get get' : N → I → E} {key key' : ℕ → I} {top l l' l₀ : ℕ} {root n n' n₀ f : N}

theorem Reach.le (h : Reach child get top root l n) : l ≤ top := by
  induction h with
  | root => exact Nat.le_refl _
  | down _ _ ih => exact Nat.le_of_succ_le ih

namespace Visits

section

variable (h : Visits child get key top root l n)

include h

theorem reach : Reach child get top root l n := by
  induction h with
  | root => exact .root
  | down _ hc ih => exact .down ih hc

theorem le : l ≤ top := h.reach.le

theorem unique (h' : Visits child get key top root l n') :
    n = n' := by
  induction h generalizing n' with
  | root =>
    cases h' with
    | root => rfl
    | down hv _ => exact absurd hv.le (Nat.not_succ_le_self _)
  | down hv hc ih =>
    cases h' with
    | root => exact absurd hv.le (Nat.not_succ_le_self _)
    | down hv' hc' =>
      rw [ih hv'] at hc
      exact Option.some.inj (hc.symm.trans hc')

theorem congr (hg : ∀ l' n', l < l' → Visits child get key top root l' n' →
      get' n' (key l') = get n' (key l')) :
    Visits child get' key top root l n := by
  induction h with
  | root => exact .root
  | @down l n n' hv hc ih =>
    refine .down (ih fun l' n' hl hv' => hg l' n' (by omega) hv') ?_
    rw [hg (l + 1) n (Nat.lt_succ_self l) hv, hc]

end

end Visits

/-! ### Two memories -/

section Look

variable {val : ℕ → E → Option V} {via : E → V → V}

section

variable (hg : ∀ l n, Visits child get key top root l n → get' n (key l) = get n (key l))

include hg

/-- **A key finds the same in a memory with the same entries on its way.** -/
theorem look_congr_at (hv : Visits child get key top root l n) :
    look child val via get' key l n = look child val via get key l n := by
  induction l generalizing n with
  | zero =>
    rw [look, look, hg 0 n hv]
  | succ l ih =>
    rw [look, look, hg (l + 1) n hv]
    cases hc : child (l + 1) (get n (key (l + 1))) with
    | none => rfl
    | some n' =>
      dsimp only
      rw [ih (.down hv hc)]

theorem look_congr :
    look child val via get' key top root = look child val via get key top root :=
  look_congr_at hg .root

end

theorem look_congr_below (hv : Visits child get key top root l₀ n₀)
    (hg : ∀ l n, l₀ < l → Visits child get key top root l n → get' n (key l) = get n (key l))
    (h0 : look child val via get' key l₀ n₀ = look child val via get key l₀ n₀) :
    look child val via get' key top root = look child val via get key top root := by
  have hall : ∀ l, l₀ ≤ l → ∀ n, Visits child get key top root l n →
      look child val via get' key l n = look child val via get key l n := by
    intro l hl
    induction hl with
    | refl =>
      intro n hn
      rwa [hn.unique hv]
    | @step l hl ih =>
      intro n hn
      have hlt : l₀ < l + 1 := Nat.lt_succ_of_le hl
      rw [look, look, hg (l + 1) n hlt hn]
      cases hc : child (l + 1) (get n (key (l + 1))) with
      | none => rfl
      | some n' =>
        dsimp only
        rw [ih n' (.down hn hc)]
  exact hall top hv.le root .root

theorem look_proj {p : V → W} (hp : ∀ e v, p (via e v) = p v)
    (hv : Visits child get key top root l₀ n₀) :
    (look child val via get key top root).map p = (look child val via get key l₀ n₀).map p := by
  induction hv with
  | root => rfl
  | @down l n n' _ hc ih =>
    rw [ih, look, hc]
    rw [Option.map_map]
    exact congrArg (Option.map · _) (funext (hp _))

end Look

/-! ### Trees -/

/-- Every node has one level and one entry that leads to it. -/
structure Tree (child : ℕ → E → Option N) (get : N → I → E) (top : ℕ) (root : N) : Prop where
  level : ∀ {l l' : ℕ} {n : N}, Reach child get top root l n → Reach child get top root l' n → l = l'
  parent : ∀ {l : ℕ} {n₁ n₂ n' : N} {i₁ i₂ : I}, Reach child get top root (l + 1) n₁ →
    child (l + 1) (get n₁ i₁) = some n' → Reach child get top root (l + 1) n₂ →
    child (l + 1) (get n₂ i₂) = some n' → n₁ = n₂ ∧ i₁ = i₂

section Same

variable (hg : ∀ l n i, Reach child get top root l n → get' n i = get n i)

include hg

theorem Reach.of_same (h : Reach child get' top root l n) : Reach child get top root l n := by
  induction h with
  | root => exact .root
  | down _ hc ih =>
    rw [hg _ _ _ ih] at hc
    exact .down ih hc

theorem Reach.same (h : Reach child get top root l n) : Reach child get' top root l n := by
  induction h with
  | root => exact .root
  | @down l n n' i hr hc ih => exact .down ih (by rw [hg _ _ _ hr, hc])

theorem Tree.of_same (ht : Tree child get top root) : Tree child get' top root where
  level h h' := ht.level (h.of_same hg) (h'.of_same hg)
  parent {l n1 n2 n' i1 i2} h1 hc1 h2 hc2 := by
    have hr1 := h1.of_same hg
    have hr2 := h2.of_same hg
    rw [hg _ _ _ hr1] at hc1
    rw [hg _ _ _ hr2] at hc2
    exact ht.parent hr1 hc1 hr2 hc2

end Same

section Copy

variable {root' : N} (φ : N → N) (hroot : φ root' = root)
  (hstep : ∀ {l n n' i}, Reach child get' top root' (l + 1) n →
    Reach child get top root (l + 1) (φ n) →
    child (l + 1) (get' n i) = some n' → child (l + 1) (get (φ n) i) = some (φ n'))

include hroot hstep

theorem Reach.map (h : Reach child get' top root' l n) : Reach child get top root l (φ n) := by
  induction h with
  | root =>
    rw [hroot]
    exact .root
  | down hr hc ih => exact .down ih (hstep hr ih hc)

/-- **A copy of a part of a tree is a tree.** -/
theorem Tree.of_copy (ht : Tree child get top root)
    (hinj : ∀ {l l' n n'}, Reach child get' top root' l n → Reach child get' top root' l' n' →
      φ n = φ n' → n = n') : Tree child get' top root' where
  level h h' := ht.level (h.map φ hroot hstep) (h'.map φ hroot hstep)
  parent {l n1 n2 n' i1 i2} h1 hc1 h2 hc2 := by
    have hr1 := h1.map φ hroot hstep
    have hr2 := h2.map φ hroot hstep
    obtain ⟨hn, hi⟩ := ht.parent hr1 (hstep h1 hr1 hc1) hr2 (hstep h2 hr2 hc2)
    exact ⟨hinj h1 h2 hn, hi⟩

end Copy

/-- **Keys that visit the same node agree above it.** -/
theorem Tree.key_eq (ht : Tree child get top root) (h : Visits child get key top root l n)
    (h' : Visits child get key' top root l n) {m : ℕ} (hm : l < m) (hm' : m ≤ top) :
    key m = key' m := by
  induction h with
  | root => omega
  | @down l n n' hv hc ih =>
    cases h' with
    | root => exact absurd hv.le (Nat.not_succ_le_self _)
    | down hv' hc' =>
      obtain ⟨rfl, hi⟩ := ht.parent hv.reach hc hv'.reach hc'
      rcases Nat.lt_or_eq_of_le (Nat.succ_le_of_lt hm) with hlt | rfl
      · exact ih hv' hlt
      · exact hi

/-- The memory after a write to the entry `i₀` of `n₀`, as far as the tree goes. -/
def Writes (child : ℕ → E → Option N) (get get' : N → I → E) (top : ℕ) (root n₀ : N) (i₀ : I) :
    Prop :=
  ∀ l n i, Reach child get top root l n → n ≠ n₀ ∨ i ≠ i₀ → get' n i = get n i

section Writes

variable {i₀ : I} {val : ℕ → E → Option V} {via : E → V → V}

section

variable (hw : Writes child get get' top root n₀ i₀)

include hw

/-- **Keys that do not go through the entry written to find what they found.** -/
theorem look_of_not_through (hk : ∀ l, Visits child get key top root l n₀ → key l ≠ i₀) :
    look child val via get' key top root = look child val via get key top root := by
  refine look_congr fun l n hv => hw l n _ hv.reach ?_
  by_cases hn : n = n₀
  · subst hn
    exact .inr (hk l hv)
  · exact .inl hn

section

variable (ht : Tree child get top root)

include ht

theorem Writes.above (hn0 : Reach child get top root l₀ n₀) (hl : l₀ < l)
    (hv : Visits child get key top root l n) :
    get' n (key l) = get n (key l) := by
  refine hw l n _ hv.reach (.inl ?_)
  rintro rfl
  exact absurd (ht.level hn0 hv.reach) (Nat.ne_of_lt hl)

theorem Writes.visits_iff (hn0 : Reach child get top root l₀ n₀) (hl : l₀ ≤ l) :
    Visits child get' key top root l n ↔ Visits child get key top root l n := by
  constructor
  · intro h
    induction h with
    | root => exact .root
    | @down l n n' _ hc ih =>
      have hv := ih (Nat.le_succ_of_le hl)
      rw [hw.above ht hn0 (Nat.lt_succ_of_le hl) hv] at hc
      exact .down hv hc
  · intro h
    exact h.congr fun l' n' hl' hv => hw.above ht hn0 (Nat.lt_of_le_of_lt hl hl') hv

theorem look_of_through (hv : Visits child get key top root l₀ n₀)
    (h0 : look child val via get' key l₀ n₀ = look child val via get key l₀ n₀) :
    look child val via get' key top root = look child val via get key top root :=
  look_congr_below hv (fun _ _ hl hv' => hw.above ht hv.reach hl hv') h0

/-- **A write is seen through the entry only**: what the keys through it find below decides. -/
theorem look_write (hn0 : Reach child get top root l₀ n₀)
    (h : Visits child get key top root l₀ n₀ → key l₀ = i₀ →
      look child val via get' key l₀ n₀ = look child val via get key l₀ n₀) :
    look child val via get' key top root = look child val via get key top root := by
  by_cases hv : Visits child get key top root l₀ n₀ ∧ key l₀ = i₀
  · exact look_of_through hw ht hv.1 (h hv.1 hv.2)
  · refine look_of_not_through hw fun l hl hi => hv ?_
    obtain rfl : l = l₀ := ht.level hl.reach hn0
    exact ⟨hl, hi⟩

end

end

theorem Reach.of_leaf (h : Reach child get' top root l n)
    (hw : Writes child get get' top root n₀ i₀) (ht : Tree child get top root)
    (hn0 : Reach child get top root l₀ n₀) (hc : child l₀ (get' n₀ i₀) = none) :
    Reach child get top root l n := by
  induction h with
  | root => exact .root
  | @down l n n' i _ hc' ih =>
    by_cases hx : n = n₀ ∧ i = i₀
    · obtain ⟨rfl, rfl⟩ := hx
      rw [ht.level ih hn0, hc] at hc'
      cases hc'
    · rw [hw _ n i ih (not_and_or.mp hx)] at hc'
      exact .down ih hc'

theorem Writes.child_of_ne (hw : Writes child get get' top root n₀ i₀) {i : I}
    (hr : Reach child get top root l n) (hx : ¬ (n = n₀ ∧ i = i₀))
    (hc : child l (get' n i) = some n') : child l (get n i) = some n' := by
  rwa [hw l n i hr (not_and_or.mp hx)] at hc

/-- **A write of an entry without child keeps the tree.** -/
theorem Tree.leaf (hw : Writes child get get' top root n₀ i₀) (ht : Tree child get top root)
    (hn0 : Reach child get top root l₀ n₀) (hc : child l₀ (get' n₀ i₀) = none) :
    Tree child get' top root where
  level h h' := ht.level (h.of_leaf hw ht hn0 hc) (h'.of_leaf hw ht hn0 hc)
  parent {l n1 n2 n' i1 i2} h1 hc1 h2 hc2 := by
    have hr1 := h1.of_leaf hw ht hn0 hc
    have hr2 := h2.of_leaf hw ht hn0 hc
    have hne : ∀ {n i}, Reach child get top root (l + 1) n →
        child (l + 1) (get' n i) = some n' → ¬ (n = n₀ ∧ i = i₀) := by
      rintro n i hr hc' ⟨rfl, rfl⟩
      rw [ht.level hr hn0, hc] at hc'
      cases hc'
    exact ht.parent hr1 (hw.child_of_ne hr1 (hne hr1 hc1) hc1) hr2
      (hw.child_of_ne hr2 (hne hr2 hc2) hc2)

variable (hw : Writes child get get' top root n₀ i₀) (ht : Tree child get top root)
  (hn0 : Reach child get top root (l₀ + 1) n₀) (hc : child (l₀ + 1) (get' n₀ i₀) = some f)
  (hf : ∀ i, child l₀ (get' f i) = none)

include hw ht hn0 hc hf

/-- With an entry that leads to `f`, a node without children, `f` is the only new node. -/
theorem Reach.of_node (h : Reach child get' top root l n) :
    Reach child get top root l n ∨ l = l₀ ∧ n = f := by
  induction h with
  | root => exact .inl .root
  | @down l n n' i _ hc' ih =>
    rcases ih with ih | ⟨rfl, rfl⟩
    · by_cases hx : n = n₀ ∧ i = i₀
      · obtain ⟨rfl, rfl⟩ := hx
        obtain rfl : l = l₀ := Nat.succ.inj (ht.level ih hn0)
        exact .inr ⟨rfl, Option.some.inj (hc'.symm.trans hc)⟩
      · exact .inl (.down ih (hw.child_of_ne ih hx hc'))
    · rw [hf i] at hc'
      cases hc'

/-- **A write of an entry that leads to a fresh node without children keeps the tree.** -/
theorem Tree.node (hfresh : ∀ l, ¬ Reach child get top root l f) :
    Tree child get' top root where
  level {l l' n} h h' := by
    rcases Reach.of_node hw ht hn0 hc hf h with hr | ⟨rfl, rfl⟩ <;>
      rcases Reach.of_node hw ht hn0 hc hf h' with hr' | ⟨rfl, hn'⟩
    · exact ht.level hr hr'
    · exact absurd (hn' ▸ hr) (hfresh _)
    · exact absurd hr' (hfresh _)
    · rfl
  parent {l n1 n2 n' i1 i2} h1 hc1 h2 hc2 := by
    -- a parent is an old node, and its entry is old or the new one
    have hold : ∀ {n i}, Reach child get' top root (l + 1) n → child (l + 1) (get' n i) = some n' →
        Reach child get top root (l + 1) n ∧
          (n = n₀ ∧ i = i₀ ∧ n' = f ∨ child (l + 1) (get n i) = some n') := by
      intro n i h hc'
      rcases Reach.of_node hw ht hn0 hc hf h with hr | ⟨hl, rfl⟩
      · refine ⟨hr, ?_⟩
        by_cases hx : n = n₀ ∧ i = i₀
        · obtain ⟨rfl, rfl⟩ := hx
          rw [ht.level hr hn0] at hc'
          exact .inl ⟨rfl, rfl, Option.some.inj (hc'.symm.trans hc)⟩
        · exact .inr (hw.child_of_ne hr hx hc')
      · rw [hl, hf i] at hc'
        cases hc'
    obtain ⟨hr1, ⟨rfl, rfl, hf1⟩ | hc1'⟩ := hold h1 hc1 <;>
      obtain ⟨hr2, ⟨rfl, rfl, hf2⟩ | hc2'⟩ := hold h2 hc2
    · exact ⟨rfl, rfl⟩
    · exact absurd (hf1 ▸ Reach.down hr2 hc2') (hfresh _)
    · exact absurd (hf2 ▸ Reach.down hr1 hc1') (hfresh _)
    · exact ht.parent hr1 hc1' hr2 hc2'

end Writes

end TipOS.Lib.Radix
