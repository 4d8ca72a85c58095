import Mathlib.Data.List.TakeDrop
import Mathlib.Tactic.NormNum

/-!
# Ring buffers with free-running positions

A buffer of `cap` cells with a position for reading and one for writing.  The positions are counters
modulo `M`, a multiple of `cap`; a position is the cell with its number modulo `cap`.

`content` is the queue that such a buffer stands for.  `push` appends to it and `pop` takes its
first element, also when a counter starts again from 0 (`content_push`, `content_pop`).  The loops
`pushAll` and `popAll` take and give as much as there is room and content.
-/

namespace TipOS.Lib

open List Nat

/-- The cells and the two positions. -/
structure RingBuf (α : Type*) where
  buf : ℕ → α
  rpos : ℕ
  wpos : ℕ

namespace RingBuf

variable {α : Type*} (cap M : ℕ)

/-- `wpos - rpos` modulo `M`. -/
def count (b : RingBuf α) : ℕ := (b.wpos + (M - b.rpos)) % M

/-- `buf[wpos % cap] = x; wpos++`. -/
def push (b : RingBuf α) (x : α) : RingBuf α :=
  { b with buf := Function.update b.buf (b.wpos % cap) x, wpos := (b.wpos + 1) % M }

/-- `buf[rpos % cap]`. -/
def first (b : RingBuf α) : α := b.buf (b.rpos % cap)

/-- `rpos++`. -/
def pop (b : RingBuf α) : RingBuf α := { b with rpos := (b.rpos + 1) % M }

/-- `while (n < count && wpos - rpos < cap)` over the elements of a list: how many went in. -/
def pushAll : List α → RingBuf α → ℕ × RingBuf α
  | [], b => (0, b)
  | x :: xs, b =>
    if b.count M < cap then
      let y := pushAll xs (b.push cap M x)
      (y.1 + 1, y.2)
    else (0, b)

/-- `while (n < count && rpos != wpos)`: what came out. -/
def popAll : ℕ → RingBuf α → List α × RingBuf α
  | 0, b => ([], b)
  | n + 1, b =>
    if b.rpos ≠ b.wpos then
      let y := popAll n (b.pop M)
      (b.first cap :: y.1, y.2)
    else ([], b)

/-- The queue. -/
def content (b : RingBuf α) : List α :=
  (List.range (b.count M)).map fun i => b.buf ((b.rpos + i) % cap)

/-- The positions are counters, at most `cap` apart. -/
structure Valid (b : RingBuf α) : Prop where
  rpos : b.rpos < M
  wpos : b.wpos < M
  le : b.count M ≤ cap

/-- The cells divide the counters. -/
structure Sizes : Prop where
  pos : 0 < cap
  lt : cap < M
  dvd : cap ∣ M

@[simp] theorem length_content (b : RingBuf α) : (b.content cap M).length = b.count M := by
  rw [content, length_map, length_range]

section Steps

variable {cap M} {b : RingBuf α}

theorem Valid.wpos_eq (h : b.Valid cap M) : b.wpos = (b.rpos + b.count M) % M := by
  have hr := h.rpos
  have hw := h.wpos
  rw [count, add_mod_mod]
  have he : b.rpos + (b.wpos + (M - b.rpos)) = b.wpos + M := by omega
  rw [he, add_mod_right, mod_eq_of_lt hw]

theorem Valid.count_eq_zero_iff (h : b.Valid cap M) :
    b.count M = 0 ↔ b.rpos = b.wpos := by
  have hw := h.wpos_eq
  have hr := h.rpos
  constructor
  · intro h0
    rw [h0, add_zero, mod_eq_of_lt hr] at hw
    exact hw.symm
  · intro he
    rw [count, ← he, Nat.add_sub_cancel' hr.le, Nat.mod_self]

theorem cell_ne {r i n : ℕ} (hi : i < n) (hn : n < cap) : (r + i) % cap ≠ (r + n) % cap := by
  intro he
  have h1 := Nat.sub_mod_eq_zero_of_mod_eq he.symm
  rw [Nat.add_sub_add_left, Nat.mod_eq_of_lt (by omega)] at h1
  omega

variable (hs : Sizes cap M) (h : b.Valid cap M)

include hs h

theorem count_push (hlt : b.count M < cap) (x : α) :
    (b.push cap M x).count M = b.count M + 1 := by
  have hr := h.rpos
  have hw := h.wpos
  have hM := hs.lt
  have hc : (b.wpos + (M - b.rpos)) % M < cap := hlt
  rw [count, count, push]
  dsimp only
  rw [mod_add_mod, add_right_comm, ← mod_add_mod]
  exact mod_eq_of_lt (by omega)

theorem count_pop (hne : b.rpos ≠ b.wpos) :
    (b.pop M).count M = b.count M - 1 := by
  have hpos : b.count M ≠ 0 := fun h0 => hne (h.count_eq_zero_iff.mp h0)
  have hr := h.rpos
  have hw := h.wpos
  have hle := h.le
  have hM := hs.lt
  have hcount : b.wpos + (M - b.rpos) = b.count M ∨ b.wpos + (M - b.rpos) = b.count M + M := by
    by_cases hlt : b.wpos + (M - b.rpos) < M
    · exact .inl (mod_eq_of_lt hlt).symm
    · refine .inr ?_
      rw [count, mod_eq_sub_mod (by omega), mod_eq_of_lt (by omega)]
      omega
  have hgoal : (b.wpos + (M - (b.rpos + 1) % M)) % M = b.count M - 1 := by
    by_cases hwrap : b.rpos + 1 = M
    · rw [hwrap, Nat.mod_self, Nat.sub_zero, Nat.add_mod_right, Nat.mod_eq_of_lt hw]
      omega
    rw [mod_eq_of_lt (show b.rpos + 1 < M by omega)]
    rcases hcount with hc | hc
    · rw [mod_eq_of_lt (by omega)]
      omega
    · rw [mod_eq_sub_mod (by omega), mod_eq_of_lt (by omega)]
      omega
  exact hgoal

theorem Valid.push (hlt : b.count M < cap) (x : α) :
    (b.push cap M x).Valid cap M where
  rpos := h.rpos
  wpos := mod_lt _ (hs.pos.trans hs.lt)
  le := by
    rw [count_push hs h hlt]
    exact hlt

theorem Valid.pop (hne : b.rpos ≠ b.wpos) :
    (b.pop M).Valid cap M where
  rpos := mod_lt _ (hs.pos.trans hs.lt)
  wpos := h.wpos
  le := by
    rw [count_pop hs h hne]
    exact (sub_le _ _).trans h.le

/-- **A `push` appends.** -/
theorem content_push (hlt : b.count M < cap) (x : α) :
    (b.push cap M x).content cap M = b.content cap M ++ [x] := by
  have hcell : b.wpos % cap = (b.rpos + b.count M) % cap := by
    rw [h.wpos_eq, mod_mod_of_dvd _ hs.dvd]
  rw [content, count_push hs h hlt, range_succ, map_append, map_singleton, content,
    push]
  dsimp only
  rw [hcell, Function.update_self]
  congr 1
  refine map_congr_left fun i hi => ?_
  exact Function.update_of_ne (cell_ne (mem_range.mp hi) hlt) _ _

/-- **A `pop` takes the first.** -/
theorem content_pop (hne : b.rpos ≠ b.wpos) :
    b.content cap M = b.first cap :: (b.pop M).content cap M := by
  have hpos : b.count M ≠ 0 := fun h0 => hne (h.count_eq_zero_iff.mp h0)
  obtain ⟨n, hn⟩ := exists_eq_succ_of_ne_zero hpos
  rw [content, content, count_pop hs h hne, hn, succ_sub_one, range_succ_eq_map,
    map_cons, map_map]
  congr 1
  refine map_congr_left fun i _ => ?_
  change b.buf ((b.rpos + (i + 1)) % cap) = b.buf (((b.rpos + 1) % M + i) % cap)
  rw [add_mod ((b.rpos + 1) % M), mod_mod_of_dvd _ hs.dvd, ← add_mod,
    add_right_comm, add_assoc]

end Steps

section Loops

variable {cap M} {b : RingBuf α} (hs : Sizes cap M)

include hs

/-- **What a writing loop does**: as many elements as there is room for are appended. -/
theorem pushAll_spec (xs : List α) (h : b.Valid cap M) :
    (pushAll cap M xs b).1 = min xs.length (cap - b.count M) ∧
    (pushAll cap M xs b).2.Valid cap M ∧
    (pushAll cap M xs b).2.content cap M =
      b.content cap M ++ xs.take (min xs.length (cap - b.count M)) := by
  induction xs generalizing b with
  | nil => exact ⟨(zero_min _).symm, h, by simp [pushAll]⟩
  | cons x xs ih =>
    rw [pushAll]
    by_cases hlt : b.count M < cap
    · rw [if_pos hlt]
      obtain ⟨hn, hv, hc⟩ := ih (h.push hs hlt x)
      have hroom : min (x :: xs).length (cap - b.count M) =
          min xs.length (cap - (b.push cap M x).count M) + 1 := by
        rw [count_push hs h hlt, length_cons]
        omega
      refine ⟨?_, hv, ?_⟩
      · rw [hroom]
        exact congrArg (· + 1) hn
      · rw [hroom, take_succ_cons, append_cons, ← content_push hs h hlt]
        exact hc
    · rw [if_neg hlt]
      have hzero : min (x :: xs).length (cap - b.count M) = 0 := by omega
      exact ⟨hzero.symm, h, by rw [hzero, take_zero, append_nil]⟩

/-- **What a reading loop does**: it takes the first elements. -/
theorem popAll_spec (n : ℕ) (h : b.Valid cap M) :
    (popAll cap M n b).1 = (b.content cap M).take n ∧
    (popAll cap M n b).2.Valid cap M ∧
    (popAll cap M n b).2.content cap M = (b.content cap M).drop n := by
  induction n generalizing b with
  | zero => exact ⟨rfl, h, rfl⟩
  | succ n ih =>
    rw [popAll]
    by_cases hne : b.rpos = b.wpos
    · have hnil : b.content cap M = [] := by
        rw [← length_eq_zero_iff, length_content]
        exact h.count_eq_zero_iff.mpr hne
      rw [if_neg (not_not.mpr hne), hnil]
      exact ⟨rfl, h, rfl⟩
    · rw [if_pos hne, content_pop hs h hne]
      obtain ⟨ho, hv, hc⟩ := ih (h.pop hs hne)
      exact ⟨congrArg (b.first cap :: ·) ho, hv, hc⟩

theorem popAll_advance (n : ℕ) (h : b.Valid cap M) :
    (popAll cap M n b).2 = { b with rpos := (b.rpos + (popAll cap M n b).1.length) % M } ∧
    (popAll cap M n b).1.length ≤ b.count M := by
  refine ⟨?_, ?_⟩
  · induction n generalizing b with
    | zero =>
      change b = { b with rpos := (b.rpos + 0) % M }
      rw [add_zero, mod_eq_of_lt h.rpos]
    | succ n ih =>
      rw [popAll]
      by_cases hne : b.rpos = b.wpos
      · rw [if_neg (not_not.mpr hne)]
        change b = { b with rpos := (b.rpos + 0) % M }
        rw [add_zero, mod_eq_of_lt h.rpos]
      rw [if_pos hne]
      rw [ih (h.pop hs hne), length_cons, pop]
      rw [mod_add_mod, add_assoc, add_comm 1]
  · rw [(popAll_spec hs n h).1, length_take, length_content]
    exact min_le_right _ _

theorem content_advance (h : b.Valid cap M) {k : ℕ} (hk : k ≤ b.count M) :
    RingBuf.Valid cap M { b with rpos := (b.rpos + k) % M } ∧
    content cap M { b with rpos := (b.rpos + k) % M } = (b.content cap M).drop k := by
  obtain ⟨hout, hv, hc⟩ := popAll_spec hs k h
  have hlen : (popAll cap M k b).1.length = k := by
    rw [hout, length_take, length_content, min_eq_left hk]
  have he := (popAll_advance hs k h).1
  rw [hlen] at he
  rw [he] at hv hc
  exact ⟨hv, hc⟩

theorem pushAll_advance (xs : List α) (h : b.Valid cap M) :
    (pushAll cap M xs b).2.rpos = b.rpos ∧
    (pushAll cap M xs b).2.wpos = (b.wpos + (pushAll cap M xs b).1) % M := by
  induction xs generalizing b with
  | nil =>
    refine ⟨rfl, ?_⟩
    change b.wpos = (b.wpos + 0) % M
    rw [add_zero, mod_eq_of_lt h.wpos]
  | cons x xs ih =>
    rw [pushAll]
    by_cases hlt : b.count M < cap
    · rw [if_pos hlt]
      obtain ⟨hr, hw⟩ := ih (h.push hs hlt x)
      refine ⟨hr, ?_⟩
      rw [hw, push]
      rw [mod_add_mod, add_assoc, add_comm 1]
    · rw [if_neg hlt]
      refine ⟨rfl, ?_⟩
      rw [add_zero, mod_eq_of_lt h.wpos]

end Loops

theorem popAll_empty (cap M n : ℕ) {b : RingBuf α} (h : b.rpos = b.wpos) :
    popAll cap M n b = ([], b) := by
  cases n with
  | zero => rfl
  | succ n => exact if_neg (not_not.mpr h)

theorem popAll_add (cap M m n : ℕ) (b : RingBuf α) :
    popAll cap M (m + n) b = ((popAll cap M m b).1 ++ (popAll cap M n (popAll cap M m b).2).1,
      (popAll cap M n (popAll cap M m b).2).2) := by
  induction m generalizing b with
  | zero => rw [zero_add, popAll, nil_append]
  | succ m ih =>
    rw [succ_add, popAll, popAll]
    by_cases hne : b.rpos = b.wpos
    · rw [if_neg (not_not.mpr hne), if_neg (not_not.mpr hne), popAll_empty cap M n hne,
        append_nil]
    · rw [if_pos hne, if_pos hne, ih]
      rfl

theorem popAll_short (cap M n : ℕ) {b : RingBuf α} (h : (popAll cap M n b).1.length < n) :
    (popAll cap M n b).2.rpos = (popAll cap M n b).2.wpos := by
  induction n generalizing b with
  | zero => cases h
  | succ n ih =>
    rw [popAll] at h ⊢
    by_cases hne : b.rpos = b.wpos
    · rw [if_neg (not_not.mpr hne)]
      exact hne
    · rw [if_pos hne] at h ⊢
      exact ih (lt_of_succ_lt_succ h)

theorem Valid.empty {cap M : ℕ} (hs : Sizes cap M) (buf : ℕ → α) :
    (⟨buf, 0, 0⟩ : RingBuf α).Valid cap M ∧ (⟨buf, 0, 0⟩ : RingBuf α).content cap M = [] := by
  have hc : (⟨buf, 0, 0⟩ : RingBuf α).count M = 0 := by
    rw [count, Nat.sub_zero, Nat.zero_add, Nat.mod_self]
  refine ⟨⟨hs.pos.trans hs.lt, hs.pos.trans hs.lt, ?_⟩, ?_⟩
  · rw [hc]
    exact zero_le cap
  · rw [content, hc]
    rfl

end RingBuf

end TipOS.Lib
