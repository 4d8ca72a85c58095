import Mathlib.Algebra.Order.Ring.Int

/-!
# The text of the editor

`userland/progs/graphy.c`: `replace` works in the buffer, byte by byte, and the coordinates of the
cursor go by a table of line starts.  The table has `MAXLNS` entries at most, and its last line goes
to the end of the text.

* `replace_spec`: the occurrences are replaced from the left, the new text is not looked at again;
* `coordinates`: offsets and coordinates determine each other.
-/

namespace TipOS.Progs

open List

/-! ### `replace` -/

/-- `ins`, there being memory. -/
def ins (buf : List UInt8) (off : ℕ) (c : UInt8) : List UInt8 := buf.take off ++ c :: buf.drop off

def del (buf : List UInt8) (off : ℕ) : List UInt8 := buf.eraseIdx off

/-- `for (int j = 0; j < n; j++) del(i)`. -/
def delN (i : ℕ) : ℕ → List UInt8 → List UInt8
  | 0, buf => buf
  | n + 1, buf => delN i n (del buf i)

/-- `for (int j = 0; j < rl; j++) ins(i + j, r[j])`. -/
def insAll : List UInt8 → ℕ → List UInt8 → List UInt8
  | [], _, buf => buf
  | c :: r, i, buf => insAll r (i + 1) (ins buf i c)

/-- The loop of `replace`; the first argument bounds the number of its turns. -/
def replaceLoop (q r : List UInt8) : ℕ → ℕ → ℕ → List UInt8 → List UInt8 × ℕ
  | 0, _, count, buf => (buf, count)
  | n + 1, i, count, buf =>
    if i + q.length ≤ buf.length then
      if q <+: buf.drop i then
        replaceLoop q r n (i + r.length) (count + 1) (insAll r i (delN i q.length buf))
      else replaceLoop q r n (i + 1) count buf
    else (buf, count)

def replace (q r buf : List UInt8) : List UInt8 × ℕ :=
  if q.length = 0 then (buf, 0) else replaceLoop q r (buf.length + 1) 0 0 buf

/-- `t` is `s` with `n` occurrences of `q` replaced, from the left and without overlaps. -/
inductive Replaced (q r : List UInt8) : List UInt8 → List UInt8 → ℕ → Prop
  | nil : Replaced q r [] [] 0
  | hit {s t n} : Replaced q r s t n → Replaced q r (q ++ s) (r ++ t) (n + 1)
  | miss {b s t n} : ¬ q <+: b :: s → Replaced q r s t n → Replaced q r (b :: s) (b :: t) n

variable {q r u s t : List UInt8}

theorem delN_append (u v s : List UInt8) : delN u.length v.length (u ++ (v ++ s)) = u ++ s := by
  induction v with
  | nil => rfl
  | cons b v ih =>
    rw [length_cons, delN, del, eraseIdx_append_of_length_le (Nat.le_refl _), Nat.sub_self]
    exact ih

theorem insAll_append (r u s : List UInt8) : insAll r u.length (u ++ s) = u ++ (r ++ s) := by
  induction r generalizing u with
  | nil => rfl
  | cons c r ih =>
    have h := ih (u ++ [c])
    rw [length_append, append_assoc, append_assoc] at h
    rw [insAll, ins, take_left, drop_left]
    exact h

theorem replaced_self (h : s.length < q.length) : Replaced q r s s 0 := by
  induction s with
  | nil => exact .nil
  | cons b s ih =>
    refine .miss (fun hp => ?_) (ih (by rw [length_cons] at h; omega))
    exact absurd hp.length_le (by omega)

theorem replaceLoop_spec (hq : q ≠ []) (n count : ℕ) (u s : List UInt8) (hn : s.length < n) :
    ∃ t m, replaceLoop q r n u.length count (u ++ s) = (u ++ t, count + m) ∧ Replaced q r s t m := by
  induction n generalizing count u s with
  | zero => omega
  | succ n ih =>
    rw [replaceLoop, length_append, drop_left]
    split
    · split
      · next hp =>
        obtain ⟨s, rfl⟩ := hp
        rw [length_append] at hn
        have hpos := length_pos_iff.mpr hq
        obtain ⟨t, m, he, ht⟩ := ih (count + 1) (u ++ r) s (by omega)
        rw [length_append, append_assoc, append_assoc] at he
        rw [delN_append, insAll_append]
        exact ⟨r ++ t, m + 1, by rw [he, Nat.add_right_comm, Nat.add_assoc], ht.hit⟩
      · next hlen hp =>
        cases s with
        | nil =>
          rw [length_nil] at hlen
          have hpos := length_pos_iff.mpr hq
          omega
        | cons b s =>
          obtain ⟨t, m, he, ht⟩ := ih count (u ++ [b]) s (by simpa using hn)
          rw [length_append, append_assoc, append_assoc] at he
          exact ⟨b :: t, m, he, ht.miss hp⟩
    · next hlen => exact ⟨s, 0, rfl, replaced_self (by omega)⟩

/-- **`replace` replaces the occurrences from the left and counts them.** -/
theorem replace_spec (q r buf : List UInt8) (hq : q ≠ []) :
    Replaced q r buf (replace q r buf).1 (replace q r buf).2 := by
  obtain ⟨t, m, he, ht⟩ := replaceLoop_spec (r := r) hq _ 0 [] buf (Nat.lt_succ_self _)
  rw [replace, if_neg (fun h => hq (length_eq_zero_iff.mp h))]
  rw [show replaceLoop q r (buf.length + 1) 0 0 buf = (t, m) by simpa using he]
  exact ht

theorem replace_spec_twice : Replaced [97] [98, 98] [97, 99, 97] [98, 98, 99, 98, 98] 2 :=
  replace_spec [97] [98, 98] [97, 99, 97] (by decide)

/-! ### Coordinates -/

def maxLns : ℕ := 4096

/-- `lns` and `nlns`. -/
structure Lns where
  start : ℕ → ℕ
  n : ℕ

/-- The loop of `lns_build` from offset `i` on. -/
def lnsLoop : List UInt8 → ℕ → Lns → Lns
  | [], _, t => t
  | b :: s, i, t =>
    if b = 10 then
      let t := ⟨Function.update t.start t.n (i + 1), t.n + 1⟩
      if maxLns ≤ t.n then t else lnsLoop s (i + 1) t
    else lnsLoop s (i + 1) t

def lnsBuild (buf : List UInt8) : Lns := lnsLoop buf 0 ⟨fun _ => 0, 1⟩

namespace Lns

variable (t : Lns) (sz : ℕ)

/-- `nl`: where line `i` ends. -/
def stop (i : ℕ) : ℤ := if i + 1 < t.n then (t.start (i + 1) : ℤ) - 1 else sz

/-- The loop of `off_xy` over `k` lines from line `i` on: column and line. -/
def offLoop (off : ℤ) : ℕ → ℕ → ℤ × ℤ
  | 0, _ => (0, t.n - 1)
  | k + 1, i =>
    if off ≤ t.stop sz i ∨ t.n ≤ i + 1 then (off - t.start i, i) else offLoop off k (i + 1)

def offXy (off : ℤ) : ℤ × ℤ :=
  let off := if off < 0 then 0 else off
  let off := if sz < off then (sz : ℤ) else off
  t.offLoop sz off t.n 0

def xyOff (x y : ℤ) : ℤ :=
  let y := if y < 0 then 0 else y
  let y := if t.n ≤ y then (t.n - 1 : ℤ) else y
  let o := (t.start y.toNat + x).bmod (2 ^ 32)
  let nl := t.stop sz y.toNat
  let o := if nl < o then nl else o
  if o < t.start y.toNat then t.start y.toNat else o

/-- The lines begin at the beginning, are not empty and lie in the text. -/
structure Ok : Prop where
  pos : 0 < t.n
  zero : t.start 0 = 0
  step : ∀ i, i + 1 < t.n → t.start i < t.start (i + 1)
  le : ∀ i < t.n, t.start i ≤ sz

/-- Offset `o` is on line `j`. -/
structure On (j : ℕ) (o : ℤ) : Prop where
  lt : j < t.n
  start_le : t.start j ≤ o
  le_stop : o ≤ t.stop sz j

variable {t sz} {i j k : ℕ} {x y o : ℤ}

theorem Ok.weaken (h : t.Ok sz) (hk : sz ≤ k) : t.Ok k :=
  ⟨h.pos, h.zero, h.step, fun i hi => Nat.le_trans (h.le i hi) hk⟩

theorem lnsLoop_ok (s : List UInt8) (h : t.Ok i) : (lnsLoop s i t).Ok (i + s.length) := by
  induction s generalizing i t with
  | nil => exact h
  | cons b s ih =>
    have hmore : Ok ⟨Function.update t.start t.n (i + 1), t.n + 1⟩ (i + 1) := by
      obtain ⟨hpos, hzero, hstep, hle⟩ := h
      refine ⟨Nat.succ_pos _, ?_, fun k hk => ?_, fun k hk => ?_⟩
      · exact (Function.update_of_ne (by omega) _ _).trans hzero
      · dsimp only at hk ⊢
        have hle' := hle k (by omega)
        rw [Function.update_of_ne (by omega), Function.update_apply]
        split
        · omega
        · exact hstep k (by omega)
      · dsimp only at hk ⊢
        rw [Function.update_apply]
        split
        · exact Nat.le_refl _
        · exact Nat.le_succ_of_le (hle k (by omega))
    rw [lnsLoop, List.length_cons, Nat.add_comm s.length, ← Nat.add_assoc]
    split
    · dsimp only
      split
      · exact hmore.weaken (Nat.le_add_right _ _)
      · exact ih hmore
    · exact ih (h.weaken (Nat.le_succ i))

theorem Ok.start_le_start (h : t.Ok sz) (hij : i ≤ j) (hj : j < t.n) : t.start i ≤ t.start j := by
  induction j, hij using Nat.le_induction with
  | base => exact Nat.le_refl _
  | succ j _ ih => exact Nat.le_trans (ih (by omega)) (Nat.le_of_lt (h.step j hj))

theorem offLoop_on (hi : i + k = t.n) (hk : 0 < k) (ho : t.start i ≤ o) (hs : o ≤ sz) :
    ∃ j, t.On sz j o ∧ t.offLoop sz o k i = (o - t.start j, (j : ℤ)) := by
  induction k generalizing i with
  | zero => omega
  | succ k ih =>
    rw [offLoop]
    split
    · next hor =>
      refine ⟨i, ⟨by omega, ho, ?_⟩, rfl⟩
      rcases hor with h1 | h1
      · exact h1
      · rwa [stop, if_neg (by omega)]
    · next hor =>
      rw [not_or, stop, if_pos (by omega)] at hor
      exact ih (by omega) (by omega) (by omega)

section

variable (h : t.Ok sz)

include h

theorem Ok.start_le_stop (hj : j < t.n) : t.start j ≤ t.stop sz j ∧ t.stop sz j ≤ sz := by
  have hle := h.le j hj
  rw [stop]
  split
  · next hlt =>
    have hstep := h.step j hlt
    have hle' := h.le (j + 1) hlt
    omega
  · omega

theorem On.not_lt (hi : t.On sz i o) (hj : t.On sz j o) : ¬ i < j := by
  intro hij
  have hlt := hj.lt
  have hmono := h.start_le_start (i := i + 1) hij hlt
  have h1 := hi.le_stop
  have h2 := hj.start_le
  rw [stop, if_pos (by omega)] at h1
  omega

theorem offXy_eq (hj : t.On sz j o) : t.offXy sz o = (o - t.start j, (j : ℤ)) := by
  have h0 := hj.start_le
  have h1 := Int.le_trans hj.le_stop (h.start_le_stop hj.lt).2
  obtain ⟨k, hk, he⟩ := offLoop_on (Nat.zero_add t.n) h.pos (o := o) (by rw [h.zero]; omega) h1
  obtain rfl : k = j :=
    Nat.le_antisymm (Nat.le_of_not_lt (hj.not_lt h hk)) (Nat.le_of_not_lt (hk.not_lt h hj))
  rw [offXy]
  simp only [if_neg (show ¬ o < 0 by omega), if_neg (show ¬ (sz : ℤ) < o by omega)]
  exact he

theorem xyOff_eq (hj : (j : ℤ) = max 0 (min y (t.n - 1))) (h1 : -2 ^ 31 ≤ t.start j + x)
    (h2 : t.start j + x < 2 ^ 31) : t.On sz j (t.xyOff sz x y) ∧
    t.xyOff sz x y - t.start j = max 0 (min x (t.stop sz j - t.start j)) := by
  have hpos := h.pos
  have hy : (if (t.n : ℤ) ≤ (if y < 0 then 0 else y) then (t.n - 1 : ℤ)
      else if y < 0 then 0 else y) = j := by
    split_ifs <;> omega
  have hlt : j < t.n := by omega
  have hstop := (h.start_le_stop hlt).1
  unfold xyOff
  simp only [hy, Int.toNat_natCast]
  rw [Int.bmod_eq_of_le (by omega) (by omega)]
  refine ⟨⟨hlt, ?_, ?_⟩, ?_⟩ <;> split_ifs <;> omega

end

end Lns

/-- **Offsets and coordinates determine each other**, also in a text with more lines than the table
can hold. -/
theorem coordinates (buf : List UInt8) {t : Lns} {sz : ℕ} (hb : lnsBuild buf = t)
    (hlen : buf.length = sz) (hsz : sz < 2 ^ 31) :
    (∀ o : ℤ, 0 ≤ o → o ≤ sz → t.xyOff sz (t.offXy sz o).1 (t.offXy sz o).2 = o) ∧
    ∀ (x y : ℤ) (j : ℕ), (j : ℤ) = max 0 (min y (t.n - 1)) → -2 ^ 31 ≤ t.start j + x →
      t.start j + x < 2 ^ 31 →
      t.offXy sz (t.xyOff sz x y) = (max 0 (min x (t.stop sz j - t.start j)), (j : ℤ)) := by
  have ht : t.Ok sz := by
    have h0 := Lns.lnsLoop_ok buf (t := ⟨fun _ => 0, 1⟩) (i := 0)
      ⟨Nat.one_pos, rfl, fun i hi => by simp at hi, fun _ _ => Nat.le_refl _⟩
    rwa [Nat.zero_add, hlen, ← lnsBuild, hb] at h0
  constructor
  · intro o h0 h1
    obtain ⟨j, hj, -⟩ := Lns.offLoop_on (Nat.zero_add t.n) ht.pos (by rw [ht.zero]; exact h0) h1
    rw [Lns.offXy_eq ht hj]
    obtain ⟨hlt, hlo, hhi⟩ := hj
    have he := (Lns.xyOff_eq ht (j := j) (x := o - t.start j) (y := j) (by omega) (by omega)
      (by omega)).2
    dsimp only
    omega
  · intro x y j hj h1 h2
    obtain ⟨hon, he⟩ := Lns.xyOff_eq ht hj h1 h2
    rw [Lns.offXy_eq ht hon, he]

theorem coordinates_ab :
    (lnsBuild [97, 10, 98]).offXy 3 ((lnsBuild [97, 10, 98]).xyOff 3 9 7) = (1, 1) :=
  (coordinates [97, 10, 98] rfl rfl (by decide)).2 9 7 1 (by decide) (by decide) (by decide)

end TipOS.Progs
