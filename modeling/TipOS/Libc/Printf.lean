import Mathlib.Data.Int.Basic

/-!
# Formatting into a buffer

`userland/libc/stdio.c`: `vsnprintf` tests the room in the buffer once for each turn of its loop.
The digits and strings it copies have a test of their own, but a conversion it does not know is
copied as two bytes, and a percent sign at the end makes the loop step over the NUL of the format.
The buffer and the format are respected for all sizes and arguments exactly if neither occurs
(`vsnprintf_bounded_iff`).
-/

namespace TipOS.Libc

open List

/-- A C string, without its NUL. -/
structure CStr where
  bytes : List UInt8
  noNul : ∀ c ∈ bytes, c ≠ 0

/-- What `va_arg` gives: a word and, where it is a pointer that is not NULL, its string. -/
structure Arg where
  word : BitVec 64
  str : Option CStr

/-- The digits of `v`, most significant first, as the loops over `tmp` give them. -/
def digits (base v : ℕ) : List UInt8 := (Nat.toDigits base v).map Char.toUInt8

/-- `while (… && p < n - 1) buf[p++] = …`: as much of `s` as the test lets through. -/
def copied (n : ℤ) (p : ℕ) (s : List UInt8) : List UInt8 := s.take (n - 1 - p).toNat

/-- The case `'d'`; the sign is written without a test. -/
def signed (n : ℤ) (p : ℕ) (v : ℤ) : List UInt8 :=
  if v < 0 then '-'.toUInt8 :: copied n (p + 1) (digits 10 v.natAbs)
  else copied n p (digits 10 v.natAbs)

/-- The text `(null)`. -/
def nullText : List UInt8 := ['(', 'n', 'u', 'l', 'l', ')'].map Char.toUInt8

/-- The `switch`: the bytes written behind the first `p`, and whether an argument is used. -/
def convert (n : ℤ) (lflag : Bool) (f : UInt8) (a : Arg) (p : ℕ) : List UInt8 × Bool :=
  let u := if lflag then a.word.toNat else (a.word.setWidth 32).toNat
  if f = 'd'.toUInt8 then
    (signed n p (if lflag then a.word.toInt else (a.word.setWidth 32).toInt), true)
  else if f = 'u'.toUInt8 then (copied n p (digits 10 u), true)
  else if f = 'x'.toUInt8 ∨ f = 'X'.toUInt8 then (copied n p (digits 16 u), true)
  else if f = 's'.toUInt8 then (copied n p (a.str.elim nullText CStr.bytes), true)
  else if f = 'c'.toUInt8 then ([UInt8.ofNat a.word.toNat], true)
  else if f = '%'.toUInt8 then ([f], false)
  else (['%'.toUInt8, f], false)

/-- The loop over the format, `out` being what stands in the buffer.  Behind a percent sign the
first argument is `lflag`.  The result is `none` when the format is read behind its NUL. -/
def format (n : ℤ) :
    Option Bool → List UInt8 → (ℕ → Arg) → List UInt8 → Option (List UInt8)
  | none, [], _, out => some out
  | none, f :: fmt, ap, out =>
    if out.length < n - 1 then
      if f = '%'.toUInt8 then format n (some false) fmt ap out
      else format n none fmt ap (out ++ [f])
    else some out
  -- the `switch` finds the NUL, and `f++` goes past it
  | some _, [], _, _ => none
  | some lflag, f :: fmt, ap, out =>
    if f = 'l'.toUInt8 then format n (some true) fmt ap out
    else
      let c := convert n lflag f (ap 0) out.length
      format n none fmt (if c.2 then fun i => ap (i + 1) else ap) (out ++ c.1)

/-- The bytes written to the buffer and the result. -/
def vsnprintf (n : ℤ) (fmt : CStr) (ap : ℕ → Arg) : Option (List UInt8 × ℤ) :=
  if n ≤ 0 then some ([], 0)
  else (format n none fmt.bytes ap []).map fun out => (out ++ [0], out.length)

/-- The format was left in time, at most `n` bytes were written, the last of them a NUL, and the
result counts those before it. -/
def Bounded (n : ℤ) (r : Option (List UInt8 × ℤ)) : Prop :=
  ∃ out p, r = some (out, p) ∧ out.length ≤ n.toNat ∧
    (0 < n → ∃ s, out = s ++ [0] ∧ p = s.length)

/-! ### The formats that are safe -/

def conversions : List UInt8 := ['d', 'u', 'x', 'X', 's', 'c', '%'].map Char.toUInt8

/-- Every percent sign is followed by a known conversion, with `l`s between them. -/
def known : Bool → List UInt8 → Bool
  | false, [] => true
  | false, f :: fmt => known (f = '%'.toUInt8) fmt
  | true, [] => false
  | true, f :: fmt => if f = 'l'.toUInt8 then known true fmt else f ∈ conversions && known false fmt

variable {n : ℤ} {f : UInt8} {fmt out : List UInt8} {p : ℕ}

theorem copied_length (s : List UInt8) (h : p + 1 ≤ n) : p + (copied n p s).length + 1 ≤ n := by
  rw [copied, length_take]
  omega

theorem signed_length (v : ℤ) (h : p + 2 ≤ n) : p + (signed n p v).length + 1 ≤ n := by
  rw [signed]
  split
  · have := copied_length (digits 10 v.natAbs) (p := p + 1) (n := n) (by omega)
    rw [length_cons]
    omega
  · exact copied_length _ (by omega)

/-- A known conversion stays within the buffer. -/
theorem convert_length (lflag : Bool) (a : Arg) (hf : f ∈ conversions) (h : p + 2 ≤ n) :
    p + (convert n lflag f a p).1.length + 1 ≤ n := by
  have hc := fun s => copied_length (n := n) (p := p) s (by omega)
  have h1 : p + [f].length + 1 ≤ n := by rw [length_singleton]; omega
  rw [convert]
  split
  · exact signed_length _ h
  split
  · exact hc _
  split
  · exact hc _
  split
  · exact hc _
  split
  · exact h1
  split
  · exact h1
  simp_all [conversions]

theorem format_bounded : ∀ (fmt : List UInt8) (m : Option Bool) (ap : ℕ → Arg) (out : List UInt8),
    known m.isSome fmt → out.length + (if m.isSome then 2 else 1) ≤ n →
    ∃ s, format n m fmt ap out = some s ∧ s.length + 1 ≤ n := by
  intro fmt
  induction fmt with
  | nil =>
    intro m ap out hk hr
    cases m with
    | none => exact ⟨out, rfl, hr⟩
    | some l => cases hk
  | cons f fmt ih =>
    intro m ap out hk hr
    cases m with
    | none =>
      rw [format]
      split
      case isFalse => exact ⟨out, rfl, hr⟩
      split
      · next hp hf =>
        refine ih _ _ _ ?_ (by simp; omega)
        simpa [known, hf] using hk
      · next hp hf =>
        refine ih _ _ _ ?_ (by simp; omega)
        simpa [known, hf] using hk
    | some l =>
      rw [format]
      split
      · next hf =>
        refine ih _ _ _ ?_ hr
        simpa [known, hf] using hk
      next hf =>
      have hk' : f ∈ conversions ∧ known false fmt := by simpa [known, hf] using hk
      refine ih _ _ _ hk'.2 ?_
      have := convert_length l (ap 0) hk'.1 hr
      rw [length_append]
      simp
      omega

/-- Arguments that are zero, and empty strings. -/
def zeros (_ : ℕ) : Arg := ⟨0, some ⟨[], fun _ h => absurd h not_mem_nil⟩⟩

/-- For such an argument the room does not matter, if there are two bytes. -/
theorem convert_zeros (lflag : Bool) (h : p + 2 ≤ n) :
    convert n lflag f (zeros 0) p = convert (p + 2) lflag f (zeros 0) p := by
  have h1 : ∀ {n : ℤ}, p + 2 ≤ n → copied n p [48] = [48] := fun h => by
    rw [copied, take_of_length_le]
    rw [length_singleton]
    omega
  have hd : digits 10 0 = [48] ∧ digits 16 0 = [48] := by decide
  have h0 : ∀ n, copied n p [] = [] := fun _ => take_nil
  cases lflag <;> simp [convert, signed, zeros, hd, h0, h1 h, h1 (Int.le_refl _)]

theorem convert_unknown (lflag : Bool) (a : Arg) (hf : f ∉ conversions) :
    convert n lflag f a p = (['%'.toUInt8, f], false) := by
  simp_all [convert, conversions]

theorem format_full (h : n ≤ out.length + 1) (ap : ℕ → Arg) :
    format n none fmt ap out = some out := by
  cases fmt with
  | nil => rfl
  | cons f fmt => rw [format, if_neg (by omega)]

/-- With a conversion that is not known there is a size that is not respected. -/
theorem format_overruns : ∀ (fmt : List UInt8) (m : Option Bool) (out : List UInt8),
    known m.isSome fmt = false → ∃ n : ℤ, out.length + 2 ≤ n ∧
      ∀ s, format n m fmt zeros out = some s → n < s.length + 1 := by
  intro fmt
  induction fmt with
  | nil =>
    intro m out hk
    cases m with
    | none => cases hk
    | some l => exact ⟨_, Int.le_refl _, fun s h => by cases h⟩
  | cons f fmt ih =>
    intro m out hk
    cases m with
    | none =>
      by_cases hf : f = '%'.toUInt8
      · obtain ⟨n, hn, h⟩ := ih (some false) out (by simpa [known, hf] using hk)
        refine ⟨n, hn, fun s hs => h s ?_⟩
        rwa [format, if_pos (by omega), if_pos hf] at hs
      · obtain ⟨n, hn, h⟩ := ih none (out ++ [f]) (by simpa [known, hf] using hk)
        rw [length_append, length_singleton] at hn
        refine ⟨n, by omega, fun s hs => h s ?_⟩
        rwa [format, if_pos (by omega), if_neg hf] at hs
    | some l =>
      by_cases hf : f = 'l'.toUInt8
      · obtain ⟨n, hn, h⟩ := ih (some true) out (by simpa [known, hf] using hk)
        refine ⟨n, hn, fun s hs => h s ?_⟩
        rwa [format, if_pos hf] at hs
      by_cases hc : f ∈ conversions
      · obtain ⟨n, hn, h⟩ := ih none (out ++ (convert (out.length + 2) l f (zeros 0) out.length).1)
          (by simpa [known, hf, hc] using hk)
        have hz : ∀ b : Bool, (if b then fun i => zeros (i + 1) else zeros) = zeros :=
          fun b => by cases b <;> rfl
        rw [length_append] at hn
        refine ⟨n, by omega, fun s hs => h s ?_⟩
        rw [format, if_neg hf] at hs
        dsimp only at hs
        rwa [hz, convert_zeros l (by omega)] at hs
      · refine ⟨_, Int.le_refl _, fun s hs => ?_⟩
        have hl : (out ++ ['%'.toUInt8, f]).length = out.length + 2 := by
          rw [length_append]; rfl
        rw [format, if_neg hf, convert_unknown l _ hc, format_full (by rw [hl]; omega)] at hs
        cases hs
        rw [hl]
        omega

/-- **`vsnprintf` respects its buffer and its format for every size and all arguments exactly if
every conversion of the format is one it knows.** -/
theorem vsnprintf_bounded_iff (fmt : CStr) :
    (∀ (n : ℤ) (ap : ℕ → Arg), Bounded n (vsnprintf n fmt ap)) ↔ known false fmt.bytes := by
  constructor
  · intro h
    by_contra hk
    obtain ⟨n, hn, hk⟩ := format_overruns fmt.bytes none [] (Bool.eq_false_iff.mpr hk)
    obtain ⟨out, p, he, hl, -⟩ := h n zeros
    rw [length_nil] at hn
    rw [vsnprintf, if_neg (by omega)] at he
    obtain ⟨s, hs, heq⟩ := Option.map_eq_some_iff.mp he
    cases heq
    have := hk s hs
    rw [length_append, length_singleton] at hl
    omega
  · intro hk n ap
    rw [vsnprintf]
    split
    · next hn => exact ⟨[], 0, rfl, Nat.zero_le _, fun h => by omega⟩
    next hn =>
    obtain ⟨s, hs, hl⟩ := format_bounded fmt.bytes none ap [] hk (n := n) (by simp; omega)
    refine ⟨s ++ [0], s.length, by rw [hs]; rfl, ?_, fun _ => ⟨s, rfl, rfl⟩⟩
    rw [length_append, length_singleton]
    omega

/-- The format `%q` and a buffer of two bytes: three are written. -/
theorem unknown_conversion_overruns : ∃ fmt : CStr, fmt.bytes = [37, 113] ∧
    vsnprintf 2 fmt zeros = some ([37, 113, 0], 2) :=
  ⟨⟨[37, 113], by simp⟩, rfl, by decide +kernel⟩

end TipOS.Libc
