import Mathlib.Data.Nat.Digits.Defs

/-!
# Byte-addressed memory

A memory is a total function from addresses to bytes.  `load m a n` reads `n`
bytes at `a`, least significant first, and `store m a n v` writes them; `blit`
copies bytes to a range and `fill` writes one byte over it.  `load_store`, `load_congr` and
`store_apply_of_not_mem` carry everything above.
-/

namespace TipOS.Lib

open Nat

variable {m : Mem} {a n x : ℕ} {f : ℕ → UInt8} {b : UInt8}

/-- A byte-addressed memory. -/
abbrev Mem := ℕ → UInt8

namespace Mem

/-- Read `n` bytes at `a`, little-endian. -/
def load (m : Mem) (a : ℕ) : ℕ → ℕ
  | 0 => 0
  | n + 1 => (m a).toNat + 256 * load m (a + 1) n

/-- Write the low `n` bytes of `v` at `a`, little-endian. -/
def store (m : Mem) (a n v : ℕ) : Mem := fun x =>
  if a ≤ x ∧ x < a + n then UInt8.ofNat (v / 256 ^ (x - a) % 256) else m x

/-- Write the bytes `f 0, …, f (n - 1)` at `a`. -/
def blit (m : Mem) (a n : ℕ) (f : ℕ → UInt8) : Mem := fun x =>
  if a ≤ x ∧ x < a + n then f (x - a) else m x

/-- Write the byte `b` over the `n` bytes at `a`. -/
def fill (m : Mem) (a n : ℕ) (b : UInt8) : Mem := fun x =>
  if a ≤ x ∧ x < a + n then b else m x

theorem store_apply_of_not_mem {v : ℕ} (h : x < a ∨ a + n ≤ x) :
    store m a n v x = m x := by
  rw [store, if_neg (by omega)]

theorem blit_apply_of_mem {i : ℕ} (h : i < n) :
    m.blit a n f (a + i) = f i := by
  rw [blit, if_pos ⟨by omega, by omega⟩, Nat.add_sub_cancel_left]

theorem blit_apply_of_not_mem (h : x < a ∨ a + n ≤ x) :
    m.blit a n f x = m x := by
  rw [blit, if_neg (by omega)]

theorem blit_zero (m : Mem) (a : ℕ) (f : ℕ → UInt8) : m.blit a 0 f = m :=
  funext fun _ => if_neg (by omega)

theorem blit_blit {k : ℕ} {g h : ℕ → UInt8} (hf : ∀ i < n, f i = h i)
    (hg : ∀ i < k, g i = h (n + i)) :
    (m.blit a n f).blit (a + n) k g = m.blit a (n + k) h := by
  funext x
  simp only [blit]
  split_ifs with h1 h2 h3 h4 h5
  · rw [hg _ (by omega)]
    congr 1
    omega
  · omega
  · exact hf _ (by omega)
  · omega
  · omega
  · rfl

theorem fill_apply_of_mem (h : a ≤ x) (h' : x < a + n) :
    m.fill a n b x = b :=
  if_pos ⟨h, h'⟩

theorem fill_apply_of_not_mem (h : x < a ∨ a + n ≤ x) :
    fill m a n b x = m x := by
  rw [fill, if_neg (by omega)]

/-- **A load only looks at its own bytes.** -/
theorem load_congr {m' : Mem} : ∀ (n a : ℕ), (∀ x, a ≤ x → x < a + n → m x = m' x) →
    load m a n = load m' a n := by
  intro n
  induction n with
  | zero => intro a _; rfl
  | succ n ih =>
    intro a h
    rw [load, load, h a le_rfl (by omega), ih (a + 1) (fun x h1 h2 => h x (by omega) (by omega))]

theorem load_lt (m : Mem) : ∀ (n a : ℕ), load m a n < 256 ^ n := by
  intro n
  induction n with
  | zero => intro a; simp [load]
  | succ n ih =>
    intro a
    have hb : (m a).toNat < 256 := (m a).toNat_lt
    have := ih (a + 1)
    rw [load, pow_succ]
    omega

theorem load_eq_of_bytes : ∀ (n a v : ℕ),
    (∀ i < n, (m (a + i)).toNat = v / 256 ^ i % 256) → load m a n = v % 256 ^ n := by
  intro n
  induction n with
  | zero => intro a v _; simp [load, mod_one]
  | succ n ih =>
    intro a v h
    have h0 : (m a).toNat = v % 256 := by simpa using h 0 (by omega)
    have hrec : load m (a + 1) n = v / 256 % 256 ^ n := by
      refine ih (a + 1) (v / 256) (fun i hi => ?_)
      rw [Nat.div_div_eq_div_mul, ← pow_succ', ← h (i + 1) (by omega)]
      congr 2
      omega
    rw [load, h0, hrec, pow_succ', Nat.mod_mul]

/-- **What was stored is read back.** -/
theorem load_store (m : Mem) (a n v : ℕ) : load (store m a n v) a n = v % 256 ^ n := by
  refine load_eq_of_bytes n a v (fun i hi => ?_)
  rw [store, if_pos (by omega), Nat.add_sub_cancel_left, UInt8.toNat_ofNat']
  exact mod_eq_of_lt (mod_lt _ (by decide))

theorem load_byte (m : Mem) : ∀ (n a i : ℕ), i < n → load m a n / 256 ^ i % 256 = (m (a + i)).toNat := by
  intro n
  induction n with
  | zero => intro a i hi; omega
  | succ n ih =>
    intro a i hi
    have hb : (m a).toNat < 256 := (m a).toNat_lt
    rw [load]
    cases i with
    | zero => simp
    | succ i =>
      have hdiv : ((m a).toNat + 256 * load m (a + 1) n) / 256 = load m (a + 1) n := by omega
      rw [pow_succ', ← Nat.div_div_eq_div_mul, hdiv, ih (a + 1) i (by omega)]
      congr 2
      omega

/-- **Storing what is there changes nothing.** -/
theorem store_load (m : Mem) (a n : ℕ) : store m a n (load m a n) = m := by
  funext x
  rw [store]
  split
  · next hx =>
    rw [load_byte m n a (x - a) (by omega), Nat.add_sub_cancel' hx.1]
    exact UInt8.ofNat_toNat
  · rfl

theorem load_store_of_disjoint {v b k : ℕ} (h : b + k ≤ a ∨ a + n ≤ b) :
    load (store m a n v) b k = load m b k :=
  load_congr k b (fun _ h1 h2 => store_apply_of_not_mem (by omega))

end Mem

end TipOS.Lib
