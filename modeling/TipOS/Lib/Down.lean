import TipOS.Lib.Bytes

/-!
# Memory written downwards

A memory with a pointer that only goes down: `push` is `*--sp = v`, and `pushBytes` puts bytes
below the pointer.  `Words m a ws` and `CStr m a s` say what is read at `a`; both are kept by what
is written below.  `words_pushAll` is the order: what is pushed last is read first.
-/

namespace TipOS.Lib

open List

variable {m m' : Mem} {a x : ℕ} {s : List UInt8}

structure Down where
  mem : Mem
  sp : ℕ

/-- The quadwords at `a` are `ws`. -/
def Words (m : Mem) (a : ℕ) : List ℕ → Prop
  | [] => True
  | w :: ws => m.load a 8 = w ∧ Words m (a + 8) ws

/-- The bytes at `a` are the string `s` and its end. -/
def CStr (m : Mem) (a : ℕ) : List UInt8 → Prop
  | [] => m a = 0
  | b :: s => m a = b ∧ b ≠ 0 ∧ CStr m (a + 1) s

theorem Words.congr {ws : List ℕ} (h : Words m a ws) (hm : ∀ x, a ≤ x → m' x = m x) :
    Words m' a ws := by
  induction ws generalizing a with
  | nil => trivial
  | cons w ws ih =>
    obtain ⟨hw, hws⟩ := h
    exact ⟨(Mem.load_congr 8 a fun x hx _ => hm x hx).trans hw,
      ih hws fun x hx => hm x (by omega)⟩

theorem words_append {xs ys : List ℕ} :
    Words m a (xs ++ ys) ↔ Words m a xs ∧ Words m (a + 8 * xs.length) ys := by
  induction xs generalizing a with
  | nil => exact ⟨fun h => ⟨trivial, h⟩, fun h => h.2⟩
  | cons x xs ih =>
    have ha : a + 8 * (x :: xs).length = a + 8 + 8 * xs.length := by
      rw [length_cons]
      ring
    rw [cons_append, Words, Words, ih, ha, and_assoc]

theorem CStr.congr (h : CStr m a s) (hm : ∀ x, a ≤ x → m' x = m x) : CStr m' a s := by
  induction s generalizing a with
  | nil => exact (hm a le_rfl).trans h
  | cons b s ih =>
    obtain ⟨hb, hne, hs⟩ := h
    exact ⟨(hm a le_rfl).trans hb, hne, ih hs fun x hx => hm x (by omega)⟩

theorem CStr.of_bytes (h0 : (0 : UInt8) ∉ s)
    (h : ∀ i < s.length + 1, m (a + i) = (s ++ [0]).getD i 0) : CStr m a s := by
  induction s generalizing a with
  | nil =>
    show m a = 0
    simpa using h 0 (by simp)
  | cons b s ih =>
    obtain ⟨hb, hs⟩ := not_or.mp (mem_cons.not.mp h0)
    refine ⟨by simpa using h 0 (by simp), fun hb' => hb hb'.symm, ih hs fun i hi => ?_⟩
    have hi' := h (i + 1) (by simpa using hi)
    rwa [show a + (i + 1) = a + 1 + i by omega] at hi'

namespace Down

/-- `*--sp = v`. -/
def push (d : Down) (v : ℕ) : Down := ⟨d.mem.store (d.sp - 8) 8 v, d.sp - 8⟩

def pushAll (ws : List ℕ) (d : Down) : Down := ws.foldl push d

def pushBytes (d : Down) (bs : List UInt8) : Down :=
  ⟨d.mem.blit (d.sp - bs.length) bs.length fun i => bs.getD i 0, d.sp - bs.length⟩

variable {d : Down} {ws : List ℕ} {bs : List UInt8}

theorem pushBytes_mem (d : Down) (bs : List UInt8) : (d.pushBytes bs).mem =
    d.mem.blit (d.sp - bs.length) bs.length fun i => bs.getD i 0 := rfl

theorem pushBytes_sp (d : Down) (bs : List UInt8) : (d.pushBytes bs).sp = d.sp - bs.length := rfl

theorem push_mem_above {v : ℕ} (h8 : 8 ≤ d.sp) (hx : d.sp ≤ x) : (d.push v).mem x = d.mem x := by
  rw [push]
  exact Mem.store_apply_of_not_mem (by omega)

theorem pushBytes_mem_above (hl : bs.length ≤ d.sp) (hx : d.sp ≤ x) :
    (d.pushBytes bs).mem x = d.mem x := by
  rw [pushBytes_mem, Mem.blit_apply_of_not_mem (by omega)]

theorem pushAll_append (xs ys : List ℕ) (d : Down) :
    pushAll (xs ++ ys) d = pushAll ys (pushAll xs d) :=
  foldl_append

theorem pushAll_mem_above (hl : 8 * ws.length ≤ d.sp) (hx : d.sp ≤ x) :
    (pushAll ws d).mem x = d.mem x := by
  induction ws generalizing d with
  | nil => rfl
  | cons w ws ih =>
    rw [length_cons] at hl
    have hsp : (d.push w).sp = d.sp - 8 := rfl
    refine (ih (by omega) (by omega)).trans ?_
    exact push_mem_above (by omega) hx

/-- **What is pushed is read back in reverse order.** -/
theorem words_pushAll {old : List ℕ} (hlt : ∀ w ∈ ws, w < 2 ^ 64) (hl : 8 * ws.length ≤ d.sp)
    (h : Words d.mem d.sp old) :
    Words (pushAll ws d).mem (pushAll ws d).sp (ws.reverse ++ old) := by
  induction ws generalizing d old with
  | nil => exact h
  | cons w ws ih =>
    rw [length_cons] at hl
    have hsp : (d.push w).sp = d.sp - 8 := rfl
    have hw : Words (d.push w).mem (d.push w).sp (w :: old) := by
      refine ⟨?_, ?_⟩
      · rw [push, Mem.load_store]
        exact Nat.mod_eq_of_lt (hlt w (.head _))
      · rw [hsp, Nat.sub_add_cancel (by omega)]
        exact h.congr fun x hx => push_mem_above (by omega) hx
    have hrec := @ih (d.push w) (w :: old)
      (fun v hv => hlt v (mem_cons_of_mem w hv)) (by omega) hw
    rw [reverse_cons, append_assoc]
    exact hrec

theorem cstr_pushBytes (h0 : (0 : UInt8) ∉ s) :
    CStr (d.pushBytes (s ++ [0])).mem (d.pushBytes (s ++ [0])).sp s := by
  refine CStr.of_bytes h0 fun i hi => ?_
  rw [pushBytes_mem, pushBytes_sp, Mem.blit_apply_of_mem (by simpa using hi)]

end Down

end TipOS.Lib
