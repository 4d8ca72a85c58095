import Mathlib.Data.List.Forall2
import TipOS.Lib.Down
import TipOS.Lib.Loop

/-!
# The first stack of a program

`setup_linux_user_stack` of `process.c`.  It writes downwards from the top of the stack: the
strings of the arguments and of the environment, 16 bytes for `AT_RANDOM`, the auxiliary vector,
and then the pointers.  `Decoded` is what the start-up code of a program reads from RSP upwards.

The strings come from buffers of the kernel, apart from the stack, so they are values here.
`str_ptrs` and `env_ptrs` have 8 entries; a store at any other index is only recorded.

The terminator of the environment is pushed after its pointers, so it is read before them:
`frame_words` is the whole frame, and `stack_decodes_iff` says when it is read as intended.
-/

namespace TipOS.Exec

open Function Lib List

variable {ss : List Str} {i lo hi random : ℕ} {s : Str} {rest es : List ℕ} {d : Down} {c : Copy}
  {p : Ptrs}

/-- A string of C. -/
abbrev Str := {s : List UInt8 // (0 : UInt8) ∉ s}

/-- A `char **`: `NULL`, or its entries, which can be `NULL` too. -/
abbrev StrVec := Option (ℕ → Option Str)

/-- `(argv && argv[i]) ? argv[i] : ""`. -/
def strAt (v : StrVec) (i : ℕ) : Str := (v.bind fun f => f i).getD ⟨[], List.not_mem_nil⟩

/-- The vector of a list of strings. -/
def vecOf (ss : List Str) : StrVec := some fun i => ss[i]?

theorem strAt_vecOf (h : ss[i]? = some s) :
    strAt (vecOf ss) i = s := by
  show ss[i]?.getD _ = s
  rw [h, Option.getD_some]

/-! ### The strings -/

/-- An array of 8 pointers. -/
structure Ptrs where
  val : ℕ → ℕ
  inBounds : Bool

/-- A store past the end is undefined; it is only recorded here. -/
def Ptrs.set (p : Ptrs) (i v : ℕ) : Ptrs :=
  if i < 8 then { p with val := update p.val i v } else { p with inBounds := false }

/-- A stack with the array of pointers to the strings copied to it.  `copied` has the place and
the length of each string. -/
structure Copy extends Down where
  ptrs : Ptrs
  copied : List (ℕ × ℕ)

/-- The loop body for string `i`. -/
def putString (v : StrVec) (i : ℕ) (c : Copy) : Copy :=
  let d := c.pushBytes ((strAt v i).1 ++ [0])
  { toDown := d
    ptrs := c.ptrs.set i d.sp
    copied := (d.sp, (strAt v i).1.length + 1) :: c.copied }

/-- `for (i = n - 1; i >= 0; i--)` over the strings of a vector. -/
def copyStrings (v : StrVec) (n : ℕ) (d : Down) : Copy :=
  downLoop (putString v) n ⟨d, ⟨fun _ => 0, true⟩, []⟩

/-- `for (i = n - 1; i >= 0; i--) *--sp = ptrs[i]`, at the indices that were written. -/
def pushPtrs (p : Ptrs) (n : ℕ) (d : Down) : Down := downLoop (fun i d => d.push (p.val i)) n d

/-! ### The frame -/

/-- The 16 bytes of `AT_RANDOM`, in the order of pushes. -/
def randomWords : List ℕ := [0xDEADBEEFCAFEBABE, 0xBAADF00DBEEFCACE]

/-- The auxiliary vector in the order of pushes, each value before its type. -/
def auxWords (phdr phent phnum elfBase : UInt64) (random : ℕ) : List ℕ :=
  [0, 0] ++
  (if phnum ≠ 0 then [phdr.toNat, 3, phent.toNat, 4, phnum.toNat, 5] else []) ++
  [0, 23, 0x1000, 6, elfBase.toNat, 7, random, 15]

/-- The stack and what was recorded. -/
structure Built extends Down where
  strPtrs : Ptrs
  envPtrs : Ptrs
  copied : List (ℕ × ℕ)

/-- `setup_linux_user_stack`; the result is RSP. -/
def setupLinuxUserStack (m : Mem) (top : ℕ) (phdr phent phnum elfBase : UInt64)
    (argv : StrVec) (argc : ℕ) (envp : StrVec) (envc : ℕ) : Built :=
  let a := copyStrings argv argc ⟨m, top⟩
  let e := copyStrings envp envc a.toDown
  let d := Down.pushAll randomWords e.toDown
  let d := Down.pushAll (auxWords phdr phent phnum elfBase d.sp) d
  let d := (pushPtrs e.ptrs envc d).push 0
  let d :=
    if 0 < argc ∧ argv.isSome then (pushPtrs a.ptrs argc (d.push 0)).push argc
    else (d.push 0).push 0
  ⟨d, a.ptrs, e.ptrs, e.copied ++ a.copied⟩

/-- `setup_linux_user_stack_dyn`: `AT_BASE` is the interpreter's base in a dynamic program. -/
def setupLinuxUserStackDyn (m : Mem) (top : ℕ) (phdr phent phnum elfBase : UInt64)
    (argv : StrVec) (argc : ℕ) (envp : StrVec) (envc : ℕ) (interpBase : UInt64)
    (isDynamic : Bool) : Built :=
  setupLinuxUserStack m top phdr phent phnum (if isDynamic then interpBase else elfBase)
    argv argc envp envc

/-! ### What a program reads -/

/-- Pointers from `a` on up to `NULL`, which is before `e`. -/
inductive PtrVec (m : Mem) : ℕ → List ℕ → ℕ → Prop
  | nil {a : ℕ} : m.load a 8 = 0 → PtrVec m a [] (a + 8)
  | cons {a p e : ℕ} {ps : List ℕ} : m.load a 8 = p → p ≠ 0 → PtrVec m (a + 8) ps e →
      PtrVec m a (p :: ps) e

/-- Pairs of the auxiliary vector from `a` on up to `AT_NULL`. -/
inductive AuxVec (m : Mem) : ℕ → List (ℕ × ℕ) → Prop
  | nil {a : ℕ} : m.load a 8 = 0 → AuxVec m a []
  | cons {a t v : ℕ} {ps : List (ℕ × ℕ)} : m.load a 8 = t → t ≠ 0 → m.load (a + 8) 8 = v →
      AuxVec m (a + 16) ps → AuxVec m a ((t, v) :: ps)

/-- **The start-up layout**: `argc`, the arguments, the environment and the auxiliary vector. -/
def Decoded (m : Mem) (rsp : ℕ) (args envs : List Str) (aux : List (ℕ × ℕ)) : Prop :=
  ∃ ps es e₁ e₂, m.load rsp 8 = args.length ∧ ps.length = args.length ∧
    PtrVec m (rsp + 8) ps e₁ ∧ List.Forall₂ (fun p (s : Str) => CStr m p s.1) ps args ∧
    PtrVec m e₁ es e₂ ∧ List.Forall₂ (fun p (s : Str) => CStr m p s.1) es envs ∧
    AuxVec m e₂ aux

/-- The pairs of the auxiliary vector, `random` being the address of the 16 bytes. -/
def auxPairs (phdr phent phnum elfBase : UInt64) (random : ℕ) : List (ℕ × ℕ) :=
  [(15, random), (7, elfBase.toNat), (6, 0x1000), (23, 0)] ++
  if phnum ≠ 0 then [(5, phnum.toNat), (4, phent.toNat), (3, phdr.toNat)] else []

section Read

variable {m : Mem} {a e : ℕ} {ps : List ℕ}

theorem PtrVec.end_eq (h : PtrVec m a ps e) : e = a + 8 * (ps.length + 1) := by
  induction h with
  | nil _ => rfl
  | cons _ _ _ ih =>
    rw [ih, length_cons]
    omega

theorem PtrVec.of_words (h : Words m a (ps ++ 0 :: rest)) (h0 : ∀ p ∈ ps, p ≠ 0) :
    PtrVec m a ps (a + 8 * (ps.length + 1)) := by
  induction ps generalizing a with
  | nil => exact .nil h.1
  | cons p ps ih =>
    have hrec := ih h.2 fun q hq => h0 q (mem_cons_of_mem p hq)
    rw [show a + 8 + 8 * (ps.length + 1) = a + 8 * ((p :: ps).length + 1) by
      rw [length_cons]; omega] at hrec
    exact .cons h.1 (h0 p (.head _)) hrec

/-- The words of pairs. -/
def pairWords (ps : List (ℕ × ℕ)) : List ℕ := ps.flatMap fun p => [p.1, p.2]

theorem AuxVec.of_words {ps : List (ℕ × ℕ)} (h : Words m a (pairWords ps ++ 0 :: rest))
    (h0 : ∀ p ∈ ps, p.1 ≠ 0) : AuxVec m a ps := by
  induction ps generalizing a with
  | nil => exact .nil h.1
  | cons p ps ih =>
    obtain ⟨ht, hv, hrest⟩ := h
    exact .cons ht (h0 p (.head _)) hv
      (ih hrest fun q hq => h0 q (mem_cons_of_mem p hq))

theorem auxWords_reverse (phdr phent phnum elfBase : UInt64) (random : ℕ) :
    (auxWords phdr phent phnum elfBase random).reverse =
      pairWords (auxPairs phdr phent phnum elfBase random) ++ [0, 0] := by
  unfold auxWords auxPairs
  split <;> rfl

end Read

/-! ### The strings on the stack -/

/-- The bytes of strings with their ends. -/
def strBytes (ss : List Str) : ℕ := (ss.map fun s => s.1.length + 1).sum

/-- When the strings from index `i` on have been copied from `d` downwards. -/
structure CopyInv (ss : List Str) (d : Down) (i : ℕ) (c : Copy) : Prop where
  sp : c.sp + strBytes (ss.drop i) = d.sp
  above : ∀ x, d.sp ≤ x → c.mem x = d.mem x
  inBounds : c.ptrs.inBounds = true ↔ ss.length ≤ 8 ∨ ss.length ≤ i
  strs : ∀ j s, i ≤ j → j < 8 → ss[j]? = some s → CStr c.mem (c.ptrs.val j) s.1 ∧
    c.sp ≤ c.ptrs.val j ∧ c.ptrs.val j < d.sp
  copied : ∀ q ∈ c.copied, c.sp ≤ q.1 ∧ q.1 + q.2 ≤ d.sp

theorem strBytes_drop (h : ss[i]? = some s) :
    strBytes (ss.drop i) = s.1.length + 1 + strBytes (ss.drop (i + 1)) := by
  obtain ⟨hi, rfl⟩ := List.getElem?_eq_some_iff.mp h
  rw [drop_eq_getElem_cons hi]
  rfl

theorem strBytes_drop_le (ss : List Str) (i : ℕ) : strBytes (ss.drop i) ≤ strBytes ss := by
  have h : strBytes (ss.take i) + strBytes (ss.drop i) = strBytes ss := by
    rw [strBytes, strBytes, ← sum_append, ← map_append, take_append_drop]
    rfl
  omega

theorem CopyInv.step {v : StrVec} (h : CopyInv ss d (i + 1) c) (hs : ss[i]? = some s)
    (hv : strAt v i = s) (hfit : strBytes ss ≤ d.sp) : CopyInv ss d i (putString v i c) := by
  have hi : i < ss.length := (List.getElem?_eq_some_iff.mp hs).1
  have hdrop := strBytes_drop hs
  have hle := strBytes_drop_le ss i
  have hlen : ((strAt v i).1 ++ [0]).length = s.1.length + 1 := by
    rw [hv, length_append, length_singleton]
  have hsum := h.sp
  have hfits : ((strAt v i).1 ++ [0]).length ≤ c.sp := by omega
  have hsp : (putString v i c).sp = c.sp - (s.1.length + 1) := by
    rw [← hlen]
    rfl
  have habove : ∀ x, c.sp ≤ x → (putString v i c).mem x = c.mem x := fun x hx =>
    Down.pushBytes_mem_above hfits hx
  have hptrs : (putString v i c).ptrs = c.ptrs.set i (putString v i c).sp := rfl
  refine ⟨by omega, fun x hx => (habove x (by omega)).trans (h.above x hx), ?_, ?_, ?_⟩
  · rw [hptrs, Ptrs.set]
    split
    · rw [h.inBounds]
      omega
    · simp only [Bool.false_eq_true, false_iff]
      omega
  · intro j t hj hj8 ht
    rw [hptrs, Ptrs.set]
    rcases Nat.eq_or_lt_of_le hj with rfl | hlt
    · -- the string just copied
      obtain rfl : s = t := Option.some.inj (hs.symm.trans ht)
      rw [if_pos hj8]
      simp only [update_self]
      refine ⟨?_, le_rfl, by omega⟩
      have hcstr := Down.cstr_pushBytes (d := c.toDown) (strAt v i).2
      rw [hv] at hcstr
      have hput : (putString v i c).toDown = c.pushBytes (s.1 ++ [0]) := by
        rw [← hv]
        rfl
      rw [hput]
      exact hcstr
    · obtain ⟨hc, hge, hup⟩ := h.strs j t hlt hj8 ht
      have hval : (if i < 8 then { c.ptrs with
          val := update c.ptrs.val i (putString v i c).sp }
          else { c.ptrs with inBounds := false }).val j = c.ptrs.val j := by
        split
        · exact update_of_ne (by omega) _ _
        · rfl
      rw [hval]
      exact ⟨hc.congr fun x hx => habove x (by omega), by omega, hup⟩
  · intro q hq
    have hcop : (putString v i c).copied =
        ((putString v i c).sp, (strAt v i).1.length + 1) :: c.copied := rfl
    rw [hcop, mem_cons] at hq
    rcases hq with rfl | hq
    · refine ⟨le_rfl, ?_⟩
      rw [hv]
      omega
    · obtain ⟨h1, h2⟩ := h.copied q hq
      exact ⟨by omega, h2⟩

/-- **The strings of a vector are copied below `d`.** -/
theorem copyStrings_inv (ss : List Str) (d : Down) (hfit : strBytes ss ≤ d.sp) :
    CopyInv ss d 0 (copyStrings (vecOf ss) ss.length d) := by
  refine downLoop_induct (CopyInv ss d) ?_ fun i hi c hc => ?_
  · refine ⟨?_, fun _ _ => rfl, ?_, ?_, ?_⟩
    · rw [drop_length]
      rfl
    · simp
    · intro j s hj _ hs
      have := (List.getElem?_eq_some_iff.mp hs).1
      omega
    · intro q hq
      cases hq
  · have hs : ss[i]? = some ss[i] := getElem?_eq_getElem hi
    exact hc.step hs (strAt_vecOf hs) hfit

/-! ### The words -/

theorem pushPtrs_eq (p : Ptrs) (n : ℕ) (d : Down) :
    pushPtrs p n d = Down.pushAll ((List.range n).map p.val).reverse d := by
  unfold pushPtrs
  induction n generalizing d with
  | zero => rfl
  | succ n ih =>
    rw [downLoop, ih, range_succ, map_append, reverse_append]
    rfl

/-- The pointers to the strings of a list. -/
def ptrList (p : Ptrs) (n : ℕ) : List ℕ := (List.range n).map p.val

section Frame

variable (m : Mem) (top : ℕ) (phdr phent phnum elfBase : UInt64) (args envs : List Str)

/-- The two copying loops. -/
def argCopy : Copy := copyStrings (vecOf args) args.length ⟨m, top⟩
def envCopy : Copy := copyStrings (vecOf envs) envs.length (argCopy m top args).toDown

/-- The address of the 16 bytes of `AT_RANDOM`. -/
def randomAddr : ℕ := top - strBytes args - strBytes envs - 16

/-- The number of quadwords below the strings. -/
def frameLen : ℕ := (if phnum ≠ 0 then 21 else 15) + args.length + envs.length

/-- `setup_linux_user_stack` for lists of strings. -/
def buildStack : Built :=
  setupLinuxUserStack m top phdr phent phnum elfBase (vecOf args) args.length
    (vecOf envs) envs.length

/-- Everything that is pushed after the strings. -/
def frameWords (random : ℕ) (ps es : List ℕ) : List ℕ :=
  randomWords ++ auxWords phdr phent phnum elfBase random ++ es.reverse ++ [0] ++
    ([0] ++ ps.reverse ++ [ps.length])

variable {m top phdr phent phnum elfBase args envs}

theorem buildStack_eq : (buildStack m top phdr phent phnum elfBase args envs).toDown =
    Down.pushAll (frameWords phdr phent phnum elfBase ((envCopy m top args envs).sp - 16)
      (ptrList (argCopy m top args).ptrs args.length)
      (ptrList (envCopy m top args envs).ptrs envs.length)) (envCopy m top args envs).toDown := by
  have hlen : (ptrList (argCopy m top args).ptrs args.length).length = args.length := by
    rw [ptrList, length_map, length_range]
  rw [frameWords, hlen]
  simp only [Down.pushAll_append]
  unfold buildStack setupLinuxUserStack
  simp only [pushPtrs_eq]
  by_cases h0 : 0 < args.length
  · rw [if_pos ⟨h0, rfl⟩]
    rfl
  -- without arguments both ways push `argc` and `NULL` only
  obtain rfl : args = [] := length_eq_zero_iff.mp (by omega)
  rw [if_neg (by simp)]
  rfl

theorem forall₂_ptrList {R : ℕ → Str → Prop} (h : ∀ j s, ss[j]? = some s → R (p.val j) s) :
    List.Forall₂ R (ptrList p ss.length) ss := by
  rw [forall₂_iff_get]
  refine ⟨by rw [ptrList, length_map, length_range], fun j h1 h2 => ?_⟩
  have hj := h j _ (getElem?_eq_getElem h2)
  simpa [ptrList] using hj

theorem mem_ptrList {n x : ℕ} (h : x ∈ ptrList p n) : ∃ j < n, p.val j = x := by
  obtain ⟨j, hj, rfl⟩ := mem_map.mp h
  exact ⟨j, mem_range.mp hj, rfl⟩

/-- Pointers to strings in a stack that was built from `d` downwards. -/
structure PtrsTo (m : Mem) (lo hi : ℕ) (ss : List Str) (ps : List ℕ) : Prop where
  length : ps.length = ss.length
  strs : List.Forall₂ (fun p (s : Str) => CStr m p s.1) ps ss
  range : ∀ p ∈ ps, lo ≤ p ∧ p < hi

theorem CopyInv.ptrsTo (h : CopyInv ss d 0 c) (h8 : ss.length ≤ 8) :
    PtrsTo c.mem c.sp d.sp ss (ptrList c.ptrs ss.length) := by
  refine ⟨by rw [ptrList, length_map, length_range], ?_, fun p hp => ?_⟩
  · refine forall₂_ptrList fun j s hj => ?_
    have hlt := (List.getElem?_eq_some_iff.mp hj).1
    exact (h.strs j s (Nat.zero_le j) (by omega) hj).1
  · obtain ⟨j, hj, rfl⟩ := mem_ptrList hp
    exact (h.strs j _ (Nat.zero_le j) (by omega) (getElem?_eq_getElem hj)).2

theorem PtrsTo.congr {m' : Mem} {ps : List ℕ} (h : PtrsTo m lo hi ss ps)
    (hm : ∀ x, lo ≤ x → m' x = m x) : PtrsTo m' lo hi ss ps := by
  obtain ⟨hl, hs⟩ := forall₂_iff_get.mp h.strs
  refine ⟨h.length, forall₂_iff_get.mpr ⟨hl, fun j h1 h2 => ?_⟩, h.range⟩
  have hlo := (h.range _ (get_mem ps ⟨j, h1⟩)).1
  exact (hs j h1 h2).congr fun x hx => hm x (hlo.trans hx)

theorem PtrsTo.mono {lo' hi' : ℕ} {ps : List ℕ} (h : PtrsTo m lo hi ss ps) (hlo : lo' ≤ lo)
    (hhi : hi ≤ hi') : PtrsTo m lo' hi' ss ps :=
  ⟨h.length, h.strs, fun p hp => ⟨hlo.trans (h.range p hp).1, (h.range p hp).2.trans_le hhi⟩⟩

/-- The stack has room for the strings and the words. -/
def Fits (top : ℕ) (phnum : UInt64) (args envs : List Str) : Prop :=
  strBytes args + strBytes envs + 8 * frameLen phnum args envs ≤ top

instance : Decidable (Fits top phnum args envs) := by
  unfold Fits
  infer_instance

section

variable (h : Fits top phnum args envs)

include h

theorem argCopy_inv :
    CopyInv args ⟨m, top⟩ 0 (argCopy m top args) :=
  copyStrings_inv args ⟨m, top⟩ (by unfold Fits at h; dsimp only; omega)

theorem argCopy_sp :
    (argCopy m top args).sp + strBytes args = top := (argCopy_inv h).sp

theorem envCopy_inv :
    CopyInv envs (argCopy m top args).toDown 0 (envCopy m top args envs) := by
  have hsp := argCopy_sp (m := m) h
  exact copyStrings_inv envs _ (by unfold Fits at h; omega)

theorem envCopy_sp :
    (envCopy m top args envs).sp + strBytes envs + strBytes args = top := by
  have h1 := argCopy_sp (m := m) h
  have h2 : (envCopy m top args envs).sp + strBytes envs = (argCopy m top args).sp :=
    (envCopy_inv h).sp
  omega

end

variable (phdr phent phnum elfBase)

theorem auxWords_length (random : ℕ) : (auxWords phdr phent phnum elfBase random).length =
    if phnum ≠ 0 then 16 else 10 := by
  unfold auxWords
  split <;> rfl

theorem frameWords_length (random : ℕ) {ps : List ℕ} (hp : ps.length = args.length)
    (he : es.length = envs.length) :
    (frameWords phdr phent phnum elfBase random ps es).length = frameLen phnum args envs := by
  rw [frameWords, frameLen]
  simp only [length_append, length_reverse, auxWords_length, hp, he, randomWords,
    length_cons, length_nil]
  split <;> omega

theorem auxWords_lt (hr : random < 2 ^ 64) :
    ∀ w ∈ auxWords phdr phent phnum elfBase random, w < 2 ^ 64 := by
  have h1 := phdr.toNat_lt
  have h2 := phent.toNat_lt
  have h3 := phnum.toNat_lt
  have h4 := elfBase.toNat_lt
  intro w hw
  unfold auxWords at hw
  split at hw <;> simp only [mem_append, mem_cons, not_mem_nil, or_false] at hw <;>
    omega

theorem frameWords_lt {ps : List ℕ} (hr : random < 2 ^ 64) (hp : ∀ p ∈ ps, p < 2 ^ 64)
    (he : ∀ p ∈ es, p < 2 ^ 64) (hl : ps.length < 2 ^ 64) :
    ∀ w ∈ frameWords phdr phent phnum elfBase random ps es, w < 2 ^ 64 := by
  intro w hw
  simp only [frameWords, randomWords, mem_append, mem_cons, not_mem_nil, or_false,
    mem_reverse] at hw
  rcases hw with ((((hw | hw) | hw) | hw) | hw) | ((hw | hw) | hw)
  · omega
  · omega
  · exact auxWords_lt phdr phent phnum elfBase hr w hw
  · exact he w hw
  · omega
  · omega
  · exact hp w hw
  · omega

variable {phdr phent phnum elfBase}

/-- **The whole frame**, from RSP upwards.  The terminator of the environment stands before its
pointers. -/
theorem frame_words (h : Fits top phnum args envs) (htop : top < 2 ^ 64) (ha : args.length ≤ 8)
    (he : envs.length ≤ 8) :
    let b := buildStack m top phdr phent phnum elfBase args envs
    ∃ ps es, PtrsTo b.mem 1 (2 ^ 64) args ps ∧ PtrsTo b.mem 1 (2 ^ 64) envs es ∧
      Words b.mem b.sp (args.length :: (ps ++ 0 :: 0 :: (es ++
        (pairWords (auxPairs phdr phent phnum elfBase (randomAddr top args envs)) ++
          0 :: 0 :: randomWords.reverse)))) := by
  intro b
  have hspa := argCopy_sp (m := m) h
  have hsp := envCopy_sp (m := m) h
  have hroom : 8 * frameLen phnum args envs ≤ (envCopy m top args envs).sp := by
    unfold Fits at h
    omega
  have hpos : 15 ≤ frameLen phnum args envs := by
    unfold frameLen
    split <;> omega
  have hargs := (argCopy_inv (m := m) h).ptrsTo ha
  have henvs := (envCopy_inv (m := m) h).ptrsTo he
  set e := envCopy m top args envs
  set ps := ptrList (argCopy m top args).ptrs args.length with hps
  set es := ptrList e.ptrs envs.length with hes
  have hlen := frameWords_length phdr phent phnum elfBase (e.sp - 16) hargs.length henvs.length
  have hlt := frameWords_lt phdr phent phnum elfBase (show e.sp - 16 < 2 ^ 64 by omega)
    (fun p hp => (hargs.range p hp).2.trans htop)
    (fun p hp => (henvs.range p hp).2.trans (by omega)) (by rw [hargs.length]; omega)
  have hb : b.toDown = Down.pushAll (frameWords phdr phent phnum elfBase (e.sp - 16) ps es) e.toDown :=
    buildStack_eq
  have habove : ∀ x, e.sp ≤ x → b.mem x = e.mem x := by
    intro x hx
    rw [hb]
    exact Down.pushAll_mem_above (by rw [hlen]; exact hroom) hx
  have hargs' := (hargs.congr fun x hx => ((habove x (by omega)).trans
    ((envCopy_inv h).above x hx)))
  have henvs' := henvs.congr habove
  refine ⟨ps, es, hargs'.mono (by omega) (by dsimp only; omega), henvs'.mono (by omega) (by omega),
    ?_⟩
  have hnil : Words e.mem e.sp [] := trivial
  have hw := Down.words_pushAll hlt (by rw [hlen]; exact hroom) hnil
  rw [← hb] at hw
  have hrand : e.sp - 16 = randomAddr top args envs := by
    unfold randomAddr
    omega
  rw [hrand] at hw
  simpa [frameWords, auxWords_reverse, hargs.length] using hw

theorem envs_eq_nil_of_decoded (h : Fits top phnum args envs) (htop : top < 2 ^ 64)
    (ha : args.length ≤ 8) (he : envs.length ≤ 8) {aux : List (ℕ × ℕ)}
    (hd : Decoded (buildStack m top phdr phent phnum elfBase args envs).mem
      (buildStack m top phdr phent phnum elfBase args envs).sp args envs aux) : envs = [] := by
  obtain ⟨ps, es, hps, -, hwords⟩ :=
    @frame_words m top phdr phent phnum elfBase args envs h htop ha he
  obtain ⟨ps', es', e1, e2, -, hlen, hvec, -, henv, hstrs, -⟩ := hd
  -- the word after the arguments' `NULL` is 0
  have hzero := (words_append.mp hwords.2).2.2.1
  have he1 := hvec.end_eq
  rw [hlen, ← hps.length] at he1
  cases henv with
  | nil _ => exact forall₂_nil_left_iff.mp hstrs
  | cons hp hne _ =>
    rw [he1, show ∀ a n : ℕ, a + 8 + 8 * (n + 1) = a + 8 + 8 * n + 8 by omega, hzero] at hp
    omega

theorem decoded_of_envs_nil (h : Fits top phnum args []) (htop : top < 2 ^ 64)
    (ha : args.length ≤ 8) :
    Decoded (buildStack m top phdr phent phnum elfBase args []).mem
      (buildStack m top phdr phent phnum elfBase args []).sp args []
      (auxPairs phdr phent phnum elfBase (randomAddr top args [])) := by
  obtain ⟨ps, es, hps, hes, hwords⟩ :=
    @frame_words m top phdr phent phnum elfBase args [] h htop ha (Nat.zero_le 8)
  obtain rfl : es = [] := length_eq_zero_iff.mp hes.length
  have hafter := (words_append.mp hwords.2).2.2
  have hne : ∀ p ∈ ps, p ≠ 0 := fun p hp => Nat.one_le_iff_ne_zero.mp (hps.range p hp).1
  refine ⟨ps, [], _, _, hwords.1, hps.length, PtrVec.of_words hwords.2 hne, hps.strs,
    .nil ?_, .nil, ?_⟩
  · rw [show ∀ a n : ℕ, a + 8 + 8 * (n + 1) = a + 8 + 8 * n + 8 by omega]
    exact hafter.1
  · rw [show ∀ a n : ℕ, a + 8 + 8 * (n + 1) + 8 = a + 8 + 8 * n + 8 + 8 by omega]
    refine AuxVec.of_words hafter.2 ?_
    unfold auxPairs
    split <;> simp

end Frame

/-- **The stack is read as intended exactly when there is no environment.** -/
theorem stack_decodes_iff (m : Mem) (top : ℕ) (phdr phent phnum elfBase : UInt64)
    (args envs : List Str) (ha : args.length ≤ 8) (he : envs.length ≤ 8)
    (hfit : Fits top phnum args envs) (htop : top < 2 ^ 64) :
    let b := setupLinuxUserStack m top phdr phent phnum elfBase (vecOf args) args.length
      (vecOf envs) envs.length
    Decoded b.mem b.sp args envs
      (auxPairs phdr phent phnum elfBase (randomAddr top args envs)) ↔ envs = [] := by
  intro b
  refine ⟨fun hd => envs_eq_nil_of_decoded hfit htop ha he hd, fun h0 => ?_⟩
  subst h0
  exact decoded_of_envs_nil hfit htop ha

/-- The argument `a`. -/
def argA : Str := ⟨[0x61], by decide⟩

/-- The variable `A=1`. -/
def envA1 : Str := ⟨[0x41, 0x3D, 0x31], by decide⟩

theorem stack_decodes_iff_argA :
    Decoded (setupLinuxUserStack (fun _ => 0) 0x10000 0 0 0 0 (vecOf [argA]) 1 (vecOf []) 0).mem
      (setupLinuxUserStack (fun _ => 0) 0x10000 0 0 0 0 (vecOf [argA]) 1 (vecOf []) 0).sp [argA] []
      (auxPairs 0 0 0 0 (randomAddr 0x10000 [argA] [])) :=
  (stack_decodes_iff (fun _ => 0) 0x10000 0 0 0 0 [argA] [] (by decide) (by decide) (by decide +kernel)
    (by decide)).mpr rfl

theorem stack_with_env_not_decoded :
    ¬ Decoded
      (setupLinuxUserStack (fun _ => 0) 0x10000 0 0 0 0 (vecOf [argA]) 1 (vecOf [envA1]) 1).mem
      (setupLinuxUserStack (fun _ => 0) 0x10000 0 0 0 0 (vecOf [argA]) 1 (vecOf [envA1]) 1).sp
      [argA] [envA1] (auxPairs 0 0 0 0 (randomAddr 0x10000 [argA] [envA1])) := by
  intro hd
  have h := envs_eq_nil_of_decoded (m := fun _ => 0) (by decide +kernel) (by decide) (by decide)
    (by decide) hd
  exact absurd h (cons_ne_nil _ _)

/-- The same for a dynamic program, with the interpreter's base in `AT_BASE`. -/
theorem stack_dyn_decodes_iff (m : Mem) (top : ℕ) (phdr phent phnum elfBase interpBase : UInt64)
    (isDynamic : Bool) (args envs : List Str) (ha : args.length ≤ 8) (he : envs.length ≤ 8)
    (hfit : Fits top phnum args envs) (htop : top < 2 ^ 64) :
    let b := setupLinuxUserStackDyn m top phdr phent phnum elfBase (vecOf args) args.length
      (vecOf envs) envs.length interpBase isDynamic
    Decoded b.mem b.sp args envs (auxPairs phdr phent phnum
      (if isDynamic then interpBase else elfBase) (randomAddr top args envs)) ↔ envs = [] := by
  intro b
  refine ⟨fun hd => envs_eq_nil_of_decoded hfit htop ha he hd, fun h0 => ?_⟩
  subst h0
  exact decoded_of_envs_nil hfit htop ha

/-! ### Where the stack ends -/

/-- The bytes of the strings of a vector with their ends. -/
def vecBytes (v : StrVec) (n : ℕ) : ℕ := ((range n).map fun i => (strAt v i).1.length + 1).sum

theorem downLoop_putString_sp (v : StrVec) (n : ℕ) (c : Copy) :
    (downLoop (putString v) n c).sp = c.sp - vecBytes v n := by
  induction n generalizing c with
  | zero => rfl
  | succ n ih =>
    have hput : (putString v n c).sp = c.sp - ((strAt v n).1.length + 1) := by
      rw [← length_singleton (a := (0 : UInt8)), ← length_append]
      rfl
    have hsum : vecBytes v (n + 1) = vecBytes v n + ((strAt v n).1.length + 1) := by
      rw [vecBytes, range_succ, map_append, sum_append]
      rfl
    rw [downLoop, ih, hput]
    omega

theorem pushAll_sp (ws : List ℕ) (d : Down) : (Down.pushAll ws d).sp = d.sp - 8 * ws.length := by
  induction ws generalizing d with
  | nil => rfl
  | cons w ws ih =>
    have hpush : (d.push w).sp = d.sp - 8 := rfl
    rw [Down.pushAll, foldl_cons, ← Down.pushAll, ih, hpush, length_cons]
    omega

/-- The number of pointers to strings. -/
def ptrCount (argv : StrVec) (argc envc : ℕ) : ℕ := (if 0 < argc ∧ argv.isSome then argc else 0) + envc

theorem setup_sp (m : Mem) (top : ℕ) (phdr phent phnum elfBase : UInt64) (argv : StrVec) (argc : ℕ)
    (envp : StrVec) (envc : ℕ) :
    (setupLinuxUserStack m top phdr phent phnum elfBase argv argc envp envc).sp =
      top - (vecBytes argv argc + vecBytes envp envc +
        8 * ((if phnum ≠ 0 then 21 else 15) + ptrCount argv argc envc)) := by
  have ha : (copyStrings argv argc ⟨m, top⟩).sp = top - vecBytes argv argc :=
    downLoop_putString_sp ..
  have he : ∀ d, (copyStrings envp envc d).sp = d.sp - vecBytes envp envc :=
    fun _ => downLoop_putString_sp ..
  have hp : ∀ (d : Down) w, (d.push w).sp = d.sp - 8 := fun _ _ => rfl
  unfold setupLinuxUserStack ptrCount
  dsimp only
  split_ifs
  all_goals
    simp only [hp, pushPtrs_eq, pushAll_sp, auxWords_length, length_reverse, length_map, length_range,
      randomWords, length_cons, length_nil, he, ha]
    simp_all
    omega

/-- **RSP is a multiple of 16 exactly if the strings and an odd number of quadwords, their pointers
among them, are**, for vectors that the two arrays have room for.  The program headers do not
matter. -/
theorem rsp_aligned_iff (m : Mem) (top : ℕ) (phdr phent phnum elfBase : UInt64) (argv : StrVec)
    (argc : ℕ) (envp : StrVec) (envc : ℕ) (_h8 : argc ≤ 8 ∧ envc ≤ 8)
    (htop : top % 16 = 0)
    (hfit : vecBytes argv argc + vecBytes envp envc + 8 * (21 + ptrCount argv argc envc) ≤ top) :
    (setupLinuxUserStack m top phdr phent phnum elfBase argv argc envp envc).sp % 16 = 0 ↔
      (vecBytes argv argc + vecBytes envp envc + 8 * (1 + ptrCount argv argc envc)) % 16 = 0 := by
  rw [setup_sp]
  split <;> omega

theorem rsp_aligned_iff_envA1 :
    (setupLinuxUserStack (fun _ => 0) 0x10000 0 0 0 0 (vecOf [envA1]) 1 (vecOf [envA1]) 1).sp % 16 =
      0 :=
  (rsp_aligned_iff (fun _ => 0) 0x10000 0 0 0 0 _ 1 _ 1 (by decide) (by decide)
    (by decide)).mpr (by decide)

/-- Without arguments and environment RSP is 8 bytes off. -/
theorem empty_stack_unaligned :
    (setupLinuxUserStack (fun _ => 0) 0x10000 0 0 0 0 none 0 none 0).sp % 16 = 8 := by
  rw [setup_sp]
  decide

end TipOS.Exec
