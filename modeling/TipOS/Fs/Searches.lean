import TipOS.Fs.FatRuns

/-!
# Searching a directory that has changed

`find_entry` looks at the records one after the other and keeps the long name read so far
(`findFrom_cons`).  It finds a record that has just been created (`findEntry_created`), as the name
was not there before.
-/

namespace TipOS.Fs

open Lib Bool List

namespace Volume

variable {v w : Volume} {s t : Slot} {name : List UInt8} {k pre post : List Slot} {n : LongName}

/-- `find_entry` takes this record, when `n` is the long name read in front of it. -/
def hits (v : Volume) (name : List UInt8) (t : Slot) (n : LongName) : Bool :=
  !v.isFree t && !v.isLong t &&
    (decide (0 < n.len) && lfnMatch n name || decide (v.name t = nameTo83 name))

/-- The long name behind a record that is not taken. -/
def advance (v : Volume) (t : Slot) (n : LongName) : LongName :=
  if v.isFree t = false ∧ v.isLong t = true then v.longPiece t n else { n with len := 0 }

theorem findFrom_cons (name : List UInt8) (t : Slot) (k : List Slot) (n : LongName) :
    v.findFrom name (t :: k) n = if v.isEnd t then none
      else if v.hits name t n then some t else v.findFrom name k (v.advance t n) := by
  rw [findFrom, hits, advance]
  cases v.isFree t with
  | true => rfl
  | false =>
    cases v.isLong t with
    | true => rfl
    | false =>
      by_cases hl : 0 < n.len ∧ lfnMatch n name
      · simp [hl]
      by_cases hs : v.name t = nameTo83 name
      · simp [hs]
      · have hl' : (decide (0 < n.len) && lfnMatch n name) = false := by
          simpa [and_eq_false_iff] using hl
        simp [hl, hs, hl']

/-! ### Equal records -/

/-- The record has the same bytes. -/
def SameRecord (v w : Volume) (t : Slot) : Prop := ∀ i < 32, w.byte t i = v.byte t i

namespace SameRecord

section

variable (h : SameRecord v w t)

include h

theorem longChars : ∀ (offs : List ℕ) (pos : ℕ) (n : LongName),
    (∀ o ∈ offs, o < 31) → w.longChars t offs pos n = v.longChars t offs pos n := by
  intro offs
  induction offs with
  | nil => exact fun _ _ _ => rfl
  | cons o offs ih =>
    intro pos n ho
    have hlt := ho o (.head _)
    rw [Volume.longChars, Volume.longChars, h o (by omega), h (o + 1) (by omega)]
    rw [ih _ _ fun a ha => ho a (mem_cons_of_mem o ha)]

theorem longPiece (n : LongName) : w.longPiece t n = v.longPiece t n := by
  have hoffs : ∀ o ∈ longOffsets, o < 31 := by decide
  rw [Volume.longPiece, Volume.longPiece, h 0 (by omega)]
  simp only [h.longChars _ _ _ hoffs]

theorem isEnd : w.isEnd t = v.isEnd t := by
  rw [Volume.isEnd, Volume.isEnd, h 0 (by omega)]

theorem isFree : w.isFree t = v.isFree t := by
  rw [Volume.isFree, Volume.isFree, h 0 (by omega)]

theorem isLong : w.isLong t = v.isLong t := by
  rw [Volume.isLong, Volume.isLong, attr, attr, h 11 (by omega)]

theorem shortName : w.name t = v.name t :=
  name_congr fun i hi => h i (by omega)

theorem hits (name : List UInt8) (n : LongName) :
    w.hits name t n = v.hits name t n := by
  rw [Volume.hits, Volume.hits, h.isFree, h.isLong, h.shortName]

theorem advance (n : LongName) : w.advance t n = v.advance t n := by
  rw [Volume.advance, Volume.advance, h.isFree, h.isLong, h.longPiece]

end

end SameRecord

theorem findFrom_congr : ∀ (k : List Slot) (n : LongName), (∀ t ∈ k, SameRecord v w t) →
    w.findFrom name k n = v.findFrom name k n := by
  intro k
  induction k with
  | nil => exact fun _ _ => rfl
  | cons t k ih =>
    intro n h
    have ht := h t (.head _)
    rw [findFrom_cons, findFrom_cons, ht.isEnd, ht.hits, ht.advance,
      ih _ fun a ha => h a (mem_cons_of_mem t ha)]

theorem findFrom_append (v : Volume) (name : List UInt8) (post : List Slot) :
    ∀ (pre : List Slot) (n : LongName), v.findFrom name pre n = none →
      (∀ t ∈ pre, v.isEnd t = false) →
      v.findFrom name (pre ++ post) n = v.findFrom name post (pre.foldl (fun n t => v.advance t n) n)
    := by
  intro pre
  induction pre with
  | nil => exact fun _ _ _ => rfl
  | cons t pre ih =>
    intro n h he
    rw [findFrom_cons, he t mem_cons_self] at h
    rw [cons_append, findFrom_cons, he t mem_cons_self]
    by_cases ht : v.hits name t n
    · rw [if_neg Bool.false_ne_true, if_pos ht] at h
      exact absurd h (by simp)
    · rw [if_neg Bool.false_ne_true, if_neg ht] at h
      rw [if_neg Bool.false_ne_true, if_neg ht]
      exact ih _ h fun a ha => he a (mem_cons_of_mem t ha)

theorem findFrom_none_left : ∀ (pre : List Slot) (n : LongName),
    v.findFrom name (pre ++ post) n = none → v.findFrom name pre n = none := by
  intro pre
  induction pre with
  | nil => exact fun _ _ => rfl
  | cons t pre ih =>
    intro n h
    rw [cons_append, findFrom_cons] at h
    rw [findFrom_cons]
    split at h
    · next he => rw [if_pos he]
    next he =>
    rw [if_neg he]
    split at h
    · exact absurd h (by simp)
    · next hh =>
      rw [if_neg hh]
      exact ih _ h

/-! ### A created record -/

theorem makeEntry_sameRecord (name : List UInt8) (attr : UInt8) (h : t ≠ s) :
    SameRecord v (v.makeEntry s name attr) t := by
  intro i hi
  rw [makeEntry, setFirstCluster, byte_putNum (by omega) hi (.inl h),
    byte_putNum (by omega) hi (.inl h), setSize, byte_putNum (by omega) hi (.inl h),
    byte_put (by simp) hi (.inl h), byte_put (by rw [nameTo83_length]; omega) hi (.inl h)]

/-- The record that `create_entry_at` takes, with what is in front of it. -/
theorem create_slot (h : (v.slots v.cwd).find? (fun s => v.isEnd s || v.isFree s) = some s) :
    (v.isEnd s || v.isFree s) ∧ ∃ pre post, v.slots v.cwd = pre ++ s :: post ∧
      ∀ t ∈ pre, v.isEnd t = false ∧ v.isFree t = false := by
  obtain ⟨hs, pre, post, he, hpre⟩ := find?_eq_some_iff_append.mp h
  refine ⟨hs, pre, post, he, fun t ht => ?_⟩
  have := hpre t ht
  rwa [not_eq_true', or_eq_false_iff] at this

theorem makeEntry_isEnd (name : CString) (attr : UInt8) :
    (v.makeEntry s name.val attr).isEnd s = false := by
  rw [isEnd_eq, makeEntry_self]
  exact decide_eq_false (headD_nameTo83_ne_zero name)

/-- **A created record is found**, if the name was not there and its first byte does not mark a
free record. -/
theorem findEntry_created {name : CString} {attr : UInt8} {junk : ℕ → UInt8}
    (hs : (v.slots v.cwd).find? (fun s => v.isEnd s || v.isFree s) = some s)
    (hn : (nameTo83 name.val).headD 0 ≠ 0xE5) (ha : attr ≠ 0x0F)
    (hfresh : v.findEntry junk v.cwd name.val = none) :
    (v.makeEntry s name.val attr).findEntry junk v.cwd name.val = some s := by
  obtain ⟨hs', pre, post, he, hpre⟩ := create_slot hs
  have hne : ∀ t ∈ pre, t ≠ s := by
    rintro t ht rfl
    rw [(hpre t ht).1, (hpre t ht).2] at hs'
    exact false_ne_true hs'
  have hsame : ∀ t ∈ pre, SameRecord v (v.makeEntry s name.val attr) t :=
    fun t ht => makeEntry_sameRecord name.val attr (hne t ht)
  have hslots : (v.makeEntry s name.val attr).slots v.cwd = v.slots v.cwd := rfl
  have hentry := makeEntry_self v s name.val attr
  rw [findEntry, he] at hfresh
  have hnone := findFrom_none_left pre _ hfresh
  rw [findEntry, hslots, he, findFrom_append]
  · have hhit : ∀ n, (v.makeEntry s name.val attr).hits name.val s n := by
      intro n
      have hname : (v.makeEntry s name.val attr).name s = nameTo83 name.val :=
        congrArg Entry.name hentry
      rw [hits, isFree_eq, isLong_eq, hentry, hname, decide_eq_true rfl, Bool.or_true, Bool.and_true,
        and_eq_true, not_eq_true', not_eq_true']
      exact ⟨decide_eq_false hn, decide_eq_false ha⟩
    rw [findFrom_cons, makeEntry_isEnd, if_neg Bool.false_ne_true, if_pos (hhit _)]
  · rw [findFrom_congr pre _ hsame]
    exact hnone
  · intro t ht
    rw [(hsame t ht).isEnd]
    exact (hpre t ht).1

end Volume

end TipOS.Fs
