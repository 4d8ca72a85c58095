import TipOS.Fs.Ext2

/-!
# The bytes of a directory block

`fs/ext2_new.zig`: `lookup` and `linkEntry` walk the records of a block and test only `rec_len`.
The bytes they touch, as pairs of the first and the one behind the last, are inside the block for
every name exactly if the records are `Sound`.
-/

namespace TipOS.Fs

open Lib List

variable {blk : Mem} {name : List UInt8}

def recLen (blk : Mem) (doff : ℕ) : ℕ := blk.load (doff + 4) 2
def nameLen (blk : Mem) (doff : ℕ) : ℕ := (blk (doff + 6)).toNat

/-- What the search of `findIn` reads. -/
def lookupReads (blk : Mem) (name : List UInt8) : ℕ → ℕ → List (ℕ × ℕ)
  | 0, _ => []
  | n + 1, doff =>
    if doff < blockSize then
      if recLen blk doff < 8 ∨ recLen blk doff > blockSize - doff then [(doff + 4, doff + 6)]
      else if blk.load doff 4 ≠ 0 ∧ 0 < nameLen blk doff then
        (doff, doff + 8) :: (doff + 8, doff + 8 + nameLen blk doff) ::
          if ((List.range (nameLen blk doff)).map fun i => lower (blk (doff + 8 + i))) =
            name.map lower then [] else lookupReads blk name n (doff + recLen blk doff)
      else (doff, doff + 8) :: lookupReads blk name n (doff + recLen blk doff)
    else []

/-- `minimal`: the sum is one of `u8`. -/
def minimal (len : ℕ) : ℕ := (8 + len + 3) % 256 / 4 * 4

/-- The records that `linkEntry` tries: what it touches, and the new record with its `rec_len`.  The
difference is one of `u32`. -/
def linkIn (blk : Mem) (name : List UInt8) : ℕ → ℕ → List (ℕ × ℕ) × Option (ℕ × ℕ)
  | 0, _ => ([], none)
  | n + 1, doff =>
    if doff < blockSize then
      if recLen blk doff < 8 ∨ recLen blk doff > blockSize - doff then ([(doff + 4, doff + 6)], none)
      else
        let noff := doff + minimal (nameLen blk doff)
        let slack := (recLen blk doff + 2 ^ 32 - minimal (nameLen blk doff)) % 2 ^ 32
        if blk.load doff 4 ≠ 0 ∧ slack ≥ (8 + name.length + 3) / 4 * 4 then
          ([(doff, doff + 8), (noff, noff + 8 + name.length)], some (noff, slack % 2 ^ 16))
        else
          let r := linkIn blk name n (doff + recLen blk doff)
          ((doff, doff + 8) :: r.1, r.2)
    else ([], none)

/-- With no room in the block, the record is the only one of a new block. -/
def linkEntry (blk : Mem) (name : List UInt8) : List (ℕ × ℕ) × ℕ × ℕ :=
  let r := linkIn blk name blockSize 0
  match r.2 with
  | some e => (r.1, e)
  | none => (r.1 ++ [(0, 8), (8, 8 + name.length), (8 + name.length, blockSize)], 0, blockSize)

/-- Every `rec_len` that is reached is inside the block, and a record in use has its name inside and
is not shorter than `minimal`. -/
def Sound (blk : Mem) : ℕ → ℕ → Prop
  | 0, _ => True
  | n + 1, doff => doff < blockSize → doff + 6 ≤ blockSize ∧
    (8 ≤ recLen blk doff ∧ recLen blk doff ≤ blockSize - doff →
      (blk.load doff 4 ≠ 0 → doff + 8 + nameLen blk doff ≤ blockSize ∧
        minimal (nameLen blk doff) ≤ recLen blk doff) ∧
      Sound blk n (doff + recLen blk doff))

def Inside (l : List (ℕ × ℕ)) : Prop := ∀ r ∈ l, r.2 ≤ blockSize

theorem inside_nil : Inside [] := forall_mem_nil _

theorem inside_cons {r : ℕ × ℕ} {l : List (ℕ × ℕ)} : Inside (r :: l) ↔ r.2 ≤ blockSize ∧ Inside l :=
  forall_mem_cons

theorem Sound.lookup : ∀ {n doff : ℕ}, Sound blk n doff → Inside (lookupReads blk name n doff) := by
  intro n
  induction n with
  | zero => exact fun _ => inside_nil
  | succ n ih =>
    intro doff h
    rw [lookupReads]
    split
    case isFalse => exact inside_nil
    next hd =>
    obtain ⟨h6, h⟩ := h hd
    split
    · exact inside_cons.2 ⟨h6, inside_nil⟩
    next hr =>
    obtain ⟨hu, hn⟩ := h (by omega)
    have h8 : doff + 8 ≤ blockSize := by omega
    split
    · next hi =>
      refine inside_cons.2 ⟨h8, inside_cons.2 ⟨(hu hi.1).1, ?_⟩⟩
      split
      · exact inside_nil
      · exact ih hn
    · exact inside_cons.2 ⟨h8, ih hn⟩

theorem Sound.link : ∀ {n doff : ℕ}, Sound blk n doff → Inside (linkIn blk name n doff).1 ∧
    ∀ e, (linkIn blk name n doff).2 = some e → e.1 + e.2 ≤ blockSize := by
  intro n
  induction n with
  | zero => exact fun _ => ⟨inside_nil, fun e he => by cases he⟩
  | succ n ih =>
    intro doff h
    rw [linkIn]
    split
    case isFalse => exact ⟨inside_nil, fun e he => by cases he⟩
    next hd =>
    obtain ⟨h6, h⟩ := h hd
    split
    · exact ⟨inside_cons.2 ⟨h6, inside_nil⟩, fun e he => by cases he⟩
    next hr =>
    obtain ⟨hu, hn⟩ := h (by omega)
    have hb : blockSize = 1024 := rfl
    dsimp only
    split
    · next hi =>
      have hm := (hu hi.1).2
      have hs := hi.2
      refine ⟨inside_cons.2 ⟨by dsimp only; omega, inside_cons.2 ⟨by dsimp only; omega,
        inside_nil⟩⟩, fun e he => ?_⟩
      cases he
      omega
    · exact ⟨inside_cons.2 ⟨by dsimp only; omega, (ih hn).1⟩, (ih hn).2⟩

theorem sound_end {n doff : ℕ} (h : blockSize ≤ doff) : Sound blk n doff := by
  cases n with
  | zero => trivial
  | succ n => exact fun hd => by omega

/-- The empty name is never found, and one of 1016 bytes only fits in a whole block. -/
theorem sound_of_inside (hl : name.length = 1016) : ∀ {n doff : ℕ},
    Inside (lookupReads blk [] n doff) → Inside (linkIn blk name n doff).1 → Sound blk n doff := by
  intro n
  induction n with
  | zero => exact fun _ _ => trivial
  | succ n ih =>
    intro doff h1 h2 hd
    have hb : blockSize = 1024 := rfl
    rw [lookupReads, if_pos hd] at h1
    rw [linkIn, if_pos hd] at h2
    by_cases hr : recLen blk doff < 8 ∨ recLen blk doff > blockSize - doff
    · rw [if_pos hr] at h1
      exact ⟨(inside_cons.1 h1).1, fun h => by omega⟩
    rw [if_neg hr] at h1 h2
    dsimp only at h2
    by_cases hi : blk.load doff 4 ≠ 0
    swap
    · rw [if_neg fun h => hi h.1] at h1 h2
      exact ⟨by omega, fun _ => ⟨fun h => absurd h hi,
        ih (inside_cons.1 h1).2 (inside_cons.1 h2).2⟩⟩
    have hm : minimal (nameLen blk doff) ≤ recLen blk doff := by
      by_contra hlt
      have h255 : minimal (nameLen blk doff) ≤ 255 := by
        rw [minimal]
        omega
      rw [if_pos ⟨hi, by omega⟩] at h2
      have := (inside_cons.1 (inside_cons.1 h2).2).1
      dsimp only at this
      omega
    have hname : doff + 8 + nameLen blk doff ≤ blockSize ∧
        Inside (lookupReads blk [] n (doff + recLen blk doff)) := by
      by_cases h0 : 0 < nameLen blk doff
      · rw [if_pos ⟨hi, h0⟩, if_neg] at h1
        · exact inside_cons.1 (inside_cons.1 h1).2
        · intro e
          have := congrArg List.length e
          simp at this
          omega
      · rw [if_neg fun h => h0 h.2] at h1
        exact ⟨by omega, (inside_cons.1 h1).2⟩
    refine ⟨by omega, fun _ => ⟨fun _ => ⟨hname.1, hm⟩, ?_⟩⟩
    split at h2
    · exact sound_end (by omega)
    · exact ih hname.2 (inside_cons.1 h2).2

/-- **For every name that fits in a block, `lookup` and `linkEntry` stay inside it exactly if the
records are sound.** -/
theorem dir_block_iff (blk : Mem) :
    (∀ name : List UInt8, name.length ≤ 1016 → Inside (lookupReads blk name blockSize 0) ∧
      Inside (linkEntry blk name).1 ∧
      (linkEntry blk name).2.1 + (linkEntry blk name).2.2 ≤ blockSize) ↔
    Sound blk blockSize 0 := by
  refine ⟨fun h => ?_, fun h name hn => ⟨h.lookup, ?_⟩⟩
  · refine sound_of_inside (length_replicate (a := 0)) (h [] (by simp)).1 fun r hr => ?_
    refine (h (List.replicate 1016 0) (Nat.le_of_eq length_replicate)).2.1 r ?_
    rw [linkEntry]
    split
    · exact hr
    · exact mem_append_left _ hr
  have hl : Inside (linkIn blk name blockSize 0).1 ∧ _ := h.link
  rw [linkEntry]
  split
  · next e he => exact ⟨hl.1, hl.2 e he⟩
  refine ⟨fun r hr => ?_, by simp⟩
  rcases mem_append.1 hr with hr | hr
  · exact hl.1 r hr
  · have hb : blockSize = 1024 := rfl
    simp only [mem_cons, not_mem_nil, or_false] at hr
    rcases hr with rfl | rfl | rfl <;> dsimp only <;> omega

/-- A free record of 1020 bytes, and then four bytes that are no header. -/
def shortTail : Mem := fun i => if i = 4 then 252 else if i = 5 then 3 else 0

theorem shortTail_read : (1024, 1026) ∈ lookupReads shortTail [97] blockSize 0 := by
  decide +kernel

end TipOS.Fs
