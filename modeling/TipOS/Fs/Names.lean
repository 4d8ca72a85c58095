import Mathlib.Data.List.TakeWhile
import TipOS.Fs.Records

/-!
# Short names and back

`name_to_83` writes a name into the 11 bytes of a record and scans for a dot; `fat32_match_prefix`
makes a name of them again and scans for a space.
-/

namespace TipOS.Fs

variable {n : ℕ} {l base ext : List UInt8}

/-- The name that `fat32_match_prefix` makes of the name of a record, as a string of C. -/
def decode83 (e : List UInt8) : List UInt8 :=
  let base := (e.take 8).takeWhile (· ≠ 32)
  let hasExt := (e.drop 8).any (· ≠ 32)
  let name := if hasExt ∧ 0 < base.length then base ++ 46 :: (e.drop 8).takeWhile (· ≠ 32) else base
  name.takeWhile (· ≠ 0)

/-- A base and an extension, which may be empty. -/
def shortName (base ext : List UInt8) : List UInt8 := if ext = [] then base else base ++ 46 :: ext

theorem padded_eq (h : l.length ≤ n) : padded n l = l ++ List.replicate (n - l.length) 32 := by
  rw [padded, List.take_of_length_le h]

theorem takeWhile_padded (h : ∀ c ∈ l, c ≠ 32) (hl : l.length ≤ n) :
    (padded n l).takeWhile (· ≠ 32) = l := by
  rw [padded_eq hl, List.takeWhile_append_of_pos (by simpa using h)]
  cases n - l.length with
  | zero => simp
  | succ k => simp [List.replicate_succ]

theorem any_padded (h : ∀ c ∈ l, c ≠ 32) (hl : l.length ≤ n) :
    (padded n l).any (· ≠ 32) ↔ l ≠ [] := by
  rw [padded_eq hl]
  cases l with
  | nil => simp
  | cons c t => simp [h c List.mem_cons_self]

theorem decode83_padded (h : ∀ c ∈ base ++ ext, c ≠ 0 ∧ c ≠ 32) (h0 : base ≠ [])
    (hb : base.length ≤ 8) (he : ext.length ≤ 3) :
    decode83 (padded 8 base ++ padded 3 ext) = shortName base ext := by
  have hbase : ∀ c ∈ base, c ≠ 32 := fun c hc => (h c (List.mem_append_left _ hc)).2
  have hext : ∀ c ∈ ext, c ≠ 32 := fun c hc => (h c (List.mem_append_right _ hc)).2
  have hz : (shortName base ext).takeWhile (· ≠ 0) = shortName base ext := by
    refine List.takeWhile_eq_self_iff.mpr fun x hx => decide_eq_true ?_
    rintro rfl
    rw [shortName] at hx
    split at hx
    · exact (h 0 (List.mem_append_left _ hx)).1 rfl
    · exact (h 0 (by simpa using hx)).1 rfl
  rw [decode83, List.take_left' (padded_length _ _), List.drop_left' (padded_length _ _)]
  simp only [takeWhile_padded hbase hb, takeWhile_padded hext he, any_padded hext he,
    List.length_pos_iff, h0, ne_eq, not_false_eq_true, and_true, ite_not]
  exact hz

theorem nameTo83_shortName (h : 46 ∉ base) (h0 : base ≠ []) :
    nameTo83 (shortName base ext) = padded 8 (base.map upper) ++ padded 3 (ext.map upper) := by
  have hall : ∀ x ∈ base, decide (x ≠ 46) := fun x hx => decide_eq_true fun e => h (e ▸ hx)
  have hne : ∀ t, shortName base ext ≠ 46 :: t := by
    intro t e
    obtain ⟨c, u, rfl⟩ := List.exists_cons_of_ne_nil h0
    rw [shortName] at e
    split at e <;> exact h (by simp [(List.cons.inj e).1])
  rw [nameTo83, if_neg (hne []), if_neg (hne [46]), shortName]
  split
  · next he =>
    rw [List.takeWhile_eq_self_iff.mpr hall, List.dropWhile_eq_nil_iff.mpr hall, he]
    rfl
  · rw [List.takeWhile_append_of_pos hall, List.dropWhile_append_of_pos hall]
    simp

/-- **Short names and back.**  A name comes back in upper case, and the name of a record comes back
if its base has no dot, or if it is one of the two dot names. -/
theorem short_names_round_trip (base ext : List UInt8)
    (hb : 0 < base.length ∧ base.length ≤ 8) (he : ext.length ≤ 3)
    (hz : ∀ c ∈ base ++ ext, c ≠ 0 ∧ c ≠ 32) :
    (46 ∉ base ++ ext →
      decode83 (nameTo83 (shortName base ext)) = (shortName base ext).map upper) ∧
    ((∀ c ∈ base ++ ext, upper c = c) →
      46 ∉ base ∨ ext = [] ∧ (base = [46] ∨ base = [46, 46]) →
      nameTo83 (decode83 (padded 8 base ++ padded 3 ext)) = padded 8 base ++ padded 3 ext) := by
  have h0 : base ≠ [] := List.length_pos_iff.mp hb.1
  refine ⟨fun h => ?_, fun h hdot => ?_⟩
  · have hup : ∀ c ∈ base.map upper ++ ext.map upper, c ≠ 0 ∧ c ≠ 32 := by
      intro c hc
      rw [← List.map_append] at hc
      obtain ⟨x, hx, rfl⟩ := List.mem_map.mp hc
      obtain ⟨h0, h32⟩ := hz x hx
      exact ⟨upper_ne (by decide) h0, upper_ne (by decide) h32⟩
    rw [nameTo83_shortName (fun hm => h (List.mem_append_left _ hm)) h0, decode83_padded hup
      (by simpa using h0) (by simpa using hb.2) (by simpa using he), shortName, shortName]
    by_cases hx : ext = []
    · simp [hx]
    · simp [hx, upper]
  · rw [decode83_padded hz h0 hb.2 he]
    rcases hdot with hdot | ⟨rfl, rfl | rfl⟩
    · have hup : ∀ k, k ⊆ base ++ ext → k.map upper = k := fun k hk =>
        (List.map_congr_left fun c hc => h c (hk hc)).trans (List.map_id' k)
      rw [nameTo83_shortName hdot h0, hup base (by simp), hup ext (by simp)]
    · rfl
    · rfl

theorem short_names_round_trip_ab :
    decode83 (nameTo83 [97, 46, 98]) = [65, 46, 66] ∧
      nameTo83 (decode83 (padded 8 [65] ++ padded 3 [66])) = padded 8 [65] ++ padded 3 [66] :=
  ⟨(short_names_round_trip [97] [98] (by decide) (by decide) (by simp)).1 (by decide),
    (short_names_round_trip [65] [66] (by decide) (by decide) (by simp)).2 (by simp [upper])
      (.inl (by decide))⟩

/-- The record of a name with a dot in its base. -/
theorem dot_in_base : (padded 8 [65, 46, 66] ++ padded 3 []).length = 11 ∧
    decode83 (padded 8 [65, 46, 66] ++ padded 3 []) = [65, 46, 66] ∧
    nameTo83 [65, 46, 66] = padded 8 [65] ++ padded 3 [66] ∧
    padded 8 [65] ++ padded 3 [66] ≠ padded 8 [65, 46, 66] ++ padded 3 [] := by
  decide

end TipOS.Fs
