import TipOS.Fs.FatRuns
import TipOS.Fs.Sectors

/-!
# Giving up the clusters of a directory

The loop of `fat32_rmdir` reads the entry of a cluster, clears it and goes on with the cluster that
the entry named.  An entry that has been cleared ends the loop, so it ends on cycles too
(`freeChain_clears`).

The allocation table is a part of the disk, and `fat_read_entry` and `fat_write_entry` do not look
where it ends.  On the bytes of the disk (`Layout.freeLoop`) the loop does its work as long as the
links stay inside the table (`freeLoop_clears`); a link behind it makes the loop take data for
entries and clear them (`link_behind_table`).
-/

namespace TipOS.Fs

open Function Lib

namespace Volume

variable {v : Volume} {c x : ℕ}

/-- The loop ends within `n` turns. -/
def freeEnds : ℕ → Volume → ℕ → Prop
  | 0, _, _ => False
  | n + 1, v, c => ended (v.fat c) ∨ freeEnds n (v.fatWriteEntry c 0) (v.fat c)

theorem follows_of_ended (h : ended (v.fat c)) (hf : Follows v.fat c x) : x = c := by
  induction hf with
  | refl => rfl
  | tail _ hs ih =>
    obtain ⟨rfl, hs⟩ := hs
    exact absurd (ih ▸ h) hs

theorem freeChain_ended (n : ℕ) (h : ended (v.fat c)) :
    freeEnds (n + 1) v c ∧ ∀ x, Follows v.fat c x → (freeChain (n + 1) v c).fat x = 0 := by
  refine ⟨.inl h, fun x hf => ?_⟩
  rw [freeChain, if_pos h, follows_of_ended h hf]
  exact update_self _ _ _

/-- **Each turn but the last clears an entry of the chain that was not zero.** -/
theorem freeChain_clears (n : ℕ) : ∀ (v : Volume) (c : ℕ) (S : Finset ℕ),
    (∀ x, Follows v.fat c x → v.fat x ≠ 0 → x ∈ S) → S.card ≤ n →
    freeEnds (n + 1) v c ∧ ∀ x, Follows v.fat c x → (freeChain (n + 1) v c).fat x = 0 := by
  induction n with
  | zero =>
    intro v c S hS hn
    refine freeChain_ended 0 (.inl ?_)
    by_contra hc
    have hmem := hS c .refl (by omega)
    rw [Finset.card_eq_zero.mp (Nat.le_zero.mp hn)] at hmem
    cases hmem
  | succ n ih =>
    intro v c S hS hn
    by_cases h0 : ended (v.fat c)
    · exact freeChain_ended _ h0
    have hc : c ∈ S := hS c .refl fun he => h0 (.inl (by omega))
    have hS' : ∀ x, Follows (v.fatWriteEntry c 0).fat (v.fat c) x →
        (v.fatWriteEntry c 0).fat x ≠ 0 → x ∈ S.erase c := by
      intro x hf hx
      have hxc : x ≠ c := fun e => hx (e ▸ update_self _ _ _)
      exact Finset.mem_erase.mpr ⟨hxc, hS x ((follows_iff h0).mpr (.inr hf))
        fun h => hx ((update_of_ne hxc _ _).trans h)⟩
    obtain ⟨hend, hclear⟩ := ih _ (v.fat c) _ hS' (by rw [Finset.card_erase_of_mem hc]; omega)
    refine ⟨.inr hend, fun x hf => ?_⟩
    rw [freeChain, if_neg h0]
    by_cases hx : Follows (v.fatWriteEntry c 0).fat (v.fat c) x
    · exact hclear x hx
    · rw [freeChain_fat _ _ _ hx, ((follows_iff h0).mp hf).resolve_right hx]
      exact update_self _ _ _

end Volume

namespace Layout

open Volume

/-! ### The table on the disk -/

section

variable (L : Layout)

/-- Where the entry of a cluster is. -/
def entryAddr (c : ℕ) : ℕ := 512 * (L.fatSector c % 2 ^ 28) + entOffset c

/-- `fat_write_entry` on a disk without errors; the upper four bits stay. -/
def fatWriteEntry (b : Mem) (c value : ℕ) : Mem :=
  b.store (L.entryAddr c) 4 (b.load (L.entryAddr c) 4 / 2 ^ 28 * 2 ^ 28 + value % 2 ^ 28)

/-- The loop of `fat32_rmdir` from the cluster `c` on, at most `n` turns of it. -/
def freeLoop : ℕ → Mem → ℕ → Mem
  | 0, b, _ => b
  | n + 1, b, c =>
    let next := L.fatEntry b c
    let b := L.fatWriteEntry b c 0
    if ended next then b else freeLoop n b next

/-- The loop ends within `n` turns. -/
def FreeEnds : ℕ → Mem → ℕ → Prop
  | 0, _, _ => False
  | n + 1, b, c => ended (L.fatEntry b c) ∨ FreeEnds n (L.fatWriteEntry b c 0) (L.fatEntry b c)

/-- The table has `k` entries, all of them in front of the data. -/
def HasTable (k : ℕ) : Prop := k ≤ 2 ^ 28 ∧ 512 * L.fatStart + 4 * k ≤ 512 * L.firstData

end

variable {L : Layout} {b : Mem} {c x k : ℕ}

theorem fatEntry_eq : L.fatEntry b c = b.load (L.entryAddr c) 4 % 2 ^ 28 := by
  have hload : ∀ s n a, Mem.load (fun i => b (s + i)) a n = b.load (s + a) n := by
    intro s n
    induction n with
    | zero => exact fun _ => rfl
    | succ n ih =>
      intro a
      rw [Mem.load, Mem.load, ih, Nat.add_assoc]
  rw [fatEntry, hload, entryAddr]

theorem entryAddr_eq (h : L.HasTable k) (hc : c < k) :
    L.entryAddr c = 512 * L.fatStart + 4 * c := by
  have hfits : L.firstData ≤ 2 ^ 28 := (Nat.le_add_right _ _).trans L.fits
  have hk := h.1
  have hend := h.2
  rw [entryAddr, fatSector, entOffset]
  omega

/-- **An entry that is cleared.** -/
theorem fatEntry_fatWriteEntry (h : L.HasTable k) (hc : c < k) (hx : x < k) :
    L.fatEntry (L.fatWriteEntry b c 0) x = update (L.fatEntry b) c 0 x := by
  rw [fatEntry_eq, fatWriteEntry]
  by_cases hxc : x = c
  · rw [hxc, update_self, Mem.load_store]
    omega
  · rw [update_of_ne hxc, fatEntry_eq, Mem.load_store_of_disjoint]
    rw [entryAddr_eq h hc, entryAddr_eq h hx]
    omega

/-- **The loop on the disk does what it does on a table**, as long as the links stay inside. -/
theorem freeLoop_agrees (h : L.HasTable k) (n : ℕ) : ∀ (b : Mem) (v : Volume) (c : ℕ),
    (∀ x < k, L.fatEntry b x = v.fat x) → (∀ x, Follows v.fat c x → x < k) →
    (freeEnds n v c → L.FreeEnds n b c) ∧
      (∀ x < k, L.fatEntry (L.freeLoop n b c) x = (freeChain n v c).fat x) ∧
      ∀ a, (∀ x, Follows v.fat c x → a < L.entryAddr x ∨ L.entryAddr x + 4 ≤ a) →
        L.freeLoop n b c a = b a := by
  induction n with
  | zero => exact fun b v c hb _ => ⟨id, hb, fun _ _ => rfl⟩
  | succ n ih =>
    intro b v c hb hin
    have hc : c < k := hin c .refl
    have hb' : ∀ x < k, L.fatEntry (L.fatWriteEntry b c 0) x = (v.fatWriteEntry c 0).fat x := by
      intro x hx
      rw [fatEntry_fatWriteEntry h hc hx, update_apply, hb x hx]
      exact (update_apply v.fat c 0 x).symm
    have hout : ∀ a, (∀ x, Follows v.fat c x → a < L.entryAddr x ∨ L.entryAddr x + 4 ≤ a) →
        L.fatWriteEntry b c 0 a = b a := fun a ha => Mem.store_apply_of_not_mem (ha c .refl)
    rw [freeLoop, FreeEnds, freeEnds, freeChain, hb c hc]
    by_cases h0 : ended (v.fat c)
    · rw [if_pos h0, if_pos h0]
      exact ⟨fun _ => .inl h0, hb', hout⟩
    have hsub : ∀ x, Follows (v.fatWriteEntry c 0).fat (v.fat c) x → Follows v.fat c x :=
      fun x hf => (follows_iff h0).mpr (.inr hf)
    obtain ⟨hend, hfat, hbytes⟩ := ih _ _ (v.fat c) hb' fun x hf => hin x (hsub x hf)
    rw [if_neg h0, if_neg h0]
    exact ⟨fun he => .inr (hend (he.resolve_left h0)), hfat,
      fun a ha => (hbytes a fun x hf => ha x (hsub x hf)).trans (hout a ha)⟩

/-- **The chain of a directory is given up in time**, also when it is a cycle, if its links stay
inside the table: there is one turn for each entry that is not zero and one more, exactly the
entries of the chain are cleared, and nothing else on the disk changes. -/
theorem freeLoop_clears (L : Layout) (b : Mem) (c k : ℕ) (h : L.HasTable k)
    (hin : ∀ x, Follows (L.fatEntry b) c x → x < k) (S : Finset ℕ)
    (hS : ∀ x, x ∈ S ↔ x < k ∧ L.fatEntry b x ≠ 0) :
    L.FreeEnds (S.card + 1) b c ∧
      (∀ x < k, (Follows (L.fatEntry b) c x → L.fatEntry (L.freeLoop (S.card + 1) b c) x = 0) ∧
        (¬ Follows (L.fatEntry b) c x →
          L.fatEntry (L.freeLoop (S.card + 1) b c) x = L.fatEntry b x)) ∧
      ∀ a, (∀ x, Follows (L.fatEntry b) c x → a < L.entryAddr x ∨ L.entryAddr x + 4 ≤ a) →
        L.freeLoop (S.card + 1) b c a = b a := by
  obtain ⟨hend, hclear⟩ := freeChain_clears S.card (L.volume 0 b) c S
    (fun x hf hx => (hS x).mpr ⟨hin x hf, hx⟩) le_rfl
  obtain ⟨hends, hfat, hbytes⟩ :=
    freeLoop_agrees h (S.card + 1) b (L.volume 0 b) c (fun _ _ => rfl) hin
  refine ⟨hends hend, fun x hx => ⟨fun hf => ?_, fun hf => ?_⟩, hbytes⟩
  · rw [hfat x hx]
    exact hclear x hf
  · rw [hfat x hx]
    exact freeChain_fat _ _ _ hf

/-- Bytes at the beginning of sector 1, which is the table, and of sector 2, the first of the
data. -/
def twoSectors (table data : List UInt8) : Mem := fun a =>
  if a < 1024 then table.getD (a - 512) 0 else data.getD (a - 1024) 0

/-- Clusters 2 and 3 point at each other. -/
def cycleDisk : Mem := twoSectors [0, 0, 0, 0, 0, 0, 0, 0, 3, 0, 0, 0, 2] []

theorem freeLoop_clears_cycle :
    tiny.FreeEnds 3 cycleDisk 2 ∧ tiny.fatEntry (tiny.freeLoop 3 cycleDisk 2) 3 = 0 := by
  have hall : ∀ x < 128, x ∈ ({2, 3} : Finset ℕ) ↔ tiny.fatEntry cycleDisk x ≠ 0 := by
    decide +kernel
  have hS : ∀ x, x ∈ ({2, 3} : Finset ℕ) ↔ x < 128 ∧ tiny.fatEntry cycleDisk x ≠ 0 := by
    refine fun x => ⟨fun hx => ?_, fun hx => (hall x hx.1).mpr hx.2⟩
    have hlt : x < 128 := by
      rcases Finset.mem_insert.mp hx with rfl | hx
      · decide
      · rw [Finset.mem_singleton.mp hx]
        decide
    exact ⟨hlt, (hall x hlt).mp hx⟩
  have hin : ∀ x, Follows (tiny.fatEntry cycleDisk) 2 x → x = 2 ∨ x = 3 := by
    intro x hf
    induction hf with
    | refl => exact .inl rfl
    | tail _ hs ih =>
      rcases ih with rfl | rfl
      · exact .inr (hs.1.trans (by decide +kernel))
      · exact .inl (hs.1.trans (by decide +kernel))
  obtain ⟨hend, hfat, -⟩ := freeLoop_clears tiny cycleDisk 2 128 ⟨by decide, by decide⟩
    (fun x hf => by have := hin x hf; omega) {2, 3} hS
  exact ⟨hend, (hfat 3 (by decide)).1 (.single ⟨by decide +kernel, by decide⟩)⟩

/-- Cluster 2 has the link 128, which is behind the table; the data begin with the numbers 129, 130
and 0. -/
def behindDisk : Mem := twoSectors [0, 0, 0, 0, 0, 0, 0, 0, 128] [129, 0, 0, 0, 130, 0, 0, 0, 0]

/-- **A link behind the table**: there is one entry that is not zero, and the loop has not ended
after two turns; when it ends, bytes of the data have been cleared. -/
theorem link_behind_table :
    (∀ x < 128, x ∈ ({2} : Finset ℕ) ↔ tiny.fatEntry behindDisk x ≠ 0) ∧
    ¬ tiny.FreeEnds (({2} : Finset ℕ).card + 1) behindDisk 2 ∧
    behindDisk 1024 = 129 ∧ tiny.freeLoop 4 behindDisk 2 1024 = 0 := by
  refine ⟨by decide +kernel, ?_, rfl, by decide +kernel⟩
  rintro (h | h | h)
  · exact absurd h (by decide +kernel)
  · exact absurd h (by decide +kernel)
  · exact h

end Layout

end TipOS.Fs
