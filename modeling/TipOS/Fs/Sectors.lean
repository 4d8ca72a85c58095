import TipOS.Fs.Fat32

/-!
# Reading the sectors of a disk

`fs/fat32.c` reads sectors of 512 bytes, and every read may fail.  Here are `fat_read_entry`,
`fat_find_free` and `read_chain` as they work on sectors.

* A read fails as a pattern says that is given for the whole run (`err`).
* `Layout.volume` is the volume that is on a disk.

`fat_read_entry` answers 0 if the sector cannot be read, and 0 is what a free cluster has in its
entry and what ends a chain.  `failed_read_iff` says which patterns are harmless.
-/

namespace TipOS.Fs

open Lib Nat Bool

/-- Where a volume is on its disk: `fat_start_sector`, `first_data_sector` and what the boot sector
says of the clusters. -/
structure Layout where
  geo : Geometry
  fatStart : ℕ
  firstData : ℕ
  /-- The table has an entry for every cluster. -/
  table : 512 * fatStart + 4 * (geo.total + 2) ≤ 512 * firstData
  /-- The disk has sectors with numbers of 28 bits. -/
  fits : firstData + geo.total * geo.sectorsPerCluster ≤ 2 ^ 28

structure Disk where
  bytes : Mem
  /-- The number of reads so far. -/
  accesses : ℕ

namespace Disk

/-- More reads. -/
def tick (d : Disk) (n : ℕ) : Disk := { d with accesses := d.accesses + n }

/-- `ata_read_sector`, with 28 bits of the number; none if it fails. -/
def ataReadSector (err : ℕ → Bool) (d : Disk) (lba : ℕ) : Option Mem × Disk :=
  (if err d.accesses then none else some fun i => d.bytes (512 * (lba % 2 ^ 28) + i), d.tick 1)

@[simp] theorem tick_accesses (d : Disk) (n : ℕ) : (d.tick n).accesses = d.accesses + n := rfl
@[simp] theorem tick_tick (d : Disk) (n m : ℕ) : (d.tick n).tick m = d.tick (n + m) := by
  rw [tick, tick, tick, add_assoc]

end Disk

namespace Layout

variable (L : Layout) (err : ℕ → Bool)

def clusterBytes : ℕ := L.geo.sectorsPerCluster * 512

/-- `cluster_to_sector`, in 32 bits. -/
def clusterToSector (c : ℕ) : ℕ :=
  (L.firstData + (c + 2 ^ 32 - 2) * L.geo.sectorsPerCluster) % 2 ^ 32

def fatSector (c : ℕ) : ℕ := L.fatStart + c * 4 % 2 ^ 32 / 512
def entOffset (c : ℕ) : ℕ := c * 4 % 2 ^ 32 % 512

def fatReadEntry (d : Disk) (c : ℕ) : ℕ × Disk :=
  match d.ataReadSector err (L.fatSector c) with
  | (none, d) => (0, d)
  | (some sector, d) => (sector.load (entOffset c) 4 % 2 ^ 28, d)

/-- The loop of `fat_find_free`, from `c` on. -/
def findFreeFrom : ℕ → ℕ → Disk → Option ℕ × Disk
  | 0, _, d => (none, d)
  | n + 1, c, d =>
    let r := L.fatReadEntry err d c
    if r.1 = 0 then (some c, r.2) else findFreeFrom n (c + 1) r.2

/-- `fat_find_free`; none for 0. -/
def fatFindFree (d : Disk) : Option ℕ × Disk := L.findFreeFrom err L.geo.total 2 d

/-! ### Reading a chain -/

/-- `n` whole sectors into the buffer, from `pos` on. -/
def readSectors : ℕ → ℕ → ℕ → Disk → Mem → Bool × Disk × Mem
  | 0, _, _, d, buf => (true, d, buf)
  | n + 1, sector, pos, d, buf =>
    match d.ataReadSector err sector with
    | (none, d) => (false, d, buf)
    | (some m, d) => readSectors n (sector + 1) (pos + 512) d (buf.blit pos 512 m)

/-- The part of a cluster that is read: whole sectors, and the remainder through `tmp`. -/
def readCluster (sector pos toRead : ℕ) (d : Disk) (buf : Mem) : Bool × Disk × Mem :=
  match readSectors err (toRead / 512) sector pos d buf with
  | (false, d, buf) => (false, d, buf)
  | (true, d, buf) =>
    if toRead % 512 = 0 then (true, d, buf)
    else
      match d.ataReadSector err (sector + toRead / 512) with
      | (none, d) => (false, d, buf)
      | (some tmp, d) => (true, d, buf.blit (pos + toRead / 512 * 512) (toRead % 512) tmp)

/-- `read_chain` from the cluster `c` on, when `offset` bytes have been read.  Each turn reads a
byte at least, and the bound on the turns is that of the bytes. -/
def readChain : ℕ → ℕ → ℕ → ℕ → Disk → Mem → Option ℕ × Disk × Mem
  | 0, _, offset, _, d, buf => (some offset, d, buf)
  | n + 1, c, offset, size, d, buf =>
    if ended c ∨ size ≤ offset then (some offset, d, buf)
    else
      let toRead := min (size - offset) L.clusterBytes
      match readCluster err (L.clusterToSector c) offset toRead d buf with
      | (false, d, buf) => (none, d, buf)
      | (true, d, buf) =>
        let r := L.fatReadEntry err d c
        readChain n r.1 (offset + toRead) size r.2 buf

/-! ### The volume on a disk -/

/-- The entry of a cluster, as it is on the disk. -/
def fatEntry (b : Mem) (c : ℕ) : ℕ :=
  Mem.load (fun i => b (512 * (L.fatSector c % 2 ^ 28) + i)) (entOffset c) 4 % 2 ^ 28

/-- The volume on a disk, when `cwd` is the current directory. -/
def volume (cwd : ℕ) (b : Mem) : Volume where
  geo := L.geo
  cwd := cwd
  fat := L.fatEntry b
  data := fun c i => b (512 * (L.clusterToSector c % 2 ^ 28) + i)

theorem clusterBytes_pos : 0 < L.clusterBytes := mul_pos L.geo.pos (by decide)

/-! ### What a read does -/

section Reads

variable {L err} {d : Disk} {buf : Mem} {c n sector pos toRead : ℕ}

theorem fatReadEntry_of_err (h : err d.accesses) :
    L.fatReadEntry err d c = (0, d.tick 1) := by
  rw [fatReadEntry, Disk.ataReadSector, if_pos h]

theorem fatReadEntry_of_not_err (h : err d.accesses = false) :
    L.fatReadEntry err d c = (L.fatEntry d.bytes c, d.tick 1) := by
  rw [fatReadEntry, Disk.ataReadSector, h]
  rfl

/-- Reading sectors changes nothing on the disk, and fails if one of the reads does. -/
theorem readSectors_disk (err : ℕ → Bool) : ∀ (n sector pos : ℕ) (d : Disk) (buf : Mem),
    (readSectors err n sector pos d buf).2.1.bytes = d.bytes ∧
      ((readSectors err n sector pos d buf).1 = true ↔ ∀ i < n, err (d.accesses + i) = false) ∧
      ((readSectors err n sector pos d buf).1 →
        (readSectors err n sector pos d buf).2.1 = d.tick n) := by
  intro n
  induction n with
  | zero =>
    intro sector pos d buf
    exact ⟨rfl, ⟨fun _ i hi => absurd hi (not_lt_zero i), fun _ => rfl⟩, fun _ => rfl⟩
  | succ n ih =>
    intro sector pos d buf
    rw [readSectors, Disk.ataReadSector, forall_lt_succ_left, add_zero]
    cases he : err d.accesses with
    | true =>
      exact ⟨rfl, ⟨fun h => absurd h false_ne_true, fun h => absurd h.1.symm false_ne_true⟩,
        fun h => absurd h false_ne_true⟩
    | false =>
      obtain ⟨hb, hok, ht⟩ := ih (sector + 1) (pos + 512) (d.tick 1)
        (buf.blit pos 512 fun i => d.bytes (512 * (sector % 2 ^ 28) + i))
      simp only [Disk.tick_accesses, add_assoc, add_comm 1] at hok
      refine ⟨hb, hok.trans (and_iff_right rfl).symm, fun h => (ht h).trans ?_⟩
      rw [Disk.tick_tick, add_comm]

/-- The number of sectors that have `n` bytes. -/
def sectorsFor (n : ℕ) : ℕ := (n + 511) / 512

theorem sectorsFor_eq (n : ℕ) :
    sectorsFor n = n / 512 + if n % 512 = 0 then 0 else 1 := by
  rw [sectorsFor]
  split <;> omega

theorem readCluster_disk (err : ℕ → Bool) (sector pos toRead : ℕ) (d : Disk) (buf : Mem) :
    (readCluster err sector pos toRead d buf).2.1.bytes = d.bytes ∧
      ((readCluster err sector pos toRead d buf).1 = true ↔
        ∀ i < sectorsFor toRead, err (d.accesses + i) = false) ∧
      ((readCluster err sector pos toRead d buf).1 →
        (readCluster err sector pos toRead d buf).2.1 = d.tick (sectorsFor toRead)) := by
  obtain ⟨hb, hok, ht⟩ := readSectors_disk err (toRead / 512) sector pos d buf
  rw [readCluster, sectorsFor_eq]
  generalize readSectors err (toRead / 512) sector pos d buf = r at hb hok ht
  obtain ⟨ok, d', buf'⟩ := r
  cases ok with
  | false =>
    refine ⟨hb, ⟨fun h => absurd h false_ne_true, fun h => ?_⟩,
      fun h => absurd h false_ne_true⟩
    cases hok.mpr fun i hi => h i (by omega)
  | true =>
    have hd : d' = d.tick (toRead / 512) := ht rfl
    subst hd
    dsimp only
    split
    · exact ⟨rfl, hok, fun _ => rfl⟩
    rw [Disk.ataReadSector, forall_lt_succ_right, ← Disk.tick_accesses]
    cases he : err (d.tick (toRead / 512)).accesses with
    | true =>
      exact ⟨rfl, ⟨fun h => absurd h false_ne_true, fun h => absurd h.2.symm false_ne_true⟩,
        fun h => absurd h false_ne_true⟩
    | false =>
      exact ⟨rfl, ⟨fun _ => ⟨hok.mp rfl, rfl⟩, fun _ => rfl⟩, fun _ => Disk.tick_tick d _ 1⟩

end Reads

/-! ### Failed reads -/

/-- `fat_find_free` answers with clusters that are free on the disk only. -/
def FindsFree (d : Disk) : Prop :=
  ∀ c, (L.fatFindFree err d).1 = some c → L.fatEntry d.bytes c = 0

/-- `read_chain` reports fewer bytes than it was asked for only if the chain on the disk ends
there. -/
def ReadsWhole (d : Disk) (buf : Mem) (c size : ℕ) : Prop :=
  ∀ r, (L.readChain err size c 0 size d buf).1 = some r → r < size →
    ended ((L.fatEntry d.bytes)^[r / L.clusterBytes] c)

/-- No read fails in the scan for a free cluster before one has been met. -/
def ScanRead (b : Mem) (a c n : ℕ) : Prop :=
  ∀ i < n, err (a + i) = true → ∃ j ≤ i, L.fatEntry b (c + j) = 0

/-- The reads in front of the one for the link of cluster `i` of a chain. -/
def linkRead (i : ℕ) : ℕ := i * (L.geo.sectorsPerCluster + 1) + L.geo.sectorsPerCluster

/-- If the read for a link fails behind which bytes are to be read, the read of a data sector has
failed before. -/
def LinksRead (b : Mem) (a c size : ℕ) : Prop :=
  ∀ i, (i + 1) * L.clusterBytes < size → (∀ j ≤ i + 1, ¬ ended ((L.fatEntry b)^[j] c)) →
    err (a + L.linkRead i) = true →
    ∃ j < L.linkRead i, j % (L.geo.sectorsPerCluster + 1) ≠ L.geo.sectorsPerCluster ∧
      err (a + j) = true

section FailedReads

variable {L err}

theorem findFreeFrom_iff : ∀ (n c : ℕ) (d : Disk),
    (∀ x, (L.findFreeFrom err n c d).1 = some x → L.fatEntry d.bytes x = 0) ↔
      L.ScanRead err d.bytes d.accesses c n := by
  intro n
  induction n with
  | zero =>
    intro c d
    exact ⟨fun _ i hi => absurd hi (not_lt_zero i), fun _ x hx => absurd hx (by simp [findFreeFrom])⟩
  | succ n ih =>
    intro c d
    rw [findFreeFrom]
    cases he : err d.accesses with
    | true =>
      -- the entry counts as 0, whatever it is
      rw [fatReadEntry_of_err he]
      constructor
      · intro h i _ _
        exact ⟨0, zero_le i, h c rfl⟩
      · intro h x hx
        obtain ⟨j, hj, h0⟩ := h 0 (succ_pos n) he
        rw [le_zero.mp hj] at h0
        cases hx
        exact h0
    | false =>
      rw [fatReadEntry_of_not_err he]
      by_cases h0 : L.fatEntry d.bytes c = 0
      · refine ⟨fun _ i _ _ => ⟨0, zero_le i, h0⟩, fun _ x hx => ?_⟩
        rw [if_pos h0] at hx
        cases hx
        exact h0
      rw [if_neg h0]
      refine (ih (c + 1) (d.tick 1)).trans ⟨fun h i hi hei => ?_, fun h i hi hei => ?_⟩
      · cases i with
        | zero => cases he.symm.trans hei
        | succ i =>
          rw [add_comm i 1, ← add_assoc] at hei
          obtain ⟨j, hj, hz⟩ := h i (lt_of_succ_lt_succ hi) hei
          exact ⟨j + 1, succ_le_succ hj, by rwa [add_comm j 1, ← add_assoc]⟩
      · rw [Disk.tick_accesses, add_assoc, add_comm 1 i] at hei
        obtain ⟨j, hj, hz⟩ := h (i + 1) (succ_lt_succ hi) hei
        cases j with
        | zero => exact absurd hz h0
        | succ j =>
          exact ⟨j, le_of_succ_le_succ hj, by rwa [add_assoc, add_comm 1 j]⟩

/-- The links behind the first one, when the reads for the first cluster have not failed. -/
theorem linksRead_tail {b : Mem} {a c size : ℕ} (hs : L.clusterBytes < size) (hc : ¬ ended c)
    (hd : ∀ i < L.geo.sectorsPerCluster, err (a + i) = false)
    (hf : err (a + L.geo.sectorsPerCluster) = false) :
    L.LinksRead err b a c size ↔ L.LinksRead err b (a + (L.geo.sectorsPerCluster + 1))
      (L.fatEntry b c) (size - L.clusterBytes) := by
  generalize hq : L.geo.sectorsPerCluster = q at *
  have hlink : ∀ i, L.linkRead (i + 1) = (q + 1) + L.linkRead i := by
    intro i
    rw [linkRead, linkRead, hq]
    ring
  have hsize : ∀ i, (i + 1 + 1) * L.clusterBytes < size ↔
      (i + 1) * L.clusterBytes < size - L.clusterBytes := by
    intro i
    rw [add_mul (i + 1) 1, one_mul]
    omega
  constructor
  · intro h i hi hj he
    have hj' : ∀ j ≤ i + 1 + 1, ¬ ended ((L.fatEntry b)^[j] c) := by
      intro j hle
      cases j with
      | zero => exact hc
      | succ j => exact hj j (le_of_succ_le_succ hle)
    obtain ⟨j, hlt, hm, hej⟩ := h (i + 1) ((hsize i).mpr hi) hj'
      (by rw [hlink, ← add_assoc]; exact he)
    rw [hq] at hm ⊢
    -- the failed read is behind the first cluster
    have hge : q + 1 ≤ j := by
      by_contra hlt'
      rcases Nat.lt_succ_iff_lt_or_eq.mp (Nat.lt_of_not_le hlt') with hj | rfl
      · cases (hd j hj).symm.trans hej
      · cases hf.symm.trans hej
    obtain ⟨k, rfl⟩ := Nat.exists_eq_add_of_le hge
    rw [hlink] at hlt
    rw [add_mod_left] at hm
    exact ⟨k, by omega, hm, by rwa [add_assoc]⟩
  · intro h i hi hj he
    cases i with
    | zero =>
      rw [linkRead, hq, zero_mul, zero_add] at he
      cases hf.symm.trans he
    | succ i =>
      obtain ⟨j, hlt, hm, hej⟩ := h i ((hsize i).mp hi) (fun j hle => hj (j + 1) (by omega))
        (by rw [add_assoc, ← hlink]; exact he)
      rw [hq] at hm ⊢
      refine ⟨(q + 1) + j, by rw [hlink]; omega, ?_, by rwa [← add_assoc]⟩
      rwa [add_mod_left]

theorem sectorsFor_clusterBytes : sectorsFor L.clusterBytes = L.geo.sectorsPerCluster := by
  rw [sectorsFor, clusterBytes]
  omega

theorem readChain_ge : ∀ (n c offset size : ℕ) (d : Disk) (buf : Mem) (r : ℕ),
    (L.readChain err n c offset size d buf).1 = some r → offset ≤ r := by
  intro n
  induction n with
  | zero =>
    intro c offset size d buf r hr
    cases hr
    exact le_rfl
  | succ n ih =>
    intro c offset size d buf r hr
    rw [readChain] at hr
    split at hr
    · cases hr
      exact le_rfl
    dsimp only at hr
    split at hr
    · exact absurd hr (by simp)
    · exact (le_add_right _ _).trans (ih _ _ _ _ _ r hr)

theorem readChain_of_stop {n c offset size : ℕ} (h : ended c ∨ size ≤ offset) (d : Disk) (buf : Mem) :
    (L.readChain err n c offset size d buf).1 = some offset := by
  cases n with
  | zero => rfl
  | succ n => rw [readChain, if_pos h]

/-- The loop of `read_chain`: a short success is right unless a link has not been read. -/
theorem readChain_short_iff : ∀ (n c offset size : ℕ) (d : Disk) (buf : Mem), size ≤ offset + n →
    ((∀ r, (L.readChain err n c offset size d buf).1 = some r → r < size →
        ended ((L.fatEntry d.bytes)^[(r - offset) / L.clusterBytes] c)) ↔
      L.LinksRead err d.bytes d.accesses c (size - offset)) := by
  intro n
  induction n with
  | zero =>
    intro c offset size d buf hn
    have h0 : size - offset = 0 := by omega
    rw [readChain, h0]
    refine ⟨fun _ i hi => absurd hi (not_lt_zero _), fun _ r hr hlt => ?_⟩
    cases hr
    omega
  | succ n ih =>
    intro c offset size d buf hn
    have hcb := L.clusterBytes_pos
    rw [readChain]
    split
    · next hstop =>
      constructor
      · intro _ i hi hj
        rcases hstop with hc | hs
        · exact absurd hc (hj 0 (zero_le _))
        · omega
      · intro _ r hr hlt
        cases hr
        rw [Nat.sub_self, Nat.zero_div]
        exact hstop.resolve_right (by omega)
    next hgo =>
    push Not at hgo
    obtain ⟨hc, hlt⟩ := hgo
    dsimp only
    obtain ⟨hb, hok, ht⟩ := readCluster_disk err (L.clusterToSector c) offset
      (min (size - offset) L.clusterBytes) d buf
    generalize readCluster err (L.clusterToSector c) offset
      (min (size - offset) L.clusterBytes) d buf = r at hb hok ht
    obtain ⟨ok, d', buf'⟩ := r
    by_cases hlast : size - offset ≤ L.clusterBytes
    · -- the last cluster that is read: no link is needed behind it
      refine ⟨fun _ i hi => ?_, fun _ r hr hrs => ?_⟩
      · have : L.clusterBytes ≤ (i + 1) * L.clusterBytes := Nat.le_mul_of_pos_left _ (Nat.succ_pos i)
        omega
      exfalso
      revert hr
      cases ok with
      | false => exact fun hr => absurd hr (by simp)
      | true =>
        rw [Nat.min_eq_left hlast, Nat.add_sub_cancel' hlt.le]
        dsimp only
        rw [readChain_of_stop (.inr le_rfl)]
        intro hr
        cases hr
        omega
    rw [Nat.min_eq_right (Nat.le_of_not_le hlast), sectorsFor_clusterBytes] at hok ht
    rw [Nat.min_eq_right (Nat.le_of_not_le hlast)]
    have hsz : L.clusterBytes < size - offset := by omega
    cases ok with
    | false =>
      -- a data sector has not been read
      refine ⟨fun _ i _ _ _ => ?_, fun _ r hr => absurd hr (by simp)⟩
      have hfail : ¬ ∀ j < L.geo.sectorsPerCluster, err (d.accesses + j) = false :=
        fun h => false_ne_true (hok.mpr h)
      push Not at hfail
      obtain ⟨j, hj, hej⟩ := hfail
      refine ⟨j, ?_, ?_, by simpa using hej⟩
      · rw [linkRead]
        omega
      · rw [mod_eq_of_lt (by omega)]
        omega
    | true =>
      have hd : d' = d.tick L.geo.sectorsPerCluster := ht rfl
      have hdata := hok.mp rfl
      subst hd
      dsimp only
      cases he : err (d.tick L.geo.sectorsPerCluster).accesses with
      | true =>
        rw [fatReadEntry_of_err he, readChain_of_stop (.inl (.inl Nat.two_pos))]
        constructor
        · intro h i _ hj _
          have := h _ rfl (by omega)
          rw [Nat.add_sub_cancel_left, Nat.div_self hcb] at this
          exact absurd this (hj 1 (by omega))
        intro h r hr _
        cases hr
        rw [Nat.add_sub_cancel_left, Nat.div_self hcb]
        by_contra hne
        obtain ⟨j, hjlt, -, hej⟩ := h 0 (by omega)
          (fun j hj => by
            rcases le_one_iff_eq_zero_or_eq_one.mp hj with rfl | rfl
            · exact hc
            · exact hne)
          (by rw [linkRead, zero_mul, zero_add]; exact he)
        rw [linkRead, zero_mul, zero_add] at hjlt
        cases (hdata j hjlt).symm.trans hej
      | false =>
        rw [fatReadEntry_of_not_err he, linksRead_tail hsz hc hdata he]
        have hstep := ih (L.fatEntry d.bytes c) (offset + L.clusterBytes) size
          ((d.tick L.geo.sectorsPerCluster).tick 1) buf' (by omega)
        rw [Disk.tick_tick, ← Nat.sub_sub] at hstep
        refine Iff.trans (forall_congr' fun r => imp_congr_right fun hr => ?_) hstep
        rw [Disk.tick_tick] at hr
        have hge := readChain_ge _ _ _ _ _ _ r hr
        have hdiv : (r - offset) / L.clusterBytes =
            (r - (offset + L.clusterBytes)) / L.clusterBytes + 1 := by
          rw [show r - offset = r - (offset + L.clusterBytes) + L.clusterBytes by omega,
            add_div_right _ hcb]
        rw [hdiv, Function.iterate_succ_apply]
        rfl

/-- **A failed read is never taken for data** exactly if no read fails in the scan for a free
cluster before one has been met, and none fails for a link of the chain that is needed. -/
theorem failed_read_iff (d : Disk) (buf : Mem) (c size : ℕ) :
    L.FindsFree err d ∧ L.ReadsWhole err d buf c size ↔
      L.ScanRead err d.bytes d.accesses 2 L.geo.total ∧
        L.LinksRead err d.bytes d.accesses c size := by
  refine and_congr (findFreeFrom_iff L.geo.total 2 d) ?_
  exact readChain_short_iff size c 0 size d buf (by omega)

end FailedReads

/-- A table of one sector in front of four clusters of one sector. -/
def tiny : Layout := ⟨.tiny, 1, 2, by decide, by decide⟩

/-- A disk with a 1 in every byte: no cluster is free, and no chain ends. -/
def onesDisk : Disk := ⟨fun _ => 1, 0⟩

/-- The second read fails: `fat_find_free` answers 3 though the entry of 3 is not 0, and
`read_chain` reports 512 bytes of 1024 though the chain goes on. -/
theorem second_read_fails :
    ¬ tiny.FindsFree (· = 1) onesDisk ∧ ¬ tiny.ReadsWhole (· = 1) onesDisk (fun _ => 0) 2 1024 := by
  have hfree : (tiny.fatFindFree (· = 1) onesDisk).1 = some 3 := by decide +kernel
  have hread : (tiny.readChain (· = 1) 1024 2 0 1024 onesDisk fun _ => 0).1 = some 512 := by
    decide +kernel
  refine ⟨fun h => ?_, fun h => ?_⟩
  · exact absurd (h 3 hfree) (by decide +kernel)
  · exact absurd (h 512 hread (by decide)) (by decide +kernel)

end Layout

end TipOS.Fs
