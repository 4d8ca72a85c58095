import TipOS.Fs.Chains
import TipOS.Fs.Cwd
import TipOS.Fs.Sectors

/-!
# Reading a file of a disk without errors

`fat32_read_file` down to the sectors: whole sectors go into the buffer, and the remainder of the
last one through `tmp`.  What is read is the beginning of the clusters of the chain, one after the
other; but `read_chain` returns the number of its bytes as an `int`.
-/

namespace TipOS.Fs.Layout

open Lib Volume Nat Mem List

variable {L : Layout}

/-- `fat32_read_file`: what it returns, the current directory, the bytes of the disk and the buffer
afterwards. -/
def fat32ReadFile (L : Layout) (junk : ℕ → ℕ → UInt8) (junk' : ℕ → UInt8) (cwd : ℕ) (b : Mem)
    (path : List UInt8) (size : ℕ) (buf : Mem) : ℤ × ℕ × Mem × Mem :=
  let v := L.volume cwd b
  match findPath junk junk' v cwd path with
  | (none, cwd) => (-1, cwd, b, buf)
  | (some s, cwd) =>
    if v.firstCluster s = 0 then (0, cwd, b, buf)
    else
      let toRead := min size (v.size s)
      let r := L.readChain (fun _ => false) toRead (v.firstCluster s) 0 toRead ⟨b, 0⟩ buf
      (r.1.elim (-1) asInt, cwd, r.2.1.bytes, r.2.2)

theorem readSectors_quiet {n sector : ℕ} (h : sector + n ≤ 2 ^ 28) (pos : ℕ) (d : Disk)
    (buf : Mem) : readSectors (fun _ => false) n sector pos d buf =
      (true, d.tick n, buf.blit pos (512 * n) fun i => d.bytes (512 * sector + i)) := by
  induction n generalizing sector pos d buf with
  | zero => exact congrArg (_, _, ·) (blit_zero ..).symm
  | succ n ih =>
    rw [readSectors, Disk.ataReadSector, if_neg Bool.false_ne_true]
    dsimp only
    rw [ih (by omega), Disk.tick_tick, add_comm 1, mod_eq_of_lt (by omega),
      Nat.mul_add_one 512 n, Nat.add_comm (512 * n)]
    congr 2
    exact blit_blit (fun _ _ => rfl) fun i _ => congrArg d.bytes (by omega)

theorem readCluster_quiet {sector toRead : ℕ} (h : 512 * sector + toRead ≤ 512 * 2 ^ 28)
    (pos : ℕ) (d : Disk) (buf : Mem) : readCluster (fun _ => false) sector pos toRead d buf =
      (true, d.tick (sectorsFor toRead),
        buf.blit pos toRead fun i => d.bytes (512 * sector + i)) := by
  have hn := div_add_mod toRead 512
  rw [readCluster, readSectors_quiet (by omega), sectorsFor_eq]
  dsimp only
  split
  · next h0 => rw [h0, add_zero] at hn; rw [hn, add_zero]
  rw [Disk.ataReadSector, if_neg Bool.false_ne_true, Disk.tick_tick, mul_comm _ 512,
    mod_eq_of_lt (by omega)]
  dsimp only
  congr 2
  conv_rhs => rw [← hn]
  exact blit_blit (fun _ _ => rfl) fun i _ => congrArg d.bytes (by omega)

theorem clusterToSector_le {c : ℕ} (h : 2 ≤ c ∧ c < L.geo.total + 2) :
    L.clusterToSector c + L.geo.sectorsPerCluster ≤ 2 ^ 28 := by
  obtain ⟨k, rfl⟩ := Nat.exists_eq_add_of_le h.1
  have hk : (k + 1) * L.geo.sectorsPerCluster ≤ L.geo.total * L.geo.sectorsPerCluster :=
    mul_le_mul_right _ (by omega)
  have hfit := L.fits
  have hwrap : (2 + k + 2 ^ 32 - 2) * L.geo.sectorsPerCluster =
      k * L.geo.sectorsPerCluster + 2 ^ 32 * L.geo.sectorsPerCluster := by
    rw [← add_mul]
    congr 1
    omega
  rw [add_mul, one_mul] at hk
  rw [clusterToSector, hwrap, ← add_assoc, add_mul_mod_self_left,
    mod_eq_of_lt (by omega)]
  omega

theorem getD_bytesOf_cons (v : Volume) (x : ℕ) (t : List ℕ) (i : ℕ) :
    (v.bytesOf (x :: t)).getD i 0 =
      if i < v.clusterBytes then v.data x i else (v.bytesOf t).getD (i - v.clusterBytes) 0 := by
  have hlen : (v.firstBytes x v.clusterBytes).length = v.clusterBytes := by simp [firstBytes]
  rw [bytesOf_cons, getD_eq_getElem?_getD, getElem?_append, hlen]
  split
  · next h => simp [firstBytes, h]
  · rw [getD_eq_getElem?_getD]

/-- The clusters that a loop over the chain of `c` comes to are `l`, and they are on the disk. -/
def Reaches (v : Volume) (c : ℕ) (l : List ℕ) : Prop :=
  Trail v.fat ended c l ∧ ∀ x ∈ l, 2 ≤ x ∧ x < v.bound

/-- **The loop of `read_chain`**, when `len` bytes are left to read. -/
theorem readChain_quiet {cwd : ℕ} {b : Mem} {c : ℕ} {l : List ℕ} (hl : Reaches (L.volume cwd b) c l)
    {n len : ℕ} (hlen : len ≤ l.length * L.clusterBytes) (hn : len ≤ n) (offset a : ℕ)
    (buf : Mem) : ∃ a', L.readChain (fun _ => false) n c offset (offset + len) ⟨b, a⟩ buf =
      (some (offset + len), ⟨b, a'⟩,
        buf.blit offset len fun i => ((L.volume cwd b).bytesOf l).getD i 0) := by
  induction n generalizing c l len offset a buf with
  | zero =>
    obtain rfl := le_zero.mp hn
    exact ⟨a, congrArg (_, _, ·) (blit_zero ..).symm⟩
  | succ n ih =>
    rw [readChain]
    split
    · next hstop =>
      obtain rfl : len = 0 := by
        cases l with
        | nil => simpa using hlen
        | cons x t =>
          have := hstop.resolve_left (hl.1.1 ▸ hl.1.2.1)
          omega
      exact ⟨a, congrArg (_, _, ·) (blit_zero ..).symm⟩
    next hgo =>
    cases l with
    | nil => exact absurd (.inl hl.1) hgo
    | cons x t =>
      obtain ⟨⟨rfl, -, ht⟩, hr⟩ := hl
      have hsec := L.clusterToSector_le (hr c (.head _))
      have hcb : L.clusterBytes = L.geo.sectorsPerCluster * 512 := rfl
      have hpos := L.clusterBytes_pos
      have hlt : ¬ offset + len ≤ offset := fun h => hgo (.inr h)
      rw [length_cons, add_mul, one_mul] at hlen
      rw [Nat.add_sub_cancel_left]
      generalize hm : min len L.clusterBytes = m
      dsimp only
      rw [readCluster_quiet (by omega)]
      dsimp only
      rw [fatReadEntry_of_not_err rfl]
      obtain ⟨a', he⟩ := ih ⟨ht, fun y hy => hr y (mem_cons_of_mem c hy)⟩
        (show len - m ≤ _ by omega) (by omega) (offset + m) (a + sectorsFor m + 1)
        (buf.blit offset m fun i => b (512 * L.clusterToSector c + i))
      rw [show offset + m + (len - m) = offset + len by omega] at he
      refine ⟨a', he.trans ?_⟩
      congr 2
      conv_rhs => rw [show len = m + (len - m) by omega]
      refine blit_blit (fun i hi => ?_) fun i hi => ?_
      · rw [getD_bytesOf_cons]
        refine Eq.trans ?_ (if_pos (show i < L.clusterBytes by omega)).symm
        show _ = b (512 * (L.clusterToSector c % 2 ^ 28) + i)
        rw [mod_eq_of_lt (by omega)]
      · rw [getD_bytesOf_cons]
        refine Eq.trans ?_ (if_neg (show ¬ m + i < L.clusterBytes by omega)).symm
        exact congrArg (List.getD _ · 0) (show i = m + i - L.clusterBytes by omega)

/-- The buffer with the first `n` bytes of the clusters `l` in it. -/
def filled (v : Volume) (l : List ℕ) (n : ℕ) (buf : Mem) : Mem :=
  buf.blit 0 n fun i => (v.bytesOf l).getD i 0

section ReadFile

variable {junk : ℕ → ℕ → UInt8} {junk' : ℕ → UInt8} {cwd : ℕ} {b : Mem} {path : List UInt8}
  {s : Slot} {l : List ℕ} (size : ℕ) (buf : Mem)
  (hf : (findPath junk junk' (L.volume cwd b) cwd path).1 = some s)
  (hl : Reaches (L.volume cwd b) ((L.volume cwd b).firstCluster s) l)
  (hs : (L.volume cwd b).size s ≤ l.length * L.clusterBytes)

include hf hl hs

theorem fat32ReadFile_found : L.fat32ReadFile junk junk' cwd b path size buf =
    (asInt (min size ((L.volume cwd b).size s)), cwd, b,
      filled (L.volume cwd b) l (min size ((L.volume cwd b).size s)) buf) := by
  rw [fat32ReadFile]
  generalize hr : findPath junk junk' (L.volume cwd b) cwd path = r at hf
  obtain ⟨o, cwd'⟩ := r
  obtain rfl : cwd = cwd' := congrArg Prod.snd hr
  subst hf
  dsimp only
  split
  · next h0 =>
    cases l with
    | nil =>
      have hz : min size ((L.volume cwd b).size s) = 0 := by simpa using Or.inr hs
      rw [hz, filled, blit_zero]
      rfl
    | cons x t =>
      have := (hl.2 x (.head _)).1
      rw [← hl.1.1, h0] at this
      omega
  · obtain ⟨a', he⟩ := readChain_quiet hl ((min_le_right size _).trans hs) le_rfl 0 0 buf
    rw [zero_add] at he
    rw [he]
    rfl

/-- **`fat32_read_file` reads the beginning of the chain** of the file, and returns the number of
bytes exactly if it is an `int`. -/
theorem fat32_read_file_iff : L.fat32ReadFile junk junk' cwd b path size buf =
    (((min size ((L.volume cwd b).size s) : ℕ) : ℤ), cwd, b,
      filled (L.volume cwd b) l (min size ((L.volume cwd b).size s)) buf) ↔
    min size ((L.volume cwd b).size s) < 2 ^ 31 := by
  rw [fat32ReadFile_found size buf hf hl hs, Prod.mk.injEq, and_iff_left rfl]
  exact asInt_eq_iff

end ReadFile

/-! ### A file of two gigabytes -/

/-- Clusters of 64 kilobytes, behind a table of 399 sectors. -/
def wide : Layout := ⟨Volume.wide.geo, 1, 400, by decide, by decide⟩

/-- The entries of the table: the file has the clusters from 3 on. -/
def wideEntry (c : ℕ) : ℕ := if c = 2 ∨ c + 1 = 32771 then 0x0FFFFFFF else c + 1

/-- The table, and the record of `A` in the root directory. -/
def wideBytes : Mem := fun x =>
  if x < 204800 then UInt8.ofNat (wideEntry (x / 4 - 128) / 256 ^ (x % 4) % 256)
  else (padded 11 [65] ++ List.replicate 15 0 ++ [3, 0, 0, 0, 0, 0x80]).getD (x - 204800) 0

theorem fatEntry_wide {c : ℕ} (h : c < 32771) : wide.fatEntry wideBytes c = wideEntry c := by
  have hlt : wideEntry c < 2 ^ 28 := by
    rw [wideEntry]
    split <;> omega
  rw [fatEntry, load_eq_of_bytes 4 _ (wideEntry c) fun i hi => ?_]
  · omega
  have hx : 512 * (wide.fatSector c % 2 ^ 28) + (entOffset c + i) = 512 + 4 * c + i := by
    have : wide.fatSector c = 1 + c * 4 % 2 ^ 32 / 512 := rfl
    rw [this, entOffset]
    omega
  rw [hx, wideBytes, if_pos (by omega), show (512 + 4 * c + i) / 4 - 128 = c by omega,
    show (512 + 4 * c + i) % 4 = i by omega, UInt8.toNat_ofNat', mod_mod]

theorem wide_reaches : Reaches (wide.volume 2 wideBytes) 3 (List.range' 3 32768) := by
  have hchain : ∀ n c, 3 ≤ c → c + n = 32771 → Trail (wide.fatEntry wideBytes) ended
      (if c = 32771 then 0x0FFFFFFF else c) (List.range' c n) := by
    intro n
    induction n with
    | zero =>
      intro c _ hc
      rw [if_pos (show c = 32771 from hc)]
      exact .inr (show endMark 0x0FFFFFFF by decide)
    | succ n ih =>
      intro c h3 hc
      refine ⟨if_neg (by omega), ?_, ?_⟩
      · rintro (h | h)
        · omega
        · exact absurd (show 0x0FFFFFF8 ≤ c from h) (by omega)
      · have := ih (c + 1) (by omega) (by omega)
        rwa [fatEntry_wide (by omega), wideEntry,
          ite_cond_congr (propext (or_iff_right (by omega)))]
  refine ⟨hchain 32768 3 le_rfl rfl, fun x hx => ?_⟩
  have hb : (wide.volume 2 wideBytes).bound = 40002 := rfl
  have := mem_range'_1.mp hx
  omega

theorem wide_found :
    (findPath (fun _ _ => 0) (fun _ => 0) (wide.volume 2 wideBytes) 2 [65]).1 = some (2, 0) ∧
      (wide.volume 2 wideBytes).firstCluster (2, 0) = 3 ∧
      (wide.volume 2 wideBytes).size (2, 0) = 2 ^ 31 := by
  decide +kernel

/-- Two gigabytes are read, and the number returned is negative. -/
theorem fat32_read_file_negative :
    (findPath (fun _ _ => 0) (fun _ => 0) (wide.volume 2 wideBytes) 2 [65]).1 = some (2, 0) ∧
      Reaches (wide.volume 2 wideBytes) 3 (List.range' 3 32768) ∧
      (wide.volume 2 wideBytes).size (2, 0) = 32768 * wide.clusterBytes ∧
      (wide.fat32ReadFile (fun _ _ => 0) (fun _ => 0) 2 wideBytes [65] (2 ^ 31) fun _ => 0).1 =
        -2 ^ 31 := by
  obtain ⟨hf, hc, hs⟩ := wide_found
  refine ⟨hf, wide_reaches, hs, ?_⟩
  rw [fat32ReadFile_found _ _ hf (hc ▸ wide_reaches) (by rw [hs, length_range']; decide), hs]
  decide

theorem fat32_read_file_two :
    wide.fat32ReadFile (fun _ _ => 0) (fun _ => 0) 2 wideBytes [65] 2 (fun _ => 1) =
      (2, 2, wideBytes, filled (wide.volume 2 wideBytes) (List.range' 3 32768) 2 fun _ => 1) := by
  obtain ⟨hf, hc, hs⟩ := wide_found
  have h := (fat32_read_file_iff 2 (fun _ => 1) hf (hc ▸ wide_reaches)
    (by rw [hs, length_range']; decide)).mpr
  rw [hs] at h
  exact h (by decide)

end TipOS.Fs.Layout
