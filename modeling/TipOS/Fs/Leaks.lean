import TipOS.Fs.Chains
import TipOS.Fs.Searches

/-!
# Clusters that are lost

`fat32_delete_file` marks a record as free and leaves its chain.  As `fat32_write_file` gives a
cluster to a file even for no bytes at all, creating, writing and deleting a file loses clusters
whenever there is a free one (`create_write_delete_iff`).

A write that runs out of free clusters has linked all of them by then, and leaves them so
(`full_volume_iff`).  `fat32_mkdir` looks for a cluster and for a record before it changes anything.
-/

namespace TipOS.Fs

open Lib Finset List

namespace Volume

variable {v w : Volume} {s : Slot} {c : ℕ} {l ext : List ℕ} {name buf : List UInt8}
  {junk : ℕ → UInt8}

/-! ### The first cluster of a file -/

theorem isChain_taken (h : v.fatFindFree = some c) :
    (v.fatWriteEntry c 0x0FFFFFFF).IsChain c [c] := by
  obtain ⟨-, hr⟩ := fatFindFree_some h
  refine ⟨⟨rfl, fun he => not_ended_of_range hr (.inr he), ?_⟩, fun x hx => ?_⟩
  · rw [fatWriteEntry_self (by decide)]
    exact show endMark 0x0FFFFFFF by decide
  · rw [List.mem_singleton.mp hx]
    exact hr

/-- What `write_chain` takes was free, and it gives nothing back. -/
theorem freeSet_writeChain (buf : List UInt8) (h : v.IsChain c (c :: l)) :
    (writeChain buf.length v c buf).2.freeSet ⊆ v.freeSet := by
  obtain ⟨ext, hr⟩ := writeChain_written (c := c) buf.length v c [] l buf h le_rfl
  rw [hr.grown.freeSet_eq h]
  exact sdiff_subset

theorem record_fat (v : Volume) (name : List UInt8) (c n : ℕ) :
    (v.record name c n).geo = v.geo ∧ (v.record name c n).fat = v.fat := by
  unfold record
  split <;> exact ⟨rfl, rfl⟩

theorem freeSet_writeFrom (v : Volume) (c : ℕ) (name buf : List UInt8) :
    (writeFrom v c name buf).2.freeSet = (writeChain buf.length v c buf).2.freeSet := by
  unfold writeFrom
  dsimp only
  split
  · rfl
  · split
    · rfl
    · exact freeSet_congr (record_fat _ name c buf.length).1 (record_fat _ name c buf.length).2

/-! ### Creating, writing and deleting -/

theorem freeSet_deleteFile (v : Volume) (name : List UInt8) :
    (fat32DeleteFile v name).2.freeSet = v.freeSet := by
  unfold fat32DeleteFile deleteEntryAt
  split <;> rfl

/-- A file that is created, written and deleted. -/
def createWriteDelete (junk : ℕ → UInt8) (v : Volume) (name buf : List UInt8) : Volume :=
  (fat32DeleteFile (fat32WriteFile junk (fat32CreateFile v name).2 name buf).2 name).2

/-- **The free clusters are what they were** exactly if there was no record for the file, or none
of the clusters was free. -/
theorem create_write_delete_iff (v : Volume) (name : CString) (buf : List UInt8)
    (junk : ℕ → UInt8) (hn : (nameTo83 name.val).headD 0 ≠ 0xE5)
    (hfresh : v.findEntry junk v.cwd name.val = none) :
    (createWriteDelete junk v name.val buf).freeSet = v.freeSet ↔
      (∀ s ∈ v.slots v.cwd, (v.isEnd s || v.isFree s) = false) ∨ v.freeSet = ∅ := by
  rw [createWriteDelete, freeSet_deleteFile, fat32CreateFile, createEntryAt]
  cases hs : (v.slots v.cwd).find? fun s => v.isEnd s || v.isFree s with
  | none =>
    rw [fat32WriteFile, hfresh]
    exact iff_of_true rfl (.inl fun s hm => Bool.eq_false_iff.mpr (find?_eq_none.mp hs s hm))
  | some s =>
    have hslot : ¬ ∀ s ∈ v.slots v.cwd, (v.isEnd s || v.isFree s) = false := by
      intro h
      have ht : (v.isEnd s || v.isFree s) = true := by simpa using find?_some hs
      exact Bool.false_ne_true ((h s (mem_of_find?_eq_some hs)).symm.trans ht)
    rw [or_iff_right hslot]
    have hfound : (v.makeEntry s name.val 0x20).findEntry junk
        (v.makeEntry s name.val 0x20).cwd name.val = some s :=
      findEntry_created hs hn (by decide) hfresh
    have hzero : (v.makeEntry s name.val 0x20).firstCluster s = 0 :=
      congrArg Entry.cluster (makeEntry_self v s name.val 0x20)
    rw [fat32WriteFile, hfound]
    dsimp only
    rw [if_pos hzero]
    cases hc : (v.makeEntry s name.val 0x20).fatFindFree with
    | none =>
      have hempty : v.freeSet = ∅ := fatFindFree_eq_none.mp hc
      exact iff_of_true rfl hempty
    | some c =>
      -- the cluster that the file got is free no more
      have hmem : c ∈ v.freeSet := mem_freeSet_of_find hc
      refine iff_of_false (fun h => ?_) (ne_empty_of_mem hmem)
      rw [freeSet_writeFrom] at h
      rw [← h] at hmem
      have hused := freeSet_writeChain buf (isChain_taken hc) hmem
      exact (isChain_taken hc).fat_ne_zero (.head _) (mem_freeSet.mp hused).2

/-- A volume on which every cluster is in use. -/
def crowded : Volume := { FatOp.blank with fat := fun _ => 0x0FFFFFFF }

theorem create_write_delete_iff_crowded :
    (createWriteDelete (fun _ => 0) crowded [65] [7]).freeSet = crowded.freeSet :=
  (create_write_delete_iff crowded (FatOp.letter 65 (by decide)) [7] (fun _ => 0) (by decide)
    (by decide +kernel)).mpr (.inr (by decide))

theorem deleted_file_keeps_cluster :
    FatOp.blank.findEntry (fun _ => 0) 2 [65] = none ∧ 3 ∈ FatOp.blank.freeSet ∧
      3 ∉ (createWriteDelete (fun _ => 0) FatOp.blank [65] [7]).freeSet := by
  decide +kernel

/-! ### A full volume -/

/-- A search for a free cluster has failed in `fat32_write_file`. -/
def Exhausted (junk : ℕ → UInt8) (v : Volume) (name buf : List UInt8) : Prop :=
  match v.findEntry junk v.cwd name with
  | none => False
  | some s =>
    if v.firstCluster s = 0 then
      match v.fatFindFree with
      | none => True
      | some c => (writeChain buf.length (v.fatWriteEntry c 0x0FFFFFFF) c buf).1 = false
    else (writeChain buf.length v (v.firstCluster s) buf).1 = false

/-- The table and the records of all directories are as they were. -/
structure Unharmed (v w : Volume) : Prop where
  fat : w.fat = v.fat
  records : ∀ d, v.Dir d → ∀ t ∈ v.slots d, w.data t.1 = v.data t.1

theorem Unharmed.refl (v : Volume) : Unharmed v v := ⟨rfl, fun _ _ _ _ => rfl⟩

theorem writeFile_exhausted (h : v.Consistent) (hf : v.findEntry junk v.cwd name = some s)
    (hs : s ∈ v.live v.cwd) (hd : v.isDir s = false) (hx : Exhausted junk v name buf) :
    (fat32WriteFile junk v name buf).2.geo = v.geo ∧
      (fat32WriteFile junk v name buf).2.freeSet = ∅ ∧
      (v.freeSet = ∅ → Unharmed v (fat32WriteFile junk v name buf).2) := by
  rw [Exhausted, hf] at hx
  rw [fat32WriteFile, hf]
  dsimp only at hx ⊢
  split at hx
  · next hz =>
    rw [if_pos hz]
    cases hc : v.fatFindFree with
    | none => exact ⟨rfl, fatFindFree_eq_none.mp hc, fun _ => .refl v⟩
    | some c =>
      rw [hc] at hx
      obtain ⟨ext, hr⟩ := writeChain_written (c := c) buf.length _ c [] [] buf (isChain_taken hc) le_rfl
      dsimp only at hx ⊢
      rw [writeFrom, if_pos hx]
      refine ⟨hr.grown.geo, (hr.full hx).1, fun hempty => ?_⟩
      exact absurd (mem_freeSet_of_find hc) (by rw [hempty]; exact notMem_empty c)
  next hz =>
  have ho := Owns.record h.cwd hs hz
  obtain ⟨l, hl⟩ := h.holds ho
  obtain ⟨ext, hr⟩ := writeChain_written buf.length v _ [] l buf hl.chain le_rfl
  rw [if_neg hz, writeFrom, if_pos hx]
  refine ⟨hr.grown.geo, (hr.full hx).1, fun hempty => ?_⟩
  have hext : ext = [] := eq_nil_iff_forall_not_mem.mpr fun y hy =>
    notMem_empty y (hempty ▸ hr.grown.mem_freeSet_of_ext hy)
  refine ⟨hr.grown.same hext, fun d hdir t ht => hr.data _ fun hm => ?_⟩
  -- a cluster of a directory is not one of the file
  obtain ⟨k, hk⟩ := h.chain_of_dir hdir
  have hw : Writing v s (v.firstCluster s) l := ⟨h, hl, fun c' ho' => ho'.unique ho, hs, hd⟩
  rw [hext, append_nil] at hm
  exact hw.not_dir hm hdir hk (hk.mem_of_slot ht)

theorem mkdir_nospace (h : (fat32Mkdir junk v name).1 = fatErrNospace) :
    (fat32Mkdir junk v name).2 = v := by
  revert h
  unfold fat32Mkdir
  split
  · exact fun _ => rfl
  split
  · exact fun _ => rfl
  dsimp only
  split
  · unfold createEntryAt
    split
    · exact fun _ => rfl
    · exact fun h => absurd h (show ¬ (0 : ℤ) = -4 by decide)
  · split
    · exact fun h => absurd h (show ¬ (-1 : ℤ) = -4 by decide)
    · exact fun h => absurd h (show ¬ (0 : ℤ) = -4 by decide)

/-- **A write or a `mkdir` that fails for want of room leaves the table and the directories**
exactly if no cluster was free when the write began. -/
theorem full_volume_iff (v : Volume) (junk : ℕ → UInt8) (name buf dir : List UInt8) (s : Slot)
    (h : v.Consistent) (hf : v.findEntry junk v.cwd name = some s) (hs : s ∈ v.live v.cwd)
    (hd : v.isDir s = false) (hx : Exhausted junk v name buf) :
    (Unharmed v (fat32WriteFile junk v name buf).2 ∧
      ((fat32Mkdir junk v dir).1 = fatErrNospace → Unharmed v (fat32Mkdir junk v dir).2)) ↔
      v.freeSet = ∅ := by
  obtain ⟨hgeo, hempty, hkeep⟩ := writeFile_exhausted h hf hs hd hx
  constructor
  · rintro ⟨hu, -⟩
    rwa [freeSet_congr hgeo hu.fat] at hempty
  · intro h0
    refine ⟨hkeep h0, fun hm => ?_⟩
    rw [mkdir_nospace hm]
    exact .refl v

/-- A volume with an empty file and no free cluster. -/
def crowdedFile : Volume := (fat32CreateFile crowded [65]).2

theorem crowded_consistent : crowded.Consistent := by
  refine consistent_of_empty ⟨⟨rfl, by decide, show endMark 0x0FFFFFFF by decide⟩,
    fun x hx => ?_⟩ (by decide) rfl
  rw [List.mem_singleton.mp hx]
  decide

theorem full_volume_iff_crowdedFile :
    Unharmed crowdedFile (fat32WriteFile (fun _ => 0) crowdedFile [65] [7]).2 := by
  have hcons : crowdedFile.Consistent :=
    crowded_consistent.createEntryAt (show List.Pairwise _ _ by decide +kernel) [65] 0x20
  have hf : crowdedFile.findEntry (fun _ => 0) 2 [65] = some (2, 0) := by decide +kernel
  have hx : Exhausted (fun _ => 0) crowdedFile [65] [7] := by
    have hz : crowdedFile.firstCluster (2, 0) = 0 := by decide +kernel
    have hn : crowdedFile.fatFindFree = none := by decide +kernel
    rw [Exhausted, show crowdedFile.cwd = 2 from rfl, hf]
    dsimp only
    rw [if_pos hz, hn]
    trivial
  exact ((full_volume_iff crowdedFile (fun _ => 0) [65] [7] [66] (2, 0) hcons hf (by decide +kernel)
    (by decide +kernel) hx).mpr (by decide)).1

/-- Three clusters are too few for 1537 bytes, and are in use afterwards. -/
theorem failed_write_keeps_clusters : roomForThree.Consistent ∧
    (fat32WriteFile (fun _ => 0) roomForThree [65] (List.replicate 1537 7)).1 = -1 ∧
    ¬ Unharmed roomForThree
      (fat32WriteFile (fun _ => 0) roomForThree [65] (List.replicate 1537 7)).2 := by
  refine ⟨FatOp.blank_consistent.createEntryAt (show List.Pairwise _ _ by decide +kernel) [65] 0x20,
    by decide +kernel, fun h => ?_⟩
  have h3 := congrFun h.fat 3
  exact absurd h3 (by decide +kernel)

end Volume

end TipOS.Fs
