import TipOS.Fs.Consistent
import TipOS.Fs.Ext2Image
import TipOS.Ipc.Descriptors

/-!
# Reading a file through a descriptor

`vfs_read_at` goes to the file system that is mounted: `ext2new_read_at` is given the position, and
`fat32_read_file` is not.  `SYS_read` keeps the position in the record of the descriptor.

The reads of one descriptor are to return consecutive pieces of the file, and nothing once all of
it has been read (`Streams`).  On ext2 they do (`Mount.File.readAll_ext2`), for files that the
driver finds and maps as the format has it; on FAT32 every read begins at the beginning, so they do
for empty files only.
-/

namespace TipOS.Fs

open Lib Ipc Process List

/-! ### The file system that is mounted -/

/-- `g_vfs_backend`, with what the driver works on. -/
inductive Mount
  | ext2 (sb : Superblock) (blocks : BlockCache)
  | fat32 (v : Volume)

def Mount.isExt2 : Mount → Bool
  | .ext2 _ _ => true
  | .fat32 _ => false

/-- What is in the buffers for long names at first, during one call. -/
structure Junk where
  walk : ℕ → ℕ → UInt8
  last : ℕ → UInt8

def vfsReadAt (j : Junk) (m : Mount) (path : List UInt8) (count offset : ℕ) :
    Option (List UInt8) × Mount :=
  match m with
  | .ext2 sb b =>
    let r := (readFileAt sb path count offset).run BlockCache.cacheGet b
    (r.1, .ext2 sb r.2)
  | .fat32 v => (fat32ReadFile j.walk j.last v path count, m)

/-- **A regular file and its contents**, on ext2 as the format has them, with inodes of 128 bytes
and at most the double-indirect range. -/
def Mount.File (m : Mount) (path f : List UInt8) : Prop :=
  match m with
  | .ext2 sb b => b.Coherent ∧ sb = superblockOf b.view ∧ inodeSizeOf b.view = 128 ∧
      ∃ n, FileAt b.view path n ∧ n.size ≤ doubleRange * 1024 ∧ f = n.logical b.view
  | .fat32 v => ∃ dir base s, (∀ j, fat32Walk j v path = some (dir, base)) ∧
      (∀ j, v.findEntry j dir base = some s) ∧ v.isDir s = false ∧
      (v.firstCluster s = 0 ∧ f = [] ∨ v.firstCluster s ≠ 0 ∧
        ∃ l, v.IsChain (v.firstCluster s) (v.firstCluster s :: l) ∧
          f = ((v.firstCluster s :: l).flatMap fun c => v.firstBytes c v.clusterBytes).take (v.size s))

/-! ### `read_chain` -/

/-- **`read_chain`** returns the first bytes of the chain. -/
theorem readChain_eq {v : Volume} : ∀ (l : List ℕ) (c n k : ℕ), v.IsChain c l → k ≤ n →
    readChain v n c k = (l.flatMap fun c => v.firstBytes c v.clusterBytes).take k := by
  intro l
  induction l with
  | nil =>
    intro c n k h hk
    rw [flatMap_nil, take_nil]
    cases n with
    | zero => rfl
    | succ n => exact if_pos (.inl (.inr h.trail))
  | cons a t ih =>
    intro c n k h hk
    obtain ⟨rfl, -, ht⟩ := h.trail
    have hb : 0 < v.clusterBytes := Nat.mul_pos v.geo.pos (by decide)
    cases n with
    | zero =>
      rw [Nat.le_zero.mp hk]
      rfl
    | succ n =>
      rw [readChain]
      split
      · next hz =>
        have hne := Volume.not_ended_of_range (h.range c (.head _))
        rw [hz.resolve_left hne, take_zero]
      next hz =>
      have hk0 : k ≠ 0 := fun e => hz (.inr e)
      have hrest : v.IsChain (v.fat c) t :=
        ⟨ht, fun x hx => h.range x (mem_cons_of_mem c hx)⟩
      rw [flatMap_cons, take_append, v.firstBytes_take, v.length_firstBytes,
        ih (v.fat c) n _ hrest (by omega)]
      congr 2
      omega

/-! ### One read -/

section

variable {m : Mount} {path f : List UInt8}

theorem Mount.File.fat32_read {v : Volume} (h : (Mount.fat32 v).File path f) (j : Junk)
    (count offset : ℕ) :
    vfsReadAt j (.fat32 v) path count offset = (some (f.take count), .fat32 v) := by
  obtain ⟨dir, base, s, hwalk, hfind, -, hf⟩ := h
  rw [vfsReadAt, fat32ReadFile, hwalk]
  dsimp only
  rw [hfind]
  dsimp only
  rcases hf with ⟨h0, rfl⟩ | ⟨h0, l, hl, rfl⟩
  · rw [if_pos h0, take_nil]
  · rw [if_neg h0, readChain_eq _ _ _ _ hl le_rfl, take_take]

/-- What is in the cache does not matter. -/
theorem Mount.File.of_view {sb : Superblock} {b b' : BlockCache} (h : (Mount.ext2 sb b).File path f)
    (hc : b'.Coherent) (hv : b'.view = b.view) : (Mount.ext2 sb b').File path f :=
  ⟨hc, by rw [hv]; exact h.2⟩

theorem Mount.File.ext2_read {sb : Superblock} {b : BlockCache} (h : (Mount.ext2 sb b).File path f)
    (j : Junk) (count offset : ℕ) : ∃ b', vfsReadAt j (.ext2 sb b) path count offset =
      (some ((f.drop offset).take count), .ext2 sb b') ∧ (Mount.ext2 sb b').File path f := by
  have hfile := h
  obtain ⟨hco, rfl, h128, n, hf, hsize, rfl⟩ := h
  obtain ⟨h1, h2, h3⟩ :=
    BlockCache.cacheGet_faithful.run (readFileAt (superblockOf b.view) path count offset) hco
  obtain ⟨ino, hr, rfl, hreg⟩ := hf.found h128
  rw [eval_readFileAt hr hreg, contents_eq_logical hsize] at h1
  exact ⟨_, by rw [vfsReadAt, h1], hfile.of_view h2 h3⟩

theorem Mount.File.length_lt (h : m.File path f) : f.length < 2 ^ 32 := by
  cases m with
  | ext2 sb b =>
    obtain ⟨-, -, -, n, -, hsize, rfl⟩ := h
    rw [doubleRange] at hsize
    rw [Inode.logical, length_map, length_range]
    omega
  | fat32 v =>
    obtain ⟨dir, base, s, -, -, -, hf⟩ := h
    have hs : v.size s < 2 ^ 32 := Mem.load_lt _ 4 _
    rcases hf with ⟨-, rfl⟩ | ⟨-, l, -, rfl⟩
    · exact Nat.pow_pos (by decide)
    · rw [length_take]
      omega

end

/-- The record of a file: none of the types that `SYS_read` has a branch for. -/
def IsFile (e : FdEnt) : Prop :=
  e.type ≠ typeEvent ∧ e.type ≠ typeTimer ∧ e.type ≠ typePipe ∧ e.type ≠ typeSock ∧
    e.type ≠ fdFb ∧ e.type ≠ fdTty ∧ e.type ≠ fdMice

instance (e : FdEnt) : Decidable (IsFile e) := inferInstanceAs (Decidable (_ ∧ _))

/-- Descriptor `i` is open for the file `path`. -/
structure OpenFile (x : Fds) (i : Fin maxFds) (path : List UInt8) : Prop where
  ge : 3 ≤ i.val
  used : (x.table i).used = true
  file : IsFile (x.table i)
  name : (x.table i).rest.name = path

/-- What the file system answers to a read. -/
def fileAnswer (r : Option (List UInt8)) : Answers :=
  { ext2 := false, size := none, creates := false, writes := false, rewrites := false, file := r
    device := .waits }

/-- `SYS_read` of a file. -/
def readFd (j : Junk) (m : Mount) (x : Fds) (i : Fin maxFds) (count : ℕ) :
    ReadResult × Mount × Fds :=
  let e := x.table i
  let r := vfsReadAt j m e.rest.name count e.rest.pos
  let y := sysRead (fileAnswer r.1) (fun _ => false) x i.val count
  (y.1, r.2, y.2)

/-- Reads of one descriptor, one after the other: the sizes are those of an `int`. -/
def readAll (i : Fin maxFds) : List (Junk × Fin (2 ^ 31)) → Mount → Fds → List ReadResult
  | [], _, _ => []
  | (j, count) :: calls, m, x =>
    let r := readFd j m x i count.val
    r.1 :: readAll i calls r.2.1 r.2.2

section

variable {x : Fds} {i : Fin maxFds} {path f : List UInt8} {m : Mount}

theorem sysRead_file (h : OpenFile x i path) (a : Answers) (alive : ℤ → Bool) (count : ℤ)
    {bytes : List UInt8} (ha : a.file = some bytes) :
    sysRead a alive x i.val count = (.done bytes.length bytes,
      x.setPos i (posOf ((x.table i).rest.pos + bytes.length))) := by
  obtain ⟨h1, h2, h3, h4, h5, h6, h7⟩ := h.file
  have hi0 : ¬ (i.val = 0 ∧ 0 < count) := fun hi => by have := h.ge; omega
  rw [sysRead, fdIdx_coe]
  dsimp only
  rw [if_neg fun hp => h3 hp.2, if_neg hi0, if_pos ⟨h.ge, h.used⟩, readOther]
  rw [if_neg (not_or.mpr ⟨h6, h7⟩), if_neg h5, if_neg h1, if_neg h2, if_neg h4, ha]

theorem OpenFile.setPos (h : OpenFile x i path) (pos : ℕ) : OpenFile (x.setPos i pos) i path := by
  have he : (x.setPos i pos).table i =
      { x.table i with rest := { (x.table i).rest with pos := pos } } := Function.update_self _ _ _
  refine ⟨h.ge, ?_, ?_, ?_⟩
  · rw [he]
    exact h.used
  · rw [IsFile, he]
    exact h.file
  · rw [he]
    exact h.name

theorem setPos_pos (x : Fds) (i : Fin maxFds) (pos : ℕ) :
    ((x.setPos i pos).table i).rest.pos = pos := by
  rw [Fds.setPos, Fds.set_table, Function.update_self]

end

/-! ### A sequence of reads -/

/-- **The reads of a file as a stream**: each returns the number of its bytes, together they are a
beginning of the file, and once all of the file was read they return 0. -/
structure Streams (f : List UInt8) (rs : List ReadResult) : Prop where
  counts : ∀ r ∈ rs, r = .done r.bytes.length r.bytes
  initial : (rs.map ReadResult.bytes).flatten <+: f
  ends : ∀ k, ((rs.take k).map ReadResult.bytes).flatten.length = f.length →
    ∀ r ∈ rs.drop k, r = .done 0 []

/-- A file cut into pieces. -/
def pieces : List UInt8 → List ℕ → List (List UInt8)
  | _, [] => []
  | f, n :: ns => f.take n :: pieces (f.drop n) ns

/-- The answer that is a piece. -/
def answer (b : List UInt8) : ReadResult := .done b.length b

theorem pieces_nil (ns : List ℕ) : ∀ b ∈ pieces [] ns, b = [] := by
  induction ns with
  | nil => exact fun b hb => absurd hb not_mem_nil
  | cons n ns ih =>
    rw [pieces, take_nil, drop_nil]
    exact forall_mem_cons.mpr ⟨rfl, ih⟩

theorem pieces_flatten (f : List UInt8) (ns : List ℕ) : (pieces f ns).flatten <+: f := by
  induction ns generalizing f with
  | nil => exact nil_prefix
  | cons n ns ih =>
    have hpre := (prefix_append_right_inj (f.take n)).mpr (ih (f.drop n))
    rwa [take_append_drop] at hpre

theorem pieces_ends (f : List UInt8) (ns : List ℕ) (k : ℕ)
    (h : ((pieces f ns).take k).flatten.length = f.length) : ∀ b ∈ (pieces f ns).drop k, b = [] := by
  induction ns generalizing f k with
  | nil => exact fun b hb => absurd (mem_of_mem_drop hb) not_mem_nil
  | cons n ns ih =>
    cases k with
    | zero =>
      rw [eq_nil_of_length_eq_zero (l := f) h.symm]
      exact pieces_nil (n :: ns)
    | succ k =>
      refine ih (f.drop n) k ?_
      have hlen : (f.take n).length + ((pieces (f.drop n) ns).take k).flatten.length = f.length := by
        rw [← h, pieces, take_succ_cons, flatten_cons, length_append]
      rw [length_take] at hlen
      rw [length_drop]
      omega

theorem streams_pieces (f : List UInt8) (ns : List ℕ) : Streams f ((pieces f ns).map answer) := by
  have hbytes : ∀ l : List (List UInt8), (l.map answer).map ReadResult.bytes = l := by
    intro l
    rw [map_map]
    exact map_id'' (fun _ => rfl) l
  refine ⟨fun r hr => ?_, ?_, fun k hk r hr => ?_⟩
  · obtain ⟨b, -, rfl⟩ := mem_map.mp hr
    rfl
  · rw [hbytes]
    exact pieces_flatten f ns
  · rw [← map_take, hbytes] at hk
    rw [← map_drop] at hr
    obtain ⟨b, hb, rfl⟩ := mem_map.mp hr
    rw [pieces_ends f ns k hk b hb]
    rfl

section

variable {x : Fds} {i : Fin maxFds} {path f : List UInt8} {m : Mount}

/-- **On ext2** the reads return consecutive pieces, from the position on. -/
theorem Mount.File.readAll_ext2 (calls : List (Junk × Fin (2 ^ 31))) :
    ∀ (sb : Superblock) (b : BlockCache) (x : Fds), (Mount.ext2 sb b).File path f →
      OpenFile x i path → (x.table i).rest.pos ≤ f.length →
      readAll i calls (.ext2 sb b) x =
        (pieces (f.drop (x.table i).rest.pos) (calls.map fun c => c.2.val)).map answer := by
  induction calls with
  | nil => exact fun _ _ _ _ _ _ => rfl
  | cons c calls ih =>
    intro sb b x hf ho hp
    obtain ⟨j, count⟩ := c
    set p := (x.table i).rest.pos
    obtain ⟨b', hr, hf'⟩ := hf.ext2_read j count.val p
    have hlen := hf.length_lt
    have hread := sysRead_file ho (fileAnswer (some ((f.drop p).take count.val))) (fun _ => false)
      (count.val : ℤ) rfl
    generalize hg : (f.drop p).take count.val = g at *
    have hgl : p + g.length ≤ f.length := by
      rw [← hg, length_take, length_drop]
      omega
    have hpos : posOf (p + g.length) = p + g.length := by
      rw [posOf]
      omega
    rw [hpos] at hread
    have hfd : readFd j (.ext2 sb b) x i count.val = (answer g, .ext2 sb b', x.setPos i (p + g.length)) := by
      rw [readFd, ho.name, hr, hread]
      rfl
    have hdrop : f.drop (p + g.length) = (f.drop p).drop count.val := by
      rw [drop_drop, ← hg, length_take, length_drop]
      rcases Nat.le_total count.val (f.length - p) with hc | hc
      · rw [Nat.min_eq_left hc]
      · rw [Nat.min_eq_right hc, drop_eq_nil_of_le (by omega), drop_eq_nil_of_le (by omega)]
    rw [readAll, hfd]
    rw [ih sb b' _ hf' (ho.setPos _) (by rw [setPos_pos]; exact hgl), setPos_pos, hdrop, map_cons,
      pieces, map_cons, hg]

theorem Mount.File.readAll_fat32 (calls : List (Junk × Fin (2 ^ 31))) :
    ∀ (v : Volume) (x : Fds), (Mount.fat32 v).File path f → OpenFile x i path →
      readAll i calls (.fat32 v) x = calls.map fun c => answer (f.take c.2.val) := by
  induction calls with
  | nil => exact fun _ _ _ _ => rfl
  | cons c calls ih =>
    intro v x hf ho
    obtain ⟨j, count⟩ := c
    have hr := hf.fat32_read j count.val (x.table i).rest.pos
    have hread := sysRead_file ho (fileAnswer (some (f.take count.val))) (fun _ => false)
      (count.val : ℤ) rfl
    have hfd : readFd j (.fat32 v) x i count.val = (answer (f.take count.val), .fat32 v,
        x.setPos i (posOf ((x.table i).rest.pos + (f.take count.val).length))) := by
      rw [readFd, ho.name, hr, hread]
      rfl
    rw [readAll, hfd]
    rw [ih v _ hf (ho.setPos _), map_cons]

/-- **When the reads of a file are a stream**, whatever their sizes: on ext2, and for empty
files. -/
theorem reads_stream_iff (m : Mount) (x : Fds) (i : Fin maxFds) (path f : List UInt8)
    (hf : m.File path f) (ho : OpenFile x i path) (hp : (x.table i).rest.pos = 0) :
    (∀ calls, Streams f (readAll i calls m x)) ↔ m.isExt2 = true ∨ f = [] := by
  cases m with
  | ext2 sb b =>
    refine ⟨fun _ => .inl rfl, fun _ calls => ?_⟩
    rw [hf.readAll_ext2 calls sb b x ho (by omega), hp, drop_zero]
    exact streams_pieces f _
  | fat32 v =>
    constructor
    · intro h
      refine .inr ?_
      by_contra hne
      -- one byte at a time, once more than there are bytes
      have hs := h (List.replicate (f.length + 1) (⟨fun _ _ => 0, fun _ => 0⟩, 1))
      have hinit := hs.initial
      rw [hf.readAll_fat32 _ v x ho, map_replicate, map_replicate] at hinit
      have hlen := hinit.length_le
      have hone : (answer (f.take ((1 : Fin (2 ^ 31)).val))).bytes.length = 1 := by
        have hpos := length_pos_of_ne_nil hne
        change (f.take 1).length = 1
        rw [length_take]
        omega
      rw [length_flatten, map_replicate, sum_replicate_nat, hone] at hlen
      simp at hlen
    rintro (h | rfl) calls
    · exact absurd h (show ¬ false = true by decide)
    rw [hf.readAll_fat32 calls v x ho]
    refine ⟨fun r hr => ?_, ?_, fun k _ r hr => ?_⟩
    · obtain ⟨c, -, rfl⟩ := mem_map.mp hr
      rfl
    · have hnil : ∀ l ∈ (calls.map fun c => answer (([] : List UInt8).take c.2.val)).map
          ReadResult.bytes, l = [] := by
        intro l hl
        obtain ⟨r, hr, rfl⟩ := mem_map.mp hl
        obtain ⟨c, -, rfl⟩ := mem_map.mp hr
        exact take_nil
      rw [flatten_eq_nil_iff.mpr hnil]
    · obtain ⟨c, -, rfl⟩ := mem_map.mp (mem_of_mem_drop hr)
      rw [take_nil]
      rfl

end

/-- The record of the file `A`, with the first cluster 3 and the size 3. -/
def recordA : List UInt8 :=
  [65] ++ List.replicate 10 32 ++ [0x20] ++ List.replicate 14 0 ++ [3, 0, 3, 0, 0, 0]

/-- A volume with the file `A`, which has the bytes 5, 6 and 7. -/
def volumeA : Volume where
  geo := .tiny
  cwd := 2
  fat := fun c => if c = 2 ∨ c = 3 then 0x0FFFFFFF else 0
  data := fun c i =>
    if c = 2 then recordA.getD i 0
    else if c = 3 then ([5, 6, 7] : List UInt8).getD i 0
    else 0

/-- Descriptor 3 is open for the file `A`. -/
def fdsA : Fds :=
  ⟨fun i => ⟨decide (i.val = 3), 0, ⟨0, 0, 0, [65], 0, 0, 0⟩⟩,
    ⟨fun _ => ⟨false, fun _ => 0, 0, 0⟩, fun _ => ⟨false, -1, false, fun _ => 0, 0, 0⟩⟩⟩

theorem volumeA_file : (Mount.fat32 volumeA).File [65] [5, 6, 7] := by
  have hslots : volumeA.slots 2 = (2, 0) :: (List.range 15).map fun k => (2, k + 1) := by
    decide +kernel
  refine ⟨2, [65], (2, 0), fun j => rfl, fun j => ?_, by decide +kernel,
    .inr ⟨by decide +kernel, [], ⟨?_, ?_⟩, by decide +kernel⟩⟩
  · rw [Volume.findEntry, hslots, Volume.findFrom, if_neg (by decide +kernel),
      if_neg (by decide +kernel), if_neg (by decide +kernel), if_neg (fun h => absurd h.1 (by simp)),
      if_pos (by decide +kernel)]
  · have hc : volumeA.firstCluster (2, 0) = 3 := by decide +kernel
    rw [hc]
    exact ⟨rfl, by decide, show endMark 0x0FFFFFFF by decide⟩
  · have hc : volumeA.firstCluster (2, 0) = 3 := by decide +kernel
    intro y hy
    rw [mem_singleton.mp hy, hc]
    decide

/-- The image of `smallImage`, of which nothing has been read. -/
def smallMount : Mount :=
  .ext2 (superblockOf smallImage) (BlockCache.initial smallImage smallImage)

theorem smallMount_file : smallMount.File [47, 97] [104, 105, 0, 0, 0] := by
  obtain ⟨hc, hv⟩ := BlockCache.initial_coherent smallImage smallImage
  refine ⟨hc, by rw [hv], ?_, inodeOf smallImage 3, ?_⟩
  · rw [hv]
    decide +kernel
  · rw [hv]
    exact ⟨smallImage_file, by decide +kernel, by decide +kernel⟩

theorem fdsA_open : OpenFile fdsA 3 [65] := ⟨by decide, by decide, by decide, rfl⟩

theorem reads_stream_iff_volumeA : (fdsA.table 3).rest.pos = 0 ∧
    ((∀ calls, Streams [5, 6, 7] (readAll 3 calls (.fat32 volumeA) fdsA)) ↔
      (Mount.fat32 volumeA).isExt2 = true ∨ ([5, 6, 7] : List UInt8) = []) :=
  ⟨rfl, reads_stream_iff (.fat32 volumeA) fdsA 3 [65] [5, 6, 7] volumeA_file fdsA_open rfl⟩

/-- **A file that does not end**: after all of it has been read, it is read from the beginning. -/
theorem read_again_from_start : (Mount.fat32 volumeA).File [65] [5, 6, 7] ∧
    ¬ Streams [5, 6, 7] (readAll 3 [(⟨fun _ _ => 0, fun _ => 0⟩, 3), (⟨fun _ _ => 0, fun _ => 0⟩, 1)]
      (.fat32 volumeA) fdsA) := by
  refine ⟨volumeA_file, fun h => ?_⟩
  have hinit := h.initial
  rw [volumeA_file.readAll_fat32 _ volumeA fdsA fdsA_open] at hinit
  have hlen := hinit.length_le
  exact absurd hlen (by decide)

/-! ### Writing on ext2

`vfs_create_file` and `vfs_write_at` go to `fs/ext2.zig`, which has a mount of its own. -/

/-- The kernel with an ext2 volume; `mounted` and `old` are what `fs/ext2.zig` keeps. -/
structure Ext2Kernel (σ : Type) where
  sb : Superblock
  blocks : BlockCache
  mounted : Bool
  old : σ

section

variable {σ : Type}

/-- A call of `fs/ext2.zig`: its check, and then anything it does to the disk and its state. -/
def Ext2Kernel.call (k : Ext2Kernel σ) (body : (ℕ → Mem) × σ → ℤ × (ℕ → Mem) × σ) :
    ℤ × Ext2Kernel σ :=
  if k.mounted = false then (-1, k)
  else
    let r := body (k.blocks.disk, k.old)
    (r.1, { k with blocks := { k.blocks with disk := r.2.1 }, old := r.2.2 })

/-- The calls of the kernel.  `ext2_init`, which sets `mounted`, is not one: nothing calls it. -/
inductive Ext2Call (σ : Type)
  | readAt (path : List UInt8) (count offset : ℕ)
  | createFile (body : (ℕ → Mem) × σ → ℤ × (ℕ → Mem) × σ)
  | writeAt (body : (ℕ → Mem) × σ → ℤ × (ℕ → Mem) × σ)

def Ext2Call.run : Ext2Call σ → Ext2Kernel σ → ℤ × Ext2Kernel σ
  | .readAt path count offset, k =>
    let r := (readFileAt k.sb path count offset).run BlockCache.cacheGet k.blocks
    (r.1.elim (-1) fun bytes => bytes.length, { k with blocks := r.2 })
  | .createFile body, k => k.call body
  | .writeAt body, k => k.call body

theorem Ext2Call.run_unmounted {k : Ext2Kernel σ} (h : k.mounted = false) (c : Ext2Call σ) :
    (c.run k).2.mounted = false := by
  have hcall : ∀ body, k.call body = (-1, k) := fun body => if_pos h
  cases c with
  | readAt path count offset => exact h
  | createFile body =>
    rw [Ext2Call.run, hcall]
    exact h
  | writeAt body =>
    rw [Ext2Call.run, hcall]
    exact h

/-- **No file is created or written on ext2**, after any calls from the start on. -/
theorem ext2_writes_fail (sb : Superblock) (blocks : BlockCache) (old : σ)
    (calls : List (Ext2Call σ)) (body : (ℕ → Mem) × σ → ℤ × (ℕ → Mem) × σ) :
    ((Ext2Call.createFile body).run
        (calls.foldl (fun k c => (c.run k).2) ⟨sb, blocks, false, old⟩)).1 = -1 ∧
      ((Ext2Call.writeAt body).run
        (calls.foldl (fun k c => (c.run k).2) ⟨sb, blocks, false, old⟩)).1 = -1 := by
  have hrun : ∀ k : Ext2Kernel σ, k.mounted = false →
      (calls.foldl (fun k c => (c.run k).2) k).mounted = false := by
    induction calls with
    | nil => exact fun _ h => h
    | cons c calls ih => exact fun k h => ih _ (c.run_unmounted h)
  have hk := hrun ⟨sb, blocks, false, old⟩ rfl
  exact ⟨congrArg Prod.fst (if_pos hk), congrArg Prod.fst (if_pos hk)⟩

end

/-- A call that would succeed. -/
theorem ext2_create_fails : ((Ext2Call.createFile fun d => (0, d)).run
    ⟨⟨1, 8⟩, BlockCache.initial smallImage smallImage, false, ()⟩).1 = -1 := rfl

end TipOS.Fs
