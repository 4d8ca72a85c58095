import TipOS.Lib.Bytes
import TipOS.Lib.Trail

/-!
# The FAT32 driver

`fs/fat32.c` over a disk without errors.  A volume is the allocation table and the bytes of the
clusters; a directory is a chain of clusters, read as records of 32 bytes (`Volume.slots`).

The functions that change a directory look for a name in different ways, and the differences are
kept here:

* `find_entry` goes by the long name as well as by the short one, and ends at the first record
  whose name begins with 0 (`findEntry`);
* `delete_entry_at` ends there too, and goes by the short name only (`deleteEntryAt`);
* `fat32_write_file` and `fat32_mkdir` look up the record to be changed once more by the short
  name, and do not end at such a record (`lookup`);
* `fat32_rename` and `fat32_rmdir` do not end there either, and pass over such records.
-/

namespace TipOS.Fs

open Lib

/-! ### Names -/

/-- A string of C, without its terminating zero. -/
abbrev CString := { l : List UInt8 // 0 ∉ l }

def upper (c : UInt8) : UInt8 := if 97 ≤ c ∧ c ≤ 122 then c - 32 else c

/-- The first `n` characters, filled up with spaces. -/
def padded (n : ℕ) (l : List UInt8) : List UInt8 := l.take n ++ List.replicate (n - l.length) 32

def dotName : List UInt8 := padded 11 [46]
def dotDotName : List UInt8 := padded 11 [46, 46]

/-- `name_to_83`. -/
def nameTo83 (name : List UInt8) : List UInt8 :=
  if name = [46] then dotName
  else if name = [46, 46] then dotDotName
  else
    padded 8 ((name.takeWhile (· ≠ 46)).map upper) ++
      padded 3 (((name.dropWhile (· ≠ 46)).drop 1).map upper)

/-! ### Volumes -/

/-- What the boot sector says, and `total_clusters` of `fat_find_free`. -/
structure Geometry where
  sectorsPerCluster : ℕ
  total : ℕ
  rootCluster : ℕ
  pos : 0 < sectorsPerCluster
  /-- The clusters have numbers of 28 bits that are no end markers. -/
  small : total + 2 ≤ 0x0FFFFFF8

/-- Four clusters of one sector, and the root directory in the first of them. -/
def Geometry.tiny : Geometry := ⟨1, 4, 2, by decide, by decide⟩

structure Volume where
  geo : Geometry
  /-- `current_dir_cluster`. -/
  cwd : ℕ
  /-- `fat_read_entry`: the low 28 bits. -/
  fat : ℕ → ℕ
  /-- The bytes of a cluster. -/
  data : ℕ → Mem

/-- A record of a directory: its cluster, and its number there. -/
abbrev Slot := ℕ × ℕ

def endMark (c : ℕ) : Prop := 0x0FFFFFF8 ≤ c
/-- Where the loops over a chain end. -/
def ended (c : ℕ) : Prop := c < 2 ∨ endMark c

instance : DecidablePred endMark := fun c => inferInstanceAs (Decidable (0x0FFFFFF8 ≤ c))
instance : DecidablePred ended := fun c => inferInstanceAs (Decidable (c < 2 ∨ endMark c))

namespace Volume

variable (v : Volume)

/-- The bytes of a cluster: `sectors_per_cluster * 512`. -/
def clusterBytes : ℕ := v.geo.sectorsPerCluster * 512

/-- The numbers from 2 on. -/
def bound : ℕ := v.geo.total + 2

def fatWriteEntry (c value : ℕ) : Volume :=
  { v with fat := Function.update v.fat c (value % 2 ^ 28) }

/-- `fat_find_free`; none for 0. -/
def fatFindFree : Option ℕ := ((List.range v.geo.total).map (· + 2)).find? fun c => v.fat c = 0

/-- The clusters that a loop over the chain of `c` comes to.  There are at most `total` of them,
unless the chain is a cycle. -/
def clusters (c : ℕ) : List ℕ := follow v.fat ended v.geo.total c

/-- The records of a directory, in the order in which they are read. -/
def slots (dir : ℕ) : List Slot :=
  (v.clusters dir).flatMap fun c => (List.range (16 * v.geo.sectorsPerCluster)).map (c, ·)

/-- A byte of a record. -/
def byte (s : Slot) (j : ℕ) : UInt8 := v.data s.1 (32 * s.2 + j)

def name (s : Slot) : List UInt8 := (List.range 11).map (v.byte s)
def attr (s : Slot) : UInt8 := v.byte s 11
/-- `first_cluster_of`. -/
def firstCluster (s : Slot) : ℕ :=
  (v.data s.1).load (32 * s.2 + 20) 2 * 2 ^ 16 + (v.data s.1).load (32 * s.2 + 26) 2
def size (s : Slot) : ℕ := (v.data s.1).load (32 * s.2 + 28) 4

/-- `attr & 0x10`. -/
def isDir (s : Slot) : Bool := (v.attr s).toNat / 16 % 2 = 1

/-- `name[0] == 0x00`. -/
def isEnd (s : Slot) : Bool := v.byte s 0 = 0
/-- `name[0] == 0xE5`. -/
def isFree (s : Slot) : Bool := v.byte s 0 = 0xE5
/-- `attr == 0x0F`: a piece of a long name. -/
def isLong (s : Slot) : Bool := v.attr s = 0x0F

/-! ### Searching a directory -/

/-- The long name read so far: `lfn`, `lfn_len` and `expect_seq`. -/
structure LongName where
  buf : ℕ → UInt8
  len : ℕ
  expect : ℕ

/-- `lofs`. -/
def longOffsets : List ℕ := [1, 3, 5, 7, 9, 14, 16, 18, 20, 22, 24, 28, 30]

/-- The characters of a piece, from `pos` on, up to 0x0000 or 0xFFFF. -/
def longChars (s : Slot) : List ℕ → ℕ → LongName → LongName
  | [], _, n => n
  | o :: l, pos, n =>
    let u := (v.byte s o).toNat + 256 * (v.byte s (o + 1)).toNat
    if u = 0 ∨ u = 0xFFFF then n
    else longChars s l (pos + 1)
      { n with buf := Function.update n.buf pos (v.byte s o), len := max n.len (pos + 1) }

/-- A piece of a long name. -/
def longPiece (s : Slot) (n : LongName) : LongName :=
  let seq := (v.byte s 0).toNat
  let n := if seq / 64 % 2 = 1 then { n with len := 0, expect := seq % 64 } else n
  if 1 ≤ n.expect ∧ seq % 64 = n.expect ∧ (n.expect - 1) * 13 + 13 < 264 then
    { v.longChars s longOffsets ((n.expect - 1) * 13) n with expect := n.expect - 1 }
  else { n with len := 0, expect := 0 }

/-- `lfn_match`. -/
def lfnMatch (n : LongName) (name : List UInt8) : Bool :=
  ((List.range n.len).map fun i => upper (n.buf i)) = name.map upper

/-- The loop of `find_entry` over the records. -/
def findFrom (name : List UInt8) : List Slot → LongName → Option Slot
  | [], _ => none
  | s :: l, n =>
    if v.isEnd s then none
    else if v.isFree s then findFrom name l { n with len := 0 }
    else if v.isLong s then findFrom name l (v.longPiece s n)
    else if 0 < n.len ∧ lfnMatch n name then some s
    else if v.name s = nameTo83 name then some s
    else findFrom name l { n with len := 0 }

/-- `find_entry`; `junk` is what is in the buffer for the long name at first. -/
def findEntry (junk : ℕ → UInt8) (dir : ℕ) (name : List UInt8) : Option Slot :=
  v.findFrom name (v.slots dir) ⟨junk, 0, 0⟩

/-- The first record of the current directory that is no piece of a long name, has this short name
and passes a test. -/
def lookup (p : Slot → Bool) (name : List UInt8) : Option Slot :=
  (v.slots v.cwd).find? fun s =>
    !v.isFree s && !v.isLong s && decide (v.name s = nameTo83 name) && p s

/-! ### Changing a record -/

def setData (c : ℕ) (m : Mem) : Volume := { v with data := Function.update v.data c m }

/-- Put bytes into a record, from byte `j` on. -/
def put (s : Slot) (j : ℕ) (l : List UInt8) : Volume :=
  v.setData s.1 ((v.data s.1).blit (32 * s.2 + j) l.length fun i => l.getD i 0)

/-- Put a number of `n` bytes into a record. -/
def putNum (s : Slot) (j n x : ℕ) : Volume :=
  v.setData s.1 ((v.data s.1).store (32 * s.2 + j) n x)

def setFirstCluster (s : Slot) (c : ℕ) : Volume :=
  (v.putNum s 26 2 (c % 2 ^ 16)).putNum s 20 2 (c / 2 ^ 16 % 2 ^ 16)

def setSize (s : Slot) (n : ℕ) : Volume := v.putNum s 28 4 n

/-- What `create_entry_at` writes. -/
def makeEntry (s : Slot) (name : List UInt8) (attr : UInt8) : Volume :=
  (((v.put s 0 (nameTo83 name)).put s 11 [attr]).setSize s 0).setFirstCluster s 0

/-- `name[0] = 0xE5`. -/
def markFree (s : Slot) : Volume := v.put s 0 [0xE5]

end Volume

/-! ### The calls -/

def fatErrNotfound : ℤ := -1
def fatErrExists : ℤ := -2
def fatErrNospace : ℤ := -4
def fatErrNotdir : ℤ := -5
def fatErrNotempty : ℤ := -6

/-- A number of 32 bits as an `int`. -/
def asInt (n : ℕ) : ℤ := if n < 2 ^ 31 then n else (n : ℤ) - 2 ^ 32

def createEntryAt (v : Volume) (name : List UInt8) (attr : UInt8) : ℤ × Volume :=
  match (v.slots v.cwd).find? fun s => v.isEnd s || v.isFree s with
  | none => (fatErrNospace, v)
  | some s => (0, v.makeEntry s name attr)

def fat32CreateFile (v : Volume) (name : List UInt8) : ℤ × Volume := createEntryAt v name 0x20

def deleteEntryAt (v : Volume) (name : List UInt8) : ℤ × Volume :=
  match ((v.slots v.cwd).takeWhile fun s => !v.isEnd s).find? fun s =>
    !v.isFree s && !v.isLong s && decide (v.name s = nameTo83 name) with
  | none => (-1, v)
  | some s => (0, v.markFree s)

def fat32DeleteFile (v : Volume) (name : List UInt8) : ℤ × Volume := deleteEntryAt v name

/-- The first bytes of a cluster. -/
def Volume.writeCluster (v : Volume) (c : ℕ) (l : List UInt8) : Volume :=
  v.setData c ((v.data c).blit 0 l.length fun i => l.getD i 0)

/-- `write_chain`, cluster by cluster; the bound on their number is that of the bytes. -/
def writeChain : ℕ → Volume → ℕ → List UInt8 → Bool × Volume
  | 0, v, _, buf => (buf.isEmpty, v)
  | n + 1, v, c, buf =>
    if buf.isEmpty then (true, v)
    else
      let w := v.writeCluster c (buf.take v.clusterBytes)
      let rest := buf.drop v.clusterBytes
      if rest.isEmpty then (true, w)
      else if w.fat c = 0 ∨ endMark (w.fat c) then
        match w.fatFindFree with
        | none => (false, w)
        | some free => writeChain n ((w.fatWriteEntry c free).fatWriteEntry free 0x0FFFFFFF) free rest
      else writeChain n w (w.fat c) rest

/-- The end of `fat32_write_file`: the record with the short name gets the size and the cluster. -/
def Volume.record (v : Volume) (name : List UInt8) (c size : ℕ) : Volume :=
  match v.lookup (fun _ => true) name with
  | none => v
  | some s => (v.setSize s size).setFirstCluster s c

/-- `fat32_write_file` of a file with the first cluster `c`. -/
def writeFrom (v : Volume) (c : ℕ) (name buf : List UInt8) : ℤ × Volume :=
  let r := writeChain buf.length v c buf
  if r.1 = false then (-1, r.2)
  else if asInt buf.length < 0 then (asInt buf.length, r.2)
  else (asInt buf.length, r.2.record name c buf.length)

def fat32WriteFile (junk : ℕ → UInt8) (v : Volume) (name buf : List UInt8) : ℤ × Volume :=
  match v.findEntry junk v.cwd name with
  | none => (-1, v)
  | some s =>
    if v.firstCluster s = 0 then
      match v.fatFindFree with
      | none => (-1, v)
      | some c => writeFrom (v.fatWriteEntry c 0x0FFFFFFF) c name buf
    else writeFrom v (v.firstCluster s) name buf

/-- The record of a directory, as `fat32_mkdir` makes it. -/
def dirRecord (name : List UInt8) (c : ℕ) : List UInt8 :=
  name ++ [0x10] ++ List.replicate 8 0 ++
    [UInt8.ofNat (c / 2 ^ 16), UInt8.ofNat (c / 2 ^ 24)] ++ List.replicate 4 0 ++
    [UInt8.ofNat c, UInt8.ofNat (c / 2 ^ 8)] ++ List.replicate 4 0

/-- `dirbuf`, which goes into the first sector of the cluster. -/
def dirSector (self parent : ℕ) : List UInt8 :=
  dirRecord dotName self ++ dirRecord dotDotName parent ++ List.replicate 448 0

def fat32Mkdir (junk : ℕ → UInt8) (v : Volume) (name : List UInt8) : ℤ × Volume :=
  match v.fatFindFree with
  | none => (fatErrNospace, v)
  | some c =>
    if (v.findEntry junk v.cwd name).isSome then (fatErrExists, v)
    else
      let r := createEntryAt v name 0x10
      if r.1 ≠ 0 then r
      else
        match r.2.lookup r.2.isDir name with
        | none => (-1, r.2)
        | some s =>
          (0, ((r.2.setFirstCluster s c).fatWriteEntry c 0x0FFFFFFF).writeCluster c
            (dirSector c v.cwd))

def fat32Rename (v : Volume) (oldname newname : List UInt8) : ℤ × Volume :=
  match v.lookup (fun s => !v.isEnd s) oldname with
  | none => (fatErrNotfound, v)
  | some s => (0, v.put s 0 (nameTo83 newname))

/-- The loop of `fat32_rmdir` that gives up the clusters of a chain. -/
def freeChain : ℕ → Volume → ℕ → Volume
  | 0, v, _ => v
  | n + 1, v, c =>
    if ended (v.fat c) then v.fatWriteEntry c 0
    else freeChain n (v.fatWriteEntry c 0) (v.fat c)

/-- The test for an empty directory, which looks at the records of the first sector. -/
def Volume.looksEmpty (v : Volume) (c : ℕ) : Bool :=
  (List.range 14).all fun i => v.isEnd (c, i + 2) || v.isFree (c, i + 2)

def fat32Rmdir (v : Volume) (name : List UInt8) : ℤ × Volume :=
  match v.lookup (fun s => !v.isEnd s) name with
  | none => (fatErrNotfound, v)
  | some s =>
    if v.isDir s = false then (fatErrNotdir, v)
    else if v.firstCluster s = 0 then (0, v.markFree s)
    else if v.looksEmpty (v.firstCluster s) = false then (fatErrNotempty, v)
    else (0, (freeChain (v.geo.total + 1) v (v.firstCluster s)).markFree s)

/-! ### Reading -/

/-- The first `n` bytes of a cluster. -/
def Volume.firstBytes (v : Volume) (c n : ℕ) : List UInt8 := (List.range n).map (v.data c)

theorem Volume.length_firstBytes (v : Volume) (c n : ℕ) : (v.firstBytes c n).length = n := by
  rw [firstBytes, List.length_map, List.length_range]

theorem Volume.firstBytes_take (v : Volume) (c n k : ℕ) :
    (v.firstBytes c n).take k = v.firstBytes c (min k n) := by
  rw [firstBytes, firstBytes, ← List.map_take, List.take_range]

/-- `read_chain`; the bound on the number of clusters is that of the bytes. -/
def readChain (v : Volume) : ℕ → ℕ → ℕ → List UInt8
  | 0, _, _ => []
  | n + 1, c, size =>
    if ended c ∨ size = 0 then []
    else v.firstBytes c (min size v.clusterBytes) ++
      readChain v n (v.fat c) (size - min size v.clusterBytes)

/-- `fat32_change_dir` in the directory `cwd`: the new directory. -/
def fat32ChangeDir (junk : ℕ → UInt8) (v : Volume) (cwd : ℕ) (name : List UInt8) : Option ℕ :=
  if name = [] ∨ name = [47] then some v.geo.rootCluster
  else
    let start := if name.head? = some 47 then (v.geo.rootCluster, name.drop 1) else (cwd, name)
    match v.findEntry junk start.1 start.2 with
    | none => none
    | some s =>
      if v.isDir s = false then none
      else if v.firstCluster s = 0 then some v.geo.rootCluster
      else some (v.firstCluster s)

/-- The loop of `fat32_walk` over the directories of a path. -/
def walkDirs (v : Volume) : (ℕ → ℕ → UInt8) → List (List UInt8) → ℕ → Option ℕ
  | _, [], cwd => some cwd
  | junk, w :: rest, cwd =>
    if w = [] ∨ w = [46] then walkDirs v (fun i => junk (i + 1)) rest cwd
    else
      match fat32ChangeDir (junk 0) v cwd w with
      | none => none
      | some cwd => walkDirs v (fun i => junk (i + 1)) rest cwd

/-- `fat32_walk`: the directory and the last name of a path. -/
def fat32Walk (junk : ℕ → ℕ → UInt8) (v : Volume) (path : List UInt8) : Option (ℕ × List UInt8) :=
  let tmp := path.take 511
  let start := if tmp.head? = some 47 then (v.geo.rootCluster, tmp.drop 1) else (v.cwd, tmp)
  let comps := start.2.splitOnP (· = 47)
  match walkDirs v junk comps.dropLast start.1 with
  | none => none
  | some cwd =>
    if comps.getLastD [] = [] then none else some (cwd, (comps.getLastD []).take 255)

/-- `fat32_read_file`; `junk` is for the walk, `junk'` for the last name.  The number it returns, which
is an `int`, is the number of these bytes for sizes below `2 ^ 31` (`Layout.fat32ReadFile` has it for
all sizes). -/
def fat32ReadFile (junk : ℕ → ℕ → UInt8) (junk' : ℕ → UInt8) (v : Volume) (name : List UInt8)
    (size : ℕ) : Option (List UInt8) :=
  match fat32Walk junk v name with
  | none => none
  | some (dir, base) =>
    match v.findEntry junk' dir base with
    | none => none
    | some s =>
      if v.firstCluster s = 0 then some []
      else some (readChain v (min size (v.size s)) (v.firstCluster s) (min size (v.size s)))

end TipOS.Fs
