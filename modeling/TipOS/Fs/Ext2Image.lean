import TipOS.Fs.Ext2

/-!
# Files of an ext2 image

The image as the format has it, apart from the driver: the superblock in block 1, the descriptors
of the groups, the tables of inodes, the records of directories and the tables of blocks.  A regular
file is found by its path through the records (`FileAt`), and its contents go by its tables
(`Inode.logical`).

`fs/ext2_new.zig` reads the same file and the same bytes (`read_through_cache`) if inodes have 128
bytes, which it takes for granted, and if no name on the path differs from another one in its
directory by case only.
-/

namespace TipOS.Fs

open Lib List Query Nat

variable {view : ℕ → Mem} {n dir : Inode} {name : List UInt8}

/-! ### The blocks of a file -/

/-- The block at the end of a path through tables of pointers. -/
def followPtrs (view : ℕ → Mem) : ℕ → List ℕ → Option ℕ
  | 0, _ => none
  | p + 1, [] => some (p + 1)
  | p + 1, i :: path => followPtrs view (pointerOf (view (p + 1)) i) path

/-- The blocks within the direct, single- and double-indirect range. -/
def doubleRange : ℕ := 12 + 256 + 65536

/-- The block of a file: 12 direct blocks, 256 through a table, 256 times 256 through a table of
tables, and then one level more. -/
def Inode.mapped (n : Inode) (view : ℕ → Mem) (logical : ℕ) : Option ℕ :=
  if logical < 12 then followPtrs view (n.block logical) []
  else if logical < 12 + 256 then followPtrs view (n.block 12) [logical - 12]
  else if logical < doubleRange then
    followPtrs view (n.block 13) [(logical - 268) / 256, (logical - 268) % 256]
  else
    let rem := logical - doubleRange
    followPtrs view (n.block 14) [rem / 65536, rem / 256 % 256, rem % 256]

/-- The byte of a file at `pos`, zero in a block that is not mapped. -/
def Inode.logicalByte (n : Inode) (view : ℕ → Mem) (pos : ℕ) : UInt8 :=
  match n.mapped view (pos / 1024) with
  | none => 0
  | some phys => view phys (pos % 1024)

/-- The contents of a file. -/
def Inode.logical (n : Inode) (view : ℕ → Mem) : List UInt8 :=
  (List.range n.size).map (n.logicalByte view)

theorem followPtrs_nil (p : ℕ) : followPtrs view p [] = orHole p := by
  cases p <;> rfl

theorem followPtrs_cons {p : ℕ} (h : p ≠ 0) (i : ℕ) (path : List ℕ) :
    followPtrs view p (i :: path) = followPtrs view (pointerOf (view p) i) path := by
  cases p with
  | zero => exact absurd rfl h
  | succ p => rfl

/-- **`bmapRead` follows the layout.** -/
theorem eval_bmapRead {logical : ℕ} (h : logical < doubleRange) :
    (bmapRead n logical).eval view = n.mapped view logical := by
  rw [bmapRead, Inode.mapped, ptrsPerBlock]
  by_cases h1 : logical < 12
  · rw [if_pos h1, if_pos h1, followPtrs_nil]
    rfl
  rw [if_neg h1, if_neg h1]
  by_cases h2 : logical < 12 + 256
  · rw [if_pos (by omega), if_pos h2]
    by_cases h0 : n.block 12 = 0
    · rw [if_pos h0, h0]
      rfl
    · rw [if_neg h0, followPtrs_cons h0, followPtrs_nil]
      rfl
  have hrem : logical - 12 - 256 = logical - 268 := by omega
  rw [if_neg (by omega), if_neg h2, hrem, if_pos (by rw [doubleRange] at h; omega), if_pos h]
  by_cases h0 : n.block 13 = 0
  · rw [if_pos h0, h0]
    rfl
  rw [if_neg h0, followPtrs_cons h0, eval_bind, eval_get]
  by_cases h3 : pointerOf (view (n.block 13)) ((logical - 268) / 256) = 0
  · rw [if_pos h3, h3]
    rfl
  · rw [if_neg h3, followPtrs_cons h3, followPtrs_nil]
    rfl

theorem contents_eq_logical (h : n.size ≤ doubleRange * 1024) :
    n.contents view = n.logical view := by
  refine map_congr_left fun pos hp => ?_
  have hlt := mem_range.mp hp
  have hblock : pos / 1024 < doubleRange := by omega
  exact congrArg (fun b : Option ℕ => match b with
    | none => 0
    | some phys => view phys (pos % 1024)) (eval_bmapRead hblock)

/-! ### Inodes -/

/-- The superblock as `mount` takes it. -/
def superblockOf (view : ℕ → Mem) : Superblock := ⟨(view 1).load 20 4, (view 1).load 40 4⟩

/-- The size of an inode: `inode_size`, and 128 in revision 0. -/
def inodeSizeOf (view : ℕ → Mem) : ℕ := if (view 1).load 76 4 = 0 then 128 else (view 1).load 88 2

/-- An inode of the image.  Descriptors have 32 bytes, with the inode table at 8. -/
def inodeOf (view : ℕ → Mem) (ino : ℕ) : Inode :=
  let s := superblockOf view
  let desc := (ino - 1) / s.inodesPerGroup * 32
  let table := (view (s.firstDataBlock + 1 + desc / 1024)).load (desc % 1024 + 8) 4
  let pos := (ino - 1) % s.inodesPerGroup * inodeSizeOf view
  inodeAt (view (table + pos / 1024)) (pos % 1024)

/-- **`readIno` reads inodes of 128 bytes.** -/
theorem eval_readIno (h : inodeSizeOf view = 128) (ino : ℕ) :
    (readIno (superblockOf view) ino).eval view = inodeOf view ino := by
  have hdesc : ∀ g : ℕ, g * 32 / 1024 = g / 32 ∧ g * 32 % 1024 = g % 32 * 32 := by
    intro g
    omega
  have hpos : ∀ i : ℕ, i * 128 / 1024 = i / 8 ∧ i * 128 % 1024 = i % 8 * 128 := by
    intro i
    omega
  rw [inodeOf, h, (hdesc _).1, (hdesc _).2, (hpos _).1, (hpos _).2]
  rfl

/-! ### Directories -/

/-- The records of a block of a directory from `d` on: inode and name. -/
def recordsFrom (blk : Mem) : ℕ → ℕ → List (ℕ × List UInt8)
  | 0, _ => []
  | n + 1, d =>
    let recLen := blk.load (d + 4) 2
    if d < 1024 ∧ 8 ≤ recLen ∧ d + recLen ≤ 1024 then
      (blk.load d 4, (List.range (blk (d + 6)).toNat).map fun i => blk (d + 8 + i)) ::
        recordsFrom blk n (d + recLen)
    else []

/-- The records in block `l` of a directory. -/
def Inode.recordsIn (dir : Inode) (view : ℕ → Mem) (l : ℕ) : List (ℕ × List UInt8) :=
  (dir.mapped view l).elim [] fun p => recordsFrom (view p) 1024 0

def Inode.records (dir : Inode) (view : ℕ → Mem) : List (ℕ × List UInt8) :=
  (List.range ((dir.size + 1023) / 1024)).flatMap (dir.recordsIn view)

/-- A record that `lookup` takes for the name. -/
def hasName (name : List UInt8) (r : ℕ × List UInt8) : Bool :=
  r.1 ≠ 0 ∧ r.2.map lower = name.map lower

/-- **A name in a directory**, of which no other one differs by case only. -/
structure Names (view : ℕ → Mem) (dir : Inode) (name : List UInt8) (ino : ℕ) : Prop where
  isDir : dir.isDir = true
  size : dir.size ≤ doubleRange * 1024
  mem : (ino, name) ∈ dir.records view
  used : ino ≠ 0
  only : ∀ r ∈ dir.records view, hasName name r = true → r.1 = ino

def Resolves (view : ℕ → Mem) : List (List UInt8) → ℕ → ℕ → Prop
  | [], a, b => a = b
  | name :: rest, a, b => ∃ i, Names view (inodeOf view a) name i ∧ Resolves view rest i b

/-- **The regular file at a path**: its inode. -/
def FileAt (view : ℕ → Mem) (path : List UInt8) (n : Inode) : Prop :=
  path.head? = some 47 ∧ ∃ ino, Resolves view (components path) 2 ino ∧ inodeOf view ino = n ∧
    n.isReg = true

theorem findIn_eq (blk : Mem) (h : name ≠ []) (fuel d : ℕ) :
    findIn blk name fuel d = ((recordsFrom blk fuel d).find? (hasName name)).map Prod.fst := by
  induction fuel generalizing d with
  | zero => rfl
  | succ fuel ih =>
    have hname : ((List.range (blk (d + 6)).toNat).map fun i => lower (blk (d + 8 + i))) =
        name.map lower → 0 < (blk (d + 6)).toNat := by
      intro he
      refine Nat.pos_of_ne_zero fun h0 => h (map_eq_nil_iff.mp (he.symm.trans ?_))
      rw [h0]
      rfl
    rw [findIn, recordsFrom, blockSize]
    dsimp only
    by_cases hd : d < 1024
    · rw [if_pos hd]
      by_cases hlen : blk.load (d + 4) 2 < 8 ∨ blk.load (d + 4) 2 > 1024 - d
      · rw [if_pos hlen, if_neg (by omega)]
        rfl
      have hfit : d < 1024 ∧ 8 ≤ blk.load (d + 4) 2 ∧ d + blk.load (d + 4) 2 ≤ 1024 := by omega
      rw [if_neg hlen, if_pos hfit, find?_cons, hasName, map_map]
      split
      · next ha => rw [decide_eq_true ⟨ha.1, ha.2.2⟩]; rfl
      · next ha =>
        rw [decide_eq_false fun hr => ha ⟨hr.1, hname hr.2, hr.2⟩]
        exact ih _
    · rw [if_neg hd, if_neg fun hc => hd hc.1]
      rfl

theorem eval_lookupFrom (h : name ≠ []) (k l : ℕ) (hl : l + k ≤ doubleRange) :
    (lookupFrom dir name k l).eval view =
      (((List.range' l k).flatMap (dir.recordsIn view)).find? (hasName name)).map Prod.fst := by
  induction k generalizing l with
  | zero => rfl
  | succ k ih =>
    rw [lookupFrom, eval_bind, eval_bmapRead (by omega), range'_succ, flatMap_cons, find?_append,
      Inode.recordsIn]
    cases dir.mapped view l with
    | none => exact ih (l + 1) (by omega)
    | some p =>
      rw [eval_bind, eval_get, findIn_eq _ h, Option.elim_some, blockSize]
      cases (recordsFrom (view p) 1024 0).find? (hasName name) with
      | none => exact ih (l + 1) (by omega)
      | some r => rfl

/-- **`lookup` finds the name.** -/
theorem eval_lookup (h128 : inodeSizeOf view = 128) {a ino : ℕ} (h : name ≠ [])
    (hn : Names view (inodeOf view a) name ino) :
    ((superblockOf view).lookup a name).eval view = some ino := by
  have hself : hasName name (ino, name) = true := decide_eq_true ⟨hn.used, rfl⟩
  have hsize := hn.size
  rw [Superblock.lookup, eval_bind, eval_readIno h128, if_neg (by rw [hn.isDir]; decide),
    eval_lookupFrom h _ _ (by rw [blockSize]; omega), ← range_eq_range']
  obtain ⟨r, hr⟩ := Option.isSome_iff_exists.mp (find?_isSome.mpr ⟨_, hn.mem, hself⟩)
  have hfound := hn.only r (mem_of_find?_eq_some hr) (find?_some hr)
  rw [← hfound]
  exact congrArg (Option.map Prod.fst) hr

theorem eval_resolveFrom (h128 : inodeSizeOf view = 128) {b : ℕ} (comps : List (List UInt8)) :
    ∀ a, (∀ c ∈ comps, c ≠ []) → Resolves view comps a b →
      (resolveFrom (superblockOf view) comps a).eval view = some b := by
  induction comps with
  | nil =>
    rintro a - rfl
    rfl
  | cons c rest ih =>
    rintro a hne ⟨i, hc, hrest⟩
    rw [resolveFrom, eval_bind, eval_lookup h128 (hne c (.head _)) hc]
    exact ih i (fun d hd => hne d (.tail _ hd)) hrest

/-- **The driver finds the file.** -/
theorem FileAt.found (h128 : inodeSizeOf view = 128) {path : List UInt8} (h : FileAt view path n) :
    ∃ ino, (resolve (superblockOf view) path).eval view = some ino ∧
      (readIno (superblockOf view) ino).eval view = n ∧ n.isReg = true := by
  obtain ⟨hroot, ino, hres, hn, hreg⟩ := h
  have hne : ∀ c ∈ components path, c ≠ [] := fun c hc => of_decide_eq_true (mem_filter.mp hc).2
  refine ⟨ino, ?_, (eval_readIno h128 ino).trans hn, hreg⟩
  rw [resolve, if_pos hroot]
  exact eval_resolveFrom h128 _ _ hne hres

/-- An image with a file `/a` of five bytes. -/
def smallImage : ℕ → Mem := fun b i =>
  let bytes : List (ℕ × UInt8) := match b with
    | 1 => [(20, 1), (40, 8)]
    | 2 => [(8, 3)]
    | 3 => [(129, 0x40), (133, 4), (168, 4), (257, 0x80), (260, 5), (296, 5)]
    | 4 => [(0, 3), (5, 4), (6, 1), (8, 97)]
    | 5 => [(0, 104), (1, 105)]
    | _ => []
  (bytes.lookup i).getD 0

theorem smallImage_file : FileAt smallImage [47, 97] (inodeOf smallImage 3) := by
  refine ⟨rfl, 3, ⟨3, ⟨?_, ?_, ?_, ?_, ?_⟩, rfl⟩, rfl, ?_⟩ <;> decide +kernel

/-- The same file, with inodes of 256 bytes. -/
def wideImage : ℕ → Mem := fun b i =>
  let bytes : List (ℕ × UInt8) := match b with
    | 1 => [(20, 1), (40, 8), (76, 1), (89, 1)]
    | 2 => [(8, 3)]
    | 3 => [(257, 0x40), (261, 4), (296, 5), (513, 0x80), (516, 2), (552, 6)]
    | 5 => [(0, 3), (5, 4), (6, 1), (8, 97)]
    | 6 => [(0, 104), (1, 105)]
    | _ => []
  (bytes.lookup i).getD 0

end TipOS.Fs
