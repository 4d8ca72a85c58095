import TipOS.Fs.FatRuns

/-!
# The current directory of the FAT32 driver

`current_dir_cluster` is a global, and a path is followed by moving it from directory to
directory.  Here the calls that do so are written with the directory they leave behind, also
where they fail.  `fat32_walk` and `resolve_at_path` leave it wherever they were, and every call
above them puts it back; `fat32_change_dir` goes to the root before it looks for an absolute name,
and neither it nor `SYS_readdir` comes back from there.
-/

namespace TipOS.Fs

/-- `fat32_change_dir`: whether it returned 0, and the current directory afterwards. -/
def changeDir (junk : ℕ → UInt8) (v : Volume) (cwd : ℕ) (name : List UInt8) : Bool × ℕ :=
  match fat32ChangeDir junk v cwd name with
  | some dir => (true, dir)
  | none => (false, if name.head? = some 47 then v.geo.rootCluster else cwd)

/-- The loops of `fat32_walk` and `resolve_at_path` over the directories of a path. -/
def enterDirs (skip : List UInt8 → Bool) (v : Volume) :
    (ℕ → ℕ → UInt8) → List (List UInt8) → ℕ → Bool × ℕ
  | _, [], cwd => (true, cwd)
  | junk, w :: rest, cwd =>
    if skip w then enterDirs skip v (fun i => junk (i + 1)) rest cwd
    else if (changeDir (junk 0) v cwd w).1 then
      enterDirs skip v (fun i => junk (i + 1)) rest (changeDir (junk 0) v cwd w).2
    else changeDir (junk 0) v cwd w

/-- The last name of a path of at most `len` characters, and the current directory after the
directories before it. -/
def enterPath (skip : List UInt8 → Bool) (len maxlen : ℕ) (junk : ℕ → ℕ → UInt8) (v : Volume)
    (cwd : ℕ) (path : List UInt8) : Option (List UInt8) × ℕ :=
  let tmp := path.take len
  let start := if tmp.head? = some 47 then (v.geo.rootCluster, tmp.drop 1) else (cwd, tmp)
  let comps := start.2.splitOnP (· = 47)
  let r := enterDirs skip v junk comps.dropLast start.1
  (if r.1 = false ∨ comps.getLastD [] = [] then none
    else some ((comps.getLastD []).take (maxlen - 1)), r.2)

/-- `fat32_walk`. -/
def walkPath (junk : ℕ → ℕ → UInt8) (v : Volume) (cwd : ℕ) (path : List UInt8) :
    Option (List UInt8) × ℕ :=
  enterPath (fun w => decide (w = [] ∨ w = [46])) 511 256 junk v cwd path

def atFdcwd : ℤ := -100

/-- `resolve_at_path` of a path that `fixpath` has been applied to.  It does not pass over `.`. -/
def resolveAtPath (junk : ℕ → ℕ → UInt8) (v : Volume) (cwd : ℕ) (dirfd : ℤ) (path : List UInt8)
    (maxlen : ℕ) : Option (List UInt8) × ℕ :=
  if path = [] ∨ dirfd ≠ atFdcwd then (none, cwd)
  else enterPath (fun w => decide (w = [])) 255 maxlen junk v cwd path

/-- `fat32_stat`, and `fat32_read_file` before its `read_chain`. -/
def findPath (junk : ℕ → ℕ → UInt8) (junk' : ℕ → UInt8) (v : Volume) (cwd : ℕ)
    (path : List UInt8) : Option Slot × ℕ :=
  let saved := cwd
  let r := walkPath junk v cwd path
  (r.1.bind (v.findEntry junk' r.2), saved)

theorem walkDirs_eq_enterDirs (v : Volume) (junk : ℕ → ℕ → UInt8) (l : List (List UInt8))
    (cwd : ℕ) : walkDirs v junk l cwd =
      if (enterDirs (fun w => decide (w = [] ∨ w = [46])) v junk l cwd).1
      then some (enterDirs (fun w => decide (w = [] ∨ w = [46])) v junk l cwd).2 else none := by
  induction l generalizing junk cwd with
  | nil => rfl
  | cons w rest ih =>
    by_cases hw : w = [] ∨ w = [46]
    · simp only [walkDirs, enterDirs, hw, if_true, decide_true, ih]
    · cases hc : fat32ChangeDir (junk 0) v cwd w with
      | none => simp [walkDirs, enterDirs, hw, changeDir, hc]
      | some dir => simp [walkDirs, enterDirs, hw, changeDir, hc, ih]

/-- The record that `fat32_read_file` goes on with is the one found here. -/
theorem fat32ReadFile_eq (junk : ℕ → ℕ → UInt8) (junk' : ℕ → UInt8) (v : Volume)
    (path : List UInt8) (size : ℕ) : fat32ReadFile junk junk' v path size =
      (findPath junk junk' v v.cwd path).1.map fun s =>
        if v.firstCluster s = 0 then []
        else readChain v (min size (v.size s)) (v.firstCluster s) (min size (v.size s)) := by
  simp only [fat32ReadFile, fat32Walk, findPath, walkPath, enterPath, walkDirs_eq_enterDirs]
  generalize enterDirs _ v junk _ _ = r
  obtain ⟨ok, dir⟩ := r
  cases ok with
  | false => rfl
  | true =>
    generalize List.getLastD _ _ = base
    by_cases hb : base = []
    · simp [hb]
    simp only [hb, if_true, if_false, Bool.true_eq_false, or_self, Option.bind_some]
    cases v.findEntry junk' dir (base.take 255) with
    | none => rfl
    | some s => simp only [Option.map_some]; split <;> rfl

/-- The calls that use the current directory.  The paths are as `fixpath` leaves them. -/
inductive CwdCall
  | changeDir (junk : ℕ → UInt8) (path : List UInt8)
  /-- `SYS_readdir`; `valid` says that the pointers are not null and `max_entries` is positive. -/
  | readdir (valid : Bool) (junk : ℕ → UInt8) (path : List UInt8)
  /-- `SYS_openat`, `SYS_mkdirat` and `SYS_unlinkat`. -/
  | resolve (junk : ℕ → ℕ → UInt8) (dirfd : ℤ) (path : List UInt8) (maxlen : ℕ)
  | newfstatat (junk junk' : ℕ → ℕ → UInt8) (last : ℕ → UInt8) (dirfd : ℤ) (path : List UInt8)
  | renameat (junk junk' : ℕ → ℕ → UInt8) (dirfd newdirfd : ℤ) (path newpath : List UInt8)
  /-- `fat32_stat` and `fat32_read_file`. -/
  | stat (junk : ℕ → ℕ → UInt8) (last : ℕ → UInt8) (path : List UInt8)

namespace CwdCall

/-- Whether a call gets past its look-ups, and the current directory afterwards. -/
def step (v : Volume) (cwd : ℕ) : CwdCall → Bool × ℕ
  | changeDir junk path => Fs.changeDir junk v cwd path
  | readdir valid junk path =>
    if valid = false then (false, cwd)
    else
      let saved := cwd
      let r := Fs.changeDir junk v cwd path
      if r.1 then (true, saved) else (false, r.2)
  | resolve junk dirfd path maxlen =>
    let saved := cwd
    ((resolveAtPath junk v cwd dirfd path maxlen).1.isSome, saved)
  | newfstatat junk junk' last dirfd path =>
    let saved := cwd
    let r := resolveAtPath junk v cwd dirfd path 256
    match r.1 with
    | none => (false, saved)
    | some base => ((findPath junk' last v r.2 base).1.isSome, saved)
  | renameat junk junk' dirfd newdirfd path newpath =>
    let saved := cwd
    let r := resolveAtPath junk v cwd dirfd path 256
    let r' := resolveAtPath junk' v saved newdirfd newpath 256
    (r.1.isSome && r'.1.isSome && decide (r'.2 = r.2), saved)
  | stat junk last path =>
    let r := findPath junk last v cwd path
    (r.1.isSome, r.2)

/-- The current directory after some calls, each on what the disk holds at that time. -/
def run (calls : List (Volume × CwdCall)) (cwd : ℕ) : ℕ :=
  calls.foldl (fun cwd c => (c.2.step c.1 cwd).2) cwd

/-- The call leaves the current directory alone, unless it is a `fat32_change_dir` that succeeds. -/
def Keeps (v : Volume) (cwd : ℕ) : CwdCall → Prop
  | changeDir junk path => (Fs.changeDir junk v cwd path).1 = false →
      (Fs.changeDir junk v cwd path).2 = cwd
  | c => (c.step v cwd).2 = cwd

/-- An absolute path, and the root directory has no directory of this name. -/
def Absent (v : Volume) (junk : ℕ → UInt8) (path : List UInt8) : Prop :=
  path.head? = some 47 ∧ path ≠ [47] ∧
    ∀ s, v.findEntry junk v.geo.rootCluster (path.drop 1) = some s → v.isDir s = false

/-- The path of a `fat32_change_dir` or `SYS_readdir` is such a one. -/
def Missing (v : Volume) : CwdCall → Prop
  | changeDir junk path => Absent v junk path
  | readdir valid junk path => valid = true ∧ Absent v junk path
  | _ => False

theorem changeDir_none_iff (v : Volume) (junk : ℕ → UInt8) (cwd : ℕ) {path : List UInt8}
    (h : path.head? = some 47) : fat32ChangeDir junk v cwd path = none ↔ Absent v junk path := by
  have hne : path ≠ [] := by rintro rfl; exact absurd h nofun
  by_cases hp : path = [47]
  · simp [fat32ChangeDir, Absent, hp]
  simp only [fat32ChangeDir, Absent, hne, hp, h, if_true, if_false, or_self, true_and, ne_eq,
    not_false_eq_true]
  cases v.findEntry junk v.geo.rootCluster (path.drop 1) with
  | none => simp
  | some s =>
    cases hd : v.isDir s with
    | false => simp [hd]
    | true => simp only [hd, Bool.true_eq_false, if_false]; split <;> simp [hd]

theorem changeDir_failed_iff (v : Volume) (junk : ℕ → UInt8) (cwd : ℕ) (path : List UInt8) :
    ((Fs.changeDir junk v cwd path).1 = false → (Fs.changeDir junk v cwd path).2 = cwd) ↔
      (Absent v junk path → cwd = v.geo.rootCluster) := by
  by_cases h : path.head? = some 47
  · have ha := changeDir_none_iff v junk cwd h
    cases hc : fat32ChangeDir junk v cwd path with
    | none =>
      have : Absent v junk path := ha.mp hc
      simp [Fs.changeDir, hc, h, this, eq_comm]
    | some dir =>
      have : ¬ Absent v junk path := fun hx => absurd (ha.mpr hx) (by simp [hc])
      simp [Fs.changeDir, hc, this]
  · have : ¬ Absent v junk path := fun hx => h hx.1
    cases hc : fat32ChangeDir junk v cwd path <;> simp [Fs.changeDir, hc, h, this]

theorem keeps_iff (v : Volume) (cwd : ℕ) (c : CwdCall) :
    c.Keeps v cwd ↔ (c.Missing v → cwd = v.geo.rootCluster) := by
  cases c with
  | changeDir junk path => exact changeDir_failed_iff v junk cwd path
  | readdir valid junk path =>
    cases valid with
    | false => simp [Keeps, Missing, step]
    | true =>
      have hstep : (readdir true junk path).Keeps v cwd ↔
          ((Fs.changeDir junk v cwd path).1 = false → (Fs.changeDir junk v cwd path).2 = cwd) := by
        cases hr : (Fs.changeDir junk v cwd path).1 <;> simp [Keeps, step, hr]
      rw [hstep, changeDir_failed_iff]
      simp [Missing]
  | newfstatat junk junk' last dirfd path =>
    simp only [Keeps, Missing, step, false_implies, iff_true]
    split <;> rfl
  | resolve | renameat | stat => simp [Keeps, Missing, step, findPath]

/-- **Over every sequence of calls, the current directory stays where it was through every failed
`fat32_change_dir` and every other call, if and only if an absolute path that the root directory
does not have is given to `fat32_change_dir` or `SYS_readdir` in the root directory only.** -/
theorem cwd_kept_iff (calls : List (Volume × CwdCall)) (cwd : ℕ) :
    (∀ before v c after, calls = before ++ (v, c) :: after → c.Keeps v (run before cwd)) ↔
      ∀ before v c after, calls = before ++ (v, c) :: after → c.Missing v →
        run before cwd = v.geo.rootCluster := by
  constructor
  · intro h before v c after he
    exact (keeps_iff v _ c).mp (h before v c after he)
  · intro h before v c after he
    exact (keeps_iff v _ c).mpr (h before v c after he)

/-- A directory `A` in the root directory. -/
def oneDir : Volume := (fat32Mkdir (fun _ => 0) FatOp.blank [65]).2

/-- In the directory `A`, `SYS_readdir("/X")` fails and leaves the process in the root. -/
theorem readdir_moves_cwd :
    run [(oneDir, changeDir (fun _ => 0) [65])] 2 = 3 ∧
      (readdir true (fun _ => 0) [47, 88]).step oneDir 3 = (false, 2) ∧
      ¬ ∀ before v c after, [(oneDir, changeDir (fun _ => 0) [65]),
        (oneDir, readdir true (fun _ => 0) [47, 88])] = before ++ (v, c) :: after →
        c.Keeps v (run before 2) := by
  have hr : run [(oneDir, changeDir (fun _ => 0) [65])] 2 = 3 := by decide +kernel
  have hs : (readdir true (fun _ => 0) [47, 88]).step oneDir 3 = (false, 2) := by decide +kernel
  refine ⟨hr, hs, fun h => ?_⟩
  have hk : (readdir true (fun _ => 0) [47, 88]).Keeps oneDir 3 := by
    have := h [(oneDir, changeDir (fun _ => 0) [65])] oneDir _ [] rfl
    rwa [hr] at this
  have h23 : ((readdir true (fun _ => 0) [47, 88]).step oneDir 3).2 = 3 := hk
  rw [hs] at h23
  cases h23

end CwdCall

end TipOS.Fs
