import TipOS.Fs.FatRuns
import TipOS.Fs.Vfs

/-!
# Writing a file through a descriptor

`do_write_fd` writes to the file system that is mounted, and `SYS_writev` calls it for one buffer
after the other.  On ext2 it calls `ext2_create_file` and `ext2_write_at` of `fs/ext2.zig`, which
has a mount of its own that nothing makes (`ext2_writes_fail`): no write returns a number of bytes,
and the file stays as it is.  On FAT32 it passes no position and does not move it, and
`fat32_write_file` makes a file of the bytes of the call (`Volume.Consistent.writeFile_contains`).

So the writes that return a number put their bytes over those of the file and move the position on
ext2, where there are none, and not on FAT32 (`writes_overwrite_iff`).
-/

namespace TipOS.Fs

open Lib Ipc Process List

variable {σ : Type}

/-- The volume that is written. -/
inductive Target (σ : Type)
  | ext2 (k : Ext2Kernel σ)
  | fat32 (v : Volume)

def Target.isExt2 : Target σ → Bool
  | .ext2 _ => true
  | .fat32 _ => false

def Target.mount : Target σ → Mount
  | .ext2 k => .ext2 k.sb k.blocks
  | .fat32 v => .fat32 v

/-- `ext2_init` has not been called. -/
def Target.Started : Target σ → Prop
  | .ext2 k => k.mounted = false ∧ k.blocks.Coherent
  | .fat32 _ => True

/-- The contents of the file; one that is not there has none. -/
def Target.Has (t : Target σ) (path f : List UInt8) : Prop :=
  t.mount.File path f ∨ f = [] ∧ ∀ j n, (vfsReadAt j t.mount path n 0).1 = none

/-- What happens during a call of `do_write_fd`: what `ext2_create_file` and `ext2_write_at` do
behind their check, and what is in the buffers for long names. -/
structure WriteEnv (σ : Type) where
  create : (ℕ → Mem) × σ → ℤ × (ℕ → Mem) × σ
  write : (ℕ → Mem) × σ → ℤ × (ℕ → Mem) × σ
  junk : ℕ → UInt8
  junk' : ℕ → UInt8

/-- A buffer whose length is an `int`. -/
abbrev Buffer := { l : List UInt8 // l.length < 2 ^ 31 }

/-- The size of `statPath`. -/
def statSize (s : Superblock) (path : List UInt8) : Blocks (Option ℕ) := do
  match ← resolve s path with
  | none => return none
  | some ino =>
    let n ← readIno s ino
    return some n.size

/-- `vfs_stat_size_attr`, `vfs_create_file` if it fails, and `vfs_write_at`. -/
def ext2Write (env : WriteEnv σ) (k : Ext2Kernel σ) (name : List UInt8) : Answers × Ext2Kernel σ :=
  let st := (statSize k.sb name).run BlockCache.cacheGet k.blocks
  let k := { k with blocks := st.2 }
  let c := if st.1 = none then (Ext2Call.createFile env.create).run k else (0, k)
  let w := if c.1 = 0 then (Ext2Call.writeAt env.write).run c.2 else (-1, c.2)
  ({ noAnswers with
      ext2 := true, size := st.1, creates := decide (c.1 = 0), writes := decide (0 ≤ w.1) }, w.2)

/-- `fat32_write_file`, and if it fails, `fat32_create_file` and once more. -/
def fatWriteOrCreate (env : WriteEnv σ) (v : Volume) (name buf : List UInt8) : Answers × Volume :=
  let r := fat32WriteFile env.junk v name buf
  if 0 ≤ r.1 then ({ noAnswers with writes := true }, r.2)
  else
    let c := fat32CreateFile r.2 name
    if c.1 = 0 then
      let r' := fat32WriteFile env.junk' c.2 name buf
      ({ noAnswers with creates := true, rewrites := decide (0 ≤ r'.1) }, r'.2)
    else (noAnswers, c.2)

def Target.answer (env : WriteEnv σ) (t : Target σ) (name buf : List UInt8) : Answers × Target σ :=
  match t with
  | .ext2 k => ((ext2Write env k name).1, .ext2 (ext2Write env k name).2)
  | .fat32 v => ((fatWriteOrCreate env v name buf).1, .fat32 (fatWriteOrCreate env v name buf).2)

/-- `do_write_fd` of a file. -/
def writeFd (env : WriteEnv σ) (t : Target σ) (x : Fds) (i : Fin maxFds) (buf : Buffer) :
    ℤ × Target σ × Fds :=
  let a := t.answer env (x.table i).rest.name buf.val
  let r := doWriteFd a.1 x i.val (fun k => buf.val.getD k 0) buf.val.length
  (r.1, a.2, r.2)

/-- The loop of `SYS_writev`: the number of bytes, and whether a buffer failed. -/
def writevLoop (i : Fin maxFds) :
    List (WriteEnv σ × Buffer) → Target σ → Fds → ℕ × Bool × Target σ × Fds
  | [], t, x => (0, false, t, x)
  | (env, buf) :: l, t, x =>
    let r := writeFd env t x i buf
    if r.1 < 0 then (0, true, r.2)
    else
      let q := writevLoop i l r.2.1 r.2.2
      (r.1.toNat + q.1, q.2)

def sysWritev (i : Fin maxFds) (iov : List (WriteEnv σ × Buffer)) (t : Target σ) (x : Fds) :
    ℤ × Target σ × Fds :=
  let r := writevLoop i iov t x
  (if r.2.1 = true ∧ r.1 = 0 then -1 else r.1, r.2.2)

inductive WriteCall (σ : Type)
  | write (env : WriteEnv σ) (buf : Buffer)
  | writev (iov : List (WriteEnv σ × Buffer))

/-- The bytes given to a call. -/
def WriteCall.bytes : WriteCall σ → List UInt8
  | .write _ buf => buf.val
  | .writev iov => (iov.map fun b => b.2.val).flatten

def WriteCall.run (i : Fin maxFds) (t : Target σ) (x : Fds) : WriteCall σ → ℤ × Target σ × Fds
  | .write env buf => writeFd env t x i buf
  | .writev iov => sysWritev i iov t x

/-- The calls of a list, and the bytes that they say they have written: of a call that returns `n`,
the first `n`. -/
def runWrites (i : Fin maxFds) :
    List (WriteCall σ) → Target σ → Fds → List UInt8 → Target σ × Fds × List UInt8
  | [], t, x, w => (t, x, w)
  | c :: calls, t, x, w =>
    let r := c.run i t x
    runWrites i calls r.2.1 r.2.2 (w ++ c.bytes.take r.1.toNat)

/-- Each call that returns `n` moves the position on by `n`. -/
def Advances (i : Fin maxFds) : List (WriteCall σ) → Target σ → Fds → Prop
  | [], _, _ => True
  | c :: calls, t, x =>
    let r := c.run i t x
    (0 ≤ r.1 → (r.2.2.table i).rest.pos = (x.table i).rest.pos + r.1.toNat) ∧
      Advances i calls r.2.1 r.2.2

/-- **The calls put the bytes that they write over those of the file**, and move the position. -/
def Overwrites (i : Fin maxFds) (path f : List UInt8) (calls : List (WriteCall σ)) (t : Target σ)
    (x : Fds) : Prop :=
  Advances i calls t x ∧ (runWrites i calls t x []).1.Has path
    ((runWrites i calls t x []).2.2 ++ f.drop (runWrites i calls t x []).2.2.length)

/-- One byte can be written: not on a full FAT32 volume, for example. -/
def Target.Room (t : Target σ) (x : Fds) (i : Fin maxFds) : Prop :=
  t.isExt2 = true ∨ ∃ env b, 0 ≤ (writeFd env t x i ⟨[b], Nat.one_lt_two_pow (by decide)⟩).1

/-! ### One call -/

section

variable {x : Fds} {i : Fin maxFds} {path f : List UInt8} {t : Target σ}

theorem doWriteFd_file (h : OpenFile x i path) (a : Answers) (buf : ℕ → UInt8) (count : ℤ) :
    doWriteFd a x i.val buf count = writeFile a x i count := by
  obtain ⟨h1, -, h3, h4, -, -, -⟩ := h.file
  rw [doWriteFd, fdIdx_coe]
  simp only
  rw [if_neg fun hp => h3 hp.2, if_pos ⟨h.ge, h.used⟩, if_neg h1, if_neg h4]

/-- Nothing has been written to the file, which is on ext2. -/
structure Untouched (t : Target σ) (x : Fds) (i : Fin maxFds) (path f : List UInt8) : Prop where
  ext2 : t.isExt2 = true
  started : t.Started
  has : t.Has path f
  fd : OpenFile x i path

/-- **`ext2_create_file` and `ext2_write_at` fail**, and only the cache changes. -/
theorem ext2Write_unmounted (env : WriteEnv σ) {k : Ext2Kernel σ} (h : k.mounted = false)
    (name : List UInt8) : (ext2Write env k name).1.ext2 = true ∧
      (ext2Write env k name).1.writes = false ∧ (ext2Write env k name).2 =
        { k with blocks := ((statSize k.sb name).run BlockCache.cacheGet k.blocks).2 } := by
  have hcall : ∀ body b, ({ k with blocks := b } : Ext2Kernel σ).call body =
      (-1, { k with blocks := b }) := fun body b => if_pos h
  rw [ext2Write]
  generalize (statSize k.sb name).run BlockCache.cacheGet k.blocks = st
  obtain ⟨size, b⟩ := st
  cases size with
  | none => simp [Ext2Call.run, hcall]
  | some n => simp [Ext2Call.run, hcall]

/-- **No buffer is written on ext2.** -/
theorem Untouched.writeFd (h : Untouched t x i path f) (env : WriteEnv σ) (buf : Buffer) :
    (writeFd env t x i buf).1 = -1 ∧
      Untouched (writeFd env t x i buf).2.1 (writeFd env t x i buf).2.2 i path f := by
  obtain ⟨hext, hstart, hhas, ho⟩ := h
  cases t with
  | fat32 v => cases hext
  | ext2 k =>
    obtain ⟨hm, hco⟩ := hstart
    obtain ⟨ha, hw, hk⟩ := ext2Write_unmounted env hm (x.table i).rest.name
    obtain ⟨-, hco', hview⟩ :=
      BlockCache.cacheGet_faithful.run (statSize k.sb (x.table i).rest.name) hco
    rw [Fs.writeFd, Target.answer]
    dsimp only
    rw [doWriteFd_file ho, writeFile, if_pos ha, hw, if_pos rfl, hk]
    have hhas' : Target.Has (.ext2 { k with
        blocks := ((statSize k.sb (x.table i).rest.name).run BlockCache.cacheGet k.blocks).2 })
        path f := by
      refine hhas.imp (·.of_view hco' hview) fun hnone => ⟨hnone.1, fun j n => ?_⟩
      have hread := fun {b} hc => (BlockCache.cacheGet_faithful.run
        (readFileAt k.sb path n 0) (show BlockCache.Coherent b from hc)).1
      exact (hread hco').trans ((hview ▸ (hread hco).symm).trans (hnone.2 j n))
    split
    · exact ⟨rfl, rfl, ⟨hm, hco'⟩, hhas', ho⟩
    · exact ⟨rfl, rfl, ⟨hm, hco'⟩, hhas', ho.setPos _⟩

/-- A call on ext2 writes nothing. -/
theorem Untouched.run (h : Untouched t x i path f) (c : WriteCall σ) :
    c.bytes.take (c.run i t x).1.toNat = [] ∧
      (0 ≤ (c.run i t x).1 →
        ((c.run i t x).2.2.table i).rest.pos = (x.table i).rest.pos + (c.run i t x).1.toNat) ∧
      Untouched (c.run i t x).2.1 (c.run i t x).2.2 i path f := by
  have hneg : ¬ (0 : ℤ) ≤ -1 := by decide
  cases c with
  | write env buf =>
    obtain ⟨hr, hu⟩ := h.writeFd env buf
    rw [WriteCall.run, hr]
    exact ⟨take_zero, fun h0 => absurd h0 hneg, hu⟩
  | writev iov =>
    cases iov with
    | nil => exact ⟨take_zero, fun _ => rfl, h⟩
    | cons b iov =>
      obtain ⟨hr, hu⟩ := h.writeFd b.1 b.2
      have hloop : writevLoop i (b :: iov) t x = (0, true, (Fs.writeFd b.1 t x i b.2).2) := by
        rw [writevLoop]
        exact if_pos (by rw [hr]; decide)
      rw [WriteCall.run, sysWritev, hloop]
      exact ⟨take_zero, fun h0 => absurd h0 hneg, hu⟩

theorem Untouched.overwrites (calls : List (WriteCall σ)) : ∀ {t : Target σ} {x : Fds},
    Untouched t x i path f → Overwrites i path f calls t x := by
  induction calls with
  | nil => exact fun h => ⟨trivial, h.has⟩
  | cons c calls ih =>
    intro t x h
    obtain ⟨hbytes, hpos, hu⟩ := h.run c
    obtain ⟨hadv, hhas⟩ := ih hu
    refine ⟨⟨hpos, hadv⟩, ?_⟩
    rw [runWrites, hbytes]
    exact hhas

/-- **On FAT32** a write that succeeds returns the number of its bytes, and the position stays. -/
theorem fat32_writeFd {v : Volume} (ho : OpenFile x i path) (env : WriteEnv σ) (buf : Buffer) :
    (writeFd env (.fat32 v) x i buf).2.2 = x ∧
      (0 ≤ (writeFd env (.fat32 v) x i buf).1 →
        (writeFd env (.fat32 v) x i buf).1 = buf.val.length) := by
  have hext : (fatWriteOrCreate env v path buf.val).1.ext2 = false := by
    rw [fatWriteOrCreate]
    dsimp only
    split
    · rfl
    · split
      · rfl
      · rfl
  rw [writeFd, ho.name, Target.answer]
  rw [doWriteFd_file ho, writeFile, if_neg (by rw [hext]; decide)]
  split
  · exact ⟨rfl, fun _ => rfl⟩
  · exact ⟨rfl, fun h => absurd h (show ¬ (0 : ℤ) ≤ -1 by decide)⟩

end

/-- **When writes through a descriptor put their bytes over those of the file**, whatever they are:
on ext2, where none succeeds. -/
theorem writes_overwrite_iff (t : Target σ) (x : Fds) (i : Fin maxFds) (path f : List UInt8)
    (hs : t.Started) (hf : t.Has path f) (hr : t.Room x i) (ho : OpenFile x i path)
    (hp : (x.table i).rest.pos = 0) :
    (∀ calls, Overwrites i path f calls t x) ↔ t.isExt2 = true := by
  refine ⟨fun h => ?_, fun hext calls => Untouched.overwrites calls ⟨hext, hs, hf, ho⟩⟩
  cases t with
  | ext2 k => rfl
  | fat32 v =>
    obtain ⟨env, b, hb⟩ := hr.resolve_left (show ¬ false = true by decide)
    obtain ⟨hx, hret⟩ := fat32_writeFd ho env ⟨[b], Nat.one_lt_two_pow (by decide)⟩
    have hpos := (h [.write env ⟨[b], Nat.one_lt_two_pow (by decide)⟩]).1.1 hb
    rw [WriteCall.run, hret hb, hx, hp] at hpos
    exact absurd hpos Nat.zero_ne_one

/-- An environment in which everything that is called succeeds. -/
def calm : WriteEnv Unit := ⟨fun d => (0, d), fun d => (0, d), fun _ => 0, fun _ => 0⟩

theorem volumeA_room : (Target.fat32 volumeA : Target Unit).Room fdsA 3 :=
  .inr ⟨calm, 9, by decide +kernel⟩

theorem writes_overwrite_iff_volumeA : (fdsA.table 3).rest.pos = 0 ∧
    ((∀ calls, Overwrites 3 [65] [5, 6, 7] calls (.fat32 volumeA : Target Unit) fdsA) ↔
      (Target.fat32 volumeA : Target Unit).isExt2 = true) :=
  ⟨rfl, writes_overwrite_iff (.fat32 volumeA) fdsA 3 [65] [5, 6, 7] trivial (.inl volumeA_file)
    volumeA_room fdsA_open rfl⟩

/-- The bytes 1 and 2 are written to `A`, one call each. -/
def oneByOne : List (WriteCall Unit) :=
  [.write calm ⟨[1], by decide⟩, .write calm ⟨[2], by decide⟩]

/-- **A file that keeps the last write only**: both calls succeed, and the file has one byte. -/
theorem second_write_replaces :
    (runWrites 3 oneByOne (.fat32 FatOp.blank) fdsA []).2.2 = [1, 2] ∧
    (∃ v, (runWrites 3 oneByOne (.fat32 FatOp.blank) fdsA []).1 = .fat32 v ∧
      fat32ReadFile (fun _ _ => 0) (fun _ => 0) v [65] 10 = some [2]) ∧
    ¬ Overwrites 3 [65] [] oneByOne (.fat32 FatOp.blank) fdsA := by
  refine ⟨by decide +kernel, ⟨_, rfl, by decide +kernel⟩, fun h => ?_⟩
  exact absurd (h.1.1 (by decide +kernel)) (by decide +kernel)

end TipOS.Fs
