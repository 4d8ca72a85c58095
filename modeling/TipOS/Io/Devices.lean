import TipOS.Fs.Vfs

/-!
# Reading with the devices and the file system

`sysRead` leaves open what the devices and the file system answer.  Here the keys and the movements
of the mouse that have arrived are in queues, and the file system is known by the contents of its
files (`Files`, which `Mount.File` justifies for both back ends: `Files.readAt_eq`).
-/

namespace TipOS.Io

open Lib Process Ipc Fs

/-! ### Devices -/

/-- What `keyboard_read`, `kbd_raw_read` and `mice_read` return next. -/
structure Devices where
  keyboard : List UInt8
  kbdRaw : List UInt8
  mice : List UInt8

/-- The loop of `SYS_read` for the standard input, which ends with a line; `got` has been read.  A
byte 3 ends it too, and is not counted. -/
def keyboardLoop : ℕ → List UInt8 → List UInt8 → ReadResult × List UInt8
  | 0, q, got => (.done got.length got, q)
  | _ + 1, [], _ => (.waits, [])
  | n + 1, c :: q, got =>
    if c = 10 then (.done (got.length + 1) (got ++ [c]), q)
    else if c = 3 then (.done got.length (got ++ [c]), q)
    else keyboardLoop n q (got ++ [c])

def readKeyboard (nonblock : Bool) (q : List UInt8) (count : ℕ) : ReadResult × List UInt8 :=
  if nonblock = true ∧ q = [] then (.done (-11) [], q) else keyboardLoop count q []

/-- `SYS_read` of `/dev/ttyN` and of the mouse; without `O_NONBLOCK` it takes one byte, also when
none was asked for. -/
def readQueue (nonblock : Bool) (q : List UInt8) (count : ℕ) : ReadResult × List UInt8 :=
  if 0 < count ∧ q ≠ [] then (.done (q.take count).length (q.take count), q.drop count)
  else if nonblock = true then (.done (-11) [], q)
  else
    match q with
    | [] => (.waits, [])
    | c :: q => (.done 1 [c], q)

namespace Devices

/-- What a read of record `i` gets, if it is one of a device. -/
def read (d : Devices) (t : FdTable) (i : Fin maxFds) (count : ℕ) : ReadResult × Devices :=
  if i.val = 0 then
    let y := readKeyboard (nonblock (t i)) d.keyboard count
    (y.1, { d with keyboard := y.2 })
  else if (t i).type = fdTty then
    let y := readQueue (nonblock (t i)) d.kbdRaw count
    (y.1, { d with kbdRaw := y.2 })
  else
    let y := readQueue (nonblock (t i)) d.mice count
    (y.1, { d with mice := y.2 })

end Devices

/-- A read of record `i` goes to a device. -/
def OnDevice (t : FdTable) (i : Fin maxFds) (count : ℕ) : Prop :=
  ¬ ((t i).used = true ∧ (t i).type = typePipe) ∧ (i.val = 0 ∧ 0 < count ∨
    3 ≤ i.val ∧ (t i).used = true ∧ ((t i).type = fdTty ∨ (t i).type = fdMice))

instance (t : FdTable) (i : Fin maxFds) (count : ℕ) : Decidable (OnDevice t i count) :=
  inferInstanceAs (Decidable (_ ∧ _))

/-! ### Files -/

/-- The files that can be read: those of ext2 from a position on, those of FAT32 from the
beginning. -/
structure Files where
  ext2 : Bool
  contents : List UInt8 → Option (List UInt8)
  small : ∀ name f, contents name = some f → f.length < 2 ^ 32

/-- No files. -/
def noFiles : Files := ⟨true, fun _ => none, fun _ _ h => nomatch h⟩

namespace Files

/-- The bytes that a read at a position begins with. -/
def rest (b : Files) (name : List UInt8) (pos : ℕ) : Option (List UInt8) :=
  (b.contents name).map fun f => if b.ext2 = true then f.drop pos else f

/-- `vfs_read_at`. -/
def readAt (b : Files) (name : List UInt8) (count pos : ℕ) : Option (List UInt8) :=
  (b.rest name pos).map fun f => f.take count

/-- **`vfs_read_at` of the file systems**, for sizes that are an `int`. -/
theorem readAt_eq {b : Files} {m : Mount} {path f : List UInt8} (hm : m.File path f)
    (hb : b.contents path = some f) (he : b.ext2 = m.isExt2) (j : Junk) (count : Fin (2 ^ 31))
    (pos : ℕ) : (vfsReadAt j m path count.val pos).1 = b.readAt path count.val pos := by
  rw [readAt, rest, hb, he]
  cases m with
  | ext2 sb blocks =>
    obtain ⟨blocks', hr, -⟩ := hm.ext2_read j count.val pos
    rw [hr]
    rfl
  | fat32 v =>
    rw [hm.fat32_read j count.val pos]
    rfl

/-- The position counts on ext2 only. -/
theorem readAt_eq_volumeA :
    (vfsReadAt ⟨fun _ _ => 0, fun _ => 0⟩ (.fat32 volumeA) [65] 2 1).1 = some [5, 6] ∧
      (vfsReadAt ⟨fun _ _ => 0, fun _ => 0⟩ smallMount [47, 97] 2 1).1 = some [105, 0] :=
  ⟨readAt_eq (b := ⟨false, fun _ => some [5, 6, 7], by simp⟩) volumeA_file rfl rfl _ 2 1,
    readAt_eq (b := ⟨true, fun _ => some [104, 105, 0, 0, 0], by simp⟩) smallMount_file rfl rfl _ 2 1⟩

end Files

/-! ### `SYS_read` -/

/-- The descriptors, with what is behind them. -/
structure IoState where
  fds : Fds
  dev : Devices

/-- What a read of record `i` is answered. -/
def answers (b : Files) (s : IoState) (i : Fin maxFds) (count : ℕ) : Answers :=
  { ext2 := b.ext2, size := none, creates := false, writes := false, rewrites := false
    file := b.readAt (s.fds.table i).rest.name count (s.fds.table i).rest.pos
    device := (s.dev.read s.fds.table i count).1 }

/-- `SYS_read`, up to where it waits: `alive` is `pipe_writers_alive`. -/
def readOn (b : Files) (alive : ℤ → Bool) (s : IoState) (fd : ℤ) (count : ℕ) :
    ReadResult × IoState :=
  match fdIdx fd with
  | none => (.done (-1) [], s)
  | some i =>
    let r := sysRead (answers b s i count) alive s.fds fd count
    (r.1, ⟨r.2, if OnDevice s.fds.table i count then (s.dev.read s.fds.table i count).2 else s.dev⟩)

theorem type_cases (e : FdEnt) : e.type = typePipe ∨ (e.type = fdTty ∨ e.type = fdMice) ∨
    e.type = fdFb ∨ e.type = typeEvent ∨ e.type = typeTimer ∨ e.type = typeSock ∨ IsFile e := by
  by_cases h1 : e.type = typeEvent
  · exact .inr (.inr (.inr (.inl h1)))
  by_cases h2 : e.type = typeTimer
  · exact .inr (.inr (.inr (.inr (.inl h2))))
  by_cases h3 : e.type = typePipe
  · exact .inl h3
  by_cases h4 : e.type = typeSock
  · exact .inr (.inr (.inr (.inr (.inr (.inl h4)))))
  by_cases h5 : e.type = fdFb
  · exact .inr (.inr (.inl h5))
  by_cases h6 : e.type = fdTty
  · exact .inr (.inl (.inl h6))
  by_cases h7 : e.type = fdMice
  · exact .inr (.inl (.inr h7))
  exact .inr (.inr (.inr (.inr (.inr (.inr ⟨h1, h2, h3, h4, h5, h6, h7⟩)))))

section

variable {b : Files} {alive : ℤ → Bool} {s : IoState} {i : Fin maxFds} {count : ℕ}

theorem readOn_pipe (hu : (s.fds.table i).used) (ht : (s.fds.table i).type = typePipe) :
    readOn b alive s i.val count =
      ((readPipe s.fds.bufs (s.fds.table i).rest.pipeIdx (nonblock (s.fds.table i))
        (alive (s.fds.table i).rest.pipeIdx) count).1,
      ⟨⟨s.fds.table, (readPipe s.fds.bufs (s.fds.table i).rest.pipeIdx (nonblock (s.fds.table i))
        (alive (s.fds.table i).rest.pipeIdx) count).2⟩, s.dev⟩) := by
  have hd : ¬ OnDevice s.fds.table i count := fun h => h.1 ⟨hu, ht⟩
  rw [readOn, fdIdx_coe]
  dsimp only
  rw [if_neg hd, sysRead, fdIdx_coe]
  dsimp only
  rw [if_pos ⟨hu, ht⟩]

section

variable (hp : ¬ ((s.fds.table i).used ∧ (s.fds.table i).type = typePipe))

include hp

theorem readOn_keyboard (hi : i.val = 0) (hc : 0 < count) : readOn b alive s i.val count =
      ((readKeyboard (nonblock (s.fds.table i)) s.dev.keyboard count).1,
      ⟨s.fds, { s.dev with
        keyboard := (readKeyboard (nonblock (s.fds.table i)) s.dev.keyboard count).2 }⟩) := by
  have hd : OnDevice s.fds.table i count := ⟨hp, .inl ⟨hi, hc⟩⟩
  rw [readOn, fdIdx_coe]
  dsimp only
  rw [if_pos hd, sysRead, fdIdx_coe]
  dsimp only
  rw [if_neg hp, if_pos ⟨hi, by omega⟩, answers, Devices.read, if_pos hi]

theorem readOn_none (h0 : ¬ (i.val = 0 ∧ 0 < count))
    (h3 : ¬ (3 ≤ i.val ∧ (s.fds.table i).used)) :
    readOn b alive s i.val count = (.done (-1) [], s) := by
  have hd : ¬ OnDevice s.fds.table i count := by
    rintro ⟨-, h | h⟩
    · exact h0 h
    · exact h3 ⟨h.1, h.2.1⟩
  rw [readOn, fdIdx_coe]
  dsimp only
  rw [if_neg hd, sysRead, fdIdx_coe]
  dsimp only
  rw [if_neg hp, if_neg fun h => h0 ⟨h.1, by omega⟩, if_neg h3]

end

theorem readOn_other (h3 : 3 ≤ i.val) (hu : (s.fds.table i).used)
    (ht : (s.fds.table i).type ≠ typePipe) : readOn b alive s i.val count =
      ((readOther (answers b s i count) s.fds i count).1,
      ⟨(readOther (answers b s i count) s.fds i count).2,
        if (s.fds.table i).type = fdTty ∨ (s.fds.table i).type = fdMice then
          (s.dev.read s.fds.table i count).2 else s.dev⟩) := by
  have hd : OnDevice s.fds.table i count ↔
      (s.fds.table i).type = fdTty ∨ (s.fds.table i).type = fdMice := by
    constructor
    · rintro ⟨-, h | h⟩
      · omega
      · exact h.2.2
    · exact fun h => ⟨fun hp => ht hp.2, .inr ⟨h3, hu, h⟩⟩
  rw [readOn, fdIdx_coe]
  dsimp only
  rw [sysRead, fdIdx_coe]
  dsimp only
  rw [if_neg fun hp => ht hp.2, if_neg (by omega), if_pos ⟨h3, hu⟩]
  simp only [hd]

section Types

variable (h3 : 3 ≤ i.val) (hu : (s.fds.table i).used)

include h3 hu

theorem readOn_device (ht : (s.fds.table i).type = fdTty ∨ (s.fds.table i).type = fdMice) :
    readOn b alive s i.val count = ((s.dev.read s.fds.table i count).1,
      ⟨s.fds, (s.dev.read s.fds.table i count).2⟩) := by
  have hp : (s.fds.table i).type ≠ typePipe := by
    rcases ht with h | h
    · rw [h]
      decide
    · rw [h]
      decide
  rw [readOn_other h3 hu hp, if_pos ht, readOther]
  rw [if_pos ht]
  rfl

theorem readOn_plain {t : ℕ} (ht : (s.fds.table i).type = t)
    (h : t ≠ typePipe ∧ ¬ (t = fdTty ∨ t = fdMice)) : readOn b alive s i.val count =
      ((readOther (answers b s i count) s.fds i count).1,
      ⟨(readOther (answers b s i count) s.fds i count).2, s.dev⟩) := by
  rw [readOn_other h3 hu (ht ▸ h.1), if_neg (ht ▸ h.2)]

theorem readOn_fb (ht : (s.fds.table i).type = fdFb) :
    readOn b alive s i.val count = (.done (-1) [], s) := by
  rw [readOn_plain h3 hu ht (by decide), readOther]
  rw [ht, if_neg (by decide), if_pos rfl]

theorem readOn_event (ht : (s.fds.table i).type = typeEvent) : readOn b alive s i.val count =
    if 8 ≤ count then (.done count (toLe64 (s.fds.table i).rest.counter),
      ⟨s.fds.setCounter i 0, s.dev⟩) else (.done count [], s) := by
  rw [readOn_plain h3 hu ht (by decide), readOther]
  rw [ht, if_neg (by decide), if_neg (by decide), if_pos rfl]
  by_cases hc : 8 ≤ count
  · rw [if_pos hc, if_pos (by omega)]
  · rw [if_neg hc, if_neg (by omega)]

theorem readOn_timer (ht : (s.fds.table i).type = typeTimer) : readOn b alive s i.val count =
    (.done count (if 8 ≤ count then toLe64 1 else []), s) := by
  rw [readOn_plain h3 hu ht (by decide), readOther]
  rw [ht, if_neg (by decide), if_neg (by decide), if_neg (by decide), if_pos rfl]
  by_cases hc : 8 ≤ count
  · rw [if_pos hc, if_pos (by omega)]
  · rw [if_neg hc, if_neg (by omega)]

theorem readOn_sock (ht : (s.fds.table i).type = typeSock) : readOn b alive s i.val count =
    ((sockPop s.fds.bufs (s.fds.table i).rest.sockIdx count).1,
      ⟨⟨s.fds.table, (sockPop s.fds.bufs (s.fds.table i).rest.sockIdx count).2⟩, s.dev⟩) := by
  rw [readOn_plain h3 hu ht (by decide), readOther]
  rw [ht, if_neg (by decide), if_neg (by decide), if_neg (by decide), if_neg (by decide), if_pos rfl]

theorem readOn_file (ht : IsFile (s.fds.table i)) : readOn b alive s i.val count =
    match b.rest (s.fds.table i).rest.name (s.fds.table i).rest.pos with
    | none => (.done (-1) [], s)
    | some g => (.done (g.take count).length (g.take count),
        ⟨s.fds.setPos i (posOf ((s.fds.table i).rest.pos + (g.take count).length)), s.dev⟩) := by
  obtain ⟨h1, h2, hp, h4, h5, h6, h7⟩ := ht
  rw [readOn_other h3 hu hp, if_neg (not_or.mpr ⟨h6, h7⟩), readOther]
  rw [if_neg (not_or.mpr ⟨h6, h7⟩), if_neg h5, if_neg h1, if_neg h2, if_neg h4, answers]
  rw [Files.readAt]
  cases b.rest (s.fds.table i).rest.name (s.fds.table i).rest.pos with
  | none => rfl
  | some g => rfl

end Types

end

/-! ### Reads of pipes -/

/-- A read of a pipe finds bytes, or the end of file. -/
def PipeHas (x : Bufs) (p : ℤ) (nb al : Bool) : Prop :=
  (x.pipes p.toNat).ring.rpos ≠ (x.pipes p.toNat).ring.wpos ∨ nb = false ∧ al = false

theorem readPipe_view (x : Bufs) (p : ℤ) (nb al : Bool) (n : ℤ) :
    x.pipeOk p = false ∧ readPipe x p nb al n = (.done (-1) [], x) ∨
    x.pipeOk p ∧ ¬ PipeHas x p nb al ∧
      (readPipe x p nb al n = (.done (-11) [], x) ∨ readPipe x p nb al n = (.waits, x)) ∨
    x.pipeOk p ∧ PipeHas x p nb al ∧ readPipe x p nb al n =
      (.done (drainRing (x.pipes p.toNat).ring n.toNat).1.length
        (drainRing (x.pipes p.toNat).ring n.toNat).1,
        x.setPipe p.toNat (drainRing (x.pipes p.toNat).ring n.toNat).2) := by
  unfold readPipe PipeHas
  cases hok : x.pipeOk p with
  | false => exact .inl ⟨rfl, rfl⟩
  | true =>
    by_cases he : (x.pipes p.toNat).ring.rpos = (x.pipes p.toNat).ring.wpos
    · cases nb <;> cases al <;> simp [he]
    · exact .inr (.inr ⟨rfl, .inl he, by simp [he]⟩)

end TipOS.Io
