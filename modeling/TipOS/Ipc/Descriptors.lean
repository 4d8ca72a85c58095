import TipOS.Ipc.Buffer
import TipOS.Process.SlotReuse

/-!
# The system calls on descriptors

`alloc_fd`, `close_fd`, `do_write_fd` and the cases `SYS_read`, `SYS_open`, `SYS_lseek`, `SYS_dup`,
`SYS_dup2`, `SYS_dup3`, `SYS_pipe` and `SYS_pipe2` of `syscall.c`.  They work on the table of a
process and on the tables of pipes and sockets, which all processes share.

A record of the table is copied by value, and nobody counts the copies.  `pipeEnd` is what a record
says about a pipe; `Syscall.effect` says which records a call copies, makes, drops or takes up
again, and `Syscall.ends` and `Syscall.used` are all that the results about pipes need to know of
the calls.
-/

namespace TipOS.Ipc

open Function Lib Process Option Bufs List

variable {fd : ℤ} {i n : Fin maxFds} {t : FdTable} {pi : ℕ} {e : FdEnt} {y : Fds} {s : Syscall}

/-! ### Descriptors -/

/-- `type` of an eventfd, a timerfd, a pipe, a socket, `/dev/fb0`, `/dev/ttyN` and the mouse. -/
def typeEvent : ℕ := 1
def typeTimer : ℕ := 2
def typePipe : ℕ := 3
def typeSock : ℕ := 4
def fdFb : ℕ := 5
def fdTty : ℕ := 6
def fdMice : ℕ := 7

def oNonblock : ℤ := 0x800

/-- `flags & O_NONBLOCK`. -/
def nonblock (e : FdEnt) : Bool := e.rest.flags / oNonblock % 2 = 1

/-- `fd >= 0 && fd < MAX_FDS`. -/
def fdIdx (fd : ℤ) : Option (Fin maxFds) :=
  if h : 0 ≤ fd ∧ fd < maxFds then some ⟨fd.toNat, by omega⟩ else none

/-- `alloc_fd`. -/
def allocFd (t : FdTable) : Option (Fin maxFds) :=
  (List.finRange maxFds).find? fun i => decide (3 ≤ i.val) && !(t i).used

/-- What a system call on descriptors works on. -/
structure Fds where
  table : FdTable
  bufs : Bufs

namespace Fds

def set (x : Fds) (i : Fin maxFds) (e : FdEnt) : Fds :=
  { x with table := update x.table i e }

@[simp] theorem set_table (x : Fds) (i : Fin maxFds) (e : FdEnt) :
    (x.set i e).table = update x.table i e := rfl
@[simp] theorem set_bufs (x : Fds) (i : Fin maxFds) (e : FdEnt) : (x.set i e).bufs = x.bufs := rfl

def setPos (x : Fds) (i : Fin maxFds) (pos : ℕ) : Fds :=
  x.set i { x.table i with rest := { (x.table i).rest with pos := pos } }

def setCounter (x : Fds) (i : Fin maxFds) (counter : ℕ) : Fds :=
  x.set i { x.table i with rest := { (x.table i).rest with counter := counter } }

end Fds

namespace Bufs

/-- `pipes[p].used = 0`. -/
def freePipe (x : Bufs) (p : ℕ) : Bufs :=
  { x with pipes := update x.pipes p { x.pipes p with used := false } }

/-- `socks[s].used = 0`. -/
def freeSock (x : Bufs) (s : ℕ) : Bufs :=
  { x with socks := update x.socks s { x.socks s with used := false } }

/-- A pipe in use, empty and filled with zeros. -/
def newPipe (x : Bufs) (p : ℕ) : Bufs :=
  { x with pipes := update x.pipes p ⟨true, ⟨fun _ => 0, 0, 0⟩⟩ }

@[simp] theorem freePipe_pipes (x : Bufs) (p : ℕ) : (x.freePipe p).pipes =
    update x.pipes p { x.pipes p with used := false } := rfl
@[simp] theorem freeSock_socks (x : Bufs) (s : ℕ) : (x.freeSock s).socks =
    update x.socks s { x.socks s with used := false } := rfl
@[simp] theorem newPipe_pipes (x : Bufs) (p : ℕ) : (x.newPipe p).pipes =
    update x.pipes p ⟨true, ⟨fun _ => 0, 0, 0⟩⟩ := rfl

theorem freeSock_eq_self {x : Bufs} {s : ℕ} (h : (x.socks s).used = false) : x.freeSock s = x := by
  have he : ({ x.socks s with used := false } : Sock) = x.socks s := by rw [← h]
  rw [freeSock, he, update_eq_self]

end Bufs

/-! ### Opening and closing -/

def asBytes (s : String) : List UInt8 := s.toList.map fun c => UInt8.ofNat c.toNat

/-- The type of the device with a path, as in `open_dev`. -/
def devType (path : List UInt8) : Option ℕ :=
  if path = asBytes "/dev/fb0" then some fdFb
  else if path = asBytes "/dev/input/mice" then some fdMice
  else if path.take 8 = asBytes "/dev/tty" ∧ path.length = 9 ∧
    (path.drop 8).all (fun d => 48 ≤ d && d ≤ 57) = true then some fdTty
  else none

/-- The record of an open file: `SYS_open` leaves the `type` that the record had before, and
`open_dev` sets it. -/
def openEnt (e : FdEnt) (path : List UInt8) : FdEnt :=
  match devType path with
  | some ty =>
    { used := true, type := ty
      rest := { e.rest with name := path.take 255, flags := oNonblock, pos := 0 } }
  | none => { e with used := true, rest := { e.rest with name := path.take 255, pos := 0 } }

/-- `SYS_open` of a path that `fixpath` has been applied to. -/
def sysOpen (x : Fds) (path : List UInt8) : ℤ × Fds :=
  if path = asBytes "/dev/tty" ∨ path = asBytes "/dev/stdin" then (0, x)
  else if path = asBytes "/dev/stdout" then (1, x)
  else if path = asBytes "/dev/stderr" then (2, x)
  else
    match allocFd x.table with
    | none => (-1, x)
    | some n => (n.val, x.set n (openEnt (x.table n) path))

/-- `close_fd`: the slot of a socket is given up, that of a pipe is not. -/
def closeFd (x : Fds) (fd : ℤ) : Fds :=
  match fdIdx fd with
  | none => x
  | some i =>
    if 3 ≤ i.val ∧ (x.table i).used = true then
      let s := (x.table i).rest.sockIdx
      let bufs := if (x.table i).type = typeSock ∧ 0 ≤ s ∧ s < maxSocks then x.bufs.freeSock s.toNat
        else x.bufs
      ⟨update x.table i { x.table i with used := false }, bufs⟩
    else x

/-- `for (int fd = 3; fd < MAX_FDS; fd++) fds[fd].used = 0` of `SYS_execve`. -/
def closeAll (x : Fds) : Fds :=
  { x with table := fun i => if 3 ≤ i.val then { x.table i with used := false } else x.table i }

/-! ### Copies -/

/-- The test of `oldfd` that `dup`, `dup2` and `dup3` begin with. -/
def dupSource (t : FdTable) (oldfd : ℤ) : Option (Fin maxFds) :=
  (fdIdx oldfd).filter fun o => (t o).used || decide (o.val < 3)

def sysDup (x : Fds) (oldfd : ℤ) : ℤ × Fds :=
  match dupSource x.table oldfd, allocFd x.table with
  | some o, some n => (n.val, x.set n (x.table o))
  | _, _ => (-1, x)

/-- What `dup2` and `dup3` do with a target in use: the pipe itself is marked as unused. -/
def closeTarget (x : Fds) (n : Fin maxFds) : Fds :=
  if 3 ≤ n.val ∧ (x.table n).used = true then
    let p := (x.table n).rest.pipeIdx
    let bufs := if (x.table n).type = typePipe ∧ 0 ≤ p ∧ p < maxPipes then x.bufs.freePipe p.toNat
      else x.bufs
    ⟨update x.table n { x.table n with used := false }, bufs⟩
  else x

/-- `dup2`, and `dup3` with flags. -/
def dupOnto (flags : Option ℤ) (x : Fds) (oldfd newfd : ℤ) : ℤ × Fds :=
  match dupSource x.table oldfd, fdIdx newfd with
  | some o, some n =>
    let y := closeTarget x n
    let e := y.table o
    (n.val, y.set n { e with rest := { e.rest with flags := flags.getD e.rest.flags } })
  | _, _ => (-1, x)

def sysDup2 (x : Fds) (oldfd newfd : ℤ) : ℤ × Fds := dupOnto none x oldfd newfd
def sysDup3 (x : Fds) (oldfd newfd flags : ℤ) : ℤ × Fds := dupOnto (some flags) x oldfd newfd

/-! ### Pipes -/

/-- The first pipe that is not in use. -/
def findPipe (b : Bufs) : Option ℕ := (List.range maxPipes).find? fun i => !(b.pipes i).used

/-- The record of an end of pipe `pi`. -/
def pipeEnt (e : FdEnt) (pi : ℕ) (flags wend : ℤ) : FdEnt :=
  { used := true, type := typePipe
    rest := { e.rest with pipeIdx := pi, flags := flags, wend := wend } }

/-- `pipe` and `pipe2`: the two descriptors, or nothing for -1. -/
def pipeWith (flags : ℤ) (x : Fds) (out : Bool) : Option (Fin maxFds × Fin maxFds) × Fds :=
  if out = false then (none, x)
  else
    match findPipe x.bufs, allocFd x.table with
    | some pi, some r =>
      let y := x.set r { x.table r with used := true }
      match allocFd y.table with
      | none => (none, y.set r { y.table r with used := false })
      | some w =>
        (some (r, w), ⟨update (update y.table r (pipeEnt (y.table r) pi flags 0)) w
          (pipeEnt (y.table w) pi flags 1), x.bufs.newPipe pi⟩)
    | _, _ => (none, x)

def sysPipe (x : Fds) (out : Bool) : Option (Fin maxFds × Fin maxFds) × Fds := pipeWith 0 x out
def sysPipe2 (x : Fds) (out : Bool) (flags : ℤ) : Option (Fin maxFds × Fin maxFds) × Fds :=
  pipeWith flags x out

/-! ### Writing, reading and seeking -/

/-- What the file system and the devices answer during one call. -/
structure Answers where
  ext2 : Bool
  size : Option ℕ
  creates : Bool
  writes : Bool
  rewrites : Bool
  file : Option (List UInt8)
  device : ReadResult

/-- The answers of a file system that has no file. -/
def noAnswers : Answers := ⟨false, none, false, false, false, none, .waits⟩

/-- A position, which has 32 bits. -/
def posOf (z : ℤ) : ℕ := (z % 2 ^ 32).toNat

/-- Eight bytes, the lowest first. -/
def le64 (buf : ℕ → UInt8) : ℕ := (List.range 8).foldr (fun i v => (buf i).toNat + 256 * v) 0

/-- The branch of `do_write_fd` for a file, with `vfs_write_at` or with `fat32_write_file`. -/
def writeFile (a : Answers) (x : Fds) (i : Fin maxFds) (count : ℤ) : ℤ × Fds :=
  if a.ext2 = true then
    if a.size = none ∧ a.creates = false then (-1, x)
    else
      let pos := if (x.table i).rest.pos = 0 then a.size.getD 0 else (x.table i).rest.pos
      if a.writes = false then (-1, x.setPos i pos) else (count, x.setPos i (posOf (pos + count)))
  else if a.writes = true ∨ a.creates = true ∧ a.rewrites = true then (count, x)
  else (-1, x)

def doWriteFd (a : Answers) (x : Fds) (fd : ℤ) (buf : ℕ → UInt8) (count : ℤ) : ℤ × Fds :=
  match fdIdx fd with
  | none => (-1, x)
  | some i =>
    let e := x.table i
    if e.used = true ∧ e.type = typePipe then
      let y := writePipe x.bufs e.rest.pipeIdx (nonblock e) buf count
      (y.1, { x with bufs := y.2 })
    else if 3 ≤ i.val ∧ e.used = true then
      if e.type = typeEvent then
        (count, if 8 ≤ count then x.setCounter i ((e.rest.counter + le64 buf) % 2 ^ 64) else x)
      else if e.type = typeSock then
        let s := e.rest.sockIdx
        let peer := if 0 ≤ s ∧ s < maxSocks then (x.bufs.socks s.toNat).peer else -1
        let y := sockPush x.bufs peer buf count
        (y.1, { x with bufs := y.2 })
      else writeFile a x i count
    else if i.val = 1 ∨ i.val = 2 then (count, x)
    else (-1, x)

/-- The bytes of a number, the lowest first. -/
def toLe64 (v : ℕ) : List UInt8 := (List.range 8).map fun i => UInt8.ofNat (v / 256 ^ i)

/-- `SYS_read` of a descriptor from 3 on that is not a pipe. -/
def readOther (a : Answers) (x : Fds) (i : Fin maxFds) (count : ℤ) : ReadResult × Fds :=
  let e := x.table i
  if e.type = fdTty ∨ e.type = fdMice then (a.device, x)
  else if e.type = fdFb then (.done (-1) [], x)
  else if e.type = typeEvent then
    if 8 ≤ count then (.done count (toLe64 e.rest.counter), x.setCounter i 0)
    else (.done count [], x)
  else if e.type = typeTimer then (.done count (if 8 ≤ count then toLe64 1 else []), x)
  else if e.type = typeSock then
    let y := sockPop x.bufs e.rest.sockIdx count
    (y.1, { x with bufs := y.2 })
  else
    match a.file with
    | none => (.done (-1) [], x)
    | some bytes => (.done bytes.length bytes, x.setPos i (posOf (e.rest.pos + bytes.length)))

/-- `SYS_read`, up to where it waits: `alive` is `pipe_writers_alive`. -/
def sysRead (a : Answers) (alive : ℤ → Bool) (x : Fds) (fd count : ℤ) : ReadResult × Fds :=
  match fdIdx fd with
  | none => (.done (-1) [], x)
  | some i =>
    let e := x.table i
    if e.used = true ∧ e.type = typePipe then
      let y := readPipe x.bufs e.rest.pipeIdx (nonblock e) (alive e.rest.pipeIdx) count
      (y.1, { x with bufs := y.2 })
    else if i.val = 0 ∧ 0 < count then (a.device, x)
    else if 3 ≤ i.val ∧ e.used = true then readOther a x i count
    else (.done (-1) [], x)

/-- `readv`, for the descriptors of pipes. -/
def sysReadv (x : Fds) (fd : ℤ) (iov : List (ℕ × ℕ)) : ReadResult × Fds :=
  match fdIdx fd with
  | none => (.done (-1) [], x)
  | some i =>
    let e := x.table i
    if 3 ≤ i.val ∧ e.used = true ∧ e.type = typePipe then
      let y := readvPipe x.bufs e.rest.pipeIdx iov
      (y.1, { x with bufs := y.2 })
    else (.done (-1) [], x)

def sysLseek (a : Answers) (x : Fds) (fd off whence : ℤ) : ℤ × Fds :=
  match fdIdx fd with
  | none => (-1, x)
  | some i =>
    let pos := (x.table i).rest.pos
    if 3 ≤ i.val ∧ (x.table i).used = true then
      if whence = 0 then (posOf off, x.setPos i (posOf off))
      else if whence = 1 then (posOf (pos + off), x.setPos i (posOf (pos + off)))
      else if whence = 2 then
        match a.size with
        | none => (pos, x)
        | some n => (posOf (n + off), x.setPos i (posOf (n + off)))
      else (-1, x)
    else (-1, x)

/-! ### What a call does to the ends of pipes -/

/-- The pipe that a record in use is about, and whether it is the end for writing. -/
def pipeEnd (e : FdEnt) : Option (ℤ × Bool) :=
  if e.used = true ∧ e.type = typePipe then some (e.rest.pipeIdx, decide (e.rest.wend ≠ 0)) else none

/-- A system call on descriptors. -/
inductive Syscall
  | dup (oldfd : ℤ)
  | dup2 (oldfd newfd : ℤ)
  | dup3 (oldfd newfd flags : ℤ)
  | pipe (out : Bool)
  | pipe2 (out : Bool) (flags : ℤ)
  | close (fd : ℤ)
  | open (path : List UInt8)
  | execve
  | write (a : Answers) (fd : ℤ) (buf : ℕ → UInt8) (count : ℤ)
  | read (a : Answers) (fd count : ℤ)
  | readv (fd : ℤ) (iov : List (ℕ × ℕ))
  | lseek (a : Answers) (fd off whence : ℤ)

/-- The state after a call. -/
def Syscall.run (alive : ℤ → Bool) (x : Fds) : Syscall → Fds
  | .dup oldfd => (sysDup x oldfd).2
  | .dup2 oldfd newfd => (sysDup2 x oldfd newfd).2
  | .dup3 oldfd newfd flags => (sysDup3 x oldfd newfd flags).2
  | .pipe out => (sysPipe x out).2
  | .pipe2 out flags => (sysPipe2 x out flags).2
  | .close fd => closeFd x fd
  | .open path => (sysOpen x path).2
  | .execve => closeAll x
  | .write a fd buf count => (doWriteFd a x fd buf count).2
  | .read a fd count => (sysRead a alive x fd count).2
  | .readv fd iov => (sysReadv x fd iov).2
  | .lseek a fd off whence => (sysLseek a x fd off whence).2

/-- What a call does to the records of pipes. -/
inductive Effect
  | keep
  /-- The record of `o` is copied to `n`. -/
  | copy (o n : Fin maxFds)
  /-- Pipe `pi` gets the ends `r` and `w`. -/
  | make (pi : ℕ) (r w : Fin maxFds)
  | drop (fds : Fin maxFds → Bool)
  /-- A file is opened in record `n`. -/
  | take (n : Fin maxFds) (path : List UInt8)

/-- The copy that `dup` makes. -/
def copyNew (t : FdTable) (oldfd : ℤ) : Effect :=
  match dupSource t oldfd, allocFd t with
  | some o, some n => .copy o n
  | _, _ => .keep

/-- The copy that `dup2` or `dup3` makes. -/
def copyOnto (t : FdTable) (oldfd newfd : ℤ) : Effect :=
  match dupSource t oldfd, fdIdx newfd with
  | some o, some n => .copy o n
  | _, _ => .keep

/-- The pipe that `pipe` or `pipe2` makes. -/
def makePipe (x : Fds) (out : Bool) : Effect :=
  match findPipe x.bufs, (pipeWith 0 x out).1 with
  | some pi, some (r, w) => .make pi r w
  | _, _ => .keep

/-- The record that `SYS_open` takes, unless the path is that of the console. -/
def takeFile (t : FdTable) (path : List UInt8) : Effect :=
  if path = asBytes "/dev/tty" ∨ path = asBytes "/dev/stdin" ∨ path = asBytes "/dev/stdout" ∨
    path = asBytes "/dev/stderr" then .keep
  else (allocFd t).elim .keep fun n => .take n path

def Syscall.effect (x : Fds) : Syscall → Effect
  | .dup oldfd => copyNew x.table oldfd
  | .dup2 oldfd newfd => copyOnto x.table oldfd newfd
  | .dup3 oldfd newfd _ => copyOnto x.table oldfd newfd
  | .pipe out => makePipe x out
  | .pipe2 out _ => makePipe x out
  | .close fd => .drop fun i => decide (3 ≤ i.val ∧ fd = i.val)
  | .execve => .drop fun i => decide (3 ≤ i.val)
  | .open path => takeFile x.table path
  | _ => .keep

namespace Effect

/-- The pipes that records are about, after the call. -/
def ends (t : FdTable) : Effect → Fin maxFds → Option (ℤ × Bool)
  | .keep => fun i => pipeEnd (t i)
  | .copy o n => update (fun i => pipeEnd (t i)) n
      (if o = n ∧ 3 ≤ n.val then none else pipeEnd (t o))
  | .make pi r w => update (update (fun i => pipeEnd (t i)) r
      (some ((pi : ℤ), false))) w (some ((pi : ℤ), true))
  | .drop fds => fun i => if fds i = true then none else pipeEnd (t i)
  | .take n path => update (fun i => pipeEnd (t i)) n (pipeEnd (openEnt (t n) path))

/-- The pipes that are marked as unused: the one whose end a copy replaces. -/
def Frees (t : FdTable) (q : ℕ) : Effect → Prop
  | .copy _ n => 3 ≤ n.val ∧ q < maxPipes ∧ ∃ w, pipeEnd (t n) = some ((q : ℤ), w)
  | _ => False

/-- The pipe that is marked as used. -/
def Makes (q : ℕ) : Effect → Prop
  | .make pi _ _ => pi = q
  | _ => False

end Effect

section Lemmas

theorem fdIdx_some (h : fdIdx fd = some i) : fd = i.val := by
  unfold fdIdx at h
  split at h
  · next hfd =>
    cases h
    exact (Int.toNat_of_nonneg hfd.1).symm
  · cases h

theorem fdIdx_coe (i : Fin maxFds) : fdIdx i.val = some i := by
  have hi : (0 : ℤ) ≤ i.val ∧ (i.val : ℤ) < maxFds := ⟨Int.natCast_nonneg _, by exact_mod_cast i.isLt⟩
  rw [fdIdx, dif_pos hi]
  rfl

theorem allocFd_some (h : allocFd t = some n) :
    3 ≤ n.val ∧ (t n).used = false := by
  have hf := find?_some h
  simpa using hf

theorem dupSource_some {o : Fin maxFds} (h : dupSource t fd = some o) :
    fd = o.val ∧ (3 ≤ o.val → (t o).used) := by
  obtain ⟨hi, ho⟩ := filter_eq_some_iff.mp h
  refine ⟨fdIdx_some hi, fun h3 => ?_⟩
  rw [Bool.or_eq_true, decide_eq_true_eq] at ho
  exact ho.resolve_right (by omega)

theorem findPipe_some {b : Bufs} (h : findPipe b = some pi) :
    pi < maxPipes ∧ (b.pipes pi).used = false := by
  refine ⟨mem_range.mp (mem_of_find?_eq_some h), ?_⟩
  have hf := find?_some h
  simpa using hf

theorem pipeEnd_of_not_used (h : e.used = false) : pipeEnd e = none := by
  rw [pipeEnd, if_neg]
  rintro ⟨hu, -⟩
  rw [h] at hu
  exact Bool.false_ne_true hu

theorem pipeEnd_eq_some {v : ℤ × Bool} (h : pipeEnd e = some v) :
    e.used ∧ e.type = typePipe ∧ e.rest.pipeIdx = v.1 := by
  unfold pipeEnd at h
  split at h
  · next hp => exact ⟨hp.1, hp.2, congrArg Prod.fst (Option.some.inj h)⟩
  · cases h

theorem pipeEnd_congr {e' : FdEnt} (hu : e'.used = e.used) (ht : e'.type = e.type)
    (hp : e'.rest.pipeIdx = e.rest.pipeIdx) (hw : e'.rest.wend = e.rest.wend) :
    pipeEnd e' = pipeEnd e := by
  rw [pipeEnd, pipeEnd, hu, ht, hp, hw]

theorem pipeEnd_update (j : Fin maxFds) :
    pipeEnd (update t i e j) =
      update (fun k => pipeEnd (t k)) i (pipeEnd e) j := by
  by_cases h : j = i
  · subst h
    rw [update_self, update_self]
  · rw [update_of_ne h, update_of_ne h]

/-- The records of pipes and the pipes are as they were: only positions, counters and sockets have
changed. -/
structure Kept (x y : Fds) : Prop where
  ends : ∀ i, pipeEnd (y.table i) = pipeEnd (x.table i)
  pipes : y.bufs.pipes = x.bufs.pipes

namespace Kept

theorem refl (x : Fds) : Kept x x := ⟨fun _ => rfl, rfl⟩

theorem set {x : Fds} (h : pipeEnd e = pipeEnd (x.table i)) :
    Kept x (x.set i e) := by
  refine ⟨fun j => ?_, rfl⟩
  rw [Fds.set_table, pipeEnd_update, h, update_eq_self_iff.mpr rfl]

theorem setPos (x : Fds) (i : Fin maxFds) (pos : ℕ) : Kept x (x.setPos i pos) :=
  .set (pipeEnd_congr rfl rfl rfl rfl)

theorem setCounter (x : Fds) (i : Fin maxFds) (c : ℕ) : Kept x (x.setCounter i c) :=
  .set (pipeEnd_congr rfl rfl rfl rfl)

end Kept

theorem pipeWith_cases (flags : ℤ) (x : Fds) (out : Bool) :
    (pipeWith flags x out = (none, x)) ∨
    ∃ pi r w, findPipe x.bufs = some pi ∧ r ≠ w ∧ 3 ≤ r.val ∧ 3 ≤ w.val ∧
      (x.table r).used = false ∧ (x.table w).used = false ∧ allocFd x.table = some r ∧
      pipeWith flags x out = (some (r, w), ⟨update (update x.table r
        (pipeEnt (x.table r) pi flags 0)) w (pipeEnt (x.table w) pi flags 1), x.bufs.newPipe pi⟩) := by
  unfold pipeWith
  split
  · exact .inl rfl
  split
  · next pi r hpi hr =>
    obtain ⟨hr3, hru⟩ := allocFd_some hr
    dsimp only
    split
    · -- the first record is given back
      left
      refine Prod.ext rfl ?_
      have he : ({ x.table r with used := false } : FdEnt) = x.table r := by rw [← hru]
      simp only [Fds.set, update_self, update_idem, he,
        update_eq_self]
    next w hw =>
    obtain ⟨hw3, hwu⟩ := allocFd_some hw
    have hne : w ≠ r := by
      rintro rfl
      rw [Fds.set_table, update_self] at hwu
      exact Bool.false_ne_true hwu.symm
    rw [Fds.set_table, update_of_ne hne] at hwu
    refine .inr ⟨pi, r, w, hpi, hne.symm, hr3, hw3, hru, hwu, hr, ?_⟩
    simp only [Fds.set_table, update_self, update_idem,
      update_of_ne hne, pipeEnt]
  · exact .inl rfl

theorem pipeWith_fst (flags : ℤ) (x : Fds) (out : Bool) :
    (pipeWith flags x out).1 = (pipeWith 0 x out).1 := by
  unfold pipeWith
  split
  · rfl
  split
  · dsimp only
    split <;> rfl
  · rfl

end Lemmas

/-! #### The calls, one by one -/

/-- **What a call has done** to the records of pipes and to the pipes in use. -/
structure Does (x y : Fds) (e : Effect) : Prop where
  ends : ∀ i, pipeEnd (y.table i) = e.ends x.table i
  used : ∀ q, (y.bufs.pipes q).used = true ↔
    e.Makes q ∨ (x.bufs.pipes q).used = true ∧ ¬ e.Frees x.table q

section Calls

variable (x : Fds)

/-- An effect that neither makes nor frees a pipe. -/
theorem Does.of_used {x : Fds} {e : Effect} (he : ∀ i, pipeEnd (y.table i) = e.ends x.table i)
    (hm : ∀ q, ¬ e.Makes q ∧ ¬ e.Frees x.table q)
    (hu : ∀ q, (y.bufs.pipes q).used = (x.bufs.pipes q).used) : Does x y e := by
  refine ⟨he, fun q => ?_⟩
  rw [hu, or_iff_right (hm q).1]
  exact (and_iff_left (hm q).2).symm

theorem Does.keep {x : Fds} (he : ∀ i, pipeEnd (y.table i) = pipeEnd (x.table i))
    (hu : ∀ q, (y.bufs.pipes q).used = (x.bufs.pipes q).used) : Does x y .keep :=
  .of_used he (fun _ => ⟨not_false, not_false⟩) hu

theorem Kept.does {x : Fds} (h : Kept x y) : Does x y .keep := .keep h.ends fun q => by rw [h.pipes]

theorem closeTarget_other {j : Fin maxFds} (h : j ≠ n) : (closeTarget x n).table j = x.table j := by
  unfold closeTarget
  split
  · exact update_of_ne h _ _
  · rfl

/-- The pipe of a target in use is marked as unused. -/
theorem closeTarget_used (o n : Fin maxFds) (q : ℕ) :
    ((closeTarget x n).bufs.pipes q).used = true ↔
      (x.bufs.pipes q).used ∧ ¬ (Effect.copy o n).Frees x.table q := by
  dsimp only [Effect.Frees]
  unfold closeTarget
  by_cases hu : 3 ≤ n.val ∧ (x.table n).used
  · rw [if_pos hu]
    dsimp only
    by_cases hp : (x.table n).type = typePipe ∧ 0 ≤ (x.table n).rest.pipeIdx ∧
        (x.table n).rest.pipeIdx < maxPipes
    · have hend : pipeEnd (x.table n) = some ((x.table n).rest.pipeIdx,
          decide ((x.table n).rest.wend ≠ 0)) := if_pos ⟨hu.2, hp.1⟩
      rw [if_pos hp, freePipe_pipes, hend]
      by_cases hq : q = (x.table n).rest.pipeIdx.toNat
      · rw [hq, update_self]
        refine ⟨fun h => absurd h Bool.false_ne_true, fun h => absurd ?_ h.2⟩
        refine ⟨hu.1, by omega, decide ((x.table n).rest.wend ≠ 0), ?_⟩
        rw [Int.toNat_of_nonneg hp.2.1]
      rw [update_of_ne hq]
      refine (and_iff_left ?_).symm
      rintro ⟨-, -, w, hw⟩
      have := congrArg Prod.fst (Option.some.inj hw)
      dsimp only at this
      omega
    · rw [if_neg hp]
      refine (and_iff_left ?_).symm
      rintro ⟨-, hlt, w, hw⟩
      obtain ⟨-, ht, hidx⟩ := pipeEnd_eq_some hw
      dsimp only at hidx
      exact hp ⟨ht, by omega, by omega⟩
  · rw [if_neg hu]
    refine (and_iff_left ?_).symm
    rintro ⟨h3, -, w, hw⟩
    exact hu ⟨h3, (pipeEnd_eq_some hw).1⟩

/-- `dup2` and `dup3` close a target in use and copy. -/
theorem dupOnto_does (flags : Option ℤ) (oldfd newfd : ℤ) :
    Does x (dupOnto flags x oldfd newfd).2 (copyOnto x.table oldfd newfd) := by
  unfold dupOnto copyOnto
  cases ho : dupSource x.table oldfd with
  | none => exact (Kept.refl x).does
  | some o =>
    cases hn : fdIdx newfd with
    | none => exact (Kept.refl x).does
    | some n =>
      obtain ⟨-, hused⟩ := dupSource_some ho
      refine ⟨fun i => ?_, fun q => (closeTarget_used x o n q).trans (or_iff_right not_false).symm⟩
      dsimp only [Effect.ends]
      rw [Fds.set_table, pipeEnd_update]
      by_cases hi : i = n
      · subst hi
        rw [update_self, update_self]
        refine (pipeEnd_congr (e := (closeTarget x i).table o) rfl rfl rfl rfl).trans ?_
        by_cases hself : o = i
        · subst hself
          by_cases h3 : 3 ≤ o.val
          · rw [if_pos ⟨rfl, h3⟩, closeTarget, if_pos ⟨h3, hused h3⟩]
            dsimp only
            rw [update_self]
            exact pipeEnd_of_not_used rfl
          · rw [if_neg (fun h => h3 h.2), closeTarget, if_neg (fun h => h3 h.1)]
        · rw [if_neg (fun h => hself h.1), closeTarget_other x hself]
      · rw [update_of_ne hi, update_of_ne hi, closeTarget_other x hi]

theorem sysDup_does (oldfd : ℤ) : Does x (sysDup x oldfd).2 (copyNew x.table oldfd) := by
  unfold sysDup copyNew
  cases ho : dupSource x.table oldfd with
  | none => exact (Kept.refl x).does
  | some o =>
    cases hn : allocFd x.table with
    | none => exact (Kept.refl x).does
    | some n =>
      have hfree := (allocFd_some hn).2
      refine .of_used (fun i => ?_) (fun q => ⟨not_false, ?_⟩) fun _ => rfl
      · have hne : ¬ (o = n ∧ 3 ≤ n.val) := by
          rintro ⟨rfl, h3⟩
          exact Bool.false_ne_true (hfree.symm.trans ((dupSource_some ho).2 h3))
        dsimp only [Effect.ends]
        rw [Fds.set_table, pipeEnd_update, if_neg hne]
      · rintro ⟨-, -, w, hw⟩
        exact Bool.false_ne_true (hfree.symm.trans (pipeEnd_eq_some hw).1)

theorem pipeWith_does (flags : ℤ) (out : Bool) : Does x (pipeWith flags x out).2 (makePipe x out) := by
  unfold makePipe
  rw [← pipeWith_fst flags]
  rcases pipeWith_cases flags x out with h | ⟨pi, r, w, hpi, -, -, -, -, -, -, h⟩
  · rw [h]
    cases findPipe x.bufs <;> exact (Kept.refl x).does
  rw [h, hpi]
  refine ⟨fun i => ?_, fun q => ?_⟩
  · rw [pipeEnd_update]
    congr 1
    funext k
    rw [pipeEnd_update]
    rfl
  · dsimp only [Effect.Makes, Effect.Frees]
    rw [newPipe_pipes, and_iff_left not_false]
    by_cases hq : q = pi
    · rw [hq, update_self]
      exact ⟨fun _ => .inl rfl, fun _ => rfl⟩
    · rw [update_of_ne hq]
      exact (or_iff_right (Ne.symm hq)).symm

theorem closeFd_pipes (fd : ℤ) : (closeFd x fd).bufs.pipes = x.bufs.pipes := by
  unfold closeFd
  split
  · rfl
  split
  · dsimp only
    split <;> rfl
  · rfl

theorem closeFd_does (fd : ℤ) : Does x (closeFd x fd) ((Syscall.close fd).effect x) := by
  refine .of_used (fun i => ?_) (fun _ => ⟨not_false, not_false⟩) fun q => by rw [closeFd_pipes]
  dsimp only [Syscall.effect, Effect.ends]
  unfold closeFd
  cases hfd : fdIdx fd with
  | none =>
    have hne : fd ≠ i.val := by
      rintro rfl
      rw [fdIdx_coe] at hfd
      exact some_ne_none _ hfd
    rw [if_neg (fun h => hne (of_decide_eq_true h).2)]
  | some j =>
    dsimp only
    have hj := fdIdx_some hfd
    by_cases hu : 3 ≤ j.val ∧ (x.table j).used
    · rw [if_pos hu]
      dsimp only
      rw [pipeEnd_update]
      by_cases hi : i = j
      · subst hi
        rw [update_self, if_pos (decide_eq_true ⟨hu.1, hj⟩)]
        exact pipeEnd_of_not_used rfl
      rw [update_of_ne hi, if_neg]
      intro h
      obtain ⟨-, h⟩ := of_decide_eq_true h
      exact hi (Fin.ext (by omega))
    · rw [if_neg hu]
      split
      · next h =>
        obtain ⟨h3, h⟩ := of_decide_eq_true h
        obtain rfl : i = j := Fin.ext (by omega)
        exact pipeEnd_of_not_used (Bool.eq_false_iff.mpr fun h' => hu ⟨h3, h'⟩)
      · rfl

theorem closeAll_does : Does x (closeAll x) (Syscall.execve.effect x) := by
  refine .of_used (fun i => ?_) (fun _ => ⟨not_false, not_false⟩) fun _ => rfl
  dsimp only [Syscall.effect, Effect.ends, closeAll]
  by_cases h3 : 3 ≤ i.val
  · rw [if_pos h3, if_pos (decide_eq_true h3)]
    exact pipeEnd_of_not_used rfl
  · rw [if_neg h3, if_neg (fun h => h3 (of_decide_eq_true h))]

theorem sysOpen_cases (path : List UInt8) :
    (sysOpen x path).2 = x ∧ takeFile x.table path = .keep ∨
    ∃ n, allocFd x.table = some n ∧ (sysOpen x path).2 = x.set n (openEnt (x.table n) path) ∧
      takeFile x.table path = .take n path := by
  unfold sysOpen takeFile
  by_cases h1 : path = asBytes "/dev/tty" ∨ path = asBytes "/dev/stdin"
  · rw [if_pos h1, if_pos (h1.imp_right .inl)]
    exact .inl ⟨rfl, rfl⟩
  rw [if_neg h1]
  by_cases h2 : path = asBytes "/dev/stdout"
  · rw [if_pos h2, if_pos (.inr (.inr (.inl h2)))]
    exact .inl ⟨rfl, rfl⟩
  rw [if_neg h2]
  by_cases h3 : path = asBytes "/dev/stderr"
  · rw [if_pos h3, if_pos (.inr (.inr (.inr h3)))]
    exact .inl ⟨rfl, rfl⟩
  have hnone : ¬ (path = asBytes "/dev/tty" ∨ path = asBytes "/dev/stdin" ∨
      path = asBytes "/dev/stdout" ∨ path = asBytes "/dev/stderr") := by
    rintro (h | h | h | h)
    exacts [h1 (.inl h), h1 (.inr h), h2 h, h3 h]
  rw [if_neg h3, if_neg hnone]
  cases allocFd x.table with
  | none => exact .inl ⟨rfl, rfl⟩
  | some n => exact .inr ⟨n, rfl, rfl, rfl⟩

theorem sysOpen_bufs (path : List UInt8) : (sysOpen x path).2.bufs = x.bufs := by
  rcases sysOpen_cases x path with ⟨h, -⟩ | ⟨n, -, h, -⟩ <;> rw [h]
  rfl

theorem sysOpen_does (path : List UInt8) : Does x (sysOpen x path).2 (takeFile x.table path) := by
  rcases sysOpen_cases x path with ⟨h, he⟩ | ⟨n, -, h, he⟩
  · rw [h, he]
    exact (Kept.refl x).does
  rw [h, he]
  refine .of_used (fun i => ?_) (fun _ => ⟨not_false, not_false⟩) fun _ => rfl
  dsimp only [Effect.ends]
  rw [Fds.set_table, pipeEnd_update]

theorem writeFile_kept (a : Answers) (j : Fin maxFds) (count : ℤ) :
    Kept x (writeFile a x j count).2 := by
  unfold writeFile
  split
  · split
    · exact .refl x
    · dsimp only
      split <;> exact .setPos _ _ _
  · split <;> exact .refl x

theorem sysLseek_kept (a : Answers) (fd off whence : ℤ) :
    Kept x (sysLseek a x fd off whence).2 := by
  unfold sysLseek
  split
  · exact .refl x
  split
  · split
    · exact .setPos _ _ _
    split
    · exact .setPos _ _ _
    split
    · split
      · exact .refl x
      · exact .setPos _ _ _
    · exact .refl x
  · exact .refl x

theorem sockPush_pipes (x : Bufs) (s : ℤ) (buf : ℕ → UInt8) (count : ℤ) :
    (sockPush x s buf count).2.pipes = x.pipes := by
  unfold sockPush
  split
  · rfl
  · split <;> rfl

theorem sockPop_pipes (x : Bufs) (s : ℤ) (count : ℤ) : (sockPop x s count).2.pipes = x.pipes := by
  unfold sockPop
  split
  · rfl
  · dsimp only
    split <;> rfl

theorem readOther_kept (a : Answers) (j : Fin maxFds) (count : ℤ) :
    Kept x (readOther a x j count).2 := by
  unfold readOther
  dsimp only
  split
  · exact .refl x
  split
  · exact .refl x
  split
  · split
    · exact .setCounter _ _ _
    · exact .refl x
  split
  · exact .refl x
  split
  · exact ⟨fun _ => rfl, sockPop_pipes _ _ _⟩
  · split
    · exact .refl x
    · exact .setPos _ _ _

theorem doWriteFd_cases (a : Answers) (fd : ℤ) (buf : ℕ → UInt8) (count : ℤ) :
    (∃ i, fdIdx fd = some i ∧ (x.table i).used ∧ (x.table i).type = typePipe ∧
      (doWriteFd a x fd buf count).2 = ⟨x.table, (writePipe x.bufs (x.table i).rest.pipeIdx
        (nonblock (x.table i)) buf count).2⟩) ∨
    ((∀ i, fdIdx fd = some i → pipeEnd (x.table i) = none) ∧
      Kept x (doWriteFd a x fd buf count).2) := by
  unfold doWriteFd
  cases hi : fdIdx fd with
  | none => exact .inr ⟨fun i h => absurd h.symm (some_ne_none i), .refl x⟩
  | some i =>
    dsimp only
    by_cases hp : (x.table i).used ∧ (x.table i).type = typePipe
    · rw [if_pos hp]
      exact .inl ⟨i, rfl, hp.1, hp.2, rfl⟩
    rw [if_neg hp]
    refine .inr ⟨fun j hj => ?_, ?_⟩
    · cases hj
      exact if_neg hp
    split
    · split
      · split
        · exact .setCounter _ _ _
        · exact .refl x
      · split
        · exact ⟨fun _ => rfl, sockPush_pipes _ _ _ _⟩
        · exact writeFile_kept _ _ _ _
    · split <;> exact .refl x

theorem sysRead_cases (a : Answers) (alive : ℤ → Bool) (fd count : ℤ) :
    (∃ i, fdIdx fd = some i ∧ (x.table i).used ∧ (x.table i).type = typePipe ∧
      sysRead a alive x fd count =
        ((readPipe x.bufs (x.table i).rest.pipeIdx (nonblock (x.table i))
          (alive (x.table i).rest.pipeIdx) count).1,
        ⟨x.table, (readPipe x.bufs (x.table i).rest.pipeIdx (nonblock (x.table i))
          (alive (x.table i).rest.pipeIdx) count).2⟩)) ∨
    ((∀ i, fdIdx fd = some i → pipeEnd (x.table i) = none) ∧
      Kept x (sysRead a alive x fd count).2) := by
  unfold sysRead
  cases hi : fdIdx fd with
  | none => exact .inr ⟨fun i h => absurd h.symm (some_ne_none i), .refl x⟩
  | some i =>
    dsimp only
    by_cases hp : (x.table i).used ∧ (x.table i).type = typePipe
    · rw [if_pos hp]
      exact .inl ⟨i, rfl, hp.1, hp.2, rfl⟩
    rw [if_neg hp]
    refine .inr ⟨fun j hj => ?_, ?_⟩
    · cases hj
      exact if_neg hp
    · split
      · exact .refl x
      · split
        · exact readOther_kept _ _ _ _
        · exact .refl x

theorem sysReadv_pipes (fd : ℤ) (iov : List (ℕ × ℕ)) :
    (∃ i, fdIdx fd = some i ∧ (x.table i).used ∧ (x.table i).type = typePipe ∧
      sysReadv x fd iov = ((readvPipe x.bufs (x.table i).rest.pipeIdx iov).1,
        ⟨x.table, (readvPipe x.bufs (x.table i).rest.pipeIdx iov).2⟩)) ∨
    sysReadv x fd iov = (.done (-1) [], x) := by
  unfold sysReadv
  cases hi : fdIdx fd with
  | none => exact .inr rfl
  | some i =>
    dsimp only
    by_cases hp : 3 ≤ i.val ∧ (x.table i).used ∧ (x.table i).type = typePipe
    · rw [if_pos hp]
      exact .inl ⟨i, rfl, hp.2.1, hp.2.2, rfl⟩
    · rw [if_neg hp]
      exact .inr rfl

end Calls

/-! #### The pipes in use -/

theorem writePipe_used (x : Bufs) (p : ℤ) (nb : Bool) (buf : ℕ → UInt8) (count : ℤ) (q : ℕ) :
    ((writePipe x p nb buf count).2.pipes q).used = (x.pipes q).used := by
  unfold writePipe
  split
  · rfl
  · split
    · rfl
    · exact used_setPipe _ _ _ _

theorem readPipe_used (x : Bufs) (p : ℤ) (nb alive : Bool) (count : ℤ) (q : ℕ) :
    ((readPipe x p nb alive count).2.pipes q).used = (x.pipes q).used := by
  rcases readPipe_cases x p nb alive count with ⟨res, -, h⟩ | h
  · rw [h]
  · rw [h]
    exact used_setPipe _ _ _ _

theorem readvPipe_used (x : Bufs) (p : ℤ) (iov : List (ℕ × ℕ)) (q : ℕ) :
    ((readvPipe x p iov).2.pipes q).used = (x.pipes q).used := by
  unfold readvPipe
  split
  · rfl
  · split
    · rfl
    · exact used_setPipe _ _ _ _

/-- **What a system call does** to the records of pipes and to the pipes in use. -/
theorem Syscall.does (alive : ℤ → Bool) (x : Fds) (s : Syscall) :
    Does x (s.run alive x) (s.effect x) := by
  cases s with
  | dup oldfd => exact sysDup_does x oldfd
  | dup2 oldfd newfd => exact dupOnto_does x none oldfd newfd
  | dup3 oldfd newfd flags => exact dupOnto_does x (some flags) oldfd newfd
  | pipe out => exact pipeWith_does x 0 out
  | pipe2 out flags => exact pipeWith_does x flags out
  | close fd => exact closeFd_does x fd
  | «open» path => exact sysOpen_does x path
  | execve => exact closeAll_does x
  | write a fd buf count =>
    rcases doWriteFd_cases x a fd buf count with ⟨i, -, -, -, h⟩ | ⟨-, h⟩
    · rw [Syscall.run, h]
      exact .keep (fun _ => rfl) fun q => writePipe_used _ _ _ _ _ q
    · exact h.does
  | read a fd count =>
    rcases sysRead_cases x a alive fd count with ⟨i, -, -, -, h⟩ | ⟨-, h⟩
    · rw [Syscall.run, h]
      exact .keep (fun _ => rfl) fun q => readPipe_used _ _ _ _ _ q
    · exact h.does
  | readv fd iov =>
    rcases sysReadv_pipes x fd iov with ⟨i, -, -, -, h⟩ | h
    · rw [Syscall.run, h]
      exact .keep (fun _ => rfl) fun q => readvPipe_used _ _ _ q
    · rw [Syscall.run, h]
      exact (Kept.refl x).does
  | lseek a fd off whence => exact (sysLseek_kept x a fd off whence).does

/-- The calls that make a pipe, and those that open a file. -/
theorem Syscall.effect_cases (x : Fds) (s : Syscall) :
    (∃ out, s.effect x = makePipe x out) ∨ (∃ path, s.effect x = takeFile x.table path) ∨
      (∀ pi r w, s.effect x ≠ .make pi r w) ∧ ∀ n path, s.effect x ≠ .take n path := by
  have hcopy : ∀ {a b : Option (Fin maxFds)} {e : Effect},
      e = (match a, b with | some o, some n => Effect.copy o n | _, _ => .keep) →
      (∀ pi r w, e ≠ .make pi r w) ∧ ∀ n path, e ≠ .take n path := by
    rintro a b e rfl
    split
    · exact ⟨fun _ _ _ => Effect.noConfusion, fun _ _ => Effect.noConfusion⟩
    · exact ⟨fun _ _ _ => Effect.noConfusion, fun _ _ => Effect.noConfusion⟩
  cases s with
  | dup oldfd => exact .inr (.inr (hcopy rfl))
  | dup2 oldfd newfd => exact .inr (.inr (hcopy rfl))
  | dup3 oldfd newfd flags => exact .inr (.inr (hcopy rfl))
  | pipe out => exact .inl ⟨out, rfl⟩
  | pipe2 out flags => exact .inl ⟨out, rfl⟩
  | «open» path => exact .inr (.inl ⟨path, rfl⟩)
  | _ => exact .inr (.inr ⟨fun _ _ _ => Effect.noConfusion, fun _ _ => Effect.noConfusion⟩)

theorem makePipe_cases (x : Fds) (out : Bool) : makePipe x out = .keep ∨
    ∃ pi r w, makePipe x out = .make pi r w ∧ findPipe x.bufs = some pi ∧
      pipeEnd (x.table r) = none ∧ pipeEnd (x.table w) = none := by
  unfold makePipe
  rcases pipeWith_cases 0 x out with hf | ⟨pi, r, w, hpi, -, -, -, hru, hwu, -, hf⟩
  · rw [hf]
    cases findPipe x.bufs <;> exact .inl rfl
  · rw [hf, hpi]
    exact .inr ⟨pi, r, w, rfl, rfl, pipeEnd_of_not_used hru, pipeEnd_of_not_used hwu⟩

theorem Syscall.effect_make {x : Fds} {r w : Fin maxFds} (h : s.effect x = .make pi r w) :
    findPipe x.bufs = some pi ∧
      pipeEnd (x.table r) = none ∧ pipeEnd (x.table w) = none := by
  rcases s.effect_cases x with ⟨out, he⟩ | ⟨path, he⟩ | ⟨he, -⟩
  · rw [he] at h
    rcases makePipe_cases x out with hm | ⟨pi', r', w', hm, hf⟩
    · cases hm.symm.trans h
    · obtain ⟨rfl, rfl, rfl⟩ := Effect.make.inj (hm.symm.trans h)
      exact hf
  · rw [he] at h
    rcases sysOpen_cases x path with ⟨-, ht⟩ | ⟨n, -, -, ht⟩
    · cases ht.symm.trans h
    · cases ht.symm.trans h
  · exact absurd h (he pi r w)

theorem Syscall.effect_take {x : Fds} {path : List UInt8} (h : s.effect x = .take n path) :
    pipeEnd (x.table n) = none := by
  rcases s.effect_cases x with ⟨out, he⟩ | ⟨path', he⟩ | ⟨-, he⟩
  · rw [he] at h
    rcases makePipe_cases x out with hm | ⟨pi, r, w, hm, -⟩
    · cases hm.symm.trans h
    · cases hm.symm.trans h
  · rw [he] at h
    rcases sysOpen_cases x path' with ⟨-, ht⟩ | ⟨m, ha, -, ht⟩
    · cases ht.symm.trans h
    · obtain ⟨rfl, -⟩ := Effect.take.inj (ht.symm.trans h)
      exact pipeEnd_of_not_used (allocFd_some ha).2
  · exact absurd h (he n path)

/-! #### The buffers -/

/-- The calls that neither write nor read. -/
def Syscall.quiet : Syscall → Bool
  | .write _ _ _ _ | .read _ _ _ | .readv _ _ => false
  | _ => true

theorem dupOnto_ring (flags : Option ℤ) (x : Fds) (oldfd newfd : ℤ) (q : ℕ) :
    ((dupOnto flags x oldfd newfd).2.bufs.pipes q).ring = (x.bufs.pipes q).ring := by
  unfold dupOnto
  split
  · next n _ _ =>
    rw [Fds.set_bufs, closeTarget]
    split
    · dsimp only
      split
      · rw [freePipe_pipes]
        by_cases hq : q = (x.table n).rest.pipeIdx.toNat
        · rw [hq, update_self]
        · rw [update_of_ne hq]
      · rfl
    · rfl
  · rfl

theorem pipeWith_ring (flags : ℤ) (x : Fds) (out : Bool) (q : ℕ) :
    ((makePipe x out).Makes q →
      ((pipeWith flags x out).2.bufs.pipes q).ring = ⟨fun _ => 0, 0, 0⟩) ∧
    (¬ (makePipe x out).Makes q →
      ((pipeWith flags x out).2.bufs.pipes q).ring = (x.bufs.pipes q).ring) := by
  unfold makePipe
  rw [← pipeWith_fst flags]
  rcases pipeWith_cases flags x out with h | ⟨pi, r, w, hpi, -, -, -, -, -, -, h⟩
  · rw [h]
    refine ⟨fun hm => ?_, fun _ => rfl⟩
    cases hp : findPipe x.bufs with
    | none => rw [hp] at hm; exact hm.elim
    | some pi => rw [hp] at hm; exact hm.elim
  rw [h, hpi]
  rw [newPipe_pipes]
  refine ⟨?_, fun hne => ?_⟩
  · rintro rfl
    rw [update_self]
  · rw [update_of_ne (Ne.symm hne)]

/-- **A quiet call leaves the buffers**, except that of a pipe it makes. -/
theorem Syscall.ring (alive : ℤ → Bool) (x : Fds) (s : Syscall) (h : s.quiet) (q : ℕ) :
    ((s.effect x).Makes q → ((s.run alive x).bufs.pipes q).ring = ⟨fun _ => 0, 0, 0⟩) ∧
    (¬ (s.effect x).Makes q →
      ((s.run alive x).bufs.pipes q).ring = (x.bufs.pipes q).ring) := by
  have hcopy : ∀ {e : Effect} {r : RingBuf UInt8}, ¬ e.Makes q → r = (x.bufs.pipes q).ring →
      (e.Makes q → r = ⟨fun _ => 0, 0, 0⟩) ∧ (¬ e.Makes q → r = (x.bufs.pipes q).ring) :=
    fun hm hr => ⟨fun hm' => absurd hm' hm, fun _ => hr⟩
  cases s with
  | dup oldfd =>
    refine hcopy (e := copyNew x.table oldfd) ?_ ?_
    · unfold copyNew
      split <;> exact not_false
    · rw [Syscall.run, sysDup]
      split <;> rfl
  | dup2 oldfd newfd =>
    refine hcopy (e := copyOnto x.table oldfd newfd) ?_ (dupOnto_ring none x oldfd newfd q)
    unfold copyOnto
    split <;> exact not_false
  | dup3 oldfd newfd flags =>
    refine hcopy (e := copyOnto x.table oldfd newfd) ?_ (dupOnto_ring (some flags) x oldfd newfd q)
    unfold copyOnto
    split <;> exact not_false
  | pipe out => exact pipeWith_ring 0 x out q
  | pipe2 out flags => exact pipeWith_ring flags x out q
  | close fd =>
    refine hcopy (e := (Syscall.close fd).effect x) not_false ?_
    rw [Syscall.run, closeFd_pipes]
  | «open» path =>
    refine hcopy (e := takeFile x.table path) ?_ ?_
    · unfold takeFile
      split
      · exact not_false
      · cases allocFd x.table <;> exact not_false
    · rw [Syscall.run, sysOpen_bufs]
  | execve => exact hcopy (e := Syscall.execve.effect x) not_false rfl
  | lseek a fd off whence =>
    refine hcopy (e := (Syscall.lseek a fd off whence).effect x) not_false ?_
    rw [Syscall.run, (sysLseek_kept x a fd off whence).pipes]
  | _ => cases h

theorem writePipe_ring {x : Bufs} {p : ℤ} (hok : x.pipeOk p) (nb : Bool) (buf : ℕ → UInt8)
    (count : ℤ) (q : ℕ) : ((writePipe x p nb buf count).2.pipes q).ring =
      if q = p.toNat then (fillRing (x.pipes p.toNat).ring buf count).2 else (x.pipes q).ring := by
  have hok' : ¬ x.pipeOk p = false := by rw [hok]; exact Bool.false_ne_true.symm
  rw [writePipe, if_neg hok']
  by_cases hfull : bufSize ≤ (x.pipes p.toNat).ring.count posCount
  · rw [if_pos hfull]
    have hsame : (fillRing (x.pipes p.toNat).ring buf count).2 = (x.pipes p.toNat).ring := by
      unfold fillRing
      cases bytesOf buf count with
      | nil => rfl
      | cons c cs => rw [RingBuf.pushAll, if_neg (Nat.not_lt.mpr hfull)]
    split
    · next hq => rw [hsame, hq]
    · rfl
  · rw [if_neg hfull]
    rw [setPipe_pipes]
    split
    · next hq => rw [hq, update_self]
    · next hq => rw [update_of_ne hq]

end TipOS.Ipc
