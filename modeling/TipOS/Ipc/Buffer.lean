import Mathlib.Data.List.Infix
import TipOS.Lib.Ring

/-!
# The buffers of pipes and sockets

The tables `pipes` and `socks` of `syscall.c`.  Both kinds of slot have a ring of 4096 bytes with
positions of 32 bits.  The loops over it are in `do_write_fd` and `sock_push` for writing, and in
`SYS_read`, `readv` and `sock_pop` for reading.

`ring_fidelity` compares a buffer with the queue of the bytes that went in: whatever is written and
read, a write takes the bytes that there is room for and what was read is a prefix of what was
written.
-/

namespace TipOS.Ipc

open Function Lib

variable {r : RingBuf UInt8} {op : Io} {l : IoLog} {i : BufId}

def maxPipes : ℕ := 8
def maxSocks : ℕ := 16

/-- `sizeof(buf)` and the number of positions. -/
def bufSize : ℕ := 4096
def posCount : ℕ := 2 ^ 32

theorem ring_sizes : RingBuf.Sizes bufSize posCount := ⟨by decide, by decide, by decide⟩

structure Pipe where
  used : Bool
  ring : RingBuf UInt8

/-- A slot of `socks`, without what `bind`, `listen` and `accept` keep there. -/
structure Sock where
  used : Bool
  peer : ℤ
  nonblock : Bool
  ring : RingBuf UInt8

/-- The two tables. -/
structure Bufs where
  pipes : ℕ → Pipe
  socks : ℕ → Sock

namespace Bufs

def setPipe (x : Bufs) (p : ℕ) (r : RingBuf UInt8) : Bufs :=
  { x with pipes := update x.pipes p { x.pipes p with ring := r } }

def setSock (x : Bufs) (s : ℕ) (r : RingBuf UInt8) : Bufs :=
  { x with socks := update x.socks s { x.socks s with ring := r } }

@[simp] theorem setPipe_pipes (x : Bufs) (p : ℕ) (r : RingBuf UInt8) : (x.setPipe p r).pipes =
    update x.pipes p { x.pipes p with ring := r } := rfl
@[simp] theorem setSock_socks (x : Bufs) (s : ℕ) (r : RingBuf UInt8) : (x.setSock s r).socks =
    update x.socks s { x.socks s with ring := r } := rfl

/-- `p < 0 || p >= MAX_PIPES || !pipes[p].used` is false. -/
def pipeOk (x : Bufs) (p : ℤ) : Bool := 0 ≤ p ∧ p < maxPipes ∧ (x.pipes p.toNat).used = true

def sockOk (x : Bufs) (s : ℤ) : Bool := 0 ≤ s ∧ s < maxSocks ∧ (x.socks s.toNat).used = true

end Bufs

/-! ### Writing -/

/-- The first `count` bytes of `buf`. -/
def bytesOf (buf : ℕ → UInt8) (count : ℤ) : List UInt8 := (List.range count.toNat).map buf

/-- The writing loops: the number of bytes that went in. -/
def fillRing (r : RingBuf UInt8) (buf : ℕ → UInt8) (count : ℤ) : ℕ × RingBuf UInt8 :=
  r.pushAll bufSize posCount (bytesOf buf count)

/-- A full buffer: `-EAGAIN` or -1. -/
def fullCode (nonblock : Bool) : ℤ := if nonblock then -11 else -1

/-- `do_write_fd` for a pipe. -/
def writePipe (x : Bufs) (p : ℤ) (nonblock : Bool) (buf : ℕ → UInt8) (count : ℤ) : ℤ × Bufs :=
  if x.pipeOk p = false then (-1, x)
  else if bufSize ≤ (x.pipes p.toNat).ring.count posCount then (fullCode nonblock, x)
  else
    let y := fillRing (x.pipes p.toNat).ring buf count
    (y.1, x.setPipe p.toNat y.2)

/-- `sock_push`. -/
def sockPush (x : Bufs) (s : ℤ) (buf : ℕ → UInt8) (count : ℤ) : ℤ × Bufs :=
  if x.sockOk s = false then (-1, x)
  else if bufSize ≤ (x.socks s.toNat).ring.count posCount then
    (fullCode (x.socks s.toNat).nonblock, x)
  else
    let y := fillRing (x.socks s.toNat).ring buf count
    (y.1, x.setSock s.toNat y.2)

/-! ### Reading -/

/-- The reading loops: the bytes that came out. -/
def drainRing (r : RingBuf UInt8) (count : ℕ) : List UInt8 × RingBuf UInt8 :=
  r.popAll bufSize posCount count

/-- What a reading call has done: it waits for data, or has a result and bytes. -/
inductive ReadResult
  | waits
  | done (ret : ℤ) (bytes : List UInt8)

/-- The bytes that reach the reader. -/
def ReadResult.bytes : ReadResult → List UInt8
  | .waits => []
  | .done _ bytes => bytes

/-- `SYS_read` of a pipe, one round of the loop that waits for data: `alive` is
`pipe_writers_alive`. -/
def readPipe (x : Bufs) (p : ℤ) (nonblock alive : Bool) (count : ℤ) : ReadResult × Bufs :=
  if x.pipeOk p = false then (.done (-1) [], x)
  else
    let r := (x.pipes p.toNat).ring
    if r.rpos = r.wpos ∧ nonblock = true then (.done (-11) [], x)
    else if r.rpos = r.wpos ∧ alive = true then (.waits, x)
    else
      let y := drainRing r count.toNat
      (.done y.1.length y.1, x.setPipe p.toNat y.2)

/-- `readv` of a pipe: the buffers, given by address and length, are filled one after the other. -/
def readvLoop : List (ℕ × ℕ) → RingBuf UInt8 → List UInt8 × RingBuf UInt8
  | [], r => ([], r)
  | (base, len) :: iov, r =>
    if base = 0 ∨ len = 0 then readvLoop iov r
    else
      let y := drainRing r len
      if y.1.length < len then y
      else
        let z := readvLoop iov y.2
        (y.1 ++ z.1, z.2)

def readvPipe (x : Bufs) (p : ℤ) (iov : List (ℕ × ℕ)) : ReadResult × Bufs :=
  if iov = [] ∨ 16 < iov.length then (.done (-1) [], x)
  else if x.pipeOk p = false then (.done (-1) [], x)
  else
    let y := readvLoop iov (x.pipes p.toNat).ring
    (.done y.1.length y.1, x.setPipe p.toNat y.2)

/-- `sock_pop`. -/
def sockPop (x : Bufs) (s : ℤ) (count : ℤ) : ReadResult × Bufs :=
  if x.sockOk s = false then (.done (-1) [], x)
  else
    let r := (x.socks s.toNat).ring
    if r.rpos = r.wpos then (.done (if (x.socks s.toNat).nonblock then -11 else 0) [], x)
    else
      let y := drainRing r count.toNat
      (.done y.1.length y.1, x.setSock s.toNat y.2)

/-! ### Sequences of calls -/

/-- A buffer of one of the tables. -/
inductive BufId
  | pipe (p : ℕ)
  | sock (s : ℕ)
  deriving DecidableEq

def Bufs.ring (x : Bufs) : BufId → RingBuf UInt8
  | .pipe p => (x.pipes p).ring
  | .sock s => (x.socks s).ring

/-- The buffer is in use. -/
def Bufs.Open (x : Bufs) : BufId → Prop
  | .pipe p => x.pipeOk p = true
  | .sock s => x.sockOk s = true

instance (x : Bufs) (i : BufId) : Decidable (x.Open i) :=
  match i with
  | .pipe p => inferInstanceAs (Decidable (x.pipeOk p = true))
  | .sock s => inferInstanceAs (Decidable (x.sockOk s = true))

/-- A call that writes to or reads from a buffer. -/
inductive Io
  | write (p : ℤ) (nonblock : Bool) (buf : ℕ → UInt8) (count : ℤ)
  | push (s : ℤ) (buf : ℕ → UInt8) (count : ℤ)
  | read (p : ℤ) (nonblock alive : Bool) (count : ℤ)
  | readv (p : ℤ) (iov : List (ℕ × ℕ))
  | pop (s : ℤ) (count : ℤ)

/-- The state, and the bytes that each buffer has accepted and delivered. -/
structure IoLog where
  bufs : Bufs
  accepted : BufId → List UInt8
  delivered : BufId → List UInt8

namespace Io

/-- The buffer that a call is about. -/
def target : Io → BufId
  | .write p _ _ _ => .pipe p.toNat
  | .push s _ _ => .sock s.toNat
  | .read p _ _ _ => .pipe p.toNat
  | .readv p _ => .pipe p.toNat
  | .pop s _ => .sock s.toNat

/-- The bytes that a call offers. -/
def offered : Io → List UInt8
  | .write _ _ buf count => bytesOf buf count
  | .push _ buf count => bytesOf buf count
  | _ => []

/-- What a call returns, the bytes it delivers and the tables after it. -/
def run (x : Bufs) : Io → ℤ × List UInt8 × Bufs
  | .write p nonblock buf count =>
    ((writePipe x p nonblock buf count).1, [], (writePipe x p nonblock buf count).2)
  | .push s buf count => ((sockPush x s buf count).1, [], (sockPush x s buf count).2)
  | .read p nonblock alive count =>
    (0, (readPipe x p nonblock alive count).1.bytes, (readPipe x p nonblock alive count).2)
  | .readv p iov => (0, (readvPipe x p iov).1.bytes, (readvPipe x p iov).2)
  | .pop s count => (0, (sockPop x s count).1.bytes, (sockPop x s count).2)

/-- The bytes that a write has taken, by its result. -/
def taken (x : Bufs) (op : Io) : List UInt8 := op.offered.take (op.run x).1.toNat

end Io

/-- One call after the others. -/
def IoLog.step (l : IoLog) (op : Io) : IoLog where
  bufs := (op.run l.bufs).2.2
  accepted := update l.accepted op.target (l.accepted op.target ++ op.taken l.bufs)
  delivered :=
    update l.delivered op.target (l.delivered op.target ++ (op.run l.bufs).2.1)

def ioRun (x : Bufs) (ops : List Io) : IoLog :=
  ops.foldl IoLog.step ⟨x, fun _ => [], fun _ => []⟩

/-! ### What a call does to a buffer -/

abbrev content (r : RingBuf UInt8) : List UInt8 := r.content bufSize posCount
abbrev Valid (r : RingBuf UInt8) : Prop := r.Valid bufSize posCount

@[simp] theorem length_bytesOf (buf : ℕ → UInt8) (count : ℤ) :
    (bytesOf buf count).length = count.toNat := by
  rw [bytesOf, List.length_map, List.length_range]

theorem readPipe_cases (x : Bufs) (p : ℤ) (nonblock alive : Bool) (count : ℤ) :
    (∃ res, ReadResult.bytes res = [] ∧ readPipe x p nonblock alive count = (res, x)) ∨
    readPipe x p nonblock alive count =
      (.done (drainRing (x.pipes p.toNat).ring count.toNat).1.length
        (drainRing (x.pipes p.toNat).ring count.toNat).1,
        x.setPipe p.toNat (drainRing (x.pipes p.toNat).ring count.toNat).2) := by
  unfold readPipe
  split
  · exact .inl ⟨_, rfl, rfl⟩
  dsimp only
  split
  · exact .inl ⟨_, rfl, rfl⟩
  · split
    · exact .inl ⟨_, rfl, rfl⟩
    · exact .inr rfl

/-- **What one call does to a buffer**: bytes are appended, bytes are taken from the front. -/
structure Moves (r : RingBuf UInt8) (taken out : List UInt8) (r' : RingBuf UInt8) : Prop where
  valid : Valid r'
  eq : content r ++ taken = out ++ content r'

theorem Moves.same (h : Valid r) : Moves r [] [] r := ⟨h, List.append_nil _⟩

theorem moves_fillRing (h : Valid r) (buf : ℕ → UInt8) (count : ℤ) :
    (fillRing r buf count).1 = min count.toNat (bufSize - r.count posCount) ∧
    Moves r ((bytesOf buf count).take (fillRing r buf count).1) [] (fillRing r buf count).2 := by
  obtain ⟨hn, hv, hc⟩ := RingBuf.pushAll_spec ring_sizes (bytesOf buf count) h
  rw [length_bytesOf] at hn hc
  refine ⟨hn, hv, ?_⟩
  rw [List.nil_append, fillRing, hn]
  exact hc.symm

/-- **What reading does to a buffer**: the reader's position moves over the bytes that came out. -/
structure Advances (r : RingBuf UInt8) (out : List UInt8) (r' : RingBuf UInt8) : Prop where
  eq : r' = { r with rpos := (r.rpos + out.length) % posCount }
  le : out.length ≤ r.count posCount
  out : out = (content r).take out.length

theorem Advances.same (h : Valid r) : Advances r [] r := by
  refine ⟨?_, Nat.zero_le _, rfl⟩
  rw [List.length_nil, Nat.add_zero, Nat.mod_eq_of_lt h.rpos]

theorem Advances.trans {r1 r2 : RingBuf UInt8} {out out1 : List UInt8} (h : Valid r)
    (h1 : Advances r out r1) (h2 : Advances r1 out1 r2) : Advances r (out ++ out1) r2 := by
  obtain ⟨-, hc⟩ := RingBuf.content_advance ring_sizes h h1.le
  rw [← h1.eq] at hc
  have hcount : r1.count posCount = r.count posCount - out.length := by
    rw [← RingBuf.length_content bufSize, hc, List.length_drop, RingBuf.length_content]
  have hle := h2.le
  have hle' := h1.le
  refine ⟨?_, ?_, ?_⟩
  · rw [h2.eq, h1.eq, List.length_append]
    rw [Nat.mod_add_mod, Nat.add_assoc]
  · rw [List.length_append]
    omega
  · have h2' : out1 = ((content r).drop out.length).take out1.length := by
      rw [← hc]
      exact h2.out
    rw [List.length_append, List.take_add, ← h1.out, ← h2']

theorem Advances.moves {out : List UInt8} {r' : RingBuf UInt8} (h : Valid r)
    (ha : Advances r out r') : Moves r [] out r' := by
  obtain ⟨hv, hc⟩ := RingBuf.content_advance ring_sizes h ha.le
  rw [← ha.eq] at hv hc
  have hsplit := List.take_append_drop out.length (content r)
  rw [← ha.out, ← hc] at hsplit
  exact ⟨hv, (List.append_nil _).trans hsplit.symm⟩

theorem advances_drainRing (h : Valid r) (n : ℕ) :
    Advances r (drainRing r n).1 (drainRing r n).2 := by
  obtain ⟨he, hle⟩ := RingBuf.popAll_advance ring_sizes n h
  refine ⟨he, hle, ?_⟩
  have ho : (drainRing r n).1 = (content r).take n := (RingBuf.popAll_spec ring_sizes n h).1
  rw [ho, List.length_take, List.take_eq_take_iff]
  omega

theorem advances_readvLoop (iov : List (ℕ × ℕ)) (h : Valid r) :
    Advances r (readvLoop iov r).1 (readvLoop iov r).2 := by
  induction iov generalizing r with
  | nil => exact .same h
  | cons e iov ih =>
    obtain ⟨base, len⟩ := e
    rw [readvLoop]
    by_cases hskip : base = 0 ∨ len = 0
    · rw [if_pos hskip]
      exact ih h
    rw [if_neg hskip]
    have hd := advances_drainRing h len
    dsimp only
    split
    · exact hd
    · exact hd.trans h (ih (hd.moves h).valid)

theorem ring_setPipe (x : Bufs) (p : ℕ) (r : RingBuf UInt8) (i : BufId) :
    (x.setPipe p r).ring i = if i = .pipe p then r else x.ring i := by
  cases i with
  | sock s => rw [if_neg (by simp)]; rfl
  | pipe q =>
    simp only [Bufs.ring, Bufs.setPipe_pipes, update_apply, BufId.pipe.injEq]
    split <;> rfl

theorem ring_setSock (x : Bufs) (s : ℕ) (r : RingBuf UInt8) (i : BufId) :
    (x.setSock s r).ring i = if i = .sock s then r else x.ring i := by
  cases i with
  | pipe p => rw [if_neg (by simp)]; rfl
  | sock q =>
    simp only [Bufs.ring, Bufs.setSock_socks, update_apply, BufId.sock.injEq]
    split <;> rfl

theorem used_setPipe (x : Bufs) (p : ℕ) (r : RingBuf UInt8) (q : ℕ) :
    ((x.setPipe p r).pipes q).used = (x.pipes q).used := by
  rw [Bufs.setPipe_pipes, update_apply]
  split
  · next hq => rw [hq]
  · rfl

theorem open_setPipe (x : Bufs) (p : ℕ) (r : RingBuf UInt8) (i : BufId) :
    (x.setPipe p r).Open i ↔ x.Open i := by
  cases i with
  | sock s => exact Iff.rfl
  | pipe q => simp only [Bufs.Open, Bufs.pipeOk, Int.toNat_natCast, used_setPipe]

theorem open_setSock (x : Bufs) (s : ℕ) (r : RingBuf UInt8) (i : BufId) :
    (x.setSock s r).Open i ↔ x.Open i := by
  cases i with
  | pipe p => exact Iff.rfl
  | sock q =>
    have hused : ((x.setSock s r).socks q).used = (x.socks q).used := by
      rw [Bufs.setSock_socks, update_apply]
      split
      · next hq => rw [hq]
      · rfl
    simp only [Bufs.Open, Bufs.sockOk, Int.toNat_natCast, hused]

/-- **What a call does**: its own buffer moves, the others and the slots in use stay. -/
structure IoStep (x : Bufs) (op : Io) : Prop where
  others : ∀ i, i ≠ op.target → (op.run x).2.2.ring i = x.ring i
  opened : ∀ i, (op.run x).2.2.Open i ↔ x.Open i
  moves : Valid (x.ring op.target) →
    Moves (x.ring op.target) (op.taken x) (op.run x).2.1 ((op.run x).2.2.ring op.target)

theorem IoStep.same {x : Bufs} (ht : op.taken x = []) (ho : (op.run x).2.1 = [])
    (hx : (op.run x).2.2 = x) : IoStep x op where
  others := fun i _ => by rw [hx]
  opened := fun i => by rw [hx]
  moves := fun h => by
    rw [ht, ho, hx]
    exact .same h

theorem IoStep.set {x : Bufs} {t : BufId} (ht : op.target = t)
    (hr : ∀ i, (op.run x).2.2.ring i = if i = t then r else x.ring i)
    (ho : ∀ i, (op.run x).2.2.Open i ↔ x.Open i)
    (hm : Valid (x.ring t) → Moves (x.ring t) (op.taken x) (op.run x).2.1 r) : IoStep x op where
  others := fun i hi => by rw [hr, if_neg (ht ▸ hi)]
  opened := ho
  moves := fun h => by
    rw [ht] at h ⊢
    rw [hr, if_pos rfl]
    exact hm h

theorem IoStep.pipe {x : Bufs} {p : ℕ} (ht : op.target = .pipe p)
    (hx : (op.run x).2.2 = x.setPipe p r) :
    (Valid (x.pipes p).ring → Moves (x.pipes p).ring (op.taken x) (op.run x).2.1 r) →
      IoStep x op :=
  .set ht (hx ▸ ring_setPipe x p r) (hx ▸ open_setPipe x p r)

theorem IoStep.sock {x : Bufs} {s : ℕ} (ht : op.target = .sock s)
    (hx : (op.run x).2.2 = x.setSock s r) :
    (Valid (x.socks s).ring → Moves (x.socks s).ring (op.taken x) (op.run x).2.1 r) →
      IoStep x op :=
  .set ht (hx ▸ ring_setSock x s r) (hx ▸ open_setSock x s r)

theorem fullCode_toNat (b : Bool) : (fullCode b).toNat = 0 := by
  cases b with
  | false => rfl
  | true => rfl

section Calls

variable (x : Bufs)

/-- A writing call on the ring `r`: it takes nothing, or does not find the ring full and fills
it. -/
def Fills (ok : Bool) (r : RingBuf UInt8) (set : RingBuf UInt8 → Bufs) (buf : ℕ → UInt8)
    (count : ℤ) (res : ℤ × Bufs) : Prop :=
  (res.1.toNat = 0 ∧ res.2 = x ∧ (ok = true → bufSize ≤ r.count posCount)) ∨
    (res = (((fillRing r buf count).1 : ℤ), set (fillRing r buf count).2) ∧
      ¬ bufSize ≤ r.count posCount)

theorem fills (ok nonblock : Bool) (r : RingBuf UInt8) (set : RingBuf UInt8 → Bufs)
    (buf : ℕ → UInt8) (count : ℤ) : Fills x ok r set buf count (if ok = false then (-1, x)
      else if bufSize ≤ r.count posCount then (fullCode nonblock, x)
      else ((fillRing r buf count).1, set (fillRing r buf count).2)) := by
  split
  · next hok => exact .inl ⟨rfl, rfl, fun h => absurd (h.symm.trans hok) (by decide)⟩
  · split
    · next hfull => exact .inl ⟨fullCode_toNat nonblock, rfl, fun _ => hfull⟩
    · next hfull => exact .inr ⟨rfl, hfull⟩

theorem writePipe_fills (p : ℤ) (nonblock : Bool) (buf : ℕ → UInt8) (count : ℤ) :
    Fills x (x.pipeOk p) (x.pipes p.toNat).ring (x.setPipe p.toNat) buf count
      (writePipe x p nonblock buf count) :=
  fills x _ nonblock _ _ buf count

theorem sockPush_fills (s : ℤ) (buf : ℕ → UInt8) (count : ℤ) :
    Fills x (x.sockOk s) (x.socks s.toNat).ring (x.setSock s.toNat) buf count
      (sockPush x s buf count) :=
  fills x _ _ _ _ buf count

/-- **What a write accepts.** -/
theorem Fills.length_take {x : Bufs} {ok : Bool} {set : RingBuf UInt8 → Bufs} {buf : ℕ → UInt8}
    {count : ℤ} {res : ℤ × Bufs} (h : Fills x ok r set buf count res) (hok : ok)
    (hv : Valid r) : ((bytesOf buf count).take res.1.toNat).length =
      min count.toNat (bufSize - r.count posCount) := by
  rw [List.length_take, length_bytesOf]
  rcases h with ⟨h0, -, hfull⟩ | ⟨rfl, -⟩
  · have := hfull hok
    omega
  · rw [(moves_fillRing hv buf count).1, Int.toNat_natCast]
    omega

theorem ioStep_write (p : ℤ) (nonblock : Bool) (buf : ℕ → UInt8) (count : ℤ) :
    IoStep x (.write p nonblock buf count) := by
  rcases writePipe_fills x p nonblock buf count with ⟨h0, he, -⟩ | ⟨hw, -⟩
  · exact .same (by rw [Io.taken, Io.run, h0, List.take_zero]) rfl he
  · refine .pipe rfl (congrArg Prod.snd hw) fun hv => ?_
    rw [Io.taken, Io.run, hw]
    exact (moves_fillRing hv buf count).2

theorem ioStep_push (s : ℤ) (buf : ℕ → UInt8) (count : ℤ) : IoStep x (.push s buf count) := by
  rcases sockPush_fills x s buf count with ⟨h0, he, -⟩ | ⟨hw, -⟩
  · exact .same (by rw [Io.taken, Io.run, h0, List.take_zero]) rfl he
  · refine .sock rfl (congrArg Prod.snd hw) fun hv => ?_
    rw [Io.taken, Io.run, hw]
    exact (moves_fillRing hv buf count).2

theorem ioStep_read (p : ℤ) (nonblock alive : Bool) (count : ℤ) :
    IoStep x (.read p nonblock alive count) := by
  rcases readPipe_cases x p nonblock alive count with ⟨res, hb, hr⟩ | hr
  · exact .same List.take_nil (by rw [Io.run, hr, hb]) (by rw [Io.run, hr])
  · refine .pipe rfl (by rw [Io.run, hr]) fun hv => ?_
    rw [Io.taken, Io.run, hr]
    exact (advances_drainRing hv count.toNat).moves hv

theorem ioStep_readv (p : ℤ) (iov : List (ℕ × ℕ)) : IoStep x (.readv p iov) := by
  have hfail : readvPipe x p iov = (.done (-1) [], x) → IoStep x (.readv p iov) := fun hr =>
    .same List.take_nil (by rw [Io.run, hr]; rfl) (by rw [Io.run, hr])
  by_cases hiov : iov = [] ∨ 16 < iov.length
  · exact hfail (if_pos hiov)
  by_cases hok : x.pipeOk p = false
  · exact hfail ((if_neg hiov).trans (if_pos hok))
  have hr : readvPipe x p iov = (.done (readvLoop iov (x.pipes p.toNat).ring).1.length
      (readvLoop iov (x.pipes p.toNat).ring).1,
      x.setPipe p.toNat (readvLoop iov (x.pipes p.toNat).ring).2) :=
    (if_neg hiov).trans (if_neg hok)
  refine .pipe rfl (by rw [Io.run, hr]) fun hv => ?_
  rw [Io.taken, Io.run, hr]
  exact (advances_readvLoop iov hv).moves hv

theorem ioStep_pop (s : ℤ) (count : ℤ) : IoStep x (.pop s count) := by
  have hfail : ∀ {e}, sockPop x s count = (.done e [], x) → IoStep x (.pop s count) := fun hr =>
    .same List.take_nil (by rw [Io.run, hr]; rfl) (by rw [Io.run, hr])
  by_cases hok : x.sockOk s = false
  · exact hfail (if_pos hok)
  by_cases he : (x.socks s.toNat).ring.rpos = (x.socks s.toNat).ring.wpos
  · exact hfail ((if_neg hok).trans (if_pos he))
  set d := drainRing (x.socks s.toNat).ring count.toNat
  have hr : sockPop x s count = (.done d.1.length d.1, x.setSock s.toNat d.2) :=
    (if_neg hok).trans (if_neg he)
  refine .sock rfl (by rw [Io.run, hr]) fun hv => ?_
  rw [Io.taken, Io.run, hr]
  exact (advances_drainRing hv count.toNat).moves hv

theorem ioStep (op : Io) : IoStep x op := by
  cases op with
  | write p nonblock buf count => exact ioStep_write x p nonblock buf count
  | push s buf count => exact ioStep_push x s buf count
  | read p nonblock alive count => exact ioStep_read x p nonblock alive count
  | readv p iov => exact ioStep_readv x p iov
  | pop s count => exact ioStep_pop x s count

end Calls

/-! ### Runs -/

/-- The buffer stands for the queue of what was accepted and not yet delivered. -/
structure Queued (l : IoLog) (i : BufId) : Prop where
  opened : l.bufs.Open i
  valid : Valid (l.bufs.ring i)
  eq : l.accepted i = l.delivered i ++ content (l.bufs.ring i)

theorem Queued.step (h : Queued l i) (op : Io) : Queued (l.step op) i := by
  obtain ⟨hothers, hopen, hmoves⟩ := ioStep l.bufs op
  by_cases hi : i = op.target
  · subst hi
    obtain ⟨hv, he⟩ := hmoves h.valid
    refine ⟨(hopen _).mpr h.opened, hv, ?_⟩
    rw [IoLog.step]
    dsimp only
    rw [update_self, update_self, h.eq, List.append_assoc, he, List.append_assoc]
  refine ⟨(hopen i).mpr h.opened, ?_, ?_⟩
  · rw [IoLog.step, hothers i hi]
    exact h.valid
  · rw [IoLog.step]
    dsimp only
    rw [update_of_ne hi, update_of_ne hi, hothers i hi]
    exact h.eq

theorem Queued.run (h : Queued l i) (ops : List Io) :
    Queued (ops.foldl IoLog.step l) i := by
  induction ops generalizing l with
  | nil => exact h
  | cons op ops ih => exact ih (h.step op)

/-- The number of bytes that a write offers. -/
def Io.size (op : Io) : ℕ := op.offered.length

/-- A call of `do_write_fd` or `sock_push` for the buffer. -/
def Io.WritesTo (op : Io) (i : BufId) : Prop :=
  match op, i with
  | .write p _ _ _, .pipe q => p = q
  | .push s _ _, .sock t => s = t
  | _, _ => False

/-- **A buffer is a queue of bytes.**  Beginning with an empty buffer, whatever calls are made: at
most 4096 bytes are in it, each write takes as many bytes as there is room for, and what was read
is a prefix of what was taken. -/
theorem ring_fidelity (x : Bufs) (i : BufId) (hopen : x.Open i) (hlt : (x.ring i).rpos < posCount)
    (hempty : (x.ring i).rpos = (x.ring i).wpos) (ops : List Io) :
    ((ioRun x ops).bufs.ring i).count posCount ≤ bufSize ∧
    (∀ op : Io, op.WritesTo i → (op.taken (ioRun x ops).bufs).length =
      min op.size (bufSize - ((ioRun x ops).bufs.ring i).count posCount)) ∧
    (ioRun x ops).delivered i <+: (ioRun x ops).accepted i := by
  have hcount : (x.ring i).count posCount = 0 := by
    rw [RingBuf.count, ← hempty, Nat.add_sub_cancel' hlt.le, Nat.mod_self]
  have hv : Valid (x.ring i) := ⟨hlt, hempty ▸ hlt, by rw [hcount]; exact Nat.zero_le _⟩
  have hnil : content (x.ring i) = [] := by
    rw [← List.length_eq_zero_iff, RingBuf.length_content, hcount]
  have hstart : Queued ⟨x, fun _ => [], fun _ => []⟩ i := ⟨hopen, hv, hnil.symm⟩
  have hq : Queued (ioRun x ops) i := hstart.run ops
  refine ⟨hq.valid.le, fun op hop => ?_, ?_⟩
  · cases op with
    | write p nonblock buf count =>
      cases i with
      | pipe q =>
        obtain rfl : p = q := hop
        rw [Io.size, Io.offered, length_bytesOf]
        exact (writePipe_fills ..).length_take hq.opened hq.valid
      | sock s => exact hop.elim
    | push s buf count =>
      cases i with
      | pipe q => exact hop.elim
      | sock t =>
        obtain rfl : s = t := hop
        rw [Io.size, Io.offered, length_bytesOf]
        exact (sockPush_fills ..).length_take hq.opened hq.valid
    | read p nonblock alive count => exact hop.elim
    | readv p iov => exact hop.elim
    | pop s count => exact hop.elim
  · rw [hq.eq]
    exact List.prefix_append _ _

/-- An empty pipe whose positions are about to start again from 0. -/
def wrappingPipe : Bufs where
  pipes := fun _ => ⟨true, ⟨fun _ => 0, 2 ^ 32 - 2, 2 ^ 32 - 2⟩⟩
  socks := fun _ => ⟨false, -1, false, ⟨fun _ => 0, 0, 0⟩⟩

/-- Five bytes and a short read. -/
def fiveBytes : List Io := [.write 0 false (fun j => UInt8.ofNat (j + 1)) 5, .read 0 false true 3]

theorem ring_fidelity_wrappingPipe : wrappingPipe.Open (.pipe 0) ∧
    ((ioRun wrappingPipe fiveBytes).bufs.ring (.pipe 0)).count posCount ≤ bufSize ∧
    (ioRun wrappingPipe fiveBytes).delivered (.pipe 0) <+:
      (ioRun wrappingPipe fiveBytes).accepted (.pipe 0) := by
  have hopen : wrappingPipe.Open (.pipe 0) := by decide
  obtain ⟨hcount, -, hprefix⟩ := ring_fidelity wrappingPipe (.pipe 0) hopen (by decide) rfl fiveBytes
  exact ⟨hopen, hcount, hprefix⟩

example : (ioRun wrappingPipe fiveBytes).delivered (.pipe 0) = [1, 2, 3] ∧
    ((ioRun wrappingPipe fiveBytes).bufs.ring (.pipe 0)).wpos = 3 := by decide

end TipOS.Ipc
