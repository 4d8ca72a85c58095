import TipOS.Ipc.Descriptors
import TipOS.Process.Ended

/-!
# Runs of the system calls on descriptors

All processes with their tables, the pipes, and the reads that wait.  A system call begins with
`fds_bind_current` and works on the table that `fdtab` then points to.  A read that finds no data
waits in its loop with the number of the pipe, and goes on when its process runs again.

`Traced` adds what is not in the kernel: the call of `pipe` that made each descriptor, and for each
cell of a buffer the descriptor that its byte came through.  `pipes_isolated` says that a read gives
bytes of its own pipe only, in every run in which each `dup2` or `dup3` onto the end of a pipe
replaces the last descriptor of that pipe, no file is opened in a record that was the end of a pipe,
and bytes are written through ends for writing.
-/

namespace TipOS.Ipc

open Function Lib Process List Option RingBuf

variable {me q : ℕ} {T : Option ℕ} {i : Fin maxFds} {v : ℤ × Bool} {c : Call}
  {ok : Sys → Event → Prop} {y : Traced} {out : List UInt8} {fd count p : ℤ} {w : Bool}

/-! ### Tables -/

/-- A table of the pool, or that of the kernel. -/
def tableAt (f : FdState) (T : Option ℕ) : FdTable := T.elim f.bootFds f.fdTables

/-- The table that `fdtab` points to is written. -/
def putCurrent (f : FdState) (t : FdTable) : FdState :=
  match f.fdtab with
  | none => { f with bootFds := t }
  | some j => f.setTable j t

section Tables

variable (f : FdState)

@[simp] theorem putCurrent_fdsTab (t : FdTable) : (putCurrent f t).fdsTab = f.fdsTab := by
  unfold putCurrent
  split
  · rfl
  · rfl

theorem tableAt_putCurrent (t : FdTable) (T : Option ℕ) :
    tableAt (putCurrent f t) T = if T = f.fdtab then t else tableAt f T := by
  unfold putCurrent
  cases h : f.fdtab with
  | none =>
    cases T with
    | none => rw [if_pos rfl]; rfl
    | some j => rw [if_neg (some_ne_none j)]; rfl
  | some j =>
    cases T with
    | none => rw [if_neg (some_ne_none j).symm]; rfl
    | some l =>
      simp only [Option.some.injEq]
      exact update_apply _ _ _ _

theorem tableAt_dupIntoSlot (slot : ℕ) (T : Option ℕ) :
    tableAt (f.dupIntoSlot slot) T = if T = some slot then f.current else tableAt f T := by
  cases T with
  | none => rw [if_neg (some_ne_none slot).symm]; rfl
  | some l =>
    simp only [Option.some.injEq]
    exact update_apply _ _ _ _

theorem pipeEnd_console (t : FdTable) (i : Fin maxFds) : pipeEnd (FdState.console t i) = none := by
  refine if_neg ?_
  rintro ⟨hu, ht⟩
  have h3 : i.val < 3 := of_decide_eq_true hu
  have ht' : (if i.val < 3 then 6 else 0) = typePipe := ht
  rw [if_pos h3] at ht'
  cases ht'

theorem tableAt_bindCurrent : tableAt (f.bindCurrent me) T =
    if f.fdsTab me = none ∧ T = some me then FdState.console (f.fdTables me) else tableAt f T := by
  unfold FdState.bindCurrent
  cases hm : f.fdsTab me with
  | some t => rfl
  | none =>
    cases T with
    | none => rfl
    | some l =>
      simp only [Option.some.injEq, true_and]
      exact update_apply _ _ _ _

theorem pipeEnd_bindCurrent (h : pipeEnd (tableAt (f.bindCurrent me) T i) = some v) :
    pipeEnd (tableAt f T i) = some v := by
  rw [tableAt_bindCurrent] at h
  split at h
  · rw [pipeEnd_console] at h
    cases h
  · exact h

/-- `fds_close_exec` only closes. -/
theorem pipeEnd_closeExec (h : pipeEnd (tableAt (f.closeExec me) T i) = some v) :
    pipeEnd (tableAt f T i) = some v := by
  unfold FdState.closeExec at h
  cases hm : f.fdsTab me with
  | none =>
    rwa [hm] at h
  | some t =>
    rw [hm] at h
    cases T with
    | none => exact h
    | some l =>
      change pipeEnd (update f.fdTables t _ l i) = some v at h
      by_cases hl : l = t
      · subst hl
        rw [update_self] at h
        split at h
        · rw [pipeEnd_of_not_used rfl] at h
          cases h
        · exact h
      · rwa [update_of_ne hl] at h

end Tables

/-! ### The system -/

/-- The processes with their tables, the pipes and sockets, and for each slot the pipe and the count
of the read that its process waits in. -/
structure Sys where
  procs : Procs
  bufs : Bufs
  waiting : ℕ → Option (ℤ × ℤ)

/-- `pipe_writers_alive`. -/
def pipeWritersAlive (k : Kernel) (f : FdState) (p : ℤ) : Bool :=
  (List.range maxProc).any fun i => (k.table i).state != .empty &&
    (f.fdsTab i).any fun t => (List.finRange maxFds).any fun j =>
      decide (pipeEnd (f.fdTables t j) = some (p, true))

/-- One round of the loop that `SYS_read` waits in. -/
def readRound (x : Bufs) (p : ℕ) (alive : Bool) (count : ℤ) : ReadResult × Bufs :=
  if (x.pipes p).ring.rpos = (x.pipes p).ring.wpos ∧ alive = true then (.waits, x)
  else
    let y := drainRing (x.pipes p).ring count.toNat
    (.done y.1.length y.1, x.setPipe p y.2)

def ReadResult.isWaits : ReadResult → Bool
  | .waits => true
  | .done _ _ => false

namespace Sys

variable (x : Sys)

/-- The descriptors after `fds_bind_current`. -/
def bound : FdState := (processCurrent x.procs.k).elim x.procs.f x.procs.f.bindCurrent

/-- What a system call works on. -/
def fds : Fds := ⟨x.bound.current, x.bufs⟩

def alive (p : ℤ) : Bool := pipeWritersAlive x.procs.k x.bound p

/-- The pipe and the count of a read that has to wait. -/
def waitsIn : Syscall → Option (ℤ × ℤ)
  | .read a fd count =>
    if (sysRead a x.alive x.fds fd count).1.isWaits = true then
      (fdIdx fd).bind fun i => (pipeEnd (x.fds.table i)).map fun v => (v.1, count)
    else none
  | _ => none

def afterSys (s : Syscall) : Sys where
  procs := ⟨x.procs.k, putCurrent x.bound (s.run x.alive x.fds).table⟩
  bufs := (s.run x.alive x.fds).bufs
  waiting := (x.waitsIn s).elim x.waiting fun v =>
    update x.waiting x.procs.k.running (some v)

/-- The round of the read in which the running process waits. -/
def round (p count : ℤ) : ReadResult × Bufs :=
  readRound x.bufs p.toNat (pipeWritersAlive x.procs.k x.procs.f p) count

def afterRound : Sys :=
  match x.waiting x.procs.k.running with
  | none => x
  | some (p, count) =>
    { x with
      bufs := (x.round p count).2
      waiting := if (x.round p count).1.isWaits = true then x.waiting
        else update x.waiting x.procs.k.running none }

end Sys

/-- A step of the system: a system call on descriptors, a call of `process.c`, the start of another
system call, a round of a waiting read, code that leaves the identities of the processes alone, and
a system call that leaves the ends of pipes alone. -/
inductive Event
  | sys (s : Syscall)
  | call (c : Call)
  | bind
  | round
  | kernel (k' : Kernel)
  | touch (y : Fds)

/-- The other system calls on descriptors. -/
structure Touched (x y : Fds) : Prop where
  ends : ∀ i, pipeEnd (y.table i) = pipeEnd (x.table i)
  pipes : y.bufs.pipes = x.bufs.pipes

def Event.Possible (x : Sys) : Event → Prop
  | .kernel k' => Other x.procs.k k'
  | .touch y => Touched x.fds y
  | _ => True

/-- A slot with another pid has another process, which waits in no read. -/
def stillWaiting (k k' : Kernel) (w : ℕ → Option (ℤ × ℤ)) : ℕ → Option (ℤ × ℤ) :=
  fun i => if (k'.table i).pid = (k.table i).pid then w i else none

def Sys.step (x : Sys) : Event → Sys
  | .sys s => x.afterSys s
  | .call c => ⟨x.procs.run c, x.bufs, stillWaiting x.procs.k (c.run x.procs.k).2 x.waiting⟩
  | .bind => { x with procs := ⟨x.procs.k, x.bound⟩ }
  | .round => x.afterRound
  | .kernel k' => { x with procs := ⟨k', x.procs.f⟩ }
  | .touch y => { x with procs := ⟨x.procs.k, putCurrent x.bound y.table⟩, bufs := y.bufs }

/-- Pipes that nobody uses. -/
def noBufs : Bufs where
  pipes := fun _ => ⟨false, ⟨fun _ => 0, 0, 0⟩⟩
  socks := fun _ => ⟨false, -1, false, ⟨fun _ => 0, 0, 0⟩⟩

/-- After `process_init`. -/
def Sys.start (k : Kernel) (kstack idleEntry : ℕ) : Sys :=
  ⟨⟨processInit k kstack idleEntry, noFds⟩, noBufs, fun _ => none⟩

/-- The states reached when every step meets `ok`. -/
inductive Sys.Reached (ok : Sys → Event → Prop) : Sys → Prop
  | start (k : Kernel) (kstack idleEntry : ℕ) : Sys.Reached ok (.start k kstack idleEntry)
  | step {x : Sys} (e : Event) : x.Reached ok → e.Possible x → ok x e → (x.step e).Reached ok

/-! ### What a step does to the ends of pipes -/

theorem pipeEnd_bound {x : Sys} (h : pipeEnd (tableAt x.bound T i) = some v) :
    pipeEnd (tableAt x.procs.f T i) = some v := by
  unfold Sys.bound at h
  cases hc : processCurrent x.procs.k with
  | none =>
    rwa [hc] at h
  | some me =>
    rw [hc] at h
    exact pipeEnd_bindCurrent x.procs.f h

theorem pipeEnd_putCurrent (f : FdState) (t : FdTable) (T : Option ℕ) (i : Fin maxFds) :
    pipeEnd (tableAt (putCurrent f t) T i) =
      if T = f.fdtab then pipeEnd (t i) else pipeEnd (tableAt f T i) := by
  rw [tableAt_putCurrent]
  split
  · rfl
  · rfl

/-- A `fork` that succeeds. -/
def Forks (k : Kernel) (c : Call) : Prop :=
  ∃ kframe kstack pml4, c = .fork kframe kstack pml4 ∧ 0 ≤ (procFork k kframe kstack pml4).1

/-- **What a call of `process.c` does to the tables**: nothing, a table for a new process, or
`fds_close_exec`. -/
theorem fdsAfter_cases (x : Procs) (c : Call) :
    ¬ Forks x.k c ∧ fdsAfter x c = x.f ∨
    (Forks x.k c ∧ fdsAfter x c = x.f.dupIntoSlot (newSlot x.k) ∨
      ¬ Forks x.k c ∧ ∃ p, fdsAfter x c = x.f.shareTab p (newSlot x.k)) ∧
      findEmpty x.k = some (newSlot x.k) ∧ ((c.run x.k).2.table (newSlot x.k)).state = .ready ∨
    ¬ Forks x.k c ∧ ∃ me, c.Zombie x.k me ∧ fdsAfter x c = x.f.closeExec me := by
  have hno : ∀ {c' : Call}, (∀ kframe kstack pml4, c' ≠ .fork kframe kstack pml4) →
      ¬ Forks x.k c' := fun hne ⟨kframe, kstack, pml4, he, _⟩ => hne kframe kstack pml4 he
  have hexit : ∀ {c' : Call} (o : Option ℕ), fdsAfter x c' = o.elim x.f x.f.closeExec →
      fdsAfter x c' = x.f ∨ ∃ me, o = some me ∧ fdsAfter x c' = x.f.closeExec me := by
    intro c' o ho
    cases o with
    | none => exact .inl ho
    | some me => exact .inr ⟨me, rfl, ho⟩
  cases c with
  | fork kframe kstack pml4 =>
    by_cases hok : 0 ≤ (procFork x.k kframe kstack pml4).1
    · exact .inr (.inl ⟨.inl ⟨⟨kframe, kstack, pml4, rfl, hok⟩, if_pos hok⟩,
        ((makes_fork ..).newSlot hok).imp_right Creates.state⟩)
    refine .inl ⟨?_, if_neg hok⟩
    rintro ⟨kframe', kstack', pml4', he, hok'⟩
    obtain ⟨rfl, rfl, rfl⟩ := Call.fork.inj he
    exact hok hok'
  | clone flags newsp ctid tls kframe kstack =>
    have hc : ¬ Forks x.k (.clone flags newsp ctid tls kframe kstack) :=
      hno fun _ _ _ => Call.noConfusion
    by_cases hok : 0 ≤ (procCloneThread x.k flags newsp ctid tls kframe kstack).1
    · exact .inr (.inl ⟨.inr ⟨hc, _, if_pos hok⟩,
        ((makes_clone ..).newSlot hok).imp_right Creates.state⟩)
    · exact .inl ⟨hc, if_neg hok⟩
  | exit code =>
    have hc : ¬ Forks x.k (.exit code) := hno fun _ _ _ => Call.noConfusion
    exact (hexit _ rfl).imp (⟨hc, ·⟩) fun h => .inr ⟨hc, h⟩
  | exitGroup code =>
    have hc : ¬ Forks x.k (.exitGroup code) := hno fun _ _ _ => Call.noConfusion
    exact (hexit _ rfl).imp (⟨hc, ·⟩) fun h => .inr ⟨hc, h⟩
  | _ => exact .inl ⟨hno fun _ _ _ => Call.noConfusion, rfl⟩

/-- **An end of a pipe after a call of `process.c` was there before**, in the table itself or, for
a `fork`, in the table that was copied. -/
theorem pipeEnd_fdsAfter {x : Procs} (h : pipeEnd (tableAt (fdsAfter x c) T i) = some v) :
    (¬ (Forks x.k c ∧ T = some (newSlot x.k)) ∧ pipeEnd (tableAt x.f T i) = some v) ∨
    (Forks x.k c ∧ T = some (newSlot x.k) ∧ pipeEnd (x.f.current i) = some v) := by
  rcases fdsAfter_cases x c with ⟨hc, he⟩ | ⟨⟨hf, he⟩ | ⟨hc, p, he⟩, -⟩ | ⟨hc, me, -, he⟩ <;>
    rw [he] at h
  · exact .inl ⟨fun hf => hc hf.1, h⟩
  · rw [tableAt_dupIntoSlot] at h
    split at h
    · next hT => exact .inr ⟨hf, hT, h⟩
    · next hT => exact .inl ⟨fun hf => hT hf.2, h⟩
  · exact .inl ⟨fun hf => hc hf.1, h⟩
  · exact .inl ⟨fun hf => hc hf.1, pipeEnd_closeExec x.f h⟩

/-! ### Where descriptors and bytes come from -/

/-- The call of `pipe` that made the descriptor a byte was written through, and whether that is an
end for writing. -/
structure Origin where
  id : ℕ
  wend : Bool

/-- The system, and beside it for each descriptor the call of `pipe` that it comes from, for each
pipe the call that made it last, for each cell of its buffer the origin of the byte, and for each
waiting read the call that its descriptor comes from. -/
structure Traced where
  sys : Sys
  nextId : ℕ
  born : Option ℕ → Fin maxFds → ℕ
  made : ℕ → ℕ
  mark : ℕ → ℕ → Origin
  waitId : ℕ → ℕ

namespace Traced

variable (x : Traced)

/-- The buffer of a pipe with origins in place of the bytes. -/
def marked (q : ℕ) : RingBuf Origin :=
  ⟨x.mark q, (x.sys.bufs.pipes q).ring.rpos, (x.sys.bufs.pipes q).ring.wpos⟩

/-- The table of the process that makes the system call. -/
def tab : Option ℕ := x.sys.bound.fdtab

/-- A copy has the origin of the original, and the ends of a new pipe have a new one. -/
def bornSys (s : Syscall) : Option ℕ → Fin maxFds → ℕ :=
  match s.effect x.sys.fds with
  | .copy o n => update x.born x.tab (update (x.born x.tab) n (x.born x.tab o))
  | .make _ r w => update x.born x.tab
      (update (update (x.born x.tab) r x.nextId) w x.nextId)
  | _ => x.born

def madeSys (s : Syscall) : ℕ → ℕ :=
  match s.effect x.sys.fds with
  | .make pi _ _ => update x.made pi x.nextId
  | _ => x.made

/-- A write marks the cells that it fills. -/
def markSys (s : Syscall) : ℕ → ℕ → Origin :=
  match s with
  | .write _ fd _ count =>
    match (fdIdx fd).bind fun i => (pipeEnd (x.sys.fds.table i)).map fun v => (i, v) with
    | some (i, p, wend) =>
      if x.sys.bufs.pipeOk p = true then
        update x.mark p.toNat (RingBuf.pushAll bufSize posCount
          (List.replicate count.toNat ⟨x.born x.tab i, wend⟩) (x.marked p.toNat)).2.buf
      else x.mark
    | none => x.mark
  | _ => x.mark

def waitIdSys (s : Syscall) : ℕ → ℕ :=
  match s with
  | .read _ fd _ => (fdIdx fd).elim x.waitId fun i => (x.sys.waitsIn s).elim x.waitId fun _ =>
      update x.waitId x.sys.procs.k.running (x.born x.tab i)
  | _ => x.waitId

/-- The descriptors of a child have the origins of the parent's. -/
def bornCall : Call → Option ℕ → Fin maxFds → ℕ
  | .fork kframe kstack pml4 =>
    if 0 ≤ (procFork x.sys.procs.k kframe kstack pml4).1 then
      update x.born (some (newSlot x.sys.procs.k)) (x.born x.sys.procs.f.fdtab)
    else x.born
  | _ => x.born

def step (e : Event) : Traced :=
  match e with
  | .sys s => ⟨x.sys.step e, x.nextId + 1, x.bornSys s, x.madeSys s, x.markSys s, x.waitIdSys s⟩
  | .call c => ⟨x.sys.step e, x.nextId, x.bornCall c, x.made, x.mark, x.waitId⟩
  | _ => { x with sys := x.sys.step e }

end Traced

def Traced.start (k : Kernel) (kstack idleEntry : ℕ) : Traced :=
  ⟨.start k kstack idleEntry, 0, fun _ _ => 0, fun _ => 0, fun _ _ => ⟨0, false⟩, fun _ => 0⟩

/-- The states reached when every step meets `ok`. -/
inductive Traced.Reached (ok : Sys → Event → Prop) : Traced → Prop
  | start (k : Kernel) (kstack idleEntry : ℕ) : Traced.Reached ok (.start k kstack idleEntry)
  | step {x : Traced} (e : Event) : x.Reached ok → e.Possible x.sys → ok x.sys e →
      (x.step e).Reached ok

theorem Traced.step_sys (x : Traced) (e : Event) : (x.step e).sys = x.sys.step e := by
  cases e with
  | _ => rfl

/-! ### The conditions -/

/-- The record `n` of the process is the only end of pipe `q` in any table, and no read waits for
the pipe. -/
def LastEnd (x : Sys) (n : Fin maxFds) (q : ℤ) : Prop :=
  (∀ T i w, pipeEnd (tableAt x.bound T i) = some (q, w) → T = x.bound.fdtab ∧ i = n) ∧
  ∀ i count, x.waiting i ≠ some (q, count)

/-- **`dup2` and `dup3` replace the end of a pipe only when it is the last one.** -/
def ReplacesLast (x : Sys) : Event → Prop
  | .sys s => ∀ o n q w, s.effect x.fds = .copy o n → 3 ≤ n.val →
      pipeEnd (x.fds.table n) = some (q, w) → LastEnd x n q
  | _ => True

/-- **A file is not opened in a record that was the end of a pipe.** -/
def OpensClean (x : Sys) : Event → Prop
  | .sys s => ∀ n path, s.effect x.fds = .take n path →
      pipeEnd (openEnt (x.fds.table n) path) = none
  | _ => True

/-- **Bytes are written through ends for writing.** -/
def WritesEnd (x : Sys) : Event → Prop
  | .sys (.write _ fd _ _) => ∀ i p, fdIdx fd = some i → pipeEnd (x.fds.table i) ≠ some (p, false)
  | _ => True

/-! ### The invariant -/

/-- Every end of a pipe is an end of a pipe in use, and comes from the call that made it. -/
def Tagged (f : FdState) (b : Bufs) (born : Option ℕ → Fin maxFds → ℕ) (made : ℕ → ℕ) : Prop :=
  ∀ T i p w, pipeEnd (tableAt f T i) = some (p, w) →
    ∃ q : ℕ, p = q ∧ q < maxPipes ∧ (b.pipes q).used = true ∧ born T i = made q

/-- The buffer of pipe `q` has bytes from ends for writing of the call that made it. -/
structure Marked (x : Traced) (q : ℕ) : Prop where
  valid : Valid (x.sys.bufs.pipes q).ring
  own : ∀ o ∈ (x.marked q).content bufSize posCount, o = ⟨x.made q, true⟩

/-- **Descriptors and waiting reads are about pipes in use.** -/
structure EndsInUse (x : Traced) : Prop where
  tags : Tagged x.sys.procs.f x.sys.bufs x.born x.made
  waits : ∀ i p count, x.sys.waiting i = some (p, count) →
    ∃ q : ℕ, p = q ∧ q < maxPipes ∧ (x.sys.bufs.pipes q).used = true ∧ x.waitId i = x.made q

/-- **The invariant.** -/
structure Sorted (x : Traced) : Prop extends EndsInUse x where
  marks : ∀ q, Marked x q

theorem Tagged.mono {f f' : FdState} {b b' : Bufs} {born born' : Option ℕ → Fin maxFds → ℕ}
    {made : ℕ → ℕ} (h : Tagged f b born made)
    (hends : ∀ T i v, pipeEnd (tableAt f' T i) = some v →
      ∃ T' i', pipeEnd (tableAt f T' i') = some v ∧ born' T i = born T' i')
    (hused : ∀ q, (b.pipes q).used → (b'.pipes q).used) :
    Tagged f' b' born' made := by
  intro T i p w he
  obtain ⟨T', i', he', hb⟩ := hends T i (p, w) he
  obtain ⟨q, hp, hq, hu, hm⟩ := h T' i' p w he'
  exact ⟨q, hp, hq, hused q hu, hb.trans hm⟩

variable {x : Traced}

theorem Traced.bornCall_of_forks (h : Forks x.sys.procs.k c) :
    x.bornCall c (some (newSlot x.sys.procs.k)) = x.born x.sys.procs.f.fdtab := by
  obtain ⟨kframe, kstack, pml4, rfl, hok⟩ := h
  rw [Traced.bornCall, if_pos hok, update_self]

theorem Traced.bornCall_of_not
    (h : ¬ (Forks x.sys.procs.k c ∧ T = some (newSlot x.sys.procs.k))) :
    x.bornCall c T = x.born T := by
  cases c with
  | fork kframe kstack pml4 =>
    rw [Traced.bornCall]
    split
    · next hok =>
      rw [update_of_ne]
      exact fun hT => h ⟨⟨kframe, kstack, pml4, rfl, hok⟩, hT⟩
    · rfl
  | _ => rfl

theorem Marked.congr (h : Marked x q)
    (hr : (y.sys.bufs.pipes q).ring = (x.sys.bufs.pipes q).ring) (hm : y.mark q = x.mark q)
    (hd : y.made q = x.made q) : Marked y q := by
  refine ⟨by rw [hr]; exact h.valid, ?_⟩
  rw [Traced.marked, hr, hm, hd]
  exact h.own

theorem Marked.advance (h : Marked x q)
    (hr : Advances (x.sys.bufs.pipes q).ring out (y.sys.bufs.pipes q).ring)
    (hm : y.mark q = x.mark q) (hd : y.made q = x.made q) : Marked y q := by
  have hvm : (x.marked q).Valid bufSize posCount := ⟨h.valid.rpos, h.valid.wpos, h.valid.le⟩
  obtain ⟨-, hc⟩ := content_advance ring_sizes hvm
    (show out.length ≤ (x.marked q).count posCount from hr.le)
  obtain ⟨hv, -⟩ := content_advance ring_sizes h.valid hr.le
  rw [← hr.eq] at hv
  refine ⟨hv, fun o ho => ?_⟩
  rw [Traced.marked, hm, hr.eq] at ho
  rw [hd]
  refine h.own o ?_
  have ho' : o ∈ ((x.marked q).content bufSize posCount).drop out.length := by
    rw [← hc]
    exact ho
  exact mem_of_mem_drop ho'

variable {s : Syscall}

theorem Sys.waitsIn_some {x : Sys} {v : ℤ × ℤ} (hw : x.waitsIn s = some v) :
    ∃ a fd i w, s = .read a fd v.2 ∧ fdIdx fd = some i ∧
      pipeEnd (x.fds.table i) = some (v.1, w) := by
  cases s with
  | read a fd count =>
    dsimp only [Sys.waitsIn] at hw
    split at hw
    · obtain ⟨i, hi, hm⟩ := bind_eq_some_iff.mp hw
      obtain ⟨⟨p, w⟩, hp, rfl⟩ := map_eq_some_iff.mp hm
      exact ⟨a, fd, i, w, rfl, hi, hp⟩
    · cases hw
  | _ => cases hw

theorem Sys.afterRound_procs (x : Sys) : x.afterRound.procs = x.procs := by
  unfold Sys.afterRound
  split
  · rfl
  · rfl

theorem Sys.afterRound_used (x : Sys) (q : ℕ) :
    (x.afterRound.bufs.pipes q).used = (x.bufs.pipes q).used := by
  unfold Sys.afterRound
  split
  · rfl
  dsimp only [Sys.round, readRound]
  split
  · rfl
  · exact used_setPipe _ _ _ _

theorem Sys.afterRound_waiting {x : Sys} {i : ℕ} {v : ℤ × ℤ} (h : x.afterRound.waiting i = some v) :
    x.waiting i = some v := by
  unfold Sys.afterRound at h
  split at h
  · exact h
  dsimp only at h
  split at h
  · exact h
  rw [update_apply] at h
  split at h
  · cases h
  · exact h

section Ends

variable {x : Traced} (h : EndsInUse x)

include h

theorem EndsInUse.tags_bound : Tagged x.sys.bound x.sys.bufs x.born x.made :=
  h.tags.mono (fun T i _ he => ⟨T, i, pipeEnd_bound he, rfl⟩) fun _ hu => hu

theorem EndsInUse.bind : EndsInUse (x.step .bind) := ⟨h.tags_bound, h.waits⟩

theorem EndsInUse.kernel (k' : Kernel) : EndsInUse (x.step (.kernel k')) := ⟨h.tags, h.waits⟩

theorem EndsInUse.touch {y : Fds} (ht : Touched x.sys.fds y) : EndsInUse (x.step (.touch y)) where
  tags := by
    refine h.tags_bound.mono (fun T i v he => ⟨T, i, ?_, rfl⟩) fun q hu => ?_
    · have he' : pipeEnd (tableAt (putCurrent x.sys.bound y.table) T i) = some v := he
      rw [pipeEnd_putCurrent] at he'
      split at he'
      · next hT =>
        rw [ht.ends] at he'
        rw [hT]
        exact he'
      · exact he'
    · change (y.bufs.pipes q).used
      rw [ht.pipes]
      exact hu
  waits i p count hw := by
    obtain ⟨q, hp, hq, hu, hm⟩ := h.waits i p count hw
    refine ⟨q, hp, hq, ?_, hm⟩
    change (y.bufs.pipes q).used
    rw [ht.pipes]
    exact hu

theorem EndsInUse.call (c : Call) : EndsInUse (x.step (.call c)) where
  tags := by
    refine h.tags.mono (fun T i v he => ?_) fun _ hu => hu
    rcases pipeEnd_fdsAfter (x := x.sys.procs) he with ⟨hno, he'⟩ | ⟨hf, hT, he'⟩
    · exact ⟨T, i, he', congrFun (Traced.bornCall_of_not hno) i⟩
    · refine ⟨x.sys.procs.f.fdtab, i, he', ?_⟩
      rw [hT]
      exact congrFun (Traced.bornCall_of_forks hf) i
  waits i p count hw := by
    have hw' : (if ((c.run x.sys.procs.k).2.table i).pid = (x.sys.procs.k.table i).pid
        then x.sys.waiting i else none) = some (p, count) := hw
    split at hw'
    · exact h.waits i p count hw'
    · cases hw'

theorem EndsInUse.round : EndsInUse (x.step .round) := by
  have hused := x.sys.afterRound_used
  refine ⟨?_, fun i p count hi => ?_⟩
  · refine h.tags.mono (fun T i _ he => ⟨T, i, ?_, rfl⟩) fun q hu => (hused q).trans hu
    have he' : pipeEnd (tableAt x.sys.afterRound.procs.f T i) = _ := he
    rwa [Sys.afterRound_procs] at he'
  · obtain ⟨q, hp, hq, hu, hm⟩ := h.waits i p count (x.sys.afterRound_waiting hi)
    exact ⟨q, hp, hq, (hused q).trans hu, hm⟩

/-! #### System calls -/

variable {s : Syscall}

omit h in
theorem EndsInUse.used_sys (hu : (x.sys.bufs.pipes q).used)
    (hno : ¬ (s.effect x.sys.fds).Frees x.sys.fds.table q) :
    (((x.step (.sys s)).sys.bufs).pipes q).used ∧ x.madeSys s q = x.made q := by
  refine ⟨((s.does x.sys.alive x.sys.fds).used q).mpr (.inr ⟨hu, hno⟩), ?_⟩
  unfold Traced.madeSys
  cases he : s.effect x.sys.fds with
  | make pi r w =>
    refine update_of_ne ?_ _ _
    rintro rfl
    have hfree := (findPipe_some (Syscall.effect_make he).1).2
    exact Bool.false_ne_true (hfree.symm.trans hu)
  | _ => rfl

/-- The number `p` is that of a pipe in use, made by the call `c`. -/
def InUse (b : Bufs) (made : ℕ → ℕ) (p : ℤ) (c : ℕ) : Prop :=
  ∃ q : ℕ, p = q ∧ q < maxPipes ∧ (b.pipes q).used = true ∧ c = made q

omit h in
theorem InUse.sys (hq : InUse x.sys.bufs x.made p n)
    (hno : ∀ q : ℕ, p = q → ¬ (s.effect x.sys.fds).Frees x.sys.fds.table q) :
    InUse (x.step (.sys s)).sys.bufs (x.madeSys s) p n := by
  obtain ⟨q, hp, hq, hu, hm⟩ := hq
  obtain ⟨hu', hm'⟩ := EndsInUse.used_sys hu (hno q hp)
  exact ⟨q, hp, hq, hu', hm.trans hm'.symm⟩

omit h in
theorem Traced.bornSys_of_ne (hT : T ≠ x.tab) : x.bornSys s T = x.born T := by
  unfold Traced.bornSys
  cases s.effect x.sys.fds with
  | copy o n => exact update_of_ne hT _ _
  | make pi r w => exact update_of_ne hT _ _
  | _ => rfl

theorem EndsInUse.tags_sys (hr : ReplacesLast x.sys (.sys s)) (ho : OpensClean x.sys (.sys s)) :
    Tagged (x.step (.sys s)).sys.procs.f (x.step (.sys s)).sys.bufs (x.bornSys s) (x.madeSys s) := by
  intro T i p w he
  have he' : pipeEnd (tableAt (putCurrent x.sys.bound (s.run x.sys.alive x.sys.fds).table) T i) =
      some (p, w) := he
  rw [pipeEnd_putCurrent, (s.does _ _).ends, show x.sys.bound.fdtab = x.tab from rfl] at he'
  -- an end that was there before; when its pipe is given up, the replaced record was the only end
  have hold : ∀ T' i' w', pipeEnd (tableAt x.sys.bound T' i') = some (p, w') →
      (∀ o n, s.effect x.sys.fds = .copy o n → 3 ≤ n.val → T' = x.tab → i' ≠ n) →
      x.bornSys s T i = x.born T' i' →
      InUse (x.step (.sys s)).sys.bufs (x.madeSys s) p (x.bornSys s T i) := by
    intro T' i' w' hend hne hborn
    rw [hborn]
    refine InUse.sys (h.tags_bound T' i' p w' hend) fun q hp => ?_
    cases hef : s.effect x.sys.fds with
    | copy o n =>
      rintro ⟨h3, -, w'', hn⟩
      obtain ⟨hT', hi'⟩ := (hr o n q w'' hef h3 hn).1 T' i' w' (hp ▸ hend)
      exact hne o n hef h3 hT' hi'
    | _ => exact not_false
  by_cases hT : T = x.tab
  swap
  · rw [if_neg hT] at he'
    exact hold T i w he' (fun _ _ _ _ h => absurd h hT) (congrFun (Traced.bornSys_of_ne hT) i)
  subst hT
  rw [if_pos rfl] at he'
  cases hef : s.effect x.sys.fds with
  | keep =>
    rw [hef] at he'
    exact hold x.tab i w he' (by rw [hef]; nofun) (by rw [Traced.bornSys, hef])
  | drop fds =>
    rw [hef] at he'
    dsimp only [Effect.ends] at he'
    split at he'
    · cases he'
    · exact hold x.tab i w he' (by rw [hef]; nofun) (by rw [Traced.bornSys, hef])
  | take n path =>
    rw [hef, Effect.ends] at he'
    by_cases hi : i = n
    · rw [hi, update_self, ho n path hef] at he'
      cases he'
    · rw [update_of_ne hi] at he'
      exact hold x.tab i w he' (by rw [hef]; nofun) (by rw [Traced.bornSys, hef])
  | copy o n =>
    have hborn : x.bornSys s x.tab = update (x.born x.tab) n (x.born x.tab o) := by
      rw [Traced.bornSys, hef]
      exact update_self _ _ _
    rw [hef, Effect.ends] at he'
    by_cases hi : i = n
    · rw [hi, update_self] at he'
      split at he'
      · cases he'
      next hself =>
      refine hold x.tab o w he' (fun o' n' hc h3 _ hon => ?_) ?_
      · cases hef.symm.trans hc
        exact hself ⟨hon, h3⟩
      · rw [hborn, hi, update_self]
    · rw [update_of_ne hi] at he'
      refine hold x.tab i w he' (fun o' n' hc _ _ => ?_) ?_
      · cases hef.symm.trans hc
        exact hi
      · rw [hborn, update_of_ne hi]
  | make pi r w' =>
    have hborn : x.bornSys s x.tab = update (update (x.born x.tab) r x.nextId) w' x.nextId := by
      rw [Traced.bornSys, hef]
      exact update_self _ _ _
    have hmade : x.madeSys s pi = x.nextId := by
      rw [Traced.madeSys, hef]
      exact update_self _ _ _
    have hpi := (findPipe_some (Syscall.effect_make hef).1).1
    have hnew : ((x.step (.sys s)).sys.bufs.pipes pi).used :=
      ((s.does x.sys.alive x.sys.fds).used pi).mpr (.inl (by rw [hef]; exact rfl))
    rw [hef, Effect.ends] at he'
    by_cases hi : i = w'
    · rw [hi, update_self] at he'
      refine ⟨pi, (congrArg Prod.fst (Option.some.inj he')).symm, hpi, hnew, ?_⟩
      rw [hborn, hmade, hi, update_self]
    rw [update_of_ne hi] at he'
    by_cases hi' : i = r
    · rw [hi', update_self] at he'
      refine ⟨pi, (congrArg Prod.fst (Option.some.inj he')).symm, hpi, hnew, ?_⟩
      rw [hborn, hmade, update_of_ne hi, hi', update_self]
    · rw [update_of_ne hi'] at he'
      refine hold x.tab i w he' (by rw [hef]; nofun) ?_
      rw [hborn, update_of_ne hi, update_of_ne hi']

theorem EndsInUse.waits_sys (hr : ReplacesLast x.sys (.sys s)) (i : ℕ) (p count : ℤ)
    (hw : (x.step (.sys s)).sys.waiting i = some (p, count)) :
    InUse (x.step (.sys s)).sys.bufs (x.madeSys s) p (x.waitIdSys s i) := by
  have hw' : ((x.sys.waitsIn s).elim x.sys.waiting fun v =>
      update x.sys.waiting x.sys.procs.k.running (some v)) i = some (p, count) := hw
  -- a read that waited before
  have hold : x.sys.waiting i = some (p, count) → x.waitIdSys s i = x.waitId i →
      InUse (x.step (.sys s)).sys.bufs (x.madeSys s) p (x.waitIdSys s i) := by
    intro hi hid
    rw [hid]
    refine InUse.sys (h.waits i p count hi) fun q hp => ?_
    cases hef : s.effect x.sys.fds with
    | copy o n =>
      rintro ⟨h3, -, w, hn⟩
      exact (hr o n q w hef h3 hn).2 i count (by rw [hi, hp])
    | _ => exact not_false
  cases hv : x.sys.waitsIn s with
  | none =>
    rw [hv] at hw'
    refine hold hw' ?_
    cases s with
    | read a fd c =>
      dsimp only [Traced.waitIdSys]
      rw [hv]
      cases fdIdx fd with
      | none => rfl
      | some j => rfl
    | _ => rfl
  | some v =>
    obtain ⟨a, fd, j, w, rfl, hj, hend⟩ := Sys.waitsIn_some hv
    have hid : x.waitIdSys (.read a fd v.2) =
        update x.waitId x.sys.procs.k.running (x.born x.tab j) := by
      dsimp only [Traced.waitIdSys]
      rw [hv, hj]
      rfl
    rw [hv] at hw'
    by_cases hi : i = x.sys.procs.k.running
    · subst hi
      rw [elim_some, update_self] at hw'
      obtain ⟨rfl, rfl⟩ := Prod.mk.inj (Option.some.inj hw')
      rw [hid, update_self]
      exact InUse.sys (h.tags_bound x.tab j _ w hend) fun _ _ => not_false
    · rw [elim_some, update_of_ne hi] at hw'
      refine hold hw' ?_
      rw [hid, update_of_ne hi]

theorem EndsInUse.sys (hr : ReplacesLast x.sys (.sys s)) (ho : OpensClean x.sys (.sys s)) :
    EndsInUse (x.step (.sys s)) :=
  ⟨h.tags_sys hr ho, h.waits_sys hr⟩

end Ends

/-! ### The buffers -/

section Marks

theorem advances_setPipe {b : Bufs} {p q : ℕ} (hv : Valid (b.pipes q).ring)
    (ha : Advances (b.pipes p).ring out r) :
    ∃ out', Advances (b.pipes q).ring out' ((b.setPipe p r).pipes q).ring := by
  rw [Bufs.setPipe_pipes]
  by_cases hq : q = p
  · subst hq
    rw [update_self]
    exact ⟨out, ha⟩
  · rw [update_of_ne hq]
    exact ⟨[], .same hv⟩

variable {x : Traced} (h : Sorted x) {s : Syscall}

include h

theorem Sorted.marks_round (q : ℕ) : Marked (x.step .round) q := by
  have hring : ∃ out, Advances (x.sys.bufs.pipes q).ring out (x.sys.afterRound.bufs.pipes q).ring := by
    unfold Sys.afterRound
    split
    · exact ⟨[], .same (h.marks q).valid⟩
    next p count _ =>
    dsimp only [Sys.round, readRound]
    split
    · exact ⟨[], .same (h.marks q).valid⟩
    exact advances_setPipe (h.marks q).valid (advances_drainRing (h.marks _).valid count.toNat)
  obtain ⟨out, ho⟩ := hring
  exact (h.marks q).advance ho rfl rfl

theorem Sorted.marks_write {a : Answers} {buf : ℕ → UInt8}
    (hw : WritesEnd x.sys (.sys (.write a fd buf count))) (q : ℕ) :
    Marked (x.step (.sys (.write a fd buf count))) q := by
  rcases doWriteFd_cases x.sys.fds a fd buf count with ⟨i, hi, hu, ht, hbufs⟩ | ⟨hno, hkept⟩
  · have hend : pipeEnd (x.sys.fds.table i) = some ((x.sys.fds.table i).rest.pipeIdx,
        decide ((x.sys.fds.table i).rest.wend ≠ 0)) := if_pos ⟨hu, ht⟩
    generalize (x.sys.fds.table i).rest.pipeIdx = p at hbufs hend
    generalize hb : decide ((x.sys.fds.table i).rest.wend ≠ 0) = wend at hend
    have hwend : wend := by
      cases wend with
      | true => rfl
      | false => exact absurd hend (hw i p hi)
    rw [hwend] at hend
    obtain ⟨l, hp, hl, hused, hborn⟩ := h.tags_bound x.sys.bound.fdtab i p true hend
    have hok : x.sys.bufs.pipeOk p := by
      rw [Bufs.pipeOk, hp, Int.toNat_natCast]
      exact decide_eq_true ⟨Int.natCast_nonneg l, by exact_mod_cast hl, hused⟩
    have hring := writePipe_ring hok (nonblock (x.sys.fds.table i)) buf count q
    set os := List.replicate count.toNat (⟨x.born x.tab i, true⟩ : Origin) with hos
    set m := (RingBuf.pushAll bufSize posCount os (x.marked p.toNat)).2
    have hmark : x.markSys (.write a fd buf count) = update x.mark p.toNat m.buf := by
      dsimp only [Traced.markSys]
      rw [hi, bind_some, hend]
      exact if_pos hok
    have hring' : ((x.step (.sys (.write a fd buf count))).sys.bufs.pipes q).ring =
        if q = p.toNat then (fillRing (x.sys.bufs.pipes p.toNat).ring buf count).2
        else (x.sys.bufs.pipes q).ring := by
      rw [← hring]
      exact congrArg (fun y : Fds => (y.bufs.pipes q).ring) hbufs
    have hmark' : (x.step (.sys (.write a fd buf count))).mark q = update x.mark p.toNat m.buf q :=
      congrFun hmark q
    by_cases hq : q = p.toNat
    · subst hq
      rw [if_pos rfl] at hring'
      rw [update_self] at hmark'
      have hv := (h.marks p.toNat).valid
      have hvm : (x.marked p.toNat).Valid bufSize posCount := ⟨hv.rpos, hv.wpos, hv.le⟩
      obtain ⟨hn, hvn, -⟩ := pushAll_spec ring_sizes (bytesOf buf count) hv
      obtain ⟨hn', -, hc'⟩ := pushAll_spec ring_sizes os hvm
      obtain ⟨hr1, hw1⟩ := pushAll_advance ring_sizes (bytesOf buf count) hv
      obtain ⟨hr2, hw2⟩ := pushAll_advance ring_sizes os hvm
      rw [length_bytesOf] at hn
      rw [hos, length_replicate] at hn'
      refine ⟨by rw [hring']; exact hvn, ?_⟩
      -- the marked buffer is filled like the buffer of bytes
      have hmarked : (x.step (.sys (.write a fd buf count))).marked p.toNat = m := by
        rw [Traced.marked, hring', hmark']
        refine RingBuf.mk.injEq .. ▸ ⟨rfl, ?_, ?_⟩
        · rw [hr2]
          exact hr1
        · rw [hw2, hn']
          refine hw1.trans ?_
          rw [hn]
          rfl
      rw [hmarked, hc']
      intro o ho
      rcases mem_append.mp ho with ho | ho
      · exact (h.marks p.toNat).own o ho
      obtain rfl := eq_of_mem_replicate (mem_of_mem_take ho)
      have hml : p.toNat = l := by rw [hp, Int.toNat_natCast]
      rw [hml]
      exact congrArg (Origin.mk · true) hborn
    · rw [if_neg hq] at hring'
      rw [update_of_ne hq] at hmark'
      exact (h.marks q).congr hring' hmark' rfl
  · refine (h.marks q).congr (congrArg (fun b => (b q).ring) hkept.pipes) ?_ rfl
    refine congrFun ?_ q
    change x.markSys (.write a fd buf count) = x.mark
    dsimp only [Traced.markSys]
    cases hi : fdIdx fd with
    | none => rfl
    | some i =>
      rw [bind_some, hno i hi]
      rfl

theorem Sorted.marks_read (hs : s.quiet = false)
    (hs' : ∀ a fd buf count, s ≠ .write a fd buf count) (q : ℕ) : Marked (x.step (.sys s)) q := by
  have hval := fun l => (h.marks l).valid
  have hring : ∃ out, Advances (x.sys.bufs.pipes q).ring out
      (((s.run x.sys.alive x.sys.fds).bufs).pipes q).ring := by
    cases s with
    | read a fd count =>
      rcases sysRead_cases x.sys.fds a x.sys.alive fd count with ⟨i, -, -, -, he⟩ | ⟨-, he⟩
      · rw [Syscall.run, he]
        rcases readPipe_cases x.sys.fds.bufs (x.sys.fds.table i).rest.pipeIdx
          (nonblock (x.sys.fds.table i)) (x.sys.alive (x.sys.fds.table i).rest.pipeIdx) count
          with ⟨res, -, hr⟩ | hr
        · rw [hr]
          exact ⟨[], .same (hval q)⟩
        · rw [hr]
          exact advances_setPipe (hval q) (advances_drainRing (hval _) count.toNat)
      · rw [Syscall.run, he.pipes]
        exact ⟨[], .same (hval q)⟩
    | readv fd iov =>
      rcases sysReadv_pipes x.sys.fds fd iov with ⟨i, -, -, -, he⟩ | he
      · rw [Syscall.run, he]
        unfold readvPipe
        split
        · exact ⟨[], .same (hval q)⟩
        · split
          · exact ⟨[], .same (hval q)⟩
          · exact advances_setPipe (hval q) (advances_readvLoop iov (hval _))
      · rw [Syscall.run, he]
        exact ⟨[], .same (hval q)⟩
    | write a fd buf count => exact absurd rfl (hs' a fd buf count)
    | _ => cases hs
  have hmark : x.markSys s = x.mark ∧ x.madeSys s = x.made := by
    cases s with
    | write a fd buf count => exact absurd rfl (hs' a fd buf count)
    | read a fd count => exact ⟨rfl, rfl⟩
    | readv fd iov => exact ⟨rfl, rfl⟩
    | _ => cases hs
  obtain ⟨out, ho⟩ := hring
  exact (h.marks q).advance ho (congrFun hmark.1 q) (congrFun hmark.2 q)

theorem Sorted.marks_quiet (hs : s.quiet) (q : ℕ) :
    Marked (x.step (.sys s)) q := by
  have hmark : x.markSys s = x.mark := by
    cases s with
    | write a fd buf count => cases hs
    | _ => rfl
  obtain ⟨hnew, hold⟩ := Syscall.ring x.sys.alive x.sys.fds s hs q
  by_cases hm : (s.effect x.sys.fds).Makes q
  · have hring : ((x.step (.sys s)).sys.bufs.pipes q).ring = ⟨fun _ => 0, 0, 0⟩ := hnew hm
    refine ⟨?_, ?_⟩
    · rw [hring]
      exact (RingBuf.Valid.empty ring_sizes _).1
    · rw [Traced.marked, hring, (RingBuf.Valid.empty ring_sizes _).2]
      intro o ho
      cases ho
  refine (h.marks q).congr (hold hm) (congrFun hmark q) ?_
  change x.madeSys s q = x.made q
  unfold Traced.madeSys
  cases he : s.effect x.sys.fds with
  | make pi r w =>
    rw [he] at hm
    exact update_of_ne (Ne.symm hm) _ _
  | _ => rfl

theorem Sorted.marks_sys (hw : WritesEnd x.sys (.sys s)) (q : ℕ) : Marked (x.step (.sys s)) q := by
  cases hs : s.quiet with
  | true => exact h.marks_quiet hs q
  | false =>
    cases s with
    | write a fd buf count => exact h.marks_write hw q
    | read a fd count => exact h.marks_read hs (fun _ _ _ _ => Syscall.noConfusion) q
    | readv fd iov => exact h.marks_read hs (fun _ _ _ _ => Syscall.noConfusion) q
    | _ => cases hs

end Marks

/-! ### Isolation -/

/-- The condition on the steps of a run. -/
def Careful (x : Sys) (e : Event) : Prop := ReplacesLast x e ∧ OpensClean x e ∧ WritesEnd x e

theorem EndsInUse.start (k : Kernel) (kstack idleEntry : ℕ) :
    EndsInUse (.start k kstack idleEntry) where
  tags T i p w he := by
    have hnone : pipeEnd (tableAt noFds T i) = none := by
      cases T with
      | none => exact pipeEnd_of_not_used rfl
      | some j => exact pipeEnd_of_not_used rfl
    cases hnone.symm.trans he
  waits i p count hw := absurd hw.symm (some_ne_none _)

theorem EndsInUse.reached (hok : ∀ y e, ok y e → ReplacesLast y e ∧ OpensClean y e) {x : Traced}
    (h : x.Reached ok) :
    EndsInUse x := by
  induction h with
  | start k kstack idleEntry => exact .start k kstack idleEntry
  | step e _ hp hx ih =>
    cases e with
    | sys s => exact ih.sys (hok _ _ hx).1 (hok _ _ hx).2
    | call c => exact ih.call c
    | bind => exact ih.bind
    | round => exact ih.round
    | kernel k' => exact ih.kernel k'
    | touch y => exact ih.touch hp

theorem Marked.start (k : Kernel) (kstack idleEntry : ℕ) (q : ℕ) :
    Marked (.start k kstack idleEntry) q := by
  refine ⟨(RingBuf.Valid.empty ring_sizes _).1, fun o ho => ?_⟩
  have hnil := (RingBuf.Valid.empty ring_sizes fun _ => (⟨0, false⟩ : Origin)).2
  rw [show (Traced.start k kstack idleEntry).marked q = ⟨fun _ => ⟨0, false⟩, 0, 0⟩ from rfl,
    hnil] at ho
  cases ho

/-- **The invariant holds in every run whose steps meet the condition.** -/
theorem Sorted.reached (h : x.Reached Careful) : Sorted x := by
  refine ⟨EndsInUse.reached (fun _ _ hx => ⟨hx.1, hx.2.1⟩) h, ?_⟩
  induction h with
  | start k kstack idleEntry => exact .start k kstack idleEntry
  | @step x e hrun hp hok ih =>
    have hs : Sorted x := ⟨EndsInUse.reached (fun _ _ hx => ⟨hx.1, hx.2.1⟩) hrun, ih⟩
    intro q
    cases e with
    | sys s => exact hs.marks_sys hok.2.2 q
    | call c => exact (ih q).congr rfl rfl rfl
    | bind => exact (ih q).congr rfl rfl rfl
    | round => exact hs.marks_round q
    | kernel k' => exact (ih q).congr rfl rfl rfl
    | touch y => exact (ih q).congr (congrArg (fun p => (p q).ring) hp.pipes) rfl rfl

/-- The bytes are the next in the buffer of pipe `q`, and each was written through an end for writing
that comes from the call `id` of `pipe`. -/
def FromEnds (x : Traced) (q id : ℕ) (bytes : List UInt8) : Prop :=
  bytes = (List.range bytes.length).map (fun j =>
    (x.sys.bufs.pipes q).ring.buf (((x.sys.bufs.pipes q).ring.rpos + j) % bufSize)) ∧
  ∀ j < bytes.length, x.mark q (((x.sys.bufs.pipes q).ring.rpos + j) % bufSize) = ⟨id, true⟩

/-- **Isolation.**  What a read returns through a descriptor was written through ends from the same
call of `pipe`, and a pipe is not handed out while a live process has an end of it. -/
structure Isolated (x : Traced) : Prop where
  read : ∀ a fd count i p w, fdIdx fd = some i → pipeEnd (x.sys.fds.table i) = some (p, w) →
    FromEnds x p.toNat (x.born x.tab i) (sysRead a x.sys.alive x.sys.fds fd count).1.bytes
  readv : ∀ fd iov i p w, fdIdx fd = some i → pipeEnd (x.sys.fds.table i) = some (p, w) →
    FromEnds x p.toNat (x.born x.tab i) (sysReadv x.sys.fds fd iov).1.bytes
  round : ∀ p count, x.sys.waiting x.sys.procs.k.running = some (p, count) →
    FromEnds x p.toNat (x.waitId x.sys.procs.k.running) (x.sys.round p count).1.bytes
  fresh : ∀ flags out r w pi, (pipeWith flags x.sys.fds out).1 = some (r, w) →
    findPipe x.sys.bufs = some pi → ∀ i t j wend, Live x.sys.procs.k i →
      x.sys.bound.fdsTab i = some t → pipeEnd (x.sys.bound.fdTables t j) ≠ some ((pi : ℤ), wend)

theorem FromEnds.nil (x : Traced) (q id : ℕ) : FromEnds x q id [] :=
  ⟨rfl, fun _ hj => absurd hj (Nat.not_lt_zero _)⟩

section Isolation

variable {x : Traced} (h : Sorted x)

include h

theorem Sorted.fromEnds {id : ℕ} {r : RingBuf UInt8}
    (ha : Advances (x.sys.bufs.pipes q).ring out r) (hid : id = x.made q) :
    FromEnds x q id out := by
  have hle : out.length ≤ (x.sys.bufs.pipes q).ring.count posCount := ha.le
  refine ⟨?_, fun j hj => ?_⟩
  · have ho := ha.out
    rwa [content, RingBuf.content, ← map_take, take_range, Nat.min_eq_left hle] at ho
  · rw [hid]
    refine (h.marks q).own _ (mem_map.mpr ⟨j, mem_range.mpr (hj.trans_le hle), rfl⟩)

theorem Sorted.fromEnds_read (a : Answers) (count : ℤ) (hi : fdIdx fd = some i)
    (he : pipeEnd (x.sys.fds.table i) = some (p, w)) :
    FromEnds x p.toNat (x.born x.tab i) (sysRead a x.sys.alive x.sys.fds fd count).1.bytes := by
  obtain ⟨q, rfl, -, -, hm⟩ := h.tags_bound x.sys.bound.fdtab i p w he
  obtain ⟨hu, ht, hidx⟩ := pipeEnd_eq_some he
  rcases sysRead_cases x.sys.fds a x.sys.alive fd count with ⟨j, hj, -, -, hr⟩ | ⟨hno, -⟩
  · cases hi.symm.trans hj
    rw [hr, hidx]
    rcases readPipe_cases x.sys.fds.bufs (q : ℤ) (nonblock (x.sys.fds.table i)) (x.sys.alive q)
      count with ⟨res, hb, hr'⟩ | hr'
    · rw [hr']
      rw [hb]
      exact .nil _ _ _
    · rw [hr']
      exact h.fromEnds (advances_drainRing (h.marks _).valid count.toNat) hm
  · rw [hno i hi] at he
    cases he

theorem Sorted.fromEnds_readv (iov : List (ℕ × ℕ)) (hi : fdIdx fd = some i)
    (he : pipeEnd (x.sys.fds.table i) = some (p, w)) :
    FromEnds x p.toNat (x.born x.tab i) (sysReadv x.sys.fds fd iov).1.bytes := by
  obtain ⟨q, rfl, -, -, hm⟩ := h.tags_bound x.sys.bound.fdtab i p w he
  obtain ⟨-, -, hidx⟩ := pipeEnd_eq_some he
  rcases sysReadv_pipes x.sys.fds fd iov with ⟨j, hj, -, -, hr⟩ | hr
  · cases hi.symm.trans hj
    rw [hr, hidx]
    unfold readvPipe
    split
    · exact .nil _ _ _
    · split
      · exact .nil _ _ _
      · exact h.fromEnds (advances_readvLoop iov (h.marks _).valid) hm
  · rw [hr]
    exact .nil _ _ _

theorem Sorted.fromEnds_round (hw : x.sys.waiting x.sys.procs.k.running = some (p, count)) :
    FromEnds x p.toNat (x.waitId x.sys.procs.k.running) (x.sys.round p count).1.bytes := by
  obtain ⟨q, rfl, -, -, hm⟩ := h.waits _ p count hw
  unfold Sys.round readRound
  split
  · exact .nil _ _ _
  · exact h.fromEnds (advances_drainRing (h.marks _).valid count.toNat) hm

end Isolation

/-- **Pipes are isolated in every run in which `dup2` and `dup3` replace last ends only, files are
opened in records that were no ends of pipes, and bytes are written through ends for writing.** -/
theorem pipes_isolated (x : Traced) (h : x.Reached Careful) : Isolated x := by
  have hs := Sorted.reached h
  refine ⟨fun a fd count i p w hi he => hs.fromEnds_read a count hi he,
    fun fd iov i p w hi he => hs.fromEnds_readv iov hi he,
    fun p count hw => hs.fromEnds_round hw, ?_⟩
  intro flags out r w pi _ hpi i t j wend _ _ he
  obtain ⟨q, hq, -, hu, -⟩ := hs.tags_bound (some t) j pi wend he
  obtain rfl : pi = q := by exact_mod_cast hq
  exact Bool.false_ne_true ((findPipe_some hpi).2.symm.trans hu)

/-! ### Two runs -/

/-- The first program, which makes a pipe. -/
def withPipe : Traced :=
  (((Traced.start blank 0x10000 0x100).step
    (.call (.spawn 0x400000 0x800000 (some 0x20000) (some 0x30000)))).step (.call .schedule)).step
      (.sys (.pipe true))

theorem withPipe_reached (hcall : ∀ x c, ok x (.call c)) (hpipe : ∀ x, ok x (.sys (.pipe true))) :
    withPipe.Reached ok :=
  .step _ (.step _ (.step _ (.start _ _ _) trivial (hcall _ _)) trivial (hcall _ _)) trivial
    (hpipe _)

theorem careful_pipe (x : Sys) : Careful x (.sys (.pipe true)) := by
  have heff : ∀ e, makePipe x.fds true = e → (∀ o n, e ≠ .copy o n) ∧ ∀ n path, e ≠ .take n path := by
    rintro e rfl
    unfold makePipe
    split
    · exact ⟨fun _ _ => Effect.noConfusion, fun _ _ => Effect.noConfusion⟩
    · exact ⟨fun _ _ => Effect.noConfusion, fun _ _ => Effect.noConfusion⟩
  exact ⟨fun o n q w he => absurd he ((heff _ rfl).1 o n),
    fun n path he => absurd he ((heff _ rfl).2 n path), trivial⟩

/-- It writes two bytes through descriptor 4 and reads one of them through descriptor 3. -/
def usedPipe : Traced :=
  (withPipe.step (.sys (.write noAnswers 4 (fun _ => 7) 2))).step (.sys (.read noAnswers 3 1))

theorem usedPipe_reached : usedPipe.Reached Careful := by
  have hend : pipeEnd (withPipe.sys.fds.table 4) = some (0, true) := by decide +kernel
  refine .step _ (.step _ (withPipe_reached (fun _ _ => ⟨trivial, trivial, trivial⟩) careful_pipe)
    trivial ⟨fun _ _ _ _ he => Effect.noConfusion he, fun _ _ he => Effect.noConfusion he,
      fun i p hi he => ?_⟩) trivial
    ⟨fun _ _ _ _ he => Effect.noConfusion he, fun _ _ he => Effect.noConfusion he, trivial⟩
  obtain rfl : i = 4 := some.inj (hi.symm.trans (fdIdx_coe 4))
  cases hend.symm.trans he

theorem pipes_isolated_usedPipe : usedPipe.Reached Careful ∧ Isolated usedPipe :=
  ⟨usedPipe_reached, pipes_isolated usedPipe usedPipe_reached⟩

/-- **The program duplicates its console onto the end for reading, and the pipe is handed out again
although descriptor 4 is the end for writing.** -/
theorem dup2_hands_out_pipe : ∃ x : Traced, x.Reached (fun _ _ => True) ∧ ¬ Isolated x := by
  refine ⟨withPipe.step (.sys (.dup2 0 3)),
    .step _ (withPipe_reached (fun _ _ => trivial) fun _ => trivial) trivial trivial, fun h => ?_⟩
  refine h.fresh 0 true 5 6 0 (by decide +kernel) (by decide +kernel) 1 1 4 true ?_
    (by decide +kernel) (by decide +kernel)
  unfold Live
  decide +kernel

end TipOS.Ipc
