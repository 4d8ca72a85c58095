import TipOS.Io.Devices
import TipOS.Ipc.Sockets

/-!
# `poll` and `select`

Both are to report the watched descriptors that a read would not wait for (`Ready`), count them, and
clear the others.  `poll` looks at 16 entries only, whatever they ask for, and has no branch for
pipes, timers and files; `select` has none for eventfds either, never clears a bit, and sets bits
that nobody asked for.  `poll_select_iff` says for which tables and sets they are right.
-/

namespace TipOS.Io

open Lib Process Ipc Fs Nat Int

/-- What the two calls look at, and what a read would. -/
structure Watch where
  socks : Socks
  dev : Devices
  files : Files
  alive : ℤ → Bool

namespace Watch

def table (w : Watch) : FdTable := w.socks.fds.table
def bufs (w : Watch) : Bufs := w.socks.fds.bufs
def io (w : Watch) : IoState := ⟨w.socks.fds, w.dev⟩

/-- `rpos != wpos` of a socket. -/
def HasData (w : Watch) (k : ℤ) : Prop :=
  (w.bufs.socks k.toNat).ring.rpos ≠ (w.bufs.socks k.toNat).ring.wpos

/-- `npending > 0` of a socket. -/
def HasClient (w : Watch) (k : ℤ) : Prop := (w.socks.ctl k.toNat).pending ≠ []

instance (w : Watch) (k : ℤ) : Decidable (w.HasData k) := inferInstanceAs (Decidable (_ ≠ _))
instance (w : Watch) (k : ℤ) : Decidable (w.HasClient k) := inferInstanceAs (Decidable (_ ≠ _))

end Watch

/-! ### The calls -/

/-- `s >= 0 && s < MAX_SOCKS`. -/
def SockRange (k : ℤ) : Prop := 0 ≤ k ∧ k < maxSocks

instance (k : ℤ) : Decidable (SockRange k) := inferInstanceAs (Decidable (_ ∧ _))

/-- `fd_readable` of a descriptor from 3 on that is in use. -/
def EntReadable (w : Watch) (e : FdEnt) : Prop :=
  if e.type = fdTty then w.dev.kbdRaw ≠ []
  else if e.type = fdMice then w.dev.mice ≠ []
  else e.type = typeSock ∧ SockRange e.rest.sockIdx ∧
    (w.HasData e.rest.sockIdx ∨ w.HasClient e.rest.sockIdx)

instance (w : Watch) (e : FdEnt) : Decidable (EntReadable w e) :=
  inferInstanceAs (Decidable (ite _ _ _))

/-- `fd_readable`. -/
def fdReadable (w : Watch) (fd : ℤ) : Bool :=
  match fdIdx fd with
  | none => false
  | some i => decide (3 ≤ i.val ∧ (w.table i).used = true ∧ EntReadable w (w.table i))

/-- The test for eventfds of `poll`. -/
def eventReady (w : Watch) (fd : ℤ) : Bool :=
  match fdIdx fd with
  | none => false
  | some i => decide (3 ≤ i.val ∧ (w.table i).used = true ∧ (w.table i).type = typeEvent ∧
      0 < (w.table i).rest.counter)

/-- `struct pollfd`. -/
structure PollFd where
  fd : ℤ
  events : ℕ
  revents : ℕ

def pollIn : ℕ := 1

/-- How often the body of the loop counts an entry. -/
def pollCount (w : Watch) (fd : ℤ) : ℕ :=
  (if fd = 0 ∧ w.dev.keyboard ≠ [] then 1 else 0) + (if eventReady w fd = true then 1 else 0) +
    (if fdReadable w fd = true then 1 else 0)

/-- The body of the loop. -/
def pollEntry (w : Watch) (p : PollFd) : PollFd :=
  { p with revents := if 0 < pollCount w p.fd then pollIn else 0 }

/-- `SYS_poll` and `ppoll`. -/
def sysPoll (w : Watch) (l : List PollFd) : ℕ × List PollFd :=
  (((l.take 16).map fun p => pollCount w p.fd).sum, (l.take 16).map (pollEntry w) ++ l.drop 16)

/-- The descriptors that the loop of `SYS_select` finds readable. -/
def selectHits (w : Watch) (nfds : ℤ) : List ℕ :=
  (List.range maxFds).filter fun j => decide (3 ≤ j ∧ j < nfds) && fdReadable w j

/-- `SYS_select`: the number it returns, and the set. -/
def sysSelect (w : Watch) (nfds : ℤ) : Option (ℕ → Bool) → ℕ × Option (ℕ → Bool)
  | none => (0, none)
  | some set =>
    let key := decide (w.dev.keyboard ≠ [])
    ((if key = true then 1 else 0) + (selectHits w nfds).length,
      some fun j => set j || (decide (j = 0) && key) || decide (j ∈ selectHits w nfds))

/-! ### What they are for -/

/-- A call that has returned data or the end of file. -/
def Succeeds : ReadResult → Prop
  | .waits => False
  | .done ret _ => 0 ≤ ret

/-- **A descriptor that is ready**: a read returns at once with data or the end of file, or there is
a connection to accept. -/
def Ready (w : Watch) (fd : ℤ) : Prop :=
  (∃ n, 0 < n ∧ Succeeds (readOn w.files w.alive w.io fd n).1) ∨
    ∃ k, slotOf w.table fd = some k ∧ (w.socks.ctl k).pending ≠ []

/-- An entry asks for `POLLIN`, and its descriptor is ready. -/
def Due (w : Watch) (p : PollFd) : Prop := p.events % 2 = 1 ∧ Ready w p.fd

open Classical in
/-- **`poll` is exact**: the entries that are due are marked and counted, the others are cleared. -/
structure PollExact (w : Watch) (l : List PollFd) : Prop where
  count : (sysPoll w l).1 = (l.filter fun p => decide (Due w p)).length
  entries : (sysPoll w l).2 = l.map fun p => { p with revents := if Due w p then pollIn else 0 }

open Classical in
/-- **`select` is exact**: of the watched descriptors, those below `nfds` in the set, the ready ones
stay and are counted. -/
def SelectExact (w : Watch) (nfds : ℤ) (set : Option (ℕ → Bool)) : Prop :=
  sysSelect w nfds set =
    match set with
    | none => (0, none)
    | some bits => (((List.range nfds.toNat).filter fun j => bits j && decide (Ready w j)).length,
        some fun j => if j < nfds then bits j && decide (Ready w j) else bits j)

/-! ### When they are right -/

/-- A read of a pipe does not wait. -/
def PipeReady (w : Watch) (e : FdEnt) : Prop :=
  w.bufs.pipeOk e.rest.pipeIdx = true ∧
    ((w.bufs.pipes e.rest.pipeIdx.toNat).ring.rpos ≠ (w.bufs.pipes e.rest.pipeIdx.toNat).ring.wpos ∨
      nonblock e = false ∧ w.alive e.rest.pipeIdx = false)

/-- A read of a socket does not wait. -/
def SockReady (w : Watch) (k : ℤ) : Prop :=
  w.bufs.sockOk k = true ∧ (w.HasData k ∨ (w.bufs.socks k.toNat).nonblock = false)

/-- **`poll` is right about a descriptor.** -/
def PollAgrees (w : Watch) (fd : ℤ) : Prop :=
  match fdIdx fd with
  | none => True
  | some i =>
    let e := w.table i
    if e.used = true ∧ e.type = typePipe then (i.val = 0 ∧ w.dev.keyboard ≠ [] ↔ PipeReady w e)
    else if i.val < 3 ∨ e.used = false then True
    else if e.type = fdTty ∨ e.type = fdMice ∨ e.type = fdFb then True
    else if e.type = typeEvent then 0 < e.rest.counter
    else if e.type = typeTimer then False
    else if e.type = typeSock then
      SockRange e.rest.sockIdx → ¬ w.HasClient e.rest.sockIdx →
        (w.HasData e.rest.sockIdx ↔ SockReady w e.rest.sockIdx)
    else w.files.rest e.rest.name e.rest.pos = none

/-- Something that `poll` looks at. -/
def Signals (w : Watch) (fd : ℤ) : Prop :=
  match fdIdx fd with
  | none => False
  | some i =>
    let e := w.table i
    i.val = 0 ∧ w.dev.keyboard ≠ [] ∨ 3 ≤ i.val ∧ e.used = true ∧
      (e.type = typeEvent ∧ 0 < e.rest.counter ∨ EntReadable w e)

/-- A read does not wait, or there is a connection. -/
def Readable (w : Watch) (fd : ℤ) : Prop :=
  match fdIdx fd with
  | none => False
  | some i =>
    let e := w.table i
    if e.used = true ∧ e.type = typePipe then PipeReady w e
    else if i.val = 0 then w.dev.keyboard ≠ []
    else if i.val < 3 ∨ e.used = false then False
    else if e.type = fdTty then w.dev.kbdRaw ≠ []
    else if e.type = fdMice then w.dev.mice ≠ []
    else if e.type = fdFb then False
    else if e.type = typeEvent ∨ e.type = typeTimer then True
    else if e.type = typeSock then SockRange e.rest.sockIdx ∧
      (w.HasClient e.rest.sockIdx ∨ SockReady w e.rest.sockIdx)
    else w.files.rest e.rest.name e.rest.pos ≠ none

/-- **`poll` is right**: about the first 16 entries, and nothing is asked of it beyond them. -/
structure PollRight (w : Watch) (l : List PollFd) : Prop where
  first : ∀ p ∈ l.take 16, if p.events % 2 = 1 then PollAgrees w p.fd else ¬ Signals w p.fd
  others : ∀ p ∈ l.drop 16, p.revents = 0 ∧ (p.events % 2 = 1 → ¬ Readable w p.fd)

/-- **`select` is right about a record**: the descriptor is watched exactly if it is reported, and
then it is ready. -/
def SelectAgreesEnt (w : Watch) (i : Fin maxFds) (watched : Bool) : Prop :=
  let e := w.table i
  if i.val = 0 then (watched = true ↔ w.dev.keyboard ≠ []) ∧
    (watched = true → e.used = true ∧ e.type = typePipe → PipeReady w e)
  else if i.val < 3 ∨ e.used = false then watched = false
  else if e.type = fdTty then (watched = true ↔ w.dev.kbdRaw ≠ [])
  else if e.type = fdMice then (watched = true ↔ w.dev.mice ≠ [])
  else if e.type = typeSock then
    (watched = true ↔ SockRange e.rest.sockIdx ∧
      (w.HasData e.rest.sockIdx ∨ w.HasClient e.rest.sockIdx)) ∧
    (watched = true → w.HasClient e.rest.sockIdx ∨ w.bufs.sockOk e.rest.sockIdx = true)
  else watched = false

/-- The same for a descriptor below `nfds`; there is no record for those from 64 on. -/
def SelectAgreesAt (w : Watch) (j : ℕ) (watched : Bool) : Prop :=
  match fdIdx j with
  | none => watched = false
  | some i => SelectAgreesEnt w i watched

/-- **`select` is right.** -/
def SelectAgrees (w : Watch) (nfds : ℤ) : Option (ℕ → Bool) → Prop
  | none => True
  | some bits => (nfds ≤ 0 → w.dev.keyboard = []) ∧
      ∀ j : ℕ, j < nfds → SelectAgreesAt w j (bits j)

/-! ### Reads that do not wait -/

theorem succeeds_readPipe_iff (x : Bufs) (p : ℤ) (nb al : Bool) (n : ℤ) :
    Succeeds (readPipe x p nb al n).1 ↔ x.pipeOk p ∧ PipeHas x p nb al := by
  rcases readPipe_view x p nb al n with ⟨h, he⟩ | ⟨h, hn, he | he⟩ | ⟨h, hh, he⟩ <;> rw [he]
  · exact iff_of_false (show ¬ (0 : ℤ) ≤ -1 by decide) fun hr => absurd (h.symm.trans hr.1) (by decide)
  · exact iff_of_false (show ¬ (0 : ℤ) ≤ -11 by decide) fun hr => hn hr.2
  · exact iff_of_false id fun hr => hn hr.2
  · exact iff_of_true (natCast_nonneg _) ⟨h, hh⟩

theorem succeeds_sockPop_iff (x : Bufs) (k : ℤ) (n : ℤ) :
    Succeeds (sockPop x k n).1 ↔ x.sockOk k ∧
      ((x.socks k.toNat).ring.rpos ≠ (x.socks k.toNat).ring.wpos ∨
        (x.socks k.toNat).nonblock = false) := by
  rw [sockPop]
  split
  · next h =>
    rw [h]
    exact iff_of_false (show ¬ (0 : ℤ) ≤ -1 by decide) fun h => absurd h.1 (by decide)
  next h =>
  rw [Bool.not_eq_false] at h
  dsimp only
  split
  · next he =>
    cases hb : (x.socks k.toNat).nonblock with
    | true =>
      exact iff_of_false (show ¬ (0 : ℤ) ≤ -11 by decide)
        fun hr => hr.2.elim (fun h => h he) (by decide)
    | false => exact iff_of_true (le_refl 0) ⟨h, .inr rfl⟩
  · next he => exact iff_of_true (natCast_nonneg _) ⟨h, .inl he⟩

theorem succeeds_readQueue_iff (nb : Bool) (q : List UInt8) {n : ℕ} (hn : 0 < n) :
    Succeeds (readQueue nb q n).1 ↔ q ≠ [] := by
  rw [readQueue.eq_def]
  by_cases hq : q = []
  · rw [if_neg fun h => h.2 hq, hq]
    refine iff_of_false ?_ fun h => h rfl
    split
    · exact show ¬ (0 : ℤ) ≤ -11 by decide
    · exact id
  · rw [if_pos ⟨hn, hq⟩]
    exact iff_of_true (natCast_nonneg _) hq

theorem succeeds_readKeyboard_iff (nb : Bool) (q : List UInt8) :
    (∃ n, 0 < n ∧ Succeeds (readKeyboard nb q n).1) ↔ q ≠ [] := by
  cases q with
  | nil =>
    refine iff_of_false ?_ fun h => h rfl
    rintro ⟨n, hn, h⟩
    obtain ⟨n, rfl⟩ := exists_eq_succ_of_ne_zero (ne_of_gt hn)
    rw [readKeyboard] at h
    split at h
    · cases h
    · exact h
  | cons c q =>
    refine iff_of_true ⟨1, one_pos, ?_⟩ (List.cons_ne_nil c q)
    rw [readKeyboard, if_neg fun h => List.cons_ne_nil c q h.2, keyboardLoop]
    split
    · exact natCast_nonneg 1
    · split
      · exact le_refl 0
      · exact natCast_nonneg 1

/-! ### Ready descriptors -/

theorem exists_succeeds_iff {f : ℕ → ReadResult} {P : Prop}
    (h : ∀ n, 0 < n → (Succeeds (f n) ↔ P)) : (∃ n, 0 < n ∧ Succeeds (f n)) ↔ P := by
  constructor
  · rintro ⟨n, hn, hs⟩
    exact (h n hn).mp hs
  · exact fun hp => ⟨1, one_pos, (h 1 one_pos).mpr hp⟩

section

variable {w : Watch} {i : Fin maxFds}

theorem not_client (h : ¬ (3 ≤ i.val ∧ (w.table i).used ∧ (w.table i).type = typeSock)) :
    ¬ ∃ k, slotOf w.table i.val = some k ∧ (w.socks.ctl k).pending ≠ [] := by
  rintro ⟨k, hk, -⟩
  rw [slotOf, sockOf, fdIdx_coe, Option.bind_some, if_neg h, Option.bind_none] at hk
  cases hk

theorem ready_pipe_iff (hu : (w.table i).used) (ht : (w.table i).type = typePipe) :
    Ready w i.val ↔ PipeReady w (w.table i) := by
  have hno := not_client (i := i) fun h => absurd (ht.symm.trans h.2.2) (by decide)
  rw [Ready, or_iff_left hno]
  refine exists_succeeds_iff fun n _ => ?_
  rw [readOn_pipe (s := w.io) hu ht]
  exact succeeds_readPipe_iff _ _ _ _ _

theorem ready_keyboard_iff (hp : ¬ ((w.table i).used ∧ (w.table i).type = typePipe))
    (hi : i.val = 0) : Ready w i.val ↔ w.dev.keyboard ≠ [] := by
  have hno := not_client (w := w) (i := i) fun h => by omega
  rw [Ready, or_iff_left hno, ← succeeds_readKeyboard_iff (nonblock (w.table i))]
  refine exists_congr fun n => and_congr_right fun hn => ?_
  rw [readOn_keyboard (s := w.io) hp hi hn]
  exact Iff.rfl

theorem not_ready_none (hp : ¬ ((w.table i).used ∧ (w.table i).type = typePipe))
    (h0 : i.val ≠ 0) (h3 : ¬ (3 ≤ i.val ∧ (w.table i).used)) : ¬ Ready w i.val := by
  rintro (⟨n, -, h⟩ | h)
  · rw [readOn_none (s := w.io) hp (fun h => h0 h.1) h3] at h
    cases h
  · exact not_client (fun h => h3 ⟨h.1, h.2.1⟩) h

section Types

variable (h3 : 3 ≤ i.val) (hu : (w.table i).used)

include h3 hu

theorem ready_tty_iff (ht : (w.table i).type = fdTty) : Ready w i.val ↔ w.dev.kbdRaw ≠ [] := by
  have hno := not_client (i := i) fun h => absurd (ht.symm.trans h.2.2) (by decide)
  rw [Ready, or_iff_left hno]
  refine exists_succeeds_iff fun n hn => ?_
  rw [readOn_device (s := w.io) h3 hu (.inl ht), Devices.read, if_neg (by omega),
    if_pos (show (w.io.fds.table i).type = fdTty from ht)]
  exact succeeds_readQueue_iff _ _ hn

theorem ready_mice_iff (ht : (w.table i).type = fdMice) : Ready w i.val ↔ w.dev.mice ≠ [] := by
  have hno := not_client (i := i) fun h => absurd (ht.symm.trans h.2.2) (by decide)
  have htty : ¬ (w.table i).type = fdTty := by
    rw [ht]
    decide
  rw [Ready, or_iff_left hno]
  refine exists_succeeds_iff fun n hn => ?_
  rw [readOn_device (s := w.io) h3 hu (.inr ht), Devices.read, if_neg (by omega),
    if_neg (show ¬ (w.io.fds.table i).type = fdTty from htty)]
  exact succeeds_readQueue_iff _ _ hn

theorem not_ready_fb (ht : (w.table i).type = fdFb) : ¬ Ready w i.val := by
  rintro (⟨n, -, h⟩ | h)
  · rw [readOn_fb (s := w.io) h3 hu ht] at h
    cases h
  · exact not_client (fun h => absurd (ht.symm.trans h.2.2) (by decide)) h

theorem ready_event (ht : (w.table i).type = typeEvent) : Ready w i.val := by
  refine .inl ⟨1, one_pos, ?_⟩
  rw [readOn_event (s := w.io) h3 hu ht, if_neg (by decide)]
  exact natCast_nonneg 1

theorem ready_timer (ht : (w.table i).type = typeTimer) : Ready w i.val := by
  refine .inl ⟨1, one_pos, ?_⟩
  rw [readOn_timer (s := w.io) h3 hu ht]
  exact natCast_nonneg 1

theorem ready_sock_iff (ht : (w.table i).type = typeSock) : Ready w i.val ↔
    SockRange (w.table i).rest.sockIdx ∧ (w.HasClient (w.table i).rest.sockIdx ∨
      SockReady w (w.table i).rest.sockIdx) := by
  have hslot : slotOf w.table i.val = sockSlot (w.table i).rest.sockIdx := by
    rw [slotOf, sockOf, fdIdx_coe, Option.bind_some, if_pos ⟨h3, hu, ht⟩, Option.bind_some]
  have hread : (∃ n, 0 < n ∧ Succeeds (readOn w.files w.alive w.io i.val n).1) ↔
      SockReady w (w.table i).rest.sockIdx := by
    refine exists_succeeds_iff fun n _ => ?_
    rw [readOn_sock (s := w.io) h3 hu ht]
    exact succeeds_sockPop_iff _ _ _
  rw [Ready, hslot, hread]
  generalize (w.table i).rest.sockIdx = k
  constructor
  · rintro (hr | ⟨j, hj, hc⟩)
    · have hok := of_decide_eq_true hr.1
      exact ⟨⟨hok.1, hok.2.1⟩, .inr hr⟩
    rw [sockSlot] at hj
    split at hj
    · next hk =>
      cases hj
      exact ⟨hk, .inl hc⟩
    · cases hj
  · rintro ⟨hk, hc | hr⟩
    · exact .inr ⟨k.toNat, if_pos hk, hc⟩
    · exact .inl hr

theorem ready_file_iff (ht : IsFile (w.table i)) : Ready w i.val ↔
    w.files.rest (w.table i).rest.name (w.table i).rest.pos ≠ none := by
  have hno := not_client (i := i) fun h => ht.2.2.2.1 h.2.2
  rw [Ready, or_iff_left hno]
  refine exists_succeeds_iff fun n _ => ?_
  rw [readOn_file (s := w.io) h3 hu ht, show w.io.fds.table = w.table from rfl]
  cases w.files.rest (w.table i).rest.name (w.table i).rest.pos with
  | none => exact iff_of_false (show ¬ (0 : ℤ) ≤ -1 by decide) fun h => h rfl
  | some g => exact iff_of_true (natCast_nonneg _) (Option.some_ne_none g)

end Types

theorem fdReadable_iff : fdReadable w i.val = true ↔
    3 ≤ i.val ∧ (w.table i).used ∧ EntReadable w (w.table i) := by
  rw [fdReadable, fdIdx_coe]
  exact decide_eq_true_iff

theorem eventReady_iff : eventReady w i.val = true ↔ 3 ≤ i.val ∧ (w.table i).used ∧
    (w.table i).type = typeEvent ∧ 0 < (w.table i).rest.counter := by
  rw [eventReady, fdIdx_coe]
  exact decide_eq_true_iff

theorem pollCount_pos_iff : 0 < pollCount w i.val ↔ i.val = 0 ∧ w.dev.keyboard ≠ [] ∨
    3 ≤ i.val ∧ (w.table i).used ∧
      ((w.table i).type = typeEvent ∧ 0 < (w.table i).rest.counter ∨
        EntReadable w (w.table i)) := by
  have h1 : (i.val : ℤ) = 0 ∧ w.dev.keyboard ≠ [] ↔ i.val = 0 ∧ w.dev.keyboard ≠ [] :=
    and_congr_left' natCast_eq_zero
  simp only [pollCount, h1, eventReady_iff, fdReadable_iff]
  split_ifs <;> simp_all

theorem entReadable_of_ne {e : FdEnt} (h1 : e.type ≠ fdTty) (h2 : e.type ≠ fdMice) :
    EntReadable w e ↔ e.type = typeSock ∧ SockRange e.rest.sockIdx ∧
      (w.HasData e.rest.sockIdx ∨ w.HasClient e.rest.sockIdx) := by
  rw [EntReadable, if_neg h1, if_neg h2]

theorem pollCount_le_one (w : Watch) (fd : ℤ) : pollCount w fd ≤ 1 := by
  rw [pollCount]
  cases hfd : fdIdx fd with
  | none =>
    rw [eventReady, fdReadable, hfd]
    split
    · exact le_refl 1
    · exact zero_le 1
  | some i =>
    obtain rfl := fdIdx_some hfd
    have hkey : ((i.val : ℤ) = 0 ∧ w.dev.keyboard ≠ []) → ¬ 3 ≤ i.val := fun h => by omega
    have hev : eventReady w i.val → ¬ EntReadable w (w.table i) := fun h hr => by
      have ht := (eventReady_iff.mp h).2.2.1
      rw [entReadable_of_ne (by rw [ht]; decide) (by rw [ht]; decide)] at hr
      cases ht.symm.trans hr.1
    by_cases h1 : (i.val : ℤ) = 0 ∧ w.dev.keyboard ≠ []
    · rw [if_pos h1, if_neg fun h => hkey h1 (eventReady_iff.mp h).1,
        if_neg fun h => hkey h1 (fdReadable_iff.mp h).1]
    rw [if_neg h1]
    by_cases h2 : eventReady w i.val
    · rw [if_pos h2, if_neg fun h => hev h2 (fdReadable_iff.mp h).2.2]
    rw [if_neg h2]
    split
    · exact le_refl 1
    · exact zero_le 1

/-! ### One descriptor -/

theorem not_ready_range {fd : ℤ} (h : fdIdx fd = none) : ¬ Ready w fd := by
  rintro (⟨n, -, hs⟩ | ⟨k, hk, -⟩)
  · rw [readOn, h] at hs
    cases hs
  · rw [slotOf, sockOf, h, Option.bind_none, Option.bind_none] at hk
    cases hk

theorem pollCount_range {fd : ℤ} (h : fdIdx fd = none) : pollCount w fd = 0 := by
  have h0 : fd ≠ 0 := by
    rintro rfl
    cases h
  rw [pollCount, eventReady, fdReadable, h, if_neg fun hf => h0 hf.1]
  rfl

/-- The two answers about a socket: `d` for data, `c` for a client, `k` for a read that does not
wait. -/
theorem range_iff_iff (r d c k : Prop) : (r ∧ (d ∨ c) ↔ r ∧ (c ∨ k)) ↔ (r → ¬ c → (d ↔ k)) := by
  by_cases hr : r
  · by_cases hc : c
    · simp [hr, hc]
    · simp [hr, hc]
  · simp [hr]

theorem signals_iff (w : Watch) (fd : ℤ) : 0 < pollCount w fd ↔ Signals w fd := by
  rw [Signals]
  cases hfd : fdIdx fd with
  | none =>
    rw [pollCount_range hfd]
    exact iff_of_false (lt_irrefl 0) id
  | some i =>
    obtain rfl := fdIdx_some hfd
    exact pollCount_pos_iff

theorem not_low_iff {n : ℕ} {u : Bool} : ¬ (n < 3 ∨ u = false) ↔ 3 ≤ n ∧ u = true := by
  rw [not_or, not_lt, Bool.not_eq_false]

/-- **The ready descriptors**, by what is behind them. -/
theorem ready_iff (w : Watch) (fd : ℤ) : Ready w fd ↔ Readable w fd := by
  rw [Readable]
  cases hfd : fdIdx fd with
  | none => exact iff_of_false (not_ready_range hfd) id
  | some i =>
    obtain rfl := fdIdx_some hfd
    dsimp only
    by_cases hp : (w.table i).used ∧ (w.table i).type = typePipe
    · rw [if_pos hp]
      exact ready_pipe_iff hp.1 hp.2
    rw [if_neg hp]
    by_cases h0 : i.val = 0
    · rw [if_pos h0]
      exact ready_keyboard_iff hp h0
    rw [if_neg h0]
    by_cases hlow : i.val < 3 ∨ (w.table i).used = false
    · rw [if_pos hlow]
      exact iff_of_false (not_ready_none hp h0 fun h => not_low_iff.mpr h hlow) id
    rw [if_neg hlow]
    obtain ⟨h3, hu⟩ := not_low_iff.mp hlow
    rcases type_cases (w.table i) with ht | ht | ht | ht | ht | ht | ht
    · exact absurd ⟨hu, ht⟩ hp
    · rcases ht with ht | ht
      · rw [if_pos ht]
        exact ready_tty_iff h3 hu ht
      · rw [ht, if_neg (by decide), if_pos rfl]
        exact ready_mice_iff h3 hu ht
    · rw [ht, if_neg (by decide), if_neg (by decide), if_pos rfl]
      exact iff_of_false (not_ready_fb h3 hu ht) id
    · rw [ht, if_neg (by decide), if_neg (by decide), if_neg (by decide), if_pos (.inl rfl)]
      exact iff_of_true (ready_event h3 hu ht) trivial
    · rw [ht, if_neg (by decide), if_neg (by decide), if_neg (by decide), if_pos (.inr rfl)]
      exact iff_of_true (ready_timer h3 hu ht) trivial
    · rw [ht, if_neg (by decide), if_neg (by decide), if_neg (by decide), if_neg (by decide), if_pos rfl]
      exact ready_sock_iff h3 hu ht
    · obtain ⟨e1, e2, e3, e4, e5, e6, e7⟩ := ht
      rw [if_neg e6, if_neg e7, if_neg e5, if_neg (not_or.mpr ⟨e1, e2⟩), if_neg e4]
      exact ready_file_iff h3 hu ⟨e1, e2, e3, e4, e5, e6, e7⟩

/-- **When `poll` is right about a descriptor.** -/
theorem poll_agrees_iff (w : Watch) (fd : ℤ) :
    (0 < pollCount w fd ↔ Ready w fd) ↔ PollAgrees w fd := by
  rw [signals_iff, ready_iff, Signals, Readable, PollAgrees]
  cases fdIdx fd with
  | none => exact iff_of_true Iff.rfl trivial
  | some i =>
    dsimp only
    by_cases hp : (w.table i).used ∧ (w.table i).type = typePipe
    · have hno : ¬ ((w.table i).type = typeEvent ∧ 0 < (w.table i).rest.counter ∨
          EntReadable w (w.table i)) := by
        rw [entReadable_of_ne (by rw [hp.2]; decide) (by rw [hp.2]; decide), hp.2]
        exact fun h => h.elim (fun h => absurd h.1 (by decide)) fun h => absurd h.1 (by decide)
      rw [if_pos hp, if_pos hp, or_iff_left fun h => hno h.2.2]
    rw [if_neg hp, if_neg hp]
    by_cases h0 : i.val = 0
    · rw [if_pos h0, if_pos (.inl (by omega)), and_iff_right h0, or_iff_left fun h => by omega]
      exact iff_of_true Iff.rfl trivial
    rw [if_neg h0, or_iff_right fun h => h0 h.1]
    by_cases hlow : i.val < 3 ∨ (w.table i).used = false
    · rw [if_pos hlow, if_pos hlow]
      exact iff_of_true (iff_of_false (fun h => not_low_iff.mpr ⟨h.1, h.2.1⟩ hlow) id) trivial
    rw [if_neg hlow, if_neg hlow]
    obtain ⟨h3, hu⟩ := not_low_iff.mp hlow
    rw [and_iff_right h3, and_iff_right hu]
    rcases type_cases (w.table i) with ht | ht | ht | ht | ht | ht | ht
    · exact absurd ⟨hu, ht⟩ hp
    · rcases ht with ht | ht <;> rw [EntReadable] <;> simp [ht, fdTty, fdMice, typeEvent]
    · rw [entReadable_of_ne (by rw [ht]; decide) (by rw [ht]; decide)]
      simp [ht, fdTty, fdMice, fdFb, typeEvent, typeSock]
    · rw [entReadable_of_ne (by rw [ht]; decide) (by rw [ht]; decide)]
      simp [ht, fdTty, fdMice, fdFb, typeEvent, typeSock]
    · rw [entReadable_of_ne (by rw [ht]; decide) (by rw [ht]; decide)]
      simp [ht, fdTty, fdMice, fdFb, typeEvent, typeSock, typeTimer]
    · rw [entReadable_of_ne (by rw [ht]; decide) (by rw [ht]; decide), ← range_iff_iff]
      simp [ht, fdTty, fdMice, fdFb, typeEvent, typeSock, typeTimer]
    · obtain ⟨e1, e2, -, e4, e5, e6, e7⟩ := ht
      rw [entReadable_of_ne e6 e7]
      simp [e1, e2, e4, e5, e6, e7]

end

/-! ### `poll` -/

theorem sum_map_eq_length_filter {α : Type*} {c : α → ℕ} {q : α → Bool} {l : List α}
    (h1 : ∀ a ∈ l, c a ≤ 1) (h2 : ∀ a ∈ l, 0 < c a ↔ q a) :
    (l.map c).sum = (l.filter q).length := by
  induction l with
  | nil => rfl
  | cons a l ih =>
    have hrest := ih (fun b hb => h1 b (List.mem_cons_of_mem a hb))
      fun b hb => h2 b (List.mem_cons_of_mem a hb)
    have ha := h1 a (.head _)
    have hq := h2 a (.head _)
    rw [List.map_cons, List.sum_cons, hrest]
    by_cases hc : q a
    · have := hq.mpr hc
      rw [List.filter_cons_of_pos hc, List.length_cons]
      omega
    · have : ¬ 0 < c a := fun h => hc (hq.mp h)
      rw [List.filter_cons_of_neg hc]
      omega

section

variable {w : Watch} {l : List PollFd}

theorem due_iff (p : PollFd) : (0 < pollCount w p.fd ↔ Due w p) ↔
    if p.events % 2 = 1 then PollAgrees w p.fd else ¬ Signals w p.fd := by
  rw [Due]
  split
  · next he => rw [and_iff_right he, poll_agrees_iff]
  · next he => exact (iff_false_right fun h => he h.1).trans (not_congr (signals_iff w p.fd))

open Classical in
theorem pollEntry_eq_iff (p : PollFd) :
    pollEntry w p = { p with revents := if Due w p then pollIn else 0 } ↔
      (0 < pollCount w p.fd ↔ Due w p) := by
  rw [pollEntry, PollFd.mk.injEq]
  by_cases hc : 0 < pollCount w p.fd
  · by_cases hd : Due w p
    · simp [hc, hd]
    · simp [hc, hd, pollIn]
  · by_cases hd : Due w p
    · simp [hc, hd, pollIn]
    · simp [hc, hd]

/-- **When `poll` is exact.** -/
theorem pollExact_iff (w : Watch) (l : List PollFd) : PollExact w l ↔ PollRight w l := by
  classical
  have hcount : (∀ p ∈ l.take 16, 0 < pollCount w p.fd ↔ Due w p) →
      ((sysPoll w l).1 = (l.filter fun p => decide (Due w p)).length ↔
        ∀ p ∈ l.drop 16, ¬ Due w p) := by
    intro h
    have hsum : ((l.take 16).map fun p => pollCount w p.fd).sum =
        ((l.take 16).filter fun p => decide (Due w p)).length :=
      sum_map_eq_length_filter (fun p _ => pollCount_le_one w p.fd)
        fun p hp => (h p hp).trans decide_eq_true_iff.symm
    have hsplit := congrArg List.length
      (List.filter_append (p := fun p => decide (Due w p)) (l.take 16) (l.drop 16))
    rw [List.take_append_drop, List.length_append] at hsplit
    rw [sysPoll, hsum, hsplit, left_eq_add, List.length_eq_zero_iff, List.filter_eq_nil_iff]
    simp only [decide_eq_true_iff]
  have hentries : (sysPoll w l).2 =
      (l.map fun p => { p with revents := if Due w p then pollIn else 0 }) ↔
      (∀ p ∈ l.take 16, 0 < pollCount w p.fd ↔ Due w p) ∧
        ∀ p ∈ l.drop 16, p = { p with revents := if Due w p then pollIn else 0 } := by
    rw [sysPoll]
    nth_rewrite 4 [← List.take_append_drop 16 l]
    rw [List.map_append]
    constructor
    · intro h
      obtain ⟨ht, hd⟩ := List.append_inj h (by rw [List.length_map, List.length_map])
      refine ⟨fun p hp => (pollEntry_eq_iff p).mp (List.map_inj_left.mp ht p hp), fun p hp => ?_⟩
      exact List.map_inj_left.mp ((List.map_id _).trans hd) p hp
    · rintro ⟨ht, hd⟩
      have h1 := List.map_congr_left fun p hp => (pollEntry_eq_iff p).mpr (ht p hp)
      have h2 := List.map_congr_left hd
      rw [List.map_id'] at h2
      rw [h1, ← h2]
  constructor
  · rintro ⟨hc, he⟩
    obtain ⟨ht, hd⟩ := hentries.mp he
    have hnot := (hcount ht).mp hc
    refine ⟨fun p hp => (due_iff p).mp (ht p hp), fun p hp => ⟨?_, fun hw hr => ?_⟩⟩
    · have := congrArg PollFd.revents (hd p hp)
      rwa [if_neg (hnot p hp)] at this
    · exact hnot p hp ⟨hw, (ready_iff w p.fd).mpr hr⟩
  · rintro ⟨hfirst, hothers⟩
    have ht : ∀ p ∈ l.take 16, 0 < pollCount w p.fd ↔ Due w p :=
      fun p hp => (due_iff p).mpr (hfirst p hp)
    have hnot : ∀ p ∈ l.drop 16, ¬ Due w p :=
      fun p hp hd => (hothers p hp).2 hd.1 ((ready_iff w p.fd).mp hd.2)
    refine ⟨(hcount ht).mpr hnot, hentries.mpr ⟨ht, fun p hp => ?_⟩⟩
    rw [if_neg (hnot p hp), ← (hothers p hp).1]

end

/-! ### `select` -/

/-- The descriptors that `select` reports. -/
def selected (w : Watch) (nfds : ℤ) : List ℕ :=
  (if w.dev.keyboard ≠ [] then [0] else []) ++ selectHits w nfds

/-- What `select` reports a descriptor for. -/
def Hits (w : Watch) (j : ℕ) : Prop := j = 0 ∧ w.dev.keyboard ≠ [] ∨ fdReadable w j = true

section

variable {w : Watch} {nfds : ℤ} {j : ℕ}

theorem fdReadable_range (h : fdReadable w j) : 3 ≤ j ∧ j < maxFds := by
  rw [fdReadable] at h
  cases hfd : fdIdx j with
  | none =>
    rw [hfd] at h
    cases h
  | some i =>
    rw [hfd] at h
    have hj := fdIdx_some hfd
    have h3 := (of_decide_eq_true h).1
    omega

theorem mem_selectHits : j ∈ selectHits w nfds ↔ j < nfds ∧ fdReadable w j := by
  rw [selectHits, List.mem_filter, List.mem_range, Bool.and_eq_true, decide_eq_true_iff]
  constructor
  · exact fun h => ⟨h.2.1.2, h.2.2⟩
  · intro h
    obtain ⟨h3, hlt⟩ := fdReadable_range h.2
    exact ⟨hlt, ⟨h3, h.1⟩, h.2⟩

theorem mem_selected : j ∈ selected w nfds ↔
    j = 0 ∧ w.dev.keyboard ≠ [] ∨ j < nfds ∧ fdReadable w j := by
  rw [selected, List.mem_append, mem_selectHits]
  refine or_congr_left ?_
  split
  · next h => rw [List.mem_singleton, and_iff_left h]
  · next h => exact iff_of_false List.not_mem_nil fun hj => h hj.2

theorem nodup_selected (w : Watch) (nfds : ℤ) : (selected w nfds).Nodup := by
  rw [selected, List.nodup_append]
  refine ⟨?_, List.nodup_range.filter _, fun a ha b hb => ?_⟩
  · split
    · exact List.nodup_singleton 0
    · exact List.nodup_nil
  · have h3 := (fdReadable_range (mem_selectHits.mp hb).2).1
    split at ha
    · rw [List.mem_singleton.mp ha]
      omega
    · cases ha

theorem length_selected : (selected w nfds).length =
    (if decide (w.dev.keyboard ≠ []) = true then 1 else 0) + (selectHits w nfds).length := by
  rw [selected, List.length_append]
  simp only [decide_eq_true_iff]
  split
  · rfl
  · rfl

open Classical in
/-- **When `select` is exact**, in terms of what it reports. -/
theorem selectExact_iff_hits (w : Watch) (nfds : ℤ) (bits : ℕ → Bool) :
    SelectExact w nfds (some bits) ↔ (nfds ≤ 0 → w.dev.keyboard = []) ∧
      ∀ j : ℕ, j < nfds → (bits j = true ↔ Hits w j) ∧ (bits j → Ready w j) := by
  rw [SelectExact, sysSelect]
  rw [← length_selected, Prod.mk.injEq, Option.some.injEq]
  generalize hE : ((List.range nfds.toNat).filter fun j => bits j && decide (Ready w j)) = watched
  have hmem : ∀ j : ℕ, j ∈ watched ↔ j < nfds ∧ bits j ∧ Ready w j := fun j => by
    rw [← hE, List.mem_filter, List.mem_range, Bool.and_eq_true, decide_eq_true_iff, lt_toNat]
  have hnodup : watched.Nodup := hE ▸ List.nodup_range.filter _
  have hbits : ∀ j, (bits j || (decide (j = 0) && decide (w.dev.keyboard ≠ [])) ||
      decide (j ∈ selectHits w nfds)) = true ↔ bits j ∨ j ∈ selected w nfds := fun j => by
    rw [mem_selected]
    simp only [Bool.or_eq_true, Bool.and_eq_true, decide_eq_true_iff, mem_selectHits, or_assoc]
  have hbelow : (nfds ≤ 0 → w.dev.keyboard = []) → ∀ j ∈ selected w nfds, (j : ℤ) < nfds := by
    intro hneg j hj
    rcases mem_selected.mp hj with h | h
    · by_contra hn
      exact h.2 (hneg (by omega))
    · exact h.1
  constructor
  · rintro ⟨hlen, hset⟩
    have hafter : ∀ j : ℕ, j < nfds → (bits j ∨ j ∈ selected w nfds ↔
        bits j ∧ Ready w j) := fun j hj => by
      rw [← hbits, congrFun hset j, if_pos hj, Bool.and_eq_true, decide_eq_true_iff]
    -- nobody watches anything below 0, so a key is one too many
    have hneg : nfds ≤ 0 → w.dev.keyboard = [] := fun hn => by
      by_contra hk
      have h0 : (0 : ℕ) ∈ selected w nfds := mem_selected.mpr (.inl ⟨rfl, hk⟩)
      have hnil : watched = [] := List.eq_nil_iff_forall_not_mem.mpr fun j hj => by
        have := ((hmem j).mp hj).1
        omega
      rw [hnil] at hlen
      exact absurd (List.length_eq_zero_iff.mp hlen ▸ h0) List.not_mem_nil
    have hsub : selected w nfds ⊆ watched := fun j hj =>
      (hmem j).mpr ⟨hbelow hneg j hj, (hafter j (hbelow hneg j hj)).mp (.inr hj)⟩
    have hperm : (selected w nfds).Perm watched :=
      (List.subperm_of_subset (nodup_selected w nfds) hsub).perm_of_length_le (le_of_eq hlen.symm)
    refine ⟨hneg, fun j hj => ⟨⟨fun hb => ?_, fun hh => ?_⟩, fun hb => ((hafter j hj).mp (.inl hb)).2⟩⟩
    · have hw := (hmem j).mpr ⟨hj, (hafter j hj).mp (.inl hb)⟩
      exact (mem_selected.mp (hperm.mem_iff.mpr hw)).imp_right And.right
    · exact ((hafter j hj).mp (.inr (mem_selected.mpr (hh.imp_right fun h => ⟨hj, h⟩)))).1
  rintro ⟨hneg, hall⟩
  have hlt := hbelow hneg
  have hhit : ∀ j ∈ selected w nfds, Hits w j := fun j hj =>
    (mem_selected.mp hj).imp_right And.right
  have hsame : ∀ j, j ∈ selected w nfds ↔ j ∈ watched := fun j => by
    rw [hmem]
    constructor
    · intro hj
      have hb := (hall j (hlt j hj)).1.mpr (hhit j hj)
      exact ⟨hlt j hj, hb, (hall j (hlt j hj)).2 hb⟩
    · intro hj
      exact mem_selected.mpr (((hall j hj.1).1.mp hj.2.1).imp_right fun h => ⟨hj.1, h⟩)
  refine ⟨((List.perm_ext_iff_of_nodup (nodup_selected w nfds) hnodup).mpr hsame).length_eq,
    funext fun j => Bool.eq_iff_iff.mpr ?_⟩
  rw [hbits]
  split
  · next hj =>
    rw [Bool.and_eq_true, decide_eq_true_iff, hsame, hmem]
    constructor
    · rintro (hb | h)
      · exact ⟨hb, (hall j hj).2 hb⟩
      · exact h.2
    · exact fun h => .inl h.1
  · next hj => exact or_iff_left fun h => hj (hlt j h)

/-- Descriptors that `select` never reports. -/
theorem unhit_iff {b : Bool} {h r : Prop} (hno : ¬ h) :
    (b = true ↔ h) ∧ (b → r) ↔ b = false := by
  rw [iff_false_right hno, Bool.not_eq_true]
  exact and_iff_left_of_imp fun hb ht => absurd (hb.symm.trans ht) (by decide)

/-- **When `select` is right about a descriptor.** -/
theorem selectAgreesAt_iff (w : Watch) (j : ℕ) (b : Bool) :
    (b = true ↔ Hits w j) ∧ (b → Ready w j) ↔ SelectAgreesAt w j b := by
  unfold SelectAgreesAt
  cases hfd : fdIdx j with
  | none =>
    refine unhit_iff ?_
    rintro (h | h)
    · have h0 := fdIdx_coe 0
      rw [h.1] at hfd
      cases hfd.symm.trans h0
    · rw [fdReadable, hfd] at h
      cases h
  | some i =>
    have hj : j = i.val := by
      have := fdIdx_some hfd
      omega
    subst hj
    dsimp only
    rw [Hits, fdReadable_iff, SelectAgreesEnt]
    by_cases h0 : i.val = 0
    · have hno : ¬ (3 ≤ i.val ∧ (w.table i).used ∧ EntReadable w (w.table i)) :=
        fun h => by omega
      rw [if_pos h0, or_iff_left hno, and_iff_right h0]
      refine and_congr_right fun hb => forall_congr' fun hw => ?_
      by_cases hp : (w.table i).used ∧ (w.table i).type = typePipe
      · rw [ready_pipe_iff hp.1 hp.2]
        exact ⟨fun h _ => h, fun h => h hp⟩
      · rw [ready_keyboard_iff hp h0]
        exact iff_of_true (hb.mp hw) fun h => absurd h hp
    rw [if_neg h0, or_iff_right fun h => h0 h.1]
    by_cases hlow : i.val < 3 ∨ (w.table i).used = false
    · rw [if_pos hlow]
      exact unhit_iff fun h => not_low_iff.mpr ⟨h.1, h.2.1⟩ hlow
    rw [if_neg hlow]
    obtain ⟨h3, hu⟩ := not_low_iff.mp hlow
    rw [and_iff_right h3, and_iff_right hu]
    by_cases htty : (w.table i).type = fdTty
    · rw [if_pos htty, ready_tty_iff h3 hu htty, EntReadable, if_pos htty]
      exact and_iff_left_of_imp Iff.mp
    by_cases hmice : (w.table i).type = fdMice
    · rw [if_neg htty, if_pos hmice, ready_mice_iff h3 hu hmice, EntReadable, if_neg htty,
        if_pos hmice]
      exact and_iff_left_of_imp Iff.mp
    rw [if_neg htty, if_neg hmice, entReadable_of_ne htty hmice]
    by_cases hs : (w.table i).type = typeSock
    · rw [if_pos hs, ready_sock_iff h3 hu hs, and_iff_right hs]
      refine and_congr_right fun hb => forall_congr' fun hw => ?_
      obtain ⟨hr, hd⟩ := hb.mp hw
      rw [and_iff_right hr]
      constructor
      · exact fun h => h.imp_right And.left
      · rintro (h | h)
        · exact .inl h
        · exact hd.elim (fun hd => .inr ⟨h, .inl hd⟩) .inl
    · rw [if_neg hs]
      exact unhit_iff fun h => hs h.1

end

/-- **`poll` and `select`**: for every table, every array and every set, when they are exact. -/
theorem poll_select_iff (w : Watch) (l : List PollFd) (nfds : ℤ) (set : Option (ℕ → Bool)) :
    (PollExact w l ↔ PollRight w l) ∧ (SelectExact w nfds set ↔ SelectAgrees w nfds set) := by
  refine ⟨pollExact_iff w l, ?_⟩
  cases set with
  | none => exact iff_of_true rfl trivial
  | some bits =>
    rw [selectExact_iff_hits, SelectAgrees]
    simp only [selectAgreesAt_iff]

/-- Descriptor 3 is the reading end of a pipe with one byte. -/
def fullPipe : Watch where
  socks := ⟨⟨fun i => ⟨decide (i.val = 3), if i.val = 3 then typePipe else 0, ⟨0, 0, 0, [], 0, 0, 0⟩⟩,
    ⟨fun _ => ⟨true, fun _ => 9, 0, 1⟩, fun _ => ⟨false, -1, false, fun _ => 0, 0, 0⟩⟩⟩,
    fun _ => ⟨[], false, []⟩⟩
  dev := ⟨[], [], []⟩
  files := noFiles
  alive := fun _ => true

/-- **A byte in a pipe that nobody hears of**: a read returns it at once, and neither `poll` nor
`select` reports the descriptor. -/
theorem pipe_not_reported : (readOn fullPipe.files fullPipe.alive fullPipe.io 3 1).1 = .done 1 [9] ∧
    (sysPoll fullPipe [⟨3, 1, 0⟩]).1 = 0 ∧ ¬ PollExact fullPipe [⟨3, 1, 0⟩] ∧
    (sysSelect fullPipe 4 (some fun j => decide (j = 3))).1 = 0 ∧
    ¬ SelectExact fullPipe 4 (some fun j => decide (j = 3)) := by
  refine ⟨rfl, rfl, fun h => ?_, by decide, fun h => ?_⟩
  · have hp : PollAgrees fullPipe 3 := ((pollExact_iff _ _).mp h).first ⟨3, 1, 0⟩ List.mem_cons_self
    exact absurd (hp.mpr ⟨rfl, .inl (by decide)⟩).1 (by decide)
  · have hs := ((selectExact_iff_hits _ _ _).mp h).2 3 (by decide)
    exact absurd (hs.1.mp rfl) (by unfold Hits; decide)

end TipOS.Io
