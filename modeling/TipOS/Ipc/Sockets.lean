import TipOS.Ipc.Descriptors

/-!
# Sockets

`sock_alloc`, `sock_by_path` and the cases `SYS_socket`, `SYS_bind`, `SYS_listen`, `SYS_connect`,
`SYS_accept`, `SYS_accept4`, `SYS_socketpair`, `SYS_sendto`, `SYS_sendmsg`, `SYS_recvfrom` and
`SYS_recvmsg` of `syscall.c`.  A slot of `socks` has a part for the data, `Sock`, and a part for
making connections, `Ctl`.

`accept` takes the client from the queue before it looks for a descriptor and a slot
(`accept_loses_client`).  `socketpair` asks for two slots before it marks one of them as used, so it
gets the same one twice, and it takes two descriptors before it finds that there is no slot
(`socketpair_iff`).
-/

namespace TipOS.Ipc

open Function Lib Process List

def afUnix : ℤ := 1
def sockQueue : ℕ := 8

/-- What a slot keeps for `bind`, `listen`, `connect` and `accept`; `pending` is the part of the
array that `npending` counts. -/
structure Ctl where
  path : List UInt8
  listening : Bool
  pending : List ℕ

/-- What a system call on sockets works on. -/
structure Socks where
  fds : Fds
  ctl : ℕ → Ctl

/-! ### Slots -/

/-- The fields that are set for a new socket; the bytes of the buffer stay. -/
def Sock.renew (k : Sock) (peer : ℤ) : Sock :=
  { used := true, peer := peer, nonblock := false, ring := { k.ring with rpos := 0, wpos := 0 } }

namespace Bufs

def newSock (x : Bufs) (s : ℕ) (peer : ℤ) : Bufs :=
  { x with socks := update x.socks s ((x.socks s).renew peer) }

/-- `socks[s].peer = peer`. -/
def setPeer (x : Bufs) (s : ℕ) (peer : ℤ) : Bufs :=
  { x with socks := update x.socks s { x.socks s with peer := peer } }

@[simp] theorem newSock_socks (x : Bufs) (s : ℕ) (peer : ℤ) : (x.newSock s peer).socks =
    update x.socks s ((x.socks s).renew peer) := rfl

end Bufs

namespace Socks

def set (x : Socks) (i : Fin maxFds) (e : FdEnt) : Socks := { x with fds := x.fds.set i e }

def setBufs (x : Socks) (b : Bufs) : Socks := { x with fds := { x.fds with bufs := b } }

def setCtl (x : Socks) (s : ℕ) (c : Ctl) : Socks := { x with ctl := update x.ctl s c }

/-- A new socket in slot `s`. -/
def newSock (x : Socks) (s : ℕ) (peer : ℤ) : Socks :=
  (x.setBufs (x.fds.bufs.newSock s peer)).setCtl s ⟨[], false, []⟩

end Socks

/-- `sock_alloc`. -/
def sockAlloc (b : Bufs) : Option ℕ := (List.range maxSocks).find? fun i => !(b.socks i).used

/-- `sock_by_path`. -/
def sockByPath (x : Socks) (path : List UInt8) : Option ℕ :=
  (List.range maxSocks).find? fun i =>
    (x.fds.bufs.socks i).used && (x.ctl i).listening && decide ((x.ctl i).path = path)

/-- `sock_idx` of a descriptor, unless
`fd < 3 || fd >= MAX_FDS || !fds[fd].used || fds[fd].type != 4`. -/
def sockOf (t : FdTable) (fd : ℤ) : Option ℤ :=
  (fdIdx fd).bind fun i =>
    if 3 ≤ i.val ∧ (t i).used = true ∧ (t i).type = typeSock then some (t i).rest.sockIdx else none

/-- `s >= 0 && s < MAX_SOCKS`. -/
def sockSlot (s : ℤ) : Option ℕ := if 0 ≤ s ∧ s < maxSocks then some s.toNat else none

/-- The slot of a descriptor. -/
def slotOf (t : FdTable) (fd : ℤ) : Option ℕ := (sockOf t fd).bind sockSlot

/-- The record of a socket. -/
def sockEnt (e : FdEnt) (s : ℕ) (flags : ℤ) : FdEnt :=
  { used := true, type := typeSock, rest := { e.rest with sockIdx := s, flags := flags } }

/-- `(x & O_NONBLOCK) ? O_NONBLOCK : 0`. -/
def nonblockFlag (x : ℤ) : ℤ := if x / oNonblock % 2 = 1 then oNonblock else 0

/-! ### Calls -/

def sysSocket (x : Socks) (domain type : ℤ) : ℤ × Socks :=
  if domain ≠ afUnix then (-1, x)
  else
    match sockAlloc x.fds.bufs with
    | none => (-1, x)
    | some s =>
      match allocFd x.fds.table with
      | none => (-1, x.setBufs (x.fds.bufs.freeSock s))
      | some fd =>
        (fd.val, (x.newSock s (-1)).set fd (sockEnt (x.fds.table fd) s (nonblockFlag type)))

/-- `SYS_bind`; `path` is what `sock_path_from_addr` returns. -/
def sysBind (x : Socks) (fd : ℤ) (path : Option (List UInt8)) : ℤ × Socks :=
  match slotOf x.fds.table fd, path with
  | some s, some path => (0, x.setCtl s { x.ctl s with path := path.take 255 })
  | _, _ => (-1, x)

def sysListen (x : Socks) (fd : ℤ) : ℤ × Socks :=
  match sockOf x.fds.table fd with
  | none => (-1, x)
  | some s =>
    match sockSlot s with
    | none => (0, x)
    | some s => (0, x.setCtl s { x.ctl s with listening := true })

def sysConnect (x : Socks) (fd : ℤ) (path : Option (List UInt8)) : ℤ × Socks :=
  match slotOf x.fds.table fd, path.bind (sockByPath x) with
  | some s, some srv =>
    if sockQueue ≤ (x.ctl srv).pending.length then (-1, x)
    else
      (0, (x.setBufs (x.fds.bufs.setPeer s srv)).setCtl srv
        { x.ctl srv with pending := (x.ctl srv).pending ++ [s] })
  | _, _ => (-1, x)

/-- `SYS_accept`, and `SYS_accept4` with flags. -/
def sysAccept (flags : ℤ) (x : Socks) (fd : ℤ) : ℤ × Socks :=
  match slotOf x.fds.table fd with
  | none => (-1, x)
  | some s =>
    match (x.ctl s).pending with
    | [] => (-1, x)
    | cli :: rest =>
      -- the client leaves the queue here, whatever comes of it
      let y := x.setCtl s { x.ctl s with pending := rest }
      match allocFd y.fds.table with
      | none => (-1, y)
      | some nfd =>
        match sockAlloc y.fds.bufs with
        | none => (-1, y)
        | some ns =>
          let z := y.newSock ns cli
          let z := z.setBufs (z.fds.bufs.setPeer cli ns)
          (nfd.val, z.set nfd (sockEnt (x.fds.table nfd) ns (nonblockFlag flags)))

/-- `SYS_sendto` and `SYS_sendmsg`. -/
def sysSendto (x : Socks) (fd : ℤ) (buf : ℕ → UInt8) (count : ℤ) : ℤ × Socks :=
  match slotOf x.fds.table fd with
  | none => (-1, x)
  | some s =>
    let y := sockPush x.fds.bufs (x.fds.bufs.socks s).peer buf count
    (y.1, x.setBufs y.2)

/-- `SYS_recvfrom` and `SYS_recvmsg`. -/
def sysRecvfrom (x : Socks) (fd count : ℤ) : ReadResult × Socks :=
  match slotOf x.fds.table fd with
  | none => (.done (-1) [], x)
  | some s =>
    let y := sockPop x.fds.bufs s count
    (y.1, x.setBufs y.2)

/-- `SYS_socketpair`: the two descriptors, or nothing for -1. -/
def sysSocketpair (x : Socks) (domain : ℤ) (out : Bool) : Option (Fin maxFds × Fin maxFds) × Socks :=
  if domain ≠ afUnix ∨ out = false then (none, x)
  else
    -- both slots are looked for before one of them is marked
    let s1 := sockAlloc x.fds.bufs
    let s2 := sockAlloc x.fds.bufs
    match allocFd x.fds.table with
    | none => (none, x)
    | some fd1 =>
      let y := x.set fd1 { x.fds.table fd1 with used := true }
      match allocFd y.fds.table with
      | none => (none, y.set fd1 { y.fds.table fd1 with used := false })
      | some fd2 =>
        let y := y.set fd2 { y.fds.table fd2 with used := true }
        match s1, s2 with
        | some s1, some s2 =>
          let y := (y.newSock s1 s2).newSock s2 s1
          let y := y.set fd1 (sockEnt (y.fds.table fd1) s1 0)
          (some (fd1, fd2), y.set fd2 (sockEnt (y.fds.table fd2) s2 0))
        | _, _ => (none, y)

/-- `close_fd`. -/
def sysClose (x : Socks) (fd : ℤ) : Socks := { x with fds := closeFd x.fds fd }

section Lemmas

variable {t : FdTable} {fd : ℤ} {s : ℕ}

theorem sockAlloc_some {b : Bufs} (h : sockAlloc b = some s) :
    s < maxSocks ∧ (b.socks s).used = false := by
  refine ⟨mem_range.mp (mem_of_find?_eq_some h), ?_⟩
  have hf := find?_some h
  simpa using hf

theorem sockSlot_some {a : ℤ} (h : sockSlot a = some s) : a = s ∧ s < maxSocks := by
  unfold sockSlot at h
  split at h
  · next ha =>
    cases h
    omega
  · cases h

theorem sockOf_some {a : ℤ} (h : sockOf t fd = some a) : ∃ i, fdIdx fd = some i ∧ 3 ≤ i.val ∧
    (t i).used ∧ (t i).type = typeSock ∧ (t i).rest.sockIdx = a := by
  obtain ⟨i, hi, he⟩ := Option.bind_eq_some_iff.mp h
  split at he
  · next hc => exact ⟨i, hi, hc.1, hc.2.1, hc.2.2, Option.some.inj he⟩
  · cases he

theorem slotOf_some (h : slotOf t fd = some s) : ∃ i, fdIdx fd = some i ∧ 3 ≤ i.val ∧
    (t i).used ∧ (t i).type = typeSock ∧ (t i).rest.sockIdx = s := by
  obtain ⟨a, ha, hs⟩ := Option.bind_eq_some_iff.mp h
  rw [← (sockSlot_some hs).1]
  exact sockOf_some ha

theorem not_pipe_of_sock {e : FdEnt} (h : e.type = typeSock) :
    ¬ (e.used = true ∧ e.type = typePipe) := by
  rw [h]
  exact fun hp => absurd hp.2 (by decide)

end Lemmas

/-! ### `write` and `read` on a socket -/

section Socket

variable {x : Socks} {fd s : ℤ} (h : sockOf x.fds.table fd = some s) (a : Answers) (count : ℤ)
include h

/-- **`write` on a socket is `sendto`.** -/
theorem doWriteFd_socket (buf : ℕ → UInt8) : doWriteFd a x.fds fd buf count =
    ((sysSendto x fd buf count).1, (sysSendto x fd buf count).2.fds) := by
  obtain ⟨i, hi, h3, hu, ht, hs⟩ := sockOf_some h
  rw [doWriteFd, hi, sysSendto, slotOf, h, Option.bind_some, sockSlot]
  dsimp only
  rw [if_neg (not_pipe_of_sock ht), if_pos ⟨h3, hu⟩, ht, if_neg (by decide), if_pos rfl, hs]
  by_cases hr : 0 ≤ s ∧ s < maxSocks
  · rw [if_pos hr, if_pos hr]
    rfl
  · rw [if_neg hr, if_neg hr]
    rfl

/-- **`read` on a socket is `recvfrom`.** -/
theorem sysRead_socket (alive : ℤ → Bool) : sysRead a alive x.fds fd count =
    ((sysRecvfrom x fd count).1, (sysRecvfrom x fd count).2.fds) := by
  obtain ⟨i, hi, h3, hu, ht, hs⟩ := sockOf_some h
  have hread : readOther a x.fds i count = ((sockPop x.fds.bufs s count).1,
      ⟨x.fds.table, (sockPop x.fds.bufs s count).2⟩) := by
    rw [readOther, ht, hs]
    rfl
  rw [sysRead, hi, sysRecvfrom, slotOf, h, Option.bind_some, sockSlot]
  dsimp only
  rw [if_neg (not_pipe_of_sock ht), if_neg (by omega), if_pos ⟨h3, hu⟩, hread]
  by_cases hr : 0 ≤ s ∧ s < maxSocks
  · rw [if_pos hr]
    dsimp only
    rw [Int.toNat_of_nonneg hr.1]
    rfl
  · have hok : x.fds.bufs.sockOk s = false := decide_eq_false fun h => hr ⟨h.1, h.2.1⟩
    rw [if_neg hr, sockPop, if_pos hok]

end Socket

/-! ### A failing `accept` -/

/-- `accept` on `fd` has a client of listener `s` to serve, but no descriptor or no slot. -/
structure AcceptLacks (x : Socks) (fd : ℤ) (s : ℕ) : Prop where
  slot : slotOf x.fds.table fd = some s
  client : (x.ctl s).pending ≠ []
  lacks : allocFd x.fds.table = none ∨ sockAlloc x.fds.bufs = none

/-- **An `accept` that fails for lack of a descriptor or a slot has lost its client**: the queue is
without it, whatever the queue and the tables are. -/
theorem accept_loses_client (flags : ℤ) {x : Socks} {fd : ℤ} {s : ℕ} (h : AcceptLacks x fd s) :
    (sysAccept flags x fd).1 = -1 ∧
      ((sysAccept flags x fd).2.ctl s).pending = (x.ctl s).pending.tail ∧
      ((sysAccept flags x fd).2.ctl s).pending ≠ (x.ctl s).pending := by
  obtain ⟨hslot, hclient, hlacks⟩ := h
  obtain ⟨cli, rest, hp⟩ := exists_cons_of_ne_nil hclient
  have hres : sysAccept flags x fd = (-1, x.setCtl s { x.ctl s with pending := rest }) := by
    unfold sysAccept
    rw [hslot]
    dsimp only
    rw [hp]
    dsimp only
    rcases hlacks with hfd | hs
    · rw [show allocFd (x.setCtl s { x.ctl s with pending := rest }).fds.table = none from hfd]
    rw [show sockAlloc (x.setCtl s { x.ctl s with pending := rest }).fds.bufs = none from hs]
    split
    · rfl
    · rfl
  have hpending : ((sysAccept flags x fd).2.ctl s).pending = rest := by
    rw [hres]
    change (update x.ctl s { x.ctl s with pending := rest } s).pending = rest
    rw [update_self]
  refine ⟨congrArg Prod.fst hres, by rw [hpending, hp, tail_cons], ?_⟩
  rw [hpending, hp]
  exact fun he => cons_ne_self cli rest he.symm

/-- All records from 3 on are in use; descriptor 3 is the listener of slot 0, which has a client. -/
def fullTable : Socks where
  fds := ⟨fun _ => ⟨true, typeSock, ⟨0, 0, 0, [], 0, 0, 0⟩⟩,
    ⟨fun _ => ⟨false, fun _ => 0, 0, 0⟩, fun _ => ⟨true, -1, false, fun _ => 0, 0, 0⟩⟩⟩
  ctl := fun _ => ⟨[], true, [1]⟩

theorem accept_loses_client_fullTable : AcceptLacks fullTable 3 0 ∧
    ((sysAccept 0 fullTable 3).2.ctl 0).pending ≠ (fullTable.ctl 0).pending := by
  have h : AcceptLacks fullTable 3 0 := ⟨by decide, by decide, .inl (by decide)⟩
  exact ⟨h, (accept_loses_client 0 h).2.2⟩

/-- The queue `[1]` is empty afterwards. -/
theorem full_table_empties_queue : (sysAccept 0 fullTable 3).1 = -1 ∧
    (fullTable.ctl 0).pending = [1] ∧ ((sysAccept 0 fullTable 3).2.ctl 0).pending = [] := by
  decide

/-! ### `socketpair` -/

/-- A call on one of two descriptors. -/
inductive PairOp
  | write (e : Bool) (buf : ℕ → UInt8) (count : ℤ)
  | read (e : Bool) (count : ℤ)

/-- The state, and the bytes that were written and read on each of two descriptors. -/
structure PairLog where
  fds : Fds
  sent : Bool → List UInt8
  got : Bool → List UInt8

def PairLog.step (a : Answers) (alive : ℤ → Bool) (d : Bool → Fin maxFds) (l : PairLog) :
    PairOp → PairLog
  | .write e buf count =>
    let y := doWriteFd a l.fds (d e).val buf count
    { l with
      fds := y.2
      sent := update l.sent e (l.sent e ++ (bytesOf buf count).take y.1.toNat) }
  | .read e count =>
    let y := sysRead a alive l.fds (d e).val count
    { l with fds := y.2, got := update l.got e (l.got e ++ y.1.bytes) }

/-- **The two ends of a pair**: what is read on one is the beginning of what was written on the
other, whatever is written and read. -/
def Crosswise (x : Fds) (d : Bool → Fin maxFds) : Prop :=
  ∀ (a : Answers) (alive : ℤ → Bool) (ops : List PairOp) (e : Bool),
    (ops.foldl (PairLog.step a alive d) ⟨x, fun _ => [], fun _ => []⟩).got (!e) <+:
      (ops.foldl (PairLog.step a alive d) ⟨x, fun _ => [], fun _ => []⟩).sent e

/-- What `socketpair` is to do: two descriptors of two sockets, or nothing. -/
def PairKept (x : Socks) (y : Option (Fin maxFds × Fin maxFds) × Socks) : Prop :=
  match y.1 with
  | none => y.2 = x
  | some (fd1, fd2) => fd1 ≠ fd2 ∧
      (y.2.fds.table fd1).rest.sockIdx ≠ (y.2.fds.table fd2).rest.sockIdx ∧
      Crosswise y.2.fds fun e => if e then fd1 else fd2

/-- A record that `alloc_fd` may take. -/
def FreeFd (t : FdTable) (i : Fin maxFds) : Prop := 3 ≤ i.val ∧ (t i).used = false

section Pair

variable {t : FdTable} {r : Fin maxFds}

theorem allocFd_none_iff : allocFd t = none ↔ ∀ i, ¬ FreeFd t i := by
  unfold allocFd FreeFd
  rw [find?_eq_none]
  simp only [mem_finRange, true_implies, Bool.and_eq_true, decide_eq_true_eq,
    Bool.not_eq_eq_eq_not, Bool.not_true]

theorem freeFd_take {i : Fin maxFds} :
    FreeFd (update t r { t r with used := true }) i ↔ FreeFd t i ∧ i ≠ r := by
  unfold FreeFd
  by_cases h : i = r
  · subst h
    rw [update_self]
    exact ⟨fun h => absurd h.2 Bool.noConfusion, fun h => absurd rfl h.2⟩
  · rw [update_of_ne h]
    exact ⟨fun hf => ⟨hf, h⟩, fun hf => hf.1⟩

variable {x : Socks} {domain : ℤ} {out : Bool}

/-- **What a `socketpair` does**: it fails and leaves the state, it fails for lack of a slot and keeps
two descriptors, or it makes one socket with two descriptors. -/
theorem socketpair_cases (x : Socks) (domain : ℤ) (out : Bool) :
    (sysSocketpair x domain out = (none, x) ∧ (domain ≠ afUnix ∨ out = false ∨
        ∀ i j, FreeFd x.fds.table i → FreeFd x.fds.table j → i = j)) ∨
    ∃ fd1 fd2, fd1 ≠ fd2 ∧ FreeFd x.fds.table fd1 ∧ FreeFd x.fds.table fd2 ∧
      (sockAlloc x.fds.bufs = none ∧ sysSocketpair x domain out =
          (none, (x.set fd1 { x.fds.table fd1 with used := true }).set fd2
            { x.fds.table fd2 with used := true }) ∨
        ∃ s, sockAlloc x.fds.bufs = some s ∧ sysSocketpair x domain out =
          (some (fd1, fd2), (((x.newSock s s).newSock s s).set fd1 (sockEnt (x.fds.table fd1) s 0)).set
            fd2 (sockEnt (x.fds.table fd2) s 0))) := by
  unfold sysSocketpair
  by_cases harg : domain ≠ afUnix ∨ out = false
  · rw [if_pos harg]
    exact .inl ⟨rfl, harg.imp_right .inl⟩
  rw [if_neg harg]
  cases h1 : allocFd x.fds.table with
  | none =>
    exact .inl ⟨rfl, .inr (.inr fun i _ hi => absurd hi (allocFd_none_iff.mp h1 i))⟩
  | some fd1 =>
    have hf1 : FreeFd x.fds.table fd1 := allocFd_some h1
    dsimp only
    cases h2 : allocFd (x.set fd1 { x.fds.table fd1 with used := true }).fds.table with
    | none =>
      have hall : ∀ i, FreeFd x.fds.table i → i = fd1 := fun i hi => by
        by_contra hne
        exact allocFd_none_iff.mp h2 i (freeFd_take.mpr ⟨hi, hne⟩)
      refine .inl ⟨?_, .inr (.inr fun i j hi hj => (hall i hi).trans (hall j hj).symm)⟩
      have he : ({ x.fds.table fd1 with used := false } : FdEnt) = x.fds.table fd1 := by rw [← hf1.2]
      simp only [Socks.set, Fds.set, update_self, update_idem, he,
        update_eq_self]
    | some fd2 =>
      obtain ⟨hf2, hne⟩ := freeFd_take.mp (allocFd_some h2)
      refine .inr ⟨fd1, fd2, hne.symm, hf1, hf2, ?_⟩
      have he2 : (x.set fd1 { x.fds.table fd1 with used := true }).fds.table fd2 = x.fds.table fd2 :=
        update_of_ne hne _ _
      dsimp only
      rw [he2]
      cases hs : sockAlloc x.fds.bufs with
      | none => exact .inl ⟨rfl, rfl⟩
      | some s =>
        refine .inr ⟨s, rfl, ?_⟩
        have htab : ∀ (e1 e2 e1' e2' : FdEnt),
            update (update (update (update x.fds.table fd1 e1) fd2
              e2) fd1 e1') fd2 e2' = update (update x.fds.table fd1 e1') fd2 e2' := by
          intro e1 e2 e1' e2'
          rw [update_comm hne.symm, update_idem, update_comm hne,
            update_idem]
        simp only [Socks.set, Socks.newSock, Socks.setBufs, Socks.setCtl, Fds.set, sockEnt, htab,
          update_self, update_of_ne hne, update_of_ne hne.symm]

/-- **A `socketpair` with two free descriptors breaks its promise.** -/
theorem socketpair_two {fd1 fd2 : Fin maxFds} (hne : fd1 ≠ fd2) (h1 : FreeFd x.fds.table fd1)
    (h : sysSocketpair x domain out = (none, (x.set fd1 { x.fds.table fd1 with used := true }).set fd2
        { x.fds.table fd2 with used := true }) ∨
      ∃ s, sysSocketpair x domain out =
        (some (fd1, fd2), (((x.newSock s s).newSock s s).set fd1 (sockEnt (x.fds.table fd1) s 0)).set
          fd2 (sockEnt (x.fds.table fd2) s 0))) : ¬ PairKept x (sysSocketpair x domain out) := by
  rcases h with h | ⟨s, h⟩
  · rw [h]
    intro hk
    have hu : (x.fds.table fd1).used := by
      rw [← show _ = x from hk]
      change (update (update x.fds.table fd1 _) fd2 _ fd1).used
      rw [update_of_ne hne, update_self]
    cases hu.symm.trans h1.2
  · rw [h]
    rintro ⟨-, hk, -⟩
    refine hk ?_
    simp only [Socks.set, Fds.set_table, update_self, update_of_ne hne, sockEnt]

/-- **When `socketpair` keeps its promise**: exactly when it has to fail for another reason than the
lack of a slot. -/
theorem socketpair_iff (x : Socks) (domain : ℤ) (out : Bool) :
    PairKept x (sysSocketpair x domain out) ↔
      domain ≠ afUnix ∨ out = false ∨
        ∀ i j, FreeFd x.fds.table i → FreeFd x.fds.table j → i = j := by
  rcases socketpair_cases x domain out with ⟨h, hc⟩ | ⟨fd1, fd2, hne, h1, h2, h⟩
  · rw [h]
    exact ⟨fun _ => hc, fun _ => rfl⟩
  have hbroken : ¬ PairKept x (sysSocketpair x domain out) := by
    refine socketpair_two hne h1 ?_
    rcases h with ⟨-, h⟩ | ⟨s, -, h⟩
    · exact .inl h
    · exact .inr ⟨s, h⟩
  refine ⟨fun hk => absurd hk hbroken, fun hc => ?_⟩
  rcases hc with hd | ho | hone
  · -- then it fails at once
    refine absurd ?_ hbroken
    rw [sysSocketpair, if_pos (.inl hd)]
    rfl
  · refine absurd ?_ hbroken
    rw [sysSocketpair, if_pos (.inr ho)]
    rfl
  · exact absurd (hone fd1 fd2 h1 h2) hne

end Pair

/-- Nothing is in use. -/
def noSocks : Socks where
  fds := ⟨fun _ => ⟨false, 0, ⟨0, 0, 0, [], 0, 0, 0⟩⟩,
    ⟨fun _ => ⟨false, fun _ => 0, 0, 0⟩, fun _ => ⟨false, -1, false, fun _ => 0, 0, 0⟩⟩⟩
  ctl := fun _ => ⟨[], false, []⟩

/-- **The two descriptors of a pair are one socket**: what is written on descriptor 3 is read on
descriptor 3. -/
theorem socketpair_one_socket : (sysSocketpair noSocks afUnix true).1 = some (3, 4) ∧
    ((sysSocketpair noSocks afUnix true).2.fds.table 3).rest.sockIdx = 0 ∧
    ((sysSocketpair noSocks afUnix true).2.fds.table 4).rest.sockIdx = 0 ∧
    (sysRecvfrom (sysSendto (sysSocketpair noSocks afUnix true).2 3 (fun _ => 7) 1).2 3 1).1.bytes =
      [7] := by
  decide +kernel

end TipOS.Ipc
