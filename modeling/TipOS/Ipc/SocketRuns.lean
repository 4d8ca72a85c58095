import TipOS.Ipc.Sockets

/-!
# Runs of the calls on sockets

All processes with their tables, and the sockets they share.  A partner is the index of a slot, and a
slot is taken again after a `close`.  `SockCall.effect` is what a call does to the slots and the
queues; the results about runs need no more of the calls.

`Numbered` adds what is not in the kernel: a number for each socket that is made, the socket that
each descriptor was made for, the socket that a partner was when it was set, and for each byte in a
buffer the socket that it was meant for.

Without a `connect` every socket has no partner or is its own.  But a `close` frees the slot even if
there are other descriptors of the socket, as there are after a `socketpair`: their bytes go to the
socket that is made in the slot next.  `NoStale` excludes just that.
-/

namespace TipOS.Ipc

open Function Lib Process List Option

/-! ### Calls and runs -/

inductive SockCall
  | socket (domain type : ℤ)
  | bind (fd : ℤ) (path : Option (List UInt8))
  | listen (fd : ℤ)
  | connect (fd : ℤ) (path : Option (List UInt8))
  | accept (flags fd : ℤ)
  | socketpair (domain : ℤ) (out : Bool)
  | shutdown (fd : ℤ)
  | close (fd : ℤ)
  | sendto (fd : ℤ) (buf : ℕ → UInt8) (count : ℤ)
  | recvfrom (fd count : ℤ)
  | write (a : Answers) (fd : ℤ) (buf : ℕ → UInt8) (count : ℤ)
  | read (a : Answers) (alive : ℤ → Bool) (fd count : ℤ)

/-- The state after a call; `SYS_shutdown` does nothing.  `write` and `read` are calls on sockets only
if the descriptor is one. -/
def SockCall.run (x : Socks) : SockCall → Socks
  | .socket domain type => (sysSocket x domain type).2
  | .bind fd path => (sysBind x fd path).2
  | .listen fd => (sysListen x fd).2
  | .connect fd path => (sysConnect x fd path).2
  | .accept flags fd => (sysAccept flags x fd).2
  | .socketpair domain out => (sysSocketpair x domain out).2
  | .shutdown _ => x
  | .close fd => sysClose x fd
  | .sendto fd buf count => (sysSendto x fd buf count).2
  | .recvfrom fd count => (sysRecvfrom x fd count).2
  | .write a fd buf count =>
    if sockOf x.fds.table fd = none then x
    else { x with fds := (doWriteFd a x.fds fd buf count).2 }
  | .read a alive fd count =>
    if sockOf x.fds.table fd = none then x
    else { x with fds := (sysRead a alive x.fds fd count).2 }

/-- The tables of the processes, and what they share. -/
structure Net where
  tables : ℕ → FdTable
  bufs : Bufs
  ctl : ℕ → Ctl

/-- A call of process `j`, or another change of its table. -/
inductive NetOp
  | call (j : ℕ) (c : SockCall)
  | table (j : ℕ) (t : FdTable)

namespace Net

/-- What a call of process `j` works on. -/
def view (x : Net) (j : ℕ) : Socks := ⟨⟨x.tables j, x.bufs⟩, x.ctl⟩

def put (x : Net) (j : ℕ) (y : Socks) : Net :=
  ⟨update x.tables j y.fds.table, y.fds.bufs, y.ctl⟩

def step (x : Net) : NetOp → Net
  | .call j c => x.put j (c.run (x.view j))
  | .table j t => { x with tables := update x.tables j t }

def run (x : Net) (ops : List NetOp) : Net := ops.foldl step x

/-- After `syscall_init`. -/
structure Boot (x : Net) : Prop where
  used : ∀ s, (x.bufs.socks s).used = false
  peer : ∀ s, (x.bufs.socks s).peer = -1
  pending : ∀ s, (x.ctl s).pending = []

end Net

/-! ### What a call does to the slots and the queues -/

inductive SockEffect
  | keep
  /-- A socket is made in slot `s`. -/
  | fresh (s : ℕ) (peer : ℤ)
  /-- The socket `c` connects to the listener `srv`. -/
  | ask (c srv : ℕ)
  /-- The first client of `srv` is dropped. -/
  | drop (srv : ℕ)
  /-- The first client of `srv`, `cli`, is accepted in slot `ns`. -/
  | take (srv cli ns : ℕ)
  | free (s : ℕ)
  /-- Socket `a` sends to its partner `p`. -/
  | push (a : ℕ) (p : ℤ) (buf : ℕ → UInt8) (count : ℤ)
  | pop (s : ℕ) (count : ℤ)

def socketEffect (x : Socks) (domain : ℤ) : SockEffect :=
  if domain ≠ afUnix then .keep
  else
    match sockAlloc x.fds.bufs, allocFd x.fds.table with
    | some s, some _ => .fresh s (-1)
    | _, _ => .keep

def connectEffect (x : Socks) (fd : ℤ) (path : Option (List UInt8)) : SockEffect :=
  match slotOf x.fds.table fd, path.bind (sockByPath x) with
  | some s, some srv => if sockQueue ≤ (x.ctl srv).pending.length then .keep else .ask s srv
  | _, _ => .keep

def acceptEffect (x : Socks) (s : ℕ) : SockEffect :=
  match (x.ctl s).pending with
  | [] => .keep
  | cli :: _ =>
    match allocFd x.fds.table, sockAlloc x.fds.bufs with
    | some _, some ns => .take s cli ns
    | _, _ => .drop s

def socketpairEffect (x : Socks) (domain : ℤ) (out : Bool) : SockEffect :=
  match (sysSocketpair x domain out).1, sockAlloc x.fds.bufs with
  | some _, some s => .fresh s s
  | _, _ => .keep

def SockCall.effect (x : Socks) : SockCall → SockEffect
  | .socket domain _ => socketEffect x domain
  | .connect fd path => connectEffect x fd path
  | .accept _ fd => (slotOf x.fds.table fd).elim .keep (acceptEffect x)
  | .socketpair domain out => socketpairEffect x domain out
  | .close fd => (slotOf x.fds.table fd).elim .keep .free
  | .sendto fd buf count | .write _ fd buf count =>
    (slotOf x.fds.table fd).elim .keep fun s => .push s (x.fds.bufs.socks s).peer buf count
  | .recvfrom fd count | .read _ _ fd count => (slotOf x.fds.table fd).elim .keep fun s => .pop s count
  | .bind _ _ => .keep
  | .listen _ => .keep
  | .shutdown _ => .keep

def Net.effect (x : Net) : NetOp → SockEffect
  | .call j c => c.effect (x.view j)
  | .table _ _ => .keep

namespace SockEffect

def bufs (b : Bufs) : SockEffect → Bufs
  | .fresh s peer => b.newSock s peer
  | .ask c srv => b.setPeer c srv
  | .take _ cli ns => (b.newSock ns cli).setPeer cli ns
  | .free s => b.freeSock s
  | .push _ p buf count => (sockPush b p buf count).2
  | .pop s count => (sockPop b s count).2
  | _ => b

def pending (q : ℕ → List ℕ) : SockEffect → ℕ → List ℕ
  | .fresh s _ => update q s []
  | .ask c srv => update q srv (q srv ++ [c])
  | .drop srv => update q srv (q srv).tail
  | .take srv _ ns => update (update q srv (q srv).tail) ns []
  | _ => q

end SockEffect

/-- The queues. -/
def queues (ctl : ℕ → Ctl) (s : ℕ) : List ℕ := (ctl s).pending

/-- The slots and the queues of `y` are those of `x` after `e`. -/
structure SockEffect.Leads (e : SockEffect) (x y : Socks) : Prop where
  bufs : y.fds.bufs = e.bufs x.fds.bufs
  pending : queues y.ctl = e.pending (queues x.ctl)

section Effect

variable (x : Socks)

theorem queues_update (ctl : ℕ → Ctl) (s : ℕ) (c : Ctl) :
    queues (update ctl s c) = update (queues ctl) s c.pending := by
  funext a
  unfold queues
  by_cases h : a = s
  · subst h
    rw [update_self, update_self]
  · rw [update_of_ne h, update_of_ne h]

/-- A change of the path or of `listening`. -/
theorem queues_same {ctl : ℕ → Ctl} {s : ℕ} {c : Ctl} (h : c.pending = (ctl s).pending) :
    queues (update ctl s c) = queues ctl := by
  rw [queues_update, h]
  exact update_eq_self s (queues ctl)

theorem newSock_idem (b : Bufs) (s : ℕ) (p : ℤ) : (b.newSock s p).newSock s p = b.newSock s p := by
  have he : (((b.newSock s p).socks s).renew p) = (b.socks s).renew p := by
    rw [Bufs.newSock_socks, update_self]
    rfl
  rw [Bufs.newSock, he, Bufs.newSock_socks, update_idem]
  rfl

theorem leads_socket (domain type : ℤ) :
    (socketEffect x domain).Leads x (sysSocket x domain type).2 := by
  unfold sysSocket socketEffect
  by_cases hd : domain ≠ afUnix
  · rw [if_pos hd, if_pos hd]
    exact ⟨rfl, rfl⟩
  rw [if_neg hd, if_neg hd]
  cases hs : sockAlloc x.fds.bufs with
  | none => exact ⟨rfl, rfl⟩
  | some s =>
    cases hfd : allocFd x.fds.table with
    | none => exact ⟨Bufs.freeSock_eq_self (sockAlloc_some hs).2, rfl⟩
    | some fd => exact ⟨rfl, queues_update x.ctl s ⟨[], false, []⟩⟩

theorem leads_bind (fd : ℤ) (path : Option (List UInt8)) :
    SockEffect.keep.Leads x (sysBind x fd path).2 := by
  unfold sysBind
  split
  · exact ⟨rfl, queues_same rfl⟩
  · exact ⟨rfl, rfl⟩

theorem leads_listen (fd : ℤ) : SockEffect.keep.Leads x (sysListen x fd).2 := by
  unfold sysListen
  split
  · exact ⟨rfl, rfl⟩
  · split
    · exact ⟨rfl, rfl⟩
    · exact ⟨rfl, queues_same rfl⟩

theorem leads_connect (fd : ℤ) (path : Option (List UInt8)) :
    (connectEffect x fd path).Leads x (sysConnect x fd path).2 := by
  unfold sysConnect connectEffect
  cases hs : slotOf x.fds.table fd with
  | none => exact ⟨rfl, rfl⟩
  | some s =>
    cases hsrv : path.bind (sockByPath x) with
    | none => exact ⟨rfl, rfl⟩
    | some srv =>
      dsimp only
      split
      · exact ⟨rfl, rfl⟩
      · exact ⟨rfl, queues_update _ _ _⟩

theorem leads_accept (flags fd : ℤ) :
    ((slotOf x.fds.table fd).elim .keep (acceptEffect x)).Leads x (sysAccept flags x fd).2 := by
  unfold sysAccept
  cases hs : slotOf x.fds.table fd with
  | none => exact ⟨rfl, rfl⟩
  | some s =>
    dsimp only [elim_some]
    unfold acceptEffect
    cases hp : (x.ctl s).pending with
    | nil => exact ⟨rfl, rfl⟩
    | cons cli rest =>
      have hq : queues (update x.ctl s { x.ctl s with pending := rest }) =
          update (queues x.ctl) s (queues x.ctl s).tail := by
        rw [queues_update, queues, hp, tail_cons]
      dsimp only [Socks.setCtl]
      cases hfd : allocFd x.fds.table with
      | none => exact ⟨rfl, hq⟩
      | some nfd =>
        cases hns : sockAlloc x.fds.bufs with
        | none => exact ⟨rfl, hq⟩
        | some ns =>
          refine ⟨rfl, ?_⟩
          rw [SockEffect.pending, ← hq]
          exact queues_update _ ns ⟨[], false, []⟩

theorem leads_socketpair (domain : ℤ) (out : Bool) :
    (socketpairEffect x domain out).Leads x (sysSocketpair x domain out).2 := by
  unfold socketpairEffect
  rcases socketpair_cases x domain out with ⟨h, -⟩ | ⟨fd1, fd2, -, -, -, ⟨-, h⟩ | ⟨s, hs, h⟩⟩
  · rw [h]
    exact ⟨rfl, rfl⟩
  · rw [h]
    exact ⟨rfl, rfl⟩
  · rw [h, hs]
    refine ⟨newSock_idem x.fds.bufs s s, ?_⟩
    change queues (update (update x.ctl s ⟨[], false, []⟩) s ⟨[], false, []⟩) = _
    rw [update_idem]
    exact queues_update _ _ _

theorem leads_close (fd : ℤ) :
    ((slotOf x.fds.table fd).elim .keep SockEffect.free).Leads x (sysClose x fd) := by
  constructor
  · unfold sysClose closeFd slotOf sockOf
    cases hi : fdIdx fd with
    | none => rfl
    | some i =>
      dsimp only [bind_some]
      by_cases hu : 3 ≤ i.val ∧ (x.fds.table i).used
      · rw [if_pos hu]
        by_cases ht : (x.fds.table i).type = typeSock
        · rw [if_pos (And.intro hu.1 (And.intro hu.2 ht)), bind_some, sockSlot]
          by_cases hs : 0 ≤ (x.fds.table i).rest.sockIdx ∧ (x.fds.table i).rest.sockIdx < maxSocks
          · rw [if_pos hs]
            exact if_pos ⟨ht, hs⟩
          · rw [if_neg hs]
            exact if_neg fun h => hs h.2
        · rw [if_neg fun h : _ ∧ _ ∧ _ => ht h.2.2]
          exact if_neg fun h => ht h.1
      · rw [if_neg hu, if_neg fun h : _ ∧ _ ∧ _ => hu ⟨h.1, h.2.1⟩]
        rfl
  · cases slotOf x.fds.table fd <;> rfl

theorem leads_sendto (fd : ℤ) (buf : ℕ → UInt8) (count : ℤ) :
    ((SockCall.sendto fd buf count).effect x).Leads x (sysSendto x fd buf count).2 := by
  rw [SockCall.effect, sysSendto]
  cases slotOf x.fds.table fd <;> exact ⟨rfl, rfl⟩

theorem leads_recvfrom (fd count : ℤ) :
    ((SockCall.recvfrom fd count).effect x).Leads x (sysRecvfrom x fd count).2 := by
  rw [SockCall.effect, sysRecvfrom]
  cases slotOf x.fds.table fd <;> exact ⟨rfl, rfl⟩

theorem run_write (a : Answers) (fd : ℤ) (buf : ℕ → UInt8) (count : ℤ) :
    (SockCall.write a fd buf count).run x = (sysSendto x fd buf count).2 := by
  rw [SockCall.run]
  cases hs : sockOf x.fds.table fd with
  | none => rw [if_pos rfl, sysSendto, slotOf, hs, bind_none]
  | some s =>
    rw [if_neg (some_ne_none s), doWriteFd_socket hs, sysSendto]
    cases slotOf x.fds.table fd <;> rfl

theorem run_read (a : Answers) (alive : ℤ → Bool) (fd count : ℤ) :
    (SockCall.read a alive fd count).run x = (sysRecvfrom x fd count).2 := by
  rw [SockCall.run]
  cases hs : sockOf x.fds.table fd with
  | none => rw [if_pos rfl, sysRecvfrom, slotOf, hs, bind_none]
  | some s =>
    rw [if_neg (some_ne_none s), sysRead_socket hs, sysRecvfrom]
    cases slotOf x.fds.table fd <;> rfl

/-- **What a call does to the slots and the queues.** -/
theorem leads_run (c : SockCall) : (c.effect x).Leads x (c.run x) := by
  cases c with
  | socket domain type => exact leads_socket x domain type
  | bind fd path => exact leads_bind x fd path
  | listen fd => exact leads_listen x fd
  | connect fd path => exact leads_connect x fd path
  | accept flags fd => exact leads_accept x flags fd
  | socketpair domain out => exact leads_socketpair x domain out
  | shutdown fd => exact ⟨rfl, rfl⟩
  | close fd => exact leads_close x fd
  | sendto fd buf count => exact leads_sendto x fd buf count
  | recvfrom fd count => exact leads_recvfrom x fd count
  | write a fd buf count =>
    rw [run_write]
    exact leads_sendto x fd buf count
  | read a alive fd count =>
    rw [run_read]
    exact leads_recvfrom x fd count

theorem effect_step (x : Net) (op : NetOp) : (x.step op).bufs = (x.effect op).bufs x.bufs ∧
    queues (x.step op).ctl = (x.effect op).pending (queues x.ctl) := by
  cases op with
  | call j c => exact ⟨(leads_run (x.view j) c).bufs, (leads_run (x.view j) c).pending⟩
  | table j t => exact ⟨rfl, rfl⟩

end Effect

/-! ### Which effects are possible -/

/-- `connect` of process `j` succeeds. -/
def Connects (x : Net) : NetOp → Prop
  | .call j (.connect fd path) => (sysConnect (x.view j) fd path).1 = 0
  | _ => False

/-- Descriptor `i` of process `j` is of the socket in slot `a`. -/
def Net.Names (x : Net) (j : ℕ) (i : Fin maxFds) (a : ℕ) : Prop := 3 ≤ i.val ∧
  (x.tables j i).used = true ∧ (x.tables j i).type = typeSock ∧ (x.tables j i).rest.sockIdx = a

/-- The descriptor that a call sends or receives bytes on. -/
def NetOp.via : NetOp → Option (ℕ × Fin maxFds)
  | .call j (.sendto fd _ _) | .call j (.write _ fd _ _) | .call j (.recvfrom fd _)
  | .call j (.read _ _ fd _) => (fdIdx fd).map fun i => (j, i)
  | _ => none

/-- What holds before an effect, and of the call that has it. -/
def SockEffect.Possible (x : Net) (op : NetOp) : SockEffect → Prop
  | .keep | .free _ => True
  | .fresh s p => p = -1 ∨ p = s
  | .ask _ _ => Connects x op
  | .drop srv => queues x.ctl srv ≠ []
  | .take srv _ _ => queues x.ctl srv ≠ []
  | .push a p _ _ => p = (x.bufs.socks a).peer ∧ ∃ j i, op.via = some (j, i) ∧ x.Names j i a
  | .pop s _ => ∃ j i, op.via = some (j, i) ∧ x.Names j i s

section Possible

variable {x : Net} {j : ℕ} {op : NetOp}

theorem possible_connect (fd : ℤ) (path : Option (List UInt8)) :
    (connectEffect (x.view j) fd path).Possible x (.call j (.connect fd path)) := by
  unfold connectEffect
  split
  · next s srv hs hsrv =>
    split
    · trivial
    · next hroom =>
      change (sysConnect (x.view j) fd path).1 = 0
      rw [sysConnect, hs, hsrv]
      dsimp only
      rw [if_neg hroom]
  · trivial

theorem possible_accept (s : ℕ) : (acceptEffect (x.view j) s).Possible x op := by
  unfold acceptEffect
  split
  · trivial
  next cli rest hp =>
  have hne : queues x.ctl s ≠ [] := by
    rw [show queues x.ctl s = cli :: rest from hp]
    exact cons_ne_nil _ _
  split <;> exact hne

theorem possible_elim {fd : ℤ} {f : ℕ → SockEffect}
    (h : ∀ s, slotOf (x.tables j) fd = some s → (f s).Possible x op) :
    ((slotOf (x.tables j) fd).elim .keep f).Possible x op := by
  cases hs : slotOf (x.tables j) fd with
  | none => trivial
  | some s => exact h s hs

theorem via_of_slotOf {fd : ℤ} {s : ℕ} (hop : op.via = (fdIdx fd).map fun i => (j, i))
    (h : slotOf (x.tables j) fd = some s) : ∃ j i, op.via = some (j, i) ∧ x.Names j i s := by
  obtain ⟨i, hi, hn⟩ := slotOf_some h
  rw [hi] at hop
  exact ⟨j, i, hop, hn⟩

/-- **Which effects are possible.** -/
theorem possible_effect (x : Net) (op : NetOp) : (x.effect op).Possible x op := by
  cases op with
  | table j t => trivial
  | call j c =>
    cases c with
    | socket domain type =>
      change (socketEffect (x.view j) domain).Possible x _
      unfold socketEffect
      split
      · trivial
      · split
        · exact .inl rfl
        · trivial
    | connect fd path => exact possible_connect fd path
    | accept flags fd => exact possible_elim fun s _ => possible_accept s
    | socketpair domain out =>
      change (socketpairEffect (x.view j) domain out).Possible x _
      unfold socketpairEffect
      split
      · exact .inr rfl
      · trivial
    | close fd => exact possible_elim fun _ _ => trivial
    | sendto fd buf count => exact possible_elim fun s hs => ⟨rfl, via_of_slotOf rfl hs⟩
    | write a fd buf count => exact possible_elim fun s hs => ⟨rfl, via_of_slotOf rfl hs⟩
    | recvfrom fd count => exact possible_elim fun s hs => via_of_slotOf rfl hs
    | read a alive fd count => exact possible_elim fun s hs => via_of_slotOf rfl hs
    | _ => trivial

theorem setSock_peer (b : Bufs) (s : ℕ) (r : RingBuf UInt8) (a : ℕ) :
    ((b.setSock s r).socks a).peer = (b.socks a).peer := by
  rw [Bufs.setSock_socks]
  by_cases h : a = s
  · rw [h, update_self]
  · rw [update_of_ne h]

theorem sockPush_peer (b : Bufs) (s : ℤ) (buf : ℕ → UInt8) (count : ℤ) (a : ℕ) :
    ((sockPush b s buf count).2.socks a).peer = (b.socks a).peer := by
  unfold sockPush
  split
  · rfl
  · split
    · rfl
    · exact setSock_peer _ _ _ a

theorem sockPop_peer (b : Bufs) (s count : ℤ) (a : ℕ) :
    ((sockPop b s count).2.socks a).peer = (b.socks a).peer := by
  unfold sockPop
  split
  · rfl
  dsimp only
  split
  · rfl
  · exact setSock_peer _ _ _ a

end Possible

/-! ### Sockets with numbers -/

/-- The state with a number for each socket that was made: `id s` is the socket in slot `s`, `sock j i`
the one that descriptor `i` of process `j` was made for, `mate n` the socket that the partner of
socket `n` was when it became its partner, `meant s` has the socket that each byte in the buffer was
sent to, and `got` the receiver of each byte with the socket it was sent to. -/
structure Numbered where
  net : Net
  made : ℕ
  id : ℕ → ℕ
  sock : ℕ → Fin maxFds → ℕ
  mate : ℕ → ℕ
  meant : ℕ → List ℕ
  got : List (ℕ × ℕ)

namespace Numbered

/-- The socket that the descriptor of a call was made for. -/
def caller (x : Numbered) (op : NetOp) : ℕ := op.via.elim 0 fun d => x.sock d.1 d.2

/-- What an effect does to the numbers; `n` is the caller. -/
def mark (x : Numbered) (n : ℕ) : SockEffect → Numbered
  | .fresh s _ => { x with
      made := x.made + 1
      id := update x.id s x.made
      mate := update x.mate x.made x.made
      meant := update x.meant s [] }
  | .ask c srv => { x with mate := update x.mate (x.id c) (x.id srv) }
  | .take _ cli ns =>
    let id := update x.id ns x.made
    { x with
      made := x.made + 1
      id := id
      mate := update (update x.mate x.made (id cli)) (id cli) x.made
      meant := update x.meant ns [] }
  | .push _ p buf count =>
    let k := (sockPush x.net.bufs p buf count).1.toNat
    { x with meant := update x.meant p.toNat (x.meant p.toNat ++ List.replicate k (x.mate n)) }
  | .pop s count =>
    let k := (sockPop x.net.bufs s count).1.bytes.length
    { x with
      meant := update x.meant s ((x.meant s).drop k)
      got := x.got ++ ((x.meant s).take k).map fun m => (n, m) }
  | .keep | .drop _ | .free _ => x

/-- A record that a call leaves as it was is still of its socket; another one is of the socket that is
in its slot. -/
def step (x : Numbered) (op : NetOp) : Numbered :=
  let y := x.mark (x.caller op) (x.net.effect op)
  { y with
    net := x.net.step op
    sock := fun j i =>
      if (x.net.step op).tables j i = x.net.tables j i then x.sock j i
      else y.id ((x.net.step op).tables j i).rest.sockIdx.toNat }

def start (x : Net) : Numbered := ⟨x, 0, fun _ => 0, fun _ _ => 0, fun _ => 0, fun _ => [], []⟩

def run (x : Net) (ops : List NetOp) : Numbered := ops.foldl step (start x)

end Numbered

/-- **Partners match**: the partner of a socket in use is in use and has it as its partner. -/
def Peered (b : Bufs) : Prop := ∀ a p : ℕ, (b.socks a).used = true → (b.socks a).peer = p →
  (b.socks p).used = true ∧ (b.socks p).peer = a

/-- **Every byte was received by the socket it was sent to.** -/
def Loyal (got : List (ℕ × ℕ)) : Prop := ∀ x ∈ got, x.1 = x.2

/-- No `connect` of the run succeeds. -/
def NoConnect : Net → List NetOp → Prop
  | _, [] => True
  | x, op :: ops => ¬ Connects x op ∧ NoConnect (x.step op) ops

/-- The slot that a socket is made in. -/
def SockEffect.made : SockEffect → Option ℕ
  | .fresh s _ | .take _ _ s => some s
  | _ => none

/-- No socket of the run is made in a slot that some descriptor is still of. -/
def NoStale : Net → List NetOp → Prop
  | _, [] => True
  | x, op :: ops => (∀ s, (x.effect op).made = some s → ∀ j i, ¬ x.Names j i s) ∧
      NoStale (x.step op) ops

/-! ### Partners without connections -/

section Peering

variable {x : Numbered} {op : NetOp}

/-- **The invariant without connections**: a socket has no partner or is its own. -/
structure Alone (x : Numbered) : Prop where
  peer : ∀ s : ℕ, (x.net.bufs.socks s).peer = -1 ∨
    (x.net.bufs.socks s).peer = s ∧ x.mate (x.id s) = x.id s ∧ x.id s < x.made
  queue : ∀ s, queues x.net.ctl s = []

theorem Alone.peered (h : Alone x) : Peered x.net.bufs := by
  intro a p hu hp
  rcases h.peer a with hn | ⟨hs, -⟩
  · rw [hn] at hp
    omega
  have hap : a = p := by
    rw [hs] at hp
    exact_mod_cast hp
  rw [← hap]
  exact ⟨hu, hs⟩

theorem Alone.start {x : Net} (h : x.Boot) : Alone (.start x) :=
  ⟨fun s => .inl (h.peer s), h.pending⟩

/-- A new socket without a partner, or its own. -/
theorem Alone.fresh (h : Alone x) {s : ℕ} {p : ℤ} (hp : p = -1 ∨ p = s) (a : ℕ) :
    ((x.net.bufs.newSock s p).socks a).peer = -1 ∨
      ((x.net.bufs.newSock s p).socks a).peer = a ∧
      update x.mate x.made x.made (update x.id s x.made a) = update x.id s x.made a ∧
      update x.id s x.made a < x.made + 1 := by
  rw [Bufs.newSock_socks]
  by_cases ha : a = s
  · subst ha
    rw [update_self, update_self, update_self]
    exact hp.imp_right fun hp => ⟨hp, rfl, Nat.lt_succ_self _⟩
  · rw [update_of_ne ha, update_of_ne ha]
    refine (h.peer a).imp_right fun ⟨hself, hmate, hlt⟩ => ⟨hself, ?_, by omega⟩
    rw [update_of_ne hlt.ne]
    exact hmate

/-- **A call that makes no connection keeps the invariant.** -/
theorem Alone.step (h : Alone x) (hn : ¬ Connects x.net op) : Alone (x.step op) := by
  obtain ⟨hb, hq⟩ := effect_step x.net op
  have hpos := possible_effect x.net op
  unfold Numbered.step
  generalize x.net.step op = net at hb hq ⊢
  cases he : x.net.effect op with
  | keep =>
    rw [he] at hb hq
    exact ⟨by rw [hb]; exact h.peer, by rw [hq]; exact h.queue⟩
  | fresh s p =>
    rw [he] at hb hq hpos
    refine ⟨by rw [hb]; exact h.fresh hpos, fun a => ?_⟩
    rw [hq]
    change update (queues x.net.ctl) s [] a = []
    by_cases ha : a = s
    · rw [ha, update_self]
    · rw [update_of_ne ha]
      exact h.queue a
  | ask c srv =>
    rw [he] at hpos
    exact absurd hpos hn
  | drop srv =>
    rw [he] at hpos
    exact absurd (h.queue srv) hpos
  | take srv cli ns =>
    rw [he] at hpos
    exact absurd (h.queue srv) hpos
  | free s =>
    rw [he] at hb hq
    refine ⟨fun a => ?_, by rw [hq]; exact h.queue⟩
    rw [hb, show ((SockEffect.free s).bufs x.net.bufs).socks a =
      update x.net.bufs.socks s { x.net.bufs.socks s with used := false } a from rfl]
    by_cases ha : a = s
    · rw [ha, update_self]
      exact h.peer s
    · rw [update_of_ne ha]
      exact h.peer a
  | push a p buf count =>
    rw [he] at hb hq
    refine ⟨fun b => ?_, by rw [hq]; exact h.queue⟩
    rw [hb, SockEffect.bufs, sockPush_peer]
    exact h.peer b
  | pop s count =>
    rw [he] at hb hq
    refine ⟨fun b => ?_, by rw [hq]; exact h.queue⟩
    rw [hb, SockEffect.bufs, sockPop_peer]
    exact h.peer b

theorem run_net (ops : List NetOp) : (ops.foldl Numbered.step x).net = x.net.run ops := by
  induction ops generalizing x with
  | nil => rfl
  | cons op ops ih => exact ih

theorem Alone.run (ops : List NetOp) (h : Alone x) (hn : NoConnect x.net ops) :
    Alone (ops.foldl Numbered.step x) := by
  induction ops generalizing x with
  | nil => exact h
  | cons op ops ih => exact ih (h.step hn.1) hn.2

/-- **A socket in use that connects to another one**: the other does not have it as its partner. -/
theorem Alone.connect (h : Alone x) {c srv : ℕ} (he : x.net.effect op = .ask c srv)
    (hu : (x.net.bufs.socks c).used) (hne : srv ≠ c) : ¬ Peered (x.net.step op).bufs := by
  intro hp
  have hb := (effect_step x.net op).1
  rw [he] at hb
  have hc : ((x.net.step op).bufs.socks c) = { x.net.bufs.socks c with peer := srv } := by
    rw [hb]
    exact update_self _ _ _
  have hsrv : ((x.net.step op).bufs.socks srv) = x.net.bufs.socks srv := by
    rw [hb]
    exact update_of_ne hne _ _
  obtain ⟨-, hback⟩ := hp c srv (by rw [hc]; exact hu) (by rw [hc])
  rw [hsrv] at hback
  rcases h.peer srv with hnone | ⟨hself, -⟩
  · rw [hnone] at hback
    omega
  · rw [hself] at hback
    exact hne (by exact_mod_cast hback)

/-! ### Where bytes go -/

/-- **The invariant without stale descriptors**: a descriptor is of the socket in its slot, and a buffer
has bytes for the socket in its slot only. -/
structure Known (x : Numbered) : Prop where
  sock : ∀ j i s, x.net.Names j i s → x.sock j i = x.id s
  meant : ∀ s, ∀ m ∈ x.meant s, m = x.id s
  got : Loyal x.got

theorem Known.start (x : Net) : Known (.start x) :=
  ⟨fun _ _ _ _ => rfl, fun _ _ hm => absurd hm not_mem_nil, fun _ hx => absurd hx not_mem_nil⟩

theorem id_mark (n : ℕ) {e : SockEffect} {s : ℕ} (h : e.made ≠ some s) :
    (x.mark n e).id s = x.id s := by
  cases e with
  | fresh s' p => exact update_of_ne (fun hs => h (by rw [hs]; rfl)) _ _
  | take srv cli ns => exact update_of_ne (fun hs => h (by rw [hs]; rfl)) _ _
  | _ => rfl

theorem Known.sock_step (h : Known x)
    (hs : ∀ s, (x.net.effect op).made = some s → ∀ j i, ¬ x.net.Names j i s) (j : ℕ) (i : Fin maxFds)
    (s : ℕ) (hn : (x.net.step op).Names j i s) : (x.step op).sock j i = (x.step op).id s := by
  change (if (x.net.step op).tables j i = x.net.tables j i then x.sock j i else _) =
    (x.mark (x.caller op) (x.net.effect op)).id s
  split
  · next hsame =>
    have hold : x.net.Names j i s := by
      unfold Net.Names
      rw [← hsame]
      exact hn
    rw [id_mark _ fun hm => hs s hm j i hold]
    exact h.sock j i s hold
  · rw [hn.2.2.2, Int.toNat_natCast]

theorem Known.caller (h : Known x) {s : ℕ}
    (hv : ∃ j i, op.via = some (j, i) ∧ x.net.Names j i s) : x.caller op = x.id s := by
  obtain ⟨j, i, hvia, hn⟩ := hv
  rw [Numbered.caller, hvia]
  exact h.sock j i s hn

theorem Known.push (h : Known x) (ha : Alone x) {a : ℕ} {p : ℤ}
    (hp : p = (x.net.bufs.socks a).peer) (buf : ℕ → UInt8) (count : ℤ) (s m : ℕ)
    (hm : m ∈ (x.mark (x.id a) (.push a p buf count)).meant s) : m = x.id s := by
  change m ∈ update x.meant p.toNat (x.meant p.toNat ++
    List.replicate (sockPush x.net.bufs p buf count).1.toNat (x.mate (x.id a))) s at hm
  by_cases hs : s = p.toNat
  · rw [hs, update_self, mem_append] at hm
    rw [hs]
    refine hm.elim (h.meant _ m) fun hr => ?_
    obtain ⟨hn, rfl⟩ := mem_replicate.mp hr
    rcases ha.peer a with hnone | ⟨hself, hmate, -⟩
    · -- `sock_push(-1, ..)` takes nothing
      have hfail : sockPush x.net.bufs p buf count = (-1, x.net.bufs) := by
        rw [hp, hnone]
        exact if_pos rfl
      rw [hfail] at hn
      omega
    · rw [hp, hself, Int.toNat_natCast]
      exact hmate
  · rw [update_of_ne hs] at hm
    exact h.meant s m hm

theorem Known.pop (h : Known x) (s : ℕ) (count : ℤ) :
    (∀ a, ∀ m ∈ (x.mark (x.id s) (.pop s count)).meant a, m = x.id a) ∧
      Loyal (x.mark (x.id s) (.pop s count)).got := by
  constructor
  · intro a m hm
    change m ∈ update x.meant s ((x.meant s).drop _) a at hm
    by_cases ha : a = s
    · rw [ha, update_self] at hm
      rw [ha]
      exact h.meant s m (mem_of_mem_drop hm)
    · rw [update_of_ne ha] at hm
      exact h.meant a m hm
  · intro g hg
    rcases mem_append.mp hg with hg | hg
    · exact h.got g hg
    · obtain ⟨m, hm, rfl⟩ := mem_map.mp hg
      exact (h.meant s m (mem_of_mem_take hm)).symm

/-- **A call that makes no connection and no socket in the slot of a descriptor.** -/
theorem Known.step (h : Known x) (ha : Alone x) (hn : ¬ Connects x.net op)
    (hs : ∀ s, (x.net.effect op).made = some s → ∀ j i, ¬ x.net.Names j i s) : Known (x.step op) := by
  have hpos := possible_effect x.net op
  suffices hbytes : (∀ s, ∀ m ∈ (x.mark (x.caller op) (x.net.effect op)).meant s,
      m = (x.mark (x.caller op) (x.net.effect op)).id s) ∧
      Loyal (x.mark (x.caller op) (x.net.effect op)).got from ⟨h.sock_step hs, hbytes.1, hbytes.2⟩
  cases he : x.net.effect op with
  | ask c srv =>
    rw [he] at hpos
    exact absurd hpos hn
  | take srv cli ns =>
    rw [he] at hpos
    exact absurd (ha.queue srv) hpos
  | fresh s p =>
    refine ⟨fun a m hm => ?_, h.got⟩
    change m = update x.id s x.made a
    change m ∈ update x.meant s [] a at hm
    by_cases has : a = s
    · rw [has, update_self] at hm
      cases hm
    · rw [update_of_ne has] at hm ⊢
      exact h.meant a m hm
  | push a p buf count =>
    rw [he] at hpos
    rw [h.caller hpos.2]
    exact ⟨h.push ha hpos.1 buf count, h.got⟩
  | pop s count =>
    rw [he] at hpos
    rw [h.caller hpos]
    exact h.pop s count
  | keep => exact ⟨h.meant, h.got⟩
  | drop srv => exact ⟨h.meant, h.got⟩
  | free s => exact ⟨h.meant, h.got⟩

theorem Known.run (ops : List NetOp) (h : Known x) (ha : Alone x) (hn : NoConnect x.net ops)
    (hs : NoStale x.net ops) : Known (ops.foldl Numbered.step x) := by
  induction ops generalizing x with
  | nil => exact h
  | cons op ops ih => exact ih (h.step ha hn.1 hs.1) (ha.step hn.1) hn.2 hs.2

end Peering

/-- **Partners match in every run without a connection**, and every byte is received by the socket it
was sent to unless a socket is made in the slot of a stale descriptor; the first `connect` of a socket
in use to another one makes partners that do not match. -/
theorem peering_without_connect {x : Net} (h : x.Boot) (ops : List NetOp) (hn : NoConnect x ops) :
    Peered (x.run ops).bufs ∧ (NoStale x ops → Loyal (Numbered.run x ops).got) ∧
      ∀ j fd path c srv, slotOf ((x.run ops).tables j) fd = some c →
        ((x.run ops).bufs.socks c).used = true →
        path.bind (sockByPath ((x.run ops).view j)) = some srv → srv ≠ c →
        (sysConnect ((x.run ops).view j) fd path).1 = 0 →
        ¬ Peered ((x.run ops).step (.call j (.connect fd path))).bufs := by
  have ha : Alone (Numbered.run x ops) := (Alone.start h).run ops hn
  have hnet : (Numbered.run x ops).net = x.run ops := run_net ops
  have hpeer := ha.peered
  rw [hnet] at hpeer
  refine ⟨hpeer, fun hs => ((Known.start x).run ops (.start h) hn hs).got,
    fun j fd path c srv hc hu hsrv hne hok => ?_⟩
  have he : (x.run ops).effect (.call j (.connect fd path)) = .ask c srv := by
    change connectEffect ((x.run ops).view j) fd path = _
    unfold connectEffect
    unfold sysConnect at hok
    rw [show slotOf ((x.run ops).view j).fds.table fd = some c from hc, hsrv] at hok ⊢
    dsimp only at hok ⊢
    split at hok
    · exact absurd hok (show ¬ (-1 : ℤ) = 0 by decide)
    · next hfull => rw [if_neg hfull]
  rw [← hnet] at he hu ⊢
  exact ha.connect he hu hne

/-- No process has made a call. -/
def bootNet : Net := ⟨fun _ => noSocks.fds.table, noSocks.fds.bufs, noSocks.ctl⟩

theorem bootNet_boot : bootNet.Boot := ⟨fun _ => rfl, fun _ => rfl, fun _ => rfl⟩

/-- What process 0 does: a pair, a byte that is written on one descriptor and received on the other,
and both are closed. -/
def pairCalls : List SockCall :=
  [.socketpair afUnix true, .write noAnswers 3 (fun _ => 7) 1, .recvfrom 4 1, .close 3, .close 4]

/-- Then process 1 makes a socket in the same slot. -/
def pairRun : List NetOp := pairCalls.map (.call 0) ++ [.call 1 (.socket afUnix 0)]

theorem pairRun_noConnect : NoConnect bootNet pairRun := ⟨id, id, id, id, id, id, trivial⟩

theorem tables_calls {j k : ℕ} (h : j ≠ k) (cs : List SockCall) (x : Net) :
    (x.run (cs.map (.call k))).tables j = x.tables j := by
  induction cs generalizing x with
  | nil => rfl
  | cons c cs ih => exact (ih _).trans (update_of_ne h _ _)

theorem pairRun_noStale : NoStale bootNet pairRun := by
  have hno : ∀ e : SockEffect, e.made = none → ∀ s, e.made = some s → ∀ (x : Net) (j : ℕ) i,
      ¬ x.Names j i s := fun e he s hs => absurd (he.symm.trans hs).symm (some_ne_none s)
  have hfree : ∀ i, ((bootNet.run (pairCalls.map (.call 0))).tables 0 i).used = false := by
    decide +kernel
  refine ⟨fun s _ j i hn => Bool.false_ne_true hn.2.1, fun s hs => hno _ (by decide) s hs _,
    fun s hs => hno _ (by decide) s hs _, fun s hs => hno _ (by decide) s hs _,
    fun s hs => hno _ (by decide) s hs _, fun s _ j i hn => ?_, trivial⟩
  by_cases hj : j = 0
  · subst hj
    exact Bool.false_ne_true ((hfree i).symm.trans hn.2.1)
  · have hkept := congrFun (tables_calls hj pairCalls bootNet) i
    exact Bool.false_ne_true ((congrArg FdEnt.used hkept).symm.trans hn.2.1)

theorem peering_without_connect_pairRun :
    Peered (bootNet.run pairRun).bufs ∧ Loyal (Numbered.run bootNet pairRun).got :=
  ⟨(peering_without_connect bootNet_boot pairRun pairRun_noConnect).1,
    (peering_without_connect bootNet_boot pairRun pairRun_noConnect).2.1 pairRun_noStale⟩

/-- Process 0 listens as socket 0 at the path `a`, and process 1 connects to it as socket 1. -/
def connectRun : List NetOp :=
  [.call 0 (.socket afUnix 0), .call 0 (.bind 3 (some [97])), .call 0 (.listen 3),
    .call 1 (.socket afUnix 0), .call 1 (.connect 3 (some [97]))]

/-- The connection is accepted as socket 2 and closed, another socket takes the slot, and process 1
sends a byte. -/
def recycledRun : List NetOp :=
  connectRun ++ [.call 0 (.accept 0 3), .call 0 (.close 4), .call 0 (.socket afUnix 0),
    .call 1 (.sendto 3 (fun _ => 7) 1), .call 0 (.recvfrom 4 1)]

/-- Process 0 closes one descriptor of a pair, process 1 makes a pair in the same slot, and process 0
sends a byte on the other descriptor. -/
def staleRun : List NetOp :=
  [.call 0 (.socketpair afUnix true), .call 0 (.close 3), .call 1 (.socketpair afUnix true),
    .call 0 (.sendto 4 (fun _ => 7) 1), .call 1 (.recvfrom 3 1)]

/-- **A client has a partner that does not have it**, and after the slot of the accepted socket was
recycled, the byte for socket 2 is received by socket 3.  Without a connection, the byte for socket 0
is received by socket 1. -/
theorem connect_unmatched_and_recycled :
    (((bootNet.run connectRun).bufs.socks 1).used = true ∧
      ((bootNet.run connectRun).bufs.socks 1).peer = 0 ∧
      ((bootNet.run connectRun).bufs.socks 0).peer = -1) ∧
    (Numbered.run bootNet recycledRun).got = [(3, 2)] ∧
    (Numbered.run bootNet staleRun).got = [(1, 0)] := by
  decide +kernel

end TipOS.Ipc
