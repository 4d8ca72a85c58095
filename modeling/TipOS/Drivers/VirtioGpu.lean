import Mathlib.Data.Nat.Bitwise

/-!
# The control queue of the virtio GPU

`drivers/virtio_gpu.c`.  A command takes two descriptors from a counter, `next_desc`, that nothing
sets back.  The device completes what is posted before `vq_wait` gives up, and the allocations of
`virtio_gpu_init` succeed.
-/

namespace TipOS.Drivers

open Function

structure Desc where
  addr : ℕ
  len : ℕ
  flags : ℕ
  next : ℕ

/-- `virtqueue_t` and the rings it points to.  `indices` has the indices at which the driver wrote a
descriptor or an entry of the available ring. -/
structure Virtqueue where
  desc : ℕ → Desc
  availIdx : ℕ
  availRing : ℕ → ℕ
  usedIdx : ℕ
  usedRing : ℕ → ℕ
  size : ℕ
  nextDesc : ℕ
  lastUsed : ℕ
  indices : List ℕ

/-- A command and its response, each with its address and size.  Every caller has a response. -/
structure Request where
  cmd : ℕ
  clen : ℕ
  resp : ℕ
  rlen : ℕ
  resp_ne : resp ≠ 0

def vqInit (qsize : ℕ) : Virtqueue :=
  ⟨fun _ => ⟨0, 0, 0, 0⟩, 0, fun _ => 0, 0, fun _ => 0, qsize, 0, 0, []⟩

namespace Virtqueue

variable (q : Virtqueue)

def vqAllocDesc : Option ℕ × Virtqueue :=
  if q.size ≤ q.nextDesc then (none, q)
  else (some q.nextDesc, { q with nextDesc := q.nextDesc + 1 })

def setDesc (d : ℕ) (x : Desc) : Virtqueue :=
  { q with desc := update q.desc d x, indices := d :: q.indices }

def vqPost (head : ℕ) : Virtqueue := { q with
  availRing := update q.availRing q.availIdx head
  availIdx := (q.availIdx + 1) % 2 ^ 16
  indices := q.availIdx :: q.indices }

/-- The device completes the request that was posted; it takes indices modulo the size. -/
def complete : Virtqueue := { q with
  usedRing := update q.usedRing (q.usedIdx % q.size) (q.availRing (q.usedIdx % q.size))
  usedIdx := (q.usedIdx + 1) % 2 ^ 16 }

/-- `vq_wait`; -1 when the time is over. -/
def vqWait : ℤ × Virtqueue :=
  if q.lastUsed ≠ q.usedIdx then
    ((BitVec.ofNat 32 (q.usedRing (q.lastUsed &&& (q.size - 1)))).toInt,
      { q with lastUsed := (q.lastUsed + 1) % 2 ^ 16 })
  else (-1, q)

/-- The end of `vg_cmd`. -/
def postAndWait (d : ℕ) : ℤ × Virtqueue :=
  let x := (q.vqPost d).complete.vqWait
  (if 0 ≤ x.1 then 0 else -1, x.2)

def vgCmd (r : Request) : ℤ × Virtqueue :=
  match q.vqAllocDesc with
  | (none, q) => (-1, q)
  | (some d, q) =>
    let q := q.setDesc d ⟨r.cmd, r.clen, 0, 0⟩
    if r.resp = 0 then q.postAndWait d
    else match q.vqAllocDesc with
      | (none, q) => (-1, q)
      | (some rd, q) =>
        ((q.setDesc rd ⟨r.resp, r.rlen, 2, 0⟩).setDesc d ⟨r.cmd, r.clen, 1, rd⟩).postAndWait d

/-- `virtio_gpu_flush`, the driver being active. -/
def flush (xfer res : Request) : ℤ × Virtqueue :=
  let x := q.vgCmd xfer
  if x.1 < 0 then (-1, x.2)
  else
    let y := x.2.vgCmd res
    (if y.1 < 0 then -1 else 0, y.2)

/-- After `n` flushes. -/
def flushes (xfer res : Request) : ℕ → Virtqueue
  | 0 => q
  | n + 1 => ((flushes xfer res n).flush xfer res).2

end Virtqueue

/-- The queue that `virtio_gpu_init` leaves behind: it asks for the display, makes the resource,
attaches its memory and sets the scanout. -/
def virtioGpuInit (info create attach scanout : Request) : Virtqueue :=
  ((((vqInit 256).vgCmd info).2.vgCmd create).2.vgCmd attach).2.vgCmd scanout |>.2

/-- `k` commands were posted and completed. -/
structure Ready (k : ℕ) (q : Virtqueue) : Prop where
  size : q.size = 256
  nextDesc : q.nextDesc = 2 * k
  availIdx : q.availIdx = k
  usedIdx : q.usedIdx = k
  lastUsed : q.lastUsed = k
  indices : ∀ i ∈ q.indices, i < 256

namespace Ready

variable {k : ℕ} {q : Virtqueue} (r xfer res : Request)

theorem cmd_ok (h : Ready k q) (hk : k < 128) :
    (q.vgCmd r).1 = 0 ∧ Ready (k + 1) (q.vgCmd r).2 := by
  obtain ⟨hsize, hnext, havail, hused, hlast, hidx⟩ := h
  have hmask : k &&& (256 - 1) = k :=
    (Nat.and_two_pow_sub_one_eq_mod k 8).trans (Nat.mod_eq_of_lt (by omega))
  have hmod : k % 256 = k := Nat.mod_eq_of_lt (by omega)
  have hinc : (k + 1) % 2 ^ 16 = k + 1 := Nat.mod_eq_of_lt (by omega)
  have hid : 0 ≤ (BitVec.ofNat 32 (2 * k)).toInt := by
    rw [BitVec.toInt_ofNat', Int.bmod]
    omega
  have h1 : ¬ 256 ≤ 2 * k := by omega
  have h2 : ¬ 256 ≤ 2 * k + 1 := by omega
  simp only [Virtqueue.vgCmd, Virtqueue.vqAllocDesc, Virtqueue.setDesc, Virtqueue.postAndWait,
    Virtqueue.vqPost, Virtqueue.complete, Virtqueue.vqWait, hsize, hnext, havail, hused, hlast,
    h1, h2, hmask, hmod, hinc, hid, r.resp_ne, update_self, ne_eq, (Nat.succ_ne_self k).symm,
    not_false_eq_true, if_false, if_true]
  refine ⟨trivial, rfl, rfl, rfl, rfl, rfl, ?_⟩
  simp only [List.forall_mem_cons]
  exact ⟨by omega, by omega, by omega, by omega, hidx⟩

theorem cmd_full (h : Ready 128 q) : q.vgCmd r = (-1, q) := by
  rw [Virtqueue.vgCmd, Virtqueue.vqAllocDesc, if_pos (by rw [h.size, h.nextDesc])]

theorem flush_ok (h : Ready k q) (hk : k < 127) :
    (q.flush xfer res).1 = 0 ∧ Ready (k + 2) (q.flush xfer res).2 := by
  obtain ⟨h1, hr1⟩ := h.cmd_ok xfer (by omega)
  obtain ⟨h2, hr2⟩ := hr1.cmd_ok res (by omega)
  rw [Virtqueue.flush, h1]
  exact ⟨if_neg (by rw [h2]; decide), hr2⟩

theorem flush_full (h : Ready 128 q) : q.flush xfer res = (-1, q) := by
  rw [Virtqueue.flush, h.cmd_full]
  rfl

theorem flushes (h : Ready 4 q) (n : ℕ) :
    ∃ k, k = min (4 + 2 * n) 128 ∧ Ready k (q.flushes xfer res n) := by
  induction n with
  | zero => exact ⟨4, rfl, h⟩
  | succ n ih =>
    obtain ⟨k, hk, hr⟩ := ih
    rw [Virtqueue.flushes]
    by_cases hn : n < 62
    · exact ⟨k + 2, by omega, (hr.flush_ok xfer res (by omega)).2⟩
    · obtain rfl : k = 128 := by omega
      rw [hr.flush_full]
      exact ⟨128, by omega, hr⟩

end Ready

theorem ready_init (info create attach scanout : Request) :
    Ready 4 (virtioGpuInit info create attach scanout) := by
  have h0 : Ready 0 (vqInit 256) := ⟨rfl, rfl, rfl, rfl, rfl, fun _ hi => by cases hi⟩
  have h1 := (h0.cmd_ok info (by decide)).2
  have h2 := (h1.cmd_ok create (by decide)).2
  have h3 := (h2.cmd_ok attach (by decide)).2
  exact (h3.cmd_ok scanout (by decide)).2

/-- **A flush succeeds, with all indices below the size of the queue, exactly if fewer than 62 were
made before it.** -/
theorem flush_succeeds_iff (info create attach scanout xfer res : Request) (n : ℕ) :
    let x := ((virtioGpuInit info create attach scanout).flushes xfer res n).flush xfer res
    x.1 = 0 ∧ (∀ i ∈ x.2.indices, i < 256) ↔ n < 62 := by
  obtain ⟨k, hk, h⟩ := (ready_init info create attach scanout).flushes xfer res n
  constructor
  · rintro ⟨hok, -⟩
    by_contra hn
    obtain rfl : k = 128 := by omega
    rw [h.flush_full] at hok
    cases hok
  · intro hn
    obtain ⟨hok, hr⟩ := h.flush_ok xfer res (by omega)
    exact ⟨hok, hr.indices⟩

/-- The flush after 62 flushes fails. -/
theorem flush_after_62 : let r : Request := ⟨0, 0, 1, 0, by decide⟩
    (((virtioGpuInit r r r r).flushes r r 62).flush r r).1 = -1 := by
  intro r
  obtain ⟨k, rfl, h⟩ := (ready_init r r r r).flushes r r 62
  rw [Ready.flush_full r r h]

end TipOS.Drivers
