import TipOS.Ipc.FileOps
import TipOS.Ipc.PipeEof

/-!
# Copies of a descriptor

`dup`, `dup2`, `dup3` and `fork` copy the record of a descriptor.  The counter of an eventfd and the
position in a file are in the record, so a copy has its own; the buffers of pipes and sockets are in
tables that all records share, but closing a descriptor of a socket gives up the socket itself.

`Shown` is what a process sees through a descriptor.  `duplicates_iff` says for which records a copy
and the original show the same whatever is done through them, and stay usable when the other is
closed: pipes, the console, and sockets that are closed already.
-/

namespace TipOS.Ipc

open Function Lib Process Bool Nat

variable {y' : Sys} {t : FdTable} {oldfd newfd : ℤ} {o n : Fin maxFds}

/-! ### Calls through a descriptor -/

/-- A descriptor: the table and the number in it. -/
abbrev Desc := ℕ × Fin maxFds

namespace Sys

def record (y : Sys) (d : Desc) : FdEnt := y.procs.f.fdTables d.1 d.2

/-- What a system call of a process with table `t` works on. -/
def filesOf (y : Sys) (t : ℕ) : Fds := ⟨y.procs.f.fdTables t, y.bufs⟩

def putFiles (y : Sys) (t : ℕ) (z : Fds) : Sys :=
  { y with procs := ⟨y.procs.k, y.procs.f.setTable t z.table⟩, bufs := z.bufs }

/-- A call through a descriptor. -/
def through (y : Sys) (d : Desc) (op : FileOp) : ReadResult × Sys :=
  let r := op.run (pipeWritersAlive y.procs.k y.procs.f) (y.filesOf d.1) d.2
  (r.1, y.putFiles d.1 r.2)

/-- Calls through two descriptors. -/
def throughBoth (y : Sys) (a b : Desc) : List (Bool × FileOp) → Sys
  | [] => y
  | (first, op) :: ops => throughBoth (y.through (if first then a else b) op).2 a b ops

/-- The answers to calls through a descriptor. -/
def answers (y : Sys) (d : Desc) : List FileOp → List ReadResult
  | [] => []
  | op :: ops => (y.through d op).1 :: answers (y.through d op).2 d ops

def closing (y : Sys) (d : Desc) : Sys := y.putFiles d.1 (closeFd (y.filesOf d.1) d.2.val)

end Sys

/-! ### What a descriptor shows -/

/-- What a process can see and change through a descriptor. -/
inductive Shown
  | closed
  | console
  | pipe (p : ℤ) (slot : Pipe)
  | event (counter : ℕ)
  | socket (s : ℤ) (own peer : Sock)
  | file (name : List UInt8) (pos : ℕ)

/-- The record `e` of descriptor `i`.  From 0 to 2 everything but a pipe is the console. -/
def shownOf (b : Bufs) (i : Fin maxFds) (e : FdEnt) : Shown :=
  if e.used = true ∧ e.type = typePipe then .pipe e.rest.pipeIdx (b.pipes e.rest.pipeIdx.toNat)
  else if i.val < 3 then .console
  else if e.used = false then .closed
  else if e.type = typeEvent then .event e.rest.counter
  else if e.type = typeSock then
    .socket e.rest.sockIdx (b.socks e.rest.sockIdx.toNat)
      (b.socks (b.socks e.rest.sockIdx.toNat).peer.toNat)
  else .file e.rest.name e.rest.pos

def Sys.shown (y : Sys) (d : Desc) : Shown := shownOf y.bufs d.2 (y.record d)

/-- When `a` is closed, `b` works as before. -/
def Survives (y : Sys) (a b : Desc) : Prop := ∀ ops, (y.closing a).answers b ops = y.answers b ops

/-- **Two descriptors denote one object**: whatever is done through them they show the same, and
each works as before when the other is closed. -/
structure OneObject (y : Sys) (a b : Desc) : Prop where
  visible : ∀ ops, (y.throughBoth a b ops).shown a = (y.throughBoth a b ops).shown b
  closing : ∀ ops, Survives (y.throughBoth a b ops) a b ∧ Survives (y.throughBoth a b ops) b a

/-- **The records that can be shared**: a pipe, the console, and a socket that is not in use. -/
def Sharable (y : Sys) (a b : Desc) : Prop :=
  (a.2.val < 3 ∧ b.2.val < 3) ∨ a ≠ b ∧
    ((y.record a).used = true ∧ (y.record a).type = typePipe ∨
      3 ≤ a.2.val ∧ 3 ≤ b.2.val ∧ (y.record a).used = true ∧ (y.record a).type = typeSock ∧
        y.bufs.sockOk (y.record a).rest.sockIdx = false)

/-- `b` is a copy of `a`, made by `dup`, `dup2` or `dup3` or by `fork`. -/
inductive Copied (x : Sys) : Desc → Desc → Sys → Prop
  | dup {s : Syscall} {o n : Fin maxFds} {me t : ℕ} : s.effect x.fds = .copy o n → o ≠ n →
      processCurrent x.procs.k = some me → x.bound.fdsTab me = some t →
      Copied x (t, o) (t, n) (x.step (.sys s))
  | fork {kframe : ℕ} {kstack pml4 : Option ℕ} {me t : ℕ} {i : Fin maxFds} :
      0 ≤ (procFork x.procs.k kframe kstack pml4).1 → processCurrent x.procs.k = some me →
      x.procs.f.fdsTab me = some t → x.procs.f.fdtab = some t →
      (3 ≤ i.val → (x.procs.f.fdTables t i).used = true) →
      Copied x (t, i) (newSlot x.procs.k, i) (x.step (.call (.fork kframe kstack pml4)))

/-! ### Runs through two descriptors -/

theorem record_putFiles (y : Sys) (t : ℕ) (z : Fds) (d : Desc) :
    (y.putFiles t z).record d = if d.1 = t then z.table d.2 else y.record d := by
  change update y.procs.f.fdTables t z.table d.1 d.2 = _
  by_cases ht : d.1 = t
  · rw [if_pos ht, ht, update_self]
  · rw [if_neg ht, update_of_ne ht]
    rfl

section Through

variable (y : Sys) (d : Desc) (op : FileOp)

theorem through_record : (y.through d op).2.record d =
    (op.run (pipeWritersAlive y.procs.k y.procs.f) (y.filesOf d.1) d.2).2.table d.2 :=
  (record_putFiles _ _ _ _).trans (if_pos rfl)

theorem through_record_self : SameObject (y.record d) ((y.through d op).2.record d) := by
  rw [through_record]
  exact (op.isLocal (pipeWritersAlive y.procs.k y.procs.f) (y.filesOf d.1) d.2).own

theorem through_record_of_ne {d' : Desc} (hne : d' ≠ d) :
    (y.through d op).2.record d' = y.record d' := by
  refine (record_putFiles _ _ _ _).trans ?_
  by_cases ht : d'.1 = d.1
  · have hj : d'.2 ≠ d.2 := fun hj => hne (Prod.ext ht hj)
    rw [if_pos ht, Sys.record, ht]
    exact (op.isLocal (pipeWritersAlive y.procs.k y.procs.f) (y.filesOf d.1) d.2).others d'.2 hj
  · rw [if_neg ht]

theorem through_sameObject (d' : Desc) : SameObject (y.record d') ((y.through d op).2.record d') := by
  by_cases hd : d' = d
  · rw [hd]
    exact through_record_self y d op
  · rw [through_record_of_ne y d op hd]
    exact .refl _

theorem through_socks : SameSocks y.bufs (y.through d op).2.bufs :=
  (op.isLocal (pipeWritersAlive y.procs.k y.procs.f) (y.filesOf d.1) d.2).socks

end Through

theorem shown_eq {b : Bufs} {i j : Fin maxFds} {e e' : FdEnt} (hs : SameObject e e')
    (h : (e.used ∧ e.type = typePipe) ∨ (i.val < 3 ∧ j.val < 3) ∨
      (3 ≤ i.val ∧ 3 ≤ j.val ∧ e.used ∧ e.type = typeSock)) :
    shownOf b i e = shownOf b j e' := by
  unfold shownOf
  rw [hs.used, hs.type, hs.pipeIdx, hs.sockIdx]
  rcases h with hp | ⟨hi, hj⟩ | ⟨hi, hj, hu, ht⟩
  · rw [if_pos hp, if_pos hp]
  · split
    · rfl
    · rfl
  · split
    · rfl
    have hne : ¬ e.used = false := by simp [hu]
    have hev : ¬ e.type = typeEvent := by rw [ht]; decide
    rw [if_neg (not_lt.mpr hi), if_neg (not_lt.mpr hj), if_neg hne, if_neg hne, if_neg hev,
      if_neg hev]

/-! ### Who writes to a pipe -/

theorem pipeWritersAlive_setTable (k : Kernel) (f : FdState) {t : ℕ} {z : FdTable}
    (h : ∀ j, pipeEnd (z j) = pipeEnd (f.fdTables t j)) (p : ℤ) :
    pipeWritersAlive k (f.setTable t z) p = pipeWritersAlive k f p := by
  have hend : ∀ i j, endOf (f.setTable t z) i j = endOf f i j := by
    intro i j
    change (f.fdsTab i).bind _ = (f.fdsTab i).bind _
    congr 1
    funext l
    change pipeEnd (update f.fdTables t z l j) = _
    by_cases hl : l = t
    · rw [hl, update_self, h]
    · rw [update_of_ne hl]
  rw [Bool.eq_iff_iff, pipeWritersAlive_iff, pipeWritersAlive_iff]
  simp only [hend]

theorem through_alive (y : Sys) (d : Desc) (op : FileOp) (p : ℤ) :
    pipeWritersAlive (y.through d op).2.procs.k (y.through d op).2.procs.f p =
      pipeWritersAlive y.procs.k y.procs.f p := by
  refine pipeWritersAlive_setTable _ _ (fun j => ?_) p
  have hl := op.isLocal (pipeWritersAlive y.procs.k y.procs.f) (y.filesOf d.1) d.2
  by_cases hj : j = d.2
  · rw [hj]
    exact hl.own.pipeEnd_eq
  · rw [hl.others j hj]
    rfl

/-- States in which descriptor `d` works the same. -/
structure Alike (d : Desc) (y y' : Sys) : Prop where
  record : y'.record d = y.record d
  bufs : y'.bufs = y.bufs
  alive : ∀ v, pipeEnd (y.record d) = some v →
    pipeWritersAlive y'.procs.k y'.procs.f v.1 = pipeWritersAlive y.procs.k y.procs.f v.1

theorem Alike.through {y : Sys} (h : Alike d y y') (op : FileOp) :
    (y'.through d op).1 = (y.through d op).1 ∧ Alike d (y.through d op).2 (y'.through d op).2 := by
  have hag : Agree d.2 (y.filesOf d.1) (y'.filesOf d.1) := ⟨h.record, h.bufs⟩
  obtain ⟨hr, hs⟩ := op.agree hag h.alive
  refine ⟨hr, ?_, hs.bufs, ?_⟩
  · rw [through_record, through_record]
    exact hs.table
  · intro v hv
    rw [(through_record_self y d op).pipeEnd_eq] at hv
    rw [through_alive, through_alive]
    exact h.alive v hv

theorem Alike.answers {y : Sys} (h : Alike d y y') (ops : List FileOp) :
    y'.answers d ops = y.answers d ops := by
  induction ops generalizing y y' with
  | nil => rfl
  | cons op ops ih =>
    obtain ⟨hr, hs⟩ := h.through op
    exact congrArg₂ List.cons hr (ih hs)

/-! ### Closing -/

section Closing

variable (y : Sys) (a : Desc)

theorem closeFd_coe (x : Fds) (i : Fin maxFds) : closeFd x i.val =
    if 3 ≤ i.val ∧ (x.table i).used = true then
      ⟨update x.table i { x.table i with used := false },
        if (x.table i).type = typeSock ∧ 0 ≤ (x.table i).rest.sockIdx ∧
            (x.table i).rest.sockIdx < maxSocks
          then x.bufs.freeSock (x.table i).rest.sockIdx.toNat else x.bufs⟩
    else x := by
  unfold closeFd
  rw [fdIdx_coe]

theorem closing_eq_self (h : ¬ (3 ≤ a.2.val ∧ (y.record a).used)) : y.closing a = y := by
  have hc : closeFd (y.filesOf a.1) a.2.val = y.filesOf a.1 := by
    rw [closeFd_coe]
    exact if_neg h
  unfold Sys.closing
  rw [hc]
  have hf : y.procs.f.setTable a.1 (y.procs.f.fdTables a.1) = y.procs.f := by
    rw [FdState.setTable, update_eq_self]
  change { y with procs := ⟨y.procs.k, y.procs.f.setTable a.1 (y.procs.f.fdTables a.1)⟩ } = y
  rw [hf]

variable {y a} (h : 3 ≤ a.2.val ∧ (y.record a).used)

include h

theorem closing_files : closeFd (y.filesOf a.1) a.2.val =
    ⟨update (y.procs.f.fdTables a.1) a.2 { y.record a with used := false },
      if (y.record a).type = typeSock ∧ 0 ≤ (y.record a).rest.sockIdx ∧
          (y.record a).rest.sockIdx < maxSocks
        then y.bufs.freeSock (y.record a).rest.sockIdx.toNat else y.bufs⟩ :=
  (closeFd_coe _ _).trans (if_pos h)

theorem closing_record_self : (y.closing a).record a = { y.record a with used := false } := by
  rw [Sys.closing, closing_files h, record_putFiles, if_pos rfl]
  exact update_self _ _ _

theorem closing_record_of_ne (hd : d ≠ a) : (y.closing a).record d = y.record d := by
  rw [Sys.closing, closing_files h, record_putFiles]
  by_cases ht : d.1 = a.1
  · have hj : d.2 ≠ a.2 := fun hj => hd (Prod.ext ht hj)
    rw [if_pos ht]
    refine (update_of_ne hj _ _).trans ?_
    rw [Sys.record, ht]
  · rw [if_neg ht]

theorem closing_bufs : (y.closing a).bufs =
    if (y.record a).type = typeSock ∧ 0 ≤ (y.record a).rest.sockIdx ∧
        (y.record a).rest.sockIdx < maxSocks
      then y.bufs.freeSock (y.record a).rest.sockIdx.toNat else y.bufs := by
  rw [Sys.closing, closing_files h]
  rfl

end Closing

/-! ### Copies -/

/-- A process has the table `t`. -/
def HasProcess (y : Sys) (t : ℕ) : Prop :=
  ∃ i < maxProc, (y.procs.k.table i).state ≠ .empty ∧ y.procs.f.fdsTab i = some t

/-- Two descriptors of processes with records about the same. -/
structure Twin (y : Sys) (a b : Desc) : Prop where
  same : SameObject (y.record a) (y.record b)
  first : HasProcess y a.1
  second : HasProcess y b.1

section Twin

variable {y : Sys} {a b : Desc}

theorem Twin.symm (h : Twin y a b) : Twin y b a := ⟨h.same.symm, h.second, h.first⟩

theorem Twin.through (h : Twin y a b) (d : Desc) (op : FileOp) : Twin (y.through d op).2 a b := by
  have ha := through_sameObject y d op a
  have hb := through_sameObject y d op b
  exact ⟨ha.symm.trans (h.same.trans hb), h.first, h.second⟩

theorem Sharable.through (h : Sharable y a b) (d : Desc) (op : FileOp) :
    Sharable (y.through d op).2 a b := by
  have ha := through_sameObject y d op a
  refine h.imp id (And.imp id ?_)
  rw [ha.used, ha.type, ha.sockIdx]
  refine Or.imp id ?_
  rintro ⟨ha3, hb3, hu, ht, hs⟩
  refine ⟨ha3, hb3, hu, ht, ?_⟩
  rw [← hs, Bufs.sockOk, Bufs.sockOk, through_socks y d op]

theorem Sharable.symm (h : Sharable y a b) (ht : Twin y a b) : Sharable y b a := by
  refine h.imp And.symm (And.imp Ne.symm ?_)
  rw [ht.same.used, ht.same.type, ht.same.sockIdx]
  refine Or.imp id ?_
  rintro ⟨ha3, hb3, hrest⟩
  exact ⟨hb3, ha3, hrest⟩

theorem throughBoth_keeps (ht : Twin y a b) (hs : Sharable y a b) (ops : List (Bool × FileOp)) :
    Twin (y.throughBoth a b ops) a b ∧ Sharable (y.throughBoth a b ops) a b := by
  induction ops generalizing y with
  | nil => exact ⟨ht, hs⟩
  | cons op ops ih =>
    obtain ⟨first, op⟩ := op
    exact ih (ht.through _ op) (hs.through _ op)

theorem closing_alive (ht : Twin y a b) (hne : a ≠ b)
    (h : 3 ≤ a.2.val ∧ (y.record a).used) (p : ℤ) :
    pipeWritersAlive (y.closing a).procs.k (y.closing a).procs.f p =
      pipeWritersAlive y.procs.k y.procs.f p := by
  have hpart : ∀ i t, y.procs.f.fdsTab i = some t → ∀ j,
      endOf (y.closing a).procs.f i j = pipeEnd ((y.closing a).record (t, j)) := by
    intro i t hi j
    change (y.procs.f.fdsTab i).bind _ = _
    rw [hi]
    rfl
  rw [Bool.eq_iff_iff, pipeWritersAlive_iff, pipeWritersAlive_iff]
  constructor
  · rintro ⟨i, hi, hs, j, he⟩
    obtain ⟨t, hit, -⟩ := endOf_eq_some.mp he
    rw [hpart i t hit] at he
    refine ⟨i, hi, hs, j, endOf_eq_some.mpr ⟨t, hit, ?_⟩⟩
    by_cases hd : (t, j) = a
    · rw [hd, closing_record_self h, pipeEnd_of_not_used rfl] at he
      cases he
    · rwa [closing_record_of_ne h hd] at he
  rintro ⟨i, hi, hs, j, he⟩
  obtain ⟨t, hit, hend⟩ := endOf_eq_some.mp he
  by_cases hd : (t, j) = a
  · -- the end that is closed is replaced by its copy
    obtain ⟨i', hi', hs', ht'⟩ := ht.second
    refine ⟨i', hi', hs', b.2, ?_⟩
    rw [hpart i' b.1 ht', closing_record_of_ne h hne.symm, ht.same.pipeEnd_eq, ← hd]
    exact hend
  · refine ⟨i, hi, hs, j, ?_⟩
    rw [hpart i t hit, closing_record_of_ne h hd]
    exact hend

/-- **When a descriptor of a pipe or of the console is closed, its copy works as before.** -/
theorem Twin.survives (ht : Twin y a b) (hs : Sharable y a b) : Survives y a b := by
  intro ops
  by_cases h : 3 ≤ a.2.val ∧ (y.record a).used
  · rcases hs with ⟨ha, -⟩ | ⟨hne, hs⟩
    · omega
    refine Alike.answers ⟨closing_record_of_ne h hne.symm, ?_, fun v _ => closing_alive ht hne h v.1⟩ ops
    rw [closing_bufs h]
    rcases hs with ⟨-, hp⟩ | ⟨-, -, -, -, hok⟩
    · rw [if_neg]
      rintro ⟨hsock, -⟩
      cases hp.symm.trans hsock
    split
    · next hsock =>
      refine Bufs.freeSock_eq_self ?_
      rw [Bufs.sockOk, decide_eq_false_iff_not] at hok
      exact eq_false_iff.mpr fun hu => hok ⟨hsock.2.1, hsock.2.2, hu⟩
    · rfl
  · rw [closing_eq_self y a h]

theorem Twin.shown (ht : Twin y a b) (hs : Sharable y a b) : y.shown a = y.shown b := by
  refine shown_eq ht.same ?_
  rcases hs with h | ⟨-, h | ⟨ha3, hb3, hu, hsock, -⟩⟩
  · exact .inr (.inl h)
  · exact .inl h
  · exact .inr (.inr ⟨ha3, hb3, hu, hsock⟩)

/-- **A record that can be shared is one object for its copies.** -/
theorem Twin.oneObject (ht : Twin y a b) (hs : Sharable y a b) : OneObject y a b := by
  constructor
  · intro ops
    obtain ⟨ht', hs'⟩ := throughBoth_keeps ht hs ops
    exact ht'.shown hs'
  · intro ops
    obtain ⟨ht', hs'⟩ := throughBoth_keeps ht hs ops
    exact ⟨ht'.survives hs', ht'.symm.survives (hs'.symm ht')⟩

end Twin

/-! ### Where a copy differs -/

section Differs

variable {y : Sys} {a b : Desc}

theorem through_lseek (h : 3 ≤ d.2.val ∧ (y.record d).used) (off : ℤ) :
    (y.through d (.lseek noAnswers off 0)).1 = .done (posOf off) [] ∧
      ((y.through d (.lseek noAnswers off 0)).2.record d).rest =
        { (y.record d).rest with pos := posOf off } := by
  have hrun : sysLseek noAnswers (y.filesOf d.1) d.2.val off 0 =
      ((posOf off : ℤ), (y.filesOf d.1).setPos d.2 (posOf off)) := by
    unfold sysLseek
    rw [fdIdx_coe]
    exact if_pos h
  rw [through_record]
  dsimp only [Sys.through, FileOp.run]
  rw [hrun, Fds.setPos, Fds.set_table, update_self]
  exact ⟨rfl, rfl⟩

theorem through_lseek_closed (h : (y.record d).used = false) (off : ℤ) :
    (y.through d (.lseek noAnswers off 0)).1 = .done (-1) [] := by
  have hrun : sysLseek noAnswers (y.filesOf d.1) d.2.val off 0 = (-1, y.filesOf d.1) := by
    unfold sysLseek
    rw [fdIdx_coe]
    refine if_neg ?_
    rintro ⟨-, hu⟩
    exact false_ne_true (h.symm.trans hu)
  dsimp only [Sys.through, FileOp.run]
  rw [hrun]

theorem not_survives_self (h : 3 ≤ a.2.val ∧ (y.record a).used) : ¬ Survives y a a := by
  intro hs
  have he := hs [.lseek noAnswers 0 0]
  have hclosed : ((y.closing a).record a).used = false := by rw [closing_record_self h]
  simp only [Sys.answers, through_lseek_closed hclosed, (through_lseek h 0).1] at he
  have hpos : (posOf 0 : ℤ) = -1 := by
    injection he with he
    injection he with he
    exact he.symm
  cases hpos

theorem shown_event (h3 : 3 ≤ d.2.val) (hu : (y.record d).used)
    (ht : (y.record d).type = typeEvent) : y.shown d = .event (y.record d).rest.counter := by
  have hp : ¬ ((y.record d).used ∧ (y.record d).type = typePipe) := by
    rintro ⟨-, hp⟩
    cases ht.symm.trans hp
  have hne : ¬ (y.record d).used = false := by simp [hu]
  rw [Sys.shown, shownOf, if_neg hp, if_neg (not_lt.mpr h3), if_neg hne, if_pos ht]

theorem shown_file (h3 : 3 ≤ d.2.val) (hu : (y.record d).used)
    (hp : (y.record d).type ≠ typePipe) (he : (y.record d).type ≠ typeEvent)
    (hs : (y.record d).type ≠ typeSock) :
    y.shown d = .file (y.record d).rest.name (y.record d).rest.pos := by
  have hne : ¬ (y.record d).used = false := by simp [hu]
  rw [Sys.shown, shownOf, if_neg (fun h => hp h.2), if_neg (not_lt.mpr h3), if_neg hne,
    if_neg he, if_neg hs]

theorem shown_console (h : y.shown d = .console) : d.2.val < 3 := by
  unfold Sys.shown shownOf at h
  split at h
  · cases h
  split at h
  · assumption
  split at h
  · cases h
  split at h
  · cases h
  · split at h
    · cases h
    · cases h

theorem shown_of_lt (h3 : d.2.val < 3)
    (hp : ¬ ((y.record d).used ∧ (y.record d).type = typePipe)) : y.shown d = .console := by
  rw [Sys.shown, shownOf, if_neg hp, if_pos h3]

section

variable (ht : Twin y a b) (hne : a ≠ b) (ha : 3 ≤ a.2.val ∧ (y.record a).used)
  (hb : 3 ≤ b.2.val)

include ht hne ha hb

theorem not_visible_file (hp : (y.record a).type ≠ typePipe) (he : (y.record a).type ≠ typeEvent)
    (hs : (y.record a).type ≠ typeSock) : ¬ OneObject y a b := by
  intro h
  have hshown : ∀ (z : Sys) (d : Desc), 3 ≤ d.2.val → SameObject (y.record a) (z.record d) →
      z.shown d = .file (z.record d).rest.name (z.record d).rest.pos := by
    intro z d h3 hso
    refine shown_file h3 (hso.used.trans ha.2) ?_ ?_ ?_
    · rwa [hso.type]
    · rwa [hso.type]
    · rwa [hso.type]
  have hstay : ∀ off, (y.through a (.lseek noAnswers off 0)).2.record b = y.record b :=
    fun off => through_record_of_ne y a _ hne.symm
  -- a position that the copy does not have
  obtain ⟨off, hoff⟩ : ∃ off : ℤ, posOf off ≠ (y.record b).rest.pos := by
    by_cases h0 : (y.record b).rest.pos = 0
    · exact ⟨1, by rw [h0]; decide⟩
    · exact ⟨0, fun hz => h0 (hz.symm.trans (by decide))⟩
  have hv := h.visible [(true, .lseek noAnswers off 0)]
  simp only [Sys.throughBoth, if_true] at hv
  rw [hshown _ a ha.1 (through_sameObject y a _ a),
    hshown _ b hb (ht.same.trans (through_sameObject y a _ b)), hstay off,
    (through_lseek ha off).2] at hv
  injection hv with _ hpos
  exact hoff hpos

theorem not_visible_event (hev : (y.record a).type = typeEvent) : ¬ OneObject y a b := by
  intro h
  have hshown : ∀ (z : Sys) (d : Desc), 3 ≤ d.2.val → SameObject (y.record a) (z.record d) →
      z.shown d = .event (z.record d).rest.counter :=
    fun z d h3 hso => shown_event h3 (hso.used.trans ha.2) (hso.type.trans hev)
  have h0 : y.shown a = y.shown b := h.visible []
  rw [hshown _ a ha.1 (.refl _), hshown _ b hb ht.same] at h0
  injection h0 with h0
  -- 1 is written through the original
  have hrun : doWriteFd noAnswers (y.filesOf a.1) a.2.val (fun i => if i = 0 then 1 else 0) 8 =
      (8, (y.filesOf a.1).setCounter a.2 (((y.record a).rest.counter + 1) % 2 ^ 64)) := by
    have hp : ¬ ((y.record a).used ∧ (y.record a).type = typePipe) := by
      rintro ⟨-, hp⟩
      cases hev.symm.trans hp
    have hle : le64 (fun i => if i = 0 then (1 : UInt8) else 0) = 1 := by decide
    unfold doWriteFd
    rw [fdIdx_coe, hle]
    refine (if_neg hp).trans ((if_pos ha).trans ((if_pos hev).trans ?_))
    refine Prod.ext rfl ?_
    rw [if_pos (le_refl (8 : ℤ))]
    rfl
  have hv := h.visible [(true, .write noAnswers (fun i => if i = 0 then 1 else 0) 8)]
  simp only [Sys.throughBoth, if_true] at hv
  rw [hshown _ a ha.1 (through_sameObject y a _ a),
    hshown _ b hb (ht.same.trans (through_sameObject y a _ b)), through_record_of_ne y a _ hne.symm, through_record] at hv
  dsimp only [FileOp.run] at hv
  rw [hrun, Fds.setCounter, Fds.set_table, update_self] at hv
  injection hv with hv
  have hv' : ((y.record a).rest.counter + 1) % 2 ^ 64 = (y.record b).rest.counter := hv
  omega

theorem not_survives_sock (hsock : (y.record a).type = typeSock)
    (hok : y.bufs.sockOk (y.record a).rest.sockIdx) : ¬ Survives y a b := by
  intro hs
  have hread : ∀ z : Sys, z.record b = y.record b → (z.through b (.read noAnswers 0)).1 =
      (sockPop z.bufs (y.record a).rest.sockIdx 0).1 := by
    intro z hz
    have hused : (z.record b).used := by rw [hz, ht.same.used]; exact ha.2
    have htype : (z.record b).type = typeSock := by rw [hz, ht.same.type]; exact hsock
    have hidx : (z.record b).rest.sockIdx = (y.record a).rest.sockIdx := by
      rw [hz, ht.same.sockIdx]
    rw [← hidx]
    dsimp only [Sys.through, FileOp.run, sysRead]
    rw [fdIdx_coe]
    have htype' : ((z.filesOf b.1).table b.2).type = 4 := htype
    have hused' : ((z.filesOf b.1).table b.2).used := hused
    simp [readOther, htype', hused', hb, typePipe, typeSock, typeEvent, typeTimer, fdTty, fdMice,
      fdFb]
    rfl
  have he := hs [.read noAnswers 0]
  simp only [Sys.answers] at he
  rw [hread y rfl, hread _ (closing_record_of_ne ha hne.symm), closing_bufs ha] at he
  rw [Bufs.sockOk, decide_eq_true_eq] at hok
  rw [if_pos ⟨hsock, hok.1, hok.2.1⟩] at he
  have hgone : (y.bufs.freeSock (y.record a).rest.sockIdx.toNat).sockOk
      (y.record a).rest.sockIdx = false := by
    rw [Bufs.sockOk, decide_eq_false_iff_not]
    rintro ⟨-, -, hu⟩
    rw [Bufs.freeSock_socks, update_self] at hu
    exact false_ne_true hu
  have hstill : y.bufs.sockOk (y.record a).rest.sockIdx ≠ false := by
    rw [Bufs.sockOk, decide_eq_true hok]
    exact false_ne_true.symm
  rw [sockPop, if_pos hgone, sockPop, if_neg hstill] at he
  dsimp only at he
  split at he
  · injection he with he
    injection he with he
    split at he
    · cases he
    · cases he
  · injection he with he
    injection he with he
    omega

end

/-- **Only records that can be shared are one object for their copies.** -/
theorem Twin.sharable (ht : Twin y a b) (hopen : 3 ≤ a.2.val → (y.record a).used)
    (h : OneObject y a b) : Sharable y a b := by
  have h0 : y.shown a = y.shown b := h.visible []
  have hself : 3 ≤ a.2.val → a ≠ b := by
    rintro h3 rfl
    exact not_survives_self ⟨h3, hopen h3⟩ (h.closing []).1
  by_cases hp : (y.record a).used ∧ (y.record a).type = typePipe
  · by_cases ha3 : 3 ≤ a.2.val
    · exact .inr ⟨hself ha3, .inl hp⟩
    by_cases hb3 : b.2.val < 3
    · exact .inl ⟨Nat.lt_of_not_le ha3, hb3⟩
    · refine .inr ⟨?_, .inl hp⟩
      rintro rfl
      exact ha3 (Nat.le_of_not_lt hb3)
  have hpb : ¬ ((y.record b).used ∧ (y.record b).type = typePipe) := by
    rw [ht.same.used, ht.same.type]
    exact hp
  by_cases ha3 : a.2.val < 3
  · rw [shown_of_lt ha3 hp] at h0
    exact .inl ⟨ha3, shown_console h0.symm⟩
  by_cases hb3 : b.2.val < 3
  · rw [shown_of_lt hb3 hpb] at h0
    exact .inl ⟨shown_console h0, hb3⟩
  have ha : 3 ≤ a.2.val ∧ (y.record a).used :=
    ⟨Nat.le_of_not_lt ha3, hopen (Nat.le_of_not_lt ha3)⟩
  have hb := Nat.le_of_not_lt hb3
  have hne := hself ha.1
  by_cases hev : (y.record a).type = typeEvent
  · exact absurd h (not_visible_event ht hne ha hb hev)
  by_cases hsock : (y.record a).type = typeSock
  · refine .inr ⟨hne, .inr ⟨ha.1, hb, ha.2, hsock, ?_⟩⟩
    exact eq_false_iff.mpr fun hok =>
      not_survives_sock ht hne ha hb hsock hok (h.closing []).1
  · exact absurd h (not_visible_file ht hne ha hb (fun hp' => hp ⟨ha.2, hp'⟩) hev hsock)

end Differs

/-! ### The calls that copy -/

theorem copyOnto_eq (h : copyOnto t oldfd newfd = .copy o n) :
    dupSource t oldfd = some o ∧ fdIdx newfd = some n := by
  unfold copyOnto at h
  split at h
  · next ho hn =>
    injection h with h1 h2
    rw [ho, hn, h1, h2]
    exact ⟨rfl, rfl⟩
  · cases h

theorem copyNew_eq (h : copyNew t oldfd = .copy o n) :
    dupSource t oldfd = some o ∧ allocFd t = some n := by
  unfold copyNew at h
  split at h
  · next ho hn =>
    injection h with h1 h2
    rw [ho, hn, h1, h2]
    exact ⟨rfl, rfl⟩
  · cases h

theorem dupOnto_copies {flags : Option ℤ} {x : Fds} (h : copyOnto x.table oldfd newfd = .copy o n)
    (hne : o ≠ n) :
    (3 ≤ o.val → (x.table o).used) ∧
      (dupOnto flags x oldfd newfd).2.table o = x.table o ∧
      SameObject (x.table o) ((dupOnto flags x oldfd newfd).2.table n) := by
  obtain ⟨ho, hn⟩ := copyOnto_eq h
  have hclose : (closeTarget x n).table o = x.table o := by
    unfold closeTarget
    split
    · exact update_of_ne hne _ _
    · rfl
  unfold dupOnto
  rw [ho, hn]
  rw [Fds.set_table, update_of_ne hne, update_self, hclose]
  exact ⟨(dupSource_some ho).2, rfl, rfl, rfl, rfl, rfl, rfl⟩

theorem Syscall.copies {s : Syscall} {x : Fds} (h : s.effect x = .copy o n) (hne : o ≠ n)
    (alive : ℤ → Bool) :
    (3 ≤ o.val → (x.table o).used) ∧ (s.run alive x).table o = x.table o ∧
      SameObject (x.table o) ((s.run alive x).table n) := by
  cases s with
  | dup oldfd =>
    obtain ⟨ho, hn⟩ := copyNew_eq h
    dsimp only [Syscall.run, sysDup]
    rw [ho, hn]
    rw [Fds.set_table, update_of_ne hne, update_self]
    exact ⟨(dupSource_some ho).2, rfl, .refl _⟩
  | dup2 oldfd newfd => exact dupOnto_copies h hne
  | dup3 oldfd newfd flags => exact dupOnto_copies h hne
  | pipe out =>
    dsimp only [Syscall.effect, makePipe] at h
    split at h <;> exact Effect.noConfusion h
  | pipe2 out flags =>
    dsimp only [Syscall.effect, makePipe] at h
    split at h <;> exact Effect.noConfusion h
  | close fd => cases h
  | «open» path =>
    dsimp only [Syscall.effect, takeFile] at h
    split at h
    · cases h
    · cases ha : allocFd x.table with
      | none => rw [ha] at h; cases h
      | some n => rw [ha] at h; cases h
  | _ => cases h

/-- **A copy and its original are twins.** -/
theorem Copied.twin {x y : Sys} {a b : Desc} (h : Copied x a b y) :
    Twin y a b ∧ (3 ≤ a.2.val → (y.record a).used) := by
  cases h with
  | @dup s o n me t he hne hme ht =>
    obtain ⟨hlt, hs, -⟩ := processCurrent_some hme
    obtain ⟨t', ht', hcur⟩ := bound_current hme
    obtain rfl : t = t' := Option.some.inj (ht.symm.trans ht')
    obtain ⟨hopen, ho, hn⟩ := Syscall.copies he hne x.alive
    have hrec : ∀ j, (x.step (.sys s)).record (t, j) = (s.run x.alive x.fds).table j := by
      intro j
      have hput := tableAt_putCurrent x.bound (s.run x.alive x.fds).table (some t)
      rw [if_pos hcur.symm] at hput
      exact congrFun hput j
    have hproc : HasProcess (x.step (.sys s)) t :=
      ⟨me, hlt, hs, (congrFun (putCurrent_fdsTab x.bound _) me).trans ht⟩
    refine ⟨⟨?_, hproc, hproc⟩, ?_⟩
    · rw [hrec, hrec, ho]
      exact hn
    · rw [hrec, ho]
      exact hopen
  | @fork kframe kstack pml4 me t i hok hme ht hcur hopen =>
    obtain ⟨hlt, hs, -⟩ := processCurrent_some hme
    obtain ⟨hslot, hc⟩ := (makes_fork ..).newSlot hok
    have hne := ne_newSlot hslot hs
    have hnew := findEmpty_lt hslot
    have hf : (x.step (.call (.fork kframe kstack pml4))).procs.f =
        x.procs.f.dupIntoSlot (newSlot x.procs.k) := if_pos hok
    have hrec : ∀ l, l = t ∨ l = newSlot x.procs.k →
        (x.step (.call (.fork kframe kstack pml4))).record (l, i) = x.procs.f.fdTables t i := by
      intro l hl
      have hcurrent : x.procs.f.current = x.procs.f.fdTables t := by
        rw [FdState.current, hcur]
        rfl
      have htab := tableAt_dupIntoSlot x.procs.f (newSlot x.procs.k) (some l)
      rw [hcurrent] at htab
      rw [Sys.record, hf]
      refine (congrFun htab i).trans ?_
      split
      · rfl
      · next hl' =>
        rw [hl.resolve_right fun h => hl' (congrArg some h)]
        rfl
    refine ⟨⟨?_, ⟨me, hlt, ?_, ?_⟩, newSlot x.procs.k, hnew, ?_, ?_⟩, ?_⟩
    · rw [hrec t (.inl rfl), hrec _ (.inr rfl)]
      exact .refl _
    · exact fun h => hs (hc.rest me hne ▸ h)
    · rw [hf]
      exact (update_of_ne hne _ _).trans ht
    · exact fun h => ProcState.noConfusion (hc.state.symm.trans h)
    · rw [hf]
      exact update_self _ _ _
    · rw [hrec t (.inl rfl)]
      exact hopen

/-- **A copy denotes the object of its original exactly for the records that can be shared**: pipes,
the console, and sockets that are not in use. -/
theorem duplicates_iff (x y : Sys) (a b : Desc) (h : Copied x a b y) :
    OneObject y a b ↔ Sharable y a b :=
  ⟨h.twin.1.sharable h.twin.2, h.twin.1.oneObject⟩

theorem copied_dup {x : Sys} (me : ℕ) {t : ℕ} (ho : dupSource x.fds.table oldfd = some o)
    (hn : allocFd x.fds.table = some n) (hne : o ≠ n) (hme : processCurrent x.procs.k = some me)
    (ht : x.bound.fdsTab me = some t) :
    Copied x (t, o) (t, n) (x.step (.sys (.dup oldfd))) := by
  refine .dup ?_ hne hme ht
  dsimp only [Syscall.effect, copyNew]
  rw [ho, hn]

/-- A program with a pipe. -/
def pipeSys : Sys := firstSys.run [.sys (.pipe true)]

theorem duplicates_iff_pipe : ∃ y, Copied pipeSys (1, 3) (1, 5) y ∧ OneObject y (1, 3) (1, 5) := by
  have hc : Copied pipeSys (1, 3) (1, 5) (pipeSys.step (.sys (.dup 3))) :=
    copied_dup 1 (by decide +kernel) (by decide +kernel) (by decide) (by decide +kernel)
      (by decide +kernel)
  refine ⟨_, hc, (duplicates_iff pipeSys _ (1, 3) (1, 5) hc).mpr (.inr ⟨by decide, .inl ?_⟩)⟩
  decide +kernel

/-- A program that has opened a file. -/
def withFile : Sys := firstSys.run [.sys (.open [0x61])]

/-- **`lseek` through a copy of a descriptor leaves the position of the original.** -/
theorem dup_keeps_position : ∃ x y : Sys, x.Reached (fun _ _ => True) ∧ Copied x (1, 3) (1, 4) y ∧
    (y.record (1, 3)).rest.pos = 0 ∧ (y.record (1, 4)).rest.pos = 0 ∧
    ((y.throughBoth (1, 3) (1, 4) [(false, .lseek noAnswers 5 0)]).record (1, 3)).rest.pos = 0 ∧
    ((y.throughBoth (1, 3) (1, 4) [(false, .lseek noAnswers 5 0)]).record (1, 4)).rest.pos = 5 ∧
    ¬ OneObject y (1, 3) (1, 4) := by
  have hreach : withFile.Reached fun _ _ => True :=
    Sys.Reached.run (Sys.Reached.run (.start blank 0x10000 0x100) (by decide)) (by decide)
  have hc : Copied withFile (1, 3) (1, 4) (withFile.step (.sys (.dup 3))) :=
    copied_dup 1 (by decide +kernel) (by decide +kernel) (by decide) (by decide +kernel)
      (by decide +kernel)
  refine ⟨withFile, _, hreach, hc, by decide +kernel, by decide +kernel, by decide +kernel,
    by decide +kernel, fun h => ?_⟩
  have hs := hc.twin.1.sharable hc.twin.2 h
  have hno : ¬ Sharable (withFile.step (.sys (.dup 3))) (1, 3) (1, 4) := by
    unfold Sharable
    decide +kernel
  exact hno hs

end TipOS.Ipc
