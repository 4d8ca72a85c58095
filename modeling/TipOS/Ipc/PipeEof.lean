import TipOS.Ipc.PipeSlots

/-!
# End of file on pipes

A blocking read of an empty pipe returns when `pipe_writers_alive` finds no end for writing.  The
scan looks at the tables of zombies too, and an exit closes the descriptors from 3 on only; an end
for writing that was moved to 0, 1 or 2 stays in the table of the zombie until it is collected.

`eof_on_pipe` says that the scan finds no writer when no live process has one, in every run in which
no process ends as the last user of a table with such an end in it.
-/

namespace TipOS.Ipc

open Function Lib Process Bool Option

variable {x : Sys} {i : ℕ} {j : Fin maxFds} {v : ℤ × Bool} {c : Call} {k : Kernel}

/-- Descriptor `j` of the live process in slot `i` is an end for writing of pipe `p`. -/
def Writes (x : Procs) (i : ℕ) (j : Fin maxFds) (p : ℤ) : Prop :=
  Live x.k i ∧ endOf x.f i j = some (p, true)

/-- The end for writing `j` in table `t` is not closed by an exit. -/
def Stays (x : Procs) (c : Call) (t : ℕ) (j : Fin maxFds) : Prop :=
  ¬ ∃ me, c.Zombie x.k me ∧ x.f.fdsTab me = some t ∧ 3 ≤ j.val

/-- **When a process ends, an end for writing that stays in its table is in the table of a live
process too**, unless no zombie has the table; and a system call is made by a live process that
`process_current` finds. -/
def EndsClean (x : Sys) : Event → Prop
  | .sys _ => ∃ me, processCurrent x.procs.k = some me ∧ Live x.procs.k me
  | .call c => ∀ t j p z, pipeEnd (x.procs.f.fdTables t j) = some (p, true) →
      Stays x.procs c t j → (∃ i, c.Ends x.procs.k i ∧ x.procs.f.fdsTab i = some t) →
      x.procs.f.fdsTab z = some t →
      ((x.procs.k.table z).state = .zombie ∨ c.Zombie x.procs.k z) →
      ∃ i, Live x.procs.k i ∧ ¬ c.Ends x.procs.k i ∧ x.procs.f.fdsTab i = some t
  | _ => True

/-- **A table of a zombie with an end for writing is that of a live process too.** -/
def ZombiesClean (k : Kernel) (f : FdState) : Prop :=
  ∀ z t j p, (k.table z).state = .zombie → f.fdsTab z = some t →
    pipeEnd (f.fdTables t j) = some (p, true) → ∃ i, Live k i ∧ f.fdsTab i = some t

/-! ### One step -/

/-- An end that a process has after `fds_bind_current` it had before. -/
theorem endOf_of_bound (h : endOf x.bound i j = some v) : endOf x.procs.f i j = some v := by
  obtain ⟨t, ht, he⟩ := endOf_eq_some.mp h
  cases hit : x.procs.f.fdsTab i with
  | some t' =>
    obtain rfl : t' = t := Option.some.inj ((bound_fdsTab hit).symm.trans ht)
    exact endOf_eq_some.mpr ⟨t', hit, pipeEnd_bound (T := some t') he⟩
  | none =>
    -- the process has just got its table, in which there is no pipe
    exfalso
    unfold Sys.bound at ht he
    cases hc : processCurrent x.procs.k with
    | none =>
      rw [hc] at ht
      exact some_ne_none t (ht.symm.trans hit)
    | some me =>
      rw [hc, elim_some, FdState.bindCurrent] at ht he
      cases hm : x.procs.f.fdsTab me with
      | some t' =>
        rw [hm] at ht
        exact some_ne_none t (ht.symm.trans hit)
      | none =>
        rw [hm] at ht he
        dsimp only at ht he
        by_cases him : i = me
        · rw [him, update_self] at ht
          cases ht
          rw [update_self, pipeEnd_console] at he
          cases he
        · rw [update_of_ne him, hit] at ht
          cases ht

section

variable (h : ZombiesClean x.procs.k x.procs.f)

include h

theorem ZombiesClean.bound :
    ZombiesClean x.procs.k x.bound := by
  intro z t j p hz ht he
  obtain ⟨t', ht', he'⟩ := endOf_eq_some.mp (endOf_of_bound (endOf_eq_some.mpr ⟨t, ht, he⟩))
  obtain rfl : t' = t := Option.some.inj ((bound_fdsTab ht').symm.trans ht)
  obtain ⟨i, hl, hi⟩ := h z t' j p hz ht' he'
  exact ⟨i, hl, bound_fdsTab hi⟩

theorem ZombiesClean.sys (hc : ∃ me, processCurrent x.procs.k = some me ∧ Live x.procs.k me)
    (tab : FdTable) :
    ZombiesClean x.procs.k (putCurrent x.bound tab) := by
  intro z t j p hz ht he
  rw [putCurrent_fdsTab] at ht ⊢
  have he' : pipeEnd (tableAt (putCurrent x.bound tab) (some t) j) = some (p, true) := he
  rw [pipeEnd_putCurrent] at he'
  split at he'
  · next hcur =>
    -- the caller uses the table itself
    obtain ⟨me, hme, hl⟩ := hc
    obtain ⟨t', ht', hcur'⟩ := bound_current hme
    cases hcur.trans hcur'
    exact ⟨me, hl, ht'⟩
  · exact h.bound z t j p hz ht he'

theorem ZombiesClean.touch {y : Fds} (ht : Touched x.fds y) :
    ZombiesClean x.procs.k (putCurrent x.bound y.table) := by
  intro z t j p hz hzt he
  rw [putCurrent_fdsTab] at hzt ⊢
  refine h.bound z t j p hz hzt ?_
  have he' : pipeEnd (tableAt (putCurrent x.bound y.table) (some t) j) = some (p, true) := he
  rw [pipeEnd_putCurrent] at he'
  split at he'
  · next hcur =>
    rw [ht.ends] at he'
    change pipeEnd (tableAt x.bound (some t) j) = _
    rw [hcur]
    exact he'
  · exact he'

end

theorem closeExec_fdsTab (f : FdState) (me : ℕ) : (f.closeExec me).fdsTab = f.fdsTab := by
  unfold FdState.closeExec
  split
  · rfl
  · rfl

/-- The table of a process after a call of `process.c`: it had it before, or the process is new. -/
theorem fdsTab_fdsAfter (x : Procs) (c : Call) (i : ℕ) :
    (fdsAfter x c).fdsTab i = x.f.fdsTab i ∨
      i = newSlot x.k ∧ ((c.run x.k).2.table i).state = .ready := by
  rcases fdsAfter_cases x c with ⟨-, he⟩ | ⟨hnew, -, hr⟩ | ⟨-, me, -, he⟩
  · exact .inl (by rw [he])
  · by_cases hi : i = newSlot x.k
    · exact .inr ⟨hi, by rw [hi]; exact hr⟩
    · rcases hnew with ⟨-, he⟩ | ⟨-, p, he⟩ <;> rw [he] <;> exact .inl (update_of_ne hi _ _)
  · exact .inl (by rw [he, closeExec_fdsTab])

theorem fdsTab_of_live {x : Procs} (hl : Live x.k i) :
    (fdsAfter x c).fdsTab i = x.f.fdsTab i := by
  rcases fdsAfter_cases x c with ⟨-, he⟩ | ⟨hnew, hs, -⟩ | ⟨-, me, -, he⟩
  · rw [he]
  · rcases hnew with ⟨-, he⟩ | ⟨-, p, he⟩ <;> rw [he] <;>
      exact update_of_ne (ne_newSlot hs hl.2.1) _ _
  · rw [he, closeExec_fdsTab]

theorem stays_of_pipeEnd {x : Procs} {t : ℕ} (h : pipeEnd ((fdsAfter x c).fdTables t j) = some v) :
    Stays x c t j := by
  rintro ⟨me, hme, ht, h3⟩
  have hgone : ∀ o : Option ℕ, o = some me →
      pipeEnd ((o.elim x.f x.f.closeExec).fdTables t j) = none := by
    rintro o rfl
    rw [elim_some, FdState.closeExec, ht]
    dsimp only
    rw [update_self, if_pos h3]
    exact pipeEnd_of_not_used rfl
  cases c with
  | exit code => cases (hgone _ hme).symm.trans h
  | exitGroup code => cases (hgone _ hme).symm.trans h
  | _ => exact hme

theorem ends_of_zombie (h : c.Zombie k i) : c.Ends k i := by
  cases c with
  | exit code => exact h
  | exitGroup code => exact ⟨i, h, .inl rfl⟩
  | _ => exact h.elim

theorem ZombiesClean.call (h : ZombiesClean x.procs.k x.procs.f) (hc : EndsClean x (.call c)) :
    ZombiesClean (c.run x.procs.k).2 (fdsAfter x.procs c) := by
  intro z t j p hz ht he
  have hfate := c.fate x.procs.k
  have hz' := hfate.zombie z hz
  have ht' : x.procs.f.fdsTab z = some t := by
    rcases fdsTab_fdsAfter x.procs c z with hs | ⟨-, hs⟩
    · exact hs.symm.trans ht
    · rw [hz] at hs
      cases hs
  rcases pipeEnd_fdsAfter (T := some t) he with ⟨-, he'⟩ | ⟨hf, hT, -⟩
  · -- a live user of the table that does not end
    obtain ⟨i, hl, hne, hi⟩ : ∃ i, Live x.procs.k i ∧ ¬ c.Ends x.procs.k i ∧
        x.procs.f.fdsTab i = some t := by
      by_cases hex : ∃ i, c.Ends x.procs.k i ∧ x.procs.f.fdsTab i = some t
      · exact hc t j p z he' (stays_of_pipeEnd he) hex ht' hz'
      have hzb : (x.procs.k.table z).state = .zombie :=
        hz'.resolve_right fun hzz => hex ⟨z, ends_of_zombie hzz, ht'⟩
      obtain ⟨i, hl, hi⟩ := h z t j p hzb ht' he'
      exact ⟨i, hl, fun hends => hex ⟨i, hends, hi⟩, hi⟩
    exact ⟨i, hfate.live i hl hne, (fdsTab_of_live hl).trans hi⟩
  -- the child of a `fork` uses its table
  obtain ⟨kframe, kstack, pml4, rfl, hok⟩ := hf
  cases hT
  obtain ⟨hs, hc⟩ := (makes_fork ..).newSlot hok
  refine ⟨newSlot x.procs.k, ⟨findEmpty_lt hs, ?_⟩, ?_⟩
  · change ((procFork x.procs.k kframe kstack pml4).2.table _).state ≠ .empty ∧
      ((procFork x.procs.k kframe kstack pml4).2.table _).state ≠ .zombie
    rw [hc.state]
    decide
  · simp only [fdsAfter, if_pos hok]
    exact update_self _ _ _

/-! ### Runs -/

/-- The condition on the steps of a run. -/
def Tidy (x : Sys) (e : Event) : Prop := ReplacesLast x e ∧ OpensClean x e ∧ EndsClean x e

theorem ZombiesClean.step (h : ZombiesClean x.procs.k x.procs.f) {e : Event} (hp : e.Possible x)
    (hok : Tidy x e) :
    ZombiesClean (x.step e).procs.k (x.step e).procs.f := by
  cases e with
  | sys s => exact h.sys hok.2.2 _
  | bind => exact h.bound
  | round =>
    change ZombiesClean x.afterRound.procs.k x.afterRound.procs.f
    rw [Sys.afterRound_procs]
    exact h
  | kernel k' =>
    intro z t j p hz ht he
    have hstate : ∀ i, (k'.table i).state = (x.procs.k.table i).state := hp.state
    obtain ⟨i, hl, hi⟩ := h z t j p ((hstate z).symm.trans hz) ht he
    refine ⟨i, ⟨hl.1, ?_⟩, hi⟩
    change (k'.table i).state ≠ .empty ∧ (k'.table i).state ≠ .zombie
    rw [hstate]
    exact hl.2
  | touch y => exact h.touch hp
  | call c => exact h.call hok.2.2

theorem ZombiesClean.reached (h : x.Reached Tidy) :
    ZombiesClean x.procs.k x.procs.f := by
  induction h with
  | start k kstack idleEntry =>
    intro z t j p _ ht _
    cases ht
  | step e _ hp hok ih => exact ih.step hp hok

theorem Sys.Reached.traced {ok : Sys → Event → Prop} (h : x.Reached ok) :
    ∃ y : Traced, y.Reached ok ∧ y.sys = x := by
  induction h with
  | start k kstack idleEntry => exact ⟨_, .start k kstack idleEntry, rfl⟩
  | step e _ hp hok ih =>
    obtain ⟨y, hy, rfl⟩ := ih
    exact ⟨y.step e, .step e hy hp hok, y.step_sys e⟩

theorem pipeWritersAlive_iff (k : Kernel) (f : FdState) (p : ℤ) :
    pipeWritersAlive k f p = true ↔
      ∃ i < maxProc, (k.table i).state ≠ .empty ∧ ∃ j, endOf f i j = some (p, true) := by
  unfold pipeWritersAlive
  simp only [List.any_eq_true, List.mem_range, and_eq_true, bne_iff_ne, ne_eq,
    endOf]
  refine exists_congr fun i => and_congr_right fun _ => and_congr_right fun _ => ?_
  cases f.fdsTab i with
  | none => simp
  | some t => simp

/-- **The scan finds no writer when no live process has an end for writing.** -/
theorem ZombiesClean.writersAlive {f : FdState} (h : ZombiesClean k f) {p : ℤ}
    (hno : ∀ i j, ¬ Writes ⟨k, f⟩ i j p) : pipeWritersAlive k f p = false := by
  rw [eq_false_iff]
  intro ha
  obtain ⟨i, hlt, hs, j, he⟩ := (pipeWritersAlive_iff k f p).mp ha
  by_cases hz : (k.table i).state = .zombie
  · obtain ⟨t, ht, hend⟩ := endOf_eq_some.mp he
    obtain ⟨i', hl, hi'⟩ := h i t j p hz ht hend
    exact hno i' j ⟨hl, endOf_eq_some.mpr ⟨t, hi', hend⟩⟩
  · exact hno i j ⟨⟨hlt, hs, hz⟩, he⟩

theorem drainRing_empty {r : RingBuf UInt8} (h : r.rpos = r.wpos) (n : ℕ) : drainRing r n = ([], r) :=
  RingBuf.popAll_empty bufSize posCount n h

/-- **End of file.**  When no live process has an end for writing of pipe `p`, the scan finds no
writer, a blocking read of the empty pipe returns 0, and so does a read that waits for it; in every
run in which `dup2` and `dup3` replace last ends only, files are opened in records that were no ends
of pipes, and no process ends as the last user of a table with an end for writing that stays. -/
theorem eof_on_pipe (x : Sys) (h : x.Reached Tidy) (p : ℤ) (hno : ∀ i j, ¬ Writes x.procs i j p) :
    pipeWritersAlive x.procs.k x.procs.f p = false ∧
    (∀ a fd count i w, fdIdx fd = some i → pipeEnd (x.fds.table i) = some (p, w) →
      nonblock (x.fds.table i) = false →
      (x.bufs.pipes p.toNat).ring.rpos = (x.bufs.pipes p.toNat).ring.wpos →
      (sysRead a x.alive x.fds fd count).1 = .done 0 []) ∧
    ∀ count, x.waiting x.procs.k.running = some (p, count) →
      (x.bufs.pipes p.toNat).ring.rpos = (x.bufs.pipes p.toNat).ring.wpos →
      (x.round p count).1 = .done 0 [] := by
  have hclean := ZombiesClean.reached h
  have halive := hclean.writersAlive hno
  have hbound : x.alive p = false := by
    refine hclean.bound.writersAlive ?_
    rintro i j ⟨hl, he⟩
    exact hno i j ⟨hl, endOf_of_bound he⟩
  refine ⟨halive, fun a fd count i w hi he hb hempty => ?_, fun count _ hempty => ?_⟩
  · obtain ⟨y, hy, rfl⟩ := h.traced
    have huse := EndsInUse.reached (fun _ _ ht => ⟨ht.1, ht.2.1⟩) hy
    obtain ⟨q, hq, hlt, hu, -⟩ := huse.tags_bound y.sys.bound.fdtab i p w he
    obtain ⟨hused, htype, hidx⟩ := pipeEnd_eq_some he
    have hok : ¬ y.sys.bufs.pipeOk p = false := by
      rw [not_eq_false, Bufs.pipeOk, hq, Int.toNat_natCast]
      exact decide_eq_true ⟨Int.natCast_nonneg q, by exact_mod_cast hlt, hu⟩
    rcases sysRead_cases y.sys.fds a y.sys.alive fd count with ⟨j, hj, -, -, hr⟩ | ⟨hnone, -⟩
    · cases hi.symm.trans hj
      rw [hr, hidx]
      rw [hbound, hb, readPipe]
      change (if y.sys.bufs.pipeOk p = false then _ else _ : ReadResult × Bufs).1 = _
      rw [if_neg hok]
      rw [if_neg (fun hc => Bool.false_ne_true hc.2), if_neg (fun hc => Bool.false_ne_true hc.2)]
      change ReadResult.done (drainRing (y.sys.bufs.pipes p.toNat).ring count.toNat).1.length
        (drainRing (y.sys.bufs.pipes p.toNat).ring count.toNat).1 = _
      rw [drainRing_empty hempty]
      rfl
    · rw [hnone i hi] at he
      cases he
  · rw [Sys.round, readRound, halive, if_neg (fun hc => Bool.false_ne_true hc.2)]
    rw [drainRing_empty hempty]
    rfl

/-! ### Two runs -/

/-- A program that has closed its end for writing. -/
def writerClosed : Sys := firstSys.run [.sys (.pipe true), .sys (.close 4)]

theorem tidy_of_no_end (h : ∀ i, ¬ c.Ends x.procs.k i) : Tidy x (.call c) :=
  ⟨trivial, trivial, fun _ _ _ _ _ _ hex => absurd hex.choose_spec.1 (h _)⟩

theorem writerClosed_reached : writerClosed.Reached Tidy := by
  have hlive : Live firstSys.procs.k 1 := by
    unfold Live
    decide +kernel
  have hcur : processCurrent firstSys.procs.k = some 1 := by decide +kernel
  have hfirst : firstSys.Reached Tidy :=
    .step (.call .schedule) (.step _ (.start _ _ _) trivial (tidy_of_no_end fun _ => not_false))
      trivial (tidy_of_no_end fun _ => not_false)
  have hpipe : (firstSys.step (.sys (.pipe true))).Reached Tidy :=
    .step _ hfirst trivial ⟨(careful_pipe _).1, (careful_pipe _).2.1, 1, hcur, hlive⟩
  exact .step (.sys (.close 4)) hpipe trivial
    ⟨fun _ _ _ _ he => Effect.noConfusion he, fun _ _ he => Effect.noConfusion he, 1, hcur, hlive⟩

theorem eof_on_pipe_closed : writerClosed.Reached Tidy ∧
    (sysRead noAnswers writerClosed.alive writerClosed.fds 3 1).1 = .done 0 [] := by
  refine ⟨writerClosed_reached, ?_⟩
  have hno : ∀ i j, ¬ Writes writerClosed.procs i j 0 := by
    rintro i j ⟨hl, he⟩
    have hne : ∀ i < maxProc, ∀ j, endOf writerClosed.procs.f i j ≠ some (0, true) := by
      decide +kernel
    exact hne i hl.1 j he
  exact (eof_on_pipe writerClosed writerClosed_reached 0 hno).2.1 noAnswers 3 1 3 false
    (by decide +kernel) (by decide +kernel) (by decide +kernel) (by decide +kernel)

/-- A program makes a pipe, its child moves the end for writing to descriptor 1 and exits, and the
program closes its own end. -/
def childWrote : Sys := firstSys.run
  [.sys (.pipe true), .bind, .call (.fork 0x21f60 (some 0x40000) (some 0x50000)), .sys (.close 4),
    .call .schedule, .sys (.dup2 4 1), .call (.exit 0)]

/-- **The program waits for a zombie to write.** -/
theorem zombie_writer_alive : ∃ x : Sys, x.Reached (fun _ _ => True) ∧
    (∀ i j, ¬ Writes x.procs i j 0) ∧ pipeWritersAlive x.procs.k x.procs.f 0 = true ∧
    processCurrent x.procs.k = some 1 ∧
    (sysRead noAnswers x.alive x.fds 3 1).1.isWaits = true := by
  have hreach : childWrote.Reached fun _ _ => True :=
    Sys.Reached.run (Sys.Reached.run (.start blank 0x10000 0x100) (by decide)) (by decide)
  refine ⟨childWrote, hreach, ?_, by decide +kernel, by decide +kernel, by decide +kernel⟩
  rintro i j ⟨hl, he⟩
  have hne : ∀ i < maxProc, (childWrote.procs.k.table i).state ≠ .empty →
      (childWrote.procs.k.table i).state ≠ .zombie → ∀ j,
        endOf childWrote.procs.f i j ≠ some (0, true) := by decide +kernel
  exact hne i hl.1 hl.2.1 hl.2.2 j he

end TipOS.Ipc
