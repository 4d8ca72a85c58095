import TipOS.Ipc.PipeRuns

/-!
# The slots of pipes

`pipes[p].used` is set by `pipe` and cleared only by `dup2` and `dup3`, which replace the end of a
pipe; `close`, `execve` and `exit` leave it.  `slots_recycled` says that a slot without descriptors
is free for the next `pipe`, in every run in which no other step gives up the last descriptor that a
live process has for a pipe.
-/

namespace TipOS.Ipc

open Function Lib Process Option List

variable {f : FdState} {i t me q : ℕ} {j : Fin maxFds} {v : ℤ × Bool} {x : Sys} {s : Syscall}
  {e : Event}

/-! ### Holding a pipe -/

/-- What descriptor `j` of the process in slot `i` says about a pipe. -/
def endOf (f : FdState) (i : ℕ) (j : Fin maxFds) : Option (ℤ × Bool) :=
  (f.fdsTab i).bind fun t => pipeEnd (f.fdTables t j)

/-- Descriptor `j` of the live process in slot `i` is an end of pipe `q`. -/
def Holds (x : Procs) (i : ℕ) (j : Fin maxFds) (q : ℕ) : Prop :=
  Live x.k i ∧ ∃ w, endOf x.f i j = some ((q : ℤ), w)

/-- `fds_bind_current` begins the table anew that the process in slot `i` uses: a thread's table,
whose slot has another process. -/
def Wipes (x : Sys) (i : ℕ) : Prop :=
  ∃ me, processCurrent x.procs.k = some me ∧ x.procs.f.fdsTab me = none ∧
    x.procs.f.fdsTab i = some me

/-- The records that a call gives up without a change of the pipe. -/
def Effect.Drops (j : Fin maxFds) : Effect → Prop
  | .copy _ n => j = n ∧ n.val < 3
  | .drop fds => fds j = true
  | _ => False

/-- **A step gives up descriptor `j` of the process in slot `i`** in another way than by a `dup2` or
`dup3` onto it: it closes it or replaces a standard descriptor, the process ends, its table is closed
by an exit, or the table is begun anew or overwritten for another process. -/
def GivesUp (x : Sys) (i : ℕ) (j : Fin maxFds) : Event → Prop
  | .sys s => Wipes x i ∨ x.procs.f.fdsTab i = x.bound.fdtab ∧ (s.effect x.fds).Drops j
  | .bind => Wipes x i
  | .touch _ => Wipes x i
  | .call c => c.Ends x.procs.k i ∨
      (Forks x.procs.k c ∧ x.procs.f.fdsTab i = some (newSlot x.procs.k)) ∨
      ∃ me, c.Zombie x.procs.k me ∧ x.procs.f.fdsTab i = x.procs.f.fdsTab me ∧ 3 ≤ j.val
  | .round => False
  | .kernel _ => False

/-- **No step gives up the last descriptor of a pipe**, and a pipe is made for a live process that
`process_current` finds. -/
def KeepsAnEnd (x : Sys) (e : Event) : Prop :=
  (∀ q i j, Holds x.procs i j q → GivesUp x i j e →
    ∃ i' j', Holds x.procs i' j' q ∧ ¬ GivesUp x i' j' e) ∧
  ∀ s, e = .sys s → ∀ pi r w, s.effect x.fds = .make pi r w →
    ∃ me, processCurrent x.procs.k = some me ∧ Live x.procs.k me

theorem endOf_eq_some :
    endOf f i j = some v ↔ ∃ t, f.fdsTab i = some t ∧ pipeEnd (f.fdTables t j) = some v := by
  rw [endOf, bind_eq_some_iff]

theorem bound_fdsTab (h : x.procs.f.fdsTab i = some t) :
    x.bound.fdsTab i = some t := by
  unfold Sys.bound
  cases hc : processCurrent x.procs.k with
  | none => exact h
  | some me =>
    rw [elim_some, FdState.bindCurrent]
    cases hm : x.procs.f.fdsTab me with
    | some t' => exact h
    | none =>
      have hne : i ≠ me := by
        rintro rfl
        exact some_ne_none t (h.symm.trans hm)
      exact (update_of_ne hne _ _).trans h

theorem bound_fdTables (h : x.procs.f.fdsTab i = some t) (hw : ¬ Wipes x i) :
    x.bound.fdTables t = x.procs.f.fdTables t := by
  unfold Sys.bound
  cases hc : processCurrent x.procs.k with
  | none => rfl
  | some me =>
    rw [elim_some, FdState.bindCurrent]
    cases hm : x.procs.f.fdsTab me with
    | some t' => rfl
    | none =>
      have hne : t ≠ me := by
        rintro rfl
        exact hw ⟨t, hc, hm, h⟩
      exact update_of_ne hne _ _

theorem bound_current (h : processCurrent x.procs.k = some me) :
    ∃ t, x.bound.fdsTab me = some t ∧ x.bound.fdtab = some t := by
  unfold Sys.bound
  rw [h, elim_some, FdState.bindCurrent]
  cases hm : x.procs.f.fdsTab me with
  | some t => exact ⟨t, hm, rfl⟩
  | none => exact ⟨me, update_self _ _ _, rfl⟩

theorem endOf_bound (h : endOf x.procs.f i j = some v) (hw : ¬ Wipes x i) :
    endOf x.bound i j = some v := by
  obtain ⟨t, ht, he⟩ := endOf_eq_some.mp h
  refine endOf_eq_some.mpr ⟨t, bound_fdsTab ht, ?_⟩
  rw [bound_fdTables ht hw]
  exact he

theorem endOf_putCurrent (ht : f.fdsTab i = some t) (tab : FdTable) (j : Fin maxFds) :
    endOf (putCurrent f tab) i j =
      if some t = f.fdtab then pipeEnd (tab j) else endOf f i j := by
  have h1 : endOf (putCurrent f tab) i j = pipeEnd (tableAt (putCurrent f tab) (some t) j) := by
    rw [endOf, putCurrent_fdsTab, ht]
    rfl
  have h2 : endOf f i j = pipeEnd (tableAt f (some t) j) := by
    rw [endOf, ht]
    rfl
  rw [h1, h2, pipeEnd_putCurrent]

/-! ### One step -/

/-- A record about pipe `q` stays, unless the call drops it or frees the pipe. -/
theorem ends_of_not_drops {x : Fds} {w : Bool} (h : pipeEnd (x.table j) = some ((q : ℤ), w))
    (hq : q < maxPipes) (hd : ¬ (s.effect x).Drops j) (hf : ¬ (s.effect x).Frees x.table q) :
    (s.effect x).ends x.table j = some ((q : ℤ), w) := by
  cases he : s.effect x with
  | keep => exact h
  | drop fds =>
    rw [he] at hd
    exact (if_neg hd).trans h
  | copy o n =>
    rw [he] at hd hf
    dsimp only [Effect.ends]
    rw [update_of_ne]
    · exact h
    rintro rfl
    by_cases h3 : 3 ≤ j.val
    · exact hf ⟨h3, hq, w, h⟩
    · exact hd ⟨rfl, Nat.lt_of_not_le h3⟩
  | make pi r w' =>
    obtain ⟨-, hr, hw'⟩ := Syscall.effect_make he
    dsimp only [Effect.ends]
    rw [update_of_ne, update_of_ne]
    · exact h
    · rintro rfl
      cases hr.symm.trans h
    · rintro rfl
      cases hw'.symm.trans h
  | take n path =>
    have hn := Syscall.effect_take he
    dsimp only [Effect.ends]
    rw [update_of_ne]
    · exact h
    · rintro rfl
      cases hn.symm.trans h

/-- `fds_close_exec` leaves the standard descriptors and the other tables. -/
theorem endOf_closeExec
    (h : endOf f i j = some v) (hne : ¬ (f.fdsTab i = f.fdsTab me ∧ 3 ≤ j.val)) :
    endOf (f.closeExec me) i j = some v := by
  obtain ⟨t, ht, he⟩ := endOf_eq_some.mp h
  unfold FdState.closeExec
  cases hm : f.fdsTab me with
  | none => exact h
  | some t' =>
    refine endOf_eq_some.mpr ⟨t, ht, ?_⟩
    dsimp only
    by_cases htt : t = t'
    · subst htt
      have h3 : ¬ 3 ≤ j.val := fun h3 => hne ⟨ht.trans hm.symm, h3⟩
      rw [update_self, if_neg h3]
      exact he
    · rw [update_of_ne htt]
      exact he

/-- What a call of `process.c` leaves to a live process. -/
theorem endOf_fdsAfter {x : Procs} {c : Call} (h : endOf x.f i j = some v) (hl : Live x.k i)
    (hfork : ¬ (Forks x.k c ∧ x.f.fdsTab i = some (newSlot x.k)))
    (hexit : ¬ ∃ me, c.Zombie x.k me ∧ x.f.fdsTab i = x.f.fdsTab me ∧ 3 ≤ j.val) :
    endOf (fdsAfter x c) i j = some v := by
  rcases fdsAfter_cases x c with ⟨-, he⟩ | ⟨⟨hf, he⟩ | ⟨-, p, he⟩, hs, -⟩ | ⟨-, me, hme, he⟩ <;> rw [he]
  · exact h
  · obtain ⟨t, ht, hend⟩ := endOf_eq_some.mp h
    refine endOf_eq_some.mpr ⟨t, (update_of_ne (ne_newSlot hs hl.2.1) _ _).trans ht, ?_⟩
    have htt : t ≠ newSlot x.k := fun htt => hfork ⟨hf, htt ▸ ht⟩
    rw [show (x.f.dupIntoSlot (newSlot x.k)).fdTables t = x.f.fdTables t from update_of_ne htt _ _]
    exact hend
  · obtain ⟨t, ht, hend⟩ := endOf_eq_some.mp h
    exact endOf_eq_some.mpr ⟨t, (update_of_ne (ne_newSlot hs hl.2.1) _ _).trans ht, hend⟩
  · exact endOf_closeExec h fun hne => hexit ⟨me, hme, hne⟩

/-- **A descriptor that a step does not give up stays**, unless the step frees its pipe. -/
theorem Holds.step (hp : e.Possible x) (hq : q < maxPipes) (h : Holds x.procs i j q)
    (hg : ¬ GivesUp x i j e) (hf : ∀ s, e = .sys s → ¬ (s.effect x.fds).Frees x.fds.table q) :
    Holds (x.step e).procs i j q := by
  obtain ⟨hl, w, he⟩ := h
  cases e with
  | sys s =>
    obtain ⟨t, ht, hend⟩ := endOf_eq_some.mp he
    obtain ⟨hw, hd⟩ := not_or.mp hg
    refine ⟨hl, w, ?_⟩
    have hb := bound_fdsTab ht
    have htab := bound_fdTables ht hw
    change endOf (putCurrent x.bound (s.run x.alive x.fds).table) i j = _
    rw [endOf_putCurrent hb]
    split
    · next hcur =>
      have hcurrent : x.fds.table = x.procs.f.fdTables t := by
        change x.bound.current = _
        rw [← htab, FdState.current, ← hcur]
        rfl
      rw [(s.does _ _).ends]
      refine ends_of_not_drops ?_ hq (fun hdrop => hd ⟨ht.trans hcur, hdrop⟩) (hf s rfl)
      rw [hcurrent]
      exact hend
    · exact endOf_bound he hw
  | bind => exact ⟨hl, w, endOf_bound he hg⟩
  | round =>
    change Holds x.afterRound.procs i j q
    rw [Sys.afterRound_procs]
    exact ⟨hl, w, he⟩
  | kernel k' =>
    refine ⟨⟨hl.1, ?_⟩, w, he⟩
    change (k'.table i).state ≠ .empty ∧ (k'.table i).state ≠ .zombie
    rw [hp.state]
    exact hl.2
  | touch y =>
    obtain ⟨t, ht, hend⟩ := endOf_eq_some.mp he
    have hb := bound_fdsTab ht
    refine ⟨hl, w, ?_⟩
    change endOf (putCurrent x.bound y.table) i j = _
    rw [endOf_putCurrent hb]
    split
    · next hcur =>
      rw [hp.ends]
      change pipeEnd (x.bound.current j) = _
      rw [FdState.current, ← hcur]
      change pipeEnd (x.bound.fdTables t j) = _
      rw [bound_fdTables ht hg]
      exact hend
    · exact endOf_bound he hg
  | call c =>
    obtain ⟨hends, hrest⟩ := not_or.mp hg
    obtain ⟨hfork, hexit⟩ := not_or.mp hrest
    exact ⟨(c.fate x.procs.k).live i hl hends, w, endOf_fdsAfter he hl hfork hexit⟩

/-! ### Runs -/

/-- **Every pipe in use has a descriptor of a live process.** -/
def Accounted (x : Sys) : Prop :=
  ∀ q, (x.bufs.pipes q).used = true → q < maxPipes ∧ ∃ i j, Holds x.procs i j q

theorem used_step (hp : e.Possible x) (h : ((x.step e).bufs.pipes q).used) :
    (∃ s, e = .sys s ∧ (s.effect x.fds).Makes q) ∨
    (x.bufs.pipes q).used ∧ ∀ s, e = .sys s → ¬ (s.effect x.fds).Frees x.fds.table q := by
  cases e with
  | sys s =>
    rcases ((s.does x.alive x.fds).used q).mp h with hm | ⟨hu, hf⟩
    · exact .inl ⟨s, rfl, hm⟩
    · refine .inr ⟨hu, fun s' hs' => ?_⟩
      obtain rfl := Event.sys.inj hs'
      exact hf
  | bind => exact .inr ⟨h, fun _ => Event.noConfusion⟩
  | round =>
    have h' : (x.afterRound.bufs.pipes q).used := h
    rw [Sys.afterRound_used] at h'
    exact .inr ⟨h', fun _ => Event.noConfusion⟩
  | kernel k' => exact .inr ⟨h, fun _ => Event.noConfusion⟩
  | touch y =>
    have h' : (y.bufs.pipes q).used := h
    rw [hp.pipes] at h'
    exact .inr ⟨h', fun _ => Event.noConfusion⟩
  | call c => exact .inr ⟨h, fun _ => Event.noConfusion⟩

theorem holds_made {pi : ℕ} {r w : Fin maxFds} (he : s.effect x.fds = .make pi r w)
    (hme : processCurrent x.procs.k = some me) (hl : Live x.procs.k me) :
    Holds (x.step (.sys s)).procs me w pi := by
  obtain ⟨t, ht, hcur⟩ := bound_current hme
  refine ⟨hl, true, ?_⟩
  change endOf (putCurrent x.bound (s.run x.alive x.fds).table) me w = _
  rw [endOf_putCurrent ht, if_pos hcur.symm, (s.does _ _).ends, he]
  exact update_self _ _ _

theorem Accounted.step (h : Accounted x) (hp : e.Possible x) (hok : KeepsAnEnd x e) :
    Accounted (x.step e) := by
  intro q hu
  rcases used_step hp hu with ⟨s, rfl, hm⟩ | ⟨hu', hf⟩
  · cases he : s.effect x.fds with
    | make pi r w =>
      rw [he] at hm
      obtain rfl : pi = q := hm
      obtain ⟨me, hme, hl⟩ := hok.2 s rfl pi r w he
      exact ⟨(findPipe_some (Syscall.effect_make he).1).1, me, w, holds_made he hme hl⟩
    | _ => rw [he] at hm; exact hm.elim
  · obtain ⟨hq, i, j, hh⟩ := h q hu'
    -- one of the descriptors of the pipe is not given up
    obtain ⟨i', j', hh', hg⟩ : ∃ i' j', Holds x.procs i' j' q ∧ ¬ GivesUp x i' j' e := by
      by_cases hg : GivesUp x i j e
      · exact hok.1 q i j hh hg
      · exact ⟨i, j, hh, hg⟩
    exact ⟨hq, i', j', hh'.step hp hq hg hf⟩

theorem Accounted.reached (h : x.Reached KeepsAnEnd) : Accounted x := by
  induction h with
  | start k kstack idleEntry => exact fun q hu => absurd hu Bool.false_ne_true
  | step e _ hp hok ih => exact ih.step hp hok

/-- Two descriptors from 3 on are not in use. -/
def TwoFree (t : FdTable) : Prop :=
  ∃ a b : Fin maxFds, a ≠ b ∧ 3 ≤ a.val ∧ 3 ≤ b.val ∧ (t a).used = false ∧ (t b).used = false

theorem allocFd_isSome {t : FdTable} {a : Fin maxFds} (h3 : 3 ≤ a.val) (hu : (t a).used = false) :
    ∃ n, allocFd t = some n := by
  refine isSome_iff_exists.mp (find?_isSome.mpr ⟨a, mem_finRange a, ?_⟩)
  rw [hu, decide_eq_true h3]
  rfl

/-- **`pipe` succeeds with a slot and two descriptors.** -/
theorem pipeWith_succeeds {x : Fds} {p : ℕ} (hp : p < maxPipes) (hu : (x.bufs.pipes p).used = false)
    (ht : TwoFree x.table) (flags : ℤ) : (pipeWith flags x true).1 ≠ none := by
  obtain ⟨a, b, hab, ha3, hb3, ha, hb⟩ := ht
  obtain ⟨pi, hpi⟩ : ∃ pi, findPipe x.bufs = some pi := by
    refine isSome_iff_exists.mp (find?_isSome.mpr ⟨p, mem_range.mpr hp, ?_⟩)
    rw [hu]
    rfl
  obtain ⟨r, hr⟩ := allocFd_isSome ha3 ha
  -- one of the two descriptors is left for the second end
  obtain ⟨c, hcr, hc3, hc⟩ : ∃ c, c ≠ r ∧ 3 ≤ c.val ∧ (x.table c).used = false := by
    by_cases har : a = r
    · exact ⟨b, fun hbr => hab (har.trans hbr.symm), hb3, hb⟩
    · exact ⟨a, har, ha3, ha⟩
  obtain ⟨w, hw⟩ : ∃ w, allocFd (x.set r { x.table r with used := true }).table = some w := by
    refine allocFd_isSome hc3 ?_
    rw [Fds.set_table, update_of_ne hcr]
    exact hc
  rw [pipeWith, if_neg Bool.false_ne_true.symm, hpi, hr]
  dsimp only
  rw [hw]
  exact some_ne_none _

/-- **A slot without descriptors is free again, and `pipe` fails only when every slot has a
descriptor or the process has too few**, in every run in which no step but a `dup2` or `dup3` gives
up the last descriptor of a pipe. -/
theorem slots_recycled (x : Sys) (h : x.Reached KeepsAnEnd) :
    (∀ p < maxPipes, (∀ i j, ¬ Holds x.procs i j p) → (x.bufs.pipes p).used = false) ∧
    ∀ flags, TwoFree x.fds.table → (∃ p < maxPipes, ∀ i j, ¬ Holds x.procs i j p) →
      (pipeWith flags x.fds true).1 ≠ none := by
  have hacc := Accounted.reached h
  have hfree : ∀ p < maxPipes, (∀ i j, ¬ Holds x.procs i j p) → (x.bufs.pipes p).used = false := by
    intro p _ hno
    cases hu : (x.bufs.pipes p).used with
    | false => rfl
    | true =>
      obtain ⟨-, i, j, hh⟩ := hacc p hu
      exact absurd hh (hno i j)
  refine ⟨hfree, fun flags ht hex => ?_⟩
  obtain ⟨p, hp, hno⟩ := hex
  exact pipeWith_succeeds hp (hfree p hp hno) ht flags

/-! ### Opening and closing -/

/-- Steps one after the other. -/
def Sys.run (x : Sys) (es : List Event) : Sys := es.foldl Sys.step x

/-- The steps that are possible in every state. -/
def Event.plain : Event → Bool
  | .kernel _ | .touch _ => false
  | _ => true

theorem Event.possible_of_plain (h : e.plain) (x : Sys) : e.Possible x := by
  cases e with
  | kernel k' => cases h
  | touch y => cases h
  | _ => trivial

theorem Sys.Reached.run (h : x.Reached fun _ _ => True) {es : List Event}
    (hes : es.all Event.plain) : (x.run es).Reached fun _ _ => True := by
  induction es generalizing x with
  | nil => exact h
  | cons e es ih =>
    rw [all_cons, Bool.and_eq_true] at hes
    exact ih (.step e h (Event.possible_of_plain hes.1 x) trivial) hes.2

/-- The start of the first program. -/
def spawnRun : List Event :=
  [.call (.spawn 0x400000 0x800000 (some 0x20000) (some 0x30000)), .call .schedule]

def firstSys : Sys := (Sys.start blank 0x10000 0x100).run spawnRun

theorem keepsAnEnd_of_noFds (hx : x.procs.f = noFds)
    (he : ∀ s, e = .sys s → ∃ me, processCurrent x.procs.k = some me ∧ Live x.procs.k me) :
    KeepsAnEnd x e := by
  refine ⟨?_, fun s hs _ _ _ _ => he s hs⟩
  rintro q i j ⟨-, w, hw⟩
  rw [hx] at hw
  cases hw

theorem firstSys_reached : firstSys.Reached KeepsAnEnd := by
  have h1 : ((Sys.start blank 0x10000 0x100).step
      (.call (.spawn 0x400000 0x800000 (some 0x20000) (some 0x30000)))).Reached KeepsAnEnd :=
    .step _ (.start _ _ _) trivial (keepsAnEnd_of_noFds rfl fun _ => Event.noConfusion)
  exact .step (.call .schedule) h1 trivial (keepsAnEnd_of_noFds rfl fun _ => Event.noConfusion)

theorem slots_recycled_first : (firstSys.step (.sys (.pipe true))).Reached KeepsAnEnd ∧
    (pipeWith 0 (firstSys.step (.sys (.pipe true))).fds true).1 ≠ none := by
  have hlive : Live firstSys.procs.k 1 := by
    unfold Live
    decide +kernel
  have h : (firstSys.step (.sys (.pipe true))).Reached KeepsAnEnd :=
    .step _ firstSys_reached trivial (keepsAnEnd_of_noFds rfl fun _ _ => ⟨1, by decide +kernel, hlive⟩)
  refine ⟨h, (slots_recycled _ h).2 0 ⟨5, 6, by decide, by decide, by decide, by decide +kernel,
    by decide +kernel⟩ ⟨1, by decide, ?_⟩⟩
  rintro i j ⟨hl, w, he⟩
  have hne : ∀ i < maxProc, ∀ j, ∀ w, endOf (firstSys.step (.sys (.pipe true))).procs.f i j ≠
      some (1, w) := by decide +kernel
  exact hne i hl.1 j w he

/-- The program makes a pipe and closes both ends. -/
def openClose : List Event := [.sys (.pipe true), .sys (.close 3), .sys (.close 4)]

/-- It does so eight times. -/
def eightPipes : Sys := firstSys.run
  (openClose ++ openClose ++ openClose ++ openClose ++ openClose ++ openClose ++ openClose ++
    openClose)

/-- **After eight pipes that were closed again, no pipe can be made.** -/
theorem closed_pipes_stay_used : ∃ x : Sys, x.Reached (fun _ _ => True) ∧ TwoFree x.fds.table ∧
    (∀ i j q, ¬ Holds x.procs i j q) ∧ (pipeWith 0 x.fds true).1 = none := by
  have hreach : eightPipes.Reached fun _ _ => True :=
    Sys.Reached.run (Sys.Reached.run (.start blank 0x10000 0x100) (by decide)) (by decide)
  refine ⟨eightPipes, hreach, ⟨3, 4, by decide, by decide, by decide, by decide +kernel,
    by decide +kernel⟩, ?_, by decide +kernel⟩
  rintro i j q ⟨hl, w, he⟩
  have hno : ∀ i < maxProc, ∀ j, endOf eightPipes.procs.f i j = none := by decide +kernel
  rw [hno i hl.1 j] at he
  cases he

end TipOS.Ipc
