import Mathlib.Data.List.Find
import TipOS.Process.Current

/-!
# Where an exit goes

`process_exit_current` and `exit_group`.  The first makes an index of the pid of the parent, and
goes to the slot with that number, whatever is in it.  `exit_to_parent_iff` says for which tables
this is the parent, or the idle process when there is no parent.

`exit_group` takes two fields of the PCBs for the group of a thread.  A caller whose
`th_parent_pid` is not negative ends alone; any other ends every process with its page tables.
`Grouped` has the groups themselves, which are not in the kernel: a process starts one, and a
thread joins that of its creator.  `exit_group_iff` compares the two.
-/

namespace TipOS.Process

open Function Lib Kernel

variable {p : ℤ} {i : ℕ} {r : ℤ × Kernel} {b : Bool} {g : Grouped}

/-! ### The state before the switch -/

/-- `process_exit_current` of the slot `me` up to the switch. -/
def exitState (k : Kernel) (me : ℕ) (code : ℤ) : Kernel :=
  let parent := parentIdx (k.table me).parentPid
  let k₁ := k.modify me fun p => { p with exitCode := code, state := .zombie }
  let k₂ := procWakeParent k₁ (k.table me).pid
  let k₃ := k₂.modify parent fun p => { p with
    state := if p.state = .blocked then .ready else p.state }
  { k₃ with currentPid := parent, tssRsp0 := (k₃.table parent).rsp0 }

section Exit

variable {k : Kernel} {me : ℕ} {code : ℤ}

theorem procWakeParent_cases (k : Kernel) (pid : ℤ) (i : ℕ) :
    (procWakeParent k pid).table i = k.table i ∨
    ((k.table i).state = .blocked ∧
      (∃ j < maxProc, (k.table j).pid = pid ∧ (k.table j).parentPid = (k.table i).pid) ∧
      (procWakeParent k pid).table i = { k.table i with state := .ready }) := by
  unfold procWakeParent
  split
  · exact .inl rfl
  next w hw =>
  by_cases hi : i = w
  · subst hi
    obtain ⟨-, htest⟩ := findIdx_some hw
    rw [Bool.and_eq_true, beq_iff_eq] at htest
    obtain ⟨j, hj⟩ := Option.isSome_iff_exists.mp htest.2
    obtain ⟨hjlt, hjt⟩ := findIdx_some hj
    rw [Bool.and_eq_true, beq_iff_eq, beq_iff_eq] at hjt
    exact .inr ⟨htest.1, ⟨j, hjlt, hjt⟩, modify_table_self _ _ _⟩
  · exact .inl (modify_table_of_ne hi)

/-- The fields that `proc_wake_parent` leaves alone. -/
theorem procWakeParent_parentPid (k : Kernel) (pid : ℤ) (i : ℕ) :
    ((procWakeParent k pid).table i).parentPid = (k.table i).parentPid := by
  rcases procWakeParent_cases k pid i with h | ⟨-, -, h⟩ <;> rw [h]

theorem processExitCurrent_eq (h : processCurrent k = some me) :
    processExitCurrent k code =
      contextSwitch (exitState k me code) me (parentIdx (k.table me).parentPid) := by
  unfold processExitCurrent
  rw [h]
  dsimp only
  rw [procWakeParent_parentPid, modify_table_self]
  rfl

theorem processExitCurrent_running (h : processCurrent k = some me) :
    (processExitCurrent k code).running = parentIdx (k.table me).parentPid := by
  rw [processExitCurrent_eq h]
  exact (Routine.switched .plain _ _ _).running

end Exit

/-! ### The parent -/

/-- The slot has a process that is neither gone nor a zombie. -/
def Live (k : Kernel) (i : ℕ) : Prop :=
  i < maxProc ∧ (k.table i).state ≠ .empty ∧ (k.table i).state ≠ .zombie

/-- Slot `i` has the parent of the process in slot `me`. -/
def IsParent (k : Kernel) (me i : ℕ) : Prop :=
  Live k i ∧ i ≠ me ∧ (k.table i).pid = (k.table me).parentPid

/-- The idle process is in slot 0. -/
def IdleInPlace (k : Kernel) (me : ℕ) : Prop := Live k 0 ∧ me ≠ 0 ∧ (k.table 0).pid = 0

/-- **Control is in the parent's slot, or in that of the idle process when there is no parent.** -/
def GoesToParent (k : Kernel) (me next : ℕ) : Prop :=
  ((∃ i, IsParent k me i) → IsParent k me next) ∧
  ((¬ ∃ i, IsParent k me i) → next = 0 ∧ IdleInPlace k me)

/-- The number `p` is no index of the table. -/
def OutOfTable (p : ℤ) : Prop := p < 0 ∨ (maxProc : ℤ) ≤ p

/-- **The parent is in the slot with the number of its pid**, or in slot 0 when there is no such
slot; without a parent, its pid is not the number of a slot other than 0. -/
def ParentInPlace (k : Kernel) (me : ℕ) : Prop :=
  ((∃ i, IsParent k me i) → ∃ i, IsParent k me i ∧
    ((k.table me).parentPid = i ∨ i = 0 ∧ OutOfTable (k.table me).parentPid)) ∧
  ((¬ ∃ i, IsParent k me i) →
    ((k.table me).parentPid = 0 ∨ OutOfTable (k.table me).parentPid) ∧ IdleInPlace k me)

theorem parentIdx_of_out (h : OutOfTable p) : parentIdx p = 0 := if_pos h

theorem parentIdx_eq (hi : i < maxProc) (h : p = i) : parentIdx p = i := by
  rw [parentIdx, if_neg (by omega)]
  omega

theorem parentIdx_cases (p : ℤ) : p = parentIdx p ∨ parentIdx p = 0 ∧ OutOfTable p := by
  by_cases h : OutOfTable p
  · exact .inr ⟨parentIdx_of_out h, h⟩
  left
  unfold OutOfTable at h
  rw [parentIdx, if_neg h]
  omega

/-- **An exit goes to the parent exactly when the parent is in the slot with the number of its
pid.** -/
theorem exit_to_parent_iff (k : Kernel) (me : ℕ) (code : ℤ) (h : processCurrent k = some me) :
    GoesToParent k me (processExitCurrent k code).running ↔ ParentInPlace k me := by
  rw [processExitCurrent_running h]
  refine and_congr ⟨fun hgo hex => ?_, fun hin hex => ?_⟩ ⟨fun hgo hno => ?_, fun hin hno => ?_⟩
  · exact ⟨_, hgo hex, parentIdx_cases _⟩
  · obtain ⟨i, hi, hp | ⟨h0, hout⟩⟩ := hin hex
    · rwa [parentIdx_eq hi.1.1 hp]
    · rw [parentIdx_of_out hout, ← h0]
      exact hi
  · obtain ⟨h0, hidle⟩ := hgo hno
    refine ⟨?_, hidle⟩
    rcases parentIdx_cases (k.table me).parentPid with hp | ⟨-, hout⟩
    · left
      rw [hp, h0]
      rfl
    · exact .inr hout
  · obtain ⟨hp | hout, hidle⟩ := hin hno
    · exact ⟨parentIdx_eq (by decide) hp, hidle⟩
    · exact ⟨parentIdx_of_out hout, hidle⟩

theorem exit_to_parent_iff_first :
    GoesToParent (runCalls (processInit blank 0x10000 0x100) spawnFirst) 1
      (processExitCurrent (runCalls (processInit blank 0x10000 0x100) spawnFirst) 0).running := by
  refine (exit_to_parent_iff _ 1 0 (by decide +kernel)).mpr ?_
  have hidle : IsParent (runCalls (processInit blank 0x10000 0x100) spawnFirst) 1 0 := by
    unfold IsParent Live
    decide +kernel
  exact ⟨fun _ => ⟨0, hidle, .inl (by decide +kernel)⟩, fun hno => absurd ⟨0, hidle⟩ hno⟩

/-- A program forks and exits before its child does. -/
def orphan : List Call :=
  spawnFirst ++ [.fork 0x21f60 (some 0x40000) (some 0x50000), .exit 0, .schedule]

/-- **The child of a zombie exits to the zombie.** -/
theorem orphan_exits_to_zombie : ∃ k, Reached (fun _ _ => True) true k ∧
    processCurrent k = some 2 ∧ (k.table 1).state = .zombie ∧
    ¬ GoesToParent k 2 (processExitCurrent k 0).running := by
  have hz : ((runCalls (processInit blank 0x10000 0x100) orphan).table 1).state = .zombie := by
    decide +kernel
  have hrun : (processExitCurrent
      (runCalls (processInit blank 0x10000 0x100) orphan) 0).running = 1 := by decide +kernel
  refine ⟨_, Reached.runCalls orphan (.init blank 0x10000 0x100) (by decide +kernel),
    by decide +kernel, hz, fun hgo => ?_⟩
  rw [hrun] at hgo
  by_cases hex : ∃ i, IsParent (runCalls (processInit blank 0x10000 0x100) orphan) 2 i
  · exact (hgo.1 hex).1.2.2 hz
  · exact absurd (hgo.2 hex).1 (by decide)

/-! ### Pids are used once -/

/-- The pids below `next_pid` are used up, and no two slots have the same. -/
structure PidsOnce (k : Kernel) : Prop where
  lt : ∀ i < maxProc, (k.table i).pid < k.nextPid
  inj : ∀ i < maxProc, ∀ j < maxProc, (k.table i).pid = (k.table j).pid → 0 ≤ (k.table i).pid → i = j

/-- Every slot keeps its pid. -/
structure KeepsPids (k k' : Kernel) : Prop where
  pid : ∀ i, (k'.table i).pid = (k.table i).pid
  nextPid : k'.nextPid = k.nextPid

section Pids

variable {k k' k'' : Kernel}

theorem KeepsPids.refl (k : Kernel) : KeepsPids k k := ⟨fun _ => rfl, rfl⟩

theorem KeepsPids.trans (h : KeepsPids k k') (h' : KeepsPids k' k'') : KeepsPids k k'' :=
  ⟨fun i => (h'.pid i).trans (h.pid i), h'.nextPid.trans h.nextPid⟩

theorem KeepsPids.modify (k : Kernel) (i : ℕ) {f : Pcb → Pcb}
    (hf : (f (k.table i)).pid = (k.table i).pid) : KeepsPids k (k.modify i f) := by
  refine ⟨fun j => ?_, rfl⟩
  by_cases h : j = i
  · subst h
    rw [modify_table_self, hf]
  · rw [modify_table_of_ne h]

theorem switch_pid_state (sw : Routine) (k : Kernel) (cur next i : ℕ) :
    ((sw.switch k cur next).table i).pid = (k.table i).pid ∧
      ((sw.switch k cur next).table i).state = (k.table i).state := by
  have hp := sw.save_sameProc k cur i
  rw [(sw.switched k cur next).table]
  by_cases h : i = next
  · subst h
    rw [update_self]
    exact ⟨hp.pid, hp.state⟩
  · rw [update_of_ne h]
    exact ⟨hp.pid, hp.state⟩

theorem KeepsPids.switch (sw : Routine) (k : Kernel) (cur next : ℕ) :
    KeepsPids k (sw.switch k cur next) :=
  ⟨fun i => (switch_pid_state sw k cur next i).1, (sw.switched k cur next).vars.nextPid⟩

theorem KeepsPids.schedule (k : Kernel) : KeepsPids k (Process.schedule k) := by
  unfold Process.schedule
  split
  · exact .refl k
  next next _ =>
  have h1 := KeepsPids.modify k k.currentPid (f := fun p => { p with
    inKern := false
    state := if p.state = .running then .ready else p.state }) rfl
  have h2 := h1.trans (KeepsPids.modify _ next (f := fun p => { p with state := .running }) rfl)
  have hprep : KeepsPids k (schedulePrepare k next) := ⟨h2.pid, rfl⟩
  dsimp only
  split
  · exact hprep.trans (KeepsPids.switch .kern _ _ _)
  · exact hprep.trans (KeepsPids.switch .plain _ _ _)

theorem KeepsPids.wakeParent (k : Kernel) (pid : ℤ) : KeepsPids k (procWakeParent k pid) :=
  ⟨(procWakeParent_edit k pid).1.pid, (procWakeParent_edit k pid).1.nextPid⟩

theorem KeepsPids.exit (k : Kernel) (code : ℤ) : KeepsPids k (processExitCurrent k code) := by
  cases h : processCurrent k with
  | none =>
    unfold processExitCurrent
    rw [h]
    exact .refl k
  | some me =>
    rw [processExitCurrent_eq h]
    have h1 := KeepsPids.modify k me (f := fun p => { p with
      exitCode := code, state := .zombie }) rfl
    have h2 := h1.trans (KeepsPids.wakeParent _ (k.table me).pid)
    have h3 := h2.trans (KeepsPids.modify _ (parentIdx (k.table me).parentPid) (f := fun p =>
      { p with state := if p.state = .blocked then .ready else p.state }) rfl)
    have hstate : KeepsPids k (exitState k me code) := ⟨h3.pid, h3.nextPid⟩
    exact hstate.trans (KeepsPids.switch .plain _ _ _)

theorem KeepsPids.killSiblings (k : Kernel) (me : ℕ) : KeepsPids k (killSiblings k me) :=
  ⟨(killSiblings_edit k me).1.pid, rfl⟩

theorem Makes.pids (h : Makes k r) :
    KeepsPids k r.2 ∨ ∃ slot, Creates k slot r.2 := by
  rcases h with ⟨-, he⟩ | ⟨slot, -, -, hc⟩
  · exact .inl (he ▸ .refl k)
  · exact .inr ⟨slot, hc⟩

/-- **A call takes the next pid for one slot, or leaves all pids as they are.** -/
theorem Call.pids (k : Kernel) (c : Call) :
    KeepsPids k (c.run k).2 ∨ ∃ slot, Creates k slot (c.run k).2 := by
  cases c with
  | createUser entry userTop kstack =>
    rcases createUser_cases k entry userTop kstack with ⟨c, hr⟩ | ⟨-, -, hc⟩
    · exact .inl ⟨fun _ => by rw [Call.run, hr], by rw [Call.run, hr]⟩
    · exact .inr ⟨_, hc⟩
  | spawn => exact (makes_spawn ..).pids
  | fork => exact (makes_fork ..).pids
  | clone => exact (makes_clone ..).pids
  | switchTo pid =>
    left
    simp only [Call.run, processSwitchTo]
    split
    · next current next _ _ =>
      have h1 := KeepsPids.modify k k.currentPid (f := fun p => { p with state := .blocked }) rfl
      have h2 := h1.trans (KeepsPids.modify _ next (f := fun p => { p with state := .running }) rfl)
      refine KeepsPids.trans ?_ (KeepsPids.switch .plain _ _ _)
      exact ⟨h2.pid, rfl⟩
    · exact .refl k
  | schedule => exact .inl (KeepsPids.schedule k)
  | exit code => exact .inl (KeepsPids.exit k code)
  | exitGroup code =>
    left
    simp only [Call.run, sysExitGroup]
    split
    · exact KeepsPids.exit k code
    · exact (KeepsPids.killSiblings k _).trans (KeepsPids.exit _ code)
  | threadExit code =>
    left
    simp only [Call.run, procThreadExit]
    split
    · exact .refl k
    · next me _ =>
      exact (KeepsPids.modify k me (f := fun p => { p with
        exitCode := code, state := .empty }) rfl).trans (KeepsPids.schedule _)
  | waitpid pid =>
    left
    simp only [Call.run, procWaitpid]
    split
    · exact .refl k
    · split
      · exact KeepsPids.modify k _ (f := fun p => { p with state := .empty }) rfl
      · exact KeepsPids.schedule k

theorem PidsOnce.keeps (h : PidsOnce k) (hk : KeepsPids k k') : PidsOnce k' := by
  refine ⟨fun i hi => ?_, fun i hi j hj hp h0 => ?_⟩
  · rw [hk.pid, hk.nextPid]
    exact h.lt i hi
  · rw [hk.pid, hk.pid] at hp
    rw [hk.pid] at h0
    exact h.inj i hi j hj hp h0

theorem PidsOnce.creates {slot : ℕ} (h : PidsOnce k) (ht : Creates k slot k') : PidsOnce k' := by
  have hold : ∀ i < maxProc, i ≠ slot → (k'.table i).pid < k.nextPid := fun i hi hne => by
    rw [ht.rest i hne]
    exact h.lt i hi
  refine ⟨fun i hi => ?_, fun i hi j hj hp h0 => ?_⟩
  · by_cases hs : i = slot
    · rw [hs, ht.pid, ht.nextPid]
      omega
    · have := hold i hi hs
      rw [ht.nextPid]
      omega
  by_cases his : i = slot
  · by_cases hjs : j = slot
    · rw [his, hjs]
    · have := hold j hj hjs
      rw [his, ht.pid] at hp
      omega
  by_cases hjs : j = slot
  · have := hold i hi his
    rw [hjs, ht.pid] at hp
    omega
  · rw [ht.rest i his, ht.rest j hjs] at hp
    rw [ht.rest i his] at h0
    exact h.inj i hi j hj hp h0

/-- **In every state reached no two slots have the same pid.** -/
theorem PidsOnce.reached {ok : Kernel → Call → Prop} (h : Reached ok b k) :
    PidsOnce k := by
  induction h with
  | init k kstack idleEntry =>
    have hpid : ∀ i, ((processInit k kstack idleEntry).table i).pid = if i = 0 then 0 else -1 := by
      intro i
      by_cases hi : i = 0
      · subst hi
        rfl
      · simp only [processInit, update_of_ne hi, if_neg hi]
        rfl
    refine ⟨fun i _ => ?_, fun i _ j _ hp h0 => ?_⟩
    · rw [hpid]
      show _ < ((1 : ℕ) : ℤ)
      split <;> decide
    rw [hpid, hpid] at hp
    rw [hpid] at h0
    split at h0
    · next hi =>
      split at hp
      · split at hp
        · omega
        · omega
      · omega
    · omega
  | other _ ho ih => exact ih.keeps ⟨ho.pid, ho.nextPid⟩
  | call c _ _ ih =>
    rcases Call.pids _ c with hk | ⟨slot, ht⟩
    · exact ih.keeps hk
    · exact ih.creates ht

end Pids

/-! ### States after an exit -/

/-- The same state, but for being chosen to run. -/
def SameState (s s' : ProcState) : Prop :=
  s' = s ∨ (s = .ready ∨ s = .running) ∧ (s' = .ready ∨ s' = .running)

theorem schedule_state (k : Kernel) (i : ℕ) :
    SameState (k.table i).state ((schedule k).table i).state := by
  cases ht : scheduleTarget k with
  | none =>
    rw [schedule_none ht]
    exact .inl rfl
  | some next =>
    obtain ⟨-, hready, hne⟩ := scheduleTarget_some ht
    have hprep : SameState (k.table i).state ((schedulePrepare k next).table i).state := by
      simp only [schedulePrepare]
      by_cases hn : i = next
      · subst hn
        rw [modify_table_self]
        exact .inr ⟨.inl hready, .inr rfl⟩
      rw [modify_table_of_ne hn]
      by_cases hc : i = k.currentPid
      · rw [hc, modify_table_self]
        split
        · next hr => exact .inr ⟨.inr hr, .inl rfl⟩
        · exact .inl rfl
      · rw [modify_table_of_ne hc]
        exact .inl rfl
    unfold schedule
    rw [ht]
    dsimp only
    split
    · exact (switch_pid_state .kern _ _ _ i).2.symm ▸ hprep
    · exact (switch_pid_state .plain _ _ _ i).2.symm ▸ hprep

section ExitState

variable (k : Kernel) (me : ℕ) (code : ℤ)

theorem exitState_state (i : ℕ) : ((exitState k me code).table i).state =
    let s := ((procWakeParent (k.modify me fun p => { p with exitCode := code, state := .zombie })
      (k.table me).pid).table i).state
    if i = parentIdx (k.table me).parentPid ∧ s = .blocked then .ready else s := by
  simp only [exitState]
  by_cases hp : i = parentIdx (k.table me).parentPid
  · rw [← hp, modify_table_self]
    simp
  · rw [modify_table_of_ne hp, if_neg (fun h => hp h.1)]

theorem exitState_self : ((exitState k me code).table me).state = .zombie := by
  rw [exitState_state]
  rcases procWakeParent_cases (k.modify me fun p => { p with exitCode := code, state := .zombie })
    (k.table me).pid me with h | ⟨hb, -⟩
  · rw [h, modify_table_self]
    exact if_neg (by simp)
  · rw [modify_table_self] at hb
    cases hb

/-- Any other slot keeps its state, or is blocked and woken: as the slot with the number of the
parent's pid, or as the parent of a slot with the pid of the exiting process. -/
theorem exitState_of_ne (hi : i ≠ me) :
    (((exitState k me code).table i).state = (k.table i).state ∧
      (i = parentIdx (k.table me).parentPid → (k.table i).state ≠ .blocked)) ∨
    ((k.table i).state = .blocked ∧ ((exitState k me code).table i).state = .ready ∧
      (i = parentIdx (k.table me).parentPid ∨ ∃ j < maxProc, (k.table j).pid = (k.table me).pid ∧
        (k.table j).parentPid = (k.table i).pid)) := by
  set k1 := k.modify me fun p => { p with exitCode := code, state := .zombie } with hk1
  have hsame : k1.table i = k.table i := modify_table_of_ne hi
  have hfields : ∀ j, (k1.table j).pid = (k.table j).pid ∧
      (k1.table j).parentPid = (k.table j).parentPid := by
    intro j
    by_cases hj : j = me
    · subst hj
      rw [hk1, modify_table_self]
      exact ⟨rfl, rfl⟩
    · rw [hk1, modify_table_of_ne hj]
      exact ⟨rfl, rfl⟩
  have hlast := exitState_state k me code i
  rw [← hk1] at hlast
  rcases procWakeParent_cases k1 (k.table me).pid i with h | ⟨hb, ⟨j, hj, hjp, hjq⟩, h⟩
  · rw [hlast, h, hsame]
    by_cases hp : i = parentIdx (k.table me).parentPid ∧ (k.table i).state = .blocked
    · rw [if_pos hp]
      exact .inr ⟨hp.2, rfl, .inl hp.1⟩
    · rw [if_neg hp]
      exact .inl ⟨rfl, fun h1 h2 => hp ⟨h1, h2⟩⟩
  · rw [hsame] at hb hjq
    rw [(hfields j).1] at hjp
    rw [(hfields j).2] at hjq
    rw [hlast, h, if_neg (by simp)]
    exact .inr ⟨hb, rfl, .inr ⟨j, hj, hjp, hjq⟩⟩

end ExitState

/-! ### Thread groups -/

/-- `SYS_exit_group`; the result is `false` when the processor halts for good. -/
def exitGroup (k : Kernel) (code : ℤ) : Bool × Kernel :=
  match processCurrent k with
  | none => (false, sysExitGroup k code)
  | some me =>
    if 0 ≤ (k.table me).thParentPid then procThreadExit k code else (true, sysExitGroup k code)

/-- The kernel, and for each slot the group of its process. -/
structure Grouped where
  k : Kernel
  grp : ℕ → ℕ

/-- The slot that `proc_spawn`, `proc_fork` and `proc_clone_thread` take. -/
def newSlot (k : Kernel) : ℕ := (findEmpty k).getD 0

theorem Makes.newSlot {k : Kernel} (h : Makes k r) (h0 : 0 ≤ r.1) :
    findEmpty k = some (newSlot k) ∧ Creates k (Process.newSlot k) r.2 := by
  rcases h with ⟨hneg, -⟩ | ⟨slot, hs, -, hc⟩
  · omega
  · rw [Process.newSlot, hs, Option.getD_some]
    exact ⟨rfl, hc⟩

theorem ne_newSlot {k : Kernel} (h : findEmpty k = some (newSlot k))
    (hs : (k.table i).state ≠ .empty) : i ≠ newSlot k := by
  rintro rfl
  exact hs (beq_iff_eq.mp (findIdx_some h).2)

/-- A new process is a group of its own, with its pid for a name; a thread is in the group of its
creator. -/
def groupAfter (k : Kernel) (grp : ℕ → ℕ) : Call → ℕ → ℕ
  | .createUser entry userTop kstack =>
    if 0 ≤ (processCreateUser k entry userTop kstack).1
    then update grp k.pcbCount k.nextPid else grp
  | .spawn entry userTop kstack pml4 =>
    if 0 ≤ (procSpawn k entry userTop kstack pml4).1
    then update grp (newSlot k) k.nextPid else grp
  | .fork kframe kstack pml4 =>
    if 0 ≤ (procFork k kframe kstack pml4).1
    then update grp (newSlot k) k.nextPid else grp
  | .clone flags newsp ctid tls kframe kstack =>
    if 0 ≤ (procCloneThread k flags newsp ctid tls kframe kstack).1
    then update grp (newSlot k) (grp ((processCurrent k).getD 0)) else grp
  | _ => grp

def Grouped.run (g : Grouped) (c : Call) : Grouped := ⟨(c.run g.k).2, groupAfter g.k g.grp c⟩

/-- The states reached from `process_init`, with their groups. -/
inductive Grouped.Reached : Bool → Grouped → Prop
  | init (k : Kernel) (kstack idleEntry : ℕ) :
      Grouped.Reached true ⟨processInit k kstack idleEntry, fun _ => 0⟩
  | other {g : Grouped} {k' : Kernel} : g.Reached true → Other g.k k' →
      Grouped.Reached true ⟨k', g.grp⟩
  | call {g : Grouped} (c : Call) : g.Reached true → (g.run c).Reached (c.run g.k).1

theorem Grouped.Reached.kernel (h : g.Reached b) :
    Process.Reached (fun _ _ => True) b g.k := by
  induction h with
  | init k kstack idleEntry => exact .init k kstack idleEntry
  | other _ ho ih => exact .other ih ho
  | call c _ ih => exact .call c ih trivial

/-- The slots of the group of `me`. -/
def InGroup (k : Kernel) (grp : ℕ → ℕ) (me i : ℕ) : Prop :=
  i < maxProc ∧ (k.table i).state ≠ .empty ∧ grp i = grp me

/-- **The group of `me` is over, and for the others nothing has changed**, but that the parent may
have been woken. -/
structure EndsGroup (k : Kernel) (grp : ℕ → ℕ) (me : ℕ) (k' : Kernel) : Prop where
  ended : ∀ i, InGroup k grp me i → (k'.table i).state = .empty ∨ (k'.table i).state = .zombie
  others : ∀ i < maxProc, ¬ InGroup k grp me i →
    SameState (k.table i).state (k'.table i).state ∨
    ((k.table i).pid = (k.table me).parentPid ∧ (k.table i).state = .blocked ∧
      (k'.table i).state = .ready)

/-- A caller that counts as a thread is the last of its group. -/
def LastOfGroup (k : Kernel) (grp : ℕ → ℕ) (me : ℕ) : Prop :=
  ∀ i, InGroup k grp me i → i ≠ me → (k.table i).state = .zombie

/-- The processes with the page tables of the caller are its group, and the slot with the number of
the parent's pid does not have another process that is blocked. -/
structure GroupByTables (k : Kernel) (grp : ℕ → ℕ) (me : ℕ) : Prop where
  inside : ∀ i, InGroup k grp me i → i ≠ me →
    (k.table i).state = .zombie ∨ (k.table i).pml4 = (k.table me).pml4
  outside : ∀ i < maxProc, (k.table i).state ≠ .empty → ¬ InGroup k grp me i →
    (k.table i).pml4 ≠ (k.table me).pml4
  parent : ∀ i < maxProc, ((k.table me).parentPid = i ∨ i = 0 ∧ OutOfTable (k.table me).parentPid) →
    ¬ InGroup k grp me i → (k.table i).state = .blocked →
    (k.table i).pid = (k.table me).parentPid

/-- **The condition on the table.** -/
def GroupSeen (k : Kernel) (grp : ℕ → ℕ) (me : ℕ) : Prop :=
  (0 ≤ (k.table me).thParentPid ∧ LastOfGroup k grp me) ∨
  ((k.table me).thParentPid < 0 ∧ GroupByTables k grp me)

section Group

variable {k : Kernel} {grp : ℕ → ℕ} {me : ℕ} (code : ℤ)

theorem processCurrent_some (h : processCurrent k = some me) :
    me < maxProc ∧ (k.table me).state ≠ .empty ∧ (k.table me).pid = k.currentPid := by
  obtain ⟨hlt, ht⟩ := findIdx_some h
  simpa [and_assoc] using And.intro hlt ht

theorem threadExit_states (h : processCurrent k = some me) :
    ((procThreadExit k code).2.table me).state = .empty ∧
    ∀ i, i ≠ me → SameState (k.table i).state ((procThreadExit k code).2.table i).state := by
  have hrun : (procThreadExit k code).2 =
      schedule (k.modify me fun p => { p with exitCode := code, state := .empty }) := by
    unfold procThreadExit
    rw [h]
  rw [hrun]
  refine ⟨?_, fun i hi => ?_⟩
  · have hs := schedule_state (k.modify me fun p => { p with exitCode := code, state := .empty }) me
    rw [modify_table_self] at hs
    rcases hs with hs | ⟨hs | hs, -⟩
    · exact hs
    · cases hs
    · cases hs
  · have hs := schedule_state (k.modify me fun p => { p with exitCode := code, state := .empty }) i
    rwa [modify_table_of_ne hi] at hs

theorem eq_parentIdx_iff (hi : i < maxProc) :
    i = parentIdx p ↔ p = i ∨ i = 0 ∧ OutOfTable p := by
  constructor
  · rintro rfl
    exact parentIdx_cases p
  · rintro (hp | ⟨h0, hout⟩)
    · exact (parentIdx_eq hi hp).symm
    · rw [h0, parentIdx_of_out hout]

theorem ne_of_not_inGroup (h : processCurrent k = some me) (hi : ¬ InGroup k grp me i) : i ≠ me := by
  obtain ⟨hme, hlive, -⟩ := processCurrent_some h
  rintro rfl
  exact hi ⟨hme, hlive, rfl⟩

theorem processCurrent_killSiblings (h : processCurrent k = some me) :
    processCurrent (killSiblings k me) = some me := by
  have hcur := findIdx_some h
  rw [Bool.and_eq_true, beq_iff_eq] at hcur
  have hpid : (k.table me).pid = k.currentPid := hcur.2.2
  rw [← h]
  unfold processCurrent findIdx
  refine List.find?_congr fun i _ => ?_
  dsimp only [killSiblings]
  split
  · next hi =>
    -- an entry that is emptied does not have the pid of the caller
    have hne : (k.table i).pid ≠ k.currentPid := by rw [← hpid]; exact hi.2.1
    have hb : ((k.table i).pid == (k.currentPid : ℤ)) = false := beq_eq_false_iff_ne.mpr hne
    rw [hb, Bool.and_false, Bool.and_false]
  · rfl

theorem sysExitGroup_self (h : processCurrent k = some me) :
    ((sysExitGroup k code).table me).state = .zombie := by
  unfold sysExitGroup
  rw [h]
  dsimp only
  rw [processExitCurrent_eq (processCurrent_killSiblings h)]
  exact (switch_pid_state .plain _ _ _ me).2.trans (exitState_self (killSiblings k me) me code)

section

variable (hu : PidsOnce k) (h : processCurrent k = some me)

include hu h

theorem PidsOnce.ne_pid (hi : i < maxProc) (hne : i ≠ me) : (k.table i).pid ≠ (k.table me).pid := by
  obtain ⟨hme, -, hpid⟩ := processCurrent_some h
  intro hp
  exact hne (hu.inj i hi me hme hp (by rw [hp, hpid]; exact Int.natCast_nonneg _))

theorem killSiblings_state (hi : i < maxProc) (hne : i ≠ me) :
    ((killSiblings k me).table i).state =
      if (k.table i).pml4 = (k.table me).pml4 then .empty else (k.table i).state := by
  have hpid := hu.ne_pid h hi hne
  simp only [killSiblings]
  by_cases hp : (k.table i).pml4 = (k.table me).pml4
  · rw [if_pos hp, if_pos ⟨hi, hpid, hp⟩]
  · rw [if_neg hp, if_neg (fun hx => hp hx.2.2)]

/-- **The states after `exit_group` of a process that is not a thread.**  Processes with the page
tables of the caller are gone; of the others the parent, or the slot with the number of its pid,
may be woken. -/
theorem sysExitGroup_state (hi : i < maxProc) (hne : i ≠ me) :
    let s := if (k.table i).pml4 = (k.table me).pml4 then ProcState.empty else (k.table i).state
    (((sysExitGroup k code).table i).state = s ∧
      (i = parentIdx (k.table me).parentPid → s ≠ .blocked)) ∨
    (s = .blocked ∧ ((sysExitGroup k code).table i).state = .ready ∧
      (i = parentIdx (k.table me).parentPid ∨ (k.table i).pid = (k.table me).parentPid)) := by
  intro s
  obtain ⟨hedit, -, hself⟩ := killSiblings_edit k me
  have hs : ((killSiblings k me).table i).state = s := killSiblings_state hu h hi hne
  have hrun : ((sysExitGroup k code).table i).state =
      ((exitState (killSiblings k me) me code).table i).state := by
    unfold sysExitGroup
    rw [h]
    dsimp only
    rw [processExitCurrent_eq (processCurrent_killSiblings h)]
    exact (switch_pid_state .plain _ _ _ i).2
  rw [hrun]
  rcases exitState_of_ne (killSiblings k me) me code hne with ⟨he, hp⟩ | ⟨hb, hr, hw⟩
  · rw [hs, hself] at hp
    exact .inl ⟨he.trans hs, hp⟩
  rw [hself] at hw
  refine .inr ⟨hs.symm.trans hb, hr, hw.imp id ?_⟩
  rintro ⟨j, hj, hjp, hjq⟩
  rw [hedit.pid] at hjp hjq
  rw [hedit.parentPid] at hjq
  have hjme : j = me := by
    by_contra hjne
    exact hu.ne_pid h hj hjne hjp
  rw [← hjq, hjme]

theorem GroupByTables.of_ends (hends : EndsGroup k grp me (sysExitGroup k code)) :
    GroupByTables k grp me := by
  have hout : ∀ i < maxProc, (k.table i).state ≠ .empty → ¬ InGroup k grp me i →
      (k.table i).pml4 ≠ (k.table me).pml4 := by
    -- a process outside with the same tables would be gone
    intro i hi hs hnot hp
    have hst := sysExitGroup_state code hu h hi (ne_of_not_inGroup h hnot)
    rw [if_pos hp] at hst
    rcases hst with ⟨hgone, -⟩ | ⟨hb, -⟩
    · rcases hends.others i hi hnot with (hx | ⟨-, hx⟩) | ⟨-, -, hx⟩
      · exact hs (hx.symm.trans hgone)
      · rw [hgone] at hx
        exact absurd hx (by decide)
      · rw [hgone] at hx
        exact absurd hx (by decide)
    · exact absurd hb (by decide)
  refine ⟨fun i hi hnm => ?_, hout, fun i hi hp hnot hb => ?_⟩
  · by_contra hx
    obtain ⟨hz, hp⟩ := not_or.mp hx
    have hst := sysExitGroup_state code hu h hi.1 hnm
    rw [if_neg hp] at hst
    rcases hst with ⟨hsame, -⟩ | ⟨-, hr, -⟩
    · rcases hends.ended i hi with he | he
      · exact hi.2.1 (hsame.symm.trans he)
      · exact hz (hsame.symm.trans he)
    · rcases hends.ended i hi with he | he <;> rw [hr] at he <;> exact absurd he (by decide)
  have hst := sysExitGroup_state code hu h hi (ne_of_not_inGroup h hnot)
  rw [if_neg (hout i hi (by rw [hb]; decide) hnot)] at hst
  rcases hst with ⟨-, hnb⟩ | ⟨-, hr, -⟩
  · exact absurd hb (hnb ((eq_parentIdx_iff hi).mpr hp))
  rcases hends.others i hi hnot with (hx | ⟨hx, -⟩) | ⟨hx, -, -⟩
  · rw [hr, hb] at hx
    exact absurd hx (by decide)
  · rw [hb] at hx
    exact absurd hx (by decide)
  · exact hx

theorem GroupByTables.ends (hg : GroupByTables k grp me) :
    EndsGroup k grp me (sysExitGroup k code) := by
  refine ⟨fun i hi => ?_, fun i hi hnot => ?_⟩
  · by_cases hnm : i = me
    · rw [hnm]
      exact .inr (sysExitGroup_self code h)
    rcases sysExitGroup_state code hu h hi.1 hnm with ⟨hs, -⟩ | ⟨hb, -, -⟩
    · rw [hs]
      by_cases hp : (k.table i).pml4 = (k.table me).pml4
      · exact .inl (if_pos hp)
      · rw [if_neg hp]
        exact .inr ((hg.inside i hi hnm).resolve_right hp)
    -- a zombie is not blocked
    by_cases hp : (k.table i).pml4 = (k.table me).pml4
    · rw [if_pos hp] at hb
      cases hb
    · rw [if_neg hp, (hg.inside i hi hnm).resolve_right hp] at hb
      cases hb
  · have hst := sysExitGroup_state code hu h hi (ne_of_not_inGroup h hnot)
    have hsame : (if (k.table i).pml4 = (k.table me).pml4 then ProcState.empty
        else (k.table i).state) = (k.table i).state := by
      by_cases he : (k.table i).state = .empty
      · rw [he, ite_self]
      · exact if_neg (hg.outside i hi he hnot)
    rw [hsame] at hst
    rcases hst with ⟨hs, -⟩ | ⟨hb, hr, hw⟩
    · exact .inl (.inl hs)
    refine .inr ⟨?_, hb, hr⟩
    rcases hw with hw | hw
    · exact hg.parent i hi ((eq_parentIdx_iff hi).mp hw) hnot hb
    · exact hw

end

theorem endsGroup_threadExit_iff (h : processCurrent k = some me) :
    EndsGroup k grp me (procThreadExit k code).2 ↔ LastOfGroup k grp me := by
  obtain ⟨hself, hother⟩ := threadExit_states code h
  refine ⟨fun hends i hi hne => ?_, fun hlast => ⟨fun i hi => ?_, fun i _ hi => .inl ?_⟩⟩
  · have he := hends.ended i hi
    rcases hother i hne with hs | ⟨-, hs | hs⟩ <;> rw [hs] at he
    · exact he.resolve_left hi.2.1
    · rcases he with he | he <;> cases he
    · rcases he with he | he <;> cases he
  · by_cases hne : i = me
    · rw [hne]
      exact .inl hself
    have hs := hother i hne
    rw [hlast i hi hne] at hs
    rcases hs with hs | ⟨hs | hs, -⟩
    · exact .inr hs
    · cases hs
    · cases hs
  · exact hother i (ne_of_not_inGroup h hi)

end Group

/-- **`exit_group` ends exactly the group of the caller if and only if** the caller counts as a
thread and is the last of its group, or it does not and its group is the processes with its page
tables. -/
theorem exit_group_iff {b : Bool} (g : Grouped) (hr : g.Reached b) (me : ℕ)
    (h : processCurrent g.k = some me) (code : ℤ) :
    EndsGroup g.k g.grp me (exitGroup g.k code).2 ↔ GroupSeen g.k g.grp me := by
  have hu := PidsOnce.reached hr.kernel
  unfold exitGroup GroupSeen
  rw [h]
  dsimp only
  by_cases ht : 0 ≤ (g.k.table me).thParentPid
  · rw [if_pos ht, endsGroup_threadExit_iff code h]
    exact ⟨fun hl => .inl ⟨ht, hl⟩, fun hx => hx.elim And.right fun hn => absurd hn.1 (by omega)⟩
  · rw [if_neg ht]
    exact ⟨fun he => .inr ⟨by omega, GroupByTables.of_ends code hu h he⟩,
      fun hx => hx.elim (fun hn => absurd hn.1 ht) fun hg => hg.2.ends code hu h⟩

/-- Calls one after the other, with the groups. -/
def Grouped.runCalls (g : Grouped) : List Call → Grouped
  | [] => g
  | c :: cs => (g.run c).runCalls cs

theorem Grouped.Reached.runCalls (cs : List Call) (h : g.Reached true)
    (hr : Runs (fun _ _ => True) g.k cs) : (g.runCalls cs).Reached true := by
  induction cs generalizing g with
  | nil => exact h
  | cons c cs ih =>
    obtain ⟨-, ht, hcs⟩ := hr
    exact ih (ht ▸ Grouped.Reached.call c h) hcs

def groupedStart : Grouped := ⟨processInit blank 0x10000 0x100, fun _ => 0⟩

/-- A program makes a thread. -/
def withThread : List Call :=
  spawnFirst ++ [.clone 0x10100 0x900000 0 0 0x21f60 (some 0x40000)]

/-- The main thread calls `exit_group`. -/
theorem exit_group_iff_withThread :
    InGroup (groupedStart.runCalls withThread).k (groupedStart.runCalls withThread).grp 1 2 ∧
    EndsGroup (groupedStart.runCalls withThread).k (groupedStart.runCalls withThread).grp 1
      (exitGroup (groupedStart.runCalls withThread).k 0).2 := by
  have hreached : (groupedStart.runCalls withThread).Reached true :=
    Grouped.Reached.runCalls withThread (.init _ _ _) (by decide +kernel)
  refine ⟨⟨by decide, by decide +kernel, by decide +kernel⟩,
    (exit_group_iff _ hreached 1 (by decide +kernel) 0).mpr (.inr ⟨by decide +kernel, ?_⟩)⟩
  obtain ⟨x, hx⟩ : ∃ x, groupedStart.runCalls withThread = x := ⟨_, rfl⟩
  have hgroup : ∀ i < maxProc, (x.k.table i).state ≠ .empty →
      (x.grp i = x.grp 1 ↔ (x.k.table i).pml4 = (x.k.table 1).pml4) := by
    rw [← hx]
    decide +kernel
  have hrun : ∀ i < maxProc, (x.k.table i).state ≠ .blocked := by
    rw [← hx]
    decide +kernel
  rw [hx]
  exact ⟨fun i hi _ => .inr ((hgroup i hi.1 hi.2.1).mp hi.2.2),
    fun i hi he hnot hp => hnot ⟨hi, he, (hgroup i hi he).mpr hp⟩,
    fun i hi _ _ hb => absurd hb (hrun i hi)⟩

/-- A program makes a thread, which is switched to. -/
def oneThread : List Call :=
  spawnFirst ++ [.clone 0x10100 0x900000 0 0 0x21f60 (some 0x40000), .schedule]

/-- **`exit_group` of a thread leaves the main thread ready to run.** -/
theorem thread_exit_group_leaves_main : ∃ g : Grouped, g.Reached true ∧
    processCurrent g.k = some 2 ∧ InGroup g.k g.grp 2 1 ∧
    ((exitGroup g.k 0).2.table 1).state = .ready := by
  refine ⟨groupedStart.runCalls oneThread,
    Grouped.Reached.runCalls oneThread (.init _ _ _) (by decide +kernel), by decide +kernel,
    ⟨by decide, by decide +kernel, by decide +kernel⟩, by decide +kernel⟩

end TipOS.Process
