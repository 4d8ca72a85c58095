import TipOS.Process.Table

/-!
# The current process

Runs of the functions of `process.c`, with any code that leaves the identities of the
processes alone in between.  `running` is the slot whose context was last switched to, and
`process_current()` should be that slot.

`current_pid` holds an index after `schedule` and `process_exit_current`, and a pid after
`process_switch_to`.  The two agree as long as pids are indices, which is so until a slot is
used twice: `proc_spawn`, `proc_fork` and `proc_clone_thread` take the first empty slot, and
the pid comes from `next_pid`.  `Call.Fits` is the condition on a call, `Indexed` the
invariant, and `current_of_reached` the result; `fork_wait_fork` is a run outside it.

`outcome` says once what a call can do to a state with the invariant: create a process, edit
states, or edit states and switch.
-/

namespace TipOS.Process

open Function Lib Kernel Int Bool List

variable {f : ℕ → Bool} {i next slot : ℕ} {c : Call} {code : ℤ}

/-! ### Calls -/

/-- The functions of `process.c`, one round of `proc_waitpid` at a time. -/
inductive Call
  | createUser (entry userTop : ℕ) (kstack : Option ℕ)
  | spawn (entry userTop : ℕ) (kstack pml4 : Option ℕ)
  | fork (kframe : ℕ) (kstack pml4 : Option ℕ)
  | clone (flags newsp ctid tls kframe : ℕ) (kstack : Option ℕ)
  | switchTo (pid : ℕ)
  | schedule
  | exit (code : ℤ)
  | exitGroup (code : ℤ)
  | threadExit (code : ℤ)
  | waitpid (pid : ℤ)

/-- The state after a call, with `false` when the processor halts for good. -/
def Call.run (k : Kernel) : Call → Bool × Kernel
  | .createUser entry userTop kstack => (true, (processCreateUser k entry userTop kstack).2)
  | .spawn entry userTop kstack pml4 => (true, (procSpawn k entry userTop kstack pml4).2)
  | .fork kframe kstack pml4 => (true, (procFork k kframe kstack pml4).2)
  | .clone flags newsp ctid tls kframe kstack =>
    (true, (procCloneThread k flags newsp ctid tls kframe kstack).2)
  | .switchTo pid => (true, processSwitchTo k pid)
  | .schedule => (true, Process.schedule k)
  | .exit code => (true, processExitCurrent k code)
  | .exitGroup code => (true, sysExitGroup k code)
  | .threadExit code => procThreadExit k code
  | .waitpid pid => (true, (procWaitpid k pid).2)

/-- The slot of the parent that an exit goes back to. -/
def exitSlot (k : Kernel) : ℕ := parentIdx (k.table k.running).parentPid

/-- **The condition on a call.**  A new process gets the slot with the number of its pid, an exit
goes back to a slot in use, and nobody collects the running process. -/
def Call.Fits (k : Kernel) : Call → Prop
  | .createUser entry userTop kstack =>
    0 ≤ (processCreateUser k entry userTop kstack).1 → k.pcbCount = k.nextPid
  | .spawn entry userTop kstack pml4 =>
    0 ≤ (procSpawn k entry userTop kstack pml4).1 → findEmpty k = some k.nextPid
  | .fork kframe kstack pml4 =>
    0 ≤ (procFork k kframe kstack pml4).1 → findEmpty k = some k.nextPid
  | .clone flags newsp ctid tls kframe kstack =>
    0 ≤ (procCloneThread k flags newsp ctid tls kframe kstack).1 → findEmpty k = some k.nextPid
  | .exit _ => (k.table (exitSlot k)).state ≠ .empty
  | .exitGroup _ => ((killSiblings k k.running).table (exitSlot k)).state ≠ .empty
  | .waitpid pid => findPid k pid = some k.running → (k.table k.running).state ≠ .zombie
  | .switchTo _ | .schedule | .threadExit _ => True

instance (k : Kernel) (c : Call) : Decidable (c.Fits k) := by
  cases c <;> unfold Call.Fits <;> infer_instance

/-- Code outside `process.c` leaves the identities of the processes alone. -/
structure Other (k k' : Kernel) : Prop where
  pid : ∀ i, (k'.table i).pid = (k.table i).pid
  state : ∀ i, (k'.table i).state = (k.table i).state
  parentPid : ∀ i, (k'.table i).parentPid = (k.table i).parentPid
  currentPid : k'.currentPid = k.currentPid
  nextPid : k'.nextPid = k.nextPid
  pcbCount : k'.pcbCount = k.pcbCount
  running : k'.running = k.running

/-- The states reached from `process_init` when every call meets `ok`; the processor halts for
good in those with `false`. -/
inductive Reached (ok : Kernel → Call → Prop) : Bool → Kernel → Prop
  | init (k : Kernel) (kstack idleEntry : ℕ) : Reached ok true (processInit k kstack idleEntry)
  | other {k k' : Kernel} : Reached ok true k → Other k k' → Reached ok true k'
  | call {k : Kernel} (c : Call) : Reached ok true k → ok k c →
      Reached ok (c.run k).1 (c.run k).2

/-! ### The invariant -/

/-- Pids are indices, slots from `next_pid` on are unused, and the running slot is in use. -/
structure Indexed (k : Kernel) : Prop where
  pid : ∀ i < maxProc, (k.table i).state ≠ .empty → (k.table i).pid = i
  free : ∀ i < maxProc, k.nextPid ≤ i → (k.table i).state = .empty
  current : k.currentPid = k.running
  lt : k.running < maxProc
  live : (k.table k.running).state ≠ .empty

theorem findIdx_some (h : findIdx f = some i) : i < maxProc ∧ f i :=
  ⟨mem_range.mp (mem_of_find?_eq_some h), find?_some h⟩

theorem findIdx_eq (hi : i < maxProc) (hf : f i) (hu : ∀ j < maxProc, f j → j = i) :
    findIdx f = some i := by
  cases h : findIdx f with
  | none => exact absurd hf (find?_eq_none.mp h i (mem_range.mpr hi))
  | some j => rw [hu j (findIdx_some h).1 (findIdx_some h).2]

namespace Indexed

variable {k k' : Kernel}

theorem eq_of_pid (h : Indexed k) {j : ℕ} (hi : i < maxProc) (hs : (k.table i).state ≠ .empty)
    (hp : (k.table i).pid = j) : i = j := by
  have := h.pid i hi hs
  omega

/-- **With the invariant `process_current` is the running slot.** -/
theorem processCurrent_eq (h : Indexed k) : processCurrent k = some k.running := by
  refine findIdx_eq h.lt ?_ fun j hj hf => ?_
  · rw [h.current, h.pid k.running h.lt h.live]
    simpa using h.live
  · obtain ⟨hs, hp⟩ : (k.table j).state ≠ .empty ∧ (k.table j).pid = k.currentPid := by
      simpa using hf
    rw [← h.current]
    exact h.eq_of_pid hj hs hp

theorem other (h : Indexed k) (ho : Other k k') : Indexed k' where
  pid i hi hs := by rw [ho.pid i]; exact h.pid i hi (by rwa [← ho.state i])
  free i hi hn := by rw [ho.state i]; exact h.free i hi (by rwa [← ho.nextPid])
  current := by rw [ho.currentPid, ho.running, h.current]
  lt := by rw [ho.running]; exact h.lt
  live := by rw [ho.running, ho.state]; exact h.live

end Indexed

/-! ### What a call can do -/

/-- States are edited: no process appears, and nothing else of a process changes but
`in_kern` of the running one, which may be cleared. -/
structure StateEdit (k k' : Kernel) : Prop where
  cpu : k'.toCpu = k.toCpu
  ring3 : k'.ring3 = k.ring3
  fsBase : k'.fsBase = k.fsBase
  currentRsp0 : k'.currentRsp0 = k.currentRsp0
  gInSyscall : k'.gInSyscall = k.gInSyscall
  nextPid : k'.nextPid = k.nextPid
  running : k'.running = k.running
  pid : ∀ i, (k'.table i).pid = (k.table i).pid
  parentPid : ∀ i, (k'.table i).parentPid = (k.table i).parentPid
  isUser : ∀ i, (k'.table i).isUser = (k.table i).isUser
  rsp0 : ∀ i, (k'.table i).rsp0 = (k.table i).rsp0
  kernelRsp : ∀ i, (k'.table i).kernelRsp = (k.table i).kernelRsp
  inKern : ∀ i, (k'.table i).inKern = (k.table i).inKern ∨
    i = k.running ∧ (k'.table i).inKern = false
  dead : ∀ i, (k.table i).state = .empty → (k'.table i).state = .empty

namespace StateEdit

variable {k k' k'' : Kernel}

/-- `current_pid`, `pcb_count` and the TSS are not part of it. -/
theorem setCurrent (k : Kernel) (c t n : ℕ) :
    StateEdit k { k with currentPid := c, tssRsp0 := t, pcbCount := n } :=
  ⟨rfl, rfl, rfl, rfl, rfl, rfl, rfl, fun _ => rfl, fun _ => rfl, fun _ => rfl, fun _ => rfl,
    fun _ => rfl, fun _ => .inl rfl, fun _ h => h⟩

theorem refl (k : Kernel) : StateEdit k k := setCurrent k k.currentPid k.tssRsp0 k.pcbCount

theorem trans (h : StateEdit k k') (h' : StateEdit k' k'') : StateEdit k k'' where
  cpu := h'.cpu.trans h.cpu
  ring3 := h'.ring3.trans h.ring3
  fsBase := h'.fsBase.trans h.fsBase
  currentRsp0 := h'.currentRsp0.trans h.currentRsp0
  gInSyscall := h'.gInSyscall.trans h.gInSyscall
  nextPid := h'.nextPid.trans h.nextPid
  running := h'.running.trans h.running
  pid i := (h'.pid i).trans (h.pid i)
  parentPid i := (h'.parentPid i).trans (h.parentPid i)
  isUser i := (h'.isUser i).trans (h.isUser i)
  rsp0 i := (h'.rsp0 i).trans (h.rsp0 i)
  kernelRsp i := (h'.kernelRsp i).trans (h.kernelRsp i)
  inKern i := by
    rcases h'.inKern i with he | ⟨hr, hf⟩
    · rw [he]; exact h.inKern i
    · exact .inr ⟨hr.trans h.running, hf⟩
  dead i hd := h'.dead i (h.dead i hd)

/-- One entry gets another state; `f` may also set the exit code. -/
theorem modify (k : Kernel) (i : ℕ) (f : Pcb → Pcb)
    (hs : (k.table i).state = .empty → (f (k.table i)).state = .empty)
    (hk : (f (k.table i)).inKern = (k.table i).inKern ∨
      i = k.running ∧ (f (k.table i)).inKern = false)
    (hf : (f (k.table i)).pid = (k.table i).pid ∧ (f (k.table i)).parentPid = (k.table i).parentPid ∧
      (f (k.table i)).isUser = (k.table i).isUser ∧ (f (k.table i)).rsp0 = (k.table i).rsp0 ∧
      (f (k.table i)).kernelRsp = (k.table i).kernelRsp) : StateEdit k (k.modify i f) := by
  have hall : ∀ j, j = i ∨ (k.modify i f).table j = k.table j := fun j =>
    (eq_or_ne j i).imp_right modify_table_of_ne
  constructor <;> try rfl
  all_goals
    intro j
    rcases hall j with rfl | he
    · simp only [modify_table_self]
      first | exact hf.1 | exact hf.2.1 | exact hf.2.2.1 | exact hf.2.2.2.1 | exact hf.2.2.2.2 |
        exact hk | exact hs
    · rw [he]
      first | done | exact .inl rfl | exact id

end StateEdit

/-- A process appears in `slot`. -/
structure Creates (k : Kernel) (slot : ℕ) (k' : Kernel) : Prop where
  sp : k'.sp = k.sp
  ring3 : k'.ring3 = k.ring3
  fsBase : k'.fsBase = k.fsBase
  currentRsp0 : k'.currentRsp0 = k.currentRsp0
  gInSyscall : k'.gInSyscall = k.gInSyscall
  currentPid : k'.currentPid = k.currentPid
  nextPid : k'.nextPid = k.nextPid + 1
  running : k'.running = k.running
  rest : ∀ i, i ≠ slot → k'.table i = k.table i
  pid : (k'.table slot).pid = k.nextPid
  state : (k'.table slot).state = .ready
  inKern : (k'.table slot).inKern = (k.table slot).inKern ∨ (k'.table slot).inKern = false

/-- The calls of the waiting loops. -/
def Call.waits : Call → Bool
  | .schedule | .waitpid _ => true
  | _ => false

/-- **What a call can do.** -/
inductive Outcome (k : Kernel) (c : Call) : Prop
  | creates (h : Creates k k.nextPid (c.run k).2) (hlt : k.nextPid < maxProc)
      (hr : (c.run k).1 = true)
  | edits (h : StateEdit k (c.run k).2) (hcur : (c.run k).2.currentPid = k.currentPid)
      (hlive : (c.run k).1 = true → ((c.run k).2.table k.running).state ≠ .empty)
  | switches (sw : Routine) (next : ℕ) (k₁ : Kernel) (h : StateEdit k k₁)
      (hcur : k₁.currentPid = next) (hlt : next < maxProc) (hlive : (k₁.table next).state ≠ .empty)
      (hr : c.run k = (true, sw.switch k₁ k.running next))
      (hkern : sw = .kern → k.gInSyscall = true ∧ (k.table k.running).isUser = true)
      (hwait : c.waits = true → next ≠ k.running ∧
        (k.gInSyscall = true → (k.table k.running).isUser = true → sw = .kern))
      (hleft : c.waits = false → sw = .kern → (k₁.table k.running).state = .empty)

/-! ### Scheduling -/

theorem scheduleTarget_some {k : Kernel} (h : scheduleTarget k = some next) :
    next < maxProc ∧ (k.table next).state = .ready ∧ next ≠ k.currentPid := by
  obtain ⟨hf, hne⟩ := Option.filter_eq_some_iff.mp h
  have hs : (k.table next).state = .ready := by simpa using find?_some hf
  obtain ⟨i, -, rfl⟩ := mem_map.mp (mem_of_find?_eq_some hf)
  exact ⟨Nat.mod_lt _ (by decide), hs, by simpa using hne⟩

/-- What `schedule` writes before it switches. -/
theorem schedulePrepare_edit {k : Kernel} (hcur : k.currentPid = k.running)
    (hs : (k.table next).state = .ready) (hne : next ≠ k.currentPid) :
    StateEdit k (schedulePrepare k next) ∧ (schedulePrepare k next).currentPid = next ∧
      ((schedulePrepare k next).table next).state = .running := by
  have h1 : StateEdit k (k.modify k.currentPid fun p => { p with
      inKern := false
      state := if p.state = .running then .ready else p.state }) := by
    refine StateEdit.modify k _ _ (fun he => ?_) (.inr ⟨hcur, rfl⟩) ⟨rfl, rfl, rfl, rfl, rfl⟩
    simp [he]
  refine ⟨(h1.trans ((StateEdit.modify _ next _ (fun he => ?_) (.inl rfl)
    ⟨rfl, rfl, rfl, rfl, rfl⟩).trans (StateEdit.setCurrent _ _ _ _))), rfl, ?_⟩
  · rw [modify_table_of_ne hne, hs] at he
    cases he
  · unfold schedulePrepare
    rw [modify_table_self]

/-- `schedule` switches to the target, and inside a system call of a user process it keeps the
C code. -/
theorem schedule_switches {k : Kernel} (hcur : k.currentPid = k.running)
    (ht : scheduleTarget k = some next) :
    ∃ sw k1, StateEdit k k1 ∧ k1.currentPid = next ∧ (k1.table next).state ≠ .empty ∧
      Process.schedule k = sw.switch k1 k.running next ∧
      (sw = Routine.kern ↔ k.gInSyscall ∧ (k.table k.running).isUser) := by
  obtain ⟨-, hs, hne⟩ := scheduleTarget_some ht
  obtain ⟨he, hc, hst⟩ := schedulePrepare_edit hcur hs hne
  have hif : ((schedulePrepare k next).gInSyscall &&
      ((schedulePrepare k next).table k.currentPid).isUser) = true ↔
      k.gInSyscall ∧ (k.table k.running).isUser := by
    rw [he.gInSyscall, he.isUser, hcur, and_eq_true]
  have hlive : ((schedulePrepare k next).table next).state ≠ .empty := by rw [hst]; decide
  unfold Process.schedule
  rw [ht]
  dsimp only
  rw [hcur] at hif ⊢
  split
  · next h => exact ⟨.kern, _, he, hc, hlive, rfl, fun _ => hif.mp h, fun _ => rfl⟩
  · next h => exact ⟨.plain, _, he, hc, hlive, rfl, fun h' => absurd h' (by decide),
      fun h' => absurd (hif.mpr h') h⟩

theorem schedule_none {k : Kernel} (ht : scheduleTarget k = none) : Process.schedule k = k := by
  unfold Process.schedule
  rw [ht]

/-! ### The calls, one by one -/

section Outcomes

variable {k : Kernel}

theorem modify_live {f : Pcb → Pcb} {i j : ℕ} (hf : (f (k.table i)).state ≠ .empty)
    (hj : (k.table j).state ≠ .empty) : ((k.modify i f).table j).state ≠ .empty := by
  by_cases hx : j = i
  · rwa [hx, modify_table_self]
  · rwa [modify_table_of_ne hx]

theorem outcome_same (h : Indexed k) (hr : c.run k = (true, k)) : Outcome k c :=
  .edits (by rw [hr]; exact StateEdit.refl k) (by rw [hr]) (fun _ => by rw [hr]; exact h.live)

/-- A call of a waiting loop that ends in `schedule`. -/
theorem outcome_schedule (h : Indexed k) (hr : c.run k = (true, Process.schedule k))
    (hw : c.waits) : Outcome k c := by
  cases ht : scheduleTarget k with
  | none =>
    rw [schedule_none ht] at hr
    exact outcome_same h hr
  | some next =>
    obtain ⟨sw, k1, he, hc, hl, hs, hsw⟩ := schedule_switches h.current ht
    obtain ⟨hlt, -, hne⟩ := scheduleTarget_some ht
    rw [hs] at hr
    exact .switches sw next k1 he hc hlt hl hr hsw.mp
      (fun _ => ⟨fun hx => hne (hx.trans h.current.symm), fun hg hu => hsw.mpr ⟨hg, hu⟩⟩)
      (fun hw' => absurd (hw.symm.trans hw') (by decide))

theorem outcome_waitpid (h : Indexed k) {pid : ℤ} (hf : (Call.waitpid pid).Fits k) :
    Outcome k (.waitpid pid) := by
  cases hp : findPid k pid with
  | none => exact outcome_same h (by simp only [Call.run, procWaitpid, hp])
  | some i =>
    by_cases hz : (k.table i).state = .zombie
    · have he : (Call.run k (.waitpid pid)).2 = k.modify i fun p => { p with state := .empty } := by
        simp only [Call.run, procWaitpid, hp, if_pos hz]
      have hne : k.running ≠ i := by
        rintro rfl
        exact hf hp hz
      refine .edits ?_ (by rw [he]; rfl) (fun _ => ?_)
      · rw [he]
        exact StateEdit.modify k i _ (fun _ => rfl) (.inl rfl) ⟨rfl, rfl, rfl, rfl, rfl⟩
      · rw [he, modify_table_of_ne hne]
        exact h.live
    · exact outcome_schedule h (by simp only [Call.run, procWaitpid, hp, if_neg hz]) rfl

theorem outcome_switchTo (h : Indexed k) (pid : ℕ) : Outcome k (.switchTo pid) := by
  have hcur := h.processCurrent_eq
  cases hn : findIdx fun i => (k.table i).state != .empty && (k.table i).pid == pid with
  | none => exact outcome_same h (by simp only [Call.run, processSwitchTo, hcur, hn])
  | some next =>
    obtain ⟨hlt, hf⟩ := findIdx_some hn
    obtain ⟨hs, hp⟩ : (k.table next).state ≠ .empty ∧ (k.table next).pid = pid := by simpa using hf
    obtain rfl : next = pid := h.eq_of_pid hlt hs hp
    -- the switch starts from the state in which three writes have been made
    let k1 := k.modify k.currentPid fun p => { p with state := .blocked }
    let k2 : Kernel := { k1 with currentPid := next }
    let k3 := k2.modify next fun p => { p with state := .running }
    have h1 : StateEdit k k1 := StateEdit.modify k _ _
      (fun he => absurd he (by rw [h.current]; exact h.live)) (.inl rfl) ⟨rfl, rfl, rfl, rfl, rfl⟩
    have hs1 : (k1.table next).state ≠ .empty := modify_live nofun hs
    have h3 : StateEdit k2 k3 := StateEdit.modify k2 next _ (fun he => absurd he hs1) (.inl rfl)
      ⟨rfl, rfl, rfl, rfl, rfl⟩
    refine .switches .plain next { k3 with tssRsp0 := (k3.table next).rsp0 }
      (((h1.trans (StateEdit.setCurrent k1 next k1.tssRsp0 _)).trans h3).trans
        (StateEdit.setCurrent k3 k3.currentPid _ _)) rfl hlt ?_ ?_ (fun hx => absurd hx (by decide))
      (fun hx => absurd hx false_ne_true) (fun _ hx => absurd hx (by decide))
    · rw [modify_table_self]
      exact nofun
    · simp only [Call.run, processSwitchTo, hcur, hn]
      rfl

/-! #### Exit -/

theorem parentIdx_lt (p : ℤ) : parentIdx p < maxProc := by
  rw [parentIdx, maxProc]
  split <;> omega

theorem procWakeParent_edit (k : Kernel) (pid : ℤ) : StateEdit k (procWakeParent k pid) ∧
    (procWakeParent k pid).currentPid = k.currentPid ∧
    ∀ i, (k.table i).state ≠ .empty → ((procWakeParent k pid).table i).state ≠ .empty := by
  unfold procWakeParent
  split
  · exact ⟨StateEdit.refl k, rfl, fun _ hs => hs⟩
  next i hi =>
  have hb : (k.table i).state = .blocked := by
    have := (findIdx_some hi).2
    simp only [and_eq_true, beq_iff_eq] at this
    exact this.1
  refine ⟨StateEdit.modify k i _ (fun he => ?_) (.inl rfl) ⟨rfl, rfl, rfl, rfl, rfl⟩, rfl,
    fun j hj => modify_live nofun hj⟩
  rw [hb] at he
  cases he

theorem processExitCurrent_switches (h : Indexed k) (code : ℤ)
    (hf : (k.table (exitSlot k)).state ≠ .empty) :
    ∃ k1, StateEdit k k1 ∧ k1.currentPid = exitSlot k ∧ (k1.table (exitSlot k)).state ≠ .empty ∧
      processExitCurrent k code = contextSwitch k1 k.running (exitSlot k) := by
  let k1 := k.modify k.running fun p => { p with exitCode := code, state := .zombie }
  let k2 := procWakeParent k1 (k1.table k.running).pid
  have h1 : StateEdit k k1 := StateEdit.modify k _ _ (fun he => absurd he h.live) (.inl rfl)
    ⟨rfl, rfl, rfl, rfl, rfl⟩
  obtain ⟨h2, -, hk2⟩ := procWakeParent_edit k1 (k1.table k.running).pid
  have hpar : parentIdx (k2.table k.running).parentPid = exitSlot k := by
    rw [h2.parentPid, h1.parentPid]
    rfl
  let k3 := k2.modify (exitSlot k) fun p => { p with
    state := if p.state = .blocked then .ready else p.state }
  have h3 : StateEdit k2 k3 := StateEdit.modify k2 _ _ (fun he => by simp [he]) (.inl rfl)
    ⟨rfl, rfl, rfl, rfl, rfl⟩
  refine ⟨{ k3 with currentPid := exitSlot k, tssRsp0 := (k3.table (exitSlot k)).rsp0 },
    ((h1.trans h2).trans h3).trans (StateEdit.setCurrent k3 _ _ _), rfl, ?_, ?_⟩
  · have hs2 : (k2.table (exitSlot k)).state ≠ .empty := hk2 _ (modify_live nofun hf)
    rw [modify_table_self]
    split
    · exact nofun
    · exact hs2
  · unfold processExitCurrent
    rw [h.processCurrent_eq]
    change (let n := parentIdx (k2.table k.running).parentPid
      contextSwitch { k2.modify n _ with currentPid := n, tssRsp0 := _ } k.running n) = _
    rw [hpar]

theorem outcome_exit (h : Indexed k) (hf : (Call.exit code).Fits k) :
    Outcome k (.exit code) := by
  obtain ⟨k1, he, hc, hl, hr⟩ := processExitCurrent_switches h code hf
  exact .switches .plain (exitSlot k) k1 he hc (parentIdx_lt _) hl (congrArg (Prod.mk true) hr)
    (fun hx => absurd hx (by decide)) (fun hx => absurd hx false_ne_true)
    (fun _ hx => absurd hx (by decide))

/-- `exit_group` leaves the caller alive. -/
theorem killSiblings_edit (k : Kernel) (me : ℕ) : StateEdit k (killSiblings k me) ∧
    (killSiblings k me).currentPid = k.currentPid ∧
    (killSiblings k me).table me = k.table me := by
  have hall : ∀ i, (killSiblings k me).table i = k.table i ∨
      (killSiblings k me).table i = { k.table i with state := .empty } := by
    intro i
    simp only [killSiblings]
    split
    · exact .inr rfl
    · exact .inl rfl
  refine ⟨⟨rfl, rfl, rfl, rfl, rfl, rfl, rfl, ?_, ?_, ?_, ?_, ?_, ?_, ?_⟩, rfl,
    by simp [killSiblings]⟩ <;> intro i <;> rcases hall i with he | he <;> rw [he]
  · exact .inl rfl
  · exact .inl rfl
  · exact id
  · exact fun _ => rfl

theorem Indexed.edit {k' : Kernel} (h : Indexed k) (he : StateEdit k k')
    (hc : k'.currentPid = k.currentPid) (hl : (k'.table k.running).state ≠ .empty) :
    Indexed k' where
  pid i hi hs := by
    rw [he.pid i]
    exact h.pid i hi fun hd => hs (he.dead i hd)
  free i hi hn := he.dead i (h.free i hi (by rwa [← he.nextPid]))
  current := by rw [hc, he.running, h.current]
  lt := by rw [he.running]; exact h.lt
  live := by rw [he.running]; exact hl

theorem outcome_exitGroup (h : Indexed k) (hf : (Call.exitGroup code).Fits k) :
    Outcome k (.exitGroup code) := by
  obtain ⟨hk, hc, hme⟩ := killSiblings_edit k k.running
  have h' : Indexed (killSiblings k k.running) := h.edit hk hc (by rw [hme]; exact h.live)
  have hslot : exitSlot (killSiblings k k.running) = exitSlot k := by
    rw [exitSlot, exitSlot, hk.running, hk.parentPid]
  obtain ⟨k1, he, hc1, hl, hr⟩ := processExitCurrent_switches h' code (by rw [hslot]; exact hf)
  rw [hslot] at hc1 hl hr
  refine .switches .plain (exitSlot k) k1 (hk.trans he) hc1 (parentIdx_lt _) hl ?_
    (fun hx => absurd hx (by decide)) (fun hx => absurd hx false_ne_true)
    (fun _ hx => absurd hx (by decide))
  simp only [Call.run, sysExitGroup, h.processCurrent_eq]
  exact congrArg (Prod.mk true) hr

theorem outcome_threadExit (h : Indexed k) (code : ℤ) : Outcome k (.threadExit code) := by
  let k1 := k.modify k.running fun p => { p with exitCode := code, state := .empty }
  have h1 : StateEdit k k1 := StateEdit.modify k _ _ (fun _ => rfl) (.inl rfl)
    ⟨rfl, rfl, rfl, rfl, rfl⟩
  have hgone : (k1.table k.running).state = .empty := by
    rw [modify_table_self]
  have hrun : Call.run k (.threadExit code) = ((scheduleTarget k1).isSome, Process.schedule k1) := by
    simp only [Call.run, procThreadExit, h.processCurrent_eq]
    rfl
  cases ht : scheduleTarget k1 with
  | none =>
    rw [ht, schedule_none ht] at hrun
    refine .edits ?_ ?_ (fun hx => ?_)
    · rw [hrun]; exact h1
    · rw [hrun]; rfl
    · rw [hrun] at hx
      cases hx
  | some next =>
    obtain ⟨sw, k2, he, hc, hl, hs, hsw⟩ := schedule_switches (k := k1) h.current ht
    rw [ht, hs] at hrun
    refine .switches sw next k2 (h1.trans he) hc (scheduleTarget_some ht).1 hl hrun (fun hx => ?_)
      (fun hx => absurd hx false_ne_true) (fun _ _ => he.dead _ hgone)
    obtain ⟨hg, hu⟩ := hsw.mp hx
    exact ⟨hg, (h1.isUser _).symm.trans hu⟩

/-! #### Creation -/

theorem storeWords_eq (ws : List ℕ) (a : ℕ) (k : Kernel) :
    ∃ m, storeWords a ws k = { k with mem := m } := by
  induction ws generalizing a k with
  | nil => exact ⟨k.mem, rfl⟩
  | cons v ws ih =>
    obtain ⟨m, hm⟩ := ih (a + 8) { k with toCpu := k.poke a v }
    exact ⟨m, hm⟩

/-- A new PCB in `slot` in a state that differs from `k` in memory and in `pcb_count`. -/
theorem Creates.mk_modify {k1 : Kernel} {n : ℕ} {f : Pcb → Pcb} (m : ℕ → ℕ) (c : ℕ)
    (hk : k1 = { k with mem := m, pcbCount := c }) (hp : (f (k.table slot)).pid = k.nextPid)
    (hs : (f (k.table slot)).state = .ready)
    (hi : (f (k.table slot)).inKern = (k.table slot).inKern ∨ (f (k.table slot)).inKern = false) :
    Creates k slot { k1.modify slot f with pcbCount := n, nextPid := k1.nextPid + 1 } := by
  subst hk
  refine ⟨rfl, rfl, rfl, rfl, rfl, rfl, rfl, rfl,
    fun i hi => update_of_ne hi _ _, ?_, ?_, ?_⟩ <;>
  simpa only [Kernel.modify, update_self]

theorem findEmpty_lt (h : findEmpty k = some slot) : slot < maxProc := (findIdx_some h).1

/-- `process_create_user` uses up a slot at most, or makes a process there. -/
theorem createUser_cases (k : Kernel) (entry userTop : ℕ) (kstack : Option ℕ) :
    (∃ c, (processCreateUser k entry userTop kstack).2 = { k with pcbCount := c }) ∨
      0 ≤ (processCreateUser k entry userTop kstack).1 ∧ k.pcbCount < maxProc ∧
        Creates k k.pcbCount (processCreateUser k entry userTop kstack).2 := by
  by_cases hfull : maxProc ≤ k.pcbCount
  · exact .inl ⟨k.pcbCount, by simp only [processCreateUser, if_pos hfull]⟩
  cases kstack with
  | none => exact .inl ⟨k.pcbCount + 1, by simp only [processCreateUser, if_neg hfull]⟩
  | some ks =>
    obtain ⟨m, hm⟩ := storeWords_eq (firstFrame entry userTop) (ks + stackSize - 160)
      { k with pcbCount := k.pcbCount + 1 }
    simp only [processCreateUser, if_neg hfull, hm]
    exact .inr ⟨natCast_nonneg _, Nat.lt_of_not_le hfull,
      Creates.mk_modify m (k.pcbCount + 1) rfl rfl rfl (.inl rfl)⟩

/-- A call that fails and does nothing, or makes a process in the first empty slot. -/
def Makes (k : Kernel) (r : ℤ × Kernel) : Prop :=
  r.1 < 0 ∧ r.2 = k ∨ ∃ slot, findEmpty k = some slot ∧ 0 ≤ r.1 ∧ Creates k slot r.2

theorem makes_spawn (k : Kernel) (entry userTop : ℕ) (kstack pml4 : Option ℕ) :
    Makes k (procSpawn k entry userTop kstack pml4) := by
  unfold procSpawn
  split
  · next slot ks p4 hs =>
    obtain ⟨m, hm⟩ := storeWords_eq (firstFrame entry userTop) (ks + stackSize - 160) k
    dsimp only
    rw [hm]
    exact .inr ⟨slot, hs, natCast_nonneg _,
      Creates.mk_modify m k.pcbCount rfl rfl rfl (.inl rfl)⟩
  · exact .inl ⟨negSucc_lt_zero _, rfl⟩

theorem makes_fork (k : Kernel) (kframe : ℕ) (kstack pml4 : Option ℕ) :
    Makes k (procFork k kframe kstack pml4) := by
  unfold procFork
  split
  · next par slot ks p4 hp hs =>
    exact .inr ⟨slot, hs, natCast_nonneg _,
      Creates.mk_modify _ k.pcbCount rfl rfl rfl (.inl rfl)⟩
  · exact .inl ⟨negSucc_lt_zero _, rfl⟩

theorem makes_clone (k : Kernel) (flags newsp ctid tls kframe : ℕ) (kstack : Option ℕ) :
    Makes k (procCloneThread k flags newsp ctid tls kframe kstack) := by
  unfold procCloneThread
  split
  · exact .inl ⟨negSucc_lt_zero _, rfl⟩
  split
  · exact .inl ⟨negSucc_lt_zero _, rfl⟩
  split
  · next slot ks hs =>
    exact .inr ⟨slot, hs, natCast_nonneg _,
      Creates.mk_modify _ k.pcbCount rfl rfl rfl (.inr rfl)⟩
  · exact .inl ⟨negSucc_lt_zero _, rfl⟩

theorem outcome_createUser (h : Indexed k) {entry userTop : ℕ} {kstack : Option ℕ}
    (hf : (Call.createUser entry userTop kstack).Fits k) :
    Outcome k (.createUser entry userTop kstack) := by
  rcases createUser_cases k entry userTop kstack with ⟨c, hr⟩ | ⟨h0, hlt, hc⟩
  · refine .edits ?_ (by rw [Call.run, hr]) (fun _ => ?_)
    · rw [Call.run, hr]
      exact StateEdit.setCurrent k k.currentPid k.tssRsp0 c
    · rw [Call.run, hr]
      exact h.live
  · have hslot : k.pcbCount = k.nextPid := hf h0
    rw [hslot] at hc hlt
    exact .creates hc hlt rfl

theorem Makes.outcome {r : ℤ × Kernel} (hm : Makes k r) (h : Indexed k)
    (hr : c.run k = (true, r.2)) (hf : 0 ≤ r.1 → findEmpty k = some k.nextPid) : Outcome k c := by
  rcases hm with ⟨-, he⟩ | ⟨slot, hs, h0, hc⟩
  · exact outcome_same h (by rw [hr, he])
  · obtain rfl : slot = k.nextPid := Option.some.inj (hs.symm.trans (hf h0))
    exact .creates (by rw [hr]; exact hc) (findEmpty_lt hs) (by rw [hr])

/-- **Every call that fits creates a process, edits states, or edits states and switches.** -/
theorem outcome (h : Indexed k) (hf : c.Fits k) : Outcome k c := by
  cases c with
  | createUser entry userTop kstack => exact outcome_createUser h hf
  | spawn => exact (makes_spawn ..).outcome h rfl hf
  | fork => exact (makes_fork ..).outcome h rfl hf
  | clone => exact (makes_clone ..).outcome h rfl hf
  | switchTo pid => exact outcome_switchTo h pid
  | schedule => exact outcome_schedule h rfl rfl
  | exit code => exact outcome_exit h hf
  | exitGroup code => exact outcome_exitGroup h hf
  | threadExit code => exact outcome_threadExit h code
  | waitpid pid => exact outcome_waitpid h hf

end Outcomes

/-! ### Runs -/

namespace Indexed

variable {k k' : Kernel}

theorem creates (h : Indexed k) (hc : Creates k k.nextPid k') (hlt : k.nextPid < maxProc) :
    Indexed k' := by
  have hne : k.running ≠ k.nextPid := fun he =>
    h.live (by rw [he]; exact h.free _ hlt le_rfl)
  refine ⟨fun i hi hs => ?_, fun i hi hn => ?_, ?_, by rw [hc.running]; exact h.lt, ?_⟩
  · by_cases hx : i = k.nextPid
    · rw [hx, hc.pid]
    · rw [hc.rest i hx] at hs ⊢
      exact h.pid i hi hs
  · rw [hc.nextPid] at hn
    rw [hc.rest i (by omega)]
    exact h.free i hi (by omega)
  · rw [hc.currentPid, hc.running, h.current]
  · rw [hc.running, hc.rest _ hne]
    exact h.live

theorem switches (h : Indexed k) (he : StateEdit k k') {sw : Routine} (hc : k'.currentPid = next)
    (hlt : next < maxProc) (hl : (k'.table next).state ≠ .empty) :
    Indexed (sw.switch k' k.running next) := by
  have hs := sw.switched k' k.running next
  have hp : ∀ i, (k'.table i).SameProc ((sw.switch k' k.running next).table i) := by
    intro i
    have hsave := sw.save_sameProc k' k.running i
    rw [hs.table]
    by_cases hx : i = next
    · subst hx
      rw [update_self]
      exact ⟨hsave.pid, hsave.state, hsave.isUser, hsave.rsp0, hsave.parentPid⟩
    · rwa [update_of_ne hx]
  refine ⟨fun i hi hst => ?_, fun i hi hn => ?_, ?_, by rw [hs.running]; exact hlt, ?_⟩
  · rw [(hp i).pid, he.pid]
    rw [(hp i).state] at hst
    exact h.pid i hi fun hd => hst (he.dead i hd)
  · rw [(hp i).state]
    rw [hs.vars.nextPid, he.nextPid] at hn
    exact he.dead i (h.free i hi hn)
  · rw [hs.vars.currentPid, hs.running, hc]
  · rw [hs.running, (hp next).state]
    exact hl

/-- **A call that fits keeps the invariant**, unless the processor halts for good. -/
theorem call (h : Indexed k) (hf : c.Fits k) (hr : (c.run k).1) :
    Indexed (c.run k).2 := by
  cases outcome h hf with
  | creates hc hlt _ => exact h.creates hc hlt
  | edits he hc hl => exact h.edit he hc (hl hr)
  | switches sw next k1 he hc hlt hl hrun _ _ _ =>
    rw [hrun]
    exact h.switches he hc hlt hl

theorem init (k : Kernel) (kstack idleEntry : ℕ) : Indexed (processInit k kstack idleEntry) := by
  have ht : ∀ i, (processInit k kstack idleEntry).table i =
      if i = 0 then idlePcb kstack k.cr3 else emptyPcb := by
    intro i
    simp only [processInit, update_apply]
  refine ⟨fun i _ hs => ?_, fun i _ hn => ?_, rfl, show 0 < maxProc by decide, ?_⟩
  · rw [ht] at hs ⊢
    split at hs
    · next hx => rw [if_pos hx, hx]; rfl
    · exact absurd rfl hs
  · have h1 : 1 ≤ i := hn
    rw [ht, if_neg (by omega)]
    rfl
  · rw [show (processInit k kstack idleEntry).running = 0 from rfl, ht, if_pos rfl]
    exact nofun

theorem reached {k : Kernel} (h : Reached (fun k c => c.Fits k) true k) : Indexed k := by
  generalize hb : true = b at h
  induction h with
  | init k kstack idleEntry => exact Indexed.init k kstack idleEntry
  | other _ ho ih => exact (ih rfl).other ho
  | call c _ hf ih => exact (ih rfl).call hf hb.symm

end Indexed

/-- **`process_current()` is the process that runs**, in every state of a run whose calls fit. -/
theorem current_of_reached {k : Kernel} (h : Reached (fun k c => c.Fits k) true k) :
    processCurrent k = some k.running :=
  (Indexed.reached h).processCurrent_eq

/-! ### A slot used twice -/

/-- Calls one after the other, as long as the processor does not halt. -/
def runCalls (k : Kernel) : List Call → Kernel
  | [] => k
  | c :: cs => runCalls (c.run k).2 cs

/-- No call of the list halts the processor, and each meets `ok`. -/
def Runs (ok : Kernel → Call → Prop) (k : Kernel) : List Call → Prop
  | [] => True
  | c :: cs => ok k c ∧ (c.run k).1 = true ∧ Runs ok (c.run k).2 cs

instance Runs.decide (ok : Kernel → Call → Prop) [∀ k c, Decidable (ok k c)] (k : Kernel) :
    ∀ cs, Decidable (Runs ok k cs)
  | [] => .isTrue trivial
  | c :: cs =>
    have := Runs.decide ok (c.run k).2 cs
    inferInstanceAs (Decidable (_ ∧ _ ∧ _))

theorem Reached.runCalls {ok : Kernel → Call → Prop} {k : Kernel} (cs : List Call)
    (h : Reached ok true k) (hr : Runs ok k cs) : Reached ok true (runCalls k cs) := by
  induction cs generalizing k with
  | nil => exact h
  | cons c cs ih =>
    obtain ⟨hok, ht, hcs⟩ := hr
    exact ih (ht ▸ Reached.call c h hok) hcs

/-- A processor on which nothing has run. -/
def blank : Kernel where
  reg _ := 0
  sp := 0x9000
  mem _ := 0
  rip := 0
  rflags := 0
  ring3 := false
  cr3 := 0x1000
  fsBase := 0
  tssRsp0 := 0
  currentRsp0 := 0
  gInSyscall := false
  table _ := emptyPcb
  currentPid := 0
  nextPid := 0
  pcbCount := 0
  running := 0

/-- `proc_spawn` of a program, and the switch to it. -/
def spawnFirst : List Call :=
  [.spawn 0x400000 0x800000 (some 0x20000) (some 0x30000), .schedule]

/-- The program forks, waits for the child, and forks again: the second child gets the slot 2 of
the first and the pid 3. -/
def forkTwice : List Call :=
  [.fork 0x21f60 (some 0x40000) (some 0x50000), .schedule, .exit 0, .waitpid 2,
    .fork 0x21f60 (some 0x60000) (some 0x70000), .schedule]

theorem current_of_reached_spawned :
    processCurrent (runCalls (processInit blank 0x10000 0x100) spawnFirst) = some 1 :=
  current_of_reached (Reached.runCalls _ (.init _ _ _) (by decide +kernel))

/-- **With the second child switched to, `process_current()` is null.** -/
theorem fork_wait_fork : ∃ k, Reached (fun _ _ => True) true k ∧ k.running = 2 ∧
    (k.table 2).state = .running ∧ processCurrent k = none := by
  refine ⟨_, Reached.runCalls (spawnFirst ++ forkTwice) (.init blank 0x10000 0x100) ?_, ?_⟩
  · decide +kernel
  · decide +kernel

end TipOS.Process
