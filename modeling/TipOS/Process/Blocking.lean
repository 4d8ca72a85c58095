import TipOS.Process.Current

/-!
# Processes blocked inside a system call

The calls of `Process.Current` together with the ways in and out of the kernel.  `waitpid`,
`read` on a pipe and `futex` wait in loops around `schedule()`, and which of the two switches
`schedule` takes depends on the flag `g_in_syscall`, which every system call sets at its
start and clears at its end.

`waiting` and `entry` record what the process itself saw: the stack pointer with which it called
`schedule()`, and RSP and FS.base of its system call.  `Inv` ties the flag to the processor
being in ring 0.

RSP of the user is kept in `current_rsp0` only, which both switches overwrite, and FS.base is
left alone by `.restore_in_kern`.  `resumed_return_iff` says when the process nevertheless
returns with the two values it came with.

System calls that do not wait are one step, and what they do to the memory, to the registers and
to FS.base and the page tables of the process is arbitrary.
-/

namespace TipOS.Process

open Function Lib Routine Kernel

/-! ### `int 0x80` -/

/-- The five words of the processor on the stack of the TSS, and the registers. -/
def intCpu (k : Kernel) : Cpu Reg ℕ :=
  let c : Cpu Reg ℕ := { reg := k.reg, sp := k.tssRsp0 - 40, mem := k.mem }
  Cpu.pushAll 8 pushOrder
    (((((c.poke c.sp k.rip).poke (c.sp + 8) 0x1B).poke (c.sp + 16) k.rflags).poke
      (c.sp + 24) k.sp).poke (c.sp + 32) 0x23)

/-- `syscall_isr` up to the call of the handler. -/
def intEntry (k : Kernel) : Kernel :=
  { k with
    toCpu := { intCpu k with reg := update (intCpu k).reg .rdi (intCpu k).sp }
    ring3 := false }

/-- `syscall_isr` after the handler. -/
def intExit (k : Kernel) (frame : ℕ) : Kernel :=
  Kernel.iretq { k with toCpu := Cpu.popAll 8 pushOrder.reverse { k.toCpu with sp := frame } }

/-! ### Events -/

/-- A system call that has not returned. -/
structure Entry where
  /-- By `syscall`, and otherwise by `int 0x80`. -/
  fast : Bool
  rsp : ℕ
  fsBase : ℕ
  /-- FS.base before the call that last resumed the process inside it. -/
  resumed : Option ℕ

structure Sys where
  k : Kernel
  /-- RSP of a user process that was switched out in `schedule()`. -/
  waiting : ℕ → Option ℕ
  entry : ℕ → Option Entry

inductive Event
  /-- Code that neither enters nor leaves the kernel. -/
  | code (f : Cpu Reg ℕ → Cpu Reg ℕ) (rip rflags : ℕ)
  /-- A whole system call of the running process that does not wait. -/
  | own (f : Cpu Reg ℕ → Cpu Reg ℕ) (rip rflags fsBase pcbFsBase pml4 : ℕ)
  | enter (fast : Bool)
  | leave (fast : Bool) (frame : ℕ)
  | call (c : Call)

def Event.Enabled (s : Sys) : Event → Prop
  | .code _ _ _ => True
  | .own _ _ _ _ _ _ | .enter _ => s.k.ring3 = true
  | .leave _ _ => s.k.ring3 = false ∧ (s.k.table s.k.running).isUser = true
  | .call c => s.k.ring3 = false ∧ (c.run s.k).1 = true

instance (s : Sys) (e : Event) : Decidable (e.Enabled s) := by
  cases e <;> unfold Event.Enabled <;> infer_instance

/-- A process switched out in a waiting loop waits until it runs again or its slot is emptied. -/
def waitingAfter (s : Sys) (c : Call) (k' : Kernel) (i : ℕ) : Option ℕ :=
  if i = k'.running ∨ (k'.table i).state = .empty then none
  else if i = s.k.running ∧ c.waits = true ∧ (s.k.table i).isUser = true then some s.k.sp
  else s.waiting i

/-- A system call ends when its process is switched out anywhere else. -/
def entryAfter (s : Sys) (c : Call) (k' : Kernel) (i : ℕ) : Option Entry :=
  if (k'.table i).state = .empty ∨ i = s.k.running ∧ i ≠ k'.running ∧ c.waits = false then none
  else if i = k'.running ∧ i ≠ s.k.running then
    (s.entry i).map fun e => { e with resumed := some s.k.fsBase }
  else s.entry i

def Event.run (s : Sys) : Event → Sys
  | .code f rip rflags =>
    { s with k := { s.k with toCpu := f s.k.toCpu, rip := rip, rflags := rflags } }
  | .own f rip rflags fsBase pcbFsBase pml4 =>
    { s with k := { s.k.modify s.k.running fun p => { p with
        fsBase := pcbFsBase, pml4 := pml4 } with
          toCpu := f s.k.toCpu, rip := rip, rflags := rflags, fsBase := fsBase, cr3 := pml4,
          gInSyscall := false } }
  | .enter fast =>
    { s with
      k := { (if fast then syscallEntry s.k else intEntry s.k) with gInSyscall := true }
      entry := update s.entry s.k.running (some
        { fast := fast, rsp := s.k.sp, fsBase := s.k.fsBase, resumed := none }) }
  | .leave fast frame =>
    { s with
      k := { (if fast then syscallExit s.k frame else intExit s.k frame) with gInSyscall := false }
      entry := update s.entry s.k.running none }
  | .call c =>
    { k := (c.run s.k).2
      waiting := waitingAfter s c (c.run s.k).2
      entry := entryAfter s c (c.run s.k).2 }

/-- The condition `ok` on an event, which is one on the calls. -/
def Event.Meets (ok : Kernel → Call → Prop) (s : Sys) : Event → Prop
  | .call c => ok s.k c
  | _ => True

instance (ok : Kernel → Call → Prop) [∀ k c, Decidable (ok k c)] (s : Sys) (e : Event) :
    Decidable (e.Meets ok s) := by
  cases e <;> unfold Event.Meets <;> infer_instance

/-- The states of runs from `process_init` in which every call of a function of `process.c`
meets `ok`. -/
inductive Sys.Reached (ok : Kernel → Call → Prop) : Sys → Prop
  | init (k : Kernel) (kstack idleEntry : ℕ) :
      Sys.Reached ok ⟨processInit k kstack idleEntry, fun _ => none, fun _ => none⟩
  | step {s : Sys} (e : Event) : Sys.Reached ok s → e.Enabled s → e.Meets ok s →
      Sys.Reached ok (e.run s)

/-! ### The invariant -/

/-- The flag is set in ring 0 whenever a user process runs or one is blocked; who waits is saved;
and a system call that is open is that of the running process or of one that waits. -/
structure Inv (s : Sys) : Prop where
  idx : Indexed s.k
  ring : s.k.ring3 = true → (s.k.table s.k.running).isUser = true
  user : s.k.ring3 = false → (s.k.table s.k.running).isUser = true → s.k.gInSyscall = true
  kern : s.k.ring3 = false → ∀ i, (s.k.table i).inKern = true → s.k.gInSyscall = true
  waiting : ∀ i R, s.waiting i = some R → i ≠ s.k.running ∧ (s.k.table i).state ≠ .empty ∧
    (s.k.table i).kernelRsp = R ∧ (s.k.table i).inKern = true
  entry : ∀ i e, s.entry i = some e → (s.k.table i).isUser = true ∧
    (i ≠ s.k.running → ∃ R, s.waiting i = some R)
  resumed : ∀ e f, s.k.ring3 = false → s.entry s.k.running = some e → e.resumed = some f →
    s.k.currentRsp0 = (s.k.table s.k.running).rsp0 ∧ s.k.fsBase = f

theorem Inv.entry_live (h : Inv s) {i : ℕ} {e : Entry} (he : s.entry i = some e) :
    (s.k.table i).state ≠ .empty := by
  by_cases hi : i = s.k.running
  · rw [hi]; exact h.idx.live
  · obtain ⟨R, hR⟩ := (h.entry i e he).2 hi
    exact (h.waiting i R hR).2.1

/-- What an event that is not a call leaves alone. -/
structure Quiet (k k' : Kernel) : Prop extends Other k k' where
  isUser : ∀ i, (k'.table i).isUser = (k.table i).isUser
  rsp0 : ∀ i, (k'.table i).rsp0 = (k.table i).rsp0
  kernelRsp : ∀ i, (k'.table i).kernelRsp = (k.table i).kernelRsp
  inKern : ∀ i, (k'.table i).inKern = (k.table i).inKern

theorem Quiet.of_table {k k' : Kernel} (ht : k'.table = k.table)
    (hc : k'.currentPid = k.currentPid) (hn : k'.nextPid = k.nextPid)
    (hp : k'.pcbCount = k.pcbCount) (hr : k'.running = k.running) : Quiet k k' where
  pid i := by rw [ht]
  state i := by rw [ht]
  parentPid i := by rw [ht]
  currentPid := hc
  nextPid := hn
  pcbCount := hp
  running := hr
  isUser i := by rw [ht]
  rsp0 i := by rw [ht]
  kernelRsp i := by rw [ht]
  inKern i := by rw [ht]

theorem Quiet.modify (k : Kernel) (i : ℕ) (fsBase pml4 : ℕ) :
    Quiet k (k.modify i fun p => { p with fsBase := fsBase, pml4 := pml4 }) := by
  have hall : ∀ j, (k.modify i fun p => { p with fsBase := fsBase, pml4 := pml4 }).table j =
      k.table j ∨ (k.modify i fun p => { p with fsBase := fsBase, pml4 := pml4 }).table j =
        { k.table j with fsBase := fsBase, pml4 := pml4 } := by
    intro j
    by_cases hj : j = i
    · subst hj
      exact .inr (modify_table_self _ _ _)
    · exact .inl (modify_table_of_ne hj)
  constructor
  · constructor <;> first | rfl | (intro j; rcases hall j with hj | hj <;> rw [hj])
  all_goals (intro j; rcases hall j with hj | hj <;> rw [hj])

theorem Inv.quiet (h : Inv s) (k' : Kernel) (hq : Quiet s.k k')
    (hring : k'.ring3 → (s.k.table s.k.running).isUser)
    (hg : k'.ring3 = false → k'.gInSyscall ∨
      s.k.ring3 = false ∧ k'.gInSyscall = s.k.gInSyscall)
    (entry : ℕ → Option Entry)
    (hent : ∀ i e, entry i = some e → (∃ e', s.entry i = some e') ∨
      i = s.k.running ∧ (s.k.table i).isUser)
    (hres : ∀ e f, k'.ring3 = false → entry s.k.running = some e → e.resumed = some f →
      k'.currentRsp0 = (s.k.table s.k.running).rsp0 ∧ k'.fsBase = f) :
    Inv { s with k := k', entry := entry } where
  idx := h.idx.other hq.toOther
  ring hr := by
    rw [hq.running, hq.isUser]
    exact hring hr
  user hr hu := by
    rcases hg hr with hg | ⟨h0, hg⟩
    · exact hg
    · refine hg.trans (h.user h0 ?_)
      rwa [← hq.isUser, ← hq.running]
  kern hr i hi := by
    rcases hg hr with hg | ⟨h0, hg⟩
    · exact hg
    · refine hg.trans (h.kern h0 i ?_)
      rwa [← hq.inKern]
  waiting i R hw := by
    rw [hq.running, hq.state, hq.kernelRsp, hq.inKern]
    exact h.waiting i R hw
  entry i e he := by
    rw [hq.running, hq.isUser]
    rcases hent i e he with ⟨e', he'⟩ | ⟨hi, hu⟩
    · exact h.entry i e' he'
    · exact ⟨hu, fun hne => absurd hi hne⟩
  resumed e f hr he hf := by
    rw [hq.rsp0, hq.running]
    refine hres e f hr ?_ hf
    rw [← hq.running]
    exact he

theorem Inv.init (k : Kernel) (kstack idleEntry : ℕ) :
    Inv ⟨processInit k kstack idleEntry, fun _ => none, fun _ => none⟩ where
  idx := Indexed.init k kstack idleEntry
  ring h := absurd h Bool.false_ne_true
  user _ h := absurd h Bool.false_ne_true
  kern _ i hi := by
    have hf : ((processInit k kstack idleEntry).table i).inKern = false := by
      simp only [processInit, update_apply]
      split <;> rfl
    cases hf.symm.trans hi
  waiting _ _ h := absurd h nofun
  entry _ _ h := absurd h nofun
  resumed _ _ _ h := absurd h nofun

/-! ### Entering and leaving -/

theorem Inv.code (h : Inv s) (f : Cpu Reg ℕ → Cpu Reg ℕ) (rip rflags : ℕ) :
    Inv ((Event.code f rip rflags).run s) :=
  h.quiet { s.k with toCpu := f s.k.toCpu, rip := rip, rflags := rflags }
    (.of_table rfl rfl rfl rfl rfl) h.ring (fun h0 => .inr ⟨h0, rfl⟩) s.entry (fun _ e he => .inl ⟨e, he⟩) h.resumed

theorem Inv.own (h : Inv s) (f : Cpu Reg ℕ → Cpu Reg ℕ)
    (rip rflags fsBase pcbFsBase pml4 : ℕ) (hr : s.k.ring3) :
    Inv ((Event.own f rip rflags fsBase pcbFsBase pml4).run s) := by
  have hq := Quiet.modify s.k s.k.running pcbFsBase pml4
  have h3 : ∀ {P : Prop}, s.k.ring3 = false → P := fun h0 =>
    absurd (h0.symm.trans hr) Bool.false_ne_true
  exact h.quiet ((Event.own f rip rflags fsBase pcbFsBase pml4).run s).k
    ⟨⟨hq.pid, hq.state, hq.parentPid, rfl, rfl, rfl, rfl⟩, hq.isUser, hq.rsp0,
      hq.kernelRsp, hq.inKern⟩ h.ring h3 s.entry (fun _ e he => .inl ⟨e, he⟩) fun _ _ h0 => h3 h0

theorem Inv.enter (h : Inv s) (fast : Bool) (hr : s.k.ring3) :
    Inv ((Event.enter fast).run s) := by
  have h0 : (if fast then syscallEntry s.k else intEntry s.k).ring3 = false := by
    cases fast <;> rfl
  refine h.quiet { (if fast then syscallEntry s.k else intEntry s.k) with
    gInSyscall := true } ?_ (fun h3 => absurd (h0.symm.trans h3) Bool.false_ne_true)
    (fun _ => .inl rfl) _ (fun i e he => ?_) (fun e f _ he hf => ?_)
  · cases fast <;> exact .of_table rfl rfl rfl rfl rfl
  · by_cases hi : i = s.k.running
    · exact .inr ⟨hi, hi ▸ h.ring hr⟩
    · rw [update_of_ne hi] at he
      exact .inl ⟨e, he⟩
  · -- a new system call has not been resumed
    rw [update_self] at he
    cases he
    cases hf

theorem Inv.leave (h : Inv s) (fast : Bool) (frame : ℕ)
    (hu : (s.k.table s.k.running).isUser) : Inv ((Event.leave fast frame).run s) := by
  set k' := if fast then syscallExit s.k frame else intExit s.k frame with hk'
  have h3 : k'.ring3 := by
    cases fast <;> rfl
  have h0 : ∀ {P : Prop}, k'.ring3 = false → P := fun h0 => absurd (h0.symm.trans h3) Bool.false_ne_true
  refine h.quiet { k' with gInSyscall := false } ?_ (fun _ => hu) h0 _ (fun i e he => ?_)
    fun _ _ hr => h0 hr
  · cases fast <;> exact .of_table rfl rfl rfl rfl rfl
  · by_cases hi : i = s.k.running
    · rw [hi, update_self] at he
      cases he
    · rw [update_of_ne hi] at he
      exact .inl ⟨e, he⟩

/-! ### Calls -/

section Calls

variable {s : Sys} {c : Call} {k' : Kernel} {i R : ℕ} {e : Entry}

theorem waitingAfter_some (h : waitingAfter s c k' i = some R) :
    i ≠ k'.running ∧ (k'.table i).state ≠ .empty ∧
      (i = s.k.running ∧ c.waits ∧ (s.k.table i).isUser ∧ s.k.sp = R ∨
        s.waiting i = some R) := by
  unfold waitingAfter at h
  split at h
  · cases h
  next hn =>
  rw [not_or] at hn
  split at h
  · next hw => exact ⟨hn.1, hn.2, .inl ⟨hw.1, hw.2.1, hw.2.2, Option.some.inj h⟩⟩
  · exact ⟨hn.1, hn.2, .inr h⟩

theorem entryAfter_some (h : entryAfter s c k' i = some e) :
    (k'.table i).state ≠ .empty ∧ (i = s.k.running → i ≠ k'.running → c.waits) ∧
      ∃ e', s.entry i = some e' ∧ e = if i = k'.running ∧ i ≠ s.k.running then
        { e' with resumed := some s.k.fsBase } else e' := by
  unfold entryAfter at h
  split at h
  · cases h
  next hn =>
  rw [not_or] at hn
  refine ⟨hn.1, fun h1 h2 => by simpa using fun hw => hn.2 ⟨h1, h2, hw⟩, ?_⟩
  split at h
  · next hsw =>
    obtain ⟨e', he', rfl⟩ := Option.map_eq_some_iff.mp h
    exact ⟨e', he', (if_pos hsw).symm⟩
  · next hsw => exact ⟨e, h, (if_neg hsw).symm⟩

theorem waitingAfter_of_waiting (hi : i ≠ k'.running) (hs : (k'.table i).state ≠ .empty)
    (hw : s.waiting i = some R) : ∃ R, waitingAfter s c k' i = some R := by
  unfold waitingAfter
  rw [if_neg (by simp [hi, hs])]
  split
  · exact ⟨_, rfl⟩
  · exact ⟨R, hw⟩

theorem Inv.stay (h : Inv s) (hidx : Indexed k') (hrun : k'.running = s.k.running)
    (hring : k'.ring3 = s.k.ring3) (hg : k'.gInSyscall = s.k.gInSyscall)
    (hrsp : k'.currentRsp0 = s.k.currentRsp0) (hfs : k'.fsBase = s.k.fsBase)
    (hkern : ∀ i, (k'.table i).inKern → (s.k.table i).inKern)
    (htab : ∀ i, (s.k.table i).state ≠ .empty →
      (k'.table i).isUser = (s.k.table i).isUser ∧ (k'.table i).rsp0 = (s.k.table i).rsp0 ∧
      (i ≠ s.k.running → (k'.table i).kernelRsp = (s.k.table i).kernelRsp ∧
        (k'.table i).inKern = (s.k.table i).inKern)) :
    Inv ⟨k', waitingAfter s c k', entryAfter s c k'⟩ where
  idx := hidx
  ring hr := by
    rw [hrun, (htab _ h.idx.live).1]
    exact h.ring (hring ▸ hr)
  user hr hu := by
    rw [hrun, (htab _ h.idx.live).1] at hu
    exact hg ▸ h.user (hring ▸ hr) hu
  kern hr i hi := by
    exact hg ▸ h.kern (hring ▸ hr) i (hkern i hi)
  waiting i R hw := by
    obtain ⟨hne, hst, ⟨hi, -⟩ | hw⟩ := waitingAfter_some hw
    · exact absurd (hi.trans hrun.symm) hne
    · obtain ⟨hi, hlive, hR, hk⟩ := h.waiting i R hw
      obtain ⟨he, hk'⟩ := (htab i hlive).2.2 hi
      exact ⟨hne, hst, he.trans hR, hk'.trans hk⟩
  entry i e he := by
    obtain ⟨hst, -, e', he', -⟩ := entryAfter_some he
    refine ⟨(htab i (h.entry_live he')).1.trans (h.entry i e' he').1, fun hne => ?_⟩
    obtain ⟨R, hR⟩ := (h.entry i e' he').2 (hrun ▸ hne)
    exact waitingAfter_of_waiting hne hst hR
  resumed e f hr he hf := by
    obtain ⟨-, -, e', he', rfl⟩ := entryAfter_some he
    have he' : s.entry k'.running = some e' := he'
    rw [if_neg fun hsw => hsw.2 hrun] at hf
    rw [hrun] at he' ⊢
    rw [(htab _ h.idx.live).2.1, hrsp, hfs]
    exact h.resumed e' f (hring ▸ hr) he' hf

theorem Inv.creates (h : Inv s) (hc : Creates s.k s.k.nextPid k') (hlt : s.k.nextPid < maxProc) :
    Inv ⟨k', waitingAfter s c k', entryAfter s c k'⟩ := by
  refine h.stay (h.idx.creates hc hlt) hc.running hc.ring3 hc.gInSyscall hc.currentRsp0 hc.fsBase
    (fun i hi => ?_) (fun i hl => ?_)
  · by_cases hx : i = s.k.nextPid
    · subst hx
      rcases hc.inKern with he | he
      · exact he ▸ hi
      · cases he.symm.trans hi
    · exact hc.rest i hx ▸ hi
  · have hx : i ≠ s.k.nextPid := fun hx => hl (hx ▸ h.idx.free _ hlt le_rfl)
    rw [hc.rest i hx]
    exact ⟨rfl, rfl, fun _ => ⟨rfl, rfl⟩⟩

theorem Inv.edits (h : Inv s) (he : StateEdit s.k k') (hcur : k'.currentPid = s.k.currentPid)
    (hl : (k'.table s.k.running).state ≠ .empty) :
    Inv ⟨k', waitingAfter s c k', entryAfter s c k'⟩ := by
  refine h.stay (h.idx.edit he hcur hl) he.running he.ring3 he.gInSyscall he.currentRsp0
    he.fsBase (fun i hi => ?_) (fun i _ => ⟨he.isUser i, he.rsp0 i, fun hne => ⟨he.kernelRsp i, ?_⟩⟩)
  · rcases he.inKern i with hk | ⟨-, hk⟩
    · exact hk ▸ hi
    · cases hk.symm.trans hi
  · exact (he.inKern i).resolve_right fun hr => hne hr.1

section Switches

variable {sw : Routine} {k₁ : Kernel} {next : ℕ}

/-- With the flag as in the invariant, who is saved with `in_kern` is saved with the flag set. -/
theorem Inv.save_inKern (h : Inv s) (h0 : s.k.ring3 = false) (he : StateEdit s.k k₁)
    (hkern : sw = .kern → s.k.gInSyscall ∧ (s.k.table s.k.running).isUser)
    (hi : ((sw.save k₁ s.k.running).table i).inKern) : s.k.gInSyscall := by
  cases sw with
  | kern => exact (hkern rfl).1
  | plain =>
    have hi1 : (k₁.table i).inKern := by
      by_cases hx : i = s.k.running
      · subst hx
        rwa [save_plain, saveUser, modify_table_self] at hi
      · rwa [save_table_of_ne _ _ _ hx] at hi
    rcases he.inKern i with hk | ⟨-, hk⟩
    · exact h.kern h0 i (hk ▸ hi1)
    · cases hk.symm.trans hi1

/-- **A process that waits is resumed after its call of `schedule()`**, whoever is switched
out. -/
theorem Inv.resume (h : Inv s) (sw : Routine) (he : StateEdit s.k k₁) (hw : s.waiting next = some R) :
    (sw.switch k₁ s.k.running next).ring3 = s.k.ring3 ∧
      (sw.switch k₁ s.k.running next).fsBase = s.k.fsBase ∧
      (sw.switch k₁ s.k.running next).sp = R + 8 ∧
      (sw.switch k₁ s.k.running next).rip = s.k.mem R := by
  obtain ⟨hne, -, hR, hk⟩ := h.waiting next R hw
  have hk1 : (k₁.table next).inKern :=
    ((he.inKern next).resolve_right fun hr => hne hr.1).trans hk
  have hsave := save_table_of_ne sw k₁ s.k.running hne
  obtain ⟨h1, h2, h3, h4⟩ := (sw.switched k₁ s.k.running next).resume (hsave ▸ hk1)
  rw [hsave, he.kernelRsp, hR] at h3 h4
  exact ⟨h1.trans he.ring3, h2.trans he.fsBase, h3, by rw [h4, he.cpu]⟩

theorem Inv.switches (h : Inv s) (h0 : s.k.ring3 = false) (he : StateEdit s.k k₁)
    (hcur : k₁.currentPid = next) (hlt : next < maxProc) (hl : (k₁.table next).state ≠ .empty)
    (hkern : sw = .kern → s.k.gInSyscall ∧ (s.k.table s.k.running).isUser)
    (hwait : c.waits → next ≠ s.k.running ∧
      (s.k.gInSyscall → (s.k.table s.k.running).isUser → sw = .kern))
    (hk' : k' = sw.switch k₁ s.k.running next) :
    Inv ⟨k', waitingAfter s c k', entryAfter s c k'⟩ := by
  have hs : Routine.Switched sw k₁ s.k.running next k' := hk' ▸ sw.switched k₁ s.k.running next
  have hrun := hs.running
  have hsave := sw.save_sameProc k₁ s.k.running
  have hg : k'.gInSyscall = s.k.gInSyscall := hs.vars.gInSyscall.trans he.gInSyscall
  have htab : ∀ i, i ≠ next → k'.table i = (sw.save k₁ s.k.running).table i := fun i hi => by
    rw [hs.table, update_of_ne hi]
  have hproc : ∀ i, (k'.table i).isUser = (s.k.table i).isUser ∧
      (k'.table i).rsp0 = (s.k.table i).rsp0 := by
    intro i
    rw [← he.isUser, ← he.rsp0, ← (hsave i).isUser, ← (hsave i).rsp0, hs.table]
    by_cases hi : i = next
    · rw [hi, update_self]
      exact ⟨rfl, rfl⟩
    · rw [update_of_ne hi]
      exact ⟨rfl, rfl⟩
  -- the routine ends in ring 3 or inside the kernel
  have hend : k'.ring3 = false → (s.k.table next).isUser →
      ((sw.save k₁ s.k.running).table next).inKern := by
    intro hr hu
    by_contra hk
    have h3 := hs.start (Bool.eq_false_iff.mpr hk)
    rw [he.isUser, hu, hr] at h3
    cases h3
  refine ⟨hk' ▸ h.idx.switches he hcur hlt hl, fun hr => ?_, fun hr hu => ?_, fun hr i hi => ?_,
    fun i R hw => ?_, fun i e hent => ?_, fun e f hr hent hf => ?_⟩
  · rw [hrun, (hproc next).1]
    rcases Bool.eq_false_or_eq_true ((sw.save k₁ s.k.running).table next).inKern with hk | hk
    · have h3 := (hs.resume hk).1.trans (he.ring3.trans h0)
      cases h3.symm.trans hr
    · have h3 := (hs.start hk).symm.trans hr
      rwa [he.isUser, he.ring3, h0, Bool.or_false] at h3
  · rw [hrun, (hproc next).1] at hu
    exact hg.trans (h.save_inKern h0 he hkern (hend hr hu))
  · have hne : i ≠ next := by
      rintro rfl
      rw [hs.table, update_self] at hi
      cases hi
    exact hg.trans (h.save_inKern h0 he hkern (htab i hne ▸ hi))
  · obtain ⟨hne, hst, ⟨rfl, hw, hu, hR⟩ | hw⟩ := waitingAfter_some hw
    · -- switched out here: the flag is set, so the routine is the one that saves RSP
      obtain rfl := (hwait hw).2 (h.user h0 hu) hu
      refine ⟨hne, hst, ?_⟩
      rw [htab _ (hrun ▸ hne), save_kern, saveKern, modify_table_self]
      exact ⟨(congrArg Cpu.sp he.cpu).trans hR, rfl⟩
    · obtain ⟨hx, -, hR, hk⟩ := h.waiting i R hw
      refine ⟨hne, hst, ?_⟩
      rw [htab i (hrun ▸ hne), save_table_of_ne _ _ _ hx, he.kernelRsp]
      exact ⟨hR, ((he.inKern i).resolve_right fun hr => hx hr.1).trans hk⟩
  · obtain ⟨hst, hw, e', he', -⟩ := entryAfter_some hent
    refine ⟨(hproc i).1.trans (h.entry i e' he').1, fun hne => ?_⟩
    by_cases hi : i = s.k.running
    · have hif : waitingAfter s c k' i = some s.k.sp := by
        unfold waitingAfter
        rw [if_neg (not_or.mpr ⟨hne, hst⟩), if_pos ⟨hi, hw hi hne, (h.entry i e' he').1⟩]
      exact ⟨_, hif⟩
    · obtain ⟨R, hR⟩ := (h.entry i e' he').2 hi
      exact waitingAfter_of_waiting hne hst hR
  obtain ⟨-, -, e', he', rfl⟩ := entryAfter_some hent
  have he' : s.entry k'.running = some e' := he'
  rw [hrun] at he'
  refine ⟨by rw [hs.currentRsp0, hrun, (hproc next).2, he.rsp0], ?_⟩
  by_cases hx : next = s.k.running
  · -- an exit to itself: FS.base stays as it is
    rw [if_neg fun hsw => hsw.2 (hrun.trans hx)] at hf
    have hk := hend hr (h.entry next e' he').1
    rw [(hs.resume hk).2.1, he.fsBase]
    exact (h.resumed e' f h0 (hx ▸ he') hf).2
  · rw [if_pos ⟨rfl, hrun ▸ hx⟩] at hf
    obtain ⟨R, hR⟩ := (h.entry next e' he').2 hx
    rw [hk', (h.resume sw he hR).2.1]
    exact Option.some.inj hf

end Switches

/-- **A call that fits keeps the invariant.** -/
theorem Inv.call (h : Inv s) (h0 : s.k.ring3 = false) (hr : (c.run s.k).1)
    (hf : c.Fits s.k) : Inv ((Event.call c).run s) := by
  cases outcome h.idx hf with
  | creates hc hlt _ => exact h.creates hc hlt
  | edits he hcur hl => exact h.edits he hcur (hl hr)
  | switches sw next k₁ he hcur hlt hl hrun hkern hwait _ =>
    exact h.switches h0 he hcur hlt hl hkern hwait (congrArg Prod.snd hrun)

end Calls

/-! ### Runs -/

theorem Inv.step (h : Inv s) (e : Event) (hen : e.Enabled s)
    (hf : e.Meets (fun k c => c.Fits k) s) : Inv (e.run s) := by
  cases e with
  | code f rip rflags => exact h.code f rip rflags
  | own f rip rflags fsBase pcbFsBase pml4 => exact h.own f rip rflags fsBase pcbFsBase pml4 hen
  | enter fast => exact h.enter fast hen
  | leave fast frame => exact h.leave fast frame hen.2
  | call c => exact h.call hen.1 hen.2 hf

theorem Inv.reached (h : s.Reached fun k c => c.Fits k) : Inv s := by
  induction h with
  | init k kstack idleEntry => exact Inv.init k kstack idleEntry
  | step e _ hen hok ih => exact ih.step e hen hok

/-- **Who waits in `schedule()` has its stack pointer saved and `in_kern` set**, and the call
that chooses it continues it after `schedule()`. -/
theorem waiting_saved {s : Sys} (h : s.Reached fun k c => c.Fits k) {p R : ℕ}
    (hw : s.waiting p = some R) :
    (s.k.table p).kernelRsp = R ∧ (s.k.table p).inKern = true ∧
      ∀ c : Call, c.Fits s.k → s.k.ring3 = false → (c.run s.k).2.running = p →
        (c.run s.k).2.ring3 = false ∧ (c.run s.k).2.sp = R + 8 ∧
          (c.run s.k).2.rip = s.k.mem R := by
  have hi := Inv.reached h
  obtain ⟨hne, -, hR, hk⟩ := hi.waiting p R hw
  refine ⟨hR, hk, fun c hf h0 hp => ?_⟩
  cases outcome hi.idx hf with
  | creates hc _ _ => exact absurd (hp.symm.trans hc.running) hne
  | edits he _ _ => exact absurd (hp.symm.trans he.running) hne
  | switches sw next k₁ he _ _ _ hrun _ _ _ =>
    rw [hrun] at hp ⊢
    obtain rfl : next = p := (sw.switched k₁ s.k.running next).running.symm.trans hp
    obtain ⟨h1, -, h3, h4⟩ := hi.resume sw he hw
    exact ⟨h1.trans h0, h3, h4⟩

/-- **When a system call that was resumed returns with RSP and FS.base of its start**: when RSP
was the top of the kernel stack, and FS.base the same before the call that resumed it. -/
theorem resumed_return_iff {s : Sys} (h : s.Reached fun k c => c.Fits k) {e : Entry} {f : ℕ}
    (h0 : s.k.ring3 = false) (he : s.entry s.k.running = some e) (hf : e.resumed = some f)
    (frame : ℕ) :
    ((syscallExit s.k frame).sp = e.rsp ∧ (syscallExit s.k frame).fsBase = e.fsBase) ↔
      (s.k.table s.k.running).rsp0 = e.rsp ∧ f = e.fsBase := by
  obtain ⟨hrsp, hfs⟩ := (Inv.reached h).resumed e f h0 he hf
  change s.k.currentRsp0 = e.rsp ∧ s.k.fsBase = e.fsBase ↔ _
  rw [hrsp, hfs]

/-! ### Some runs -/

namespace Sys

def runEvents (s : Sys) (es : List Event) : Sys := es.foldl Event.run s

/-- Each event of the list is enabled and meets `ok`. -/
def Runs (ok : Kernel → Call → Prop) (s : Sys) : List Event → Prop
  | [] => True
  | e :: es => e.Enabled s ∧ e.Meets ok s ∧ Runs ok (e.run s) es

instance Runs.decide (ok : Kernel → Call → Prop) [∀ k c, Decidable (ok k c)] (s : Sys) :
    ∀ es, Decidable (Runs ok s es)
  | [] => .isTrue trivial
  | e :: es =>
    have := Runs.decide ok (e.run s) es
    inferInstanceAs (Decidable (_ ∧ _ ∧ _))

theorem Reached.runEvents {ok : Kernel → Call → Prop} (es : List Event)
    (h : s.Reached ok) (hr : Runs ok s es) : (s.runEvents es).Reached ok := by
  induction es generalizing s with
  | nil => exact h
  | cons e es ih =>
    obtain ⟨hen, hok, hes⟩ := hr
    exact ih (h.step e hen hok) hes

/-- The start on a processor on which nothing has run. -/
def start : Sys := ⟨processInit blank 0x10000 0x100, fun _ => none, fun _ => none⟩

theorem start_reached (ok : Kernel → Call → Prop) : start.Reached ok := .init _ _ _

end Sys

/-- Code of the user up to a system call: RSP and FS.base are set. -/
def userCode (rsp fsBase : ℕ) : List Event :=
  [.own (fun c => { c with sp := rsp }) 0x400100 0x202 fsBase fsBase 0x30000,
    .enter true]

def spawnAt (kstack : ℕ) : Event :=
  .call (.spawn 0x400000 0x800000 (some kstack) (some 0x30000))

/-- A program waits in a system call and the idle process runs in between. -/
def waitOnce (rsp : ℕ) : List Event :=
  [spawnAt 0x20000, .call .schedule] ++ userCode rsp 0x5000 ++ [.call .schedule]

/-- The program reads a pipe while a second one sets its own FS.base and waits too. -/
def waitBoth : List Event :=
  [spawnAt 0x20000, spawnAt 0x40000, .call .schedule] ++ userCode 0x7000 0x5000 ++
    [.call .schedule] ++ userCode 0x8000 0x6000 ++ [.call .schedule, .call .schedule]

/-- The program of slot 1 forks and waits for its child, whose slot 2 is then that of a program
with pid 3, which is started with `process_switch_to` and waits in a system call. -/
def slotTwice : List Event :=
  [spawnAt 0x20000, .call .schedule] ++ userCode 0x7000 0 ++
    [.call (.fork 0x21f60 (some 0x40000) (some 0x50000)), .call .schedule] ++ userCode 0x8000 0 ++
    [.call (.exit 0), .call (.waitpid 2), .call .schedule, spawnAt 0x60000, .call (.switchTo 3)] ++
    userCode 0x9000 0 ++ [.call .schedule]

theorem waiting_saved_once :
    ((Sys.start.runEvents (waitOnce 0x7000)).k.table 1).kernelRsp = 0x22000 - 136 ∧
      ((Sys.start.runEvents (waitOnce 0x7000)).k.table 1).inKern = true ∧
      (Call.run (Sys.start.runEvents (waitOnce 0x7000)).k .schedule).2.sp = 0x22000 - 128 := by
  have h := waiting_saved (s := Sys.start.runEvents (waitOnce 0x7000)) (p := 1) (R := 0x22000 - 136)
    (Sys.Reached.runEvents _ (Sys.start_reached _) (by decide +kernel)) (by decide +kernel)
  exact ⟨h.1, h.2.1, (h.2.2 .schedule trivial (by decide +kernel) (by decide +kernel)).2.1⟩

/-- **The program with pid 3 in slot 2 is switched out without being saved**: `schedule` saves
into slot 3. -/
theorem slot_twice_not_saved : ∃ s : Sys, s.Reached (fun _ _ => True) ∧
    s.waiting 2 = some (0x62000 - 136) ∧ (s.k.table 2).inKern = false ∧
    (s.k.table 2).kernelRsp ≠ 0x62000 - 136 := by
  refine ⟨_, Sys.Reached.runEvents slotTwice (Sys.start_reached _) ?_, ?_⟩
  · decide +kernel
  · decide +kernel

theorem resumed_return_at_rsp0 :
    let s := Sys.start.runEvents (waitOnce 0x22000 ++ [.call .schedule])
    (syscallExit s.k 0).sp = 0x22000 ∧ (syscallExit s.k 0).fsBase = 0x5000 :=
  (resumed_return_iff (e := ⟨true, 0x22000, 0x5000, some 0x5000⟩) (f := 0x5000)
    (Sys.Reached.runEvents _ (Sys.start_reached _) (by decide +kernel)) (by decide +kernel)
    (by rfl) rfl 0).mpr (by decide +kernel)

/-- **RSP and FS.base are lost in a run whose calls fit**: the program called with RSP `0x7000` and
FS.base `0x5000`, and returns with the top of its kernel stack and the FS.base of the other. -/
theorem wait_both_returns : ∃ s : Sys, s.Reached (fun k c => c.Fits k) ∧ s.k.ring3 = false ∧
    s.k.running = 1 ∧ s.entry 1 = some ⟨true, 0x7000, 0x5000, some 0x6000⟩ ∧
    ∀ frame, (syscallExit s.k frame).ring3 = true ∧ (syscallExit s.k frame).sp = 0x22000 ∧
      (syscallExit s.k frame).fsBase = 0x6000 := by
  refine ⟨_, Sys.Reached.runEvents waitBoth (Sys.start_reached _) ?_, ?_, ?_, ?_, fun frame => ⟨rfl, ?_⟩⟩
  · decide +kernel
  · decide +kernel
  · decide +kernel
  · rfl
  · exact ⟨rfl, rfl⟩

end TipOS.Process
