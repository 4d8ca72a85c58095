import TipOS.Process.Exit

/-!
# The processes that a call ends

`Call.Ends` says which processes a call of `process.c` ends: the caller of `exit` and of a thread's
exit, and for `exit_group` the processes with its page tables too.  All the others stay live, and
the only new zombie is the caller (`Call.fate`), for every state of the table.
-/

namespace TipOS.Process

open Lib Kernel

/-- **The processes that a call ends.** -/
def Call.Ends (k : Kernel) (i : ℕ) : Call → Prop
  | .exit _ => processCurrent k = some i
  | .exitGroup _ => ∃ me, processCurrent k = some me ∧ (i = me ∨
      (k.table i).pid ≠ (k.table me).pid ∧ (k.table i).pml4 = (k.table me).pml4)
  | .threadExit _ => processCurrent k = some i
  | _ => False

/-- The process that becomes a zombie. -/
def Call.Zombie (k : Kernel) (i : ℕ) : Call → Prop
  | .exit _ | .exitGroup _ => processCurrent k = some i
  | _ => False

/-- Live processes stay live, except those that end, and the new zombies. -/
structure Fate (ended zombie : ℕ → Prop) (k k' : Kernel) : Prop where
  live : ∀ i, Live k i → ¬ ended i → Live k' i
  zombie : ∀ i, (k'.table i).state = .zombie → (k.table i).state = .zombie ∨ zombie i

/-- Nobody ends. -/
abbrev Spares (k k' : Kernel) : Prop := Fate (fun _ => False) (fun _ => False) k k'

section Fates

variable {k k' k'' : Kernel}

theorem Spares.refl (k : Kernel) : Spares k k := ⟨fun _ h _ => h, fun _ h => .inl h⟩

theorem Fate.trans {ended zombie : ℕ → Prop} (h : Fate ended zombie k k') (h' : Spares k' k'') :
    Fate ended zombie k k'' where
  live i hl hn := h'.live i (h.live i hl hn) not_false
  zombie i hz := by
    rcases h'.zombie i hz with hz' | hz'
    · exact h.zombie i hz'
    · exact hz'.elim

theorem Spares.of_sameState (h : ∀ i, SameState (k.table i).state (k'.table i).state) :
    Spares k k' where
  live i hl _ := by
    rcases h i with hi | ⟨-, hi | hi⟩
    · rwa [Live, hi]
    all_goals exact ⟨hl.1, by rw [hi]; decide, by rw [hi]; decide⟩
  zombie i hz := by
    rcases h i with hi | ⟨-, hi | hi⟩
    · exact .inl (hi ▸ hz)
    all_goals cases hi.symm.trans hz

theorem Fate.of_slot {ended zombie : ℕ → Prop} {j : ℕ} (hrest : ∀ i, i ≠ j → k'.table i = k.table i)
    (hl : Live k j → ¬ ended j → Live k' j)
    (hz : (k'.table j).state = .zombie → (k.table j).state = .zombie ∨ zombie j) :
    Fate ended zombie k k' where
  live i h hn := by
    by_cases hi : i = j
    · subst hi
      exact hl h hn
    · rwa [Live, hrest i hi]
  zombie i h := by
    by_cases hi : i = j
    · subst hi
      exact hz h
    · exact .inl (hrest i hi ▸ h)

theorem Spares.modify (k : Kernel) (j : ℕ) (f : Pcb → Pcb)
    (hf : (f (k.table j)).state ≠ .empty ∧ (f (k.table j)).state ≠ .zombie ∨
      (f (k.table j)).state = (k.table j).state) : Spares k (k.modify j f) := by
  refine .of_slot (fun _ => modify_table_of_ne) (fun hl _ => ?_) fun hz => ?_
  · rw [Live, modify_table_self]
    rcases hf with hf | hf
    · exact ⟨hl.1, hf⟩
    · rwa [hf]
  · rw [modify_table_self] at hz
    rcases hf with hf | hf
    · exact absurd hz hf.2
    · exact .inl (hf.symm.trans hz)

theorem Spares.modify_to (k : Kernel) (j : ℕ) {f : Pcb → Pcb} (s : ProcState)
    (hf : ∀ p, (f p).state = s) (he : s ≠ .empty) (hz : s ≠ .zombie) : Spares k (k.modify j f) := by
  refine .modify k j f (.inl ?_)
  rw [hf]
  exact ⟨he, hz⟩

theorem Spares.switch (sw : Routine) (k : Kernel) (cur next : ℕ) :
    Spares k (sw.switch k cur next) :=
  .of_sameState fun i => .inl (switch_pid_state sw k cur next i).2

theorem Spares.creates {slot : ℕ} (h : Creates k slot k') : Spares k k' :=
  .of_slot h.rest (fun hl _ => ⟨hl.1, by rw [h.state]; decide, by rw [h.state]; decide⟩)
    fun hz => by cases h.state.symm.trans hz

theorem Spares.schedule (k : Kernel) : Spares k (Process.schedule k) :=
  .of_sameState (schedule_state k)

theorem Spares.wakeParent (k : Kernel) (pid : ℤ) : Spares k (procWakeParent k pid) := by
  unfold procWakeParent
  split
  · exact .refl k
  · exact .modify_to k _ .ready (fun _ => rfl) (by decide) (by decide)

/-- `process_exit_current`: the caller becomes a zombie. -/
theorem fate_exit (k : Kernel) (code : ℤ) : Fate (fun i => processCurrent k = some i)
    (fun i => processCurrent k = some i) k (processExitCurrent k code) := by
  cases h : processCurrent k with
  | none =>
    unfold processExitCurrent
    rw [h]
    exact ⟨fun _ hl _ => hl, fun _ hz => .inl hz⟩
  | some me =>
    rw [processExitCurrent_eq h]
    have h1 : Fate (fun i => some me = some i) (fun i => some me = some i) k
        (k.modify me fun p => { p with exitCode := code, state := .zombie }) :=
      .of_slot (fun _ => modify_table_of_ne) (fun _ hn => absurd rfl hn) fun _ => .inr rfl
    have h2 := h1.trans (Spares.wakeParent _ (k.table me).pid)
    have h3 := h2.trans (Spares.modify _ (parentIdx (k.table me).parentPid) (fun p => { p with
      state := if p.state = .blocked then .ready else p.state }) (by
        dsimp only
        split
        · exact .inl (by decide)
        · exact .inr rfl))
    have hstate : Fate (fun i => some me = some i) (fun i => some me = some i) k
        (exitState k me code) := ⟨h3.live, h3.zombie⟩
    exact hstate.trans (Spares.switch .plain _ _ _)

theorem fate_exitGroup (k : Kernel) (code : ℤ) : Fate (fun i => (Call.exitGroup code).Ends k i)
    (fun i => processCurrent k = some i) k (sysExitGroup k code) := by
  unfold sysExitGroup
  cases h : processCurrent k with
  | none =>
    have he := fate_exit k code
    rw [h] at he
    refine ⟨fun i hl _ => he.live i hl (Option.some_ne_none i).symm, fun i hz => he.zombie i hz⟩
  | some me =>
    have he := fate_exit (killSiblings k me) code
    rw [processCurrent_killSiblings h] at he
    refine ⟨fun i hl hne => ?_, fun i hz => ?_⟩
    · refine he.live i ?_ fun hi => hne ⟨me, h, .inl (Option.some.inj hi).symm⟩
      have hkeep : (killSiblings k me).table i = k.table i := by
        refine if_neg ?_
        rintro ⟨-, hp, hm⟩
        exact hne ⟨me, h, .inr ⟨hp, hm⟩⟩
      exact ⟨hl.1, by rw [hkeep]; exact hl.2⟩
    · rcases he.zombie i hz with hz' | hz'
      · dsimp only [killSiblings] at hz'
        split at hz'
        · exact absurd (show ProcState.empty = .zombie from hz') (by decide)
        · exact .inl hz'
      · exact .inr hz'

theorem fate_threadExit (k : Kernel) (code : ℤ) : Fate (fun i => processCurrent k = some i)
    (fun _ => False) k (procThreadExit k code).2 := by
  unfold procThreadExit
  cases h : processCurrent k with
  | none => exact ⟨fun _ hl _ => hl, fun _ hz => .inl hz⟩
  | some me =>
    have h1 : Fate (fun i => some me = some i) (fun _ => False) k
        (k.modify me fun p => { p with exitCode := code, state := .empty }) := by
      refine .of_slot (fun _ => modify_table_of_ne) (fun _ hn => absurd rfl hn) fun hz => ?_
      rw [modify_table_self] at hz
      cases hz
    exact h1.trans (Spares.schedule _)

theorem spares_waitpid (k : Kernel) (pid : ℤ) : Spares k (procWaitpid k pid).2 := by
  unfold procWaitpid
  split
  · exact .refl k
  next i _ =>
  split
  · next hz =>
    dsimp only
    exact .of_slot (fun _ => modify_table_of_ne) (fun hl _ => absurd hz hl.2.2) fun _ => .inl hz
  · exact .schedule k

theorem Makes.spares {r : ℤ × Kernel} (h : Makes k r) : Spares k r.2 := by
  rcases h with ⟨-, he⟩ | ⟨slot, -, -, hc⟩
  · exact he ▸ .refl k
  · exact .creates hc

end Fates

/-- **What a call does to the processes that it does not end.** -/
theorem Call.fate (k : Kernel) (c : Call) :
    Fate (fun i => c.Ends k i) (fun i => c.Zombie k i) k (c.run k).2 := by
  cases c with
  | createUser entry userTop kstack =>
    rcases createUser_cases k entry userTop kstack with ⟨c, hr⟩ | ⟨-, -, hc⟩
    · exact Spares.of_sameState fun _ => .inl (by rw [Call.run, hr])
    · exact Spares.creates hc
  | spawn => exact Makes.spares (makes_spawn ..)
  | fork => exact Makes.spares (makes_fork ..)
  | clone => exact Makes.spares (makes_clone ..)
  | switchTo pid =>
    simp only [Call.run, processSwitchTo]
    split
    · next current next _ _ =>
      have h1 := Spares.modify_to k k.currentPid (f := fun p => { p with state := .blocked })
        .blocked (fun _ => rfl) (by decide) (by decide)
      have h2 : Spares k { k.modify k.currentPid fun p => { p with state := .blocked } with
          currentPid := pid } := ⟨h1.live, h1.zombie⟩
      have h3 := Fate.trans h2 (Spares.modify_to _ next (f := fun p => { p with state := .running })
        .running (fun _ => rfl) (by decide) (by decide))
      refine Fate.trans ?_ (Spares.switch .plain _ _ _)
      exact ⟨h3.live, h3.zombie⟩
    · exact Spares.refl k
  | schedule => exact Spares.schedule k
  | exit code => exact fate_exit k code
  | exitGroup code => exact fate_exitGroup k code
  | threadExit code => exact fate_threadExit k code
  | waitpid pid => exact spares_waitpid k pid

end TipOS.Process
