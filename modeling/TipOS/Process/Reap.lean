import TipOS.Process.Current

/-!
# Waiting for a process

The whole loop of `proc_waitpid`.  Between two rounds the caller is away in `schedule()`, and
`Away` is what the other processes can have done to the table by then: the caller's view of
`schedule()` is any function from the table it left to one that it may find.

The search compares pids and nothing else, and a slot keeps its pid when it is emptied.  A slot
that was never used has the pid -1.  So a call with the pid of an emptied slot goes on for ever
(`waits_forever`), and `reapsOnce_iff` says for which tables a pid is waited for properly.
-/

namespace TipOS.Process

open Lib

/-! ### The loop -/

/-- What a round stores through `exit_code`. -/
def waitStatus (k : Kernel) (pid : ℤ) : Option ℤ :=
  (findPid k pid).bind fun i =>
    if (k.table i).state = .zombie then some (k.table i).exitCode else none

/-- What the others can have done while the caller was in `schedule()`: a slot keeps its pid or
has a process that was created since. -/
structure Away (k k' : Kernel) : Prop where
  nextPid : k.nextPid ≤ k'.nextPid
  pid : ∀ i < maxProc, (k'.table i).pid = (k.table i).pid ∨ k.nextPid ≤ (k'.table i).pid

theorem Away.refl (k : Kernel) : Away k k := ⟨le_rfl, fun _ _ => .inl rfl⟩

/-- What `schedule()` does in each round, as the caller sees it. -/
structure Env where
  sched : ℕ → Kernel → Kernel
  away : ∀ n k, Away k (sched n k)

/-- Nobody else does anything. -/
def Env.idle : Env := ⟨fun _ k => k, fun _ k => Away.refl k⟩

/-- `proc_waitpid` from round `n` on, for at most `fuel` rounds. -/
def waitLoop (env : Env) (pid : ℤ) : ℕ → ℕ → Kernel → Option (ℤ × Kernel)
  | 0, _, _ => none
  | fuel + 1, n, k =>
    match procWaitpid k pid with
    | (some r, k') => some (r, k')
    | (none, _) => waitLoop env pid fuel (n + 1) (env.sched n k)

/-- The call in `k` returns `r`. -/
def Returns (env : Env) (k : Kernel) (pid r : ℤ) : Prop :=
  ∃ fuel k', waitLoop env pid fuel 0 k = some (r, k')

/-! ### One round -/

section Round

variable {k : Kernel} {pid : ℤ} {i : ℕ}

theorem findPid_none_iff : findPid k pid = none ↔ ∀ i < maxProc, (k.table i).pid ≠ pid := by
  simp only [findPid, findIdx, List.find?_eq_none, List.mem_range, beq_iff_eq]

theorem findPid_some (h : findPid k pid = some i) : i < maxProc ∧ (k.table i).pid = pid := by
  obtain ⟨hi, hp⟩ := findIdx_some h
  exact ⟨hi, beq_iff_eq.mp hp⟩

theorem procWaitpid_none (h : findPid k pid = none) : procWaitpid k pid = (some (-1), k) := by
  rw [procWaitpid, h]

theorem procWaitpid_waits (h : findPid k pid = some i) (hz : (k.table i).state ≠ .zombie) :
    (procWaitpid k pid).1 = none := by
  rw [procWaitpid, h]
  exact congrArg Prod.fst (if_neg hz)

/-- **A call whose slot is not a zombie never returns when nobody else does anything.** -/
theorem waits_forever (h : findPid k pid = some i) (hz : (k.table i).state ≠ .zombie)
    (fuel n : ℕ) : waitLoop Env.idle pid fuel n k = none := by
  induction fuel generalizing n with
  | zero => rfl
  | succ fuel ih =>
    have hround := procWaitpid_waits h hz
    rw [waitLoop]
    split
    · next r k' hr =>
      rw [hr] at hround
      exact absurd hround (by simp)
    · exact ih (n + 1)

theorem returns_of_none (env : Env) (h : findPid k pid = none) : Returns env k pid (-1) := by
  refine ⟨1, k, ?_⟩
  rw [waitLoop, procWaitpid_none h]

theorem not_returns_idle (h : findPid k pid = some i) (hz : (k.table i).state ≠ .zombie) (r : ℤ) :
    ¬ Returns Env.idle k pid r := by
  rintro ⟨fuel, k', hr⟩
  rw [waits_forever h hz] at hr
  exact absurd hr (by simp)

/-- Every slot with the pid is emptied. -/
def emptied (k : Kernel) : Kernel :=
  { k with table := fun i => { k.table i with state := .empty } }

theorem emptied_away (k : Kernel) : Away k (emptied k) := ⟨le_rfl, fun _ _ => .inl rfl⟩

theorem findPid_emptied (k : Kernel) (pid : ℤ) : findPid (emptied k) pid = findPid k pid := rfl

end Round

/-! ### Reaping once -/

/-- No process has the pid. -/
def NoProc (k : Kernel) (pid : ℤ) : Prop :=
  ∀ i < maxProc, (k.table i).pid = pid → (k.table i).state = .empty

/-- **Reaped exactly once.**  A zombie gives its pid and exit code, and its slot is freed; a later
call with that pid, and any call with a pid that no process has, returns -1 whatever the others
do. -/
structure ReapsOnce (k : Kernel) (pid : ℤ) : Prop where
  reap : ∀ i < maxProc, (k.table i).pid = pid → (k.table i).state = .zombie →
    procWaitpid k pid = (some pid, k.modify i fun p => { p with state := .empty }) ∧
    waitStatus k pid = some (k.table i).exitCode
  later : (∃ i < maxProc, (k.table i).pid = pid ∧ (k.table i).state = .zombie) →
    ∀ k', Away (procWaitpid k pid).2 k' → NoProc k' pid → ∀ env, Returns env k' pid (-1)
  gone : NoProc k pid → ∀ env, Returns env k pid (-1)

/-- The pid is not that of a zombie, and it is not left in empty slots only. -/
def NotLeft (k : Kernel) (pid : ℤ) : Prop :=
  (∀ i < maxProc, (k.table i).pid = pid → (k.table i).state ≠ .zombie) ∧
  ((∃ i < maxProc, (k.table i).pid = pid) → ¬ NoProc k pid)

theorem not_returns_emptied {k : Kernel} {pid : ℤ} (h : findPid k pid ≠ none) :
    NoProc (emptied k) pid ∧ ¬ Returns Env.idle (emptied k) pid (-1) := by
  refine ⟨fun _ _ _ => rfl, ?_⟩
  obtain ⟨i, hi⟩ := Option.ne_none_iff_exists'.mp h
  have hempty : ((emptied k).table i).state ≠ .zombie := by
    show ProcState.empty ≠ .zombie
    decide
  exact not_returns_idle ((findPid_emptied k pid).trans hi) hempty (-1)

theorem ReapsOnce.notLeft {k : Kernel} {pid : ℤ} (h : ReapsOnce k pid) : NotLeft k pid := by
  refine ⟨fun i hi hp hz => ?_, fun ⟨i, hi, hp⟩ hno => ?_⟩
  · -- the slot of the zombie keeps the pid, and a later call finds it
    obtain ⟨hround, -⟩ := h.reap i hi hp hz
    have hkeep : ((procWaitpid k pid).2.table i).pid = pid := by
      rw [hround, Kernel.modify_table_self]
      exact hp
    have hfind : findPid (procWaitpid k pid).2 pid ≠ none := fun hnone =>
      findPid_none_iff.mp hnone i hi hkeep
    obtain ⟨hno, hnot⟩ := not_returns_emptied hfind
    exact hnot (h.later ⟨i, hi, hp, hz⟩ _ (emptied_away _) hno Env.idle)
  · cases hf : findPid k pid with
    | none => exact findPid_none_iff.mp hf i hi hp
    | some j =>
      obtain ⟨hj, hpj⟩ := findPid_some hf
      have hz : (k.table j).state ≠ .zombie := by
        rw [hno j hj hpj]
        decide
      exact not_returns_idle hf hz (-1) (h.gone hno Env.idle)

/-- **A pid is reaped exactly once if and only if it is not that of a zombie, and not left in empty
slots only.** -/
theorem reapsOnce_iff (k : Kernel) (pid : ℤ) : ReapsOnce k pid ↔ NotLeft k pid := by
  refine ⟨ReapsOnce.notLeft, fun ⟨hz, hleft⟩ => ⟨fun i hi hp hs => absurd hs (hz i hi hp), ?_, ?_⟩⟩
  · rintro ⟨i, hi, hp, hs⟩
    exact absurd hs (hz i hi hp)
  · intro hno env
    refine returns_of_none env (findPid_none_iff.mpr fun i hi hp => ?_)
    exact hleft ⟨i, hi, hp⟩ hno

/-- A child is created, exits and is reaped. -/
def reapChild : List Call := spawnFirst ++ [.exit 7]

/-- **The second call for a child waits for ever.** -/
theorem second_wait_never_returns : ∃ k, Reached (fun _ _ => True) true k ∧
    (procWaitpid k 1).1 = some 1 ∧ waitStatus k 1 = some 7 ∧
    NoProc (procWaitpid k 1).2 1 ∧ ∀ r, ¬ Returns Env.idle (procWaitpid k 1).2 1 r := by
  refine ⟨_, Reached.runCalls reapChild (.init blank 0x10000 0x100) (by decide +kernel),
    by decide +kernel, by decide +kernel, ?_, fun r => ?_⟩
  · unfold NoProc
    decide +kernel
  · exact not_returns_idle (i := 1) (by decide +kernel) (by decide +kernel) r

end TipOS.Process
