import Mathlib.Tactic.FinCases
import Mathlib.Tactic.IntervalCases
import TipOS.Process.Table

/-!
# The first return of a child

A child of `fork` or `clone` starts from a frame that three files agree on:
`syscall_entry` pushes the registers of the parent, `proc_fork` and
`proc_clone_thread` copy the words one by one, and a context switch pops them.
`entry_word` says what the entry pushes, `childFrame_word` what is copied and
`started_reg` what is popped.

The entry pushes R15 first, so that R15 has the highest word, and the switches
pop R15 first, from the lowest: the child gets the registers in reverse order.
`child_registers_iff` says for which register files this is not seen.
-/

namespace TipOS.Process

open Function Lib List Kernel Cpu

variable {kframe sp next : ℕ} {rsp : (ℕ → ℕ) → ℕ} {g g₁ : Kernel}

/-! ### The system calls that create a child -/

/-- The entries of `linux_to_tipos` that are not the number itself. -/
def linuxOverrides : List (ℕ × ℕ) :=
  [(0, 3), (1, 4), (2, 5), (3, 6), (4, 188), (5, 189), (6, 199), (8, 204), (9, 197), (10, 74),
   (11, 73), (12, 231), (13, 134), (16, 54), (20, 409), (21, 33), (24, 90), (25, 75), (33, 91),
   (35, 234), (39, 20), (47, 92), (48, 408), (54, 93), (57, 214), (59, 208), (60, 1), (78, 207),
   (83, 136), (84, 137), (87, 10), (90, 402), (91, 403), (92, 404), (93, 405), (95, 400),
   (96, 116), (99, 401), (102, 24), (104, 47), (107, 25), (108, 48), (134, 94), (137, 406),
   (138, 407), (200, 95), (202, 96), (203, 99), (204, 101), (231, 212), (234, 103)]

def linuxToTipos (num : ℕ) : ℕ := (linuxOverrides.lookup num).getD num

/-- What `syscall_handler_zig` does to the frame: the number, and R10 in the place of RCX. -/
def translateFrame (k : Kernel) (frame : ℕ) : Kernel :=
  let num := k.mem frame
  let mapped := linuxToTipos num
  let k := { k with toCpu := k.poke frame mapped }
  if mapped ≠ num ∨ (41 ≤ num ∧ num ≤ 53) ∨ num = 288 then
    { k with toCpu := k.poke (frame + 8) (k.mem (frame + 56)) }
  else k

/-- The state in which `syscall_handler` looks at the number. -/
def handlerState (k : Kernel) : Kernel :=
  { translateFrame (syscallEntry k) (syscallEntry k).sp with gInSyscall := true }

/-- `fork` and `clone` from the instruction `syscall` to the return of `proc_fork` or
`proc_clone_thread`; `none` for the other system calls. -/
def creationCall (k : Kernel) (kstack pml4 : Option ℕ) : Option (ℤ × Kernel) :=
  let regs := (syscallEntry k).sp
  if 512 ≤ (syscallEntry k).mem regs then none
  else
    let k := handlerState k
    if k.mem regs = 214 then some (procFork k regs kstack pml4)
    else if k.mem regs = 56 then
      some (procCloneThread k (k.mem (regs + 8 * 4)) (k.mem (regs + 8 * 3)) (k.mem (regs + 8 * 5))
        (k.mem (regs + 8 * 7)) regs kstack)
    else none

/-! ### What the entry pushes -/

section Entry

variable {k : Kernel}

theorem entryCpu_sp (k : Kernel) : (entryCpu k).sp = k.currentRsp0 - 136 := by
  rw [entryCpu, pushAll_sp]
  simp only [Cpu.poke, pushOrder, length_cons, length_nil]
  omega

theorem syscallEntry_sp (k : Kernel) : (syscallEntry k).sp = k.currentRsp0 - 136 := entryCpu_sp k

theorem syscallEntry_mem (k : Kernel) : (syscallEntry k).mem = (entryCpu k).mem := rfl

/-- **The words of the frame**: RAX lowest, R15 highest. -/
theorem entry_word (h : 136 ≤ k.currentRsp0) {i : ℕ} {r : Reg}
    (hi : pushOrder.reverse[i]? = some r) :
    (entryCpu k).mem (k.currentRsp0 - 136 + 8 * i) = syscallRegs k r := by
  have hw := pushAll_mem (w := 8) (by omega) pushOrder
    ((({ reg := syscallRegs k, sp := k.currentRsp0 - 16, mem := k.mem } : Cpu Reg ℕ).poke
      (k.currentRsp0 - 16) k.rip).poke (k.currentRsp0 - 16 + 8) k.rflags)
    (by simp only [Cpu.poke, pushOrder, length_cons, length_nil]; omega) hi
  have ha : k.currentRsp0 - 16 - 8 * pushOrder.length = k.currentRsp0 - 136 := by
    simp only [pushOrder, length_cons, length_nil]
    omega
  exact hw

theorem entry_word_above (h : 136 ≤ k.currentRsp0) {a : ℕ} (ha : k.currentRsp0 - 16 ≤ a) :
    (entryCpu k).mem a = if a = k.currentRsp0 - 8 then k.rflags
      else if a = k.currentRsp0 - 16 then k.rip else k.mem a := by
  have hs : k.currentRsp0 - 16 + 8 = k.currentRsp0 - 8 := by omega
  rw [entryCpu, pushAll_mem_above (by omega) _ _ ha
    (by simp only [Cpu.poke, pushOrder, length_cons, length_nil]; omega)]
  simp only [Cpu.poke, update_apply, hs]

end Entry

/-! ### What is copied -/

/-- The words 0 to 18 at `kframe` and 0 to 19 at `sp` have nothing in common. -/
def Apart (kframe sp : ℕ) : Prop := kframe + 152 ≤ sp ∨ sp + 160 ≤ kframe

/-- The word of the parent's frame that goes to the word `q` of the child's. -/
def childWord (mem : ℕ → ℕ) (kframe userRsp : ℕ) (q : ℕ) : ℕ :=
  if q < 14 then mem (kframe + 8 * q)
  else if q = 14 then 0
  else if q = 15 then mem (kframe + 8 * 15)
  else if q = 16 then 0x1B
  else if q = 17 then mem (kframe + 8 * 16)
  else if q = 18 then userRsp
  else 0x23

theorem copyFrame_word (mem : ℕ → ℕ) (h : Apart kframe sp) (n : ℕ) (hn : n ≤ 15) :
    (∀ q < 19, forLoop (fun q m => update m (sp + 8 * q) (m (kframe + 8 * q))) n mem
      (kframe + 8 * q) = mem (kframe + 8 * q)) ∧
    ∀ q < n, forLoop (fun q m => update m (sp + 8 * q) (m (kframe + 8 * q))) n mem
      (sp + 8 * q) = mem (kframe + 8 * q) := by
  refine forLoop_induct (fun i (m : ℕ → ℕ) => (∀ q < 19, m (kframe + 8 * q) = mem (kframe + 8 * q)) ∧
    ∀ q < i, m (sp + 8 * q) = mem (kframe + 8 * q)) ⟨fun _ _ => rfl, by omega⟩ ?_
  intro i hi m hm
  rw [Apart] at h
  refine ⟨fun q hq => ?_, fun q hq => ?_⟩
  · rw [update_of_ne (by omega), hm.1 q hq]
  · rcases Nat.lt_succ_iff_lt_or_eq.mp hq with hlt | rfl
    · rw [update_of_ne (by omega), hm.2 q hlt]
    · rw [update_self, hm.1 q (by omega)]

/-- **The words of the child's frame.** -/
theorem childFrame_word {mem : ℕ → ℕ} {userRsp : ℕ} (h : Apart kframe sp)
    (hrsp : ∀ m : ℕ → ℕ, (∀ q < 19, m (kframe + 8 * q) = mem (kframe + 8 * q)) → rsp m = userRsp)
    {q : ℕ} (hq : q < 20) :
    childFrame mem kframe sp rsp (sp + 8 * q) = childWord mem kframe userRsp q := by
  obtain ⟨hsrc, hdst⟩ := copyFrame_word mem h 15 le_rfl
  rw [Apart] at h
  unfold childFrame
  generalize forLoop _ 15 mem = m at hsrc hdst ⊢
  rw [hrsp]
  · simp only [update_apply, childWord]
    rcases lt_or_ge q 14 with hlt | hge
    · simp only [if_pos hlt]
      repeat rw [if_neg (by omega)]
      exact hdst q (by omega)
    have h15 := hsrc 15 (by omega)
    have h16 := hsrc 16 (by omega)
    interval_cases q <;> simp
    · rw [if_neg (by omega)]
      exact h15
    · repeat rw [if_neg (by omega)]
      exact h16
  · intro q hq
    repeat rw [update_of_ne (by omega)]
    exact hsrc q hq

/-! ### What is popped -/

theorem popOrder_nodup : popOrder.Nodup := by decide

/-- What the pops and `iretq` load from a frame. -/
structure Started (mem : ℕ → ℕ) (frame : ℕ) (c : Kernel) : Prop where
  reg : ∀ i r, popOrder[i]? = some r → c.reg r = mem (frame + 8 * i)
  rip : c.rip = mem (frame + 8 * 15)
  rflags : c.rflags = mem (frame + 8 * 17)
  sp : c.sp = mem (frame + 8 * 18)

theorem startNext_started {k : Kernel} (h : (k.table next).isUser) :
    Started k.mem k.sp (startNext k next) := by
  have hsp : (Cpu.popAll 8 popOrder k.toCpu).sp = k.sp + 8 * 15 := popAll_sp popOrder k.toCpu
  rw [startNext, if_pos h]
  refine ⟨fun i r hi => popAll_reg popOrder k.toCpu popOrder_nodup hi, ?_, ?_, ?_⟩ <;>
    simp only [Kernel.iretq, popAll_mem, hsp]

/-- **Either routine starts a process that is not inside a system call from its frame.** -/
theorem Routine.started (sw : Routine) {k : Kernel} {cur : ℕ} (hne : cur ≠ next)
    (hk : (k.table next).inKern = false) (hu : (k.table next).isUser) :
    Started k.mem (k.table next).kernelRsp (sw.switch k cur next) := by
  cases sw with
  | plain =>
    have ht : (saveUser k cur).table next = k.table next := update_of_ne hne.symm _ _
    rw [← ht] at hk hu ⊢
    rw [show Routine.plain.switch = contextSwitch from rfl, contextSwitch_start hk]
    exact startNext_started (k := { loadNext (saveUser k cur) next with
      fsBase := ((saveUser k cur).table next).fsBase }) hu
  | kern =>
    have ht : (saveKern k cur).table next = k.table next := update_of_ne hne.symm _ _
    rw [← ht] at hk hu ⊢
    rw [show Routine.kern.switch = contextSwitchKern from rfl, contextSwitchKern_start hk]
    exact startNext_started (k := loadNext (saveKern k cur) next) hu

/-! ### The child and the parent -/

/-- The registers the child shares with the parent. -/
def keptRegs : List Reg :=
  [.rbx, .rbp, .r12, .r13, .r14, .r15, .rdi, .rsi, .rdx, .r8, .r9, .r10]

/-- The stack pointer the child starts with. -/
def childRsp (k : Kernel) : ℕ :=
  if k.reg .rax = 56 ∧ k.reg .rsi ≠ 0 then k.reg .rsi else k.sp

/-- The child `c` starts as the parent `k` left off, with 0 in RAX. -/
structure StartsAs (k c : Kernel) : Prop where
  regs : ∀ r ∈ keptRegs, c.reg r = k.reg r
  rax : c.reg .rax = 0
  rip : c.rip = k.rip
  rflags : c.rflags = k.rflags
  sp : c.sp = childRsp k

/-- The register files whose frame reads the same in both orders. -/
structure FrameFits (k : Kernel) : Prop where
  r15 : k.reg .r15 = linuxToTipos (k.reg .rax)
  r14 : k.reg .r14 = if linuxToTipos (k.reg .rax) = k.reg .rax then k.rip else k.reg .r10
  r13 : k.reg .r13 = k.reg .rdx
  r12 : k.reg .r12 = k.reg .rsi
  rbp : k.reg .rbp = k.reg .rdi
  rbx : k.reg .rbx = k.reg .r8
  r9 : k.reg .r9 = k.rflags
  rsp : k.reg .rax = 56 → k.reg .rsi = 0 → k.mem (k.currentRsp0 + 8) = k.sp

/-- The word `i` of the frame that the handler sees. -/
def handlerWord (k : Kernel) (i : ℕ) : ℕ :=
  if i = 0 then linuxToTipos (k.reg .rax)
  else if i = 1 then (if linuxToTipos (k.reg .rax) = k.reg .rax then k.rip else k.reg .r10)
  else if i < 15 then (pushOrder.reverse[i]?.map (syscallRegs k)).getD 0
  else if i = 15 then k.rip
  else if i = 16 then k.rflags
  else k.mem (k.currentRsp0 - 136 + 8 * i)

section Handler

variable {k : Kernel}

theorem creation_num (hnum : k.reg .rax = 57 ∨ k.reg .rax = 214 ∨ k.reg .rax = 56) :
    ¬ ((41 ≤ k.reg .rax ∧ k.reg .rax ≤ 53) ∨ k.reg .rax = 288) := by
  omega

theorem entry_word_eq (h : 136 ≤ k.currentRsp0) (i : ℕ) :
    (entryCpu k).mem (k.currentRsp0 - 136 + 8 * i) =
      if i = 0 then k.reg .rax else if i = 1 then k.rip else handlerWord k i := by
  rcases lt_or_ge i 15 with hlt | hge
  · obtain ⟨r, hr⟩ : ∃ r, pushOrder.reverse[i]? = some r :=
      ⟨_, getElem?_eq_getElem (by simpa [pushOrder] using hlt)⟩
    rw [entry_word h hr]
    rcases Nat.lt_or_ge i 2 with h2 | h2
    · interval_cases i <;> obtain rfl := Option.some.inj hr <;> rfl
    · rw [if_neg (by omega), if_neg (by omega), handlerWord, if_neg (by omega), if_neg (by omega),
        if_pos hlt, hr]
      rfl
  have hr : (if i = 0 then k.reg .rax else if i = 1 then k.rip else handlerWord k i) =
      if i = 15 then k.rip else if i = 16 then k.rflags
        else k.mem (k.currentRsp0 - 136 + 8 * i) := by
    rw [if_neg (by omega), if_neg (by omega), handlerWord, if_neg (by omega), if_neg (by omega),
      if_neg (by omega)]
  rw [hr, entry_word_above h (by omega)]
  by_cases h15 : i = 15
  · rw [if_neg (by omega), if_pos (by omega), if_pos h15]
  · by_cases h16 : i = 16
    · rw [if_pos (by omega), if_neg h15, if_pos h16]
    · rw [if_neg (by omega), if_neg (by omega), if_neg h15, if_neg h16]

/-- **The frame the handler sees.** -/
theorem handlerState_word (h : 136 ≤ k.currentRsp0)
    (hnum : k.reg .rax = 57 ∨ k.reg .rax = 214 ∨ k.reg .rax = 56) (i : ℕ) :
    (handlerState k).mem (k.currentRsp0 - 136 + 8 * i) = handlerWord k i := by
  have hi := entry_word_eq h i
  have h0 : (entryCpu k).mem (k.currentRsp0 - 136) = k.reg .rax := by
    simpa using entry_word_eq h 0
  have h7 : (entryCpu k).mem (k.currentRsp0 - 136 + 56) = k.reg .r10 := by
    simpa [handlerWord, pushOrder, syscallRegs] using entry_word_eq h 7
  have hsock := creation_num hnum
  unfold handlerState translateFrame
  simp only [Cpu.poke, syscallEntry_sp, syscallEntry_mem, h0]
  by_cases hm : linuxToTipos (k.reg .rax) = k.reg .rax
  · rw [if_neg (by rintro (hx | hx); exacts [hx hm, hsock hx])]
    dsimp only
    by_cases hi0 : i = 0
    · subst hi0
      simp [handlerWord]
    rw [update_of_ne (by omega), hi, if_neg hi0]
    by_cases hi1 : i = 1
    · simp [hi1, handlerWord, hm]
    · rw [if_neg hi1]
  rw [if_pos (.inl hm)]
  dsimp only
  by_cases hi1 : i = 1
  · subst hi1
    rw [show 8 * 1 = 8 from rfl, update_self, update_of_ne (by omega), h7]
    simp [handlerWord, hm]
  rw [update_of_ne (by omega)]
  by_cases hi0 : i = 0
  · subst hi0
    simp [handlerWord]
  · rw [update_of_ne (by omega), hi, if_neg hi0, if_neg hi1]

@[simp] theorem handlerState_fields : (handlerState k).table = k.table ∧
    (handlerState k).currentRsp0 = k.sp ∧ (handlerState k).currentPid = k.currentPid ∧
    (handlerState k).nextPid = k.nextPid := by
  unfold handlerState translateFrame
  dsimp only
  split <;> exact ⟨rfl, rfl, rfl, rfl⟩

theorem creationCall_eq (h : 136 ≤ k.currentRsp0)
    (hnum : k.reg .rax = 57 ∨ k.reg .rax = 214 ∨ k.reg .rax = 56) (kstack pml4 : Option ℕ) :
    creationCall k kstack pml4 = some (if k.reg .rax = 56
      then procCloneThread (handlerState k) (k.reg .rdi) (k.reg .rsi) (k.reg .r8) (k.reg .r10)
        (k.currentRsp0 - 136) kstack
      else procFork (handlerState k) (k.currentRsp0 - 136) kstack pml4) := by
  have h0 : (entryCpu k).mem (k.currentRsp0 - 136) = k.reg .rax := by
    simpa using entry_word_eq h 0
  have hw := handlerState_word h hnum
  have hw0 : (handlerState k).mem (k.currentRsp0 - 136) = linuxToTipos (k.reg .rax) := by
    simpa [handlerWord] using hw 0
  unfold creationCall
  simp only [syscallEntry_sp, syscallEntry_mem, h0, hw0, hw]
  rw [if_neg (by omega)]
  rcases hnum with hn | hn | hn
  · rw [hn, if_pos (by decide), if_neg (by decide)]
  · rw [hn, if_pos (by decide), if_neg (by decide)]
  · rw [hn, if_neg (by decide), if_pos (by decide), if_pos rfl]
    simp [handlerWord, pushOrder, syscallRegs]

end Handler

/-! ### The child starts -/

/-- The stack pointer in the child's frame. -/
def frameRsp (k : Kernel) : ℕ :=
  if k.reg .rax = 56 then
    if k.reg .rsi = 0 then k.mem (k.currentRsp0 + 8) else k.reg .rsi
  else k.sp

/-- What the registers of the child are. -/
def childReg (k : Kernel) : Reg → ℕ
  | .r15 => linuxToTipos (k.reg .rax)
  | .r14 => if linuxToTipos (k.reg .rax) = k.reg .rax then k.rip else k.reg .r10
  | .r13 => k.reg .rdx
  | .r12 => k.reg .rsi
  | .rbp => k.reg .rdi
  | .rbx => k.reg .r8
  | .r11 => k.reg .r9
  | .r10 => k.reg .r10
  | .r9 => k.rflags
  | .r8 => k.reg .rbx
  | .rdi => k.reg .rbp
  | .rsi => k.reg .r12
  | .rdx => k.reg .r13
  | .rcx => k.reg .r14
  | .rax => 0

/-- A child in `slot` with its frame below the top of the stack at `ks`. -/
structure Created (k : Kernel) (slot ks : ℕ) (k₁ : Kernel) : Prop where
  rsp : (k₁.table slot).kernelRsp = ks + stackSize - 160
  user : (k₁.table slot).isUser = true
  kern : (k.table slot).inKern = false → (k₁.table slot).inKern = false
  word : Apart (k.currentRsp0 - 136) (ks + stackSize - 160) → ∀ q < 20,
    k₁.mem (ks + stackSize - 160 + 8 * q) =
      childWord (handlerState k).mem (k.currentRsp0 - 136) (frameRsp k) q

section Child

variable {k k₁ : Kernel} {slot ks : ℕ} {pml4 : Option ℕ} {pid : ℤ}

theorem findEmpty_handlerState : findEmpty (handlerState k) = findEmpty k := by
  simp only [findEmpty, handlerState_fields]

/-- What a successful `proc_fork` or `proc_clone_thread` leaves in the slot of the child. -/
structure NewChild (g : Kernel) (kframe slot ks : ℕ) (rsp : (ℕ → ℕ) → ℕ) (g₁ : Kernel) : Prop where
  kernelRsp : (g₁.table slot).kernelRsp = ks + stackSize - 160
  user : (g₁.table slot).isUser = true
  kern : (g.table slot).inKern = false → (g₁.table slot).inKern = false
  mem : g₁.mem = childFrame g.mem kframe (ks + stackSize - 160) rsp

theorem procFork_newChild (hslot : findEmpty g = some slot)
    (hcall : procFork g kframe (some ks) pml4 = (pid, g₁)) (hpid : 0 ≤ pid) :
    NewChild g kframe slot ks (fun _ => g.currentRsp0) g₁ := by
  unfold procFork at hcall
  rw [hslot] at hcall
  split at hcall
  · next hpar hs' hk' =>
    cases hs'
    cases hk'
    obtain ⟨-, rfl⟩ := Prod.mk.inj hcall
    refine ⟨?_, ?_, fun hk => ?_, ?_⟩
    · rw [countSlot_table, modify_table_self]
    · rw [countSlot_table, modify_table_self]
    · rw [countSlot_table, modify_table_self]
      exact hk
    · rw [countSlot_mem, modify_mem]
  · obtain ⟨rfl, -⟩ := Prod.mk.inj hcall
    omega

theorem procCloneThread_newChild {flags newsp ctid tls : ℕ} (hslot : findEmpty g = some slot)
    (hcall : procCloneThread g flags newsp ctid tls kframe (some ks) = (pid, g₁)) (hpid : 0 ≤ pid) :
    NewChild g kframe slot ks
      (fun m => if newsp = 0 then m (kframe + 8 * 18) else newsp) g₁ := by
  unfold procCloneThread at hcall
  rw [hslot] at hcall
  split at hcall
  · obtain ⟨rfl, -⟩ := Prod.mk.inj hcall
    omega
  split at hcall
  · obtain ⟨rfl, -⟩ := Prod.mk.inj hcall
    omega
  obtain ⟨-, rfl⟩ := Prod.mk.inj hcall
  refine ⟨?_, ?_, fun _ => ?_, ?_⟩
  · rw [countSlot_table, modify_table_self]
  · rw [countSlot_table, modify_table_self]
  · rw [countSlot_table, modify_table_self]
  · rw [countSlot_mem, modify_mem]

theorem NewChild.created (hc : NewChild (handlerState k) (k.currentRsp0 - 136) slot ks rsp k₁)
    (hrsp : ∀ m : ℕ → ℕ, (∀ q < 19, m (k.currentRsp0 - 136 + 8 * q) =
      (handlerState k).mem (k.currentRsp0 - 136 + 8 * q)) → rsp m = frameRsp k) :
    Created k slot ks k₁ := by
  refine ⟨hc.kernelRsp, hc.user, fun hk => hc.kern ?_, fun hap q hq => ?_⟩
  · rwa [handlerState_fields.1]
  · rw [hc.mem]
    exact childFrame_word hap hrsp hq

theorem handlerWord_above (h : 136 ≤ k.currentRsp0) :
    handlerWord k 18 = k.mem (k.currentRsp0 + 8) := by
  simp only [handlerWord, OfNat.ofNat_ne_zero, OfNat.ofNat_ne_one, if_false, Nat.reduceLT,
    Nat.reduceEqDiff, Nat.reduceMul]
  congr 1
  omega

variable {k' : Kernel} {cur : ℕ}

/-- The child has not run: its PCB is unchanged but for the state, and so is its frame. -/
structure Waits (k₁ k' : Kernel) (slot ks : ℕ) : Prop where
  pcb : k'.table slot = { k₁.table slot with state := (k'.table slot).state }
  frame : ∀ q < 20, k'.mem (ks + stackSize - 160 + 8 * q) = k₁.mem (ks + stackSize - 160 + 8 * q)

section Calls

variable (h : 136 ≤ k.currentRsp0) (hnum : k.reg .rax = 57 ∨ k.reg .rax = 214 ∨ k.reg .rax = 56)

include h hnum

theorem creationCall_created (hslot : findEmpty k = some slot)
    (hcall : creationCall k (some ks) pml4 = some (pid, k₁)) (hpid : 0 ≤ pid) :
    Created k slot ks k₁ := by
  rw [creationCall_eq h hnum] at hcall
  rw [← findEmpty_handlerState] at hslot
  by_cases hn : k.reg .rax = 56
  · rw [if_pos hn] at hcall
    refine (procCloneThread_newChild hslot (Option.some.inj hcall) hpid).created fun m hm => ?_
    rw [frameRsp, if_pos hn, hm 18 (by omega), handlerState_word h hnum, handlerWord_above h]
  · rw [if_neg hn] at hcall
    refine (procFork_newChild hslot (Option.some.inj hcall) hpid).created fun m _ => ?_
    rw [frameRsp, if_neg hn, handlerState_fields.2.1]

/-- Both ends of the frame: the word a register is popped from is the one of `childReg`. -/
theorem childWord_pop {i : ℕ} {r : Reg} (hi : popOrder[i]? = some r) :
    childWord (handlerState k).mem (k.currentRsp0 - 136) (frameRsp k) i = childReg k r := by
  have hlt : i < 15 := (List.getElem?_eq_some_iff.mp hi).1
  simp only [childWord, handlerState_word h hnum]
  interval_cases i <;> obtain rfl := Option.some.inj hi <;> rfl

/-- **What the child starts with**, whichever routine switches to it. -/
theorem child_starts (sw : Routine) (hc : Created k slot ks k₁)
    (hap : Apart (k.currentRsp0 - 136) (ks + stackSize - 160))
    (hkern : (k.table slot).inKern = false) (hw : Waits k₁ k' slot ks) (hcur : cur ≠ slot) :
    (sw.switch k' cur slot).reg = childReg k ∧ (sw.switch k' cur slot).rip = k.rip ∧
      (sw.switch k' cur slot).rflags = k.rflags ∧ (sw.switch k' cur slot).sp = frameRsp k := by
  have hs := sw.started hcur (k := k') (by rw [hw.pcb]; exact hc.kern hkern)
    (by rw [hw.pcb]; exact hc.user)
  rw [show (k'.table slot).kernelRsp = ks + stackSize - 160 by rw [hw.pcb]; exact hc.rsp] at hs
  have hword : ∀ q < 20, k'.mem (ks + stackSize - 160 + 8 * q) =
      childWord (handlerState k).mem (k.currentRsp0 - 136) (frameRsp k) q :=
    fun q hq => (hw.frame q hq).trans (hc.word hap q hq)
  refine ⟨funext fun r => ?_, ?_, ?_, ?_⟩
  · obtain ⟨i, hi⟩ : ∃ i, popOrder[i]? = some r :=
      mem_iff_getElem?.mp (by cases r <;> decide)
    have hlt : i < 15 := (List.getElem?_eq_some_iff.mp hi).1
    rw [hs.reg i r hi, hword i (by omega), childWord_pop h hnum hi]
  · rw [hs.rip, hword 15 (by omega)]
    exact handlerState_word h hnum 15
  · rw [hs.rflags, hword 17 (by omega)]
    exact handlerState_word h hnum 16
  · rw [hs.sp, hword 18 (by omega)]
    rfl

end Calls

/-- **The child of `fork` or `clone` starts as its parent exactly when the parent's registers
read the same in both orders.** -/
theorem child_registers_iff (sw : Routine) (h : 136 ≤ k.currentRsp0)
    (hnum : k.reg .rax = 57 ∨ k.reg .rax = 214 ∨ k.reg .rax = 56)
    (hslot : findEmpty k = some slot)
    (hcall : creationCall k (some ks) pml4 = some (pid, k₁)) (hpid : 0 ≤ pid)
    (hap : Apart (k.currentRsp0 - 136) (ks + stackSize - 160))
    (hkern : (k.table slot).inKern = false) (hw : Waits k₁ k' slot ks) (hcur : cur ≠ slot) :
    StartsAs k (sw.switch k' cur slot) ↔ FrameFits k := by
  obtain ⟨hreg, hrip, hfl, hsp⟩ := child_starts h hnum sw
    (creationCall_created h hnum hslot hcall hpid) hap hkern hw hcur
  generalize sw.switch k' cur slot = c at hreg hrip hfl hsp
  constructor
  · intro hs
    have hr : ∀ r ∈ keptRegs, childReg k r = k.reg r := fun r hr => by rw [← hreg, hs.regs r hr]
    refine ⟨(hr .r15 (by decide)).symm, (hr .r14 (by decide)).symm, (hr .r13 (by decide)).symm,
      (hr .r12 (by decide)).symm, (hr .rbp (by decide)).symm, (hr .rbx (by decide)).symm,
      (hr .r9 (by decide)).symm, fun hn h0 => ?_⟩
    have hx : frameRsp k = childRsp k := hsp.symm.trans hs.sp
    rwa [frameRsp, if_pos hn, if_pos h0, childRsp, if_neg (by simp [h0])] at hx
  intro hf
  refine ⟨fun r hr => ?_, by rw [hreg]; rfl, hrip, hfl, hsp.trans ?_⟩
  · rw [hreg]
    fin_cases hr
    exacts [hf.rbx.symm, hf.rbp.symm, hf.r12.symm, hf.r13.symm, hf.r14.symm, hf.r15.symm,
      hf.rbp, hf.r12, hf.r13, hf.rbx, hf.r9.symm, rfl]
  · rw [frameRsp, childRsp]
    by_cases hn : k.reg .rax = 56
    · by_cases h0 : k.reg .rsi = 0
      · rw [if_pos hn, if_pos h0, if_neg (by simp [h0]), hf.rsp hn h0]
      · rw [if_pos hn, if_neg h0, if_pos ⟨hn, h0⟩]
    · rw [if_neg hn, if_neg (by simp [hn])]

end Child

/-! ### A parent -/

/-- A process in slot 1 that calls `fork`, with kernel stack below `0x10000`. -/
def forkParent (r15 r9 : ℕ) : Kernel where
  reg
    | .rax => 57
    | .r15 => r15
    | .r9 => r9
    | _ => 0
  sp := 0x7000
  mem := fun _ => 0
  rip := 0x401000
  rflags := 0x202
  ring3 := true
  cr3 := 0x2000
  fsBase := 0
  tssRsp0 := 0x10000
  currentRsp0 := 0x10000
  gInSyscall := false
  table := update (update (fun _ => emptyPcb) 0 (idlePcb 0x8000 0x1000)) 1
    { emptyPcb with pid := 1, state := .running, isUser := true, rsp0 := 0x10000, pml4 := 0x2000 }
  currentPid := 1
  nextPid := 2
  pcbCount := 2
  running := 1

/-- The state after the fork, with the stack of the child at `0x20000`. -/
def forkedKernel (r15 r9 : ℕ) : Kernel :=
  (procFork (handlerState (forkParent r15 r9)) ((forkParent r15 r9).currentRsp0 - 136)
    (some 0x20000) (some 0x3000)).2

section Parent

variable (r15 r9 : ℕ)

theorem forkParent_findEmpty : findEmpty (forkParent r15 r9) = some 2 := rfl

theorem forkParent_current : processCurrent (forkParent r15 r9) = some 1 := rfl

theorem forkParent_rsp0 : 136 ≤ (forkParent r15 r9).currentRsp0 := by
  change 136 ≤ 0x10000
  omega

theorem forkParent_apart :
    Apart ((forkParent r15 r9).currentRsp0 - 136) (0x20000 + stackSize - 160) := by
  change Apart (0x10000 - 136) (0x20000 + 8192 - 160)
  exact .inl (by omega)

theorem forkParent_call : creationCall (forkParent r15 r9) (some 0x20000) (some 0x3000) =
    some (2, forkedKernel r15 r9) := by
  have hcur : processCurrent (handlerState (forkParent r15 r9)) = some 1 := by
    rw [← forkParent_current r15 r9]
    simp only [processCurrent, handlerState_fields]
  have hpid : (procFork (handlerState (forkParent r15 r9))
      ((forkParent r15 r9).currentRsp0 - 136) (some 0x20000) (some 0x3000)).1 = 2 := by
    unfold procFork
    rw [hcur, findEmpty_handlerState, forkParent_findEmpty]
    simp only [handlerState_fields]
    rfl
  have hnum : (forkParent r15 r9).reg .rax ≠ 56 := show (57 : ℕ) ≠ 56 by omega
  rw [creationCall_eq (forkParent_rsp0 r15 r9) (.inl rfl), if_neg hnum, forkedKernel, ← hpid]

end Parent

theorem child_registers_iff_fitting :
    StartsAs (forkParent 214 0x202) (Routine.plain.switch (forkedKernel 214 0x202) 1 2) :=
  (child_registers_iff .plain (forkParent_rsp0 _ _) (.inl rfl) (forkParent_findEmpty _ _)
    (forkParent_call 214 0x202) (by omega) (forkParent_apart _ _) rfl ⟨rfl, fun _ _ => rfl⟩
    (show (1 : ℕ) ≠ 2 by omega)).mpr
    ⟨rfl, rfl, rfl, rfl, rfl, rfl, rfl, fun h => absurd h (by decide)⟩

/-- **A child whose R15 is the number of the system call**, although the parent's is 0. -/
theorem fork_reverses :
    ¬ StartsAs (forkParent 0 0) (Routine.plain.switch (forkedKernel 0 0) 1 2) := by
  intro hs
  have hc := creationCall_created (forkParent_rsp0 0 0) (.inl rfl) (forkParent_findEmpty 0 0)
    (forkParent_call 0 0) (by omega)
  obtain ⟨hreg, -⟩ := child_starts (forkParent_rsp0 0 0) (.inl rfl) .plain hc
    (forkParent_apart 0 0) rfl ⟨rfl, fun _ _ => rfl⟩ (show (1 : ℕ) ≠ 2 by omega)
  have h15 := hs.regs .r15 (by decide)
  rw [hreg] at h15
  cases h15

end TipOS.Process
