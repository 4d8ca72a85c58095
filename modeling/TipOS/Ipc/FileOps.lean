import TipOS.Ipc.Descriptors

/-!
# Calls through one descriptor

`write`, `read` and `lseek` through a descriptor change the position and the counter in its own
record and the data in the slots of pipes and sockets (`FileOp.isLocal`), and what they do depends on
that record and on the slots only (`FileOp.agree`).
-/

namespace TipOS.Ipc

open Function Lib Process

variable {e e' : FdEnt} {y' : Fds} {alive alive' : ℤ → Bool}

inductive FileOp
  | write (a : Answers) (buf : ℕ → UInt8) (count : ℤ)
  | read (a : Answers) (count : ℤ)
  | lseek (a : Answers) (off whence : ℤ)

def FileOp.run (alive : ℤ → Bool) (x : Fds) (i : Fin maxFds) : FileOp → ReadResult × Fds
  | .write a buf count =>
    (.done (doWriteFd a x i.val buf count).1 [], (doWriteFd a x i.val buf count).2)
  | .read a count => sysRead a alive x i.val count
  | .lseek a off whence =>
    (.done (sysLseek a x i.val off whence).1 [], (sysLseek a x i.val off whence).2)

/-! ### What a call through a descriptor changes -/

/-- The same record but for the position and the counter. -/
structure SameObject (e e' : FdEnt) : Prop where
  used : e'.used = e.used
  type : e'.type = e.type
  pipeIdx : e'.rest.pipeIdx = e.rest.pipeIdx
  sockIdx : e'.rest.sockIdx = e.rest.sockIdx
  wend : e'.rest.wend = e.rest.wend

theorem SameObject.refl (e : FdEnt) : SameObject e e := ⟨rfl, rfl, rfl, rfl, rfl⟩

theorem SameObject.symm (h : SameObject e e') : SameObject e' e :=
  ⟨h.used.symm, h.type.symm, h.pipeIdx.symm, h.sockIdx.symm, h.wend.symm⟩

theorem SameObject.trans {e'' : FdEnt} (h : SameObject e e') (h' : SameObject e' e'') :
    SameObject e e'' :=
  ⟨h'.used.trans h.used, h'.type.trans h.type, h'.pipeIdx.trans h.pipeIdx,
    h'.sockIdx.trans h.sockIdx, h'.wend.trans h.wend⟩

theorem SameObject.pipeEnd_eq (h : SameObject e e') : pipeEnd e' = pipeEnd e :=
  pipeEnd_congr h.used h.type h.pipeIdx h.wend

/-- The sockets in use, and the partners. -/
def SameSocks (b b' : Bufs) : Prop := ∀ s, (b'.socks s).used = (b.socks s).used

/-- **A call through descriptor `i`** leaves the other records, and of its own record and of the
slots what they are about. -/
structure Local (x : Fds) (i : Fin maxFds) (y : Fds) : Prop where
  others : ∀ j, j ≠ i → y.table j = x.table j
  own : SameObject (x.table i) (y.table i)
  socks : SameSocks x.bufs y.bufs

theorem sameSocks_setSock (b : Bufs) (s : ℕ) (r : RingBuf UInt8) : SameSocks b (b.setSock s r) := by
  intro l
  rw [Bufs.setSock_socks]
  rw [update_apply]
  split
  · next hl => rw [hl]
  · rfl

theorem sameSocks_writePipe (b : Bufs) (p : ℤ) (nb : Bool) (buf : ℕ → UInt8) (count : ℤ) :
    SameSocks b (writePipe b p nb buf count).2 := by
  unfold writePipe
  split
  · exact fun _ => rfl
  · split
    · exact fun _ => rfl
    · exact fun _ => rfl

theorem sameSocks_sockPush (b : Bufs) (s : ℤ) (buf : ℕ → UInt8) (count : ℤ) :
    SameSocks b (sockPush b s buf count).2 := by
  unfold sockPush
  split
  · exact fun _ => rfl
  · split
    · exact fun _ => rfl
    · exact sameSocks_setSock _ _ _

theorem sameSocks_readPipe (b : Bufs) (p : ℤ) (nb alive : Bool) (count : ℤ) :
    SameSocks b (readPipe b p nb alive count).2 := by
  rcases readPipe_cases b p nb alive count with ⟨res, -, h⟩ | h
  · rw [h]
    exact fun _ => rfl
  · rw [h]
    exact fun _ => rfl

theorem sameSocks_sockPop (b : Bufs) (s : ℤ) (count : ℤ) : SameSocks b (sockPop b s count).2 := by
  unfold sockPop
  split
  · exact fun _ => rfl
  dsimp only
  split
  · exact fun _ => rfl
  · exact sameSocks_setSock _ _ _

/-! ### The answer depends on the record and the slots only -/

/-- The same record and the same slots. -/
structure Agree (i : Fin maxFds) (x x' : Fds) : Prop where
  table : x'.table i = x.table i
  bufs : x'.bufs = x.bufs

/-- **The same change to two states**: none, a position, a counter, or the data in the slots. -/
inductive SameChange (i : Fin maxFds) (x x' : Fds) : Fds → Fds → Prop
  | keep : SameChange i x x' x x'
  | pos (n : ℕ) : SameChange i x x' (x.setPos i n) (x'.setPos i n)
  | counter (c : ℕ) : SameChange i x x' (x.setCounter i c) (x'.setCounter i c)
  | bufs {b : Bufs} (h : SameSocks x.bufs b) :
      SameChange i x x' { x with bufs := b } { x' with bufs := b }

theorem SameChange.isLocal {i : Fin maxFds} {x x' y : Fds} (h : SameChange i x x' y y') :
    Local x i y := by
  cases h with
  | keep => exact ⟨fun _ _ => rfl, .refl _, fun _ => rfl⟩
  | pos n =>
    refine ⟨fun j hj => update_of_ne hj _ _, ?_, fun _ => rfl⟩
    rw [Fds.setPos, Fds.set_table, update_self]
    exact ⟨rfl, rfl, rfl, rfl, rfl⟩
  | counter c =>
    refine ⟨fun j hj => update_of_ne hj _ _, ?_, fun _ => rfl⟩
    rw [Fds.setCounter, Fds.set_table, update_self]
    exact ⟨rfl, rfl, rfl, rfl, rfl⟩
  | bufs h => exact ⟨fun _ _ => rfl, .refl _, h⟩

/-- The same answer, and the same change. -/
def Same {α : Type} (i : Fin maxFds) (x x' : Fds) (r r' : α × Fds) : Prop :=
  r'.1 = r.1 ∧ SameChange i x x' r.2 r'.2

section Agree

variable {i : Fin maxFds} {x x' : Fds} (h : Agree i x x')

include h

theorem Agree.change {y : Fds} (hc : SameChange i x x' y y') : Agree i y y' := by
  cases hc with
  | keep => exact h
  | pos n =>
    refine ⟨?_, h.bufs⟩
    rw [Fds.setPos, Fds.setPos, Fds.set_table, Fds.set_table, update_self, update_self, h.table]
  | counter c =>
    refine ⟨?_, h.bufs⟩
    rw [Fds.setCounter, Fds.setCounter, Fds.set_table, Fds.set_table, update_self, update_self,
      h.table]
  | bufs _ => exact ⟨h.table, rfl⟩

theorem agree_writeFile (a : Answers) (count : ℤ) :
    Same i x x' (writeFile a x i count) (writeFile a x' i count) := by
  unfold writeFile
  rw [h.table]
  split
  · split
    · exact ⟨rfl, .keep⟩
    dsimp only
    split
    · exact ⟨rfl, .pos _⟩
    · exact ⟨rfl, .pos _⟩
  · split
    · exact ⟨rfl, .keep⟩
    · exact ⟨rfl, .keep⟩

theorem agree_doWriteFd (a : Answers) (buf : ℕ → UInt8) (count : ℤ) :
    Same i x x' (doWriteFd a x i.val buf count) (doWriteFd a x' i.val buf count) := by
  unfold doWriteFd
  rw [fdIdx_coe]
  dsimp only
  rw [h.table, h.bufs]
  split
  · exact ⟨rfl, .bufs (sameSocks_writePipe _ _ _ _ _)⟩
  split
  · split
    · refine ⟨rfl, ?_⟩
      split
      · exact .counter _
      · exact .keep
    · split
      · exact ⟨rfl, .bufs (sameSocks_sockPush _ _ _ _)⟩
      · exact agree_writeFile h a count
  · split
    · exact ⟨rfl, .keep⟩
    · exact ⟨rfl, .keep⟩

theorem agree_readOther (a : Answers) (count : ℤ) :
    Same i x x' (readOther a x i count) (readOther a x' i count) := by
  unfold readOther
  dsimp only
  rw [h.table, h.bufs]
  split
  · exact ⟨rfl, .keep⟩
  split
  · exact ⟨rfl, .keep⟩
  split
  · split
    · exact ⟨rfl, .counter _⟩
    · exact ⟨rfl, .keep⟩
  split
  · exact ⟨rfl, .keep⟩
  split
  · exact ⟨rfl, .bufs (sameSocks_sockPop _ _ _)⟩
  · split
    · exact ⟨rfl, .keep⟩
    · exact ⟨rfl, .pos _⟩

theorem agree_sysRead (a : Answers)
    (ha : ∀ v, pipeEnd (x.table i) = some v → alive' v.1 = alive v.1) (count : ℤ) :
    Same i x x' (sysRead a alive x i.val count) (sysRead a alive' x' i.val count) := by
  unfold sysRead
  rw [fdIdx_coe]
  dsimp only
  rw [h.table, h.bufs]
  split
  · next hp =>
    have hend : pipeEnd (x.table i) = some ((x.table i).rest.pipeIdx,
        decide ((x.table i).rest.wend ≠ 0)) := if_pos hp
    rw [ha _ hend]
    exact ⟨rfl, .bufs (sameSocks_readPipe _ _ _ _ _)⟩
  · split
    · exact ⟨rfl, .keep⟩
    · split
      · exact agree_readOther h a count
      · exact ⟨rfl, .keep⟩

theorem agree_sysLseek (a : Answers) (off whence : ℤ) :
    Same i x x' (sysLseek a x i.val off whence) (sysLseek a x' i.val off whence) := by
  unfold sysLseek
  rw [fdIdx_coe]
  dsimp only
  rw [h.table]
  split
  · split
    · exact ⟨rfl, .pos _⟩
    split
    · exact ⟨rfl, .pos _⟩
    split
    · split
      · exact ⟨rfl, .keep⟩
      · exact ⟨rfl, .pos _⟩
    · exact ⟨rfl, .keep⟩
  · exact ⟨rfl, .keep⟩

theorem FileOp.change (ha : ∀ v, pipeEnd (x.table i) = some v → alive' v.1 = alive v.1)
    (op : FileOp) : Same i x x' (op.run alive x i) (op.run alive' x' i) := by
  cases op with
  | write a buf count =>
    obtain ⟨hr, hs⟩ := agree_doWriteFd h a buf count
    exact ⟨congrArg (ReadResult.done · []) hr, hs⟩
  | read a count => exact agree_sysRead h a ha count
  | lseek a off whence =>
    obtain ⟨hr, hs⟩ := agree_sysLseek h a off whence
    exact ⟨congrArg (ReadResult.done · []) hr, hs⟩

theorem FileOp.agree (ha : ∀ v, pipeEnd (x.table i) = some v → alive' v.1 = alive v.1)
    (op : FileOp) :
    (op.run alive' x' i).1 = (op.run alive x i).1 ∧
      Agree i (op.run alive x i).2 (op.run alive' x' i).2 :=
  (op.change h ha).imp_right h.change

end Agree

theorem FileOp.isLocal (alive : ℤ → Bool) (x : Fds) (i : Fin maxFds) (op : FileOp) :
    Local x i (op.run alive x i).2 :=
  (op.change ⟨rfl, rfl⟩ fun _ _ => rfl).2.isLocal

end TipOS.Ipc
