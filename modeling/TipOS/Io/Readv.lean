import TipOS.Io.Devices

/-!
# `readv`

`readv` is to do what one `read` into a buffer of the total length does.  The code of `readv` has
two branches, one for pipes that never waits and one that asks the file system for everything else,
sockets and devices too.  `ReadvAgrees` says, type by type, when the result, the bytes and the state
are those of `read`.
-/

namespace TipOS.Io

open Function Lib Process Ipc Fs List Nat Option Int

variable {n pos : ℕ}

/-! ### The call -/

/-- The branch for files: whether a read has failed, the bytes and the position. -/
def fileLoop (readAt : ℕ → ℕ → Option (List UInt8)) : List (ℕ × ℕ) → ℕ → Bool × List UInt8 × ℕ
  | [], pos => (false, [], pos)
  | (base, len) :: iov, pos =>
    if base = 0 ∨ len = 0 then fileLoop readAt iov pos
    else
      match readAt len pos with
      | none => (true, [], pos)
      | some bytes =>
        let pos := posOf (pos + bytes.length)
        if bytes.length < len then (false, bytes, pos)
        else
          let y := fileLoop readAt iov pos
          (y.1, bytes ++ y.2.1, y.2.2)

/-- The lengths of the buffers that are filled. -/
def lens (iov : List (ℕ × ℕ)) : List ℕ :=
  (iov.filter fun v => decide (v.1 ≠ 0 ∧ v.2 ≠ 0)).map Prod.snd

/-- Buffers whose total length is an `int`. -/
abbrev Iovecs := { iov : List (ℕ × ℕ) // (lens iov).sum < 2 ^ 31 }

def Iovecs.total (iov : Iovecs) : ℕ := (lens iov.val).sum

/-- `readv`. -/
def readvOn (b : Files) (s : IoState) (fd : ℤ) (iov : Iovecs) : ReadResult × IoState :=
  match fdIdx fd with
  | none => (.done (-1) [], s)
  | some i =>
    let e := s.fds.table i
    if iov.val = [] ∨ 16 < iov.val.length then (.done (-1) [], s)
    else if 3 ≤ i.val ∧ e.used = true ∧ e.type = typePipe then
      let y := sysReadv s.fds fd iov.val
      (y.1, ⟨y.2, s.dev⟩)
    else if 3 ≤ i.val ∧ e.used = true then
      let y := fileLoop (b.readAt e.rest.name) iov.val e.rest.pos
      (.done (if y.1 = true then -1 else y.2.1.length) y.2.1, ⟨s.fds.setPos i y.2.2, s.dev⟩)
    else (.done (-1) [], s)

/-! ### When it is `read` -/

/-- `read` returns -1 and does nothing. -/
def ReadFails (b : Files) (s : IoState) (i : Fin maxFds) (count : ℕ) : Prop :=
  let e := s.fds.table i
  if e.used = true ∧ e.type = typePipe then s.fds.bufs.pipeOk e.rest.pipeIdx = false
  else if i.val = 0 then count = 0
  else if 3 ≤ i.val ∧ e.used = true then
    e.type = fdFb ∨ e.type = typeSock ∧ s.fds.bufs.sockOk e.rest.sockIdx = false ∨
      IsFile e ∧ b.rest e.rest.name e.rest.pos = none
  else True

/-- Each buffer but the first gets the bytes of the beginning of the file: they are those that
follow. -/
def Repeats (f : List UInt8) : ℕ → List ℕ → Prop
  | _, [] => True
  | off, l :: ls => f.take l = (f.drop off).take l ∧ (l ≤ f.length → Repeats f (off + l) ls)

/-- A slot of `socks` is in use, and a read of it finds nothing. -/
def SockEmpty (s : IoState) (k : ℤ) : Prop :=
  s.fds.bufs.sockOk k = true ∧ (s.fds.bufs.socks k.toNat).ring.rpos = (s.fds.bufs.socks k.toNat).ring.wpos

/-- For a socket, `readv` reads the file whose name is in the record. -/
def SockAgrees (b : Files) (s : IoState) (e : FdEnt) (ls : List ℕ) : Prop :=
  let k := e.rest.sockIdx
  if ls = [] then
    s.fds.bufs.sockOk k = true ∧ ¬ (SockEmpty s k ∧ (s.fds.bufs.socks k.toNat).nonblock = true)
  else
    match b.rest e.rest.name e.rest.pos with
    | none => s.fds.bufs.sockOk k = false
    | some g => g = [] ∧ SockEmpty s k ∧ (s.fds.bufs.socks k.toNat).nonblock = false

/-- **When `readv` does what `read` does.** -/
def ReadvAgrees (b : Files) (alive : ℤ → Bool) (s : IoState) (fd : ℤ) (iov : Iovecs) : Prop :=
  match fdIdx fd with
  | none => True
  | some i =>
    let e := s.fds.table i
    let ls := lens iov.val
    if iov.val = [] ∨ 16 < iov.val.length ∨ i.val < 3 then ReadFails b s i iov.total
    else if e.used = false then True
    else if e.type = typePipe then
      s.fds.bufs.pipeOk e.rest.pipeIdx = true →
        (s.fds.bufs.pipes e.rest.pipeIdx.toNat).ring.rpos ≠
            (s.fds.bufs.pipes e.rest.pipeIdx.toNat).ring.wpos ∨
          nonblock e = false ∧ alive e.rest.pipeIdx = false
    else if e.type = fdTty ∨ e.type = fdMice then False
    else if e.type = fdFb then ls ≠ [] ∧ b.rest e.rest.name e.rest.pos = none
    else if e.type = typeEvent ∨ e.type = typeTimer then ls = []
    else if e.type = typeSock then SockAgrees b s e ls
    else
      match b.rest e.rest.name e.rest.pos with
      | none => ls ≠ []
      | some g => b.ext2 = true ∨ Repeats g 0 ls

/-! ### The loops -/

theorem lens_cons (base len : ℕ) (iov : List (ℕ × ℕ)) :
    lens ((base, len) :: iov) = if base = 0 ∨ len = 0 then lens iov else len :: lens iov := by
  by_cases h : base = 0 ∨ len = 0
  · rw [if_pos h, lens, filter_cons_of_neg (by simpa using fun hb => h.resolve_left hb), lens]
  · rw [if_neg h, lens, filter_cons_of_pos (by simpa using not_or.mp h), map_cons, lens]

theorem readvLoop_eq (iov : List (ℕ × ℕ)) (r : RingBuf UInt8) :
    readvLoop iov r = drainRing r (lens iov).sum := by
  induction iov generalizing r with
  | nil => rfl
  | cons v iov ih =>
    obtain ⟨base, len⟩ := v
    rw [readvLoop, lens_cons]
    split
    · exact ih r
    rw [sum_cons, drainRing, drainRing, RingBuf.popAll_add]
    dsimp only
    split
    · next hs =>
      rw [RingBuf.popAll_empty _ _ _ (RingBuf.popAll_short _ _ _ hs), append_nil]
    · rw [ih]
      rfl

theorem fileLoop_none {readAt : ℕ → ℕ → Option (List UInt8)} (h : ∀ n p, readAt n p = none)
    (iov : List (ℕ × ℕ)) (pos : ℕ) :
    fileLoop readAt iov pos = (decide (lens iov ≠ []), [], pos) := by
  induction iov with
  | nil => rfl
  | cons v iov ih =>
    obtain ⟨base, len⟩ := v
    rw [fileLoop, lens_cons]
    split
    · exact ih
    · rw [h]
      simp

theorem posOf_of_lt (h : n < 2 ^ 32) : posOf n = n := by
  rw [posOf]
  omega

theorem posOf_add (p m n : ℕ) : posOf (posOf (p + m) + n) = posOf (p + (m + n : ℕ)) := by
  rw [posOf, posOf, posOf]
  omega

theorem fileLoop_ext2 {f : List UInt8} (hf : f.length < 2 ^ 32) (iov : List (ℕ × ℕ))
    (hp : pos < 2 ^ 32) : fileLoop (fun n p => some ((f.drop p).take n)) iov pos =
      (false, (f.drop pos).take (lens iov).sum,
        posOf (pos + ((f.drop pos).take (lens iov).sum).length)) := by
  induction iov generalizing pos with
  | nil =>
    change (false, [], pos) = (false, [], posOf (pos + (0 : ℕ)))
    rw [Int.natCast_zero, Int.add_zero, posOf_of_lt hp]
  | cons v iov ih =>
    obtain ⟨base, len⟩ := v
    rw [fileLoop, lens_cons]
    split
    · exact ih hp
    rw [sum_cons]
    dsimp only
    split
    · next hs =>
      have hall : (f.drop pos).length ≤ len := by
        rw [length_take] at hs
        omega
      rw [take_of_length_le hall, take_of_length_le (le_trans hall (le_add_right _ _))]
    next hs =>
    have hlen : ((f.drop pos).take len).length = len := by
      rw [length_take] at hs ⊢
      omega
    have hle : pos + len ≤ f.length := by
      rw [length_take, length_drop] at hs
      by_contra hc
      omega
    have hpos : posOf (pos + (len : ℤ)) = pos + len := posOf_of_lt (n := pos + len) (by omega)
    rw [hlen, hpos, ih (by omega), take_add, drop_drop, length_append, hlen]
    rw [Nat.cast_add, Nat.cast_add, Int.add_assoc]

/-- What the buffers get on FAT32. -/
def again (f : List UInt8) : List ℕ → List UInt8
  | [] => []
  | l :: ls => if f.length < l then f else f.take l ++ again f ls

theorem fileLoop_fat32 (f : List UInt8) (iov : List (ℕ × ℕ)) (hp : pos < 2 ^ 32) :
    fileLoop (fun n _ => some (f.take n)) iov pos =
      (false, again f (lens iov), posOf (pos + (again f (lens iov)).length)) := by
  induction iov generalizing pos with
  | nil =>
    change (false, [], pos) = (false, [], posOf (pos + (0 : ℕ)))
    rw [Int.natCast_zero, Int.add_zero, posOf_of_lt hp]
  | cons v iov ih =>
    obtain ⟨base, len⟩ := v
    rw [fileLoop, lens_cons]
    split
    · exact ih hp
    rw [again]
    dsimp only
    by_cases hs : f.length < len
    · rw [if_pos hs, take_of_length_le (le_of_lt hs), if_pos hs]
    have hlen : (f.take len).length = len := by
      rw [length_take]
      omega
    have hlt : posOf (pos + (len : ℤ)) < 2 ^ 32 := by
      rw [posOf]
      omega
    rw [if_neg hs, hlen, if_neg (lt_irrefl len), ih hlt, length_append, hlen]
    rw [posOf_add]

/-- **The bytes on FAT32** are those of one read if the file repeats its beginning. -/
theorem again_eq_iff (f : List UInt8) (ls : List ℕ) (off : ℕ) :
    again f ls = (f.drop off).take ls.sum ↔ Repeats f off ls := by
  induction ls generalizing off with
  | nil => simp [again, Repeats]
  | cons l ls ih =>
    rw [again, Repeats, sum_cons]
    by_cases hs : f.length < l
    · have hdrop : (f.drop off).length ≤ l := by
        rw [length_drop]
        omega
      rw [if_pos hs, take_of_length_le (le_of_lt hs), take_of_length_le hdrop,
        take_of_length_le (le_trans hdrop (le_add_right _ _))]
      exact ⟨fun h => ⟨h, fun hl => absurd hs (by omega)⟩, fun h => h.1⟩
    have hlen : (f.take l).length = l := by
      rw [length_take]
      omega
    rw [if_neg hs, take_add, drop_drop, ← ih]
    constructor
    · intro h
      have hle : l ≤ (f.drop off).length := by
        have htotal := congrArg List.length h
        rw [length_append, length_append, hlen, length_take, length_take,
          length_drop, length_drop] at htotal
        rw [length_drop]
        omega
      obtain ⟨h1, h2⟩ := append_inj h (by rw [hlen, length_take]; omega)
      exact ⟨h1, fun _ => h2⟩
    · rintro ⟨h1, h2⟩
      rw [h1, h2 (by omega)]

/-- What the buffers get. -/
def gathered (ext2 : Bool) (g : List UInt8) (ls : List ℕ) : List UInt8 :=
  if ext2 = true then g.take ls.sum else again g ls

theorem again_length_le (f : List UInt8) (ls : List ℕ) : (again f ls).length ≤ ls.sum := by
  induction ls with
  | nil => exact le_refl 0
  | cons l ls ih =>
    rw [again, sum_cons]
    split
    · omega
    · rw [length_append, length_take]
      omega

theorem gathered_length_le (ext2 : Bool) (g : List UInt8) (ls : List ℕ) :
    (gathered ext2 g ls).length ≤ ls.sum := by
  rw [gathered]
  split
  · rw [length_take]
    omega
  · exact again_length_le g ls

theorem lens_pos {iov : List (ℕ × ℕ)} : ∀ l ∈ lens iov, 0 < l := by
  intro l hl
  obtain ⟨v, hv, rfl⟩ := mem_map.mp hl
  have hne := of_decide_eq_true (mem_filter.mp hv).2
  omega

theorem total_eq_zero_iff (iov : Iovecs) : iov.total = 0 ↔ lens iov.val = [] := by
  constructor
  · intro h
    cases hl : lens iov.val with
    | nil => rfl
    | cons l ls =>
      have hpos : 0 < l := lens_pos l (by rw [hl]; exact .head _)
      rw [Iovecs.total, hl, sum_cons] at h
      omega
  · intro h
    rw [Iovecs.total, h]
    rfl

theorem gathered_eq_nil_iff (ext2 : Bool) (g : List UInt8) {iov : List (ℕ × ℕ)}
    (h : lens iov ≠ []) : gathered ext2 g (lens iov) = [] ↔ g = [] := by
  obtain ⟨l, ls, hl⟩ := exists_cons_of_ne_nil h
  have hpos : 0 < l := lens_pos l (by rw [hl]; exact .head _)
  rw [hl, gathered]
  split
  · rw [take_eq_nil_iff, sum_cons]
    exact or_iff_right (by omega)
  rw [again]
  split
  · exact Iff.rfl
  next hs =>
  rw [append_eq_nil_iff, take_eq_nil_iff]
  constructor
  · exact fun hn => hn.1.resolve_left (by omega)
  · rintro rfl
    exact absurd hpos (by simpa using hs)

theorem fileLoop_files (b : Files) (name : List UInt8) (iov : List (ℕ × ℕ)) (hp : pos < 2 ^ 32) :
    fileLoop (b.readAt name) iov pos =
      match b.rest name pos with
      | none => (decide (lens iov ≠ []), [], pos)
      | some g => (false, gathered b.ext2 g (lens iov),
          posOf (pos + (gathered b.ext2 g (lens iov)).length)) := by
  cases hc : b.contents name with
  | none =>
    have hrest : ∀ p, b.rest name p = none := fun p => by rw [Files.rest, hc, map_none]
    rw [hrest]
    exact fileLoop_none (fun n p => by rw [Files.readAt, hrest, map_none]) iov pos
  | some f =>
    cases he : b.ext2 with
    | true =>
      have hrest : ∀ p, b.rest name p = some (f.drop p) := fun p => by
        rw [Files.rest, hc, map_some, if_pos he]
      have hread : b.readAt name = fun n p => some ((f.drop p).take n) := by
        funext n p
        rw [Files.readAt, hrest, map_some]
      rw [hread, hrest, fileLoop_ext2 (b.small name f hc) iov hp]
      rfl
    | false =>
      have hne : ¬ b.ext2 := by
        rw [he]
        decide
      have hrest : ∀ p, b.rest name p = some f := fun p => by
        rw [Files.rest, hc, map_some, if_neg hne]
      have hread : b.readAt name = fun n _ => some (f.take n) := by
        funext n p
        rw [Files.readAt, hrest, map_some]
      rw [hread, hrest, fileLoop_fat32 f iov hp]
      rfl

/-! ### Type by type -/

theorem setPos_self (x : Fds) (i : Fin maxFds) : x.setPos i (x.table i).rest.pos = x := by
  rw [Fds.setPos, Fds.set]
  exact congrArg (Fds.mk · x.bufs) (update_eq_self i x.table)

/-- No bytes, and the position where it was. -/
theorem setPos_posOf_nil {x : Fds} {i : Fin maxFds} (hpos : (x.table i).rest.pos < 2 ^ 32) :
    x.setPos i (posOf ((x.table i).rest.pos + ([] : List UInt8).length)) = x := by
  rw [length_nil, Int.natCast_zero, Int.add_zero, posOf_of_lt hpos, setPos_self]

section

variable {b : Files} {alive : ℤ → Bool} {s : IoState} {i : Fin maxFds} {iov : Iovecs}

theorem done_count_ne (m : ℕ) (l : List UInt8) : ReadResult.done m l ≠ .done (-1) [] := by
  intro h
  have := (ReadResult.done.inj h).1
  omega

theorem keyboardLoop_ne (n : ℕ) (q got : List UInt8) :
    (keyboardLoop n q got).1 ≠ .done (-1) [] := by
  induction n generalizing q got with
  | zero => exact done_count_ne _ _
  | succ n ih =>
    cases q with
    | nil => exact fun h => nomatch h
    | cons c q =>
      rw [keyboardLoop]
      split
      · exact done_count_ne (got.length + 1) _
      split
      · exact done_count_ne _ _
      · exact ih q (got ++ [c])

theorem readKeyboard_ne (nb : Bool) (q : List UInt8) (n : ℕ) :
    (readKeyboard nb q n).1 ≠ .done (-1) [] := by
  rw [readKeyboard]
  split
  · exact fun h => nomatch h
  · exact keyboardLoop_ne n q []

theorem readQueue_cases (nb : Bool) (q : List UInt8) (n : ℕ) :
    (readQueue nb q n).2 ≠ q ∨ (readQueue nb q n).1 = .done (-11) [] ∨
      (readQueue nb q n).1 = .waits := by
  rw [readQueue.eq_def]
  split
  · next h =>
    refine .inl fun hq => ?_
    have hlen := congrArg List.length hq
    have hpos := length_pos_of_ne_nil h.2
    rw [length_drop] at hlen
    omega
  · split
    · exact .inr (.inl rfl)
    · cases q with
      | nil => exact .inr (.inr rfl)
      | cons c q => exact .inl (cons_ne_self c q).symm

theorem Devices.read_cases (d : Devices) (t : FdTable) (n : ℕ) (hi : i.val ≠ 0) :
    (d.read t i n).2 ≠ d ∨ (d.read t i n).1 = .done (-11) [] ∨ (d.read t i n).1 = .waits := by
  rw [Devices.read, if_neg hi]
  split
  · rcases readQueue_cases (nonblock (t i)) d.kbdRaw n with h | h
    · exact .inl fun hd => h (congrArg Devices.kbdRaw hd)
    · exact .inr h
  · rcases readQueue_cases (nonblock (t i)) d.mice n with h | h
    · exact .inl fun hd => h (congrArg Devices.mice hd)
    · exact .inr h

theorem readPipe_fails_iff (x : Bufs) (p : ℤ) (nb al : Bool) (n : ℤ) :
    (readPipe x p nb al n).1 = .done (-1) [] ↔ x.pipeOk p = false := by
  rcases readPipe_view x p nb al n with ⟨h, he⟩ | ⟨h, -, he | he⟩ | ⟨h, -, he⟩ <;> rw [he, h]
  · exact iff_of_true rfl rfl
  · exact iff_of_false (fun hr => nomatch hr) (by decide)
  · exact iff_of_false (fun hr => nomatch hr) (by decide)
  · exact iff_of_false (done_count_ne _ _) (by decide)

theorem sockPop_fails_iff (x : Bufs) (k : ℤ) (n : ℤ) :
    (sockPop x k n).1 = .done (-1) [] ↔ x.sockOk k = false := by
  rw [sockPop]
  split
  · next h => exact iff_of_true rfl h
  next h =>
  refine iff_of_false ?_ h
  dsimp only
  split
  · split
    · exact fun hr => nomatch hr
    · exact fun hr => nomatch hr
  · exact done_count_ne _ _

theorem sockPop_empty {s : IoState} {k : ℤ} {n : ℤ} (h : SockEmpty s k)
    (hb : (s.fds.bufs.socks k.toNat).nonblock = false) :
    sockPop s.fds.bufs k n = (.done 0 [], s.fds.bufs) := by
  rw [sockPop, h.1, if_neg (by decide)]
  rw [if_pos h.2, hb]
  rfl

theorem drainRing_ne_nil {r : RingBuf UInt8} (h : r.rpos ≠ r.wpos) (hn : 0 < n) :
    (drainRing r n).1 ≠ [] := by
  obtain ⟨n, rfl⟩ := exists_eq_succ_of_ne_zero (ne_of_gt hn)
  rw [drainRing, RingBuf.popAll, if_pos h]
  exact cons_ne_nil _ _

theorem sockPop_nothing_iff (s : IoState) (k : ℤ) (hn : 0 < n) :
    (sockPop s.fds.bufs k n).1 = .done 0 [] ↔
      SockEmpty s k ∧ (s.fds.bufs.socks k.toNat).nonblock = false := by
  refine ⟨fun h => ?_, fun h => by rw [sockPop_empty h.1 h.2]⟩
  rw [sockPop] at h
  split at h
  · cases h
  next hok =>
  dsimp only at h
  split at h
  · next he =>
    refine ⟨⟨Bool.eq_true_of_not_eq_false hok, he⟩, Bool.eq_false_iff.mpr fun hb => ?_⟩
    rw [if_pos hb] at h
    cases h
  · next he =>
    exact absurd (ReadResult.done.inj h).2 (drainRing_ne_nil he (by omega))

theorem sockPop_zero_iff (s : IoState) (k : ℤ) :
    (ReadResult.done 0 [], s) = ((sockPop s.fds.bufs k (0 : ℕ)).1,
        ⟨⟨s.fds.table, (sockPop s.fds.bufs k (0 : ℕ)).2⟩, s.dev⟩) ↔
      s.fds.bufs.sockOk k ∧
        ¬ (SockEmpty s k ∧ (s.fds.bufs.socks k.toNat).nonblock) := by
  rw [sockPop]
  by_cases hok : s.fds.bufs.sockOk k = false
  · rw [if_pos hok]
    exact iff_of_false (fun h => nomatch congrArg Prod.fst h)
      fun h => absurd (hok.symm.trans h.1) (by decide)
  rw [if_neg hok]
  rw [Bool.not_eq_false] at hok
  dsimp only
  split
  · next he =>
    split
    · next hb =>
      exact iff_of_false (fun h => nomatch congrArg Prod.fst h) fun h => h.2 ⟨⟨hok, he⟩, hb⟩
    · next hb => exact iff_of_true rfl ⟨hok, fun h => hb h.2⟩
  next he =>
  refine iff_of_true ?_ ⟨hok, fun h => he h.1.2⟩
  have hset : s.fds.bufs.setSock k.toNat (s.fds.bufs.socks k.toNat).ring = s.fds.bufs :=
    congrArg (Bufs.mk s.fds.bufs.pipes) (update_eq_self k.toNat s.fds.bufs.socks)
  change _ = (ReadResult.done 0 [], IoState.mk (Fds.mk s.fds.table
    (s.fds.bufs.setSock k.toNat (s.fds.bufs.socks k.toNat).ring)) s.dev)
  rw [hset]

/-- **When `read` fails.** -/
theorem readOn_fails_iff (b : Files) (alive : ℤ → Bool) (s : IoState) (i : Fin maxFds) (n : ℕ) :
    readOn b alive s i.val n = (.done (-1) [], s) ↔ ReadFails b s i n := by
  rw [ReadFails]
  set e := s.fds.table i
  by_cases hp : e.used ∧ e.type = typePipe
  · rw [if_pos hp, readOn_pipe hp.1 hp.2, ← readPipe_fails_iff s.fds.bufs _ (nonblock e)
      (alive e.rest.pipeIdx) n]
    refine ⟨fun h => congrArg Prod.fst h, fun h => ?_⟩
    have hok := (readPipe_fails_iff _ _ _ _ _).mp h
    rw [readPipe, if_pos hok]
  rw [if_neg hp]
  by_cases h0 : i.val = 0
  · rw [if_pos h0]
    by_cases hn : 0 < n
    · rw [readOn_keyboard hp h0 hn]
      exact iff_of_false (fun h => readKeyboard_ne _ _ _ (congrArg Prod.fst h)) (by omega)
    · exact iff_of_true (readOn_none hp (fun h => hn h.2) (by omega)) (by omega)
  rw [if_neg h0]
  by_cases h3 : 3 ≤ i.val ∧ e.used
  · rw [if_pos h3]
    obtain ⟨h3, hu⟩ := h3
    have hcode : ∀ (m : ℕ) (l : List UInt8) (t : IoState),
        (ReadResult.done m l, t) ≠ (.done (-1) [], s) := fun m l t h =>
      done_count_ne m l (congrArg Prod.fst h)
    have hno : e.type ≠ fdFb → e.type ≠ typeSock → ¬ IsFile e → ¬ (e.type = fdFb ∨
        e.type = typeSock ∧ s.fds.bufs.sockOk e.rest.sockIdx = false ∨
        IsFile e ∧ b.rest e.rest.name e.rest.pos = none) := by
      rintro h1 h2 h4 (h | h | h)
      · exact h1 h
      · exact h2 h.1
      · exact h4 h.1
    rcases type_cases e with ht | ht | ht | ht | ht | ht | ht
    · exact absurd ⟨hu, ht⟩ hp
    · rw [readOn_device h3 hu ht]
      refine iff_of_false (fun h => ?_) ?_
      · have hr : (s.dev.read s.fds.table i n).1 = .done (-1) [] := congrArg Prod.fst h
        rcases s.dev.read_cases s.fds.table n h0 with hc | hc | hc
        · exact hc (congrArg (fun r => r.2.dev) h)
        · cases hc.symm.trans hr
        · cases hc.symm.trans hr
      · rcases ht with ht | ht
        · exact hno (by rw [ht]; decide) (by rw [ht]; decide) fun h => h.2.2.2.2.2.1 ht
        · exact hno (by rw [ht]; decide) (by rw [ht]; decide) fun h => h.2.2.2.2.2.2 ht
    · exact iff_of_true (readOn_fb h3 hu ht) (.inl ht)
    · rw [readOn_event h3 hu ht]
      refine iff_of_false ?_ (hno (by rw [ht]; decide) (by rw [ht]; decide) fun h => h.1 ht)
      split
      · exact hcode _ _ _
      · exact hcode _ _ _
    · rw [readOn_timer h3 hu ht]
      exact iff_of_false (hcode _ _ _)
        (hno (by rw [ht]; decide) (by rw [ht]; decide) fun h => h.2.1 ht)
    · rw [readOn_sock h3 hu ht]
      constructor
      · exact fun h => .inr (.inl ⟨ht, (sockPop_fails_iff _ _ _).mp (congrArg Prod.fst h)⟩)
      · rintro (h | h | h)
        · cases ht.symm.trans h
        · rw [sockPop, if_pos h.2]
        · exact absurd ht h.1.2.2.2.1
    rw [readOn_file h3 hu ht]
    cases hr : b.rest e.rest.name e.rest.pos with
    | none => exact iff_of_true rfl (.inr (.inr ⟨ht, rfl⟩))
    | some g =>
      refine iff_of_false (hcode _ _ _) ?_
      rintro (h | h | h)
      · exact ht.2.2.2.2.1 h
      · exact ht.2.2.2.1 h.1
      · cases h.2
  · rw [if_neg h3]
    exact iff_of_true (readOn_none hp (fun h => h0 h.1) h3) trivial

section Types

variable (hok : ¬ (iov.val = [] ∨ 16 < iov.val.length)) (h3 : 3 ≤ i.val)
  (hu : (s.fds.table i).used)

include hok h3 hu

/-- `readv` of what is not a pipe. -/
theorem readvOn_other (ht : (s.fds.table i).type ≠ typePipe)
    (hpos : (s.fds.table i).rest.pos < 2 ^ 32) : readvOn b s i.val iov =
      match b.rest (s.fds.table i).rest.name (s.fds.table i).rest.pos with
      | none => (.done (if lens iov.val = [] then 0 else -1) [], s)
      | some g => (.done (gathered b.ext2 g (lens iov.val)).length (gathered b.ext2 g (lens iov.val)),
          ⟨s.fds.setPos i (posOf ((s.fds.table i).rest.pos +
            (gathered b.ext2 g (lens iov.val)).length)), s.dev⟩) := by
  rw [readvOn, fdIdx_coe]
  dsimp only
  rw [if_neg hok, if_neg fun h => ht h.2.2, if_pos ⟨h3, hu⟩, fileLoop_files b _ _ hpos]
  cases b.rest (s.fds.table i).rest.name (s.fds.table i).rest.pos with
  | none =>
    rw [setPos_self]
    by_cases hl : lens iov.val = []
    · rw [hl]
      rfl
    · rw [if_neg hl, decide_eq_true hl, if_pos rfl]
  | some g => rfl

theorem readvOn_pipe_iff (ht : (s.fds.table i).type = typePipe) :
    readvOn b s i.val iov = readOn b alive s i.val iov.total ↔
      (s.fds.bufs.pipeOk (s.fds.table i).rest.pipeIdx →
        (s.fds.bufs.pipes (s.fds.table i).rest.pipeIdx.toNat).ring.rpos ≠
            (s.fds.bufs.pipes (s.fds.table i).rest.pipeIdx.toNat).ring.wpos ∨
          nonblock (s.fds.table i) = false ∧ alive (s.fds.table i).rest.pipeIdx = false) := by
  rw [readOn_pipe hu ht, readvOn, fdIdx_coe]
  dsimp only
  rw [if_neg hok, if_pos ⟨h3, hu, ht⟩, sysReadv, fdIdx_coe]
  dsimp only
  rw [if_pos ⟨h3, hu, ht⟩, readvPipe, if_neg hok]
  rcases readPipe_view s.fds.bufs (s.fds.table i).rest.pipeIdx (nonblock (s.fds.table i))
    (alive (s.fds.table i).rest.pipeIdx) iov.total with ⟨hp, he⟩ | ⟨hp, hn, he⟩ | ⟨hp, hh, he⟩
  · rw [he, hp, if_pos rfl]
    exact iff_of_true rfl fun h => absurd h (by decide)
  · rw [hp, if_neg (by decide), readvLoop_eq]
    refine iff_of_false (fun h => ?_) fun h => hn (h rfl)
    have hr := congrArg Prod.fst h
    rcases he with he | he <;> rw [he] at hr
    · have := (ReadResult.done.inj hr).1
      omega
    · cases hr
  · rw [he, hp, if_neg (by decide), readvLoop_eq]
    exact iff_of_true rfl fun _ => hh

variable (hpos : (s.fds.table i).rest.pos < 2 ^ 32)

include hpos

theorem readvOn_device_ne (ht : (s.fds.table i).type = fdTty ∨ (s.fds.table i).type = fdMice) :
    readvOn b s i.val iov ≠ readOn b alive s i.val iov.total := by
  have hp : (s.fds.table i).type ≠ typePipe := by
    rcases ht with h | h
    · rw [h]
      decide
    · rw [h]
      decide
  -- `readv` leaves the queues alone, and returns -1 or a number of bytes
  have hv : ∃ r l, (readvOn b s i.val iov).1 = .done r l ∧ -1 ≤ r ∧
      (readvOn b s i.val iov).2.dev = s.dev := by
    rw [readvOn_other hok h3 hu hp hpos]
    cases b.rest (s.fds.table i).rest.name (s.fds.table i).rest.pos with
    | none =>
      refine ⟨_, _, rfl, ?_, rfl⟩
      split
      · decide
      · decide
    | some g => exact ⟨_, _, rfl, by omega, rfl⟩
  obtain ⟨r, l, hr, hle, hdev⟩ := hv
  intro h
  rw [h, readOn_device h3 hu ht] at hr hdev
  rcases s.dev.read_cases s.fds.table iov.total (by omega : i.val ≠ 0) with hc | hc | hc
  · exact hc hdev
  · have := (ReadResult.done.inj (hc.symm.trans hr)).1
    omega
  · cases hc.symm.trans hr

theorem readvOn_fb_iff (ht : (s.fds.table i).type = fdFb) :
    readvOn b s i.val iov = readOn b alive s i.val iov.total ↔ lens iov.val ≠ [] ∧
      b.rest (s.fds.table i).rest.name (s.fds.table i).rest.pos = none := by
  rw [readOn_fb h3 hu ht, readvOn_other hok h3 hu (by rw [ht]; decide) hpos]
  cases b.rest (s.fds.table i).rest.name (s.fds.table i).rest.pos with
  | none =>
    dsimp only
    split
    · next hl => exact iff_of_false (fun h => nomatch congrArg Prod.fst h) fun h => h.1 hl
    · next hl => exact iff_of_true rfl ⟨hl, rfl⟩
  | some g =>
    exact iff_of_false (fun h => done_count_ne _ _ (congrArg Prod.fst h)) fun h => nomatch h.2

theorem readvOn_count_iff (ht : (s.fds.table i).type ≠ typePipe) {l : List UInt8} {t : IoState}
    (hread : readOn b alive s i.val iov.total = (.done iov.total l, t))
    (hkeep : (t.fds.table i).rest.pos = (s.fds.table i).rest.pos)
    (hnil : iov.total = 0 → l = [] ∧ t = s) :
    readvOn b s i.val iov = readOn b alive s i.val iov.total ↔ lens iov.val = [] := by
  have hlt : iov.total < 2 ^ 31 := iov.property
  have hzero := total_eq_zero_iff iov
  rw [hread, readvOn_other hok h3 hu ht hpos]
  cases b.rest (s.fds.table i).rest.name (s.fds.table i).rest.pos with
  | none =>
    dsimp only
    split
    · next hl =>
      obtain ⟨rfl, rfl⟩ := hnil (hzero.mpr hl)
      rw [hzero.mpr hl]
      exact iff_of_true rfl hl
    · next hl =>
      refine iff_of_false (fun h => ?_) hl
      have := (ReadResult.done.inj (congrArg Prod.fst h)).1
      omega
  | some g =>
    dsimp only
    constructor
    · intro h
      have hlen := (ReadResult.done.inj (congrArg Prod.fst h)).1
      have hp := congrArg (fun r => (r.2.fds.table i).rest.pos) h
      dsimp only at hp
      rw [setPos_pos, hkeep, hlen, posOf] at hp
      exact hzero.mp (by omega)
    intro hl
    have h0 := hzero.mpr hl
    have hg : gathered b.ext2 g (lens iov.val) = [] := by
      have := gathered_length_le b.ext2 g (lens iov.val)
      exact eq_nil_of_length_eq_zero (le_zero.mp (h0 ▸ this))
    obtain ⟨rfl, rfl⟩ := hnil h0
    rw [hg, h0, setPos_posOf_nil hpos]
    rfl

theorem readvOn_event_iff (ht : (s.fds.table i).type = typeEvent) :
    readvOn b s i.val iov = readOn b alive s i.val iov.total ↔ lens iov.val = [] := by
  have hp : (s.fds.table i).type ≠ typePipe := by
    rw [ht]
    decide
  by_cases h8 : 8 ≤ iov.total
  · refine readvOn_count_iff hok h3 hu hpos hp ((readOn_event h3 hu ht).trans (if_pos h8)) ?_
      fun h0 => absurd h0 (by omega)
    change ((update s.fds.table i _) i).rest.pos = _
    rw [update_self]
  · exact readvOn_count_iff hok h3 hu hpos hp ((readOn_event h3 hu ht).trans (if_neg h8)) rfl
      fun _ => ⟨rfl, rfl⟩

theorem readvOn_timer_iff (ht : (s.fds.table i).type = typeTimer) :
    readvOn b s i.val iov = readOn b alive s i.val iov.total ↔ lens iov.val = [] := by
  refine readvOn_count_iff hok h3 hu hpos (by rw [ht]; decide) (readOn_timer h3 hu ht) rfl
    fun h0 => ⟨?_, rfl⟩
  rw [h0]
  rfl

theorem readvOn_nothing (ht : (s.fds.table i).type ≠ typePipe) (hl : lens iov.val = []) :
    readvOn b s i.val iov = (.done 0 [], s) := by
  rw [readvOn_other hok h3 hu ht hpos, hl]
  cases b.rest (s.fds.table i).rest.name (s.fds.table i).rest.pos with
  | none => rfl
  | some g =>
    have hg : gathered b.ext2 g [] = [] :=
      eq_nil_of_length_eq_zero (le_zero.mp (gathered_length_le b.ext2 g []))
    dsimp only
    rw [hg, setPos_posOf_nil hpos]
    rfl

theorem readvOn_sock_iff (ht : (s.fds.table i).type = typeSock) :
    readvOn b s i.val iov = readOn b alive s i.val iov.total ↔
      SockAgrees b s (s.fds.table i) (lens iov.val) := by
  have hp : (s.fds.table i).type ≠ typePipe := by
    rw [ht]
    decide
  rw [readOn_sock h3 hu ht, SockAgrees]
  generalize hk : (s.fds.table i).rest.sockIdx = k
  by_cases hl : lens iov.val = []
  · rw [readvOn_nothing hok h3 hu hpos hp hl, if_pos hl, (total_eq_zero_iff iov).mpr hl]
    exact sockPop_zero_iff s k
  rw [readvOn_other hok h3 hu hp hpos, if_neg hl, if_neg hl]
  cases b.rest (s.fds.table i).rest.name (s.fds.table i).rest.pos with
  | none =>
    rw [← sockPop_fails_iff s.fds.bufs k iov.total]
    refine ⟨fun h => (congrArg Prod.fst h).symm, fun h => ?_⟩
    rw [sockPop, if_pos ((sockPop_fails_iff _ _ _).mp h)]
  | some g =>
    have hlt : (gathered b.ext2 g (lens iov.val)).length < 2 ^ 31 :=
      lt_of_le_of_lt (gathered_length_le _ _ _) iov.property
    have h0 : 0 < iov.total := pos_of_ne_zero fun h => hl ((total_eq_zero_iff iov).mp h)
    dsimp only
    constructor
    · intro h
      have hmove := congrArg (fun r => (r.2.fds.table i).rest.pos) h
      dsimp only at hmove
      rw [setPos_pos, posOf] at hmove
      have hnil : gathered b.ext2 g (lens iov.val) = [] :=
        eq_nil_of_length_eq_zero (by omega)
      rw [hnil] at h
      exact ⟨(gathered_eq_nil_iff b.ext2 g hl).mp hnil,
        (sockPop_nothing_iff s k h0).mp (congrArg Prod.fst h).symm⟩
    · rintro ⟨rfl, he⟩
      rw [(gathered_eq_nil_iff b.ext2 [] hl).mpr rfl, sockPop_empty he.1 he.2,
        setPos_posOf_nil hpos]
      rfl

theorem readvOn_file_iff (ht : IsFile (s.fds.table i)) :
    readvOn b s i.val iov = readOn b alive s i.val iov.total ↔
      match b.rest (s.fds.table i).rest.name (s.fds.table i).rest.pos with
      | none => lens iov.val ≠ []
      | some g => b.ext2 ∨ Repeats g 0 (lens iov.val) := by
  rw [readOn_file h3 hu ht, readvOn_other hok h3 hu ht.2.2.1 hpos]
  cases b.rest (s.fds.table i).rest.name (s.fds.table i).rest.pos with
  | none =>
    dsimp only
    split
    · next hl => exact iff_of_false (fun h => nomatch congrArg Prod.fst h) fun h => h hl
    · next hl => exact iff_of_true rfl hl
  | some g =>
    have hsame : gathered b.ext2 g (lens iov.val) = g.take iov.total ↔
        b.ext2 ∨ Repeats g 0 (lens iov.val) := by
      rw [gathered]
      split
      · next he => exact iff_of_true rfl (.inl he)
      · next he =>
        rw [← again_eq_iff, drop_zero]
        exact (or_iff_right he).symm
    dsimp only
    rw [← hsame]
    refine ⟨fun h => (ReadResult.done.inj (congrArg Prod.fst h)).2, fun h => ?_⟩
    rw [h]

end Types

/-- **`readv` and `read`**: for every descriptor and every state, when the two do the same. -/
theorem readv_eq_read_iff (b : Files) (alive : ℤ → Bool) (s : IoState) (fd : ℤ) (iov : Iovecs)
    (hpos : ∀ i, (s.fds.table i).rest.pos < 2 ^ 32) :
    readvOn b s fd iov = readOn b alive s fd iov.total ↔ ReadvAgrees b alive s fd iov := by
  rw [ReadvAgrees]
  cases hfd : fdIdx fd with
  | none =>
    rw [readvOn, readOn, hfd]
    exact iff_of_true rfl trivial
  | some i =>
    obtain rfl := fdIdx_some hfd
    dsimp only
    by_cases hbad : iov.val = [] ∨ 16 < iov.val.length ∨ i.val < 3
    · have hv : readvOn b s i.val iov = (.done (-1) [], s) := by
        rw [readvOn, hfd]
        dsimp only
        by_cases hok : iov.val = [] ∨ 16 < iov.val.length
        · rw [if_pos hok]
        have hi : ¬ 3 ≤ i.val := by
          rcases hbad with h | h | h
          · exact absurd (.inl h) hok
          · exact absurd (.inr h) hok
          · omega
        rw [if_neg hok, if_neg fun h => hi h.1, if_neg fun h => hi h.1]
      rw [if_pos hbad, hv, eq_comm]
      exact readOn_fails_iff b alive s i iov.total
    rw [if_neg hbad]
    obtain ⟨h1, h2, h3⟩ : iov.val ≠ [] ∧ ¬ 16 < iov.val.length ∧ ¬ i.val < 3 := by
      rw [not_or, not_or] at hbad
      exact hbad
    have hok : ¬ (iov.val = [] ∨ 16 < iov.val.length) := not_or.mpr ⟨h1, h2⟩
    have h3 : 3 ≤ i.val := by omega
    set e := s.fds.table i
    by_cases hu : e.used = false
    · have hnu : ¬ e.used = true := by
        rw [hu]
        decide
      rw [if_pos hu, readOn_none (fun h => hnu h.1) (by omega) (fun h => hnu h.2), readvOn, hfd]
      dsimp only
      rw [if_neg hok, if_neg fun h => hnu h.2.1, if_neg fun h => hnu h.2]
      exact iff_of_true rfl trivial
    rw [if_neg hu]
    rw [Bool.not_eq_false] at hu
    rcases type_cases e with ht | ht | ht | ht | ht | ht | ht
    · rw [if_pos ht]
      exact readvOn_pipe_iff hok h3 hu ht
    · have hne : e.type ≠ typePipe := by
        rcases ht with h | h
        · rw [h]
          decide
        · rw [h]
          decide
      rw [if_neg hne, if_pos ht]
      exact iff_of_false (readvOn_device_ne hok h3 hu (hpos i) ht) id
    · rw [ht, if_neg (by decide), if_neg (by decide), if_pos rfl]
      exact readvOn_fb_iff hok h3 hu (hpos i) ht
    · rw [ht, if_neg (by decide), if_neg (by decide), if_neg (by decide), if_pos (.inl rfl)]
      exact readvOn_event_iff hok h3 hu (hpos i) ht
    · rw [ht, if_neg (by decide), if_neg (by decide), if_neg (by decide), if_pos (.inr rfl)]
      exact readvOn_timer_iff hok h3 hu (hpos i) ht
    · rw [ht, if_neg (by decide), if_neg (by decide), if_neg (by decide), if_neg (by decide), if_pos rfl]
      exact readvOn_sock_iff hok h3 hu (hpos i) ht
    · obtain ⟨e1, e2, e3, e4, e5, e6, e7⟩ := ht
      rw [if_neg e3, if_neg (not_or.mpr ⟨e6, e7⟩), if_neg e5, if_neg (not_or.mpr ⟨e1, e2⟩), if_neg e4]
      exact readvOn_file_iff hok h3 hu (hpos i) ⟨e1, e2, e3, e4, e5, e6, e7⟩

end

/-- Descriptor 3 is the reading end of an empty pipe, with `O_NONBLOCK`. -/
def emptyPipe : IoState :=
  ⟨⟨fun i => ⟨decide (i.val = 3), if i.val = 3 then typePipe else 0, ⟨oNonblock, 0, 0, [], 0, 0, 0⟩⟩,
    ⟨fun _ => ⟨true, fun _ => 0, 0, 0⟩, fun _ => ⟨false, -1, false, fun _ => 0, 0, 0⟩⟩⟩, ⟨[], [], []⟩⟩

/-- A buffer of one byte. -/
def oneByte : Iovecs := ⟨[(4096, 1)], by decide⟩

theorem readv_eq_read_iff_emptyPipe : (∀ i, (emptyPipe.fds.table i).rest.pos < 2 ^ 32) ∧
    (readvOn noFiles emptyPipe 3 oneByte =
        readOn noFiles (fun _ => false) emptyPipe 3 oneByte.total ↔
      ReadvAgrees noFiles (fun _ => false) emptyPipe 3 oneByte) :=
  ⟨fun _ => Nat.two_pow_pos 32, readv_eq_read_iff noFiles (fun _ => false) emptyPipe 3 oneByte
    fun _ => Nat.two_pow_pos 32⟩

/-- **`readv` of an empty pipe** says end of file where `read` says `-EAGAIN`. -/
theorem readv_emptyPipe : (readvOn noFiles emptyPipe 3 oneByte).1 = .done 0 [] ∧
    (readOn noFiles (fun _ => false) emptyPipe 3 oneByte.total).1 = .done (-11) [] ∧
    readvOn noFiles emptyPipe 3 oneByte ≠
      readOn noFiles (fun _ => false) emptyPipe 3 oneByte.total :=
  ⟨rfl, rfl, fun h => nomatch congrArg Prod.fst h⟩

end TipOS.Io
