import Mathlib.Data.List.GetD
import TipOS.Lib.Bytes

/-!
# The search of the initial archive

`fs/initramfs.zig`: `initramfs_find` walks the members of a CPIO archive in the newc format.  There
the size of the file is the field at 54 of the header, the length of the name with its NUL the one
at 94, and name and data are padded to four bytes from the beginning of the header (`Members`).
The code reads the size at 78, counts the NUL twice and pads the name for itself, so that it never
returns the data of the first member (`initramfs_find_iff`).
-/

namespace TipOS.Fs

open Lib List

def cpioHeaderSize : ℕ := 110
/-- The text `070701`. -/
def cpioMagic : List UInt8 := [48, 55, 48, 55, 48, 49]

/-- What `initramfs_init` saves; the size is an `u32`. -/
structure Initramfs where
  mem : Mem
  archiveStart : ℕ
  size : ℕ
  archiveInitialized : Bool
  size_lt : size < 2 ^ 32

def hexVal (c : UInt8) : ℕ :=
  if 48 ≤ c ∧ c ≤ 57 then (c - 48).toNat
  else if 97 ≤ c ∧ c ≤ 102 then (c - 97 + 10).toNat
  else if 65 ≤ c ∧ c ≤ 70 then (c - 65 + 10).toNat
  else 0

def parseHexField (buf : ℕ → UInt8) (len : ℕ) : ℕ :=
  (List.range len).foldl (fun val i => (val <<< 4 ||| hexVal (buf i)) % 2 ^ 32) 0

def pad4 (n : ℕ) : ℕ := (n + 3) / 4 * 4

/-- The loop that compares the path with a name: whether they matched, and where it stopped.  The
first argument is what is left of `namesize`. -/
def comparePath (path : List UInt8) (name : ℕ → UInt8) : ℕ → ℕ → Bool × ℕ
  | 0, ci => (true, ci)
  | left + 1, ci =>
    if path.getD ci 0 = 0 then (true, ci)
    else if path.getD ci 0 ≠ name ci then (false, ci)
    else comparePath path name left (ci + 1)

namespace Initramfs

variable {r : Initramfs}

def findFrom (r : Initramfs) (path : List UInt8) (p : ℕ) : Option (ℕ × ℕ) :=
  if p + cpioHeaderSize + 6 < r.size then
    let hdr := r.archiveStart + p
    if ∀ mi < 6, r.mem (hdr + mi) = cpioMagic.getD mi 0 then
      let namesize := (parseHexField (fun i => r.mem (hdr + 94 + i)) 8 + 1) % 2 ^ 32
      let filesize := parseHexField (fun i => r.mem (hdr + 78 + i)) 8
      let namePtr := hdr + cpioHeaderSize
      let dataPtr := namePtr + pad4 namesize
      -- the test for the trailer, on its first three letters
      if r.mem namePtr = 84 ∧ r.mem (namePtr + 1) = 82 ∧ r.mem (namePtr + 2) = 65 then none
      else
        let c := comparePath path (fun i => r.mem (namePtr + i)) namesize 0
        if c.1 ∧ path.getD c.2 0 = 0 ∧ (c.2 + 1 = namesize ∨ r.mem (namePtr + c.2) = 0) then
          some (dataPtr, filesize)
        else findFrom r path (p + cpioHeaderSize + pad4 namesize + pad4 filesize)
    else none
  else none
termination_by r.size - p
decreasing_by simp only [cpioHeaderSize] at *; omega

/-- The address and the size of the data of the file at `path`. -/
def initramfsFind (r : Initramfs) (path : List UInt8) : Option (ℕ × ℕ) :=
  if r.archiveInitialized then findFrom r path 0 else none

/-! ### The format -/

structure Member where
  name : List UInt8
  filesize : ℕ

/-- The member `TRAILER!!!`. -/
def trailer : Member := ⟨[84, 82, 65, 73, 76, 69, 82, 33, 33, 33], 0⟩

/-- Where the data of a member at `p` begin: behind the header and the name with its NUL. -/
def Member.data (m : Member) (p : ℕ) : ℕ := pad4 (p + 110 + (m.name.length + 1))

def Member.next (m : Member) (p : ℕ) : ℕ := pad4 (m.data p + m.filesize)

/-- The header and the name of `m` at offset `p`. -/
structure HeaderAt (r : Initramfs) (p : ℕ) (m : Member) : Prop where
  magic : ∀ i < 6, r.mem (r.archiveStart + p + i) = cpioMagic.getD i 0
  filesize : parseHexField (fun i => r.mem (r.archiveStart + p + 54 + i)) 8 = m.filesize
  namesize : parseHexField (fun i => r.mem (r.archiveStart + p + 94 + i)) 8 = m.name.length + 1
  name : ∀ i ≤ m.name.length, r.mem (r.archiveStart + p + 110 + i) = m.name.getD i 0
  noNul : ∀ c ∈ m.name, c ≠ 0

/-- The members from `p` on, and the trailer behind them. -/
def Members (r : Initramfs) : ℕ → List Member → Prop
  | p, [] => r.HeaderAt p trailer ∧ trailer.next p ≤ r.size
  | p, m :: ms => r.HeaderAt p m ∧ m.name ≠ trailer.name ∧ r.Members (m.next p) ms

/-- What the archive says of a name. -/
def lookup (r : Initramfs) (path : List UInt8) : ℕ → List Member → Option (ℕ × ℕ)
  | _, [] => none
  | p, m :: ms =>
    if m.name = path then some (r.archiveStart + m.data p, m.filesize)
    else r.lookup path (m.next p) ms

theorem Members.le_size : ∀ {ms : List Member} {p : ℕ}, r.Members p ms → p + 121 ≤ r.size := by
  intro ms
  induction ms with
  | nil =>
    intro p h
    have := h.2
    simp only [Member.next, Member.data, trailer, pad4, length_cons, length_nil] at this
    omega
  | cons m ms ih =>
    intro p h
    have := ih h.2.2
    simp only [Member.next, Member.data, pad4] at this
    omega

/-- A path that is a prefix of the name is compared to its end. -/
theorem comparePath_self {path : List UInt8} {name : ℕ → UInt8} (hz : ∀ c ∈ path, c ≠ 0)
    (hn : ∀ i < path.length, name i = path.getD i 0) : ∀ left ci, ci ≤ path.length →
    path.length ≤ ci + left → comparePath path name left ci = (true, path.length) := by
  intro left
  induction left with
  | zero =>
    intro ci h h'
    rw [comparePath, show ci = path.length by omega]
  | succ left ih =>
    intro ci h h'
    rw [comparePath]
    by_cases hc : ci < path.length
    · rw [if_neg, if_neg (not_not.2 (hn ci hc).symm)]
      · exact ih _ hc (by omega)
      · rw [getD_eq_getElem _ _ hc]
        exact hz _ (getElem_mem hc)
    · rw [if_pos, show ci = path.length by omega]
      exact getD_eq_default _ _ (by omega)

/-- The first member, sought by its name: nothing, or an address that is no multiple of four from
the beginning of the archive. -/
theorem findFrom_first {m : Member} {ms : List Member} (h : r.Members 0 (m :: ms)) :
    r.findFrom m.name 0 = none ∨
      ∃ k size, r.findFrom m.name 0 = some (r.archiveStart + 110 + 4 * k, size) := by
  have hm := h.1
  have hs : m.next 0 + 121 ≤ r.size := h.2.2.le_size
  have hl : m.name.length + 2 < 2 ^ 32 := by
    have := r.size_lt
    simp only [Member.next, Member.data, pad4] at hs
    omega
  have hc : comparePath m.name (fun i => r.mem (r.archiveStart + 0 + cpioHeaderSize + i))
      (m.name.length + 2) 0 = (true, m.name.length) :=
    comparePath_self hm.noNul (fun i hi => hm.name i hi.le) _ _ (Nat.zero_le _) (by omega)
  rw [findFrom]
  split
  case isFalse => exact .inl rfl
  dsimp only
  rw [if_pos hm.magic]
  split
  case isTrue => exact .inl rfl
  rw [hm.namesize, Nat.mod_eq_of_lt hl, hc, if_pos]
  · exact .inr ⟨(m.name.length + 1 + 1 + 3) / 4, _, by rw [pad4, Nat.mul_comm]; rfl⟩
  · have hd : m.name.getD m.name.length 0 = 0 := getD_eq_default _ _ le_rfl
    exact ⟨rfl, hd, .inr ((hm.name _ le_rfl).trans hd)⟩

theorem findFrom_trailer {path : List UInt8} (h : r.HeaderAt 0 trailer) :
    r.findFrom path 0 = none := by
  have hn := h.name
  rw [findFrom]
  split
  case isFalse => rfl
  rw [if_pos h.magic, if_pos]
  exact ⟨hn 0 (by decide), hn 1 (by decide), hn 2 (by decide)⟩

/-- **`initramfs_find` agrees with the archive for every name exactly if the archive has no
members**: it misplaces the data of the first one. -/
theorem initramfs_find_iff (hi : r.archiveInitialized = true) {ms : List Member}
    (h : r.Members 0 ms) :
    (∀ path : List UInt8, (∀ c ∈ path, c ≠ 0) → r.initramfsFind path = r.lookup path 0 ms) ↔
      ms = [] := by
  simp only [initramfsFind, if_pos hi]
  cases ms with
  | nil => exact ⟨fun _ => rfl, fun _ path _ => findFrom_trailer h.1⟩
  | cons m ms =>
    refine ⟨fun hall => ?_, fun e => by cases e⟩
    have := hall m.name h.1.noNul
    rw [lookup, if_pos rfl] at this
    rcases findFrom_first h with hf | ⟨k, size, hf⟩
    · rw [hf] at this
      cases this
    rw [hf] at this
    have hd : r.archiveStart + 110 + 4 * k = r.archiveStart + m.data 0 :=
      congrArg Prod.fst (Option.some.inj this)
    simp only [Member.data, pad4] at hd
    omega

/-- A header with the last digits of its sizes. -/
def header (filesize namesize : UInt8) : List UInt8 :=
  cpioMagic ++ List.replicate 55 48 ++ [filesize] ++ List.replicate 39 48 ++ [namesize] ++
    List.replicate 8 48

/-- The file `a` of one byte, then the trailer; the digit `B` is eleven. -/
def archiveA : Initramfs where
  mem i := (header 49 50 ++ [97, 0, 120, 0, 0, 0] ++ header 48 66 ++ trailer.name).getD i 0
  archiveStart := 0
  size := 240
  archiveInitialized := true
  size_lt := by decide

theorem archiveA_members : archiveA.Members 0 [⟨[97], 1⟩] := by
  refine ⟨⟨?_, ?_, ?_, ?_, ?_⟩, ?_, ⟨?_, ?_, ?_, ?_, ?_⟩, ?_⟩ <;> decide +kernel

theorem initramfs_find_iff_a :
    ¬ ∀ path : List UInt8, (∀ c ∈ path, c ≠ 0) →
      archiveA.initramfsFind path = archiveA.lookup path 0 [⟨[97], 1⟩] := by
  rw [initramfs_find_iff rfl archiveA_members]
  exact cons_ne_nil _ _

/-- The data of `a` are the byte at 112; the search finds none at 114. -/
theorem initramfs_find_a :
    archiveA.initramfsFind [97] = some (114, 0) ∧
      archiveA.lookup [97] 0 [⟨[97], 1⟩] = some (112, 1) := by
  rw [initramfsFind, findFrom]
  decide +kernel

end Initramfs

end TipOS.Fs
