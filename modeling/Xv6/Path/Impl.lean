import Xv6.Fs.Impl

/-!
The inode cache and the path names of `fs.c`. There is one device and one process: a lock that is held is never released
by somebody else. A C string ends at its first zero byte or at the end of the list.

`devsw` and the super block are those of `Fs`.
-/

namespace Xv6.Path

open Fs

abbrev NINODE : Nat := 50

def SLASH : UInt8 := 47

-- `struct inode`, an entry of the cache
structure Inode where
  inum : Nat
  ref : Nat
  lock : Bool
  valid : Bool
  ip : Dinode

structure Kernel where
  disk : Disk
  icache : Nat → Inode

inductive Stop where
  | panic (msg : String)
  | blocked
  deriving DecidableEq, Repr

def Kernel.set (k : Kernel) (i : Nat) (ip : Inode) : Kernel :=
  { k with icache := Function.update k.icache i ip }

-- The loop of `iget`: the entry with the inode, or the first empty one.
def igetLoop (icache : Nat → Inode) (inum : Nat) : List Nat → Option Nat → Nat ⊕ Option Nat
  | [], empty => .inr empty
  | i :: l, empty =>
    if (icache i).ref > 0 ∧ (icache i).inum = inum then .inl i
    else igetLoop icache inum l (if empty = none ∧ (icache i).ref = 0 then some i else empty)

def iget (k : Kernel) (inum : Nat) : Except Stop (Kernel × Nat) :=
  match igetLoop k.icache inum (List.range NINODE) none with
  | .inl i => .ok (k.set i { k.icache i with ref := (k.icache i).ref + 1 }, i)
  | .inr none => .error (.panic "iget: no inodes")
  | .inr (some i) => .ok (k.set i { k.icache i with inum := inum, ref := 1, valid := false }, i)

def idup (k : Kernel) (i : Nat) : Kernel × Nat :=
  (k.set i { k.icache i with ref := (k.icache i).ref + 1 }, i)

def iunlock (k : Kernel) (i : Nat) : Except Stop Kernel :=
  if (k.icache i).lock = false ∨ (k.icache i).ref < 1 then .error (.panic "iunlock")
  else .ok (k.set i { k.icache i with lock := false })

def inElem (c : UInt8) : Bool :=
  c ≠ SLASH ∧ c ≠ 0

def skipelem (path name : List UInt8) : Option (List UInt8 × List UInt8) :=
  let path := path.dropWhile (· = SLASH)
  if path.headD 0 = 0 then none
  else
    let s := path.takeWhile inElem
    let path := path.dropWhile inElem
    let name := if s.length ≥ DIRSIZ then s.take DIRSIZ ++ name.drop DIRSIZ else s ++ 0 :: name.drop (s.length + 1)
    some (path.dropWhile (· = SLASH), name)

theorem skipelem_length {path path' name name' : List UInt8} (h : skipelem path name = some (path', name'))
    : path'.length < path.length := by
  have hskip := (List.dropWhile_sublist (l := path) (· = SLASH)).length_le
  have hslash := List.head?_dropWhile_not (· = SLASH) path
  unfold skipelem at h
  dsimp only at h
  generalize path.dropWhile (· = SLASH) = rest at *
  split at h
  . cases h
  . next hne =>
    cases h
    cases rest with
    | nil => exact absurd rfl hne
    | cons c l =>
      simp only [List.head?_cons, List.headD_cons, decide_eq_false_iff_not] at hslash hne
      have hc : inElem c = true := decide_eq_true ⟨hslash, hne⟩
      have hdrop := (List.dropWhile_sublist (l := l) inElem).length_le
      have hagain := (List.dropWhile_sublist (l := l.dropWhile inElem) (· = SLASH)).length_le
      rw [List.dropWhile_cons_of_pos hc]
      rw [List.length_cons] at hskip
      omega

variable (sb : Superblock)

def ilock (k : Kernel) (i : Nat) : Except Stop Kernel :=
  if (k.icache i).ref < 1 then .error (.panic "ilock")
  else if (k.icache i).lock = true then .error .blocked
  else
    let ip := { k.icache i with lock := true }
    if ip.valid = false then
      let ip := { ip with valid := true, ip := dinode sb k.disk ip.inum }
      if ip.ip.type = 0 then .error (.panic "ilock: no type") else .ok (k.set i ip)
    else .ok (k.set i ip)

def iput (k : Kernel) (i : Nat) : Except Stop Kernel :=
  if (k.icache i).lock = true then .error .blocked
  else
    match Fs.iput sb k.disk (k.icache i).inum (k.icache i).ip (k.icache i).valid (k.icache i).ref with
    | .error msg => .error (.panic msg)
    | .ok (disk, valid, ref) =>
      .ok { k.set i { k.icache i with valid := valid, ref := ref } with disk := disk }

def iunlockput (k : Kernel) (i : Nat) : Except Stop Kernel := do
  let k ← iunlock k i
  iput sb k i

variable (devsw : Devsw)

def dirlookup (k : Kernel) (i : Nat) (name : List UInt8) : Except Stop (Kernel × Option Nat) :=
  match Fs.dirlookup sb devsw k.disk (k.icache i).ip name with
  | .error msg => .error (.panic msg)
  | .ok (disk, dp, found) =>
    let k := { k.set i { k.icache i with ip := dp } with disk := disk }
    match found with
    | none => .ok (k, none)
    | some (inum, _) => do
      let (k, next) ← iget k inum
      return (k, some next)

-- The loop of `namex`, which returns the inode, if any, and what is in `name`.
def namexLoop (nameiparent : Bool) (path name : List UInt8) (i : Nat) (k : Kernel)
    : Except Stop (Kernel × Option Nat × List UInt8) :=
  match _h : skipelem path name with
  | none =>
    if nameiparent then do
      let k ← iput sb k i
      return (k, none, name)
    else .ok (k, some i, name)
  | some (path', name) => do
    let k ← ilock sb k i
    if (k.icache i).ip.type ≠ T_DIR then
      let k ← iunlockput sb k i
      return (k, none, name)
    else if nameiparent ∧ path'.headD 0 = 0 then
      let k ← iunlock k i
      return (k, some i, name)
    else
      let (k, next) ← dirlookup sb devsw k i name
      match next with
      | none =>
        let k ← iunlockput sb k i
        return (k, none, name)
      | some next =>
        let k ← iunlockput sb k i
        namexLoop nameiparent path' name next k
termination_by path.length
decreasing_by exact skipelem_length _h

def namex (nameiparent : Bool) (cwd : Nat) (path name : List UInt8) (k : Kernel)
    : Except Stop (Kernel × Option Nat × List UInt8) :=
  if path.headD 0 = SLASH then do
    let (k, i) ← iget k ROOTINO
    namexLoop sb devsw nameiparent path name i k
  else
    let (k, i) := idup k cwd
    namexLoop sb devsw nameiparent path name i k

-- `name` is what the stack holds.
def namei (cwd : Nat) (path name : List UInt8) (k : Kernel) : Except Stop (Kernel × Option Nat) := do
  let (k, ip, _) ← namex sb devsw false cwd path name k
  return (k, ip)

def nameiparent (cwd : Nat) (path name : List UInt8) (k : Kernel) : Except Stop (Kernel × Option Nat × List UInt8) :=
  namex sb devsw true cwd path name k

end Xv6.Path
