import Mathlib.Algebra.BigOperators.Group.Finset.Basic
import Xv6.Path.Impl

/-!
The system calls of `sysfile.c` that work on names, and `exec` and `exit` as far as inodes go. An inode is its type, its
link count and, if it is a directory, the list of its entries; the copy in the cache and the one on the disk are the
same, and the cache is named by inode numbers. The calls run one after the other. Whoever takes the lock of an inode that
he already holds waits for ever.

`room` says whether there is a block for a directory that grows. There is none once the directories have all blocks of
the disk.
-/

namespace Xv6.Sysfile

open Xv6.Fs Xv6.Path

def FSSIZE : Nat := 1000

-- `nlink` are the 16 bits of the `short`.
structure Inode where
  type : Nat
  nlink : Nat
  ents : List Dirent
  deriving DecidableEq, Repr

-- The value of a `short`.
def short (bits : Nat) : Int :=
  if bits < 2 ^ 15 then bits else bits - 2 ^ 16

-- `struct inode` without the copy of the inode
structure Entry where
  ref : Nat
  lock : Bool
  valid : Bool
  deriving DecidableEq, Repr

structure Store where
  ino : Nat → Inode
  icache : Nat → Entry

inductive Stop where
  | panic (msg : String)
  | deadlock
  deriving DecidableEq, Repr

namespace Store

def setIno (s : Store) (i : Nat) (ip : Inode) : Store :=
  { s with ino := Function.update s.ino i ip }

def setEntry (s : Store) (i : Nat) (e : Entry) : Store :=
  { s with icache := Function.update s.icache i e }

end Store

-- The number of the entries of the cache that are in use.
def used (ninodes : Nat) (s : Store) : Nat :=
  (List.range ninodes).countP fun i => 0 < (s.icache i).ref

def iget (ninodes : Nat) (s : Store) (inum : Nat) : Except Stop Store :=
  if (s.icache inum).ref > 0 then .ok (s.setEntry inum { s.icache inum with ref := (s.icache inum).ref + 1 })
  else if used ninodes s < NINODE then .ok (s.setEntry inum { s.icache inum with ref := 1, valid := false })
  else .error (.panic "iget: no inodes")

def idup (s : Store) (i : Nat) : Store :=
  s.setEntry i { s.icache i with ref := (s.icache i).ref + 1 }

def ilock (s : Store) (i : Nat) : Except Stop Store :=
  if (s.icache i).ref < 1 then .error (.panic "ilock")
  else if (s.icache i).lock = true then .error .deadlock
  else if (s.icache i).valid = false ∧ (s.ino i).type = 0 then .error (.panic "ilock: no type")
  else .ok (s.setEntry i { s.icache i with lock := true, valid := true })

def iunlock (s : Store) (i : Nat) : Except Stop Store :=
  if (s.icache i).lock = false ∨ (s.icache i).ref < 1 then .error (.panic "iunlock")
  else .ok (s.setEntry i { s.icache i with lock := false })

def iput (s : Store) (i : Nat) : Except Stop Store :=
  if (s.icache i).lock = true then .error .deadlock
  else if (s.icache i).valid = true ∧ (s.ino i).nlink = 0 ∧ (s.icache i).ref = 1 then
    .ok ((s.setIno i ⟨0, 0, []⟩).setEntry i { s.icache i with ref := 0, valid := false })
  else .ok (s.setEntry i { s.icache i with ref := (s.icache i).ref - 1 })

def iunlockput (s : Store) (i : Nat) : Except Stop Store := do
  let s ← iunlock s i
  iput s i

-- The number of the entry that `dirlookup` finds.
def findName (ents : List Dirent) (name : List UInt8) : Option Nat :=
  ents.findIdx? fun de => de.inum ≠ 0 ∧ namecmp name de.name = 0

def dirlookup (ninodes : Nat) (s : Store) (dp : Nat) (name : List UInt8) : Except Stop (Store × Option (Nat × Nat)) :=
  if (s.ino dp).type ≠ T_DIR then .error (.panic "dirlookup not DIR")
  else
    match findName (s.ino dp).ents name with
    | none => .ok (s, none)
    | some j => do
      let inum := ((s.ino dp).ents.getD j ⟨0, []⟩).inum
      let s ← iget ninodes s inum
      return (s, some (inum, j))

-- The entry `j` is written; at the end of the directory it is a new one.
def setEnt (ents : List Dirent) (j : Nat) (de : Dirent) : List Dirent :=
  if j < ents.length then ents.set j de else ents ++ [de]

def blocks (ents : List Dirent) : Nat :=
  (DIRENT * ents.length + BSIZE - 1) / BSIZE

-- The blocks that the directories take.
def dirBlocks (ninodes : Nat) (ino : Nat → Inode) : Nat :=
  ∑ i ∈ Finset.range ninodes, blocks (ino i).ents

variable (ninodes : Nat) (room : Store → Bool)

def dirlink (s : Store) (dp : Nat) (name : List UInt8) (inum : Nat) : Except Stop (Store × Int) := do
  let (s, found) ← dirlookup ninodes s dp name
  match found with
  | some (ip, _) =>
    let s ← iput s ip
    return (s, -1)
  | none =>
    let ents := (s.ino dp).ents
    let j := (ents.findIdx? fun de => de.inum = 0).getD ents.length
    if DIRENT * j + DIRENT > MAXFILE * BSIZE then .error (.panic "dirlink")
    else if j = ents.length ∧ DIRENT * j % BSIZE = 0 ∧ (room s = false ∨ FSSIZE ≤ dirBlocks ninodes s.ino) then
      .error (.panic "balloc: out of blocks")
    else return (s.setIno dp { s.ino dp with ents := setEnt ents j ⟨inum, strncpy DIRSIZ name⟩ }, 0)

def ialloc (s : Store) (type : Nat) : Except Stop (Store × Nat) :=
  match (List.range' 1 (ninodes - 1)).find? fun inum => (s.ino inum).type = 0 with
  | none => .error (.panic "ialloc: no inodes")
  | some inum => do
    let s ← iget ninodes (s.setIno inum ⟨type, 0, []⟩) inum
    return (s, inum)

-- The loop of `namex`.
def namexLoop (nameiparent : Bool) (path name : List UInt8) (ip : Nat) (s : Store)
    : Except Stop (Store × Option Nat × List UInt8) :=
  match _h : skipelem path name with
  | none =>
    if nameiparent then do
      let s ← iput s ip
      return (s, none, name)
    else .ok (s, some ip, name)
  | some (path', name) => do
    let s ← ilock s ip
    if (s.ino ip).type ≠ T_DIR then
      let s ← iunlockput s ip
      return (s, none, name)
    else if nameiparent ∧ path'.headD 0 = 0 then
      let s ← iunlock s ip
      return (s, some ip, name)
    else
      let (s, next) ← dirlookup ninodes s ip name
      match next with
      | none =>
        let s ← iunlockput s ip
        return (s, none, name)
      | some (next, _) =>
        let s ← iunlockput s ip
        namexLoop nameiparent path' name next s
termination_by path.length
decreasing_by exact skipelem_length _h

-- The buffer `name` on the stack starts out as `[]`: it is not read before `skipelem` has written it.
def namex (nameiparent : Bool) (cwd : Nat) (path : List UInt8) (s : Store)
    : Except Stop (Store × Option Nat × List UInt8) :=
  if path.headD 0 = SLASH then do
    let s ← iget ninodes s ROOTINO
    namexLoop ninodes nameiparent path [] ROOTINO s
  else namexLoop ninodes nameiparent path [] cwd (idup s cwd)

def namei (cwd : Nat) (path : List UInt8) (s : Store) : Except Stop (Store × Option Nat) := do
  let (s, ip, _) ← namex ninodes false cwd path s
  return (s, ip)

def nameiparent (cwd : Nat) (path : List UInt8) (s : Store) : Except Stop (Store × Option Nat × List UInt8) :=
  namex ninodes true cwd path s

def dot : List UInt8 := [46]

def dotdot : List UInt8 := [46, 46]

-- `ip->nlink++` and `ip->nlink--`
def addLink (s : Store) (i : Nat) (n : Int) : Store :=
  s.setIno i { s.ino i with nlink := (((s.ino i).nlink + n) % 2 ^ 16).toNat }

-- `bad` in `sys_link`
def linkBad (s : Store) (ip : Nat) : Except Stop (Store × Int) := do
  let s ← ilock s ip
  let s ← iunlockput (addLink s ip (-1)) ip
  return (s, -1)

def sysLink (cwd : Nat) (old new : List UInt8) (s : Store) : Except Stop (Store × Int) := do
  let (s, ip) ← namei ninodes cwd old s
  match ip with
  | none => return (s, -1)
  | some ip =>
    let s ← ilock s ip
    if (s.ino ip).type = T_DIR then
      let s ← iunlockput s ip
      return (s, -1)
    else
      let s ← iunlock (addLink s ip 1) ip
      let (s, dp, name) ← nameiparent ninodes cwd new s
      match dp with
      | none => linkBad s ip
      | some dp =>
        let s ← ilock s dp
        let (s, r) ← dirlink ninodes room s dp name ip
        let s ← iunlockput s dp
        if r < 0 then linkBad s ip
        else
          let s ← iput s ip
          return (s, 0)

def isdirempty (ents : List Dirent) : Bool :=
  (ents.drop 2).all fun de => de.inum = 0

-- `bad` in `sys_unlink`
def unlinkBad (s : Store) (dp : Nat) : Except Stop (Store × Int) := do
  let s ← iunlockput s dp
  return (s, -1)

def sysUnlink (cwd : Nat) (path : List UInt8) (s : Store) : Except Stop (Store × Int) := do
  let (s, dp, name) ← nameiparent ninodes cwd path s
  match dp with
  | none => return (s, -1)
  | some dp =>
    let s ← ilock s dp
    if namecmp name dot = 0 ∨ namecmp name dotdot = 0 then unlinkBad s dp
    else
      let (s, found) ← dirlookup ninodes s dp name
      match found with
      | none => unlinkBad s dp
      | some (ip, j) =>
        let s ← ilock s ip
        if short (s.ino ip).nlink < 1 then .error (.panic "unlink: nlink < 1")
        else if (s.ino ip).type = T_DIR ∧ isdirempty (s.ino ip).ents = false then
          let s ← iunlockput s ip
          unlinkBad s dp
        else
          let s := s.setIno dp { s.ino dp with ents := setEnt (s.ino dp).ents j ⟨0, List.replicate DIRSIZ 0⟩ }
          let s := if (s.ino ip).type = T_DIR then addLink s dp (-1) else s
          let s ← iunlockput s dp
          let s ← iunlockput (addLink s ip (-1)) ip
          return (s, 0)

-- The entries of a directory that `create` has made.
def createDots (s : Store) (dp ip : Nat) : Except Stop Store := do
  let s := addLink s dp 1
  let (s, r) ← dirlink ninodes room s ip dot ip
  if r < 0 then .error (.panic "create dots")
  else
    let (s, r) ← dirlink ninodes room s ip dotdot dp
    if r < 0 then .error (.panic "create dots") else return s

-- The inode that `create` returns is locked.
def create (cwd : Nat) (path : List UInt8) (type : Nat) (s : Store) : Except Stop (Store × Option Nat) := do
  let (s, dp, name) ← nameiparent ninodes cwd path s
  match dp with
  | none => return (s, none)
  | some dp =>
    let s ← ilock s dp
    let (s, found) ← dirlookup ninodes s dp name
    match found with
    | some (ip, _) =>
      let s ← iunlockput s dp
      let s ← ilock s ip
      if type = T_FILE ∧ (s.ino ip).type = T_FILE then return (s, some ip)
      else
        let s ← iunlockput s ip
        return (s, none)
    | none =>
      let (s, ip) ← ialloc ninodes s type
      let s ← ilock s ip
      let s := s.setIno ip { s.ino ip with nlink := 1 }
      let s ← if type = T_DIR then createDots ninodes room s dp ip else .ok s
      let (s, r) ← dirlink ninodes room s dp name ip
      if r < 0 then .error (.panic "create: dirlink")
      else
        let s ← iunlockput s dp
        return (s, some ip)

-- The locked inode of `sys_open`.
def openInode (cwd : Nat) (path : List UInt8) (creates rdonly : Bool) (s : Store) : Except Stop (Store × Option Nat) :=
  if creates then create ninodes room cwd path T_FILE s
  else do
    let (s, ip) ← namei ninodes cwd path s
    match ip with
    | none => return (s, none)
    | some ip =>
      let s ← ilock s ip
      if (s.ino ip).type = T_DIR ∧ rdonly = false then
        let s ← iunlockput s ip
        return (s, none)
      else return (s, some ip)

-- `fd` says whether there are a `struct file` and a descriptor left.
def sysOpen (cwd : Nat) (path : List UInt8) (creates rdonly fd : Bool) (s : Store)
    : Except Stop (Store × Option Nat) := do
  let (s, ip) ← openInode ninodes room cwd path creates rdonly s
  match ip with
  | none => return (s, none)
  | some ip =>
    if fd then
      let s ← iunlock s ip
      return (s, some ip)
    else
      let s ← iunlockput s ip
      return (s, none)

-- `sys_mkdir` and `sys_mknod`
def sysMake (cwd : Nat) (path : List UInt8) (type : Nat) (s : Store) : Except Stop (Store × Int) := do
  let (s, ip) ← create ninodes room cwd path type s
  match ip with
  | none => return (s, -1)
  | some ip =>
    let s ← iunlockput s ip
    return (s, 0)

-- The new current directory, if there is one.
def sysChdir (cwd : Nat) (path : List UInt8) (s : Store) : Except Stop (Store × Option Nat) := do
  let (s, ip) ← namei ninodes cwd path s
  match ip with
  | none => return (s, none)
  | some ip =>
    let s ← ilock s ip
    if (s.ino ip).type ≠ T_DIR then
      let s ← iunlockput s ip
      return (s, none)
    else
      let s ← iunlock s ip
      let s ← iput s cwd
      return (s, some ip)

-- What `exec` does with inodes, whatever the file is.
def exec (cwd : Nat) (path : List UInt8) (s : Store) : Except Stop Store := do
  let (s, ip) ← namei ninodes cwd path s
  match ip with
  | none => return s
  | some ip =>
    let s ← ilock s ip
    iunlockput s ip

inductive Call (ι : Type) where
  | link (old new : List UInt8)
  | unlink (path : List UInt8)
  | openf (path : List UInt8) (creates rdonly fd : Bool)
  | mkdir (path : List UInt8)
  | mknod (path : List UInt8)
  | chdir (path : List UInt8)
  | exec (path : List UInt8)
  -- the last descriptor of an open file goes, by `close` or by `exit`
  | close (n : Nat)
  | fork (q : ι)
  | exit

/-- The current directory of each process, none if there is no such process, and the inodes of the open files. -/
structure State (ι : Type) where
  store : Store
  cwd : ι → Option Nat
  files : List Nat

variable {ι : Type} [DecidableEq ι]

namespace State

def call (s : State ι) (p : ι) (c : Call ι) : Except Stop (State ι) :=
  match s.cwd p with
  | none => .ok s
  | some cwd =>
    match c with
    | .link old new => do
      let (store, _) ← sysLink ninodes room cwd old new s.store
      return { s with store := store }
    | .unlink path => do
      let (store, _) ← sysUnlink ninodes cwd path s.store
      return { s with store := store }
    | .openf path creates rdonly fd => do
      let (store, ip) ← sysOpen ninodes room cwd path creates rdonly fd s.store
      return { s with store := store, files := s.files ++ ip.toList }
    | .mkdir path => do
      let (store, _) ← sysMake ninodes room cwd path T_DIR s.store
      return { s with store := store }
    | .mknod path => do
      let (store, _) ← sysMake ninodes room cwd path T_DEV s.store
      return { s with store := store }
    | .chdir path => do
      let (store, ip) ← sysChdir ninodes cwd path s.store
      return { s with store := store, cwd := Function.update s.cwd p (some (ip.getD cwd)) }
    | .exec path => do
      let store ← exec ninodes cwd path s.store
      return { s with store := store }
    | .close n =>
      match s.files[n]? with
      | none => .ok s
      | some ip => do
        let store ← iput s.store ip
        return { s with store := store, files := s.files.eraseIdx n }
    | .fork q =>
      match s.cwd q with
      | some _ => .ok s
      | none => .ok { s with store := idup s.store cwd, cwd := Function.update s.cwd q (some cwd) }
    | .exit => do
      let store ← iput s.store cwd
      return { s with store := store, cwd := Function.update s.cwd p none }

end State

end Xv6.Sysfile
