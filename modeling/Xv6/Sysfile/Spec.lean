import Mathlib.Data.Fintype.BigOperators
import Xv6.Path.Elems
import Xv6.Sysfile.Impl

/-!
What the calls do to the directories and the processes, without locks and without the cache: a call looks up its paths,
makes or takes away one entry, and then the inodes are freed that have neither links nor references.
-/

namespace Xv6.Sysfile

open Xv6.Fs Xv6.Path

abbrev Graph := Nat → Inode

def Inode.free : Inode := ⟨0, 0, []⟩

namespace Graph

def find (ino : Graph) (d : Nat) (name : List UInt8) : Option Nat :=
  (findName (ino d).ents name).map fun j => ((ino d).ents.getD j ⟨0, []⟩).inum

-- The inode of a path or, with `parent`, the directory of its last element and that element.
def namex (ino : Graph) (parent : Bool) (d : Nat) : List (List UInt8) → Option (Nat × List UInt8)
  | [] => if parent then none else some (d, [])
  | e :: cs =>
    if (ino d).type ≠ T_DIR then none
    else if parent ∧ cs = [] then some (d, e)
    else (ino.find d e).bind fun i => ino.namex parent i cs

def start (cwd : Nat) (path : List UInt8) : Nat :=
  if path.headD 0 = SLASH then ROOTINO else cwd

def namei (ino : Graph) (cwd : Nat) (path : List UInt8) : Option Nat :=
  (ino.namex false (start cwd path) (components path)).map Prod.fst

def nameiparent (ino : Graph) (cwd : Nat) (path : List UInt8) : Option (Nat × List UInt8) :=
  ino.namex true (start cwd path) (components path)

-- The place of a new entry.
def slot (ents : List Dirent) : Nat :=
  (ents.findIdx? fun de => de.inum = 0).getD ents.length

def enter (ents : List Dirent) (de : Dirent) : List Dirent :=
  setEnt ents (slot ents) de

-- The inode `i` becomes `ip` and gets a name in `dp`, and `dp` a link if `ip` has a `..`.
def add (ino : Graph) (dp i : Nat) (name : List UInt8) (ip : Inode) : Graph :=
  Function.update (Function.update ino i ip) dp
    { ino dp with
      nlink := (ino dp).nlink + if ip.type = T_DIR then 1 else 0,
      ents := enter (ino dp).ents ⟨i, key name⟩ }

-- The directory `dp` without its entry `j`, which names `i`.
def without (ino : Graph) (dp j i : Nat) : Inode :=
  { ino dp with
    nlink := (ino dp).nlink - if (ino i).type = T_DIR then 1 else 0,
    ents := setEnt (ino dp).ents j ⟨0, List.replicate DIRSIZ 0⟩ }

def remove (ino : Graph) (dp j i : Nat) : Graph :=
  Function.update (Function.update ino i { ino i with nlink := (ino i).nlink - 1 }) dp (ino.without dp j i)

def newInode (type dp i : Nat) : Inode :=
  ⟨type, 1, if type = T_DIR then [⟨i, key dot⟩, ⟨dp, key dotdot⟩] else []⟩

def ialloc (ninodes : Nat) (ino : Graph) : Option Nat :=
  (List.range' 1 (ninodes - 1)).find? fun inum => (ino inum).type = 0

-- The directory of a new entry and its name.
def room (ino : Graph) (cwd : Nat) (path : List UInt8) : Option (Nat × List UInt8) :=
  (ino.nameiparent cwd path).filter fun (dp, name) => (ino.find dp name).isNone

-- The file that is linked, and the directory and the name of the new entry.
def linked (ino : Graph) (cwd : Nat) (old new : List UInt8) : Option (Nat × Nat × List UInt8) :=
  (ino.namei cwd old).bind fun ip =>
    if (ino ip).type = T_DIR ∨ (ino ip).type = 0 then none
    else (ino.room cwd new).map fun (dp, name) => (ip, dp, name)

-- The directory, the number of the entry and what it names.
def unlinked (ino : Graph) (cwd : Nat) (path : List UInt8) : Option (Nat × Nat × Nat) :=
  (ino.nameiparent cwd path).bind fun (dp, name) =>
    if namecmp name dot = 0 ∨ namecmp name dotdot = 0 then none
    else
      (findName (ino dp).ents name).bind fun j =>
        let ip := ((ino dp).ents.getD j ⟨0, []⟩).inum
        if (ino ip).type = T_DIR ∧ isdirempty (ino ip).ents = false then none else some (dp, j, ip)

-- The new name of a file is one that leads from a directory back to it. `sys_link` cannot put that directory back.
def Waits (ino : Graph) (cwd : Nat) (old new : List UInt8) : Prop :=
  ∃ ip dp name, ino.namei cwd old = some ip ∧ (ino ip).type ≠ T_DIR ∧ ino.nameiparent cwd new = some (dp, name) ∧
    ino.find dp name = some dp

def link (ino : Graph) (cwd : Nat) (old new : List UInt8) : Graph :=
  match ino.linked cwd old new with
  | some (ip, dp, name) => ino.add dp ip name { ino ip with nlink := (ino ip).nlink + 1 }
  | none => ino

def unlink (ino : Graph) (cwd : Nat) (path : List UInt8) : Graph :=
  match ino.unlinked cwd path with
  | some (dp, j, ip) => ino.remove dp j ip
  | none => ino

variable (ninodes : Nat)

def make (ino : Graph) (cwd : Nat) (path : List UInt8) (type : Nat) : Graph :=
  match ino.room cwd path, ino.ialloc ninodes with
  | some (dp, name), some i => ino.add dp i name (newInode type dp i)
  | _, _ => ino

-- The inode that `create` returns.
def created (ino : Graph) (cwd : Nat) (path : List UInt8) (type : Nat) : Option Nat :=
  (ino.nameiparent cwd path).bind fun (dp, name) =>
    match ino.find dp name with
    | some ip => if type = T_FILE ∧ (ino ip).type = T_FILE then some ip else none
    | none => ino.ialloc ninodes

def opened (ino : Graph) (cwd : Nat) (path : List UInt8) (creates rdonly : Bool) : Option Nat :=
  if creates then ino.created ninodes cwd path T_FILE
  else (ino.namei cwd path).filter fun ip => ¬ ((ino ip).type = T_DIR ∧ rdonly = false)

variable {ι : Type}

def effect (ino : Graph) (cwd : Nat) : Call ι → Graph
  | .link old new => ino.link cwd old new
  | .unlink path => ino.unlink cwd path
  | .openf path creates _ _ => if creates then ino.make ninodes cwd path T_FILE else ino
  | .mkdir path => ino.make ninodes cwd path T_DIR
  | .mknod path => ino.make ninodes cwd path T_DEV
  | .chdir _ | .exec _ | .close _ | .fork _ | .exit => ino

def chdir (ino : Graph) (cwd : Nat) (path : List UInt8) : Nat :=
  ((ino.namei cwd path).filter fun ip => (ino ip).type = T_DIR).getD cwd

-- No link count is greater than a `short` can be.
def Short (ino : Graph) : Prop :=
  ∀ i, (ino i).nlink < 2 ^ 15

-- What has neither links nor references is freed.
def sweep (refs : Nat → Nat) (ino : Graph) : Graph :=
  fun i => if (ino i).nlink = 0 ∧ refs i = 0 then Inode.free else ino i

end Graph

variable {ι : Type}

-- The directories and what refers to inodes from outside.
structure View (ι : Type) where
  ino : Graph
  cwd : ι → Option Nat
  files : List Nat

def State.view (s : State ι) : View ι :=
  ⟨s.store.ino, s.cwd, s.files⟩

namespace View

def refs [Fintype ι] (v : View ι) (i : Nat) : Nat :=
  (∑ p, if v.cwd p = some i then 1 else 0) + v.files.count i

variable [DecidableEq ι]

-- The current directories and the open files after the call.
def moves (ninodes : Nat) (v : View ι) (p : ι) (cwd : Nat) (c : Call ι) : View ι :=
  match c with
  | .openf path creates rdonly fd =>
    { v with files := v.files ++ (if fd then v.ino.opened ninodes cwd path creates rdonly else none).toList }
  | .chdir path => { v with cwd := Function.update v.cwd p (some (v.ino.chdir cwd path)) }
  | .close n => { v with files := v.files.eraseIdx n }
  | .fork q =>
    match v.cwd q with
    | some _ => v
    | none => { v with cwd := Function.update v.cwd q (some cwd) }
  | .exit => { v with cwd := Function.update v.cwd p none }
  | .link _ _ | .unlink _ | .mkdir _ | .mknod _ | .exec _ => v

def call [Fintype ι] (ninodes : Nat) (v : View ι) (p : ι) (c : Call ι) : View ι :=
  match v.cwd p with
  | none => v
  | some cwd =>
    let w := { v.moves ninodes p cwd c with ino := v.ino.effect ninodes cwd c }
    { w with ino := w.ino.sweep w.refs }

end View

end Xv6.Sysfile
