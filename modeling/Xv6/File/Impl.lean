import Xv6.Lib.Machine
import Xv6.Lib.Pool
import Xv6.Proc.Basic
import Xv6.Pipe.Impl

/-!
`file.c`, and what `sysfile.c`, `pipe.c` and `proc.c` do with open files. A `struct file *` is an index into
`ftable.file`, a page that `kalloc` returns is named by its number, and `kmem.data` is what a page holds when it
is used as a `struct pipe`. `pipes` and `other` name the pages that are handed out, to `pipealloc` and to the rest
of the kernel.

The file system is not modelled here: what it answers (the inode that `create` or `namei` find) comes with the
call, and so do the answers of `argint`, `argstr`, `argptr` and of the page allocations inside `fork`. The `iput`
of `fileclose` and the `idup` of `fork` change nothing that is modelled here.
-/

namespace Xv6

abbrev NFILE : Nat := 100

abbrev NOFILE : Nat := 16

def O_WRONLY : BitVec 32 := 0x001

def O_RDWR : BitVec 32 := 0x002

def O_CREATE : BitVec 32 := 0x200

inductive FdType where
  | none
  | pipe
  | inode
  deriving DecidableEq, Repr

structure File where
  type : FdType
  ref : Nat
  readable : Bool
  writable : Bool
  pipe : Nat
  ip : Nat
  off : Nat
  deriving DecidableEq, Repr

namespace File

-- What the file system finds for the path of `sys_open`: the results of `create` and of `namei`, the latter with
-- whether the inode is a directory.
structure Lookup where
  create : Option Nat
  namei : Option (Nat × Bool)

structure State where
  file : Fin NFILE → File
  state : Slot → ProcState
  ofile : Slot × Fin NOFILE → Option (Fin NFILE)
  initproc : Slot
  kmem : Pool Nat Pipe
  pipes : List Nat
  other : List Nat
  halted : Bool

inductive Event where
  | open (p : Slot) (args : Option (Lookup × BitVec 32))
  | dup (p : Slot) (fd : Option Int)
  | close (p : Slot) (fd : Option Int)
  | pipe (p : Slot) (argptr : Bool)
  | fork (p : Slot) (kstack copyuvm : Bool)
  | exit (p : Slot)
  -- `wait` or `wait2` finds the zombie `p`
  | reap (p : Slot)
  | sched (p : Slot) (state : ProcState)
  -- `kalloc`, `kfree` and stores in the rest of the kernel
  | kalloc
  | kfree (page : Nat)
  | store (page : Nat) (data : Pipe)

inductive Output where
  | none
  | ret (r : Int)
  | pipe (fd0 fd1 : Fin NOFILE)
  | panic (msg : String)
  deriving DecidableEq, Repr

def live : ProcState → Bool
  | .unused => false
  | .embryo => false
  | .zombie => false
  | _ => true

namespace State

def setFile (s : State) (f : Fin NFILE) (x : File) : State :=
  { s with file := Function.update s.file f x }

def setOfile (s : State) (p : Slot) (fd : Fin NOFILE) (f : Option (Fin NFILE)) : State :=
  { s with ofile := Function.update s.ofile (p, fd) f }

def setState (s : State) (p : Slot) (state : ProcState) : State :=
  { s with state := Function.update s.state p state }

def filealloc (s : State) : Option (State × Fin NFILE) :=
  match (List.finRange NFILE).find? fun f => (s.file f).ref = 0 with
  | some f => some (s.setFile f { s.file f with ref := 1 }, f)
  | none => none

def filedup (s : State) (f : Fin NFILE) : Except String State :=
  if (s.file f).ref < 1 then .error "filedup"
  else .ok (s.setFile f { s.file f with ref := (s.file f).ref + 1 })

-- `kfree` fills the page with ones.
def junk : Pipe where
  data := fun _ => 1
  nread := 0x01010101
  nwrite := 0x01010101
  readopen := true
  writeopen := true

def pipeclose (s : State) (a : Nat) (writable : Bool) : State :=
  let p := s.kmem.data a
  let p := if writable then { p with writeopen := false } else { p with readopen := false }
  let s := { s with kmem := s.kmem.put a p }
  if p.readopen = false ∧ p.writeopen = false then
    { s with kmem := (s.kmem.put a junk).give a, pipes := s.pipes.erase a }
  else
    s

def fileclose (s : State) (f : Fin NFILE) : Except String State :=
  if (s.file f).ref < 1 then .error "fileclose"
  else if (s.file f).ref - 1 > 0 then .ok (s.setFile f { s.file f with ref := (s.file f).ref - 1 })
  else
    let ff := s.file f
    let s := s.setFile f { ff with ref := 0, type := .none }
    match ff.type with
    | .pipe => .ok (s.pipeclose ff.pipe ff.writable)
    | _ => .ok s

def argfd (s : State) (p : Slot) (arg : Option Int) : Option (Fin NOFILE × Fin NFILE) :=
  match arg with
  | none => none
  | some fd =>
    if h : 0 ≤ fd ∧ fd < NOFILE then
      let fd : Fin NOFILE := ⟨fd.toNat, by omega⟩
      (s.ofile (p, fd)).map fun f => (fd, f)
    else none

def fdalloc (s : State) (p : Slot) (f : Fin NFILE) : Option (State × Fin NOFILE) :=
  match (List.finRange NOFILE).find? fun fd => s.ofile (p, fd) = none with
  | some fd => some (s.setOfile p fd (some f), fd)
  | none => none

def sys_dup (s : State) (p : Slot) (arg : Option Int) : Except String (State × Output) :=
  match s.argfd p arg with
  | none => .ok (s, .ret (-1))
  | some (_, f) =>
    match s.fdalloc p f with
    | none => .ok (s, .ret (-1))
    | some (s, fd) => do
      let s ← s.filedup f
      return (s, .ret fd)

def sys_close (s : State) (p : Slot) (arg : Option Int) : Except String (State × Output) :=
  match s.argfd p arg with
  | none => .ok (s, .ret (-1))
  | some (fd, f) => do
    let s ← (s.setOfile p fd none).fileclose f
    return (s, .ret 0)

-- The inode that `sys_open` opens, if it gets as far as `filealloc`.
def openInode (l : Lookup) (omode : BitVec 32) : Option Nat :=
  if omode &&& O_CREATE ≠ 0 then l.create
  else
    match l.namei with
    | none => none
    | some (ip, isDir) => if isDir ∧ omode ≠ 0 then none else some ip

def sys_open (s : State) (p : Slot) (args : Option (Lookup × BitVec 32)) : Except String (State × Output) :=
  match args with
  | none => .ok (s, .ret (-1))
  | some (l, omode) =>
    match openInode l omode with
    | none => .ok (s, .ret (-1))
    | some ip =>
      match s.filealloc with
      | none => .ok (s, .ret (-1))
      | some (s, f) =>
        match s.fdalloc p f with
        | none => do
          let s ← s.fileclose f
          return (s, .ret (-1))
        | some (s, fd) =>
          .ok (s.setFile f { s.file f with
            type := .inode
            ip := ip
            off := 0
            readable := omode &&& O_WRONLY = 0
            writable := omode &&& O_WRONLY ≠ 0 ∨ omode &&& O_RDWR ≠ 0 }, .ret fd)

-- The page `a` becomes the pipe between the files `f0` and `f1`.
def connect (s : State) (f0 f1 : Fin NFILE) (a : Nat) (kmem : Pool Nat Pipe) : State :=
  let p := { kmem.data a with readopen := true, writeopen := true, nwrite := 0, nread := 0 }
  let s := { s with kmem := kmem.put a p, pipes := a :: s.pipes }
  let s := s.setFile f0 { s.file f0 with type := .pipe, readable := true, writable := false, pipe := a }
  s.setFile f1 { s.file f1 with type := .pipe, readable := false, writable := true, pipe := a }

def pipealloc (s : State) : Except String (State × Option (Fin NFILE × Fin NFILE)) :=
  match s.filealloc with
  | none => .ok (s, none)
  | some (s, f0) =>
    match s.filealloc with
    | none => do
      let s ← s.fileclose f0
      return (s, none)
    | some (s, f1) =>
      match s.kmem.take with
      | none => do
        let s ← s.fileclose f0
        let s ← s.fileclose f1
        return (s, none)
      | some (a, kmem) => .ok (s.connect f0 f1 a kmem, some (f0, f1))

def sys_pipe (s : State) (p : Slot) (argptr : Bool) : Except String (State × Output) :=
  if !argptr then .ok (s, .ret (-1))
  else do
    match ← s.pipealloc with
    | (s, none) => return (s, .ret (-1))
    | (s, some (rf, wf)) =>
      match s.fdalloc p rf with
      | none =>
        let s ← s.fileclose rf
        let s ← s.fileclose wf
        return (s, .ret (-1))
      | some (s, fd0) =>
        match s.fdalloc p wf with
        | none =>
          let s ← (s.setOfile p fd0 none).fileclose rf
          let s ← s.fileclose wf
          return (s, .ret (-1))
        | some (s, fd1) => return (s, .pipe fd0 fd1)

-- One round of the loop of `fork` over the descriptors.
def forkFile (p np : Slot) (s : State) (i : Fin NOFILE) : Except String State :=
  match s.ofile (p, i) with
  | none => .ok s
  | some f => do
    let s ← s.filedup f
    return s.setOfile np i (some f)

def fork (s : State) (p : Slot) (kstack copyuvm : Bool) : Except String (State × Output) :=
  match findSlot fun q => s.state q = .unused with
  | none => .ok (s, .ret (-1))
  | some np =>
    let s := s.setState np .embryo
    if !kstack ∨ !copyuvm then .ok (s.setState np .unused, .ret (-1))
    else do
      let s ← (List.finRange NOFILE).foldlM (forkFile p np) s
      return (s.setState np .runnable, .ret np)

-- One round of the loop of `exit` over the descriptors.
def exitFile (p : Slot) (s : State) (fd : Fin NOFILE) : Except String State :=
  match s.ofile (p, fd) with
  | none => .ok s
  | some f => do
    let s ← s.fileclose f
    return s.setOfile p fd none

def exit (s : State) (p : Slot) : Except String (State × Output) :=
  if p = s.initproc then .error "init exiting"
  else do
    let s ← (List.finRange NOFILE).foldlM (exitFile p) s
    return (s.setState p .zombie, .none)

def returns (s : State) : Except String (State × Output) → State × Output
  | .ok r => r
  | .error msg => ({ s with halted := true }, .panic msg)

def step : Machine State Event Output := fun s e =>
  if s.halted then none
  else
    match e with
    | .open p args => if live (s.state p) then some (s.returns (s.sys_open p args)) else none
    | .dup p fd => if live (s.state p) then some (s.returns (s.sys_dup p fd)) else none
    | .close p fd => if live (s.state p) then some (s.returns (s.sys_close p fd)) else none
    | .pipe p argptr => if live (s.state p) then some (s.returns (s.sys_pipe p argptr)) else none
    | .fork p kstack copyuvm => if live (s.state p) then some (s.returns (s.fork p kstack copyuvm)) else none
    | .exit p => if live (s.state p) then some (s.returns (s.exit p)) else none
    | .reap p => if s.state p = .zombie then some (s.setState p .unused, .none) else none
    | .sched p st => if live (s.state p) ∧ live st then some (s.setState p st, .none) else none
    | .kalloc => s.kmem.take.map fun (a, kmem) => ({ s with kmem := kmem, other := a :: s.other }, .none)
    | .kfree a =>
      if a ∈ s.other then
        some ({ s with kmem := (s.kmem.put a junk).give a, other := s.other.erase a }, .none)
      else none
    | .store a x => if a ∈ s.other then some ({ s with kmem := s.kmem.put a x }, .none) else none

-- `kinit` frees the pages in ascending order, `userinit` takes the first slot.
def init (npages : Nat) : State where
  file := fun _ => { type := .none, ref := 0, readable := false, writable := false, pipe := 0, ip := 0, off := 0 }
  state := Function.update (fun _ => .unused) 0 .runnable
  ofile := fun _ => none
  initproc := 0
  kmem := { free := (List.range npages).reverse, data := fun _ => junk }
  pipes := []
  other := []
  halted := false

end State

end File

end Xv6
