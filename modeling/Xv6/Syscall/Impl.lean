import Xv6.Lib.Trace
import Xv6.Vm.Impl.Step

/-!
The user memory that system calls go through: the argument checks of `syscall.c`, and the calls of `sysfile.c` and
`sysproc.c` with the loops below them that follow a user's pointer. The trace of a call has the ranges of user memory
in the order in which the kernel accesses them, and an error is the return value `-1`.

`read` is the memory of the process, `sz` its size and `esp` the stack pointer that it enters the kernel with. Of an
open file there is what decides how far such a loop goes. A path is read as far as the zero that ends it, although a call
may stop earlier.
-/

namespace Xv6.Syscall

open Vm

structure Range where
  addr : Nat
  len : Nat
  deriving DecidableEq, Repr

abbrev Call := Trace Range Unit

def NOFILE : Nat := 16

def MAXARG : Nat := 32

def BSIZE : Nat := 512

def MAXFILE : Nat := 140

def MAXOPBLOCKS : Nat := 10

-- `sizeof(struct stat)`, and the offsets and sizes of its fields in the order of `stati`: `dev`, `ino`, `type`, `nlink`
-- and `size`.
def STAT : Nat := 20

def statFields : List (Nat × Nat) :=
  [(4, 4), (8, 4), (0, 2), (12, 2), (16, 4)]

/--
What a file is made of. A pipe and a device pass on `moved` bytes before they stop on their own account; a file on the
disk has its size and the offset `f->off`.
-/
inductive Target where
  | pipe (moved : Nat)
  | device (moved : Nat)
  | inode (size off : Nat)
  deriving DecidableEq, Repr

structure OpenFile where
  readable : Bool
  writable : Bool
  target : Target
  deriving DecidableEq, Repr

def access (addr len : Nat) : Call Unit :=
  Trace.emit [⟨addr, len⟩]

-- A loop over `addr[i]`.
def bytes (addr n : Nat) : Call Unit :=
  Trace.emit ((List.range n).map fun i => ⟨uint (addr + i), 1⟩)

-- A string from its address and its length.
def str (s : Nat × Nat) : Call Unit :=
  access s.1 (s.2 + 1)

section

variable (read : Nat → UInt8) (sz esp : Nat)

def fetchint (addr : Nat) : Call Nat :=
  match Vm.fetchint read sz addr with
  | none => Trace.stop ()
  | some i => do
    access addr 4
    return i

def fetchstr (addr : Nat) : Call (Nat × Nat) :=
  if addr ≥ sz then
    Trace.stop ()
  else
    match Vm.fetchstr read sz addr with
    | none => do
      access addr (sz - addr)
      Trace.stop ()
    | some len => do
      access addr (len + 1)
      return (addr, len)

def argint (n : Nat) : Call Nat :=
  fetchint read sz (uint (esp + 4 + 4 * n))

def argptr (n : Nat) (size : Word) : Call Nat := do
  let i ← argint read sz esp n
  if size.toInt < 0 ∨ i ≥ sz ∨ uint (i + size.toNat) > sz then
    Trace.stop ()
  else
    return i

def argstr (n : Nat) : Call (Nat × Nat) := do
  let addr ← argint read sz esp n
  fetchstr read sz addr

end

-- The loops of `readi` and `writei`, with the user's side of every `memmove`.
def blocks (addr off n : Nat) : List Range :=
  if n = 0 then []
  else
    let m := min n (BSIZE - off % BSIZE)
    ⟨addr, m⟩ :: blocks (uint (addr + m)) (off + m) (n - m)
termination_by n
decreasing_by
  have := Nat.mod_lt off (show BSIZE > 0 by decide)
  omega

def readi (t : Target) (addr n : Nat) : Call Unit :=
  match t with
  | .pipe _ => Trace.stop ()
  | .device moved => bytes addr (min moved n)
  | .inode size off =>
    if off > size ∨ uint (off + n) < off then Trace.stop ()
    else Trace.emit (blocks addr off (if uint (off + n) > size then size - off else n))

-- The result is the file as it is afterwards.
def writei (t : Target) (addr n : Nat) : Call Target :=
  match t with
  | .pipe _ => Trace.stop ()
  | .device moved => do
    bytes addr n
    return .device moved
  | .inode size off =>
    if off > size ∨ uint (off + n) < off then Trace.stop ()
    else if uint (off + n) > MAXFILE * BSIZE then Trace.stop ()
    else do
      Trace.emit (blocks addr off n)
      return .inode (max size (off + n)) (off + n)

def fileread (f : OpenFile) (addr n : Nat) : Call Unit :=
  if f.readable = false then Trace.stop ()
  else
    match f.target with
    | .pipe moved => bytes addr (min moved n)
    | t => readi t addr n

-- The most that `filewrite` writes in one transaction.
def maxWrite : Nat :=
  (MAXOPBLOCKS - 1 - 1 - 2) / 2 * 512

-- The loop of `filewrite`: `n` bytes are left, of which `addr` has the first one.
def writeChunks (t : Target) (addr n : Nat) : Call Unit :=
  if n = 0 then pure ()
  else do
    let n1 := min n maxWrite
    let t ← writei t addr n1
    writeChunks t (uint (addr + n1)) (n - n1)
termination_by n
decreasing_by
  have : 0 < maxWrite := by decide
  omega

def filewrite (f : OpenFile) (addr n : Nat) : Call Unit :=
  if f.writable = false then Trace.stop ()
  else
    match f.target with
    | .pipe moved => bytes addr (min moved n)
    | t => writeChunks t addr n

def filestat (f : OpenFile) (st : Nat) : Call Unit :=
  match f.target with
  | .pipe _ => Trace.stop ()
  | _ => Trace.emit (statFields.map fun x => ⟨uint (st + x.1), x.2⟩)

-- `namei`, `nameiparent` and `create` read the path.
def namex (path : Nat × Nat) : Call Unit :=
  str path

-- `exec` reads the path once more for the name of the process, and copies the strings of `argv`.
def exec (path : Nat × Nat) (argv : List (Nat × Nat)) : Call Unit := do
  namex path
  Trace.emit (argv.map fun arg => ⟨arg.1, arg.2 + 1⟩)
  str path

section

variable (read : Nat → UInt8) (sz esp : Nat) (ofile : Nat → Option OpenFile)

def argfd (n : Nat) : Call OpenFile := do
  let fd ← argint read sz esp n
  if fd ≥ NOFILE then Trace.stop ()
  else
    match ofile fd with
    | none => Trace.stop ()
    | some f => return f

def sysRead : Call Unit := do
  let f ← argfd read sz esp ofile 0
  let n ← argint read sz esp 2
  let p ← argptr read sz esp 1 (.ofNat 32 n)
  fileread f p n

def sysWrite : Call Unit := do
  let f ← argfd read sz esp ofile 0
  let n ← argint read sz esp 2
  let p ← argptr read sz esp 1 (.ofNat 32 n)
  filewrite f p n

def sysFstat : Call Unit := do
  let f ← argfd read sz esp ofile 0
  let st ← argptr read sz esp 1 (.ofNat 32 STAT)
  filestat f st

def sysPipe : Call Unit := do
  let fd ← argptr read sz esp 0 (.ofNat 32 (2 * 4))
  access fd 4
  access (uint (fd + 4)) 4

-- The size that is checked is the one of a pointer.
def sysWait2 : Call Unit := do
  let wtime ← argptr read sz esp 0 (.ofNat 32 4)
  let rutime ← argptr read sz esp 1 (.ofNat 32 4)
  access wtime 4
  access rutime 4

-- The loop of `sys_exec`, with the number of entries of `argv` that are left.
def execArgs (uargv : Nat) : Nat → Nat → Call (List (Nat × Nat))
  | 0, _ => Trace.stop ()
  | left + 1, i => do
    let uarg ← fetchint read sz (uint (uargv + 4 * i))
    if uarg = 0 then
      return []
    else do
      let arg ← fetchstr read sz uarg
      let rest ← execArgs uargv left (i + 1)
      return arg :: rest

def sysExec : Call Unit := do
  let path ← argstr read sz esp 0
  let uargv ← argint read sz esp 1
  let argv ← execArgs read sz uargv MAXARG 0
  exec path argv

def sysLink : Call Unit := do
  let old ← argstr read sz esp 0
  let new ← argstr read sz esp 1
  namex old
  namex new

def sysUnlink : Call Unit := do
  let path ← argstr read sz esp 0
  namex path

def sysOpen : Call Unit := do
  let path ← argstr read sz esp 0
  let _ ← argint read sz esp 1
  namex path

def sysMkdir : Call Unit := do
  let path ← argstr read sz esp 0
  namex path

def sysMknod : Call Unit := do
  let path ← argstr read sz esp 0
  let _ ← argint read sz esp 1
  let _ ← argint read sz esp 2
  namex path

def sysChdir : Call Unit := do
  let path ← argstr read sz esp 0
  namex path

inductive Number where
  | read
  | write
  | fstat
  | pipe
  | wait2
  | exec
  | link
  | unlink
  | open
  | mkdir
  | mknod
  | chdir
  deriving DecidableEq, Repr

def syscall : Number → Call Unit
  | .read => sysRead read sz esp ofile
  | .write => sysWrite read sz esp ofile
  | .fstat => sysFstat read sz esp ofile
  | .pipe => sysPipe read sz esp
  | .wait2 => sysWait2 read sz esp
  | .exec => sysExec read sz esp
  | .link => sysLink read sz esp
  | .unlink => sysUnlink read sz esp
  | .open => sysOpen read sz esp
  | .mkdir => sysMkdir read sz esp
  | .mknod => sysMknod read sz esp
  | .chdir => sysChdir read sz esp

end

end Xv6.Syscall
