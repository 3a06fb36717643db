import Xv6.Vm.Impl.Exec

/-!
All of `exec.c`: the address space together with the process that calls `exec`, the references to inodes and
the operations of the log. `namei` is given by what it returns, the number of the inode and what `readi` reads from it.
`iput` does not free the inode, what it does to the disk is left out.
-/

namespace Xv6.Vm

structure Trapframe where
  eip : Nat
  esp : Nat
  rest : Nat → Nat

-- `struct proc`
structure Task where
  pgdir : PgDir
  sz : Nat
  tf : Trapframe
  name : List UInt8

-- The operations that have begun, the references to each inode and the inodes whose locks the process holds.
structure Fs where
  outstanding : Nat
  ref : Nat → Nat
  locked : List Nat

namespace Fs

def beginOp (fs : Fs) : Fs :=
  { fs with outstanding := fs.outstanding + 1 }

def endOp (fs : Fs) : Fs :=
  { fs with outstanding := fs.outstanding - 1 }

def iget (fs : Fs) (inum : Nat) : Fs :=
  { fs with ref := Function.update fs.ref inum (fs.ref inum + 1) }

def ilock (fs : Fs) (inum : Nat) : Fs :=
  { fs with locked := inum :: fs.locked }

def iunlock (fs : Fs) (inum : Nat) : Fs :=
  { fs with locked := fs.locked.erase inum }

def iput (fs : Fs) (inum : Nat) : Fs :=
  { fs with ref := Function.update fs.ref inum (fs.ref inum - 1) }

def iunlockput (fs : Fs) (inum : Nat) : Fs :=
  (fs.iunlock inum).iput inum

end Fs

-- What follows the last `/` of the path.
def last : List UInt8 → List UInt8 → List UInt8
  | last, [] => last
  | last, c :: s => if c = 0x2f then Vm.last s s else Vm.last last s

-- The bytes of `s` after the call. `t` is given without its terminating zero.
def safestrcpy (s t : List UInt8) (n : Nat) : List UInt8 :=
  let bs := if t.length < n - 1 then t ++ [0, 0] else t.take (n - 1) ++ [0]
  bs ++ s.drop bs.length

structure Exit where
  ret : Int
  task : Task
  fs : Fs
  mem : Mem

variable (L : Layout)

-- What follows the label `bad`. `none` is the null pointer.
def bad (pgdir : Option PgDir) (ip : Option Nat) (t : Task) (fs : Fs) (m : Mem) : Res Exit :=
  let fs := match ip with
    | none => fs
    | some inum => (fs.iunlockput inum).endOp
  match pgdir with
  | none => .ok { ret := -1, task := t, fs := fs, mem := m }
  | some d =>
    match freevm L d m with
    | .error e => .error e
    | .ok m => .ok { ret := -1, task := t, fs := fs, mem := m }

-- The rest of `exec` from the second `allocuvm` on.
def finish (path : List UInt8) (argv : List (List UInt8)) (elf : Elfhdr) (d : PgDir) (sz : Nat) (t : Task) (fs : Fs)
    (m : Mem) : Res Exit :=
  match setupStack L d sz elf.entry argv m with
  | .error e => .error e
  | .ok (none, d, m) => bad L (some d) none t fs m
  | .ok (some image, _, m) =>
    let t' := { t with
      pgdir := image.pgdir
      sz := image.sz
      tf := { t.tf with eip := image.entry, esp := image.sp }
      name := safestrcpy t.name (last path path) 16 }
    match freevm L t.pgdir m with
    | .error e => .error e
    | .ok m => .ok { ret := 0, task := t', fs := fs, mem := m }

def execve (path : List UInt8) (argv : List (List UInt8)) (ip : Option (Nat × Inode)) (t : Task) (fs : Fs) (m : Mem)
    : Res Exit :=
  let fs := fs.beginOp
  match ip with
  | none => .ok { ret := -1, task := t, fs := fs.endOp, mem := m }
  | some (inum, f) =>
    let fs := (fs.iget inum).ilock inum
    match readElfhdr f with
    | none => bad L none (some inum) t fs m
    | some elf =>
      if elf.magic ≠ ELF_MAGIC then
        bad L none (some inum) t fs m
      else
        match setupkvm L m with
        | .error e => .error e
        | .ok (none, m) => bad L none (some inum) t fs m
        | .ok (some d, m) =>
          match loadSegments L f elf.phnum elf.phoff d 0 m with
          | .error e => .error e
          | .ok (false, _, d, m) => bad L (some d) (some inum) t fs m
          | .ok (true, sz, d, m) => finish L path argv elf d sz t (fs.iunlockput inum).endOp m

end Xv6.Vm
