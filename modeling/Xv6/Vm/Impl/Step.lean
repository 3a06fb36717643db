import Xv6.Lib.Machine
import Xv6.Proc.Basic
import Xv6.Vm.Impl.Exec

/-!
The lab 5 kernel as a machine: `growproc` and `fork` of `proc.c`, `sys_sbrk` and `sys_mmap` of `sysproc.c`,
the page fault case of `trap.c` and the argument checks of `syscall.c`.

Of `struct proc` the machine has the fields that these functions use, and a free slot is `none`. The
events are the system calls and the accesses of the processes:
- `load` and `store` are accesses that the page table lets through, any other access is a `pgfault`
- `kill p` is somebody's `kill` of `p`
- `reap p` is what `wait` frees after the `exit` of `p`

A system call or a trap that ends in a `Stop` stops the machine.
-/

namespace Xv6.Vm

structure Proc where
  sz : Nat
  pgdir : PgDir
  kstack : Ppn
  killed : Bool

structure State where
  procs : Slot → Option Proc
  mem : Mem
  stopped : Bool

inductive Event where
  | sbrk (p : Slot) (n : Word)
  | mmap (p : Slot) (n : Word)
  | fork (p : Slot)
  | exec (p : Slot) (ip : Option Inode) (argv : List (List UInt8))
  | pgfault (p : Slot) (va : Nat)
  | load (p : Slot) (va : Nat)
  | store (p : Slot) (va : Nat) (b : UInt8)
  | kill (p : Slot)
  | reap (p : Slot)

inductive Output where
  | none
  | ret (val : Word)
  | byte (b : UInt8)
  | stop (why : Stop)
  deriving DecidableEq, Repr

variable (L : Layout)

-- The first result is false for the return value `-1`.
def growproc (n : Word) (p : Proc) (m : Mem) : Res (Bool × Proc × Mem) :=
  if n.toInt > 0 then
    match allocuvm L p.pgdir p.sz (uint (p.sz + n.toNat)) m with
    | .error e => .error e
    | .ok (sz, d, m) =>
      if sz = 0 then .ok (false, { p with pgdir := d }, m)
      else .ok (true, { p with sz := sz, pgdir := d }, m)
  else if n.toInt < 0 then
    match deallocuvm L p.pgdir p.sz (uint (p.sz + n.toNat)) m with
    | .error e => .error e
    | .ok (sz, d, m) =>
      if sz = 0 then .ok (false, { p with pgdir := d }, m)
      else .ok (true, { p with sz := sz, pgdir := d }, m)
  else
    .ok (true, p, m)

def sysSbrk (n : Word) (p : Proc) (m : Mem) : Res (Word × Proc × Mem) :=
  let addr := p.sz
  match growproc L n p m with
  | .error e => .error e
  | .ok (false, p, m) => .ok (-1, p, m)
  | .ok (true, p, m) => .ok (.ofNat 32 addr, p, m)

def sysMmap (n : Word) (p : Proc) : Word × Proc :=
  if n.toInt ≤ 0 ∨ n.toInt.tmod 4096 ≠ 0 then
    (0, p)
  else
    let addr := p.sz
    (.ofNat 32 addr, { p with sz := uint (addr + n.toNat) })

-- The case `T_PGFLT` of `trap`, `va` is what `rcr2` returns.
def pgfault (va : Nat) (p : Proc) (m : Mem) : Res (Proc × Mem) :=
  if va ≥ p.sz then
    .ok (p, m)
  else
    let vadown := pgrounddown va
    let vaup := pgroundup va
    let vaup := if vadown = vaup then uint (vaup + PGSIZE) else vaup
    match allocuvm L p.pgdir vadown vaup m with
    | .error e => .error e
    | .ok (_, d, m) => .ok ({ p with pgdir := d }, m)

-- `fork` for a free slot. `none` is the return value `-1`.
def forkProc (p : Proc) (m : Mem) : Res (Option Proc × Mem) :=
  match m.kalloc with
  | none => .ok (none, m)
  | some (kstack, m) =>
    match copyuvm L p.pgdir p.sz m with
    | .error e => .error e
    | .ok (none, m) =>
      match m.kfree L kstack with
      | .error e => .error e
      | .ok m => .ok (none, m)
    | .ok (some d, m) => .ok (some { sz := p.sz, pgdir := d, kstack := kstack, killed := false }, m)

def reapProc (p : Proc) (m : Mem) : Res Mem :=
  match m.kfree L p.kstack with
  | .error e => .error e
  | .ok m => freevm L p.pgdir m

-- What the page table lets a user access.
def Proc.accessible (p : Proc) (va : Nat) : Bool :=
  (p.pgdir.pte (va / PGSIZE)).present && (p.pgdir.pte (va / PGSIZE)).user

def Proc.writable (p : Proc) (va : Nat) : Bool :=
  p.accessible va && (p.pgdir.pte (va / PGSIZE)).write

def Proc.byte (p : Proc) (m : Mem) (va : Nat) : UInt8 :=
  m.data (p.pgdir.pte (va / PGSIZE)).addr (va % PGSIZE)

def Proc.store (p : Proc) (va : Nat) (b : UInt8) (m : Mem) : Mem :=
  m.write (p.pgdir.pte (va / PGSIZE)).addr (va % PGSIZE) [b]

namespace State

def set (s : State) (p : Slot) (x : Option Proc) (m : Mem) : State :=
  { s with procs := Function.update s.procs p x, mem := m }

def stop (s : State) (why : Stop) : State × Output :=
  ({ s with stopped := true }, .stop why)

def allocproc (s : State) : Option Slot :=
  findSlot fun p => (s.procs p).isNone

def fork (s : State) (p : Proc) : State × Output :=
  match s.allocproc with
  | none => (s, .ret (-1))
  | some np =>
    match forkProc L p s.mem with
    | .error e => s.stop e
    | .ok (none, m) => ({ s with mem := m }, .ret (-1))
    | .ok (some child, m) => (s.set np (some child) m, .ret (.ofNat 32 np.val))

def step : Machine State Event Output := fun s e =>
  let act (p : Slot) (f : Proc → Option (State × Output)) : Option (State × Output) :=
    if s.stopped then none else (s.procs p).bind f
  match e with
  | .sbrk p n => act p fun x =>
    match sysSbrk L n x s.mem with
    | .error e => some (s.stop e)
    | .ok (val, x, m) => some (s.set p (some x) m, .ret val)
  | .mmap p n => act p fun x =>
    let (val, x) := sysMmap n x
    some (s.set p (some x) s.mem, .ret val)
  | .fork p => act p fun x => some (s.fork L x)
  | .exec p ip argv => act p fun x =>
    match Vm.exec L ip argv x.pgdir s.mem with
    | .error e => some (s.stop e)
    | .ok (none, m) => some ({ s with mem := m }, .ret (-1))
    | .ok (some image, m) =>
      some (s.set p (some { x with pgdir := image.pgdir, sz := image.sz }) m, .ret 0)
  | .pgfault p va => act p fun x =>
    match Vm.pgfault L va x s.mem with
    | .error e => some (s.stop e)
    | .ok (x, m) => some (s.set p (some x) m, .none)
  | .load p va => act p fun x =>
    if x.accessible va then some (s, .byte (x.byte s.mem va)) else none
  | .store p va b => act p fun x =>
    if x.writable va then some ({ s with mem := x.store va b s.mem }, .none) else none
  | .kill p => act p fun x => some (s.set p (some { x with killed := true }) s.mem, .none)
  | .reap p => act p fun x =>
    match reapProc L x s.mem with
    | .error e => some (s.stop e)
    | .ok m => some (s.set p none m, .none)

end State

-- `userinit`, on the memory that `kinit` and the rest of `main` leave. `init` is `initcode.S`.
def userinit (init : List UInt8) (m : Mem) : Res State :=
  match m.kalloc with
  | none => .error .undef
  | some (kstack, m) =>
    match setupkvm L m with
    | .error e => .error e
    | .ok (none, _) => .error (.panic "userinit: out of memory?")
    | .ok (some d, m) =>
      match inituvm d init m with
      | .error e => .error e
      | .ok (d, m) =>
        let p : Proc := { sz := PGSIZE, pgdir := d, kstack := kstack, killed := false }
        .ok { procs := fun q => if q = 0 then some p else none, mem := m, stopped := false }

/-!
The argument checks of `syscall.c`. `read` is the memory of the process as the kernel reads it.
-/

variable (read : Nat → UInt8)

def fetchint (sz addr : Nat) : Option Nat :=
  if addr ≥ sz ∨ uint (addr + 4) > sz then
    none
  else
    some (le32 [read addr, read (addr + 1), read (addr + 2), read (addr + 3)] 0)

def fetchstrLoop (ep : Nat) : Nat → Nat → Option Nat
  | 0, _ => none
  | fuel + 1, s => if s < ep then (if read s = 0 then some s else fetchstrLoop ep fuel (s + 1)) else none

def fetchstr (sz addr : Nat) : Option Nat :=
  if addr ≥ sz then
    none
  else
    (fetchstrLoop read sz (sz - addr) addr).map (· - addr)

def argint (sz esp n : Nat) : Option Nat :=
  fetchint read sz (uint (esp + 4 + 4 * n))

def argptr (sz esp n : Nat) (size : Word) : Option Nat :=
  match argint read sz esp n with
  | none => none
  | some i =>
    if size.toInt < 0 ∨ i ≥ sz ∨ uint (i + size.toNat) > sz then none else some i

end Xv6.Vm
