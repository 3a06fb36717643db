import Mathlib.Algebra.GroupWithZero.Nat
import Mathlib.Data.Fin.Basic
import Mathlib.Data.List.FinRange

/-!
The process table of `proc.h` and the part of the CPU that the scheduler sees. A `Word` is a C `uint`
or `int`, a `Slot` is a `struct proc *` into `ptable.proc`.

The fields of `struct proc` that point to memory or to files (`sz`, `pgdir`, `kstack`, `tf`,
`ofile`, `cwd`, `name`) are left out. The saved `context` is replaced by a `Pc`, the place where the
process goes on in the kernel:
- `user`: in user space
- `yielded`: in user space, but still inside the `yield()` of `trap`
- `sys`: inside a system call that the constructors below do not name
- `ret`: in `trap`, the system call has returned
- `forkKstack np`: in `fork`, `allocproc` has claimed the slot `np` and calls `kalloc`
- `forkCopy np`: in `fork`, `allocproc` has returned `np`
- `forkPublish np`: in `fork`, the child `np` is complete but still an embryo
- `wait two`: in the loop of `wait` or, if `two`, of `wait2`, holding `ptable.lock` whenever it runs
- `exit intr`: in `exit`, before its critical section, with interrupts on if `intr`

A `Chan.obj` is the address of a pipe, a buffer, a lock, the log or the console input. None of these
lies inside the process table.
-/

namespace Xv6

abbrev Word := BitVec 32

abbrev NPROC : Nat := 64

instance : NeZero NPROC := ⟨by decide⟩

abbrev Slot := Fin NPROC

inductive ProcState where
  | unused
  | embryo
  | sleeping
  | runnable
  | running
  | zombie
  deriving DecidableEq, Repr

inductive Chan where
  | null
  | proc (p : Slot)
  | ticks
  | obj (addr : Nat)
  deriving DecidableEq, Repr

def Chan.ofProc : Option Slot → Chan
  | none => .null
  | some p => .proc p

inductive Pc where
  | user
  | yielded
  | sys
  | ret
  | forkKstack (np : Slot)
  | forkCopy (np : Slot)
  | forkPublish (np : Slot)
  | wait (two : Bool)
  | exit (intr : Bool)
  deriving DecidableEq, Repr

structure Counters where
  wtime : Word
  rutime : Word
  snapticks : Word
  deriving DecidableEq, Repr

structure Proc extends Counters where
  state : ProcState
  pid : Word
  parent : Option Slot
  chan : Chan
  killed : Bool
  pc : Pc
  deriving Repr

def Proc.zero : Proc where
  state := .unused
  pid := 0
  parent := none
  chan := .null
  killed := false
  wtime := 0
  rutime := 0
  snapticks := 0
  pc := .user

inductive Cpu where
  -- in `scheduler`, between two passes over the table, interrupts on, `ptable.lock` free
  | idle
  -- in `scheduler`, holding `ptable.lock` and about to look at slot `i`
  | scan (i : Nat)
  -- running a process, `c->proc == p`
  | run (p : Slot)
  -- stopped in `panic`
  | halted
  deriving DecidableEq, Repr

structure State where
  ptable : Slot → Proc
  nextpid : Word
  ticks : Word
  initproc : Option Slot
  cpu : Cpu

-- The `for` loops over `ptable.proc` that stop at a slot stop at the first one.
def findSlot (f : Slot → Bool) : Option Slot :=
  (List.finRange NPROC).find? f

theorem findSlot_eq_some {f : Slot → Bool} {p : Slot} (h : findSlot f = some p) : f p = true :=
  List.find?_some h

theorem findSlot_eq_none {f : Slot → Bool} (h : findSlot f = none) (p : Slot) : f p = false := by
  unfold findSlot at h
  rw [List.find?_eq_none] at h
  simpa using h p (List.mem_finRange p)

namespace State

def modify (s : State) (p : Slot) (f : Proc → Proc) : State :=
  { s with ptable := fun q => if q = p then f (s.ptable p) else s.ptable q }

def mapTable (s : State) (f : Proc → Proc) : State :=
  { s with ptable := fun q => f (s.ptable q) }

variable (s : State) (p q : Slot) (f : Proc → Proc)

@[simp]
theorem modify_ptable : (s.modify p f).ptable q = if q = p then f (s.ptable q) else s.ptable q := by
  unfold modify
  dsimp
  split
  . next h => rw [h]
  . rfl

@[simp]
theorem modify_nextpid : (s.modify p f).nextpid = s.nextpid := rfl

@[simp]
theorem modify_ticks : (s.modify p f).ticks = s.ticks := rfl

@[simp]
theorem modify_initproc : (s.modify p f).initproc = s.initproc := rfl

@[simp]
theorem modify_cpu : (s.modify p f).cpu = s.cpu := rfl

@[simp]
theorem mapTable_ptable : (s.mapTable f).ptable q = f (s.ptable q) := rfl

@[simp]
theorem mapTable_nextpid : (s.mapTable f).nextpid = s.nextpid := rfl

@[simp]
theorem mapTable_ticks : (s.mapTable f).ticks = s.ticks := rfl

@[simp]
theorem mapTable_initproc : (s.mapTable f).initproc = s.initproc := rfl

@[simp]
theorem mapTable_cpu : (s.mapTable f).cpu = s.cpu := rfl

end State

end Xv6
