import Xv6.Vm.Impl.Step

/-!
The process table of lab 5 as `getmeminfo` finds it: `allocproc`, `fork`, `exit`, `wait` and `getmeminfo` of `proc.c`
on one CPU. Each critical section under `ptable.lock` is one step, and outside of them a process may be preempted between
any two assignments that the others can see.

Of `struct proc` there are the fields that these functions share. A `Pc` is the place where a process goes on:
- `user`: anywhere outside `fork` and `wait`
- `wait`: in the loop of `wait`, after `sleep`
- `kstack np`: in `fork`, `allocproc` has claimed the slot `np` and calls `kalloc`
- `copy np`: in `fork`, `allocproc` has returned `np`
- `copied np`: in `fork`, `np->pgdir` is what `copyuvm` has returned
- `publish np`: in `fork`, the child `np` is complete but still an embryo
- `undo np`: in `fork`, `copyuvm` has failed, and `np->pgdir` is 0
- `unuse np`: in `fork`, there is no kernel stack, and the slot is about to be given back

Nobody calls `kill`, and what `exit` does before its critical section is left out. The scheduler may pick any process that
is runnable. `Output.visits` are the slots that `getmeminfo` reports on.
-/

namespace Xv6.Vm.Table

inductive Pc where
  | user
  | wait
  | kstack (np : Slot)
  | copy (np : Slot)
  | copied (np : Slot)
  | publish (np : Slot)
  | undo (np : Slot)
  | unuse (np : Slot)
  deriving DecidableEq, Repr

structure Proc where
  state : ProcState
  pid : Word
  parent : Option Slot
  kstack : Option Ppn
  pgdir : Option PgDir
  sz : Nat
  pc : Pc

structure State where
  ptable : Slot → Proc
  nextpid : Word
  initproc : Slot
  cpu : Option Slot
  mem : Mem

inductive Event where
  | dispatch (p : Slot)
  | yield
  | fork
  | forkNext
  | exit
  | wait
  | getmeminfo (pid : Word)
  deriving DecidableEq, Repr

inductive Output where
  | none
  | ret (val : Word)
  | visits (ps : List Slot)
  deriving DecidableEq, Repr

def Proc.zero : Proc where
  state := .unused
  pid := 0
  parent := none
  kstack := none
  pgdir := none
  sz := 0
  pc := .user

namespace State

variable (L : Layout)

def modify (s : State) (p : Slot) (f : Proc → Proc) : State :=
  { s with ptable := Function.update s.ptable p (f (s.ptable p)) }

def setPc (s : State) (p : Slot) (pc : Pc) : State :=
  s.modify p fun x => { x with pc := pc }

def setState (s : State) (p : Slot) (state : ProcState) : State :=
  s.modify p fun x => { x with state := state }

-- `fork` up to the end of the critical section of `allocproc`.
def fork (s : State) (cur : Slot) : State × Output :=
  match findSlot fun p => (s.ptable p).state = .unused with
  | none => (s, .ret (-1))
  | some np =>
    let s' := s.modify np fun x => { x with state := .embryo, pid := s.nextpid }
    ({ s' with nextpid := s.nextpid + 1 }.setPc cur (.kstack np), .none)

-- The kernel stops where a step is an error.
def forkNext (s : State) (cur : Slot) : Option (State × Output) :=
  match (s.ptable cur).pc with
  | .kstack np =>
    match s.mem.kalloc with
    | none => some ((s.modify np fun x => { x with kstack := none }).setPc cur (.unuse np), .none)
    | some (kstack, m) =>
      some (({ s with mem := m }.modify np fun x => { x with kstack := some kstack }).setPc cur (.copy np), .none)
  | .copy np =>
    match (s.ptable cur).pgdir with
    | none => none
    | some d =>
      match copyuvm L d (s.ptable cur).sz s.mem with
      | .error _ => none
      | .ok (none, m) =>
        some (({ s with mem := m }.modify np fun x => { x with pgdir := none }).setPc cur (.undo np), .none)
      | .ok (some d, m) =>
        some (({ s with mem := m }.modify np fun x => { x with pgdir := some d }).setPc cur (.copied np), .none)
  | .copied np =>
    let sz := (s.ptable cur).sz
    some ((s.modify np fun x => { x with sz := sz, parent := some cur }).setPc cur (.publish np), .none)
  | .publish np => some ((s.setState np .runnable).setPc cur .user, .ret (s.ptable np).pid)
  | .undo np =>
    match (s.ptable np).kstack with
    | none => none
    | some kstack =>
      match s.mem.kfree L kstack with
      | .error _ => none
      | .ok m => some (({ s with mem := m }.modify np fun x => { x with kstack := none }).setPc cur (.unuse np), .none)
  | .unuse np => some ((s.setState np .unused).setPc cur .user, .ret (-1))
  | _ => none

-- A process sleeps in `wait` only, and its channel is its own slot.
def wakeup1 (s : State) (chan : Option Slot) : State :=
  match chan with
  | none => s
  | some p => s.modify p fun x => if x.state = .sleeping then { x with state := .runnable } else x

-- One round of the loop of `exit` over the table.
def adopt (cur : Slot) (s : State) (p : Slot) : State :=
  if (s.ptable p).parent = some cur then
    let s := s.modify p fun x => { x with parent := some s.initproc }
    if (s.ptable p).state = .zombie then s.wakeup1 (some s.initproc) else s
  else
    s

-- The critical section of `exit`. For `initproc` it is not reached.
def exit (s : State) (cur : Slot) : Option (State × Output) :=
  if cur = s.initproc then
    none
  else
    let s := s.wakeup1 (s.ptable cur).parent
    let s := (List.finRange NPROC).foldl (adopt cur) s
    some ({ s.setState cur .zombie with cpu := none }, .none)

def findZombie (s : State) (cur : Slot) : Option Slot :=
  findSlot fun p => (s.ptable p).parent = some cur ∧ (s.ptable p).state = .zombie

def havekids (s : State) (cur : Slot) : Bool :=
  (findSlot fun p => (s.ptable p).parent = some cur).isSome

-- The scan of `wait`. The pointer to the page directory that it has freed stays in the slot.
def wait (s : State) (cur : Slot) : Option (State × Output) :=
  match s.findZombie cur with
  | some c =>
    match (s.ptable c).kstack, (s.ptable c).pgdir with
    | some kstack, some d =>
      match s.mem.kfree L kstack with
      | .error _ => none
      | .ok m =>
        match freevm L d m with
        | .error _ => none
        | .ok m =>
          let s' := { s with mem := m }.modify c fun x =>
            { x with kstack := none, pid := 0, parent := none, state := .unused }
          some (s'.setPc cur .user, .ret (s.ptable c).pid)
    | _, _ => none
  | none =>
    if ¬ s.havekids cur then
      some (s.setPc cur .user, .ret (-1))
    else
      some ({ (s.setPc cur .wait).setState cur .sleeping with cpu := none }, .none)

-- The slots that the loop of `getmeminfo` walks the page tables of.
def getmeminfo (s : State) (pid : Word) : List Slot :=
  if pid.toInt < 0 then
    []
  else
    (List.finRange NPROC).filter fun p => (pid = 0 ∨ (s.ptable p).pid = pid) ∧ (s.ptable p).state ≠ .unused

def step : Machine State Event Output := fun s e =>
  match e, s.cpu with
  | .dispatch p, none =>
    if (s.ptable p).state = .runnable then some ({ s.setState p .running with cpu := some p }, .none) else none
  | .yield, some cur => some ({ s.setState cur .runnable with cpu := none }, .none)
  | .fork, some cur => if (s.ptable cur).pc = .user then some (s.fork cur) else none
  | .forkNext, some cur => s.forkNext L cur
  | .exit, some cur => if (s.ptable cur).pc = .user then s.exit cur else none
  | .wait, some cur => if (s.ptable cur).pc = .user ∨ (s.ptable cur).pc = .wait then s.wait L cur else none
  | .getmeminfo pid, some cur =>
    if (s.ptable cur).pc = .user then some (s, .visits (s.getmeminfo pid)) else none
  | _, _ => none

end State

-- The table that `userinit` leaves, which sets the state of its process last.
def start (s : Vm.State) : State where
  ptable p :=
    match s.procs p with
    | none => .zero
    | some x => { Proc.zero with state := .runnable, pid := 1, kstack := some x.kstack, pgdir := some x.pgdir, sz := x.sz }
  nextpid := 2
  initproc := 0
  cpu := none
  mem := s.mem

end Xv6.Vm.Table
