import Xv6.Proc.Impl.Ptable
import Xv6.Lib.Machine

/-!
The kernel as a machine: `trap.c`, the loop of `scheduler` and the system calls of a process, cut at
the points where another process or an interrupt handler can get in between.

On one CPU an interrupt arrives only while interrupts are on. They are off whenever `ptable.lock` is
held and in everything that `trap` does for an interrupt or a fault, so these run as one step.

The events:
- `schedule`: one step of the loop of `scheduler`
- `timer yields`: a timer interrupt, `yields` is what the test in front of the `yield()` says
- `intr chan`: a device interrupt whose handler wakes up `chan`
- `fault`: the `default` case of `trap` for a process in user space
- `syscall call`: a system call up to the end of its first critical section
- `sleep chan`, `wakeup chan`: the current process calls `sleep` or `wakeup`
- `done`: a system call that is `other` returns
- `forkNext ok`: `fork` goes on, `ok` tells whether the next `kalloc` or `copyuvm` succeeds
- `waitNext`: `wait` scans the table again after `sleep`
- `ret`: `trap` goes on after a system call
- `exitNext`: `exit` enters its critical section

In `step` the answer of the test in `trap` is part of the event, `kstep` is the machine in which `trap`
gives it. `Output.child` is what a successful `wait` returns, `Output.times` what a successful `wait2`
returns and stores through its pointers, `Output.ret` any other return value.
-/

namespace Xv6

inductive Call where
  | kill (pid : Word)
  | fork
  | wait
  | wait2
  | exit
  | other
  deriving DecidableEq, Repr

inductive Event where
  | schedule
  | timer (yields : Bool)
  | intr (chan : Chan)
  | fault
  | syscall (call : Call)
  | sleep (chan : Chan)
  | wakeup (chan : Chan)
  | done
  | forkNext (ok : Bool)
  | waitNext
  | ret
  | exitNext
  deriving DecidableEq, Repr

inductive Output where
  | none
  | ret (val : Word)
  | child (pid : Word)
  | times (pid wtime rutime : Word)
  | panic (msg : String)
  deriving DecidableEq, Repr

def Pc.intrOn : Pc → Bool
  | .wait _ => false
  | .exit intr => intr
  | .yielded => false
  | _ => true

-- What the kernel passes to `sleep` outside `wait`.
def Chan.isObject : Chan → Bool
  | .ticks => true
  | .obj _ => true
  | _ => false

/--
What a dispatched process does before `ptable.lock` is released or interrupts come on again. `sleep`
clears `chan`. After a `yield()` in an interrupt from user space `trap` looks at `killed` once more.
-/
def Proc.resume (p : Proc) : Proc :=
  match p.pc with
  | .yielded => { p with chan := .null, pc := if p.killed then .exit false else .user }
  | _ => { p with chan := .null }

namespace State

variable (k : Accounting)

def setPc (s : State) (p : Slot) (pc : Pc) : State :=
  s.modify p fun p => { p with pc := pc }

def tick (s : State) : State :=
  let s := { s with ticks := s.ticks + 1 }
  (s.mapTable (.tick k)).wakeup1 k .ticks

-- The check of `killed` in `trap` for a process that came from user space.
def forcedExit (s : State) (p : Slot) : Bool :=
  (s.ptable p).killed ∧ (s.ptable p).pc = .user

def trapEnd (s : State) (p : Slot) (yields : Bool) : State :=
  if s.forcedExit p then
    s.setPc p (.exit false)
  else if (s.ptable p).state = .running ∧ yields then
    let pc := if (s.ptable p).pc = .user then .yielded else (s.ptable p).pc
    (s.setPc p pc).yield k p
  else
    s

-- The test in front of the `yield()` of `trap`.
def yieldTest (p : Proc) : Bool :=
  ¬ p.pid.toInt.tmod 2 = 0 ∨ (p.rutime.toInt.tmod 2 = 0 ∧ p.rutime ≠ 0)

def intrOn (s : State) : Bool :=
  match s.cpu with
  | .idle => true
  | .run p => (s.ptable p).pc.intrOn
  | _ => false

def intrEnd (s : State) (yields : Bool) : State :=
  match s.cpu with
  | .run p => s.trapEnd k p yields
  | _ => s

def schedule (s : State) : Option State :=
  match s.cpu with
  | .idle => some { s with cpu := .scan 0 }
  | .scan i =>
    if h : i < NPROC then
      if (s.ptable ⟨i, h⟩).state = .runnable then
        some (s.dispatch k ⟨i, h⟩ Proc.resume)
      else
        some { s with cpu := .scan (i + 1) }
    else
      some { s with cpu := .idle }
  | _ => none

def waitScan (s : State) (p : Slot) (two : Bool) : State × Output :=
  match s.findZombie p with
  | some c =>
    let child := s.ptable c
    let s := (s.modify c (.reap k two)).setPc p .ret
    (s, if two then .times child.pid child.wtime child.rutime else .child child.pid)
  | none =>
    if ¬ s.havekids p ∨ (s.ptable p).killed then
      (s.setPc p .ret, .ret (-1))
    else
      ((s.setPc p (.wait two)).sleep k p (.proc p), .none)

def syscall (s : State) (p : Slot) (call : Call) : State × Output :=
  if (s.ptable p).killed then
    (s.setPc p (.exit true), .none)
  else
    match call with
    | .kill pid =>
      let (s, val) := s.kill k pid
      (s.setPc p .ret, .ret val)
    | .fork =>
      match s.allocproc k with
      | some (np, s) => (s.setPc p (.forkKstack np), .none)
      | none => (s.setPc p .ret, .ret (-1))
    | .wait => s.waitScan k p false
    | .wait2 => s.waitScan k p true
    | .exit => (s.setPc p (.exit true), .none)
    | .other => (s.setPc p .sys, .none)

-- `fork` after the critical section of `allocproc`. The child starts in `forkret`.
def forkNext (s : State) (p : Slot) (ok : Bool) : Option (State × Output) :=
  match (s.ptable p).pc with
  | .forkKstack np =>
    if ok then
      some ((s.setPc np .user).setPc p (.forkCopy np), .none)
    else
      some ((s.modify np fun c => { c with state := .unused }).setPc p .ret, .ret (-1))
  | .forkCopy np =>
    if ok then
      some ((s.modify np fun c => { c with parent := some p }).setPc p (.forkPublish np), .none)
    else
      some ((s.modify np fun c => { c with state := .unused }).setPc p .ret, .ret (-1))
  | .forkPublish np =>
    let s' := (s.modify np fun c => { c with state := .runnable }).setPc p .ret
    some (s', .ret (s.ptable np).pid)
  | _ => none

def procStep (s : State) (p : Slot) (e : Event) : Option (State × Output) :=
  match e, (s.ptable p).pc with
  | .fault, .user =>
    some ((s.modify p fun p => { p with killed := true }).setPc p (.exit false), .none)
  | .syscall call, .user => some (s.syscall k p call)
  | .sleep chan, .sys | .sleep chan, .exit _ =>
    if chan.isObject then some (s.sleep k p chan, .none) else none
  | .wakeup chan, .sys | .wakeup chan, .exit _ => some (s.wakeup1 k chan, .none)
  | .done, .sys => some (s.setPc p .ret, .none)
  | .forkNext ok, _ => s.forkNext p ok
  | .waitNext, .wait two => some (s.waitScan k p two)
  | .ret, .ret => some (s.setPc p (if (s.ptable p).killed then .exit true else .user), .none)
  | .exitNext, .exit _ =>
    if s.initproc = some p then
      some ({ s with cpu := .halted }, .panic "init exiting")
    else
      some (s.exit k p, .none)
  | _, _ => none

def step : Machine State Event Output := fun s e =>
  match e with
  | .schedule => (s.schedule k).map fun s => (s, .none)
  | .timer yields =>
    if s.intrOn then some ((s.tick k).intrEnd k yields, .none) else none
  | .intr chan =>
    if s.intrOn then some ((s.wakeup1 k chan).intrEnd k false, .none) else none
  | e =>
    match s.cpu with
    | .run p => s.procStep k p e
    | _ => none

def trapYields (s : State) : Bool :=
  match s.cpu with
  | .run p => yieldTest ((s.tick k).ptable p)
  | _ => false

def kstep : Machine State Event Output := fun s e =>
  match e with
  | .timer yields => if yields = s.trapYields k then s.step k e else none
  | e => s.step k e

-- The process of `userinit` runs `iinit` and `initlog` first, which may sleep.
def userinit (s : State) : State :=
  match s.allocproc k with
  | none => s
  | some (p, s) =>
    let s := { s with initproc := some p }
    s.modify p fun p => { p with state := .runnable, pc := .sys }

def boot : State :=
  let s : State :=
    { ptable := fun _ => .zero, nextpid := 1, ticks := 0, initproc := none, cpu := .idle }
  s.userinit k

end State

end Xv6
