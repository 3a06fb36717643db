import Xv6.Proc.Basic

/-!
The functions of `proc.c`, each critical section under `ptable.lock` as one function on `State`.

The repository has two lab 6 kernels. They share this code and differ only in how they keep
`wtime` and `rutime`, so every function takes the `Accounting` that it is compiled with:
- `snapshot` is `lab6/lab6`, which adds the `ticks` elapsed since `snapticks` at the state changes
- `perTick` is `lab6/200050086_lab6`, whose `updateTable` adds one to the counters at each tick
-/

namespace Xv6

inductive Accounting where
  | snapshot
  | perTick
  deriving DecidableEq, Repr

namespace Accounting

def onAlloc (k : Accounting) (ticks : Word) (c : Counters) : Counters :=
  match k with
  | .snapshot => { wtime := 0, rutime := 0, snapticks := ticks }
  | .perTick => { c with wtime := 0, rutime := 0 }

def onDispatch (k : Accounting) (ticks : Word) (c : Counters) : Counters :=
  match k with
  | .snapshot => { c with wtime := c.wtime + (ticks - c.snapticks), snapticks := ticks }
  | .perTick => c

def onYield (k : Accounting) (ticks : Word) (c : Counters) : Counters :=
  match k with
  | .snapshot => { c with rutime := c.rutime + (ticks - c.snapticks), snapticks := ticks }
  | .perTick => c

-- `sleep` and `exit`, neither of them refreshes `snapticks`
def onStop (k : Accounting) (ticks : Word) (c : Counters) : Counters :=
  match k with
  | .snapshot => { c with rutime := c.rutime + (ticks - c.snapticks) }
  | .perTick => c

def onWakeup (k : Accounting) (ticks : Word) (c : Counters) : Counters :=
  match k with
  | .snapshot => { c with snapticks := ticks }
  | .perTick => c

-- `updateTable`
def onTick (k : Accounting) (state : ProcState) (c : Counters) : Counters :=
  match k with
  | .snapshot => c
  | .perTick =>
    match state with
    | .running => { c with rutime := c.rutime + 1 }
    | .runnable => { c with wtime := c.wtime + 1 }
    | _ => c

def onWait2 (k : Accounting) (c : Counters) : Counters :=
  match k with
  | .snapshot => { c with wtime := 0, rutime := 0 }
  | .perTick => c

end Accounting

namespace Proc

variable (k : Accounting) (ticks : Word)

def alloc (pid : Word) (p : Proc) : Proc :=
  { p with state := .embryo, pid := pid, toCounters := k.onAlloc ticks p.toCounters }

def yield (p : Proc) : Proc :=
  { p with state := .runnable, toCounters := k.onYield ticks p.toCounters }

def sleep (chan : Chan) (p : Proc) : Proc :=
  { p with chan := chan, state := .sleeping, toCounters := k.onStop ticks p.toCounters }

def wakeup (p : Proc) : Proc :=
  { p with state := .runnable, toCounters := k.onWakeup ticks p.toCounters }

def exit (p : Proc) : Proc :=
  { p with state := .zombie, toCounters := k.onStop ticks p.toCounters }

def dispatch (p : Proc) : Proc :=
  { p with state := .running, toCounters := k.onDispatch ticks p.toCounters }

def tick (p : Proc) : Proc :=
  { p with toCounters := k.onTick p.state p.toCounters }

-- What `wait` and `wait2` do to the slot of the child that they return.
def reap (two : Bool) (p : Proc) : Proc :=
  { p with
      pid := 0
      parent := none
      killed := false
      state := .unused
      toCounters := if two then k.onWait2 p.toCounters else p.toCounters }

end Proc

namespace State

variable (k : Accounting)

-- The part of `allocproc` under `ptable.lock`.
def allocproc (s : State) : Option (Slot × State) :=
  match findSlot fun p => (s.ptable p).state = .unused with
  | none => none
  | some np => some (np, { s.modify np (.alloc k s.ticks s.nextpid) with nextpid := s.nextpid + 1 })

-- The loop of `scheduler` goes on behind the process that it had dispatched.
def sched (s : State) (p : Slot) : State :=
  { s with cpu := .scan (p.val + 1) }

def yield (s : State) (p : Slot) : State :=
  (s.modify p (.yield k s.ticks)).sched p

def sleep (s : State) (p : Slot) (chan : Chan) : State :=
  (s.modify p (.sleep k s.ticks chan)).sched p

def wakeup1 (s : State) (chan : Chan) : State :=
  s.mapTable fun p => if p.state = .sleeping ∧ p.chan = chan then p.wakeup k s.ticks else p

def kill (s : State) (pid : Word) : State × Word :=
  match findSlot fun p => (s.ptable p).pid = pid with
  | some p =>
    let s' := s.modify p fun p =>
      let p := { p with killed := true }
      if p.state = .sleeping then p.wakeup k s.ticks else p
    (s', 0)
  | none => (s, -1)

-- One round of the loop of `exit` over the table.
def adopt (cur : Slot) (s : State) (p : Slot) : State :=
  if (s.ptable p).parent = some cur then
    let s := s.modify p fun p => { p with parent := s.initproc }
    if (s.ptable p).state = .zombie then
      s.wakeup1 k (.ofProc s.initproc)
    else
      s
  else
    s

-- The critical section of `exit`.
def exit (s : State) (cur : Slot) : State :=
  let s := s.wakeup1 k (.ofProc (s.ptable cur).parent)
  let s := (List.finRange NPROC).foldl (adopt k cur) s
  (s.modify cur (.exit k s.ticks)).sched cur

def findZombie (s : State) (cur : Slot) : Option Slot :=
  findSlot fun p => (s.ptable p).parent = some cur ∧ (s.ptable p).state = .zombie

def havekids (s : State) (cur : Slot) : Bool :=
  (findSlot fun p => (s.ptable p).parent = some cur).isSome

-- `resume` is what the dispatched process does before it releases `ptable.lock`.
def dispatch (s : State) (p : Slot) (resume : Proc → Proc) : State :=
  { s.modify p fun p => resume (p.dispatch k s.ticks) with cpu := .run p }

end State

end Xv6
