import Mathlib.Algebra.Group.Nat.Defs
import Mathlib.Algebra.Ring.Int.Defs
import Mathlib.Data.Fintype.Basic
import Mathlib.Logic.Function.Basic
import Xv6.Lib.Machine

/-!
`taskqueue.c` of `lab7`: `main` puts the numbers of the input into a ring of 20 slots, from which `n` workers take them.
A step is one statement, or the statements that only touch what the mutex that the thread holds protects. A worker that
`main` has not created yet is one that does not step yet. No thread sees how long another one sleeps.
-/

namespace Xv6.Lab7.Workers

inductive Line where
  | p (num : Int)
  | w (num : Int)
  deriving DecidableEq, Repr

-- The conversion from `long` to `int`.
def toInt (num : Int) : Int :=
  num.bmod (2 ^ 32)

def noThreads (t : Nat) : Nat :=
  ((toInt t).tdiv 2).toNat

inductive Pc where
  | lock
  | test
  | delete
  | decrement (item : Int)
  | unlock (item : Option Int)
  | lockTask (item : Int)
  | update (item : Int)
  | unlockTask
  | testDone
  | testCount
  | done
  deriving DecidableEq, Repr

inductive MainPc where
  | read
  | lock (item : Int)
  | insert (item : Int)
  | increment
  | unlock
  | setDone
  | join (i : Nat)
  | print
  | done
  deriving DecidableEq, Repr

inductive Holder (n : Nat) where
  | main
  | worker (i : Fin n)
  deriving DecidableEq, Repr

structure Totals where
  sum : Int
  odd : Int
  even : Int
  min : Int
  max : Int
  deriving DecidableEq, Repr

def Totals.init : Totals :=
  ⟨0, 0, 0, 2 ^ 31 - 1, -2 ^ 31⟩

structure State (n : Nat) where
  input : List Line
  front : Nat
  rear : Nat
  taskCount : Nat
  queue : Nat → Int
  queueMutex : Option (Holder n)
  taskMutex : Option (Fin n)
  totals : Totals
  done : Bool
  workers : Fin n → Pc
  main : MainPc

def State.init (n : Nat) (input : List Line) : State n where
  input := input
  front := 0
  rear := 0
  taskCount := 0
  queue _ := 0
  queueMutex := none
  taskMutex := none
  totals := .init
  done := false
  workers _ := .lock
  main := .read

-- `junk` is what a `queue_delete` without a value returns.
inductive Event (n : Nat) where
  | main
  | worker (i : Fin n) (junk : Int)
  deriving DecidableEq, Repr

inductive Output where
  | silent
  | overflow
  | empty
  | completed
  | waitOver
  | totals (t : Totals)
  deriving DecidableEq, Repr

def Totals.update (t : Totals) (number : Int) : Totals where
  sum := t.sum + number
  odd := if number.tmod 2 = 1 then t.odd + 1 else t.odd
  even := if number.tmod 2 = 1 then t.even else t.even + 1
  min := if number < t.min then number else t.min
  max := if number > t.max then number else t.max

variable {n : Nat}

def State.queue_insert (s : State n) (item : Int) : State n × Output :=
  let rear := (s.rear + 1) % 20
  if s.front = rear then ({ s with rear := if rear = 0 then 20 - 1 else rear - 1 }, .overflow)
  else ({ s with rear := rear, queue := Function.update s.queue rear item }, .silent)

def State.queue_delete (s : State n) (junk : Int) : State n × Int × Output :=
  if s.front = s.rear then (s, junk, .empty)
  else ({ s with front := (s.front + 1) % 20 }, s.queue ((s.front + 1) % 20), .silent)

def State.setWorker (s : State n) (i : Fin n) (pc : Pc) : State n :=
  { s with workers := Function.update s.workers i pc }

def workerFunc (s : State n) (i : Fin n) (junk : Int) : Option (State n × Output) :=
  match s.workers i with
  | .lock =>
    if s.queueMutex = none then some ({ s with queueMutex := some (.worker i) }.setWorker i .test, .silent) else none
  | .test => some (s.setWorker i (if s.taskCount > 0 then .delete else .unlock none), .silent)
  | .delete =>
    let (s', item, o) := s.queue_delete junk
    some (s'.setWorker i (.decrement item), o)
  | .decrement item => some ({ s with taskCount := s.taskCount - 1 }.setWorker i (.unlock (some item)), .silent)
  | .unlock none => some ({ s with queueMutex := none }.setWorker i .testDone, .silent)
  | .unlock (some item) => some ({ s with queueMutex := none }.setWorker i (.lockTask item), .silent)
  | .lockTask item =>
    if s.taskMutex = none then some ({ s with taskMutex := some i }.setWorker i (.update item), .silent) else none
  | .update item => some ({ s with totals := s.totals.update item }.setWorker i .unlockTask, .silent)
  | .unlockTask => some ({ s with taskMutex := none }.setWorker i .testDone, .completed)
  | .testDone => some (s.setWorker i (if s.done then .testCount else .lock), .silent)
  | .testCount => some (s.setWorker i (if s.taskCount = 0 then .done else .lock), .silent)
  | .done => none

def main (s : State n) : Option (State n × Output) :=
  match s.main with
  | .read =>
    match s.input with
    | [] => some ({ s with main := .setDone }, .silent)
    | .p num :: input => some ({ s with input := input, main := .lock (toInt num) }, .silent)
    | .w _ :: input => some ({ s with input := input }, .waitOver)
  | .lock item =>
    if s.queueMutex = none then some ({ s with queueMutex := some .main, main := .insert item }, .silent) else none
  | .insert item => some ({ (s.queue_insert item).1 with main := .increment }, (s.queue_insert item).2)
  | .increment => some ({ s with taskCount := s.taskCount + 1, main := .unlock }, .silent)
  | .unlock => some ({ s with queueMutex := none, main := .read }, .silent)
  | .setDone => some ({ s with done := true, main := .join 0 }, .silent)
  | .join i =>
    if h : i < n then
      if s.workers ⟨i, h⟩ = .done then some ({ s with main := .join (i + 1) }, .silent) else none
    else some ({ s with main := .print }, .silent)
  | .print => some ({ s with main := .done }, .totals s.totals)
  | .done => none

def step : Machine (State n) (Event n) Output := fun s e =>
  match e with
  | .main => main s
  | .worker i junk => workerFunc s i junk

def State.finished (s : State n) : Prop :=
  s.main = .done ∧ ∀ i, s.workers i = .done

def numbers : List Line → List Int
  | [] => []
  | .p num :: input => num :: numbers input
  | .w _ :: input => numbers input

-- The items that the workers have added to the totals, the last one first.
def record (s : State n) (e : Event n) (_ : State n) (added : List Int) : List Int :=
  match e with
  | .main => added
  | .worker i _ =>
    match s.workers i with
    | .update item => item :: added
    | _ => added

def MainPc.inserts : MainPc → Bool
  | .insert _ => true
  | _ => false

-- An item is only inserted while fewer than 19 items wait.
def Fits (s : State n) : Event n → Prop
  | .main => s.main.inserts → s.front ≠ (s.rear + 1) % 20
  | .worker _ _ => True

instance (s : State n) : (e : Event n) → Decidable (Fits s e)
  | .main => inferInstanceAs (Decidable (_ → _))
  | .worker _ _ => .isTrue trivial

end Xv6.Lab7.Workers
