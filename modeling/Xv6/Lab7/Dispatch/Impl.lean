import Mathlib.Algebra.Ring.Int.Defs
import Mathlib.Logic.Function.Basic
import Xv6.Lib.Machine

/-!
`taskqueue.c` of `200050133_lab7`: `main` hands the numbers of the input to new threads in `processtask`, as many at a
time as there are slots in `threadPool`. A step is one statement, and of `processtask` one statement or what it does
while it holds `m`. `arg` is one cell for each of the three places where `main` creates threads; `main` stores into it
before it creates one, and a thread reads it in its first step.

`tasks` is the memory that begins at `tasks[0]`, with what is in it before the first store.
-/

namespace Xv6.Lab7.Dispatch

inductive Line where
  | p (num : Int)
  | w (num : Int)
  deriving DecidableEq, Repr

structure Arg where
  number : Int
  idx : Nat
  deriving DecidableEq, Repr

inductive Site where
  | direct
  | queued
  | drain
  deriving DecidableEq, Repr

-- What `processtask` updates under `m`.
inductive Part where
  | sum
  | min
  | max
  | pool
  deriving DecidableEq, Repr

inductive Pc where
  | start (site : Site)
  | lock (part : Part) (nums : Arg)
  | update (part : Part) (nums : Arg)
  | unlock (part : Part) (nums : Arg)
  | done
  deriving DecidableEq, Repr

-- `scan`, `look`, `taken` and `next` are in the `for` of the read loop, `sweep` to `sweepNext` in that of the drain loop.
inductive MainPc where
  | read
  | scan (num : Int) (i : Nat)
  | look (num : Int) (i : Nat)
  | store (site : Site) (num : Int) (i : Nat)
  | create (site : Site) (num : Int) (i : Nat)
  | enqueue (num : Int) (i : Nat)
  | taken (i : Nat)
  | leave
  | next (num : Int) (i : Nat)
  | queue (num : Int)
  | drain
  | sweep (i : Nat)
  | sweepLook (i : Nat)
  | sweepTaken (i : Nat)
  | sweepNext (i : Nat)
  | join (i : Nat)
  | print
  | done
  deriving DecidableEq, Repr

inductive Holder where
  | main
  | thread (k : Nat)
  deriving DecidableEq, Repr

structure Totals where
  sum : Int
  odd : Int
  even : Int
  min : Int
  max : Int
  deriving DecidableEq, Repr

structure State where
  input : List Line
  tasks : Nat → Int
  f : Nat
  b : Nat
  cells : Site → Arg
  threads : List Pc
  threadPool : Nat → Bool
  ids : Nat → Option Nat
  m : Option Holder
  totals : Totals
  main : MainPc

def State.init (input : List Line) (tasks : Nat → Int) : State where
  input := input
  tasks := tasks
  f := 0
  b := 0
  cells _ := ⟨0, 0⟩
  threads := []
  threadPool _ := true
  ids _ := none
  m := none
  totals := ⟨0, 0, 0, 2 ^ 31 - 1, -2 ^ 31⟩
  main := .read

inductive Event where
  | main
  | thread (k : Nat)
  deriving DecidableEq, Repr

inductive Output where
  | silent
  | completed
  | waitOver
  | totals (t : Totals)
  deriving DecidableEq, Repr

def Totals.update (t : Totals) (number : Int) : Part → Totals
  | .sum =>
    if number.tmod 2 = 1 then { t with sum := t.sum + number, odd := t.odd + 1 }
    else { t with sum := t.sum + number, even := t.even + 1 }
  | .min => if number < t.min then { t with min := number } else t
  | .max => if number > t.max then { t with max := number } else t
  | .pool => t

-- The statement behind `unlock`.
def Pc.after (nums : Arg) : Part → Pc
  | .sum => .lock .min nums
  | .min => .lock .max nums
  | .max => .lock .pool nums
  | .pool => .done

def State.setThread (s : State) (k : Nat) (pc : Pc) : State :=
  { s with threads := s.threads.set k pc }

def processtask (s : State) (k : Nat) : Option (State × Output) :=
  match s.threads[k]? with
  | some (.start site) => some (s.setThread k (.lock .sum (s.cells site)), .silent)
  | some (.lock part nums) =>
    if s.m = none then some ({ s with m := some (.thread k) }.setThread k (.update part nums), .silent) else none
  | some (.update .pool nums) =>
    some ({ s with threadPool := Function.update s.threadPool nums.idx true }.setThread k (.unlock .pool nums), .silent)
  | some (.update part nums) =>
    some ({ s with totals := s.totals.update nums.number part }.setThread k (.unlock part nums), .silent)
  | some (.unlock part nums) =>
    some ({ s with m := none }.setThread k (Pc.after nums part), if part = .pool then .completed else .silent)
  | some .done => none
  | none => none

def State.goto (s : State) (pc : MainPc) : State :=
  { s with main := pc }

-- The number that is stored at a site: `num`, or the next one of `tasks`.
def State.argNumber (s : State) (num : Int) : Site → Int
  | .direct => num
  | .queued | .drain => s.tasks s.f

-- What follows `pthread_create`.
def MainPc.created (num : Int) (i : Nat) : Site → MainPc
  | .direct => .taken i
  | .queued => .enqueue num i
  | .drain => .sweepTaken i

def State.store (s : State) (site : Site) (num : Int) (i : Nat) : State :=
  { s with
    cells := Function.update s.cells site ⟨s.argNumber num site, i⟩
    f := if site = .direct then s.f else s.f + 1
    main := .create site num i }

def State.create (s : State) (site : Site) (num : Int) (i : Nat) : State :=
  { s with
    threads := s.threads ++ [.start site]
    ids := Function.update s.ids i (some s.threads.length)
    main := MainPc.created num i site }

def State.enqueue (s : State) (num : Int) (pc : MainPc) : State :=
  { s with tasks := Function.update s.tasks s.b num, b := s.b + 1, main := pc }

def State.take (s : State) (i : Nat) (pc : MainPc) : State :=
  { s with threadPool := Function.update s.threadPool i false, main := pc }

def State.joined (s : State) (i : Nat) : Bool :=
  match s.ids i with
  | some k => s.threads[k]? = some .done
  | none => true

def main (threadNum : Nat) (s : State) : Option (State × Output) :=
  match s.main with
  | .read =>
    match s.input with
    | [] => some (s.goto .drain, .silent)
    | .p num :: input => some ({ s with input := input }.goto (.scan num 0), .silent)
    | .w _ :: input => some ({ s with input := input }.goto .read, .waitOver)
  | .scan num i =>
    if i < threadNum then
      if s.m = none then some ({ s with m := some .main }.goto (.look num i), .silent) else none
    else some (s.goto (.queue num), .silent)
  | .look num i =>
    if s.threadPool i then
      if s.f = s.b then some (s.goto (.store .direct num i), .silent)
      else if s.f < s.b then some (s.goto (.store .queued num i), .silent)
      else some (s.goto (.taken i), .silent)
    else some (s.goto (.next num i), .silent)
  | .store site num i => some (s.store site num i, .silent)
  | .create site num i => some (s.create site num i, .silent)
  | .enqueue num i => some (s.enqueue num (.taken i), .silent)
  | .taken i => some (s.take i .leave, .silent)
  | .leave => some ({ s with m := none }.goto .read, .silent)
  | .next num i => some ({ s with m := none }.goto (.scan num (i + 1)), .silent)
  | .queue num => some (s.enqueue num .read, .silent)
  | .drain => some (s.goto (if s.f < s.b then .sweep 0 else .join 0), .silent)
  | .sweep i =>
    if i < threadNum then
      if s.m = none then some ({ s with m := some .main }.goto (.sweepLook i), .silent) else none
    else some (s.goto .drain, .silent)
  | .sweepLook i => some (s.goto (if s.threadPool i then .store .drain 0 i else .sweepNext i), .silent)
  | .sweepTaken i => some (s.take i (.sweepNext i), .silent)
  | .sweepNext i => some ({ s with m := none }.goto (.sweep (i + 1)), .silent)
  | .join i =>
    if i < threadNum then if s.joined i then some (s.goto (.join (i + 1)), .silent) else none
    else some (s.goto .print, .silent)
  | .print => some (s.goto .done, .totals s.totals)
  | .done => none

-- When `main` returns, the threads are gone.
def step (threadNum : Nat) : Machine State Event Output := fun s e =>
  match e with
  | .main => main threadNum s
  | .thread k => if s.main = .done then none else processtask s k

-- What has happened: the numbers of the 'p' lines, what was passed to the threads in the order of their creation, the
-- indices at which `tasks` was read, each with the `b` of that time, and of the last sweep of the drain loop the tasks
-- that were left when it began and the free slots that it has met.
structure Log where
  read : List Int
  passed : List Arg
  reads : List (Nat × Nat)
  left : Nat
  met : Nat

def Log.init : Log :=
  ⟨[], [], [], 0, 0⟩

def recordMain (s : State) (h : Log) : Log :=
  match s.main with
  | .read =>
    match s.input with
    | .p num :: _ => { h with read := h.read ++ [num] }
    | _ => h
  | .store .direct _ _ => h
  | .store .queued _ _ => { h with reads := h.reads ++ [(s.f, s.b)] }
  | .store .drain _ _ => { h with reads := h.reads ++ [(s.f, s.b)], met := h.met + 1 }
  | .create site _ _ => { h with passed := h.passed ++ [s.cells site] }
  | .drain => { h with left := s.b - s.f, met := 0 }
  | _ => h

def record (s : State) (e : Event) (_ : State) (h : Log) : Log :=
  match e with
  | .main => recordMain s h
  | .thread _ => h

theorem processtask_frame {s s' : State} {k : Nat} {o : Output} (h : processtask s k = some (s', o))
    : s'.input = s.input ∧ s'.tasks = s.tasks ∧ s'.f = s.f ∧ s'.b = s.b ∧ s'.cells = s.cells ∧ s'.main = s.main := by
  unfold processtask at h
  split at h
  any_goals split at h
  any_goals cases h
  all_goals exact ⟨rfl, rfl, rfl, rfl, rfl, rfl⟩

end Xv6.Lab7.Dispatch
