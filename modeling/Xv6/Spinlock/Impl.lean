import Mathlib.Logic.Function.Basic
import Xv6.Lib.Machine
import Xv6.Proc.Basic

/-!
Spin locks, interrupts and context switches on any number of CPUs: `spinlock.c`, and `sched` and `scheduler` of `proc.c`.
Each event is one access to memory that other CPUs see, together with what its CPU does to its own registers and to its
`struct cpu` before and after. Everything else that the kernel does is `code`: it may call `acquire`, `release` and
`sched` at any time and with any lock.

A kernel thread is a process or the scheduler of a CPU. A `Kthread` has what is nowhere in memory but in the place where
the thread is: the locks that it has acquired and not yet released, the interrupts whose handlers it is in, and whether
interrupts were on when it called `pushcli` last with `ncli` 0.

- A process writes its state only while it holds `ptable.lock`, and then calls `sched` (`yield`, `sleep` and `exit`).
- A handler returns, and a process goes back to user space, without locks.
-/

namespace Xv6.Spinlock

inductive Thread (κ ι : Type) where
  | scheduler (c : κ)
  | proc (p : ι)
  deriving DecidableEq

inductive Caller where
  | acquire
  | release
  | sched
  deriving DecidableEq

inductive Pc (L : Type) where
  | code
  -- in `holding`, where `lk->locked` was 1 and `lk->cpu` comes next
  | holding (f : Caller) (lk : L)
  | spin (lk : L)
  | setCpu (lk : L)
  | clearCpu (lk : L)
  | clearLocked (lk : L)
  deriving DecidableEq

-- `struct cpu` with FL_IF, and without a process while the scheduler runs
structure Cpu (ι L : Type) where
  ncli : Nat
  intena : Bool
  eflags : Bool
  proc : Option ι
  pc : Pc L

structure Lock (κ : Type) where
  locked : Bool
  cpu : Option κ

inductive Context where
  | forkret
  | sched (intena : Bool)

-- The context is none if it is not the one where the process goes on.
structure Proc where
  state : ProcState
  context : Option Context

structure Kthread (L : Type) where
  held : List L
  traps : Nat
  flag : Option Bool

structure State (κ ι L : Type) where
  cpu : κ → Cpu ι L
  lock : L → Lock κ
  proc : ι → Proc
  thread : Thread κ ι → Kthread L
  panic : Option String

inductive Event (κ ι L : Type) where
  | acquire (c : κ) (lk : L)
  | release (c : κ) (lk : L)
  | sched (c : κ) (state : ProcState)
  | step (c : κ)
  | intr (c : κ)
  | iret (c : κ)
  | sti (c : κ)
  | dispatch (c : κ) (p : ι)
  -- `allocproc`, the end of `fork`, its failure, `wakeup1` and `kill`, and `wait`
  | alloc (c : κ) (p : ι)
  | ready (c : κ) (p : ι)
  | discard (c : κ) (p : ι)
  | wakeup (c : κ) (p : ι)
  | reap (c : κ) (p : ι)

variable {κ ι L : Type} [DecidableEq κ] [DecidableEq ι] [DecidableEq L]

namespace Cpu

variable (cpu : Cpu ι L)

def pushcli : Cpu ι L :=
  { cpu with ncli := cpu.ncli + 1, intena := if cpu.ncli = 0 then cpu.eflags else cpu.intena, eflags := false }

def popcli : Except String (Cpu ι L) :=
  if cpu.eflags then .error "popcli - interruptible"
  else if cpu.ncli = 0 then .error "popcli"
  else .ok { cpu with ncli := cpu.ncli - 1, eflags := decide (cpu.ncli = 1) && cpu.intena }

-- The check that `mycpu` makes.
def mycpu : Except String Unit :=
  if cpu.eflags then .error "mycpu called with interrupts enabled\n" else .ok ()

end Cpu

namespace State

variable (s : State κ ι L)

def current (c : κ) : Thread κ ι :=
  match (s.cpu c).proc with
  | none => .scheduler c
  | some p => .proc p

def held (c : κ) : List L :=
  (s.thread (s.current c)).held

def setCpu (c : κ) (cpu : Cpu ι L) : State κ ι L :=
  { s with cpu := Function.update s.cpu c cpu }

def setLock (lk : L) (lock : Lock κ) : State κ ι L :=
  { s with lock := Function.update s.lock lk lock }

def setProc (p : ι) (proc : Proc) : State κ ι L :=
  { s with proc := Function.update s.proc p proc }

def setThread (t : Thread κ ι) (thread : Kthread L) : State κ ι L :=
  { s with thread := Function.update s.thread t thread }

def setPanic (msg : String) : State κ ι L :=
  { s with panic := some msg }

def setPc (c : κ) (cpu : Cpu ι L) (pc : Pc L) : State κ ι L :=
  s.setCpu c { cpu with pc := pc }

-- The CPU goes on with what it has computed, or it panics.
def orPanic {α : Type} (x : Except String α) (f : α → State κ ι L) : State κ ι L :=
  match x with
  | .error msg => s.setPanic msg
  | .ok a => f a

-- Another `pushcli` of the thread that runs.
def pushcli (c : κ) : State κ ι L :=
  let t := s.current c
  let s := if (s.cpu c).ncli = 0 then s.setThread t { s.thread t with flag := some (s.cpu c).eflags } else s
  s.setCpu c (s.cpu c).pushcli

-- The rest of `sched`, after `holding`.
def swtch (c : κ) (cpu : Cpu ι L) : State κ ι L :=
  s.orPanic cpu.mycpu fun _ =>
    match cpu.proc with
    | none => s
    | some p =>
      if cpu.ncli ≠ 1 then s.setPanic "sched locks"
      else if (s.proc p).state = .running then s.setPanic "sched running"
      else if cpu.eflags then s.setPanic "sched interruptible"
      else (s.setProc p { s.proc p with context := some (.sched cpu.intena) }).setPc c { cpu with proc := none } .code

-- `holding` has returned.
def answer (c : κ) (f : Caller) (lk : L) (r : Bool) (cpu : Cpu ι L) : State κ ι L :=
  match f, r with
  | .acquire, true => s.setPanic "acquire"
  | .acquire, false => s.setPc c cpu (.spin lk)
  | .release, true =>
    let t := s.current c
    (s.setThread t { s.thread t with held := (s.thread t).held.erase lk }).setPc c cpu (.clearCpu lk)
  | .release, false => s.setPanic "release"
  | .sched, true => s.swtch c cpu
  | .sched, false => s.setPanic "sched ptable.lock"

-- `holding`, up to its second access.
def holding (c : κ) (f : Caller) (lk : L) : State κ ι L :=
  let s := s.pushcli c
  if (s.lock lk).locked then s.setPc c (s.cpu c) (.holding f lk)
  else s.orPanic (s.cpu c).popcli (s.answer c f lk false)

-- The next access of the CPU, if it is in one of the functions.
def next (c : κ) : Option (State κ ι L) :=
  let cpu := s.cpu c
  match cpu.pc with
  | .code => none
  | .holding f lk => some (s.orPanic cpu.popcli (s.answer c f lk (decide ((s.lock lk).cpu = some c))))
  | .spin lk =>
    if (s.lock lk).locked then some s
    else some ((s.setLock lk { s.lock lk with locked := true }).setPc c cpu (.setCpu lk))
  | .setCpu lk =>
    let t := s.current c
    some (s.orPanic cpu.mycpu fun _ =>
      ((s.setLock lk { s.lock lk with cpu := some c }).setThread t
        { s.thread t with held := lk :: (s.thread t).held }).setPc c cpu .code)
  | .clearCpu lk => some ((s.setLock lk { s.lock lk with cpu := none }).setPc c cpu (.clearLocked lk))
  | .clearLocked lk =>
    let s := s.setLock lk { s.lock lk with locked := false }
    some (s.orPanic cpu.popcli fun cpu => s.setPc c cpu .code)

-- `scheduler` switches to the process, which goes on in `sched` or starts in `forkret`.
def dispatch (c : κ) (p : ι) : State κ ι L :=
  let s := s.setThread (.scheduler c) { s.thread (.scheduler c) with flag := none }
  match (s.proc p).context with
  | none => s.setPanic "no context"
  | some x =>
    let cpu := { s.cpu c with proc := some p }
    let cpu :=
      match x with
      | .forkret => cpu
      | .sched intena => { cpu with intena := intena }
    (s.setProc p ⟨.running, none⟩).setCpu c cpu

variable (ptable : L)

-- The CPU is at a place where it may do anything.
def free (c : κ) : Prop :=
  s.panic = none ∧ (s.cpu c).pc = .code

-- The thread that runs may look at the process table.
def locked (c : κ) : Prop :=
  s.free c ∧ ptable ∈ s.held c

instance decidableFree (c : κ) : Decidable (s.free c) := inferInstanceAs (Decidable (_ ∧ _))

instance decidableLocked (c : κ) : Decidable (s.locked ptable c) := inferInstanceAs (Decidable (_ ∧ _))

def event : Event κ ι L → Option (State κ ι L)
  | .acquire c lk => if s.free c then some ((s.pushcli c).holding c .acquire lk) else none
  | .release c lk => if s.free c then some (s.holding c .release lk) else none
  | .sched c state =>
    match (s.cpu c).proc with
    | none => none
    | some p =>
      if s.locked ptable c ∧ (state = .runnable ∨ state = .sleeping ∨ state = .zombie) then
        some ((s.setProc p { s.proc p with state := state }).holding c .sched ptable)
      else none
  | .step c => if s.panic = none then s.next c else none
  | .intr c =>
    let t := s.current c
    if s.free c ∧ (s.cpu c).eflags then
      some ((s.setThread t { s.thread t with traps := (s.thread t).traps + 1 }).setCpu c
        { s.cpu c with eflags := false })
    else none
  | .iret c =>
    let t := s.current c
    if s.free c ∧ s.held c = [] ∧ (0 < (s.thread t).traps ∨ (s.cpu c).proc ≠ none) then
      some ((s.setThread t { s.thread t with traps := (s.thread t).traps - 1 }).setCpu c { s.cpu c with eflags := true })
    else none
  | .sti c =>
    if s.free c ∧ s.held c = [] ∧ (s.cpu c).proc = none ∧ (s.thread (.scheduler c)).traps = 0 then
      some (s.setCpu c { s.cpu c with eflags := true })
    else none
  | .dispatch c p =>
    if s.free c ∧ s.held c = [ptable] ∧ (s.cpu c).proc = none ∧ (s.thread (.scheduler c)).traps = 0 ∧
        (s.proc p).state = .runnable then
      some (s.dispatch c p)
    else none
  | .alloc c p =>
    if s.locked ptable c ∧ (s.proc p).state = .unused then
      some ((s.setProc p ⟨.embryo, some .forkret⟩).setThread (.proc p) ⟨[ptable], 0, none⟩)
    else none
  | .ready c p =>
    if s.locked ptable c ∧ (s.proc p).state = .embryo then
      some (s.setProc p { s.proc p with state := .runnable })
    else none
  | .discard c p =>
    if s.free c ∧ (s.proc p).state = .embryo then some (s.setProc p { s.proc p with state := .unused }) else none
  | .wakeup c p =>
    if s.locked ptable c ∧ (s.proc p).state = .sleeping then
      some (s.setProc p { s.proc p with state := .runnable })
    else none
  | .reap c p =>
    if s.locked ptable c ∧ (s.proc p).state = .zombie then some (s.setProc p ⟨.unused, none⟩) else none

end State

def step (ptable : L) : Machine (State κ ι L) (Event κ ι L) Unit := fun s e =>
  (s.event ptable e).map fun s => (s, ())

-- `main` has called `scheduler` on each CPU, and there are no processes.
def State.init : State κ ι L where
  cpu _ := ⟨0, false, false, none, .code⟩
  lock _ := ⟨false, none⟩
  proc _ := ⟨.unused, none⟩
  thread _ := ⟨[], 0, none⟩
  panic := none

end Xv6.Spinlock
