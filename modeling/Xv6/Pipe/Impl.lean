import Mathlib.Data.Fintype.Basic
import Xv6.Lib.Machine

/-!
`pipe.c`: one pipe, and any number of processes in `pipewrite`, `piperead` and `pipeclose` at the same time.
`ι` is the type of processes.

A step is one statement, or a stretch of code in which only data is used that the locks held there protect.
So `sleep` is cut at each change of the two locks, and `wakeup`, which holds `ptable.lock` from beginning to
end, is one step. The places of a process in the code:
- `acquire c i`: at `acquire(&p->lock)`, on entry or when it comes back from `sleep`
- `loop c i`: at the head of the loop of `pipewrite` or of the first loop of `piperead`, or behind the
  `acquire` of `pipeclose`
- `copy n i addr`: in the second loop of `piperead`, `addr` is what it has stored in the buffer of the caller
- `notify c i`: in `pipewrite`, at the `wakeup` in front of the `sleep`
- `finish c r addr`: at the last `wakeup`, behind which the lock is released and `r` returned
- `sleepAcquire c i`: in `sleep`, at `acquire(&ptable.lock)`
- `sleepRelease c i`: in `sleep`, at `release(lk)`
- `sleepSwitch c i`: in `sleep`, about to set `state` and to leave for the scheduler, which releases
  `ptable.lock`
- `asleep c i`: `SLEEPING`

The `int n` of the calls is not negative, `sys_read` and `sys_write` check this. A call uses an end that is
open, and an end is closed once and not while somebody is in a call on it, since a process keeps a reference
to the `struct file` during the call.
-/

namespace Xv6

def PIPESIZE : Nat := 512

structure Pipe where
  data : Fin PIPESIZE → UInt8
  nread : BitVec 32
  nwrite : BitVec 32
  readopen : Bool
  writeopen : Bool

namespace Pipe

inductive Call where
  | write (addr : List UInt8)
  | read (n : Nat)
  | close (writable : Bool)
  deriving DecidableEq, Repr

inductive Pc where
  | idle
  | acquire (c : Call) (i : Nat)
  | loop (c : Call) (i : Nat)
  | copy (n i : Nat) (addr : List UInt8)
  | notify (c : Call) (i : Nat)
  | finish (c : Call) (r : Int) (addr : List UInt8)
  | sleepAcquire (c : Call) (i : Nat)
  | sleepRelease (c : Call) (i : Nat)
  | sleepSwitch (c : Call) (i : Nat)
  | asleep (c : Call) (i : Nat)
  deriving DecidableEq, Repr

-- `&p->nread` and `&p->nwrite`
inductive Chan where
  | nread
  | nwrite
  deriving DecidableEq, Repr

-- The channel on which the loop of a call sleeps.
def Call.chan : Call → Option Chan
  | .write _ => some .nwrite
  | .read _ => some .nread
  | .close _ => none

-- The channel that a call wakes up in the end.
def Call.wakes : Call → Chan
  | .write _ => .nread
  | .read _ => .nwrite
  | .close true => .nread
  | .close false => .nwrite

structure State (ι : Type) where
  pipe : Pipe
  -- who holds `p->lock` and `ptable.lock`
  lock : Option ι
  ptable : Option ι
  pc : ι → Pc
  killed : ι → Bool

inductive Event (ι : Type) where
  | call (p : ι) (c : Call)
  | step (p : ι)
  | kill (p : ι)

-- `addr` is what the call has stored in the buffer of its caller.
inductive Output where
  | none
  | ret (c : Call) (r : Int) (addr : List UInt8)
  deriving DecidableEq, Repr

def index (n : BitVec 32) : Fin PIPESIZE :=
  ⟨n.toNat % PIPESIZE, Nat.mod_lt _ (by decide)⟩

def full (p : Pipe) : Bool :=
  p.nwrite = p.nread + BitVec.ofNat 32 PIPESIZE

def empty (p : Pipe) : Bool :=
  p.nread = p.nwrite

-- `p->data[p->nwrite++ % PIPESIZE] = b`
def put (p : Pipe) (b : UInt8) : Pipe :=
  { p with
      data := fun i => if i = index p.nwrite then b else p.data i
      nwrite := p.nwrite + 1 }

-- `p->data[p->nread++ % PIPESIZE]`
def front (p : Pipe) : UInt8 :=
  p.data (index p.nread)

def drop (p : Pipe) : Pipe :=
  { p with nread := p.nread + 1 }

def close (p : Pipe) (writable : Bool) : Pipe :=
  if writable then { p with writeopen := false } else { p with readopen := false }

-- The call that a process is in.
def Pc.call : Pc → Option Call
  | .idle => none
  | .acquire c _ => some c
  | .loop c _ => some c
  | .copy n _ _ => some (.read n)
  | .notify c _ => some c
  | .finish c _ _ => some c
  | .sleepAcquire c _ => some c
  | .sleepRelease c _ => some c
  | .sleepSwitch c _ => some c
  | .asleep c _ => some c

-- `pipewrite` is on the write end, `piperead` on the read end.
def Call.onWriteEnd : Call → Bool
  | .write _ => true
  | .read _ => false
  | .close w => w

def Call.isClose : Call → Bool
  | .close _ => true
  | _ => false

namespace State

variable {ι : Type} [Fintype ι] [DecidableEq ι]

def setPc (s : State ι) (p : ι) (pc : Pc) : State ι :=
  { s with pc := fun q => if q = p then pc else s.pc q }

def setPipe (s : State ι) (pipe : Pipe) : State ι :=
  { s with pipe := pipe }

-- `wakeup1`: a process that wakes up goes on in `sleep` and takes `p->lock` again.
def wakeup1 (s : State ι) (chan : Chan) : State ι :=
  { s with
      pc := fun q =>
        match s.pc q with
        | .asleep c i => if c.chan = some chan then .acquire c i else .asleep c i
        | pc => pc }

-- `release(&p->lock)` and the return from the call.
def leave (s : State ι) (p : ι) : State ι :=
  { s.setPc p .idle with lock := none }

-- The end is open, and nobody is in a call that rules this one out.
def allowed (s : State ι) (c : Call) : Bool :=
  (if c.onWriteEnd then s.pipe.writeopen else s.pipe.readopen) ∧
    ∀ q, ∀ c' ∈ (s.pc q).call, c'.onWriteEnd = c.onWriteEnd → c.isClose = false ∧ c'.isClose = false

-- One round of `pipewrite`.
def pipewrite (s : State ι) (p : ι) (addr : List UInt8) (i : Nat) : State ι × Output :=
  match addr[i]? with
  | none => (s.setPc p (.finish (.write addr) addr.length []), .none)
  | some b =>
    if s.pipe.full then
      if ¬ s.pipe.readopen ∨ s.killed p then
        (s.leave p, .ret (.write addr) (-1) [])
      else
        (s.setPc p (.notify (.write addr) i), .none)
    else
      ((s.setPipe (s.pipe.put b)).setPc p (.loop (.write addr) (i + 1)), .none)

-- The first loop of `piperead`.
def piperead (s : State ι) (p : ι) (n : Nat) : State ι × Output :=
  if s.pipe.empty ∧ s.pipe.writeopen then
    if s.killed p then
      (s.leave p, .ret (.read n) (-1) [])
    else
      (s.setPc p (.sleepAcquire (.read n) 0), .none)
  else
    (s.setPc p (.copy n 0 []), .none)

-- The second loop of `piperead`: `addr[i] = p->data[p->nread++ % PIPESIZE]`.
def pipecopy (s : State ι) (p : ι) (n i : Nat) (addr : List UInt8) : State ι × Output :=
  if i < n ∧ ¬ s.pipe.empty then
    ((s.setPipe s.pipe.drop).setPc p (.copy n (i + 1) (addr ++ [s.pipe.front])), .none)
  else
    (s.setPc p (.finish (.read n) i addr), .none)

def pipeclose (s : State ι) (p : ι) (writable : Bool) : State ι × Output :=
  ((s.setPipe (s.pipe.close writable)).setPc p (.finish (.close writable) 0 []), .none)

def next (s : State ι) (p : ι) : Option (State ι × Output) :=
  match s.pc p with
  | .idle => none
  | .acquire c i =>
    if s.lock = none then some ({ s.setPc p (.loop c i) with lock := some p }, .none) else none
  | .loop (.write addr) i => some (s.pipewrite p addr i)
  | .loop (.read n) _ => some (s.piperead p n)
  | .loop (.close w) _ => some (s.pipeclose p w)
  | .copy n i addr => some (s.pipecopy p n i addr)
  | .notify c i =>
    if s.ptable = none then some ((s.wakeup1 .nread).setPc p (.sleepAcquire c i), .none) else none
  | .finish c r addr =>
    if s.ptable = none then some ((s.wakeup1 c.wakes).leave p, .ret c r addr) else none
  | .sleepAcquire c i =>
    if s.ptable = none then some ({ s.setPc p (.sleepRelease c i) with ptable := some p }, .none) else none
  | .sleepRelease c i => some ({ s.setPc p (.sleepSwitch c i) with lock := none }, .none)
  | .sleepSwitch c i => some ({ s.setPc p (.asleep c i) with ptable := none }, .none)
  | .asleep _ _ => none

-- `kill`, the part under `ptable.lock`.
def kill (s : State ι) (p : ι) : State ι :=
  { s with
      killed := fun q => if q = p then true else s.killed q
      pc := fun q =>
        if q = p then
          match s.pc q with
          | .asleep c i => .acquire c i
          | pc => pc
        else s.pc q }

def step : Machine (State ι) (Event ι) Output := fun s e =>
  match e with
  | .call p c => if s.pc p = .idle ∧ s.allowed c then some (s.setPc p (.acquire c 0), .none) else none
  | .step p => s.next p
  | .kill p => if s.ptable = none then some (s.kill p, .none) else none

-- What `pipealloc` leaves behind.
def init (data : Fin PIPESIZE → UInt8) : State ι where
  pipe := { data := data, nread := 0, nwrite := 0, readopen := true, writeopen := true }
  lock := none
  ptable := none
  pc _ := .idle
  killed _ := false

end State

end Pipe

end Xv6
