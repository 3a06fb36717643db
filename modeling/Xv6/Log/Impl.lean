import Mathlib.Data.Nat.Basic
import Xv6.Lib.Machine

/-!
`log.c`: the write-ahead log, with any number of file-system operations between `begin_op` and `end_op` at the
same time, one process in `commit`, and crashes at any moment. `β` is the type of block contents.

The log area and the home blocks are disjoint, so the disk is kept in three parts: the header block (`n` and the
first `n` entries of `block`), the log blocks `log.start + 1 + i`, and the home blocks. `mem` is what `bread`
returns for a home block. An operation is named by the number of operations that have begun before it.

A step is a critical section under `log.lock` or one write of a disk block. The places in `commit` and
`recover_from_log`:
- `ready`: nobody is in either of them
- `writeLog i`: in `write_log`, about to write the log block `i`
- `writeHead`: at the first `write_head`
- `install i`: in `install_trans`, about to write the home block of entry `i`
- `clearHead`: at the second `write_head`
- `leave`: in `end_op`, behind `commit`
- `down`: the machine has crashed and has not read the log yet
- `recover i`: in the `install_trans` of `recover_from_log`
- `clearLog`: at the `write_head` of `recover_from_log`
- `halted`: stopped in `panic`
-/

namespace Xv6

def MAXOPBLOCKS : Nat := 10

def LOGSIZE : Nat := MAXOPBLOCKS * 3

namespace Log

structure Disk (β : Type) where
  head : List Nat
  log : Nat → β
  home : Nat → β

inductive Pc where
  | ready
  | writeLog (i : Nat)
  | writeHead
  | install (i : Nat)
  | clearHead
  | leave
  | down
  | recover (i : Nat)
  | clearLog
  | halted
  deriving DecidableEq, Repr

structure State (β : Type) where
  disk : Disk β
  mem : Nat → β
  -- the first `log.lh.n` entries of `log.lh.block`
  lh : List Nat
  outstanding : Nat
  committing : Bool
  pc : Pc
  -- the operations between `begin_op` and `end_op`, and the name of the next one
  active : List Nat
  next : Nat

inductive Event (β : Type) where
  | begin_op
  -- the operation `op` changes the block `b` to `v` and calls `log_write`
  | log_write (op b : Nat) (v : β)
  | end_op (op : Nat)
  | advance
  | crash

inductive Output where
  | none
  | panic (msg : String)
  deriving DecidableEq, Repr

def update {β : Type} (f : Nat → β) (b : Nat) (v : β) (b' : Nat) : β :=
  if b' = b then v else f b'

def Pc.up : Pc → Bool
  | .down => false
  | .recover _ => false
  | .clearLog => false
  | .halted => false
  | _ => true

namespace State

variable {β : Type}

-- `begin_op` sleeps while it returns `none`.
def begin_op (s : State β) : Option (State β) :=
  if s.committing then none
  else if s.lh.length + (s.outstanding + 1) * MAXOPBLOCKS > LOGSIZE then none
  else
    some { s with
      outstanding := s.outstanding + 1
      active := s.next :: s.active
      next := s.next + 1 }

def panic (s : State β) (msg : String) : State β × Output :=
  ({ s with pc := .halted }, .panic msg)

def log_write (size : Nat) (s : State β) (b : Nat) (v : β) : State β × Output :=
  if s.lh.length ≥ LOGSIZE ∨ s.lh.length ≥ size - 1 then s.panic "too big a transaction"
  else if s.outstanding < 1 then s.panic "log_write outside of trans"
  else
    ({ s with
        mem := update s.mem b v
        lh := if b ∈ s.lh then s.lh else s.lh ++ [b] }, .none)

def end_op (s : State β) (op : Nat) : State β × Output :=
  let s := { s with outstanding := s.outstanding - 1, active := s.active.erase op }
  if s.committing then s.panic "log.committing"
  else if s.outstanding = 0 then
    ({ s with committing := true, pc := if s.lh = [] then .leave else .writeLog 0 }, .none)
  else
    (s, .none)

-- One round of the loop of `install_trans`.
def install (s : State β) (i b : Nat) (pc : Pc) : State β :=
  { s with
      disk := { s.disk with home := update s.disk.home b (s.disk.log i) }
      mem := update s.mem b (s.disk.log i)
      pc := pc }

def advance (s : State β) : Option (State β) :=
  match s.pc with
  | .writeLog i =>
    match s.lh[i]? with
    | some b => some { s with disk := { s.disk with log := update s.disk.log i (s.mem b) }, pc := .writeLog (i + 1) }
    | none => some { s with pc := .writeHead }
  | .writeHead => some { s with disk := { s.disk with head := s.lh }, pc := .install 0 }
  | .install i =>
    match s.lh[i]? with
    | some b => some (s.install i b (.install (i + 1)))
    | none => some { s with lh := [], pc := .clearHead }
  | .clearHead => some { s with disk := { s.disk with head := s.lh }, pc := .leave }
  | .leave => some { s with committing := false, pc := .ready }
  | .down => some { s with lh := s.disk.head, pc := .recover 0 }
  | .recover i =>
    match s.lh[i]? with
    | some b => some (s.install i b (.recover (i + 1)))
    | none => some { s with lh := [], pc := .clearLog }
  | .clearLog => some { s with disk := { s.disk with head := s.lh }, pc := .ready }
  | .ready => none
  | .halted => none

-- Everything but the disk is lost.
def crash (s : State β) : State β :=
  { s with
      mem := s.disk.home
      lh := []
      outstanding := 0
      committing := false
      pc := .down
      active := [] }

def step (size : Nat) : Machine (State β) (Event β) Output := fun s e =>
  match e with
  | .begin_op => if s.pc.up then s.begin_op.map fun s => (s, .none) else none
  | .log_write op b v => if s.pc.up ∧ op ∈ s.active then some (s.log_write size b v) else none
  | .end_op op => if s.pc.up ∧ op ∈ s.active then some (s.end_op op) else none
  | .advance => s.advance.map fun s => (s, .none)
  | .crash => some (s.crash, .none)

-- The log of a fresh image is empty.
def init (log home : Nat → β) : State β where
  disk := { head := [], log := log, home := home }
  mem := home
  lh := []
  outstanding := 0
  committing := false
  pc := .ready
  active := []
  next := 0

end State

end Log

end Xv6
