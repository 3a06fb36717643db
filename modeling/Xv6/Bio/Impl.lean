import Xv6.Lib.Machine
import Xv6.Lib.Links

/-!
`bio.c`: the buffer cache, with any number of processes in `bread`, `bwrite`, `log_write` and `brelse` at the same
time. `ι` is the type of processes, `β` the type of block contents.

All calls are for blocks of the device `ROOTDEV`, whose contents are `disk`. A buffer is named by its index in
`bcache.buf`, and `links` holds the pointers `prev` and `next` of all buffers and of `bcache.head`. `iderw` transfers
a whole block in one step. Of `log_write` only its effect on the buffer is modelled here.

A step is a critical section under `bcache.lock`, the acquisition of a sleep-lock or a transfer. The places of a
process in the code:
- `idle`: in none of the functions, it may hold buffers
- `acquire b k`: in `bget`, at the `acquiresleep` of the buffer `b`, which it has found for the block `k`
- `check b k`: in `bread`, behind `bget`
- `read b k`: in the `iderw` of `bread`
- `write b`: in the `iderw` of `bwrite`
- `release b`: in `brelse`, behind `releasesleep`
-/

namespace Xv6

abbrev NBUF : Nat := 30

def ROOTDEV : Nat := 1

namespace Bio

structure Buf (ι β : Type) where
  valid : Bool
  dirty : Bool
  dev : Nat
  blockno : Nat
  -- who holds the sleep-lock
  lock : Option ι
  refcnt : Nat
  data : β

inductive Pc where
  | idle
  | acquire (b : Fin NBUF) (k : Nat)
  | check (b : Fin NBUF) (k : Nat)
  | read (b : Fin NBUF) (k : Nat)
  | write (b : Fin NBUF)
  | release (b : Fin NBUF)
  deriving DecidableEq, Repr

structure State (ι β : Type) where
  buf : Fin NBUF → Buf ι β
  links : Links (Fin NBUF)
  disk : Nat → β
  pc : ι → Pc
  halted : Bool

inductive Event (ι β : Type) where
  | bread (p : ι) (k : Nat)
  | bwrite (p : ι) (b : Fin NBUF)
  | log_write (p : ι) (b : Fin NBUF)
  | brelse (p : ι) (b : Fin NBUF)
  -- the process changes the data of a buffer that it holds
  | store (p : ι) (b : Fin NBUF) (v : β)
  | step (p : ι)

inductive Output (β : Type) where
  | none
  -- `bread` of the block `k` returns the buffer `b`, which holds `v`
  | bread (k : Nat) (b : Fin NBUF) (v : β)
  | panic (msg : String)
  deriving DecidableEq

namespace State

variable {ι β : Type} [DecidableEq ι]

def setBuf (s : State ι β) (b : Fin NBUF) (x : Buf ι β) : State ι β :=
  { s with buf := Function.update s.buf b x }

def setPc (s : State ι β) (p : ι) (pc : Pc) : State ι β :=
  { s with pc := Function.update s.pc p pc }

def panic (s : State ι β) (msg : String) : State ι β × Output β :=
  ({ s with halted := true }, .panic msg)

-- The critical section of `bget`. It is `none` if one of the loops does not end.
def bget (s : State ι β) (p : ι) (k : Nat) : Option (State ι β × Output β) := do
  let hit ← Links.find s.links.next (fun b => (s.buf b).dev = ROOTDEV ∧ (s.buf b).blockno = k) NBUF (s.links.next none)
  match hit with
  | some b =>
    let x := s.buf b
    return ((s.setBuf b { x with refcnt := x.refcnt + 1 }).setPc p (.acquire b k), .none)
  | none =>
    let victim ← Links.find s.links.prev (fun b => (s.buf b).refcnt = 0 ∧ (s.buf b).dirty = false) NBUF (s.links.prev none)
    match victim with
    | some b =>
      let x := s.buf b
      return ((s.setBuf b { x with
        dev := ROOTDEV
        blockno := k
        valid := false
        dirty := false
        refcnt := 1 }).setPc p (.acquire b k), .none)
    | none => return s.panic "bget: no buffers"

def iderw (s : State ι β) (b : Fin NBUF) : State ι β × Bool :=
  let x := s.buf b
  if x.dirty then
    ({ s.setBuf b { x with valid := true, dirty := false } with disk := Function.update s.disk x.blockno x.data }, true)
  else if x.valid then (s, false)
  else
    (s.setBuf b { x with valid := true, data := s.disk x.blockno }, true)

-- The critical section of `brelse`.
def unref (s : State ι β) (b : Fin NBUF) : State ι β :=
  let x := s.buf b
  let s := s.setBuf b { x with refcnt := x.refcnt - 1 }
  if x.refcnt - 1 = 0 then { s with links := (s.links.unlink (some b)).insert (some b) } else s

def advance (s : State ι β) (p : ι) : Option (State ι β × Output β) :=
  match s.pc p with
  | .idle => none
  | .acquire b k =>
    if (s.buf b).lock = none then
      some ((s.setBuf b { s.buf b with lock := some p }).setPc p (.check b k), .none)
    else none
  | .check b k =>
    if (s.buf b).valid then some (s.setPc p .idle, .bread k b (s.buf b).data)
    else some (s.setPc p (.read b k), .none)
  | .read b k =>
    let r := s.iderw b
    if r.2 then some (r.1.setPc p .idle, .bread k b (r.1.buf b).data)
    else some (s.panic "iderw: nothing to do")
  | .write b =>
    let r := s.iderw b
    if r.2 then some (r.1.setPc p .idle, .none)
    else some (s.panic "iderw: nothing to do")
  | .release b => some ((s.unref b).setPc p .idle, .none)

def bwrite (s : State ι β) (p : ι) (b : Fin NBUF) : State ι β × Output β :=
  if (s.buf b).lock ≠ some p then s.panic "bwrite"
  else ((s.setBuf b { s.buf b with dirty := true }).setPc p (.write b), .none)

def log_write (s : State ι β) (b : Fin NBUF) : State ι β :=
  s.setBuf b { s.buf b with dirty := true }

def brelse (s : State ι β) (p : ι) (b : Fin NBUF) : State ι β × Output β :=
  if (s.buf b).lock ≠ some p then s.panic "brelse"
  else ((s.setBuf b { s.buf b with lock := none }).setPc p (.release b), .none)

def step : Machine (State ι β) (Event ι β) (Output β) := fun s e =>
  if s.halted then none
  else
    match e with
    | .bread p k => if s.pc p = .idle then s.bget p k else none
    | .bwrite p b => if s.pc p = .idle then some (s.bwrite p b) else none
    | .log_write p b => if s.pc p = .idle ∧ (s.buf b).lock = some p then some (s.log_write b, .none) else none
    | .brelse p b => if s.pc p = .idle then some (s.brelse p b) else none
    | .store p b v =>
      if s.pc p = .idle ∧ (s.buf b).lock = some p then
        some (s.setBuf b { s.buf b with data := v }, .none)
      else none
    | .step p => s.advance p

-- `binit`, with the memory as the boot loader leaves it.
def binit (zero : β) (disk : Nat → β) : State ι β where
  buf := fun _ =>
    { valid := false, dirty := false, dev := 0, blockno := 0, lock := none, refcnt := 0, data := zero }
  links := (List.finRange NBUF).foldl (fun r b => r.insert (some b)) Links.empty
  disk := disk
  pc := fun _ => .idle
  halted := false

end State

end Bio

end Xv6
