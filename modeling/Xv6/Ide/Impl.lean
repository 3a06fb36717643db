import Mathlib.Algebra.Group.Nat.Defs
import Mathlib.Algebra.GroupWithZero.Nat
import Mathlib.Order.Fin.Basic
import Xv6.Bio.Impl
import Xv6.Lib.Chain

/-!
The disk driver `ide.c` under any number of processes that read and write buffers at the same time. `ι` is the type of
processes, `β` the type of block contents.

A step is a critical section under `idelock`, a step of the controller, or something that the holder of a buffer does
with it. The places of a process in the code:
- `out`: not in `iderw`
- `asleep b`: in the `sleep` of `iderw`
- `awake b`: behind that `sleep`, but it does not have `idelock` yet
-/

namespace Xv6.Ide

def FSSIZE : Nat := 1000

abbrev Slot := Fin NBUF

structure Buf (ι β : Type) where
  valid : Bool
  dirty : Bool
  dev : Nat
  blockno : Nat
  -- who holds the sleep-lock
  lock : Option ι
  data : β

-- The registers of the controller from 0x1f2 to 0x1f6.
structure Regs where
  count : Nat
  lba0 : Nat
  lba1 : Nat
  lba2 : Nat
  head : Nat
  deriving DecidableEq, Repr

inductive Ctl (β : Type) where
  | idle
  -- with the data of a write
  | busy (r : Regs) (write : Option β)
  -- the interrupt is pending
  | done (err : Bool)

inductive Pc where
  | out
  | asleep (b : Slot)
  | awake (b : Slot)
  deriving DecidableEq, Repr

structure State (ι β : Type) where
  buf : Slot → Buf ι β
  qnext : Slot → Option Slot
  idequeue : Option Slot
  ctl : Ctl β
  -- the data that the controller has for `insl`
  sector : β
  disk : Nat → Nat → β
  pc : ι → Pc
  halted : Bool

-- What happens to a buffer outside of the driver.
inductive Access (ι β : Type) where
  | acquiresleep (p : ι) (b : Slot)
  | releasesleep (p : ι) (b : Slot)
  | load (p : ι) (b : Slot)
  | store (p : ι) (b : Slot) (v : β)
  -- the holder sets `B_DIRTY`
  | dirty (p : ι) (b : Slot)
  -- `bget` takes the buffer for another block
  | bget (b : Slot) (dev blockno : Nat)

inductive Event (ι β : Type) where
  | access (a : Access ι β)
  | iderw (p : ι) (b : Slot)
  | run (p : ι)
  | kill (p : ι)
  -- the controller ends the command. After a fault the sector holds the given data.
  | disk (fault : Option β)
  | ideintr

-- What the callers of `iderw` and the holders of the buffers see.
inductive Output (ι β : Type) where
  | access (a : Access ι β) (v : Option β)
  | call (p : ι) (b : Slot)
  | ret (p : ι) (b : Slot)
  | panic (msg : String)

def sector_per_block : Nat := 1

def regs (dev blockno : Nat) : Regs :=
  let sector := blockno * sector_per_block
  { count := sector_per_block
    lba0 := sector &&& 0xff
    lba1 := (sector >>> 8) &&& 0xff
    lba2 := (sector >>> 16) &&& 0xff
    head := 0xe0 ||| ((dev &&& 1) <<< 4) ||| ((sector >>> 24) &&& 0x0f) }

-- What the controller reads from them.
def Regs.drive (r : Regs) : Nat :=
  (r.head >>> 4) &&& 1

def Regs.lba (r : Regs) : Nat :=
  r.lba0 ||| (r.lba1 <<< 8) ||| (r.lba2 <<< 16) ||| ((r.head &&& 0x0f) <<< 24)

variable {ι β : Type}

def Access.slot : Access ι β → Slot
  | .acquiresleep _ b | .releasesleep _ b | .load _ b | .store _ b _ | .dirty _ b | .bget b _ _ => b

-- `(b->flags & (B_VALID|B_DIRTY)) == B_VALID`
def Buf.synced (x : Buf ι β) : Bool :=
  x.valid && !x.dirty

-- What the interrupt handler does with the buffer of the command that has ended.
def Buf.finish (x : Buf ι β) (err : Bool) (sector : β) : Buf ι β :=
  let x := if !x.dirty && !err then { x with data := sector } else x
  { x with valid := true, dirty := false }

-- `idewait(1) < 0`
def Ctl.err : Ctl β → Bool
  | .done err => err
  | _ => false

def write (disk : Nat → Nat → β) (drive k : Nat) (v : β) : Nat → Nat → β :=
  Function.update disk drive (Function.update (disk drive) k v)

variable [DecidableEq ι]

-- `out p` says that `p` is not in `iderw`.
def access (out : ι → Prop) [DecidablePred out] (x : Buf ι β) : Access ι β → Option (Buf ι β × Option β)
  | .acquiresleep p _ => if out p ∧ x.lock = none then some ({ x with lock := some p }, none) else none
  | .releasesleep p _ => if out p ∧ x.lock = some p then some ({ x with lock := none }, none) else none
  | .load p _ => if out p ∧ x.lock = some p then some (x, some x.data) else none
  | .store p _ v => if out p ∧ x.lock = some p then some ({ x with data := v }, none) else none
  | .dirty p _ => if out p ∧ x.lock = some p then some ({ x with dirty := true }, none) else none
  | .bget _ dev k =>
    if x.lock = none ∧ x.dirty = false then
      some ({ x with dev := dev, blockno := k, valid := false, dirty := false }, none)
    else none

namespace State

def setBuf (s : State ι β) (b : Slot) (x : Buf ι β) : State ι β :=
  { s with buf := Function.update s.buf b x }

def setQnext (s : State ι β) (b : Slot) (x : Option Slot) : State ι β :=
  { s with qnext := Function.update s.qnext b x }

def setPc (s : State ι β) (p : ι) (pc : Pc) : State ι β :=
  { s with pc := Function.update s.pc p pc }

def panic (s : State ι β) (msg : String) : State ι β × List (Output ι β) :=
  ({ s with halted := true }, [.panic msg])

-- `idewait` spins while the controller is busy, which is `none`.
def idestart (s : State ι β) (b : Slot) : Option (State ι β × List (Output ι β)) :=
  let x := s.buf b
  if x.blockno ≥ FSSIZE then some (s.panic "incorrect blockno")
  else
    match s.ctl with
    | .busy _ _ => none
    | _ => some ({ s with ctl := .busy (regs x.dev x.blockno) (if x.dirty then some x.data else none) }, [])

def wakeup (s : State ι β) (b : Slot) : State ι β :=
  { s with pc := fun p => if s.pc p = .asleep b then .awake b else s.pc p }

def ideintr (s : State ι β) : Option (State ι β × List (Output ι β)) :=
  match s.ctl with
  | .busy _ _ => none
  | c =>
    let s := { s with ctl := .idle }
    match s.idequeue with
    | none => some (s, [])
    | some b =>
      let s := { s with idequeue := s.qnext b }
      let s := s.setBuf b ((s.buf b).finish c.err s.sector)
      let s := s.wakeup b
      match s.idequeue with
      | none => some (s, [])
      | some b' => s.idestart b'

-- The loop at the end of `iderw`.
def wait (s : State ι β) (p : ι) (b : Slot) : State ι β × List (Output ι β) :=
  if (s.buf b).synced then (s.setPc p .out, [.ret p b])
  else (s.setPc p (.asleep b), [])

-- A loop that does not end is `none`.
def insert (s : State ι β) (b : Slot) : Option (State ι β) :=
  let s := s.setQnext b none
  match s.idequeue with
  | none => some { s with idequeue := some b }
  | some h =>
    match Chain.last s.qnext NBUF h with
    | none => none
    | some e => some (s.setQnext e (some b))

variable (havedisk1 : Bool)

def iderw (s : State ι β) (p : ι) (b : Slot) : Option (State ι β × List (Output ι β)) :=
  let x := s.buf b
  if x.lock ≠ some p then some (s.panic "iderw: buf not locked")
  else if x.synced then some (s.panic "iderw: nothing to do")
  else if x.dev ≠ 0 ∧ havedisk1 = false then some (s.panic "iderw: ide disk 1 not present")
  else
    match s.insert b with
    | none => none
    | some s =>
      let r := if s.idequeue = some b then s.idestart b else some (s, [])
      match r with
      | none => none
      | some (s, os) =>
        if s.halted then some (s, os)
        else
          let r := s.wait p b
          some (r.1, os ++ r.2)

def disk_step (s : State ι β) (fault : Option β) : Option (State ι β) :=
  match s.ctl with
  | .busy r (some v) =>
    some { s with
      ctl := .done fault.isSome
      sector := v
      disk := write s.disk r.drive r.lba (fault.getD v) }
  | .busy r none =>
    some { s with
      ctl := .done fault.isSome
      sector := fault.getD (s.disk r.drive r.lba) }
  | _ => none

def step : Machine (State ι β) (Event ι β) (List (Output ι β)) := fun s e =>
  if s.halted then none
  else
    match e with
    | .access a =>
      match access (fun p => s.pc p = .out) (s.buf a.slot) a with
      | none => none
      | some (x, v) => some (s.setBuf a.slot x, [.access a v])
    | .iderw p b =>
      if s.pc p = .out then
        match s.iderw havedisk1 p b with
        | none => none
        | some (s, os) => some (s, .call p b :: os)
      else none
    | .run p =>
      match s.pc p with
      | .awake b => some (s.wait p b)
      | _ => none
    | .kill p =>
      match s.pc p with
      | .asleep b => some (s.setPc p (.awake b), [])
      | _ => none
    | .disk fault =>
      match s.disk_step fault with
      | none => none
      | some s => some (s, [])
    | .ideintr => s.ideintr

-- What `ideinit` leaves behind.
def init (zero : β) (buf : Slot → Buf ι β) (disk : Nat → Nat → β) : State ι β where
  buf := buf
  qnext := fun _ => none
  idequeue := none
  ctl := .idle
  sector := zero
  disk := disk
  pc := fun _ => .out
  halted := false

end State

end Xv6.Ide
