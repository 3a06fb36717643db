import Mathlib.Algebra.Group.Nat.Defs
import Xv6.Lib.Monitor

/-!
`console.c`: the input ring, which the interrupt handler fills and edits and which any number of readers empty.
`cons.lock` is the lock of the monitor and `ptable.lock` the second one, `sleep` and `wakeup` on `&input.r` are its
steps. `ι` is the type of readers and of invocations of the handler.

A stretch of code under `cons.lock` is what `consoleintr` does with one character, or one round of the loop of
`consoleread`. The echo on the screen and the process listing are left out.
-/

namespace Xv6

def INPUT_BUF : Nat := 128

structure Input where
  buf : Fin INPUT_BUF → UInt8
  r : BitVec 32
  w : BitVec 32
  e : BitVec 32

namespace Console

-- `C('D')`, `C('H')`, `C('P')` and `C('U')`
def CTRL_D : UInt8 := 4

def CTRL_H : UInt8 := 8

def CTRL_P : UInt8 := 16

def CTRL_U : UInt8 := 21

def DEL : UInt8 := 0x7f

def NEWLINE : UInt8 := 10

def RETURN : UInt8 := 13

def index (n : BitVec 32) : Fin INPUT_BUF :=
  ⟨n.toNat % INPUT_BUF, Nat.mod_lt _ (by decide)⟩

-- `input.buf[input.e++ % INPUT_BUF] = c`
def put (d : Input) (c : UInt8) : Input :=
  { d with buf := Function.update d.buf (index d.e) c, e := d.e + 1 }

-- The loop of the case `C('U')`, which takes at most `e - w` rounds.
def killLoop : Nat → Input → Input
  | 0, d => d
  | fuel + 1, d =>
    if d.e ≠ d.w ∧ d.buf (index (d.e - 1)) ≠ NEWLINE then killLoop fuel { d with e := d.e - 1 } else d

-- The character that is stored.
def stored (c : UInt8) : UInt8 :=
  if c = RETURN then NEWLINE else c

-- The `switch` of `consoleintr`. The flag says that it calls `wakeup`.
def typed (d : Input) (c : UInt8) : Input × Bool :=
  if c = CTRL_P then (d, false)
  else if c = CTRL_U then (killLoop (d.e - d.w).toNat d, false)
  else if c = CTRL_H ∨ c = DEL then (if d.e ≠ d.w then { d with e := d.e - 1 } else d, false)
  else if c ≠ 0 ∧ (d.e - d.r).toNat < INPUT_BUF then
    let d := put d (stored c)
    if stored c = NEWLINE ∨ stored c = CTRL_D ∨ d.e = d.r + BitVec.ofNat 32 INPUT_BUF then
      ({ d with w := d.e }, true)
    else (d, false)
  else (d, false)

/--
The places in the code:
- `idle`: in none of the two functions, before the first call
- `intr cs`: in `consoleintr`, where `getc` will return the characters `cs`
- `read target n got`: in `consoleread`, with `n` bytes to go and `got` stored at `dst`
- `returned target got`: `consoleread` has returned the length of `got`
- `failed got`: it has returned -1
-/
inductive Loc where
  | idle
  | intr (cs : List UInt8)
  | read (target n : Nat) (got : List UInt8)
  | returned (target : Nat) (got : List UInt8)
  | failed (got : List UInt8)
  deriving DecidableEq, Repr

inductive Call where
  | consoleintr (cs : List UInt8)
  | consoleread (n : Nat)
  deriving DecidableEq, Repr

variable {ι : Type}

-- One round of the loop of `consoleread`.
def readRound (killed : Bool) (target n : Nat) (got : List UInt8) (d : Input) : Input × Loc × Monitor.Next :=
  if n = 0 then (d, .returned target got, .leave)
  else if d.r = d.w then
    if killed then (d, .failed got, .leave) else (d, .read target n got, .wait)
  else
    let c := d.buf (index d.r)
    if c = CTRL_D then
      -- a read that has something leaves the control-D for the next one
      (if n < target then d else { d with r := d.r + 1 }, .returned target got, .leave)
    else if c = NEWLINE then ({ d with r := d.r + 1 }, .returned target (got ++ [c]), .leave)
    else ({ d with r := d.r + 1 }, .read target (n - 1) (got ++ [c]), .more)

def act (_ : ι) (killed : Bool) (l : Loc) (d : Input) : Input × Loc × Monitor.Next :=
  match l with
  | .intr [] => (d, .idle, .leave)
  | .intr (c :: cs) =>
    let (d, wakes) := typed d c
    (d, .intr cs, if wakes then .notify else .more)
  | .read target n got => readRound killed target n got d
  | l => (d, l, .leave)

def Loc.busy : Loc → Bool
  | .intr _ => true
  | .read _ _ _ => true
  | _ => false

def outside (_ : ι) (c : Call) (l : Loc) (d : Input) : Option (Input × Loc × Bool) :=
  if l.busy then none
  else
    match c with
    | .consoleintr cs => some (d, .intr cs, true)
    | .consoleread n => some (d, .read n n [], true)

def program : Monitor.Program ι Input Loc Call where
  act := act
  outside := outside

abbrev State (ι : Type) := Monitor.State ι Input Loc

def State.init : State ι :=
  Monitor.State.init { buf := fun _ => 0, r := 0, w := 0, e := 0 } fun _ => .idle

end Console

end Xv6
