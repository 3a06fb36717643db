import Mathlib.Algebra.Group.Int.Defs
import Mathlib.Algebra.Group.Nat.Defs
import Mathlib.Logic.Function.Basic
import Xv6.Lib.Machine

/-!
The memory allocator of `umalloc.c`. Addresses are bytes and a `Header` takes 8 of them; everything is below `KERNBASE`,
so that no sum of an address and a size wraps around. `sbrk` is a system call: what it returns may depend on all earlier
calls, each with the number of bytes asked for and the result.
-/

namespace Xv6.Umalloc

structure Header where
  ptr : Nat
  size : Nat
  deriving DecidableEq, Repr

-- The header at each address.
abbrev Mem :=
  Nat → Header

abbrev Calls :=
  List (Nat × Option Nat)

structure Heap where
  mem : Mem
  freep : Nat
  calls : Calls

def Mem.setPtr (mem : Mem) (p ptr : Nat) : Mem :=
  Function.update mem p { mem p with ptr := ptr }

def Mem.setSize (mem : Mem) (p size : Nat) : Mem :=
  Function.update mem p { mem p with size := size }

-- `p + p->s.size`
def Mem.next (mem : Mem) (p : Nat) : Nat :=
  p + 8 * (mem p).size

-- The loop of `free`.
def findPlace (mem : Mem) (bp : Nat) : Nat → Nat → Option Nat
  | 0, _ => none
  | fuel + 1, p =>
    if bp > p ∧ bp < (mem p).ptr then some p
    else if p ≥ (mem p).ptr ∧ (bp > p ∨ bp < (mem p).ptr) then some p
    else findPlace mem bp fuel (mem p).ptr

-- The block behind.
def joinUpper (mem : Mem) (bp p : Nat) : Mem :=
  if mem.next bp = (mem p).ptr then
    let mem := mem.setSize bp ((mem bp).size + (mem (mem p).ptr).size)
    mem.setPtr bp (mem (mem p).ptr).ptr
  else mem.setPtr bp (mem p).ptr

-- The block in front.
def joinLower (mem : Mem) (bp p : Nat) : Mem :=
  if mem.next p = bp then
    let mem := mem.setSize p ((mem p).size + (mem bp).size)
    mem.setPtr p (mem bp).ptr
  else mem.setPtr p bp

def free (fuel ap : Nat) (s : Heap) : Option Heap := do
  let bp := ap - 8
  let p ← findPlace s.mem bp fuel s.freep
  return { s with mem := joinLower (joinUpper s.mem bp p) bp p, freep := p }

variable (sbrk : Calls → Nat → Option Nat) (base : Nat)

def morecore (fuel nu : Nat) (s : Heap) : Option (Nat × Heap) :=
  let nu := if nu < 4096 then 4096 else nu
  let n := nu * 8 % 2 ^ 32
  let s' := { s with calls := (n, sbrk s.calls n) :: s.calls }
  match sbrk s.calls n with
  | none => some (0, s')
  | some hp => do
    let s' ← free fuel (hp + 8) { s' with mem := s'.mem.setSize hp nu }
    return (s'.freep, s')

-- The block is found.
def take (nunits prevp p : Nat) (s : Heap) : Nat × Heap :=
  if (s.mem p).size = nunits then
    (p + 8, { s with mem := s.mem.setPtr prevp (s.mem p).ptr, freep := prevp })
  else
    let mem := s.mem.setSize p ((s.mem p).size - nunits)
    let p := mem.next p
    (p + 8, { s with mem := mem.setSize p nunits, freep := prevp })

-- The loop of `malloc`.
def search (nunits : Nat) : Nat → Nat → Nat → Heap → Option (Nat × Heap)
  | 0, _, _, _ => none
  | fuel + 1, prevp, p, s =>
    if (s.mem p).size ≥ nunits then some (take nunits prevp p s)
    else if p = s.freep then do
      let (p, s) ← morecore sbrk fuel nunits s
      if p = 0 then return (0, s) else search nunits fuel p (s.mem p).ptr s
    else search nunits fuel p (s.mem p).ptr s

def nunits (nbytes : UInt32) : Nat :=
  ((nbytes + 8 - 1) / 8 + 1).toNat

def init (s : Heap) : Heap :=
  if s.freep = 0 then { s with mem := (s.mem.setPtr base base).setSize base 0, freep := base } else s

def malloc (fuel : Nat) (nbytes : UInt32) (s : Heap) : Option (Nat × Heap) :=
  let s := init base s
  search sbrk (nunits nbytes) fuel s.freep (s.mem s.freep).ptr s

-- A program, with the headers of the blocks that it holds.
structure Prog where
  heap : Heap
  live : List Nat

-- The rounds that the loops of the call may take come with it.
inductive Event where
  | malloc (fuel : Nat) (nbytes : UInt32)
  | free (fuel ap : Nat)
  | store (a : Nat) (h : Header)

def Small (nbytes : UInt32) : Prop :=
  nunits nbytes * 8 < 2 ^ 31

instance (nbytes : UInt32) : Decidable (Small nbytes) :=
  inferInstanceAs (Decidable (_ < _))

-- The address lies in a block of the program, behind the header.
def Owns (s : Prog) (a : Nat) : Prop :=
  ∃ b ∈ s.live, b < a ∧ a < s.heap.mem.next b

instance (s : Prog) (a : Nat) : Decidable (Owns s a) :=
  inferInstanceAs (Decidable (∃ _ ∈ _, _))

def step : Machine Prog Event Nat
  | s, .malloc fuel nbytes =>
    if Small nbytes then do
      let (p, heap) ← malloc sbrk base fuel nbytes s.heap
      return (⟨heap, if p = 0 then s.live else (p - 8) :: s.live⟩, p)
    else none
  | s, .free fuel ap =>
    if ap - 8 ∈ s.live ∧ ap ≥ 8 then do
      let heap ← free fuel ap s.heap
      return (⟨heap, s.live.erase (ap - 8)⟩, 0)
    else none
  | s, .store a h =>
    if Owns s a then some (⟨{ s.heap with mem := Function.update s.heap.mem a h }, s.live⟩, 0) else none

end Xv6.Umalloc
