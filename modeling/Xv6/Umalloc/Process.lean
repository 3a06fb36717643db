import Xv6.Umalloc.Impl

/-!
`malloc` in its process: `sbrk` goes down to `growproc`, addresses and sizes wrap around at `2^32`, and a store to a page
that the process does not have kills it. Such a store is looked for where `malloc` first touches what `sbrk` has returned.

`room` says whether there is memory for a page, `p0` is the process when it starts, `base` the address of the variable
`base` and `text` the page with the code of `malloc`. What the process looks like follows from the calls of `sbrk`.
-/

namespace Xv6.Umalloc.Process

abbrev PGSIZE : Nat := 4096

abbrev KERNBASE : Nat := 0x80000000

def PGROUNDUP (a : Nat) : Nat :=
  (a + PGSIZE - 1) / PGSIZE * PGSIZE

-- The pages that the process can use, by their numbers.
structure Proc where
  sz : Nat
  mapped : Nat → Bool

-- The pages of the loops of `allocuvm` and `deallocuvm`.
def between (lo hi i : Nat) : Bool :=
  PGROUNDUP lo ≤ i * PGSIZE ∧ i * PGSIZE < hi

def deallocuvm (mapped : Nat → Bool) (oldsz newsz : Nat) : (Nat → Bool) × Nat :=
  if newsz ≥ oldsz then (mapped, oldsz)
  else (fun i => mapped i && !between newsz oldsz i, newsz)

def allocuvm (room : Nat → Bool) (mapped : Nat → Bool) (oldsz newsz : Nat) : (Nat → Bool) × Nat :=
  if newsz ≥ KERNBASE then (mapped, 0)
  else if newsz < oldsz then (mapped, oldsz)
  else if (List.range (newsz / PGSIZE + 1)).all fun i => !between oldsz newsz i || room i then
    (fun i => mapped i || between oldsz newsz i, newsz)
  else ((deallocuvm mapped newsz oldsz).1, 0)

def growproc (room : Nat → Bool) (p : Proc) (n : Int) : Proc × Int :=
  let newsz := ((p.sz + n) % 2 ^ 32).toNat
  if n > 0 then
    let (mapped, sz) := allocuvm room p.mapped p.sz newsz
    if sz = 0 then ({ p with mapped := mapped }, -1) else (⟨sz, mapped⟩, 0)
  else if n < 0 then
    let (mapped, sz) := deallocuvm p.mapped p.sz newsz
    if sz = 0 then ({ p with mapped := mapped }, -1) else (⟨sz, mapped⟩, 0)
  else (p, 0)

-- The argument is an `int`.
def sysSbrk (room : Nat → Bool) (p : Proc) (n : Nat) : Proc × Option Nat :=
  let (p', r) := growproc room p (if n < 2 ^ 31 then n else n - 2 ^ 32)
  (p', if r < 0 then none else some p.sz)

inductive Stop where
  | rounds
  | killed
  deriving DecidableEq, Repr

-- `p + p->s.size`
def next (mem : Mem) (p : Nat) : Nat :=
  (p + 8 * (mem p).size) % 2 ^ 32

def joinUpper (mem : Mem) (bp p : Nat) : Mem :=
  if next mem bp = (mem p).ptr then
    let mem := mem.setSize bp (((mem bp).size + (mem (mem p).ptr).size) % 2 ^ 32)
    mem.setPtr bp (mem (mem p).ptr).ptr
  else mem.setPtr bp (mem p).ptr

def joinLower (mem : Mem) (bp p : Nat) : Mem :=
  if next mem p = bp then
    let mem := mem.setSize p (((mem p).size + (mem bp).size) % 2 ^ 32)
    mem.setPtr p (mem bp).ptr
  else mem.setPtr p bp

def free (fuel ap : Nat) (s : Heap) : Except Stop Heap :=
  let bp := (ap + 2 ^ 32 - 8) % 2 ^ 32
  match findPlace s.mem bp fuel s.freep with
  | none => .error .rounds
  | some p => .ok { s with mem := joinLower (joinUpper s.mem bp p) bp p, freep := p }

variable (room : Calls → Nat → Bool) (p0 : Proc) (base text : Nat)

def proc : Calls → Proc
  | [] => p0
  | (n, _) :: calls => (sysSbrk (room calls) (proc calls) n).1

def morecore (fuel nu : Nat) (s : Heap) : Except Stop (Nat × Heap) :=
  let nu := if nu < 4096 then 4096 else nu
  let n := nu * 8 % 2 ^ 32
  let r := (sysSbrk (room s.calls) (proc room p0 s.calls) n).2
  let s' := { s with calls := (n, r) :: s.calls }
  let p := proc room p0 s'.calls
  if p.mapped text = false then .error .killed
  else
    match r with
    | none => .ok (0, s')
    | some hp =>
      if p.mapped (hp / PGSIZE) = false then .error .killed
      else do
        let s' ← free fuel ((hp + 8) % 2 ^ 32) { s' with mem := s'.mem.setSize hp nu }
        return (s'.freep, s')

def take (nunits prevp p : Nat) (s : Heap) : Nat × Heap :=
  if (s.mem p).size = nunits then
    ((p + 8) % 2 ^ 32, { s with mem := s.mem.setPtr prevp (s.mem p).ptr, freep := prevp })
  else
    let mem := s.mem.setSize p ((s.mem p).size - nunits)
    let p := next mem p
    ((p + 8) % 2 ^ 32, { s with mem := mem.setSize p nunits, freep := prevp })

def search (nunits : Nat) : Nat → Nat → Nat → Heap → Except Stop (Nat × Heap)
  | 0, _, _, _ => .error .rounds
  | fuel + 1, prevp, p, s =>
    if (s.mem p).size ≥ nunits then .ok (take nunits prevp p s)
    else if p = s.freep then do
      let (p, s) ← morecore room p0 text fuel nunits s
      if p = 0 then return (0, s) else search nunits fuel p (s.mem p).ptr s
    else search nunits fuel p (s.mem p).ptr s

def malloc (fuel : Nat) (nbytes : UInt32) (s : Heap) : Except Stop (Nat × Heap) :=
  let s := init base s
  search room p0 text (nunits nbytes) fuel s.freep (s.mem s.freep).ptr s

def step : Machine Prog Event Nat
  | s, .malloc fuel nbytes =>
    if Small nbytes then
      match malloc room p0 base text fuel nbytes s.heap with
      | .ok (p, heap) => some (⟨heap, if p = 0 then s.live else (p - 8) :: s.live⟩, p)
      | .error _ => none
    else none
  | s, .free fuel ap =>
    if ap - 8 ∈ s.live ∧ ap ≥ 8 then
      match free fuel ap s.heap with
      | .ok heap => some (⟨heap, s.live.erase (ap - 8)⟩, 0)
      | .error _ => none
    else none
  | s, .store a h =>
    if Owns s a then some (⟨{ s.heap with mem := Function.update s.heap.mem a h }, s.live⟩, 0) else none

end Xv6.Umalloc.Process
