import Mathlib.Data.UInt
import Mathlib.Logic.Function.Basic

/-!
`mpconfig` and `mpinit` of `mp.c`. The table is what the bytes from `conf` on are, and `p` and `e` are offsets in it.
`mpsearch` has found it; the interrupt mode that `mpinit` sets in the end is left out.
-/

namespace Xv6.Mp

abbrev NCPU : Nat := 1

abbrev Table := Nat → UInt8

-- `sum`, whose result is a `uchar`
def sum (table : Table) (len : Nat) : UInt8 :=
  ((List.range len).map table).sum

namespace Table

def length (conf : Table) : Nat :=
  (conf 4).toNat + 256 * (conf 5).toNat

def version (conf : Table) : UInt8 :=
  conf 6

end Table

-- `mpconfig` returns the table.
def mpconfig (conf : Table) : Bool :=
  [conf 0, conf 1, conf 2, conf 3] = [80, 67, 77, 80] ∧ (conf.version = 1 ∨ conf.version = 4) ∧ sum conf conf.length = 0

-- `sizeof` of `struct mpconf`, `struct mpproc` and `struct mpioapic`, and the other entries
def MPCONF : Nat := 44

def MPPROCSIZE : Nat := 20

def ENTRYSIZE : Nat := 8

def MPPROC : UInt8 := 0

def MPBUS : UInt8 := 1

def MPIOAPIC : UInt8 := 2

def MPIOINTR : UInt8 := 3

def MPLINTR : UInt8 := 4

structure State where
  ncpu : Nat
  apicid : Nat → UInt8
  ioapicid : UInt8
  ismp : Bool

def State.init : State :=
  ⟨0, fun _ => 0, 0, true⟩

-- One round of the loop: the variables and where `p` is then.
def entry (conf : Table) (s : State) (p : Nat) : State × Nat :=
  if conf p = MPPROC then
    (if s.ncpu < NCPU then
      { s with apicid := Function.update s.apicid s.ncpu (conf (p + 1)), ncpu := s.ncpu + 1 }
    else s, p + MPPROCSIZE)
  else if conf p = MPIOAPIC then ({ s with ioapicid := conf (p + 1) }, p + ENTRYSIZE)
  else if conf p = MPBUS ∨ conf p = MPIOINTR ∨ conf p = MPLINTR then (s, p + ENTRYSIZE)
  else ({ s with ismp := false }, p)

-- The loop, cut off after `fuel` rounds.
def scan (conf : Table) (e : Nat) : Nat → State → Nat → Option State
  | 0, s, p => if p < e then none else some s
  | fuel + 1, s, p => if p < e then scan conf e fuel (entry conf s p).1 (entry conf s p).2 else some s

def mpinit (conf : Table) (fuel : Nat) : Option (Except String State) :=
  if mpconfig conf = false then some (.error "Expect to run on an SMP")
  else
    (scan conf conf.length fuel .init MPCONF).map fun s =>
      if s.ismp = false then .error "Didn't find a suitable machine" else .ok s

end Xv6.Mp
