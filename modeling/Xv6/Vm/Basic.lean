import Mathlib.Logic.Function.Basic
import Xv6.Lib.Pool

/-!
`mmu.h`, `memlayout.h` and `kalloc.c`.

A virtual address is a number below `2 ^ 32`, and `uint` is what the C code's unsigned arithmetic keeps of a
result. Physical memory comes in pages, so a physical address is a page number `Ppn` and an offset, and
`P2V` and `V2P` disappear. `Mem` holds the free list and the contents of every page. The links of the free
list are kept in `Mem.free` and not in the pages, so a free page is full of the ones that `kfree` writes.

The entries of a page table are the record `Pte` in place of a word. A page directory with its page tables
is one `PgDir`: `page` is the page of the directory, `tab i` the page of the table that entry `i` points to,
and `pte v` the entry for the virtual page `v`, which is entry `v % NPTENTRIES` of table `v / NPTENTRIES`.
The present bit of the directory's entries is `(tab i).isSome`, their other flags never change.

`Layout` has the addresses that come from the linker script.

Code that does not return ends in a `Stop`: in `panic`, in a loop that never ends, or in `undef` where it
reads through a null pointer or frees memory that the kernel uses, after which the model has nothing to say.
-/

namespace Xv6.Vm

def PGSIZE : Nat := 4096

def NPDENTRIES : Nat := 1024

def NPTENTRIES : Nat := 1024

def EXTMEM : Nat := 0x100000

def PHYSTOP : Nat := 0xE000000

def DEVSPACE : Nat := 0xFE000000

def KERNBASE : Nat := 0x80000000

def KERNLINK : Nat := KERNBASE + EXTMEM

-- The number of pages that the 32 bit addresses reach.
def NPAGES : Nat := NPDENTRIES * NPTENTRIES

-- The number of pages below `KERNBASE`.
def UPAGES : Nat := KERNBASE / PGSIZE

def uint (n : Nat) : Nat :=
  n % 2 ^ 32

def pgroundup (sz : Nat) : Nat :=
  uint (sz + PGSIZE - 1) / PGSIZE * PGSIZE

def pgrounddown (a : Nat) : Nat :=
  a / PGSIZE * PGSIZE

def pdx (va : Nat) : Nat :=
  va / (PGSIZE * NPTENTRIES)

abbrev Ppn := Nat

abbrev Page := Nat → UInt8

abbrev Mem := Pool Ppn Page

structure Layout where
  data : Nat
  kend : Nat
  data_aligned : data % PGSIZE = 0
  extmem_lt : EXTMEM < data
  data_le : data ≤ kend
  kend_lt : kend < PHYSTOP

inductive Stop where
  | panic (msg : String)
  | undef
  | hang
  deriving DecidableEq, Repr

abbrev Res := Except Stop

structure Pte where
  addr : Ppn
  present : Bool
  write : Bool
  user : Bool
  deriving DecidableEq, Repr

def Pte.zero : Pte where
  addr := 0
  present := false
  write := false
  user := false

structure PgDir where
  page : Ppn
  tab : Nat → Option Ppn
  pte : Nat → Pte

namespace Mem

def kalloc (m : Mem) : Option (Ppn × Mem) :=
  m.take

def memset (m : Mem) (p : Ppn) (b : UInt8) : Mem :=
  m.put p fun _ => b

-- `memmove` of `bs` to `off` in the page `p`.
def write (m : Mem) (p : Ppn) (off : Nat) (bs : List UInt8) : Mem :=
  m.put p fun o => if off ≤ o then bs.getD (o - off) (m.data p o) else m.data p o

def kfree (L : Layout) (m : Mem) (p : Ppn) : Res Mem :=
  if p * PGSIZE < L.kend ∨ p * PGSIZE ≥ PHYSTOP then
    .error (.panic "kfree")
  else
    .ok ((m.memset p 1).give p)

end Mem

namespace PgDir

def setPte (d : PgDir) (v : Nat) (e : Pte) : PgDir :=
  { d with pte := Function.update d.pte v e }

-- A new page table, all of its entries zero.
def addTab (d : PgDir) (i : Nat) (p : Ppn) : PgDir :=
  { d with
      tab := Function.update d.tab i (some p)
      pte := fun v => if v / NPTENTRIES = i then .zero else d.pte v }

end PgDir

end Xv6.Vm
