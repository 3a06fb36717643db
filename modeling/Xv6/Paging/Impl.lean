import Mathlib.Logic.Function.Basic
import Xv6.Lib.Pool

/-!
`walkpgdir` and `mappages` of lab 5 on the words of the page tables. A page is named by its physical address, so `P2V`
and `V2P` disappear. Page directories and page tables are pages of 1024 words.
-/

namespace Xv6.Paging

abbrev Word := BitVec 32

abbrev Mem := Pool Word (Nat → Word)

def PGSIZE : Word := 4096

def PTE_P : Word := 1

def PTE_W : Word := 2

def PTE_U : Word := 4

def PDX (va : Word) : Nat :=
  ((va >>> 22) &&& 0x3FF).toNat

def PTX (va : Word) : Nat :=
  ((va >>> 12) &&& 0x3FF).toNat

def PTE_ADDR (pte : Word) : Word :=
  pte &&& ~~~0xFFF

def PTE_FLAGS (pte : Word) : Word :=
  pte &&& 0xFFF

def PGROUNDDOWN (a : Word) : Word :=
  a &&& ~~~(PGSIZE - 1)

def Mem.store (m : Mem) (page : Word) (i : Nat) (w : Word) : Mem :=
  m.put page (Function.update (m.data page) i w)

/-- The page and the index that the pointer points to, or `none` for the null pointer. -/
def walkpgdir (pgdir va : Word) (alloc : Bool) (m : Mem) : Option ((Word × Nat) × Mem) :=
  let pde := m.data pgdir (PDX va)
  if pde &&& PTE_P ≠ 0 then some ((PTE_ADDR pde, PTX va), m)
  else if alloc = false then none
  else
    match m.take with
    | none => none
    | some (pgtab, m) =>
      let m := m.put pgtab fun _ => 0
      some ((pgtab, PTX va), Mem.store m pgdir (PDX va) (pgtab ||| PTE_P ||| PTE_W ||| PTE_U))

-- The loop of `mappages`, cut off after `fuel` rounds. The error is the message of a panic.
def mappagesLoop (pgdir last perm : Word) : Nat → Word → Word → Mem → Option (Except String (Int × Mem))
  | 0, _, _, _ => none
  | fuel + 1, a, pa, m =>
    match walkpgdir pgdir a true m with
    | none => some (.ok (-1, m))
    | some ((pgtab, i), m) =>
      if m.data pgtab i &&& PTE_P ≠ 0 then some (.error "remap")
      else
        let m := Mem.store m pgtab i (pa ||| perm ||| PTE_P)
        if a = last then some (.ok (0, m)) else mappagesLoop pgdir last perm fuel (a + PGSIZE) (pa + PGSIZE) m

def mappages (pgdir va size pa perm : Word) (m : Mem) (fuel : Nat) : Option (Except String (Int × Mem)) :=
  mappagesLoop pgdir (PGROUNDDOWN (va + size - 1)) perm fuel (PGROUNDDOWN va) pa m

end Xv6.Paging
