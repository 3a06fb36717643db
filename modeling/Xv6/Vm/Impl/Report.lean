import Xv6.Vm.Impl.Step

/-!
What lab 5 reports about memory: `count_physical_pages` and `page_table_size` of `vm.c`, the figures that
`getmeminfo` of `proc.c` prints for one process, `count_free_pages` of `kalloc.c` and `sys_freememstat` of
`sysproc.c`.
-/

namespace Xv6.Vm

-- One round of the loop of `count_physical_pages`.
def countPage (d : PgDir) (a count : Nat) (m : Mem) : Nat :=
  match walkpgdir d a false m with
  | none => count
  | some _ =>
    let pte := d.pte (a / PGSIZE)
    if pte.present then
      if pte.addr ≠ 0 then count + 1 else count
    else
      count

def countLoop (d : PgDir) (sz : Nat) (m : Mem) : Nat → Nat → Nat → Res Nat
  | 0, a, count => if a < sz then .error .hang else .ok count
  | fuel + 1, a, count =>
    if a < sz then
      countLoop d sz m fuel (uint (a + PGSIZE)) (countPage d a count m)
    else
      .ok count

def countPhysicalPages (d : PgDir) (sz : Nat) (m : Mem) : Res Nat :=
  countLoop d sz m NPAGES 0 0

-- The second argument is not used.
def pageTableSize (d : PgDir) (_ : Nat) : Nat :=
  (List.range NPDENTRIES).foldl (fun count i => if (d.tab i).isSome then count + 1 else count) 1

structure Meminfo where
  virtual : Nat
  physical : Nat
  tables : Nat
  deriving DecidableEq, Repr

-- The body of the loop of `getmeminfo`.
def meminfo (p : Proc) (m : Mem) : Res Meminfo :=
  let tables := pageTableSize p.pgdir p.sz
  match countPhysicalPages p.pgdir p.sz m with
  | .error e => .error e
  | .ok physical => .ok { virtual := p.sz / PGSIZE, physical := physical, tables := tables }

-- The loop from the page whose links are `next`.
def countFreeLoop : List Ppn → Nat → Nat
  | [], count => count
  | _ :: next, count => countFreeLoop next (count + 1)

-- The loop reads the link of the first free page, which may not exist.
def countFreePages (m : Mem) : Res Nat :=
  match m.free with
  | [] => .error .undef
  | _ :: next => .ok (countFreeLoop next 0)

def sysFreememstat (m : Mem) : Res Word :=
  match countFreePages m with
  | .error e => .error e
  | .ok count => .ok (.ofNat 32 (count * PGSIZE))

end Xv6.Vm
