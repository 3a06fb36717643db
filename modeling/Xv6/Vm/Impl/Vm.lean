import Xv6.Vm.Basic

/-!
`vm.c`. The loops over addresses take as fuel the number of pages in the address space: a loop that is
still running then has wrapped around and never ends.
-/

namespace Xv6.Vm

variable (L : Layout)

/--
`none` is the null pointer. Otherwise the result is the directory, with a new page table if one was needed,
and the entry that the pointer points to is its `pte (va / PGSIZE)`.
-/
def walkpgdir (d : PgDir) (va : Nat) (alloc : Bool) (m : Mem) : Option (PgDir × Mem) :=
  match d.tab (pdx va) with
  | some _ => some (d, m)
  | none =>
    if ¬ alloc then
      none
    else
      match m.kalloc with
      | none => none
      | some (pgtab, m) => some (d.addTab (pdx va) pgtab, m.memset pgtab 0)

-- One round of the loop of `mappages`. The first result is false for the return value `-1`.
def mapPage (write user : Bool) (d : PgDir) (a : Nat) (pa : Ppn) (m : Mem) : Res (Bool × PgDir × Mem) :=
  match walkpgdir d a true m with
  | none => .ok (false, d, m)
  | some (d, m) =>
    if (d.pte (a / PGSIZE)).present then
      .error (.panic "remap")
    else
      let pte := { addr := pa, present := true, write := write, user := user }
      .ok (true, d.setPte (a / PGSIZE) pte, m)

def mappagesLoop (write user : Bool) (last : Nat) : Nat → PgDir → Nat → Ppn → Mem → Res (Bool × PgDir × Mem)
  | 0, _, _, _, _ => .error .hang
  | fuel + 1, d, a, pa, m =>
    match mapPage write user d a pa m with
    | .error e => .error e
    | .ok (false, d, m) => .ok (false, d, m)
    | .ok (true, d, m) =>
      if a = last then
        .ok (true, d, m)
      else
        mappagesLoop write user last fuel d (uint (a + PGSIZE)) (pa + 1) m

def mappages (d : PgDir) (va size : Nat) (pa : Ppn) (write user : Bool) (m : Mem)
    : Res (Bool × PgDir × Mem) :=
  let a := pgrounddown va
  let last := pgrounddown (uint (va + size + 2 ^ 32 - 1))
  mappagesLoop write user last NPAGES d a pa m

-- From `KERNBASE` on, `kfree` takes pages that are free already or that somebody uses. That is `undef`.
def deallocLoop (oldsz : Nat) : Nat → PgDir → Nat → Mem → Res (PgDir × Mem)
  | 0, d, a, m => if a < oldsz then .error .hang else .ok (d, m)
  | fuel + 1, d, a, m =>
    if a < oldsz then
      match walkpgdir d a false m with
      | none =>
        let a := uint ((pdx a + 1) * (PGSIZE * NPTENTRIES) + 2 ^ 32 - PGSIZE)
        deallocLoop oldsz fuel d (uint (a + PGSIZE)) m
      | some _ =>
        let pte := d.pte (a / PGSIZE)
        if pte.present then
          if pte.addr = 0 then
            .error (.panic "kfree")
          else
            match m.kfree L pte.addr with
            | .error e => .error e
            | .ok m =>
              -- a page of the kernel's own mapping is in use
              if a ≥ KERNBASE then
                .error .undef
              else
                deallocLoop oldsz fuel (d.setPte (a / PGSIZE) .zero) (uint (a + PGSIZE)) m
        else
          deallocLoop oldsz fuel d (uint (a + PGSIZE)) m
    else
      .ok (d, m)

def deallocuvm (d : PgDir) (oldsz newsz : Nat) (m : Mem) : Res (Nat × PgDir × Mem) :=
  if newsz ≥ oldsz then
    .ok (oldsz, d, m)
  else
    match deallocLoop L oldsz NPAGES d (pgroundup newsz) m with
    | .error e => .error e
    | .ok (d, m) => .ok (newsz, d, m)

def allocLoop (oldsz newsz : Nat) : Nat → PgDir → Nat → Mem → Res (Nat × PgDir × Mem)
  | 0, d, a, m => if a < newsz then .error .hang else .ok (newsz, d, m)
  | fuel + 1, d, a, m =>
    if a < newsz then
      match m.kalloc with
      | none =>
        match deallocuvm L d newsz oldsz m with
        | .error e => .error e
        | .ok (_, d, m) => .ok (0, d, m)
      | some (mem, m) =>
        match mappages d a PGSIZE mem true true (m.memset mem 0) with
        | .error e => .error e
        | .ok (true, d, m) => allocLoop oldsz newsz fuel d (uint (a + PGSIZE)) m
        | .ok (false, d, m) =>
          match deallocuvm L d newsz oldsz m with
          | .error e => .error e
          | .ok (_, d, m) =>
            match m.kfree L mem with
            | .error e => .error e
            | .ok m => .ok (0, d, m)
    else
      .ok (newsz, d, m)

def allocuvm (d : PgDir) (oldsz newsz : Nat) (m : Mem) : Res (Nat × PgDir × Mem) :=
  if newsz ≥ KERNBASE then
    .ok (0, d, m)
  else if newsz < oldsz then
    .ok (oldsz, d, m)
  else
    allocLoop L oldsz newsz NPAGES d (pgroundup oldsz) m

-- The loop of `freevm` over the entries of the directory.
def freeTabs (d : PgDir) : Nat → Nat → Mem → Res Mem
  | 0, _, m => .ok m
  | n + 1, i, m =>
    match d.tab i with
    | none => freeTabs d n (i + 1) m
    | some p =>
      match m.kfree L p with
      | .error e => .error e
      | .ok m => freeTabs d n (i + 1) m

def freevm (d : PgDir) (m : Mem) : Res Mem :=
  match deallocuvm L d KERNBASE 0 m with
  | .error e => .error e
  | .ok (_, d, m) =>
    match freeTabs L d NPDENTRIES 0 m with
    | .error e => .error e
    | .ok m => m.kfree L d.page

structure Kmap where
  virt : Nat
  physStart : Nat
  physEnd : Nat
  write : Bool

def kmap : List Kmap :=
  [{ virt := KERNBASE, physStart := 0, physEnd := EXTMEM, write := true },
   { virt := KERNLINK, physStart := EXTMEM, physEnd := L.data, write := false },
   { virt := KERNBASE + L.data, physStart := L.data, physEnd := PHYSTOP, write := true },
   { virt := DEVSPACE, physStart := DEVSPACE, physEnd := 0, write := true }]

def setupLoop : List Kmap → PgDir → Mem → Res (Option PgDir × Mem)
  | [], d, m => .ok (some d, m)
  | k :: ks, d, m =>
    match mappages d k.virt (uint (k.physEnd + 2 ^ 32 - k.physStart)) (k.physStart / PGSIZE) k.write false m with
    | .error e => .error e
    | .ok (true, d, m) => setupLoop ks d m
    | .ok (false, d, m) =>
      match freevm L d m with
      | .error e => .error e
      | .ok m => .ok (none, m)

def setupkvm (m : Mem) : Res (Option PgDir × Mem) :=
  match m.kalloc with
  | none => .ok (none, m)
  | some (pgdir, m) =>
    let d : PgDir := { page := pgdir, tab := fun _ => none, pte := fun _ => .zero }
    if KERNBASE + PHYSTOP > DEVSPACE then
      .error (.panic "PHYSTOP too high")
    else
      setupLoop L (kmap L) d (m.memset pgdir 0)

-- Writing through the null pointer of a failed `kalloc` is `undef`.
def inituvm (d : PgDir) (init : List UInt8) (m : Mem) : Res (PgDir × Mem) :=
  if init.length ≥ PGSIZE then
    .error (.panic "inituvm: more than a page")
  else
    match m.kalloc with
    | none => .error .undef
    | some (mem, m) =>
      match mappages d 0 PGSIZE mem true true (m.memset mem 0) with
      | .error e => .error e
      | .ok (_, d, m) => .ok (d, m.write mem 0 init)

def clearpteu (d : PgDir) (uva : Nat) (m : Mem) : Res PgDir :=
  match walkpgdir d uva false m with
  | none => .error (.panic "clearpteu")
  | some _ => .ok (d.setPte (uva / PGSIZE) { d.pte (uva / PGSIZE) with user := false })

def copyLoop (src : PgDir) (sz : Nat) : Nat → PgDir → Nat → Mem → Res (Option PgDir × Mem)
  | 0, d, i, m => if i < sz then .error .hang else .ok (some d, m)
  | fuel + 1, d, i, m =>
    if i < sz then
      match walkpgdir src i false m with
      | none => .error (.panic "copyuvm: pte should exist")
      | some _ =>
        let pte := src.pte (i / PGSIZE)
        if ¬ pte.present then
          .error (.panic "copyuvm: page not present")
        else
          match m.kalloc with
          | none =>
            match freevm L d m with
            | .error e => .error e
            | .ok m => .ok (none, m)
          | some (mem, m) =>
            match mappages d i PGSIZE mem pte.write pte.user (m.put mem (m.data pte.addr)) with
            | .error e => .error e
            | .ok (true, d, m) => copyLoop src sz fuel d (uint (i + PGSIZE)) m
            | .ok (false, d, m) =>
              match m.kfree L mem with
              | .error e => .error e
              | .ok m =>
                match freevm L d m with
                | .error e => .error e
                | .ok m => .ok (none, m)
    else
      .ok (some d, m)

def copyuvm (src : PgDir) (sz : Nat) (m : Mem) : Res (Option PgDir × Mem) :=
  match setupkvm L m with
  | .error e => .error e
  | .ok (none, m) => .ok (none, m)
  | .ok (some d, m) => copyLoop L src sz NPAGES d 0 m

-- `none` is the null pointer, `walkpgdir` may return one too, which is not checked here.
def uva2ka (d : PgDir) (uva : Nat) (m : Mem) : Res (Option Ppn) :=
  match walkpgdir d uva false m with
  | none => .error .undef
  | some _ =>
    let pte := d.pte (uva / PGSIZE)
    if ¬ pte.present then .ok none
    else if ¬ pte.user then .ok none
    else .ok (some pte.addr)

-- Every round copies at least one byte, so the length of the buffer is fuel enough.
def copyoutLoop (d : PgDir) : Nat → Nat → List UInt8 → Mem → Res (Bool × Mem)
  | 0, _, _, m => .ok (true, m)
  | fuel + 1, va, buf, m =>
    if buf.length > 0 then
      let va0 := pgrounddown va
      match uva2ka d va0 m with
      | .error e => .error e
      | .ok none => .ok (false, m)
      | .ok (some pa0) =>
        let n := min (PGSIZE - (va - va0)) buf.length
        let m := m.write pa0 (va - va0) (buf.take n)
        copyoutLoop d fuel (uint (va0 + PGSIZE)) (buf.drop n) m
    else
      .ok (true, m)

def copyout (d : PgDir) (va : Nat) (buf : List UInt8) (m : Mem) : Res (Bool × Mem) :=
  copyoutLoop d buf.length va buf m

end Xv6.Vm
