import Xv6.Vm.Impl.Vm

/-!
`exec.c`. What `readi` returns is a parameter of the model: the bytes read at an offset, fewer than asked for
at the end of the file or on an error. An argument string is given without its terminating zero. The
program's name and the trap frame are left out, `Image` has what `exec` puts into the latter.
-/

namespace Xv6.Vm

structure Inode where
  readi : (off n : Nat) → List UInt8
  readi_le : ∀ off n, (readi off n).length ≤ n

def MAXARG : Nat := 32

def ELF_MAGIC : Nat := 0x464C457F

def ELF_PROG_LOAD : Nat := 1

def le16 (bs : List UInt8) (off : Nat) : Nat :=
  (bs.getD off 0).toNat + 2 ^ 8 * (bs.getD (off + 1) 0).toNat

def le32 (bs : List UInt8) (off : Nat) : Nat :=
  le16 bs off + 2 ^ 16 * le16 bs (off + 2)

def bytes32 (n : Nat) : List UInt8 :=
  [.ofNat n, .ofNat (n / 2 ^ 8), .ofNat (n / 2 ^ 16), .ofNat (n / 2 ^ 24)]

structure Elfhdr where
  magic : Nat
  entry : Nat
  phoff : Nat
  phnum : Nat

structure Proghdr where
  type : Nat
  off : Nat
  vaddr : Nat
  filesz : Nat
  memsz : Nat

def readElfhdr (ip : Inode) : Option Elfhdr :=
  let bs := ip.readi 0 52
  if bs.length ≠ 52 then
    none
  else
    some { magic := le32 bs 0, entry := le32 bs 24, phoff := le32 bs 28, phnum := le16 bs 44 }

def readProghdr (ip : Inode) (off : Nat) : Option Proghdr :=
  let bs := ip.readi off 32
  if bs.length ≠ 32 then
    none
  else
    some { type := le32 bs 0, off := le32 bs 4, vaddr := le32 bs 8, filesz := le32 bs 16, memsz := le32 bs 20 }

def loadLoop (d : PgDir) (addr : Nat) (ip : Inode) (offset sz : Nat) : Nat → Nat → Mem → Res (Bool × Mem)
  | 0, i, m => if i < sz then .error .hang else .ok (true, m)
  | fuel + 1, i, m =>
    if i < sz then
      match walkpgdir d (uint (addr + i)) false m with
      | none => .error (.panic "loaduvm: address should exist")
      | some _ =>
        let pa := (d.pte (uint (addr + i) / PGSIZE)).addr
        let n := if sz - i < PGSIZE then sz - i else PGSIZE
        let bs := ip.readi (uint (offset + i)) n
        if bs.length ≠ n then
          .ok (false, m.write pa 0 bs)
        else
          loadLoop d addr ip offset sz fuel (uint (i + PGSIZE)) (m.write pa 0 bs)
    else
      .ok (true, m)

def loaduvm (d : PgDir) (addr : Nat) (ip : Inode) (offset sz : Nat) (m : Mem) : Res (Bool × Mem) :=
  if addr % PGSIZE ≠ 0 then
    .error (.panic "loaduvm: addr must be page aligned")
  else
    loadLoop d addr ip offset sz NPAGES 0 m

variable (L : Layout)

-- The body of the loop over the program headers. The first result is false for `goto bad`.
def loadSegment (ip : Inode) (ph : Proghdr) (d : PgDir) (sz : Nat) (m : Mem)
    : Res (Bool × Nat × PgDir × Mem) :=
  if ph.type ≠ ELF_PROG_LOAD then
    .ok (true, sz, d, m)
  else if ph.memsz < ph.filesz then
    .ok (false, sz, d, m)
  else if uint (ph.vaddr + ph.memsz) < ph.vaddr then
    .ok (false, sz, d, m)
  else
    match allocuvm L d sz (uint (ph.vaddr + ph.memsz)) m with
    | .error e => .error e
    | .ok (sz, d, m) =>
      if sz = 0 then
        .ok (false, sz, d, m)
      else if ph.vaddr % PGSIZE ≠ 0 then
        .ok (false, sz, d, m)
      else
        match loaduvm d ph.vaddr ip ph.off ph.filesz m with
        | .error e => .error e
        | .ok (ok, m) => .ok (ok, sz, d, m)

def loadSegments (ip : Inode) : Nat → Nat → PgDir → Nat → Mem → Res (Bool × Nat × PgDir × Mem)
  | 0, _, d, sz, m => .ok (true, sz, d, m)
  | n + 1, off, d, sz, m =>
    match readProghdr ip off with
    | none => .ok (false, sz, d, m)
    | some ph =>
      match loadSegment L ip ph d sz m with
      | .error e => .error e
      | .ok (false, sz, d, m) => .ok (false, sz, d, m)
      | .ok (true, sz, d, m) => loadSegments ip n (uint (off + 32)) d sz m

-- Pushes the argument strings. The result has the stack pointer and the addresses of the strings.
def pushArgs (d : PgDir) : List (List UInt8) → Nat → Nat → List Nat → Mem
    → Res (Option (Nat × List Nat) × Mem)
  | [], _, sp, ustack, m => .ok (some (sp, ustack), m)
  | arg :: argv, argc, sp, ustack, m =>
    if argc ≥ MAXARG then
      .ok (none, m)
    else
      let sp := uint (sp + 2 ^ 32 - (arg.length + 1)) / 4 * 4
      match copyout d sp (arg ++ [0]) m with
      | .error e => .error e
      | .ok (false, m) => .ok (none, m)
      | .ok (true, m) => pushArgs d argv (argc + 1) sp (ustack ++ [sp]) m

structure Image where
  pgdir : PgDir
  sz : Nat
  entry : Nat
  sp : Nat

-- The stack of the new program: a guard page, a page for the stack and the arguments on it.
def setupStack (d : PgDir) (sz entry : Nat) (argv : List (List UInt8)) (m : Mem)
    : Res (Option Image × PgDir × Mem) :=
  let sz := pgroundup sz
  match allocuvm L d sz (uint (sz + 2 * PGSIZE)) m with
  | .error e => .error e
  | .ok (sz, d, m) =>
    if sz = 0 then
      .ok (none, d, m)
    else
      match clearpteu d (uint (sz + 2 ^ 32 - 2 * PGSIZE)) m with
      | .error e => .error e
      | .ok d =>
        match pushArgs d argv 0 sz [] m with
        | .error e => .error e
        | .ok (none, m) => .ok (none, d, m)
        | .ok (some (sp, args), m) =>
          let argc := args.length
          let ustack := [0xffffffff, argc, uint (sp + 2 ^ 32 - (argc + 1) * 4)] ++ args ++ [0]
          let sp := uint (sp + 2 ^ 32 - (3 + argc + 1) * 4)
          match copyout d sp (ustack.flatMap bytes32) m with
          | .error e => .error e
          | .ok (false, m) => .ok (none, d, m)
          | .ok (true, m) => .ok (some { pgdir := d, sz := sz, entry := entry, sp := sp }, d, m)

def loadImage (ip : Inode) (elf : Elfhdr) (argv : List (List UInt8)) (d : PgDir) (m : Mem)
    : Res (Option Image × PgDir × Mem) :=
  match loadSegments L ip elf.phnum elf.phoff d 0 m with
  | .error e => .error e
  | .ok (false, _, d, m) => .ok (none, d, m)
  | .ok (true, sz, d, m) => setupStack L d sz elf.entry argv m

-- `ip` is what `namei` finds at the path, `old` the page directory of the process.
def exec (ip : Option Inode) (argv : List (List UInt8)) (old : PgDir) (m : Mem)
    : Res (Option Image × Mem) :=
  match ip with
  | none => .ok (none, m)
  | some ip =>
    match readElfhdr ip with
    | none => .ok (none, m)
    | some elf =>
      if elf.magic ≠ ELF_MAGIC then
        .ok (none, m)
      else
        match setupkvm L m with
        | .error e => .error e
        | .ok (none, m) => .ok (none, m)
        | .ok (some d, m) =>
          match loadImage L ip elf argv d m with
          | .error e => .error e
          | .ok (none, d, m) =>
            match freevm L d m with
            | .error e => .error e
            | .ok m => .ok (none, m)
          | .ok (some image, _, m) =>
            match freevm L old m with
            | .error e => .error e
            | .ok m => .ok (some image, m)

end Xv6.Vm
