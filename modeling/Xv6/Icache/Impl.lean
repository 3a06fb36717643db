import Xv6.Fs.Impl
import Xv6.Lib.Crowd
import Xv6.Lib.Machine

/-!
The inode cache of `fs.c` under any number of calls that run at the same time: `iget`, `idup`, `ilock`, `iunlock`,
`iput`, `ialloc` and what a system call does to an inode that it has locked. A process that works with several inodes
counts once for each of them.

The disk is what `bread` sees of the inodes. Its other blocks are left out, so `balloc` may find any block but the
first one, which `mkfs` marks as used. A step is what a call does between two accesses to something that others use.

`refs` counts the pointers to an entry in variables, open files and current directories. Nobody gives up the last of them
while somebody else works with the inode.
-/

namespace Xv6.Icache

open Fs Crowd

abbrev NINODE : Nat := 50

abbrev Slot := Fin NINODE

/-- `struct inode` -/
structure Inode (ι : Type) where
  dev : Nat
  inum : Nat
  ref : Nat
  lock : Option ι
  valid : Bool
  ip : Dinode

-- What is to be done next with an inode.
inductive Phase where
  | acquire
  | load
  | check
  | use
  | iupdate
  | readi (off n : Nat)
  | writei (off n tot : Nat)
  | iput
  | test
  | itrunc
  | truncated
  | freed
  | invalidate
  | release
  | drop
  deriving DecidableEq, Repr

inductive Place where
  | out
  | ialloc (dev inum type : Nat)
  | iget (dev inum : Nat)
  | on (i : Slot) (x : Phase)
  deriving DecidableEq, Repr

structure State (ι : Type) where
  icache : Slot → Inode ι
  disk : Nat → Nat → Dinode
  refs : Slot → Nat
  place : ι → Place

-- The assignments of `sys_link`, of `sys_unlink`, and of `create`, that come before `iupdate`.
inductive Change where
  | link
  | unlink
  | make (major minor : Nat)

inductive Event (ι : Type) where
  | ialloc (p : ι) (dev type : Nat)
  | iget (p : ι) (dev inum : Nat)
  | idup (i : Slot)
  | ilock (p : ι) (i : Slot)
  | iunlock (p : ι)
  | iput (p : ι) (i : Slot)
  | change (p : ι) (c : Change)
  | readi (p : ι) (off n : Nat)
  | writei (p : ι) (off n : Nat)
  | step (p : ι) (b : Nat)

def Change.apply (ip : Dinode) : Change → Dinode
  | .link => { ip with nlink := (ip.nlink + 1) % 2 ^ 16 }
  | .unlink => { ip with nlink := (ip.nlink + (2 ^ 16 - 1)) % 2 ^ 16 }
  | .make major minor => { ip with major := major, minor := minor, nlink := 1 }

-- `bmap`, as far as it changes the inode, where `balloc` finds the block `b`.
def bmap (ip : Dinode) (bn b : Nat) : Option Dinode :=
  if bn ≥ MAXFILE then none
  else if ip.addrs (min bn NDIRECT) ≠ 0 then some ip
  else if b = 0 then none
  else some (setAddr ip (min bn NDIRECT) b)

-- `min(n - tot, BSIZE - off%BSIZE)`
def chunk (off n : Nat) : Nat :=
  min n (BSIZE - off % BSIZE)

variable {ι : Type}

-- A step of the process `p` with the entry `e`, whose inode is `d` on the disk.
def run (p : ι) (b : Nat) (e : Inode ι) (d : Dinode) : Phase → Option (Inode ι × Dinode × Phase)
  | .acquire =>
    if e.lock.isSome then none
    else if e.valid = false then some ({ e with lock := some p }, d, .load)
    else some ({ e with lock := some p }, d, .use)
  | .load => some ({ e with ip := d }, d, .check)
  | .check => if e.ip.type = 0 then none else some ({ e with valid := true }, d, .use)
  | .iupdate => some (e, e.ip, .use)
  | .readi off n =>
    if n = 0 then some (e, d, .use)
    else
      match bmap e.ip (off / BSIZE) b with
      | none => none
      | some ip => some ({ e with ip := ip }, d, .readi (off + chunk off n) (n - chunk off n))
  | .writei off n tot =>
    if tot < n then
      match bmap e.ip (off / BSIZE) b with
      | none => none
      | some ip =>
        some ({ e with ip := ip }, d, .writei (off + chunk off (n - tot)) n (tot + chunk off (n - tot)))
    else if n > 0 ∧ off > e.ip.size then some ({ e with ip := { e.ip with size := off } }, d, .iupdate)
    else some (e, d, .use)
  | .iput => if e.lock.isSome then none else some ({ e with lock := some p }, d, .test)
  | .test => if e.valid ∧ e.ip.nlink = 0 ∧ e.ref = 1 then some (e, d, .itrunc) else some (e, d, .release)
  | .itrunc => some ({ e with ip := { e.ip with size := 0, addrs := fun _ => 0 } }, d, .truncated)
  | .truncated => some ({ e with ip := { e.ip with type := 0 } }, e.ip, .freed)
  | .freed => some (e, e.ip, .invalidate)
  | .invalidate => some ({ e with valid := false }, d, .release)
  | .release => some ({ e with lock := none }, d, .drop)
  | .use => none
  | .drop => none

-- The loop of `iget`: the entry with the inode, or the first empty one.
def igetLoop (icache : Slot → Inode ι) (dev inum : Nat) : List Slot → Option Slot → Slot ⊕ Option Slot
  | [], empty => .inr empty
  | i :: l, empty =>
    if (icache i).ref > 0 ∧ (icache i).dev = dev ∧ (icache i).inum = inum then .inl i
    else igetLoop icache dev inum l (if empty = none ∧ (icache i).ref = 0 then some i else empty)

def iget (icache : Slot → Inode ι) (dev inum : Nat) : Option (Slot × Inode ι) :=
  match igetLoop icache dev inum (List.finRange NINODE) none with
  | .inl i => some (i, { icache i with ref := (icache i).ref + 1 })
  | .inr none => none
  | .inr (some i) => some (i, { icache i with dev := dev, inum := inum, ref := 1, valid := false })

-- Between the start of `ilock` and the end of `iunlock`, or in `iput`.
def Phase.inIput : Phase → Bool
  | .iput | .test | .itrunc | .truncated | .freed | .invalidate | .release | .drop => true
  | _ => false

def Phase.held : Phase → Bool
  | .acquire | .iput | .drop => false
  | _ => true

-- How many calls of `iput`, and how many other calls, are at work with the entry.
def puts (i : Slot) : Place → Nat
  | .on j x => if j = i ∧ x.inIput then 1 else 0
  | _ => 0

def uses (i : Slot) : Place → Nat
  | .on j x => if j = i ∧ x.inIput = false then 1 else 0
  | _ => 0

variable [Fintype ι] [DecidableEq ι]

def State.goto (s : State ι) (p : ι) (y : Place) : State ι :=
  { s with place := Function.update s.place p y }

def State.setEntry (s : State ι) (i : Slot) (e : Inode ι) : State ι :=
  { s with icache := Function.update s.icache i e }

def State.setDisk (s : State ι) (dev inum : Nat) (d : Dinode) : State ι :=
  { s with disk := Function.update s.disk dev (Function.update (s.disk dev) inum d) }

def State.setRefs (s : State ι) (i : Slot) (n : Nat) : State ι :=
  { s with refs := Function.update s.refs i n }

def State.dinode (s : State ι) (i : Slot) : Dinode :=
  s.disk (s.icache i).dev (s.icache i).inum

variable (ninodes : Nat)

-- A panic and a call that has to wait are `none`. `writei` to a device leaves the work to `devsw`, which unlocks the inode.
def step : Machine (State ι) (Event ι) (Option Slot) := fun s e =>
  match e with
  | .ialloc p dev type => if s.place p = .out then some (s.goto p (.ialloc dev 1 type), none) else none
  | .iget p dev inum => if s.place p = .out then some (s.goto p (.iget dev inum), none) else none
  | .idup i =>
    if 0 < s.refs i then
      some ((s.setEntry i { s.icache i with ref := (s.icache i).ref + 1 }).setRefs i (s.refs i + 1), some i)
    else none
  | .ilock p i =>
    if s.place p = .out ∧ 0 < s.refs i ∧ ¬(s.icache i).ref < 1 then some (s.goto p (.on i .acquire), none) else none
  | .iunlock p =>
    match s.place p with
    | .on i .use =>
      if (s.icache i).lock = none ∨ (s.icache i).ref < 1 then none
      else some ((s.setEntry i { s.icache i with lock := none }).goto p .out, none)
    | _ => none
  | .iput p i =>
    if s.place p = .out ∧ 0 < s.refs i ∧ (1 < s.refs i ∨ total (uses i) s.place = 0) then
      some ((s.setRefs i (s.refs i - 1)).goto p (.on i .iput), none)
    else none
  | .change p c =>
    match s.place p with
    | .on i .use =>
      some ((s.setEntry i { s.icache i with ip := c.apply (s.icache i).ip }).goto p (.on i .iupdate), none)
    | _ => none
  | .readi p off n =>
    match s.place p with
    | .on i .use =>
      let ip := (s.icache i).ip
      if ip.type = T_DEV ∨ off > ip.size ∨ off + n ≥ 2 ^ 32 then some (s, none)
      else some (s.goto p (.on i (.readi off (if off + n > ip.size then ip.size - off else n))), none)
    | _ => none
  | .writei p off n =>
    match s.place p with
    | .on i .use =>
      let ip := (s.icache i).ip
      if ip.type = T_DEV ∨ off > ip.size ∨ off + n ≥ 2 ^ 32 ∨ off + n > MAXFILE * BSIZE then some (s, none)
      else some (s.goto p (.on i (.writei off n 0)), none)
    | _ => none
  | .step p b =>
    match s.place p with
    | .out => none
    | .ialloc dev inum type =>
      if inum ≥ ninodes then none
      else if (s.disk dev inum).type = 0 then
        some ((s.setDisk dev inum { Dinode.zero with type := type }).goto p (.iget dev inum), none)
      else some (s.goto p (.ialloc dev (inum + 1) type), none)
    | .iget dev inum =>
      match iget s.icache dev inum with
      | none => none
      | some (i, e) => some (((s.setEntry i e).setRefs i (s.refs i + 1)).goto p .out, some i)
    | .on i .drop =>
      some ((s.setEntry i { s.icache i with ref := (s.icache i).ref - 1 }).goto p .out, none)
    | .on i x =>
      match run p b (s.icache i) (s.dinode i) x with
      | none => none
      | some (e, d, x) =>
        some (((s.setEntry i e).setDisk e.dev e.inum d).goto p (.on i x), none)

-- What `iinit` leaves behind.
def State.init (icache : Slot → Inode ι) (disk : Nat → Nat → Dinode) : State ι where
  icache := fun i => { icache i with ref := 0, lock := none }
  disk := disk
  refs := fun _ => 0
  place := fun _ => .out

end Xv6.Icache
