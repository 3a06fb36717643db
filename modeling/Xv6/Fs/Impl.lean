import Xv6.Fs.Format

/-!
`fs.c`: blocks, inodes and directories. The disk is what `bread` sees, the buffer cache over the image. A function that
uses an inode takes the copy in memory, `ip`, and returns the copy that it leaves behind; only `iupdate` writes it to
the disk. A panic is an error.

The device functions behind `devsw` are a parameter. Numbers of type `uint` are below `2^32`.
-/

namespace Xv6.Fs

open Bytes

/-- The super block, with the order in which `mkfs` lays out the disk. -/
structure Superblock where
  size : Nat
  ninodes : Nat
  inodestart : Nat
  bmapstart : Nat
  inodes_lt : ∀ i < ninodes, i / IPB + inodestart < bmapstart
  meta_le : bmapstart + size / BPB + 1 ≤ size
  size_le : size ≤ 2 ^ 31

structure Devsw where
  read : Nat → Option (Nat → Int × List UInt8)
  write : Nat → Option (Memory → Nat → Int)

def NDEV : Nat := 10

def IBLOCK (sb : Superblock) (i : Nat) : Nat :=
  i / IPB + sb.inodestart

def BBLOCK (sb : Superblock) (b : Nat) : Nat :=
  b / BPB + sb.bmapstart

-- The first block behind the bitmap.
def Superblock.nmeta (sb : Superblock) : Nat :=
  sb.bmapstart + sb.size / BPB + 1

variable (sb : Superblock)

def dinode (disk : Disk) (inum : Nat) : Dinode :=
  getDinode (disk (IBLOCK sb inum)) (inum % IPB)

def bit (disk : Disk) (b : Nat) : Bool :=
  testBit (disk (BBLOCK sb b)) (b % BPB)

def bzero (disk : Disk) (b : Nat) : Disk :=
  Function.update disk b fun _ => 0

-- The two loops visit the blocks in order.
def balloc (disk : Disk) : Except String (Disk × Nat) :=
  match (List.range sb.size).find? fun b => bit sb disk b = false with
  | some b =>
    let disk := Function.update disk (BBLOCK sb b) (setBit (disk (BBLOCK sb b)) (b % BPB))
    .ok (bzero disk b, b)
  | none => .error "balloc: out of blocks"

def bfree (disk : Disk) (b : Nat) : Except String Disk :=
  if bit sb disk b = false then .error "freeing free block"
  else .ok (Function.update disk (BBLOCK sb b) (clearBit (disk (BBLOCK sb b)) (b % BPB)))

def iupdate (disk : Disk) (inum : Nat) (ip : Dinode) : Disk :=
  Function.update disk (IBLOCK sb inum) (putDinode (disk (IBLOCK sb inum)) (inum % IPB) ip)

def ialloc (disk : Disk) (type : Nat) : Except String (Disk × Nat) :=
  match (List.range' 1 (sb.ninodes - 1)).find? fun inum => (dinode sb disk inum).type = 0 with
  | some inum => .ok (iupdate sb disk inum { Dinode.zero with type := type }, inum)
  | none => .error "ialloc: no inodes"

def setAddr (ip : Dinode) (k b : Nat) : Dinode :=
  { ip with addrs := Function.update ip.addrs k b }

-- The indirect block of `bmap`, allocated if necessary.
def bmapTable (disk : Disk) (ip : Dinode) : Except String (Disk × Dinode) :=
  if ip.addrs NDIRECT = 0 then do
    let (disk, addr) ← balloc sb disk
    return (disk, setAddr ip NDIRECT addr)
  else .ok (disk, ip)

-- The entry `j` of the indirect block `table`.
def bmapEntry (disk : Disk) (table j : Nat) : Except String (Disk × Nat) :=
  if get32 (disk table) (4 * j) = 0 then do
    let (disk, addr) ← balloc sb disk
    return (Function.update disk table (put32 (disk table) (4 * j) addr), addr)
  else .ok (disk, get32 (disk table) (4 * j))

def bmap (disk : Disk) (ip : Dinode) (bn : Nat) : Except String (Disk × Dinode × Nat) :=
  if bn < NDIRECT then
    if ip.addrs bn = 0 then do
      let (disk, addr) ← balloc sb disk
      return (disk, setAddr ip bn addr, addr)
    else .ok (disk, ip, ip.addrs bn)
  else if bn - NDIRECT < NINDIRECT then do
    let (disk, ip) ← bmapTable sb disk ip
    let (disk, addr) ← bmapEntry sb disk (ip.addrs NDIRECT) (bn - NDIRECT)
    return (disk, ip, addr)
  else .error "bmap: out of range"

-- A round of the first loop of `itrunc`.
def truncDirect (x : Disk × Dinode) (i : Nat) : Except String (Disk × Dinode) :=
  if x.2.addrs i = 0 then .ok x
  else do
    let disk ← bfree sb x.1 (x.2.addrs i)
    return (disk, setAddr x.2 i 0)

-- A round of the second one, which goes through the block `a`.
def truncIndirect (a : Block) (disk : Disk) (j : Nat) : Except String Disk :=
  if get32 a (4 * j) = 0 then .ok disk else bfree sb disk (get32 a (4 * j))

def truncTable (disk : Disk) (ip : Dinode) : Except String (Disk × Dinode) :=
  if ip.addrs NDIRECT = 0 then .ok (disk, ip)
  else do
    let disk ← (List.range NINDIRECT).foldlM (truncIndirect sb (disk (ip.addrs NDIRECT))) disk
    let disk ← bfree sb disk (ip.addrs NDIRECT)
    return (disk, setAddr ip NDIRECT 0)

def itrunc (disk : Disk) (inum : Nat) (ip : Dinode) : Except String (Disk × Dinode) := do
  let (disk, ip) ← (List.range NDIRECT).foldlM (truncDirect sb) (disk, ip)
  let (disk, ip) ← truncTable sb disk ip
  let ip := { ip with size := 0 }
  return (iupdate sb disk inum ip, ip)

-- The part of `iput` that frees an inode without links and references.
def ifree (disk : Disk) (inum : Nat) (ip : Dinode) : Except String Disk := do
  let (disk, ip) ← itrunc sb disk inum ip
  return iupdate sb disk inum { ip with type := 0 }

-- An inode in the cache with `ref` references; `valid` says that it has been read from the disk.
def iput (disk : Disk) (inum : Nat) (ip : Dinode) (valid : Bool) (ref : Nat) : Except String (Disk × Bool × Nat) :=
  if valid ∧ ip.nlink = 0 ∧ ref = 1 then do
    let disk ← ifree sb disk inum ip
    return (disk, false, ref - 1)
  else .ok (disk, valid, ref - 1)

-- The loop of `readi`.
def readLoop (disk : Disk) (ip : Dinode) (off n : Nat) : Except String (Disk × Dinode × List UInt8) :=
  if _h : n = 0 then .ok (disk, ip, [])
  else do
    let (disk, ip, addr) ← bmap sb disk ip (off / BSIZE)
    let m := min n (BSIZE - off % BSIZE)
    let bytes := (List.range m).map fun k => disk addr (off % BSIZE + k)
    let (disk, ip, rest) ← readLoop disk ip (off + m) (n - m)
    return (disk, ip, bytes ++ rest)
termination_by n
decreasing_by
  have := Nat.mod_lt off (show BSIZE > 0 by decide)
  omega

structure ReadResult where
  disk : Disk
  ip : Dinode
  ret : Int
  data : List UInt8

def readi (devsw : Devsw) (disk : Disk) (ip : Dinode) (off n : Nat) : Except String ReadResult :=
  if ip.type = T_DEV then
    match if ip.major < NDEV then devsw.read ip.major else none with
    | none => .ok ⟨disk, ip, -1, []⟩
    | some f => .ok ⟨disk, ip, (f n).1, (f n).2⟩
  else if off > ip.size ∨ (off + n) % 2 ^ 32 < off then .ok ⟨disk, ip, -1, []⟩
  else
    let n := if (off + n) % 2 ^ 32 > ip.size then ip.size - off else n
    do
      let (disk, ip, data) ← readLoop sb disk ip off n
      return ⟨disk, ip, n, data⟩

-- The loop of `writei`.
def writeLoop (disk : Disk) (ip : Dinode) (src : Memory) (off n : Nat) : Except String (Disk × Dinode) :=
  if _h : n = 0 then .ok (disk, ip)
  else do
    let (disk, ip, addr) ← bmap sb disk ip (off / BSIZE)
    let m := min n (BSIZE - off % BSIZE)
    let disk := Function.update disk addr (copy (disk addr) (off % BSIZE) m src)
    writeLoop disk ip (fun k => src (m + k)) (off + m) (n - m)
termination_by n
decreasing_by
  have := Nat.mod_lt off (show BSIZE > 0 by decide)
  omega

structure WriteResult where
  disk : Disk
  ip : Dinode
  ret : Int

def writei (devsw : Devsw) (disk : Disk) (inum : Nat) (ip : Dinode) (src : Memory) (off n : Nat)
    : Except String WriteResult :=
  if ip.type = T_DEV then
    match if ip.major < NDEV then devsw.write ip.major else none with
    | none => .ok ⟨disk, ip, -1⟩
    | some f => .ok ⟨disk, ip, f src n⟩
  else if off > ip.size ∨ (off + n) % 2 ^ 32 < off then .ok ⟨disk, ip, -1⟩
  else if (off + n) % 2 ^ 32 > MAXFILE * BSIZE then .ok ⟨disk, ip, -1⟩
  else do
    let (disk, ip) ← writeLoop sb disk ip src off n
    if n > 0 ∧ off + n > ip.size then
      let ip := { ip with size := off + n }
      return ⟨iupdate sb disk inum ip, ip, n⟩
    else return ⟨disk, ip, n⟩

-- `string.c`. A C string ends at its first zero byte or, for these two functions, at the end of the list.
def strncmp : Nat → List UInt8 → List UInt8 → Int
  | 0, _, _ => 0
  | n + 1, p, q =>
    if p.headD 0 ≠ 0 ∧ p.headD 0 = q.headD 0 then strncmp n p.tail q.tail
    else (p.headD 0).toNat - (q.headD 0).toNat

-- The `n` bytes that are stored.
def strncpy : Nat → List UInt8 → List UInt8
  | 0, _ => []
  | n + 1, t => if t.headD 0 = 0 then List.replicate (n + 1) 0 else t.headD 0 :: strncpy n t.tail

def namecmp (s t : List UInt8) : Int :=
  strncmp DIRSIZ s t

-- `struct dirent`
structure Dirent where
  inum : Nat
  name : List UInt8
  deriving DecidableEq, Repr

def Dirent.ofBytes (l : List UInt8) : Dirent where
  inum := (l.getD 0 0).toNat + 256 * (l.getD 1 0).toNat
  name := l.drop 2

-- `inum` is an `ushort`.
def Dirent.toBytes (de : Dirent) : List UInt8 :=
  byte de.inum 0 :: byte de.inum 1 :: de.name

-- The loop of `dirlookup`, which returns the number of the inode and the offset of the entry. It does not take more
-- rounds than the directory has bytes.
def dirlookupLoop (devsw : Devsw) (name : List UInt8)
    : Nat → Disk → Dinode → Nat → Except String (Disk × Dinode × Option (Nat × Nat))
  | 0, disk, dp, _ => .ok (disk, dp, none)
  | fuel + 1, disk, dp, off =>
    if off < dp.size then do
      let r ← readi sb devsw disk dp off DIRENT
      if r.ret ≠ DIRENT then .error "dirlookup read"
      else
        let de := Dirent.ofBytes r.data
        if de.inum ≠ 0 ∧ namecmp name de.name = 0 then .ok (r.disk, r.ip, some (de.inum, off))
        else dirlookupLoop devsw name fuel r.disk r.ip (off + DIRENT)
    else .ok (disk, dp, none)

def dirlookup (devsw : Devsw) (disk : Disk) (dp : Dinode) (name : List UInt8)
    : Except String (Disk × Dinode × Option (Nat × Nat)) :=
  if dp.type ≠ T_DIR then .error "dirlookup not DIR"
  else dirlookupLoop sb devsw name (dp.size + 1) disk dp 0

-- The loop of `dirlink`, which returns the offset at which it stops.
def dirlinkLoop (devsw : Devsw) : Nat → Disk → Dinode → Nat → Except String (Disk × Dinode × Nat)
  | 0, disk, dp, off => .ok (disk, dp, off)
  | fuel + 1, disk, dp, off =>
    if off < dp.size then do
      let r ← readi sb devsw disk dp off DIRENT
      if r.ret ≠ DIRENT then .error "dirlink read"
      else if (Dirent.ofBytes r.data).inum = 0 then .ok (r.disk, r.ip, off)
      else dirlinkLoop devsw fuel r.disk r.ip (off + DIRENT)
    else .ok (disk, dp, off)

-- `writei(dp, (char*)&de, off, sizeof(de))`, with the panic of the caller.
def writeDirent (devsw : Devsw) (disk : Disk) (dinum : Nat) (dp : Dinode) (de : Dirent) (off : Nat) (msg : String)
    : Except String (Disk × Dinode) := do
  let r ← writei sb devsw disk dinum dp (fun k => de.toBytes.getD k 0) off DIRENT
  if r.ret ≠ DIRENT then .error msg else .ok (r.disk, r.ip)

def dirlink (devsw : Devsw) (disk : Disk) (dinum : Nat) (dp : Dinode) (name : List UInt8) (inum : Nat)
    : Except String (Disk × Dinode × Int) := do
  let (disk, dp, found) ← dirlookup sb devsw disk dp name
  match found with
  | some _ => .ok (disk, dp, -1)
  | none => do
    let (disk, dp, off) ← dirlinkLoop sb devsw (dp.size + 1) disk dp 0
    let (disk, dp) ← writeDirent sb devsw disk dinum dp ⟨inum, strncpy DIRSIZ name⟩ off "dirlink"
    return (disk, dp, 0)

-- What `sys_unlink` does to the directory: it finds the entry and clears it.
def direrase (devsw : Devsw) (disk : Disk) (dinum : Nat) (dp : Dinode) (name : List UInt8)
    : Except String (Disk × Dinode × Int) := do
  let (disk, dp, found) ← dirlookup sb devsw disk dp name
  match found with
  | none => .ok (disk, dp, -1)
  | some (_, off) => do
    let (disk, dp) ← writeDirent sb devsw disk dinum dp ⟨0, List.replicate DIRSIZ 0⟩ off "unlink: writei"
    return (disk, dp, 0)

end Xv6.Fs
