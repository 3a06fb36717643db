import Xv6.Fs.Impl
import Xv6.Log.Impl

/-!
`mkfs.c`: the program that makes the image of a file system from a list of files.

The image has `FSSIZE` blocks from the first loop of `main` on. A failed `assert` and a failed call of the host are
errors. Integers go through `xshort` and `xint`, so they are little-endian in the image. The host returns a file in
chunks: what `read` leaves in `buf`, call by call.
-/

namespace Xv6.Mkfs

open Bytes Fs

def FSSIZE : Nat := 1000

def NINODES : Nat := 200

def nbitmap : Nat := FSSIZE / (BSIZE * 8) + 1

def ninodeblocks : Nat := NINODES / IPB + 1

def nlog : Nat := LOGSIZE

def nmeta : Nat := 2 + nlog + ninodeblocks + nbitmap

def nblocks : Nat := FSSIZE - nmeta

def sb : Superblock where
  size := FSSIZE
  ninodes := NINODES
  inodestart := 2 + nlog
  bmapstart := 2 + nlog + ninodeblocks
  inodes_lt := by
    intro i hi
    unfold IPB BSIZE DINODE NINODES at *
    unfold ninodeblocks NINODES IPB BSIZE DINODE
    omega
  meta_le := by decide
  size_le := by decide

-- `struct superblock` as bytes
def superblock : Block := fun j =>
  if j < 28 then byte ([FSSIZE, nblocks, NINODES, nlog, 2, sb.inodestart, sb.bmapstart].getD (j / 4) 0) (j % 4) else 0

structure State where
  image : Disk
  freeinode : Nat
  freeblock : Nat

-- `sec * BSIZE` is an `uint`.
def sector (sec : Nat) : Nat :=
  sec * BSIZE % 2 ^ 32 / BSIZE

def rsect (image : Disk) (sec : Nat) : Except String Block :=
  if sector sec < FSSIZE then .ok (image (sector sec)) else .error "read"

def wsect (image : Disk) (sec : Nat) (buf : Block) : Disk :=
  Function.update image (sector sec) buf

def winode (image : Disk) (inum : Nat) (ip : Dinode) : Except String Disk := do
  let buf ← rsect image (IBLOCK sb inum)
  return wsect image (IBLOCK sb inum) (putDinode buf (inum % IPB) ip)

def rinode (image : Disk) (inum : Nat) : Except String Dinode := do
  let buf ← rsect image (IBLOCK sb inum)
  return getDinode buf (inum % IPB)

def ialloc (t : State) (type : Nat) : Except String (State × Nat) := do
  let image ← winode t.image t.freeinode { Dinode.zero with type := type, nlink := 1 }
  return ({ t with image := image, freeinode := t.freeinode + 1 }, t.freeinode)

-- The bits of the first `used` blocks.
def bitmap (used : Nat) : Block :=
  (List.range used).foldl setBit fun _ => 0

def balloc (image : Disk) (used : Nat) : Except String Disk :=
  if used < BSIZE * 8 then .ok (wsect image sb.bmapstart (bitmap used)) else .error "assert(used < BSIZE*8)"

-- The indirect block of `iappend`, allocated if necessary.
def appendTable (freeblock : Nat) (din : Dinode) : Nat × Dinode :=
  if din.addrs NDIRECT = 0 then (freeblock + 1, setAddr din NDIRECT freeblock) else (freeblock, din)

-- The entry `j` of the indirect block `table`.
def appendEntry (image : Disk) (freeblock table j : Nat) : Except String (Disk × Nat × Nat) := do
  let indirect ← rsect image table
  if get32 indirect (4 * j) = 0 then
    return (wsect image table (put32 indirect (4 * j) freeblock), freeblock + 1, freeblock)
  else return (image, freeblock, get32 indirect (4 * j))

-- The block `x` to which a round of `iappend` writes.
def appendBlock (image : Disk) (freeblock : Nat) (din : Dinode) (fbn : Nat) : Except String (Disk × Nat × Dinode × Nat) :=
  if fbn < NDIRECT then
    if din.addrs fbn = 0 then .ok (image, freeblock + 1, setAddr din fbn freeblock, freeblock)
    else .ok (image, freeblock, din, din.addrs fbn)
  else do
    let (freeblock, din) := appendTable freeblock din
    let (image, freeblock, x) ← appendEntry image freeblock (din.addrs NDIRECT) (fbn - NDIRECT)
    return (image, freeblock, din, x)

def appendLoop (image : Disk) (freeblock : Nat) (din : Dinode) (p : Memory) (off n : Nat)
    : Except String (Disk × Nat × Dinode × Nat) :=
  if n = 0 then .ok (image, freeblock, din, off)
  else if off / BSIZE < MAXFILE then do
    let (image, freeblock, din, x) ← appendBlock image freeblock din (off / BSIZE)
    let n1 := min n ((off / BSIZE + 1) * BSIZE - off)
    let buf ← rsect image x
    let image := wsect image x (copy buf (off - off / BSIZE * BSIZE) n1 p)
    appendLoop image freeblock din (fun k => p (n1 + k)) (off + n1) (n - n1)
  else .error "assert(fbn < MAXFILE)"
termination_by n
decreasing_by
  unfold BSIZE
  omega

def iappend (t : State) (inum : Nat) (p : List UInt8) : Except String State := do
  let din ← rinode t.image inum
  let (image, freeblock, din, off) ← appendLoop t.image t.freeblock din (fun k => p.getD k 0) din.size p.length
  let image ← winode image inum { din with size := off }
  return { t with image := image, freeblock := freeblock }

/-- A file of the host. -/
structure File where
  name : List UInt8
  chunks : List (List UInt8)
  chunk_pos : ∀ chunk ∈ chunks, 0 < chunk.length
  chunk_le : ∀ chunk ∈ chunks, chunk.length ≤ BSIZE

def File.bytes (f : File) : List UInt8 :=
  f.chunks.flatten

-- The name without a leading `_`.
def File.target (f : File) : List UInt8 :=
  if f.name.head? = some 0x5f then f.name.tail else f.name

def direntBytes (inum : Nat) (name : List UInt8) : List UInt8 :=
  Dirent.toBytes ⟨inum, strncpy DIRSIZ name⟩

-- A round of the loop of `main`.
def addFile (t : State) (f : File) : Except String State :=
  if 0x2f ∈ f.name then .error "assert(index(argv[i], '/') == 0)"
  else do
    let (t, inum) ← ialloc t T_FILE
    let t ← iappend t ROOTINO (direntBytes inum f.target)
    f.chunks.foldlM (fun t chunk => iappend t inum chunk) t

def zeroed : State where
  image := wsect (fun _ _ => 0) 1 superblock
  freeinode := 1
  freeblock := nmeta

-- The root directory with `.` and `..`.
def mkroot (t : State) : Except String State := do
  let (t, rootino) ← ialloc t T_DIR
  if rootino ≠ ROOTINO then .error "assert(rootino == ROOTINO)"
  else do
    let t ← iappend t rootino (direntBytes rootino [0x2e])
    iappend t rootino (direntBytes rootino [0x2e, 0x2e])

-- The size of the root directory is rounded up.
def fixroot (t : State) : Except String State := do
  let din ← rinode t.image ROOTINO
  let image ← winode t.image ROOTINO { din with size := (din.size / BSIZE + 1) * BSIZE % 2 ^ 32 }
  let image ← balloc image t.freeblock
  return { t with image := image }

def main (files : List File) : Except String State := do
  let t ← mkroot zeroed
  let t ← files.foldlM addFile t
  fixroot t

end Xv6.Mkfs
