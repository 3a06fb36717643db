import Xv6.Log.Impl
import Xv6.File.Impl
import Xv6.Fs.Array

/-!
`fileread` and `filewrite` of `file.c` over the file system. The section between `ilock` and `iunlock` is a function of
its own. What the code of the pipes returns is a parameter.
-/

namespace Xv6.Fs

open Bytes

-- `max` in `filewrite`
def MAXCHUNK : Nat := (MAXOPBLOCKS - 1 - 1 - 2) / 2 * 512

structure Access where
  s : State
  f : File
  ret : Int

-- `if(r > 0) f->off += r;`, where `off` is an `uint`.
def advance (f : File) (r : Int) : File :=
  if r > 0 then { f with off := (f.off + r.toNat) % 2 ^ 32 } else f

variable (sb : Superblock) (devsw : Devsw)

def readSection (s : State) (f : File) (n : Nat) : Except String (Access × List UInt8) := do
  let r ← readi sb devsw s.disk (s.ino f.ip) f.off n
  return (⟨⟨r.disk, Function.update s.ino f.ip r.ip⟩, advance f r.ret, r.ret⟩, r.data)

def writeSection (s : State) (f : File) (src : Memory) (n : Nat) : Except String Access := do
  let r ← writei sb devsw s.disk f.ip (s.ino f.ip) src f.off n
  return ⟨⟨r.disk, Function.update s.ino f.ip r.ip⟩, advance f r.ret, r.ret⟩

-- `readi` takes `n` as an `uint`.
def fileread (piperead : Int × List UInt8) (s : State) (f : File) (n : Int) : Except String (Access × List UInt8) :=
  if f.readable = false then .ok (⟨s, f, -1⟩, [])
  else match f.type with
  | .pipe => .ok (⟨s, f, piperead.1⟩, piperead.2)
  | .inode => readSection sb devsw s f (n % 2 ^ 32).toNat
  | .none => .error "fileread"

-- The loop of `filewrite`; `ret` is the `i` with which it ends.
def filewriteLoop (s : State) (f : File) (src : Memory) (n i : Nat) : Except String Access :=
  if i < n then do
    let n1 := min (n - i) MAXCHUNK
    let a ← writeSection sb devsw s f (fun k => src (i + k)) n1
    if a.ret < 0 then return { a with ret := i }
    else if a.ret ≠ n1 then .error "short filewrite"
    else filewriteLoop a.s a.f src n (i + n1)
  else .ok ⟨s, f, i⟩
termination_by n - i
decreasing_by
  have : 0 < MAXCHUNK := by decide
  omega

def filewrite (pipewrite : Int) (s : State) (f : File) (src : Memory) (n : Int) : Except String Access :=
  if f.writable = false then .ok ⟨s, f, -1⟩
  else match f.type with
  | .pipe => .ok ⟨s, f, pipewrite⟩
  | .inode => do
    let a ← filewriteLoop sb devsw s f src n.toNat 0
    return { a with ret := if a.ret = n then n else -1 }
  | .none => .error "filewrite"

end Xv6.Fs
