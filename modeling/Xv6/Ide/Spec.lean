import Xv6.Ide.Impl

/-!
What `iderw` is for: between its call and its return, the buffer and its block are made equal in a single step. The
calls are served in the order in which they are made. There is no controller, no interrupt and no sleep.
-/

namespace Xv6.Ide

structure Spec (ι β : Type) where
  buf : Slot → Buf ι β
  -- the buffers that are still to be served
  queue : List Slot
  disk : Nat → Nat → β
  call : ι → Option Slot
  halted : Bool

namespace Spec

inductive Event (ι β : Type) where
  | access (a : Access ι β)
  | iderw (p : ι) (b : Slot)
  | transfer (fault : Option β)
  -- the next block does not exist
  | refuse
  | ret (p : ι)

variable {ι β : Type}

-- A dirty buffer is written to its block, another one is read from it. After a fault the buffer counts as valid too.
def transfer (fault : Option β) (x : Buf ι β) (disk : Nat → Nat → β) : Buf ι β × (Nat → Nat → β) :=
  let y := { x with valid := true, dirty := false }
  if x.dirty then (y, write disk (x.dev % 2) x.blockno (fault.getD x.data))
  else
    match fault with
    | none => ({ y with data := disk (x.dev % 2) x.blockno }, disk)
    | some _ => (y, disk)

variable [DecidableEq ι]

-- Why `iderw` must not be called.
def objection (havedisk1 : Bool) (p : ι) (x : Buf ι β) : Option String :=
  if x.lock ≠ some p then some "iderw: buf not locked"
  else if x.synced then some "iderw: nothing to do"
  else if x.dev ≠ 0 ∧ havedisk1 = false then some "iderw: ide disk 1 not present"
  else none

def step (havedisk1 : Bool) : Machine (Spec ι β) (Event ι β) (List (Output ι β)) := fun a e =>
  if a.halted then none
  else
    match e with
    | .access c =>
      match access (fun p => a.call p = none) (a.buf c.slot) c with
      | none => none
      | some (x, v) => some ({ a with buf := Function.update a.buf c.slot x }, [.access c v])
    | .iderw p b =>
      if a.call p = none then
        match objection havedisk1 p (a.buf b) with
        | some msg => some ({ a with halted := true }, [.call p b, .panic msg])
        | none =>
          some ({ a with queue := a.queue ++ [b], call := Function.update a.call p (some b) }, [.call p b])
      else none
    | .transfer fault =>
      match a.queue with
      | [] => none
      | b :: l =>
        if (a.buf b).blockno < FSSIZE then
          let r := transfer fault (a.buf b) a.disk
          some ({ a with buf := Function.update a.buf b r.1, queue := l, disk := r.2 }, [])
        else none
    | .refuse =>
      match a.queue with
      | [] => none
      | b :: _ =>
        if (a.buf b).blockno < FSSIZE then none
        else some ({ a with halted := true }, [.panic "incorrect blockno"])
    | .ret p =>
      match a.call p with
      | none => none
      | some b =>
        if b ∈ a.queue then none
        else some ({ a with call := Function.update a.call p none }, [.ret p b])

def init (buf : Slot → Buf ι β) (disk : Nat → Nat → β) : Spec ι β where
  buf := buf
  queue := []
  disk := disk
  call := fun _ => none
  halted := false

end Spec

end Xv6.Ide
