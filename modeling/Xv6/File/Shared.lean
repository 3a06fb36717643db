import Xv6.File.Write

/-!
Any number of processes that call `fileread` and `filewrite` on one open file. A step is what a process does between two
changes of the lock of the inode, but `f->off` is read and advanced in two steps; the other processes run in between.
The rest of the kernel may change the file system at any moment, this file through other descriptors included.

The places of a process:
- `out`: in none of the calls
- `ilock`: about to lock the inode
- `transfer`: about to call `readi` or `writei` with `f->off`
- `advance r`: about to execute `if(r > 0) f->off += r;`
- `iunlock r`: about to unlock the inode
-/

namespace Xv6.Fs

open Bytes Outcome

-- `i` is the number of bytes that the chunks before have stored.
inductive Call where
  | read (n : Int)
  | write (src : Memory) (n i : Nat)

inductive Place where
  | out
  | ilock (c : Call)
  | transfer (c : Call)
  | advance (c : Call) (r : Int)
  | iunlock (c : Call) (r : Int)

structure Shared (ι : Type) where
  fs : State
  f : File
  lock : Option ι
  place : ι → Place

-- What else may happen to the file system while the inode is in use.
structure Rest (sb : Superblock) (inum : Nat) where
  run : State → State
  wf : ∀ s, WellFormed sb s → WellFormed sb (run s)
  isFile : ∀ s, WellFormed sb s → s.isFile sb inum → (run s).isFile sb inum

inductive SharedEvent (sb : Superblock) (inum : Nat) (ι : Type) where
  | fileread (p : ι) (n : Int)
  | filewrite (p : ι) (src : Memory) (n : Int)
  | step (p : ι)
  | rest (r : Rest sb inum)

inductive SharedOutput where
  | none
  | data (bytes : List UInt8)
  | ret (r : Int)
  deriving DecidableEq, Repr

variable {ι : Type}

def Shared.goto [DecidableEq ι] (s : Shared ι) (p : ι) (x : Place) : Shared ι :=
  { s with place := Function.update s.place p x }

def Call.writes : Call → Bool
  | .read _ => false
  | .write _ _ _ => true

variable (sb : Superblock) (devsw : Devsw)

-- `readi` or `writei` of the locked section.
def transfer (s : State) (f : File) : Call → Except String (State × Int × List UInt8)
  | .read n => do
    let r ← readi sb devsw s.disk (s.ino f.ip) f.off (n % 2 ^ 32).toNat
    return (⟨r.disk, Function.update s.ino f.ip r.ip⟩, r.ret, r.data)
  | .write src n i => do
    let r ← writei sb devsw s.disk f.ip (s.ino f.ip) (fun k => src (i + k)) f.off (min (n - i) MAXCHUNK)
    return (⟨r.disk, Function.update s.ino f.ip r.ip⟩, r.ret, [])

-- Behind `iunlock`: the place of the process and what it returns.
def resume : Call → Int → Option (Place × SharedOutput)
  | .read _, r => some (.out, .ret r)
  | .write src n i, r =>
    if r < 0 then some (.out, .ret (-1))
    else if r ≠ (min (n - i) MAXCHUNK : Nat) then none
    else if i + min (n - i) MAXCHUNK < n then some (.ilock (.write src n (i + min (n - i) MAXCHUNK)), .none)
    else some (.out, .ret n)

def sharedStep [DecidableEq ι] (inum : Nat) : Machine (Shared ι) (SharedEvent sb inum ι) SharedOutput := fun s e =>
  match e with
  | .fileread p n =>
    match s.place p with
    | .out => if s.f.readable = false then some (s, .ret (-1)) else some (s.goto p (.ilock (.read n)), .none)
    | _ => none
  | .filewrite p src n =>
    match s.place p with
    | .out =>
      if s.f.writable = false then some (s, .ret (-1))
      else if 0 < n then some (s.goto p (.ilock (.write src n.toNat 0)), .none)
      else some (s, .ret (if n = 0 then n else -1))
    | _ => none
  | .step p =>
    match s.place p with
    | .out => none
    | .ilock c => if s.lock = none then some ({ s.goto p (.transfer c) with lock := some p }, .none) else none
    | .transfer c =>
      match transfer sb devsw s.fs s.f c with
      | .ok (fs, r, data) => some ({ s.goto p (.advance c r) with fs := fs }, .data data)
      | .error _ => none
    | .advance c r => some ({ s.goto p (.iunlock c r) with f := advance s.f r }, .none)
    | .iunlock c r =>
      match resume c r with
      | some (x, o) => some ({ s.goto p x with lock := none }, o)
      | none => none
  | .rest r => some ({ s with fs := r.run s.fs }, .none)

-- The bytes that a process has transferred under one lock.
structure Chunk (ι : Type) where
  proc : ι
  writes : Bool
  off : Nat
  n : Nat

-- The history of the chunks.
def chunks {sb : Superblock} {inum : Nat} (s : Shared ι) (e : SharedEvent sb inum ι) (s' : Shared ι) (h : List (Chunk ι))
    : List (Chunk ι) :=
  match e with
  | .step p =>
    match s.place p, s'.place p with
    | .transfer c, .advance _ r => if 0 < r then h ++ [⟨p, c.writes, s.f.off, r.toNat⟩] else h
    | _, _ => h
  | _ => h

def Place.locked : Place → Bool
  | .out => false
  | .ilock _ => false
  | _ => true

-- What has been transferred and not yet been added to `f->off`.
def Place.pending : Place → Nat
  | .advance _ r => r.toNat
  | _ => 0

namespace Shared

def pending (s : Shared ι) : Nat :=
  match s.lock with
  | some p => (s.place p).pending
  | none => 0

def bytes (s : Shared ι) : List UInt8 :=
  content s.fs.disk (s.fs.ino s.f.ip)

end Shared

def Consecutive (start : Nat) : List (Chunk ι) → Prop
  | [] => True
  | c :: h => c.off = start ∧ Consecutive (start + c.n) h

def total (h : List (Chunk ι)) : Nat :=
  (h.map Chunk.n).sum

/--
The chunks follow each other without gaps and none of them overlaps another. `f->off` is where they end, apart from what
the process with the lock has not yet added to it.
-/
structure Apart (start : Nat) (x : Shared ι × List (Chunk ι)) : Prop where
  consecutive : Consecutive start x.2
  disjoint : x.2.Pairwise fun c d => c.off + c.n ≤ d.off
  off : x.1.f.off + x.1.pending = start + total x.2
  settled : x.1.lock = none → x.1.f.off = start + total x.2

/-- The bytes of the file between `f.off` and `f.off + r` are the ones that a call reads or replaces. -/
def Moves (c : Call) (off : Nat) (r : Int) (data old new : List UInt8) : Prop :=
  match c with
  | .read _ => new = old ∧ data = (old.drop off).take r.toNat
  | .write src _ i => new = if r < 0 then old else overwrite old (fun k => src (i + k)) off r.toNat

/--
What a step does to the file: the locked sections move their own chunk, nothing else here changes the file, and the bytes
of the earlier chunks stay as they are.
-/
def Transfers {sb : Superblock} {inum : Nat} (x : Shared ι × List (Chunk ι)) (e : SharedEvent sb inum ι)
    (o : SharedOutput) (x' : Shared ι × List (Chunk ι)) : Prop :=
  match e with
  | .rest _ => True
  | .step p =>
    match x.1.place p, x'.1.place p, o with
    | .transfer c, .advance _ r, .data data =>
      Moves c x.1.f.off r data x.1.bytes x'.1.bytes ∧
      ∀ d ∈ x.2, ∀ k, d.off ≤ k → k < d.off + d.n → x'.1.bytes.getD k 0 = x.1.bytes.getD k 0
    | _, _, _ => x'.1.bytes = x.1.bytes
  | _ => x'.1.bytes = x.1.bytes

section

variable {sb} {devsw} {s s' : State} {f : File} {c : Call} {r : Int} {data : List UInt8} {start : Nat}
  {h : List (Chunk ι)}

theorem total_snoc (h : List (Chunk ι)) (c : Chunk ι) : total (h ++ [c]) = total h + c.n := by
  simp [total]

theorem Consecutive.snoc {d : Chunk ι} (hc : Consecutive start h) (hd : d.off = start + total h)
    : Consecutive start (h ++ [d]) := by
  induction h generalizing start with
  | nil =>
    simp only [total, List.map_nil, List.sum_nil, Nat.add_zero] at hd
    exact ⟨hd, trivial⟩
  | cons c h ih =>
    refine ⟨hc.1, ih hc.2 ?_⟩
    simp only [total, List.map_cons, List.sum_cons] at hd ⊢
    omega

theorem Consecutive.bounds {d : Chunk ι} (hc : Consecutive start h) (hd : d ∈ h)
    : start ≤ d.off ∧ d.off + d.n ≤ start + total h := by
  induction h generalizing start with
  | nil => cases hd
  | cons c h ih =>
    obtain ⟨hoff, hrest⟩ := hc
    simp only [total, List.map_cons, List.sum_cons] at ih ⊢
    rcases List.mem_cons.mp hd with rfl | hd
    . omega
    . have := ih hrest hd
      omega

theorem Consecutive.disjoint (hc : Consecutive start h) : h.Pairwise fun c d => c.off + c.n ≤ d.off := by
  induction h generalizing start with
  | nil => exact List.Pairwise.nil
  | cons c h ih =>
    obtain ⟨hoff, hrest⟩ := hc
    refine List.Pairwise.cons ?_ (ih hrest)
    intro d hd
    have := (hrest.bounds hd).1
    omega

structure TransferSpec (sb : Superblock) (s : State) (f : File) (c : Call) (s' : State) (r : Int) (data : List UInt8)
    : Prop where
  wf : WellFormed sb s'
  isFile : s'.isFile sb f.ip
  lt : f.off + r.toNat < 2 ^ 32
  moves : Moves c f.off r data (content s.disk (s.ino f.ip)) (content s'.disk (s'.ino f.ip))

theorem transfer_read {n : Int} (hs : WellFormed sb s) (hf : s.isFile sb f.ip) (hoff : f.off < 2 ^ 32)
    (ht : transfer sb devsw s f (.read n) = .ok (s', r, data))
    : TransferSpec sb s f (.read n) s' r data := by
  obtain ⟨hi, htype, hdev⟩ := hf
  have hn : (n % 2 ^ 32).toNat < 2 ^ 32 := by omega
  unfold transfer at ht
  dsimp only at ht
  rw [readi_spec hs hi htype hdev hoff hn] at ht
  split at ht
  . next hin =>
    cases ht
    refine ⟨?_, ?_, ?_, ?_, ?_⟩
    . dsimp only
      rw [Function.update_eq_self]
      exact hs
    . rw [Function.update_eq_self]
      exact ⟨hi, htype, hdev⟩
    . dsimp only
      rw [Int.toNat_natCast]
      omega
    . dsimp only
      rw [Function.update_self]
    . rw [Int.toNat_natCast, ← content_length s.disk, ← List.length_drop, List.take_eq_take_min]
  . cases ht
    refine ⟨?_, ?_, ?_, ?_, rfl⟩
    . rw [Function.update_eq_self]
      exact hs
    . rw [Function.update_eq_self]
      exact ⟨hi, htype, hdev⟩
    . exact hoff
    . dsimp only
      rw [Function.update_self]

theorem transfer_write {src : Memory} {n i : Nat} (hs : WellFormed sb s) (hf : s.isFile sb f.ip)
    (hoff : f.off < 2 ^ 32) (ht : transfer sb devsw s f (.write src n i) = .ok (s', r, data))
    : TransferSpec sb s f (.write src n i) s' r data := by
  obtain ⟨hi, htype, hdev⟩ := hf
  have hchunk : min (n - i) MAXCHUNK < 2 ^ 32 := Nat.lt_of_le_of_lt (Nat.min_le_right _ _) (by decide)
  unfold transfer at ht
  dsimp only at ht
  by_cases hacc : Accepts (s.ino f.ip).size f.off (min (n - i) MAXCHUNK)
  . obtain ⟨w, hw, ht⟩ := bind_eq_ok ht
    cases ht
    obtain ⟨hret, hwf, -, htype', -, hcontent⟩ := writei_spec hs hi htype hdev hacc hw
    refine ⟨hwf, ?_, ?_, ?_⟩
    . refine ⟨hi, ?_, ?_⟩
      . dsimp only
        rwa [Function.update_self, htype']
      . dsimp only
        rwa [Function.update_self, htype']
    . rw [hret, Int.toNat_natCast]
      exact hacc.2.1
    . unfold Moves
      dsimp only
      rw [Function.update_self, hcontent, hret, Int.toNat_natCast, if_neg (by omega)]
  . rw [writei_rejects hdev hoff hchunk hacc] at ht
    cases ht
    refine ⟨?_, ?_, hoff, ?_⟩
    . rw [Function.update_eq_self]
      exact hs
    . rw [Function.update_eq_self]
      exact ⟨hi, htype, hdev⟩
    . unfold Moves
      dsimp only
      rw [Function.update_self, if_pos (by decide)]

theorem transfer_spec (hs : WellFormed sb s) (hf : s.isFile sb f.ip) (hoff : f.off < 2 ^ 32)
    (ht : transfer sb devsw s f c = .ok (s', r, data))
    : TransferSpec sb s f c s' r data := by
  cases c with
  | read n => exact transfer_read hs hf hoff ht
  | write src n i => exact transfer_write hs hf hoff ht

theorem advance_off (h : f.off + r.toNat < 2 ^ 32) : (advance f r).off = f.off + r.toNat := by
  unfold advance
  split
  . exact Nat.mod_eq_of_lt h
  . omega

theorem advance_ip (f : File) (r : Int) : (advance f r).ip = f.ip := by
  unfold advance
  split <;> rfl

theorem Moves.keeps {off k : Nat} {old new : List UInt8} (hm : Moves c off r data old new) (hk : k < off)
    : new.getD k 0 = old.getD k 0 := by
  unfold Moves at hm
  cases c with
  | read n =>
    dsimp only at hm
    rw [hm.1]
  | write src n i =>
    dsimp only at hm
    rw [hm]
    split
    . rfl
    . rw [overwrite_getD, if_neg (by omega)]

end

section

variable {sb} {devsw} {inum start : Nat} {s s' : Shared ι} {h : List (Chunk ι)} {o : SharedOutput} {p : ι}

namespace Shared

theorem pending_some (hlock : s.lock = some p) : s.pending = (s.place p).pending := by
  simp only [pending, hlock]

theorem pending_none (hlock : s.lock = none) : s.pending = 0 := by
  simp only [pending, hlock]

theorem pending_goto [DecidableEq ι] {x : Place} (hold : (s.place p).pending = 0) (hnew : x.pending = 0)
    : (s.goto p x).pending = s.pending := by
  simp only [pending, goto]
  cases s.lock with
  | none => rfl
  | some q =>
    dsimp only
    by_cases hq : q = p
    . rw [hq, Function.update_self, hold, hnew]
    . rw [Function.update_of_ne hq]

end Shared

structure SharedInv (sb : Superblock) (inum start : Nat) (x : Shared ι × List (Chunk ι)) : Prop where
  wf : WellFormed sb x.1.fs
  isFile : x.1.fs.isFile sb inum
  ip : x.1.f.ip = inum
  lock : ∀ p, (x.1.place p).locked = true → x.1.lock = some p
  consecutive : Consecutive start x.2
  off : x.1.f.off + x.1.pending = start + total x.2
  lt : x.1.f.off + x.1.pending < 2 ^ 32

namespace SharedInv

theorem apart {x : Shared ι × List (Chunk ι)} (hx : SharedInv sb inum start x) : Apart start x where
  consecutive := hx.consecutive
  disjoint := hx.consecutive.disjoint
  off := hx.off
  settled hlock := by
    have := hx.off
    rwa [Shared.pending_none hlock] at this

theorem rest (hx : SharedInv sb inum start (s, h)) (r : Rest sb inum)
    : SharedInv sb inum start ({ s with fs := r.run s.fs }, h) :=
  ⟨r.wf _ hx.wf, r.isFile _ hx.wf hx.isFile, hx.ip, hx.lock, hx.consecutive, hx.off, hx.lt⟩

variable [DecidableEq ι]

theorem goto {x : Place} (hx : SharedInv sb inum start (s, h)) (hold : (s.place p).pending = 0)
    (hlocked : x.locked = false) (hnew : x.pending = 0)
    : SharedInv sb inum start (s.goto p x, h) where
  wf := hx.wf
  isFile := hx.isFile
  ip := hx.ip
  lock q hq := by
    apply hx.lock
    by_cases hqp : q = p
    . simp only [Shared.goto, hqp, Function.update_self, hlocked] at hq
      cases hq
    . simpa only [Shared.goto, Function.update_of_ne hqp] using hq
  consecutive := hx.consecutive
  off := by
    rw [Shared.pending_goto hold hnew]
    exact hx.off
  lt := by
    rw [Shared.pending_goto hold hnew]
    exact hx.lt

theorem ilock (hx : SharedInv sb inum start (s, h)) (hlock : s.lock = none) {c : Call}
    : SharedInv sb inum start ({ s.goto p (.transfer c) with lock := some p }, h) := by
  have hold := Shared.pending_none hlock
  have hnew : ({ s.goto p (.transfer c) with lock := some p } : Shared ι).pending = 0 := by
    rw [Shared.pending_some rfl]
    simp only [Shared.goto, Function.update_self]
    rfl
  refine ⟨hx.wf, hx.isFile, hx.ip, ?_, hx.consecutive, ?_, ?_⟩
  . intro q hq
    by_cases hqp : q = p
    . rw [hqp]
    . simp only [Shared.goto, Function.update_of_ne hqp] at hq
      have := hx.lock q hq
      dsimp only at this
      rw [hlock] at this
      cases this
  . have := hx.off
    dsimp only at this
    rw [hold] at this
    rw [hnew]
    exact this
  . have := hx.lt
    dsimp only at this
    rw [hold] at this
    rw [hnew]
    exact this

theorem lock_of_locked (hx : SharedInv sb inum start (s, h)) (hp : s.lock = some p) (x : Place) {q : ι}
    (hq : (Function.update s.place p x q).locked = true)
    : s.lock = some q := by
  by_cases hqp : q = p
  . rw [hqp, hp]
  . rw [Function.update_of_ne hqp] at hq
    exact hx.lock q hq

theorem transferred {c : Call} {fs : State} {r : Int} {data : List UInt8} (hx : SharedInv sb inum start (s, h))
    (hp : s.place p = .transfer c) (hspec : TransferSpec sb s.fs s.f c fs r data)
    : SharedInv sb inum start ({ s.goto p (.advance c r) with fs := fs },
        if 0 < r then h ++ [⟨p, c.writes, s.f.off, r.toNat⟩] else h) := by
  have hlock : s.lock = some p := hx.lock p (by simp [hp, Place.locked])
  have hold : s.pending = 0 := by
    rw [Shared.pending_some hlock, hp]
    rfl
  have hnew : ({ s.goto p (.advance c r) with fs := fs } : Shared ι).pending = r.toNat := by
    simp only [Shared.pending, Shared.goto, hlock, Function.update_self, Place.pending]
  have hoff := hx.off
  dsimp only at hoff
  rw [hold] at hoff
  have hip : s.f.ip = inum := hx.ip
  refine ⟨hspec.wf, hip ▸ hspec.isFile, hip, fun q hq => hx.lock_of_locked hlock _ hq, ?_, ?_, ?_⟩
  . dsimp only
    split
    . exact hx.consecutive.snoc hoff
    . exact hx.consecutive
  . rw [hnew]
    dsimp only [Shared.goto]
    split
    . rw [total_snoc]
      dsimp only
      omega
    . omega
  . rw [hnew]
    exact hspec.lt

theorem advanced {c : Call} {r : Int} (hx : SharedInv sb inum start (s, h)) (hp : s.place p = .advance c r)
    : SharedInv sb inum start ({ s.goto p (.iunlock c r) with f := advance s.f r }, h) := by
  have hlock : s.lock = some p := hx.lock p (by simp [hp, Place.locked])
  have hold : s.pending = r.toNat := by
    rw [Shared.pending_some hlock, hp]
    rfl
  have hnew : ({ s.goto p (.iunlock c r) with f := advance s.f r } : Shared ι).pending = 0 := by
    simp only [Shared.pending, Shared.goto, hlock, Function.update_self, Place.pending]
  have hoff := hx.off
  have hlt := hx.lt
  dsimp only at hoff hlt
  rw [hold] at hoff hlt
  refine ⟨hx.wf, hx.isFile, ?_, fun q hq => hx.lock_of_locked hlock _ hq, hx.consecutive, ?_, ?_⟩
  . rw [advance_ip]
    exact hx.ip
  . rw [hnew]
    dsimp only
    rw [advance_off hlt]
    exact hoff
  . rw [hnew]
    dsimp only
    rw [advance_off hlt]
    exact hlt

theorem iunlock {c : Call} {r : Int} {x : Place} (hx : SharedInv sb inum start (s, h))
    (hp : s.place p = .iunlock c r) (hlocked : x.locked = false)
    : SharedInv sb inum start ({ s.goto p x with lock := none }, h) := by
  have hlock : s.lock = some p := hx.lock p (by simp [hp, Place.locked])
  have hold : s.pending = 0 := by
    rw [Shared.pending_some hlock, hp]
    rfl
  have hnew : ({ s.goto p x with lock := none } : Shared ι).pending = 0 := Shared.pending_none rfl
  refine ⟨hx.wf, hx.isFile, hx.ip, ?_, hx.consecutive, ?_, ?_⟩
  . intro q hq
    by_cases hqp : q = p
    . simp only [Shared.goto, hqp, Function.update_self, hlocked] at hq
      cases hq
    . simp only [Shared.goto, Function.update_of_ne hqp] at hq
      have := hx.lock q hq
      dsimp only at this
      rw [hlock, Option.some.injEq] at this
      exact absurd this.symm hqp
  . rw [hnew, ← hold]
    exact hx.off
  . rw [hnew, ← hold]
    exact hx.lt

end SharedInv

theorem resume_locked {c : Call} {r : Int} {x : Place} (h : resume c r = some (x, o)) : x.locked = false := by
  unfold resume at h
  cases c with
  | read n =>
    cases h
    rfl
  | write src n i =>
    dsimp only at h
    split at h
    . cases h
      rfl
    . split at h
      . cases h
      . split at h
        . cases h
          rfl
        . cases h
          rfl

section

theorem chunks_of_ne (s' : Shared ι) (h : List (Chunk ι)) (hp : ∀ c, s.place p ≠ .transfer c)
    : chunks s (.step p : SharedEvent sb inum ι) s' h = h := by
  unfold chunks
  dsimp only
  split
  . next c _ _ hc _ => exact absurd hc (hp c)
  . rfl

theorem transfers_of_ne {h h' : List (Chunk ι)} (o : SharedOutput) (hp : ∀ c, s.place p ≠ .transfer c)
    (hbytes : s'.bytes = s.bytes)
    : Transfers (s, h) (.step p : SharedEvent sb inum ι) o (s', h') := by
  unfold Transfers
  dsimp only
  split
  . next c _ _ _ hc _ => exact absurd hc (hp c)
  . exact hbytes

theorem shared_inv [DecidableEq ι] {e : SharedEvent sb inum ι} (hx : SharedInv sb inum start (s, h))
    (hstep : sharedStep sb devsw inum s e = some (s', o))
    : SharedInv sb inum start (s', chunks s e s' h) ∧ Transfers (s, h) e o (s', chunks s e s' h) := by
  cases e with
  | fileread p n =>
    simp only [sharedStep] at hstep
    split at hstep
    . next hp =>
      split at hstep
      . cases hstep
        exact ⟨hx, rfl⟩
      . cases hstep
        exact ⟨hx.goto (by rw [hp]; rfl) rfl rfl, rfl⟩
    . cases hstep
  | filewrite p src n =>
    simp only [sharedStep] at hstep
    split at hstep
    . next hp =>
      split at hstep
      . cases hstep
        exact ⟨hx, rfl⟩
      . split at hstep
        . cases hstep
          exact ⟨hx.goto (by rw [hp]; rfl) rfl rfl, rfl⟩
        . cases hstep
          exact ⟨hx, rfl⟩
    . cases hstep
  | rest r =>
    cases hstep
    exact ⟨hx.rest r, trivial⟩
  | step p =>
    simp only [sharedStep] at hstep
    split at hstep
    . cases hstep
    . next c hp =>
      split at hstep
      . next hlock =>
        cases hstep
        have hne : ∀ c', s.place p ≠ .transfer c' := by simp [hp]
        rw [chunks_of_ne _ _ hne]
        exact ⟨hx.ilock hlock, transfers_of_ne _ hne rfl⟩
      . cases hstep
    . next c hp =>
      split at hstep
      . next fs r data htransfer =>
        cases hstep
        have hlt := hx.lt
        have hip : s.f.ip = inum := hx.ip
        dsimp only at hlt
        have hspec := transfer_spec hx.wf (hip ▸ hx.isFile) (by omega) htransfer
        have hplace : (s.goto p (.advance c r)).place p = .advance c r := Function.update_self _ _ _
        refine ⟨?_, ?_⟩
        . have := hx.transferred hp hspec
          simp only [chunks, hp, hplace]
          exact this
        . simp only [Transfers, hp, hplace]
          refine ⟨hspec.moves, ?_⟩
          intro d hd k _ hk
          apply hspec.moves.keeps
          have hbound := (hx.consecutive.bounds hd).2
          have hoff := hx.off
          have hlock : s.lock = some p := hx.lock p (by simp [hp, Place.locked])
          have hold : s.pending = 0 := by
            rw [Shared.pending_some hlock, hp]
            rfl
          dsimp only at hoff hbound
          omega
      . cases hstep
    . next c r hp =>
      cases hstep
      have hne : ∀ c', s.place p ≠ .transfer c' := by simp [hp]
      rw [chunks_of_ne _ _ hne]
      refine ⟨hx.advanced hp, transfers_of_ne _ hne ?_⟩
      simp only [Shared.bytes, advance_ip]
      rfl
    . next c r hp =>
      split at hstep
      . next x o' hresume =>
        cases hstep
        have hne : ∀ c', s.place p ≠ .transfer c' := by simp [hp]
        rw [chunks_of_ne _ _ hne]
        exact ⟨hx.iunlock hp (resume_locked hresume), transfers_of_ne _ hne rfl⟩
      . cases hstep

end

end

-- Nobody is in a call on `f`.
def Shared.init (fs : State) (f : File) : Shared ι where
  fs := fs
  f := f
  lock := none
  place := fun _ => .out

/--
Calls of `fileread` and `filewrite` on one open file, in any order and by any number of processes: the chunks that they
transfer lie next to each other, `f->off` is the sum of them, and none of them changes the bytes of an earlier one.
-/
theorem shared_offset [DecidableEq ι] (sb : Superblock) (devsw : Devsw) (fs : State) (f : File)
    (hfs : WellFormed sb fs) (hf : fs.isFile sb f.ip) (hoff : f.off < 2 ^ 32) (es : List (SharedEvent sb f.ip ι))
    : Machine.Always (Machine.watch (sharedStep sb devsw f.ip) chunks) (Apart f.off) (.init fs f, []) es ∧
      Machine.Along (Machine.watch (sharedStep sb devsw f.ip) chunks) Transfers (.init fs f, []) es := by
  have hinit : SharedInv sb f.ip f.off (Shared.init fs f, ([] : List (Chunk ι))) :=
    ⟨hfs, hf, rfl, nofun, trivial, rfl, hoff⟩
  have hstep : ∀ x (e : SharedEvent sb f.ip ι) o x', SharedInv sb f.ip f.off x →
      Machine.watch (sharedStep sb devsw f.ip) chunks x e = some (x', o) →
        SharedInv sb f.ip f.off x' ∧ Transfers x e o x' := by
    intro x e o x' hx hwatch
    obtain ⟨hs, hh⟩ := Machine.watch_eq_some hwatch
    obtain ⟨s', h'⟩ := x'
    dsimp only at hs hh
    subst hh
    exact shared_inv hx hs
  constructor
  . refine ⟨hinit.apart, ?_⟩
    apply Machine.along_of_invariant _ hinit (Machine.along_true _ es)
    intro x e o x' hx hwatch _
    obtain ⟨hx', -⟩ := hstep x e o x' hx hwatch
    exact ⟨hx'.apart, hx'⟩
  . apply Machine.along_of_invariant _ hinit (Machine.along_true _ es)
    intro x e o x' hx hwatch _
    obtain ⟨hx', htransfers⟩ := hstep x e o x' hx hwatch
    exact ⟨htransfers, hx'⟩

-- Two processes with a file that is still empty.
def emptyFile : File where
  type := .inode
  ref := 2
  readable := true
  writable := true
  pipe := 0
  ip := 2
  off := 0

theorem emptyFile_isFile : fresh.isFile mkfsLayout emptyFile.ip := by
  unfold State.isFile
  rw [show fresh.ino emptyFile.ip = emptyInode T_FILE from fresh_ino (i := 2) (by decide)]
  decide

theorem shared_offset_fresh
    : Machine.Always (Machine.watch (sharedStep mkfsLayout noDevsw emptyFile.ip) chunks) (Apart 0)
        (Shared.init fresh emptyFile, [])
        [.filewrite true (fun _ => 1) 2000, .filewrite false (fun _ => 2) 10, .step true, .step true, .step true,
          .step true, .step false, .step false, .step false, .step false, .step true, .step true, .step true,
          .step true] :=
  (shared_offset mkfsLayout noDevsw fresh emptyFile fresh_wf emptyFile_isFile (by decide) _).1

end Xv6.Fs
