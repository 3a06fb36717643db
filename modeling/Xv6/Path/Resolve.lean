import Xv6.Fs.Dir
import Xv6.Path.Cache
import Xv6.Path.Elems

/-!
What path names resolve to.
-/

namespace Xv6.Path

open Fs

variable {sb : Superblock} {devsw : Devsw} {s : Fs.State} {k0 k k' : Kernel} {d i cwd : Nat}
  {path name e : List UInt8} {cs : List (List UInt8)}

/-- The directories form a tree: whatever they name is allocated, and nobody frees it. -/
structure Tree (sb : Superblock) (s : Fs.State) (k : Kernel) : Prop where
  root : s.isDir sb ROOTINO ∧ Kept s k ROOTINO
  size : ∀ d, s.isDir sb d → DIRENT ∣ (s.ino d).size
  entries : ∀ d, s.isDir sb d → ∀ j < s.nent d, entryInum (s.dir d) j ≠ 0 →
    entryInum (s.dir d) j < sb.ninodes ∧ (s.ino (entryInum (s.dir d) j)).type ≠ 0 ∧ Kept s k (entryInum (s.dir d) j)

/-- The inode that the names lead to from the inode `d`. -/
def walk (s : Fs.State) : Nat → List (List UInt8) → Option Nat
  | d, [] => some d
  | d, e :: cs =>
    if (s.ino d).type ≠ T_DIR then none
    else if s.names d (key e) = 0 then none
    else walk s (s.names d (key e)) cs

/-- The directory in which the last one of the names is looked up. -/
def walkParent (s : Fs.State) (d : Nat) (cs : List (List UInt8)) : Option Nat :=
  if cs = [] then none
  else (walk s d cs.dropLast).filter fun p => (s.ino p).type = T_DIR

theorem walkParent_cons (s : Fs.State) (d : Nat) (e : List UInt8) (cs : List (List UInt8))
    : walkParent s d (e :: cs) =
        if (s.ino d).type ≠ T_DIR then none
        else if cs = [] then some d
        else if s.names d (key e) = 0 then none
        else walkParent s (s.names d (key e)) cs := by
  cases cs with
  | nil =>
    simp only [walkParent, List.dropLast_singleton, walk, reduceCtorEq, if_false, Option.filter_some, if_true]
    by_cases htype : (s.ino d).type = T_DIR <;> simp [htype]
  | cons e' cs =>
    simp only [walkParent, List.dropLast_cons_cons, walk, reduceCtorEq, if_false]
    split
    . rfl
    . split <;> rfl

theorem names_cases (devsw : Devsw) (hs : WellFormed sb s) (hd : IsDir sb s d) (name : List UInt8)
    : (s.names d (key name) = 0 ∧ Fs.dirlookup sb devsw s.disk (s.ino d) name = .ok (s.disk, s.ino d, none)) ∨
      ∃ j < s.nent d, s.names d (key name) = entryInum (s.dir d) j ∧ entryInum (s.dir d) j ≠ 0 ∧
        Fs.dirlookup sb devsw s.disk (s.ino d) name =
          .ok (s.disk, s.ino d, some (entryInum (s.dir d) j, DIRENT * j)) := by
  rw [dirlookup_spec devsw hs hd name]
  unfold State.names Slots.get
  cases hfind : Slots.find (s.nent d) (entryKey (s.dir d)) (entryInum (s.dir d)) (key name) with
  | none => exact .inl ⟨rfl, rfl⟩
  | some j =>
    obtain ⟨hj, hne, -⟩ := Slots.find_eq_some hfind
    exact .inr ⟨j, hj, rfl, hne, rfl⟩

-- At most one entry of the cache can be used.
def Full (k : Kernel) : Prop :=
  ∃ i, ∀ j < NINODE, j ≠ i → 0 < (k.icache j).ref

/-- The inode that the call returns with a reference to it, or a panic because the cache is full. -/
def Returns (sb : Superblock) (s : Fs.State) (k0 : Kernel) (goal : Option Nat) (P : List UInt8 → Prop)
    (result : Except Stop (Kernel × Option Nat × List UInt8)) : Prop :=
  (result = .error (.panic "iget: no inodes") ∧ Full k0) ∨
    ∃ k r name, result = .ok (k, r, name) ∧ Holds sb s k0 r.toList none k ∧
      r.map (fun i => (k.icache i).inum) = goal ∧ (r.isSome → P name)

theorem Returns.mono {goal : Option Nat} {P Q : List UInt8 → Prop}
    {result : Except Stop (Kernel × Option Nat × List UInt8)} (h : Returns sb s k0 goal P result) (hPQ : ∀ name, P name → Q name)
    : Returns sb s k0 goal Q result := by
  rcases h with h | ⟨k, r, name, hok, hholds, hgoal, hname⟩
  . exact .inl h
  . exact .inr ⟨k, r, name, hok, hholds, hgoal, fun hr => hPQ name (hname hr)⟩

-- What `dirlookup` does in a directory that is locked.
inductive LooksUp (sb : Superblock) (s : Fs.State) (k0 : Kernel) (i d : Nat) (name : List UInt8) (k : Kernel)
    : Except Stop (Kernel × Option Nat) → Prop where
  | missing (hzero : s.names d (key name) = 0) : LooksUp sb s k0 i d name k (.ok (k, none))
  | full (hfull : Full k0) (hne : s.names d (key name) ≠ 0)
    : LooksUp sb s k0 i d name k (.error (.panic "iget: no inodes"))
  | found {k' : Kernel} {j : Nat} (hne : s.names d (key name) ≠ 0) (h : Holds sb s k0 [i, j] (some i) k')
    (hinum : (k'.icache j).inum = s.names d (key name)) : LooksUp sb s k0 i d name k (.ok (k', some j))

theorem Holds.dirlookup (devsw : Devsw) (name : List UInt8) (h : Holds sb s k0 [i] (some i) k) (hs : WellFormed sb s)
    (ht : Tree sb s k0) (hd : s.isDir sb d) (hip : (k.icache i).ip = s.ino d)
    : LooksUp sb s k0 i d name k (dirlookup sb devsw k i name) := by
  have hdisk := h.consistent.disk
  unfold Path.dirlookup
  rw [hdisk, hip]
  rcases names_cases devsw hs ⟨hd.1, hd.2, ht.size d hd⟩ name with ⟨hzero, hlookup⟩ | ⟨j, hj, hnames, hne, hlookup⟩
  . rw [hlookup]
    dsimp only
    rw [← hip, k.set_eq, ← hdisk]
    exact .missing hzero
  . rw [hlookup]
    dsimp only
    rw [← hip, k.set_eq, ← hdisk, ← hnames]
    obtain ⟨hlt, htype, hkept⟩ := ht.entries d hd j hj hne
    rw [← hnames] at hlt htype hkept hne
    rcases h.iget ⟨hlt, htype⟩ hkept with ⟨herror, hfull⟩ | ⟨k', next, hok, h', hinum⟩
    . rw [herror]
      exact .full ⟨i, fun j hj hji => hfull j hj (by simpa using hji)⟩ hne
    . rw [hok]
      exact .found hne (h'.perm (List.Perm.swap i next [])) hinum

theorem namexLoop_none {parent : Bool} (hskip : skipelem path name = none)
    : namexLoop sb devsw parent path name i k =
        if parent then do
          let k ← iput sb k i
          return (k, none, name)
        else .ok (k, some i, name) := by
  rw [namexLoop]
  split
  . rfl
  . next hsome =>
    rw [hskip] at hsome
    cases hsome

theorem namexLoop_some {parent : Bool} {path' name' : List UInt8} (hskip : skipelem path name = some (path', name'))
    : namexLoop sb devsw parent path name i k = (do
        let k ← ilock sb k i
        if (k.icache i).ip.type ≠ T_DIR then
          let k ← iunlockput sb k i
          return (k, none, name')
        else if parent ∧ path'.headD 0 = 0 then
          let k ← iunlock k i
          return (k, some i, name')
        else
          let (k, next) ← dirlookup sb devsw k i name'
          match next with
          | none =>
            let k ← iunlockput sb k i
            return (k, none, name')
          | some next =>
            let k ← iunlockput sb k i
            namexLoop sb devsw parent path' name' next k) := by
  rw [namexLoop]
  split
  . next hnone =>
    rw [hskip] at hnone
    cases hnone
  . next hsome =>
    rw [hskip] at hsome
    cases hsome
    rfl

theorem namexLoop_spec (parent : Bool) (hs : WellFormed sb s) (ht : Tree sb s k0) (hcs : components path = cs)
    (h : Holds sb s k0 [i] none k) (hd : (k.icache i).inum = d)
    : Returns sb s k0 (if parent then walkParent s d cs else walk s d cs)
        (fun name => parent = true → cs.getLast? = some (nameOf name)) (namexLoop sb devsw parent path name i k) := by
  induction cs generalizing path name i k d with
  | nil =>
    rw [namexLoop_none (skipelem_none hcs name)]
    cases parent with
    | false => exact .inr ⟨k, some i, name, rfl, h, congrArg some hd, nofun⟩
    | true =>
      obtain ⟨k', hput, h', -⟩ := h.iput
      refine .inr ⟨k', none, name, ?_, h', rfl, nofun⟩
      rw [if_pos rfl, hput]
      rfl
  | cons e cs ih =>
    obtain ⟨path', name', hskip, hpath, hname, hend⟩ := skipelem_some hcs name
    obtain ⟨k1, hlock, h1, hstays1, hip⟩ := h.ilock hs List.mem_cons_self
    have hlive := h.consistent.live i (h.lt i List.mem_cons_self) (h.ref_pos List.mem_cons_self)
    rw [hd] at hip hlive
    rw [namexLoop_some hskip, hlock, walkParent_cons, walk, Outcome.ok_bind, hip]
    by_cases htype : (s.ino d).type = T_DIR
    . rw [if_neg (not_not_intro htype), if_neg (not_not_intro htype), if_neg (not_not_intro htype)]
      have hlookup := h1.dirlookup devsw name' hs ht ⟨hlive.1, htype⟩ hip
      have hkey : key name' = key e := by
        rw [← hname, key_nameOf]
      by_cases hstop : parent = true ∧ cs = []
      . obtain ⟨rfl, rfl⟩ := hstop
        obtain ⟨k2, hunlock, h2, hstays2⟩ := h1.iunlock List.mem_cons_self
        rw [if_pos (c := true = true ∧ path'.headD 0 = 0) ⟨rfl, hend.mpr rfl⟩, hunlock]
        refine .inr ⟨k2, some i, name', rfl, h2, ?_, ?_⟩
        . rw [if_pos rfl, if_pos rfl, Option.map_some, hstays2 i, hstays1 i, hd]
        . intro _ _
          rw [hname]
          rfl
      . have hgoal : (if parent = true then
            if cs = [] then some d
            else if s.names d (key e) = 0 then none else walkParent s (s.names d (key e)) cs
          else if s.names d (key e) = 0 then none else walk s (s.names d (key e)) cs) =
            if s.names d (key e) = 0 then none
            else if parent then walkParent s (s.names d (key e)) cs else walk s (s.names d (key e)) cs := by
          cases parent with
          | false => rfl
          | true => rw [if_pos rfl, if_neg fun hnil => hstop ⟨rfl, hnil⟩, if_pos rfl]
        rw [hgoal, if_neg (c := parent = true ∧ path'.headD 0 = 0) (by rwa [hend]), ← hkey]
        generalize dirlookup sb devsw k1 i name' = result at hlookup
        cases hlookup with
        | missing hzero =>
          obtain ⟨k2, hput, h2, -⟩ := h1.iunlockput
          rw [if_pos hzero]
          refine .inr ⟨k2, none, name', ?_, h2, rfl, nofun⟩
          rw [Outcome.ok_bind]
          dsimp only
          rw [hput]
          rfl
        | full hfull hne => exact .inl ⟨rfl, hfull⟩
        | found hne h2 hinum =>
          obtain ⟨k3, hput, h3, hstays3⟩ := h2.iunlockput
          rw [if_neg hne, Outcome.ok_bind]
          dsimp only
          rw [hput, Outcome.ok_bind]
          apply (ih hpath h3 ((hstays3 _).trans hinum)).mono
          intro name hlast hparent
          rw [List.getLast?_cons_of_ne_nil fun hnil => hstop ⟨hparent, hnil⟩]
          exact hlast hparent
    . rw [if_pos htype, if_pos htype, if_pos htype]
      obtain ⟨k2, hput, h2, -⟩ := h1.iunlockput
      refine .inr ⟨k2, none, name', ?_, h2, ?_, nofun⟩
      . rw [hput]
        rfl
      . split <;> rfl

-- The inode that the path starts from.
def start (k : Kernel) (cwd : Nat) (path : List UInt8) : Nat :=
  if path.headD 0 = SLASH then ROOTINO else (k.icache cwd).inum

theorem namex_spec (devsw : Devsw) (parent : Bool) (hs : WellFormed sb s) (hc : Consistent sb s k) (hu : Unlocked k)
    (ht : Tree sb s k) (hcwd : cwd < NINODE) (hpos : 0 < (k.icache cwd).ref) (path name : List UInt8)
    : Returns sb s k
        (if parent then walkParent s (start k cwd path) (components path)
          else walk s (start k cwd path) (components path))
        (fun name => parent = true → (components path).getLast? = some (nameOf name))
        (namex sb devsw parent cwd path name k) := by
  have hstart := Holds.start hc hu
  unfold namex start
  by_cases hslash : path.headD 0 = SLASH
  . have hroot : (s.ino ROOTINO).type ≠ 0 := by
      rw [ht.root.1.2]
      decide
    rw [if_pos hslash, if_pos hslash]
    rcases hstart.iget ⟨ht.root.1.1, hroot⟩ ht.root.2 with ⟨herror, hfull⟩ | ⟨k', i, hok, h, hinum⟩
    . rw [herror]
      exact .inl ⟨rfl, 0, fun j hj _ => hfull j hj List.not_mem_nil⟩
    . rw [hok]
      exact namexLoop_spec parent hs ht rfl h hinum
  . have h := hstart.share hcwd hpos (.inr hpos)
    rw [if_neg hslash, if_neg hslash]
    apply namexLoop_spec parent hs ht rfl h
    rw [Kernel.set_self]

/-- The call has changed nothing, except that it returns a reference. -/
structure Returned (sb : Superblock) (s : Fs.State) (k0 : Kernel) (r : Option Nat) (k : Kernel) : Prop where
  consistent : Consistent sb s k
  unlocked : Unlocked k
  ref : ∀ i, (k.icache i).ref = (k0.icache i).ref + if r = some i then 1 else 0
  same : ∀ i, 0 < (k0.icache i).ref → (k.icache i).inum = (k0.icache i).inum

theorem Holds.returned {r : Option Nat} (h : Holds sb s k0 r.toList none k) : Returned sb s k0 r k where
  consistent := h.consistent
  unlocked i := h.lock i
  ref i := by
    rw [h.ref]
    cases r with
    | none => rfl
    | some j =>
      rw [Option.toList_some, List.count_singleton]
      simp
  same := h.same

/-- The inode, or a panic because the cache is full. -/
def Resolves (sb : Superblock) (s : Fs.State) (k0 : Kernel) (goal : Option Nat)
    (result : Except Stop (Kernel × Option Nat)) : Prop :=
  (result = .error (.panic "iget: no inodes") ∧ Full k0) ∨
    ∃ k r, result = .ok (k, r) ∧ Returned sb s k0 r k ∧ r.map (fun i => (k.icache i).inum) = goal

/-- Path names are resolved by looking up their components one after the other. -/
theorem path_resolution (sb : Superblock) (devsw : Devsw) (s : Fs.State) (k : Kernel) (cwd : Nat) (hs : WellFormed sb s)
    (hc : Consistent sb s k) (hu : Unlocked k) (ht : Tree sb s k) (hcwd : cwd < NINODE) (hpos : 0 < (k.icache cwd).ref)
    (path name : List UInt8)
    : elems path name = components path ∧
      Resolves sb s k (walk s (start k cwd path) (components path)) (namei sb devsw cwd path name k) ∧
      Resolves sb s k (walkParent s (start k cwd path) (components path))
        ((nameiparent sb devsw cwd path name k).map fun x => (x.1, x.2.1)) ∧
      ∀ k' i name', nameiparent sb devsw cwd path name k = .ok (k', some i, name') →
        (components path).getLast? = some (nameOf name') := by
  refine ⟨elems_eq path name, ?_, ?_, ?_⟩
  . unfold namei
    rcases namex_spec devsw false hs hc hu ht hcwd hpos path name with
      ⟨herror, hfull⟩ | ⟨k', r, name', hok, h, hgoal, -⟩
    . rw [herror]
      exact .inl ⟨rfl, hfull⟩
    . rw [hok]
      exact .inr ⟨k', r, rfl, h.returned, hgoal⟩
  . unfold nameiparent
    rcases namex_spec devsw true hs hc hu ht hcwd hpos path name with
      ⟨herror, hfull⟩ | ⟨k', r, name', hok, h, hgoal, -⟩
    . rw [herror]
      exact .inl ⟨rfl, hfull⟩
    . rw [hok]
      exact .inr ⟨k', r, rfl, h.returned, hgoal⟩
  . intro k' i name' hreturns
    unfold nameiparent at hreturns
    rcases namex_spec devsw true hs hc hu ht hcwd hpos path name with
      ⟨herror, -⟩ | ⟨k1, r, name1, hok, -, -, hname⟩
    . rw [herror] at hreturns
      cases hreturns
    . rw [hok] at hreturns
      cases hreturns
      exact hname rfl rfl

def noDevices : Devsw :=
  ⟨fun _ => none, fun _ => none⟩

-- The file `a` in the root directory.
def linked : Fs.State :=
  match dirCall mkfsLayout noDevices fresh (.dirlink ROOTINO [97] 2) with
  | .ok (s, _) => s
  | .error _ => fresh

theorem linked_inv : ∃ h, DirInv mkfsLayout (linked, h) := by
  have hsome : (dirCall mkfsLayout noDevices fresh (.dirlink ROOTINO [97] 2)).toOption.isSome = true := by
    decide +kernel
  have hroot : fresh.isDir mkfsLayout ROOTINO := by
    decide +kernel
  have hname : fresh.names ROOTINO (key [97]) = 0 := by
    decide +kernel
  cases hcall : dirCall mkfsLayout noDevices fresh (.dirlink ROOTINO [97] 2) with
  | error msg =>
    rw [hcall] at hsome
    cases hsome
  | ok x =>
    have heq : linked = x.1 := by
      unfold linked
      rw [hcall]
    rw [heq]
    exact ⟨_, (dirlink_inv (fresh_dirs.inv fresh_wf) hroot (by decide) (by decide) hname hcall).1⟩

-- A process in the inode `cwd`, and the entries of the cache behind its own.
def boot (disk : Disk) (cwd : Nat) (others : List Nat) : Kernel where
  disk := disk
  icache i := ⟨(cwd :: others).getD i 0, if i < (cwd :: others).length then 1 else 0, false, false, .zero⟩

theorem boot_ref_pos {disk : Disk} {others : List Nat} (h : 0 < ((boot disk cwd others).icache i).ref)
    : ((boot disk cwd others).icache i).inum ∈ cwd :: others := by
  simp only [boot] at *
  split at h
  . next hlt =>
    rw [List.getD_eq_getElem _ _ hlt]
    exact List.getElem_mem hlt
  . omega

theorem boot_consistent {others : List Nat}
    (h : ∀ inum ∈ cwd :: others, inum < sb.ninodes ∧ (s.ino inum).type ≠ 0)
    : Consistent sb s (boot s.disk cwd others) where
  disk := rfl
  live _ _ hpos := h _ (boot_ref_pos hpos)
  valid _ _ _ := nofun

theorem linked_tree (k : Kernel) : Tree mkfsLayout linked k := by
  obtain ⟨h, hinv⟩ := linked_inv
  have honly : ∀ d < 200, (linked.ino d).type = T_DIR → d = ROOTINO := by
    decide +kernel
  have hentries : ∀ j < linked.nent ROOTINO, entryInum (linked.dir ROOTINO) j = 2 := by
    decide +kernel
  refine ⟨⟨by decide +kernel, .inl (by decide +kernel)⟩, hinv.size, ?_⟩
  rintro d ⟨hlt, htype⟩ j hj -
  rw [honly d hlt htype] at hj ⊢
  rw [hentries j hj]
  exact ⟨by decide, by decide +kernel, .inl (by decide +kernel)⟩

theorem linked_boot : Consistent mkfsLayout linked (boot linked.disk ROOTINO []) := by
  apply boot_consistent
  intro inum hmem
  rw [List.mem_singleton] at hmem
  rw [hmem]
  decide +kernel

theorem path_resolution_linked
    : elems [47, 47, 97, 47] [] = components [47, 47, 97, 47] ∧
      Resolves mkfsLayout linked (boot linked.disk ROOTINO [])
        (walk linked (start (boot linked.disk ROOTINO []) 0 [47, 47, 97, 47]) (components [47, 47, 97, 47]))
        (namei mkfsLayout noDevices 0 [47, 47, 97, 47] [] (boot linked.disk ROOTINO [])) ∧
      Resolves mkfsLayout linked (boot linked.disk ROOTINO [])
        (walkParent linked (start (boot linked.disk ROOTINO []) 0 [47, 47, 97, 47]) (components [47, 47, 97, 47]))
        ((nameiparent mkfsLayout noDevices 0 [47, 47, 97, 47] [] (boot linked.disk ROOTINO [])).map
          fun x => (x.1, x.2.1)) ∧
      ∀ k' i name',
        nameiparent mkfsLayout noDevices 0 [47, 47, 97, 47] [] (boot linked.disk ROOTINO []) = .ok (k', some i, name') →
          (components [47, 47, 97, 47]).getLast? = some (nameOf name') :=
  path_resolution mkfsLayout noDevices linked (boot linked.disk ROOTINO []) 0 (linked_inv.elim fun _ hinv => hinv.wf)
    linked_boot (fun _ => rfl) (linked_tree _) (by decide) (by decide) [47, 47, 97, 47] []

-- A disk with the inodes 1 to 55 and nothing in them.
def crowdDisk : Disk := fun b =>
  if 32 ≤ b ∧ b < 39 then fun k =>
    if b = 32 ∧ k < 64 then 0 else (emptyInode (if b = 32 ∧ k < 192 then T_DIR else T_FILE)).bytes (k % 64)
  else if b = 58 then fun k => if k < 7 then 0xff else if k = 7 then 0x07 else 0
  else fun _ => 0

def crowd : Fs.State where
  disk := crowdDisk
  ino := dinode mkfsLayout crowdDisk

-- Behind `nlink` there is nothing in the inodes.
theorem crowd_zero {b j : Nat} (hb : b ≠ 58) (hj : 8 ≤ j % 64) : crowdDisk b j = 0 := by
  have hbyte : ∀ k, Bytes.byte 0 k = 0 := by
    intro k
    rw [Bytes.byte, Nat.zero_div]
    rfl
  unfold crowdDisk
  split
  . dsimp only
    split
    . rfl
    . unfold Dinode.bytes
      rw [if_neg (by omega), if_neg (by omega), if_neg (by omega), if_neg (by omega)]
      split
      . exact hbyte _
      . exact hbyte _
  . rfl

theorem crowd_get32 {i j : Nat} (hi : i < 200) (hj : 8 ≤ j) (hlt : j + 4 ≤ 64)
    : Bytes.get32 (crowdDisk (IBLOCK mkfsLayout i)) (DINODE * (i % IPB) + j) = 0 := by
  have hb : IBLOCK mkfsLayout i ≠ 58 := by
    change i / (512 / 64) + 32 ≠ 58
    omega
  have hzero : ∀ k < 4, crowdDisk (IBLOCK mkfsLayout i) (DINODE * (i % IPB) + j + k) = 0 := by
    intro k hk
    apply crowd_zero hb
    change 8 ≤ (64 * (i % IPB) + j + k) % 64
    omega
  have h0 := hzero 0 (by omega)
  rw [Nat.add_zero] at h0
  unfold Bytes.get32
  rw [h0, hzero 1 (by omega), hzero 2 (by omega), hzero 3 (by omega)]
  rfl

theorem crowd_size {i : Nat} (hi : i < 200) : (crowd.ino i).size = 0 :=
  crowd_get32 hi (Nat.le_refl 8) (by omega)

theorem crowd_wf : WellFormed mkfsLayout crowd := by
  apply wf_of_empty
  . intro b hb
    rw [bit_of_block rfl (by omega), decide_eq_true hb]
  . intro b hb hlo
    rw [bit_of_block rfl hb, decide_eq_false (by omega)]
  . intro i hi k
    by_cases hk : k ≤ NDIRECT
    . have hlt : 12 + 4 * k + 4 ≤ 64 := by
        unfold NDIRECT at hk
        omega
      have hzero := crowd_get32 (j := 12 + 4 * k) hi (by omega) hlt
      rw [← Nat.add_assoc] at hzero
      exact (if_pos hk).trans hzero
    . exact if_neg hk
  . exact fun i hi => crowd_size hi

theorem crowd_tree (k : Kernel) : Tree mkfsLayout crowd k := by
  have hsize : ∀ d < 200, (crowd.ino d).size = 0 := fun d hd => crowd_size hd
  refine ⟨⟨by decide +kernel, .inl (by decide +kernel)⟩, ?_, ?_⟩
  . rintro d ⟨hlt, -⟩
    rw [hsize d hlt]
    exact Nat.dvd_zero _
  . rintro d ⟨hlt, -⟩ j hj
    rw [State.nent, hsize d hlt] at hj
    cases hj

theorem crowd_boot : Consistent mkfsLayout crowd (boot crowd.disk 2 (List.range' 3 49)) := by
  apply boot_consistent
  decide +kernel

-- `a/x` with a file `a`, and a cache that is full.
theorem nameiparent_of_file
    : (WellFormed mkfsLayout linked ∧ Consistent mkfsLayout linked (boot linked.disk ROOTINO []) ∧
        Tree mkfsLayout linked (boot linked.disk ROOTINO []) ∧
        walk linked (start (boot linked.disk ROOTINO []) 0 [97, 47, 120]) (components [97, 47, 120]).dropLast = some 2 ∧
        (nameiparent mkfsLayout noDevices 0 [97, 47, 120] [] (boot linked.disk ROOTINO [])).map (fun x => x.2.1) =
          .ok none) ∧
      (WellFormed mkfsLayout crowd ∧ Consistent mkfsLayout crowd (boot crowd.disk 2 (List.range' 3 49)) ∧
        Tree mkfsLayout crowd (boot crowd.disk 2 (List.range' 3 49)) ∧
        namei mkfsLayout noDevices 0 [47] [] (boot crowd.disk 2 (List.range' 3 49)) =
          .error (.panic "iget: no inodes")) := by
  refine ⟨⟨linked_inv.elim fun _ hinv => hinv.wf, linked_boot, linked_tree _, ?_, ?_⟩,
    ⟨crowd_wf, crowd_boot, crowd_tree _, ?_⟩⟩
  . decide +kernel
  . decide +kernel
  . have hscan : igetLoop (boot crowd.disk 2 (List.range' 3 49)).icache ROOTINO (List.range NINODE) none = .inr none := by
      decide +kernel
    unfold namei namex
    rw [if_pos (by rfl), iget, hscan]
    rfl

end Xv6.Path
