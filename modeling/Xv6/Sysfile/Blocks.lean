import Mathlib.Algebra.Order.BigOperators.Group.Finset
import Xv6.Sysfile.Lookup

/-!
The blocks of the directories: whatever the calls do, the directories never have more than the disk.
-/

namespace Xv6.Sysfile

open Xv6.Fs Xv6.Path

variable {α ι : Type} {n i j d dp cwd type inum : Nat} {ino : Graph} {ip : Inode} {s : Store}
variable {name path old new : List UInt8} {cs : List (List UInt8)} {room : Store → Bool}

theorem dirBlocks_update (n : Nat) (ino : Graph) (i : Nat) (ip : Inode)
    : dirBlocks n (Function.update ino i ip) + (if i < n then blocks (ino i).ents else 0) =
        dirBlocks n ino + if i < n then blocks ip.ents else 0 := by
  unfold dirBlocks
  by_cases hi : i < n
  . have hmem := Finset.mem_range.mpr hi
    have hother : ∑ j ∈ (Finset.range n).erase i, blocks (Function.update ino i ip j).ents =
        ∑ j ∈ (Finset.range n).erase i, blocks (ino j).ents := by
      apply Finset.sum_congr rfl
      intro j hj
      rw [Function.update_of_ne (Finset.ne_of_mem_erase hj)]
    rw [← Finset.add_sum_erase _ _ hmem, ← Finset.add_sum_erase _ (fun j => blocks (ino j).ents) hmem, hother,
      Function.update_self, if_pos hi, if_pos hi]
    omega
  . rw [if_neg hi, if_neg hi]
    congr 1
    apply Finset.sum_congr rfl
    intro j hj
    rw [Function.update_of_ne]
    rintro rfl
    exact hi (Finset.mem_range.mp hj)

section

variable {ents : List Dirent} {de : Dirent}

theorem blocks_nil : blocks [] = 0 := rfl

theorem blocks_set (ents : List Dirent) (j : Nat) (de : Dirent) : blocks (ents.set j de) = blocks ents := by
  unfold blocks
  rw [List.length_set]

theorem blocks_append_le (ents : List Dirent) (de : Dirent) : blocks (ents ++ [de]) ≤ blocks ents + 1 := by
  unfold blocks DIRENT BSIZE
  rw [List.length_append, List.length_singleton]
  omega

-- Only an entry at the beginning of a block takes a new one.
theorem blocks_append (h : DIRENT * ents.length % BSIZE ≠ 0) : blocks (ents ++ [de]) ≤ blocks ents := by
  unfold blocks
  unfold DIRENT BSIZE at *
  rw [List.length_append, List.length_singleton]
  omega

end

-- The directories fit on the disk.
def Stored (n : Nat) (ino : Graph) : Prop :=
  dirBlocks n ino ≤ FSSIZE

theorem Stored.update (h : Stored n ino) (hle : blocks ip.ents ≤ blocks (ino i).ents)
    : Stored n (Function.update ino i ip) := by
  have := dirBlocks_update n ino i ip
  unfold Stored at *
  split at this <;> omega

theorem Stored.grow (h : dirBlocks n ino < FSSIZE) (hle : blocks ip.ents ≤ blocks (ino i).ents + 1)
    : Stored n (Function.update ino i ip) := by
  have := dirBlocks_update n ino i ip
  unfold Stored
  split at this <;> omega

-- What a computation returns has its directories on the disk.
abbrev Keeps (n : Nat) (store : α → Store) (x : Except Stop α) : Prop :=
  Ends (fun _ => True) (fun a => Stored n (store a).ino) x

-- Locks and references change no inode.
theorem iget_ino (s : Store) (i : Nat) : Ends (fun _ => True) (fun s' => s'.ino = s.ino) (iget n s i) := by
  unfold iget
  split
  . rfl
  . split
    . rfl
    . trivial

theorem ilock_ino (s : Store) (i : Nat) : Ends (fun _ => True) (fun s' => s'.ino = s.ino) (ilock s i) := by
  unfold ilock
  split
  . trivial
  . split
    . trivial
    . split
      . trivial
      . rfl

theorem iunlock_ino (s : Store) (i : Nat) : Ends (fun _ => True) (fun s' => s'.ino = s.ino) (iunlock s i) := by
  unfold iunlock
  split
  . trivial
  . rfl

theorem dirlookup_ino (s : Store) (d : Nat) (name : List UInt8)
    : Ends (fun _ => True) (fun a => a.1.ino = s.ino ∧ ∀ r ∈ a.2, r.2 < (s.ino d).ents.length)
        (dirlookup n s d name) := by
  unfold dirlookup
  split
  . trivial
  . cases hj : findName (s.ino d).ents name with
    | none => exact ⟨rfl, by simp⟩
    | some j =>
      apply (iget_ino s _).bind
      intro s' h'
      refine ⟨h', ?_⟩
      rintro r ⟨⟩
      exact (List.findIdx?_eq_some_iff_getElem.mp hj).1

namespace Stored

theorem ilock (h : Stored n s.ino) (i : Nat) : Keeps n id (ilock s i) :=
  (ilock_ino s i).mono fun _ h' => by rwa [id, h']

theorem iunlock (h : Stored n s.ino) (i : Nat) : Keeps n id (iunlock s i) :=
  (iunlock_ino s i).mono fun _ h' => by rwa [id, h']

theorem iput (h : Stored n s.ino) (i : Nat) : Keeps n id (iput s i) := by
  unfold Sysfile.iput
  split
  . trivial
  . split
    . exact h.update (Nat.zero_le _)
    . exact h

theorem iunlockput (h : Stored n s.ino) (i : Nat) : Keeps n id (iunlockput s i) :=
  (h.iunlock i).bind fun _ h' => Stored.iput h' i

theorem dirlookup (h : Stored n s.ino) (d : Nat) (name : List UInt8) : Keeps n Prod.fst (dirlookup n s d name) :=
  (dirlookup_ino s d name).mono fun _ h' => by rwa [h'.1]

theorem addLink (h : Stored n s.ino) (i : Nat) (k : Int) : Stored n (addLink s i k).ino :=
  h.update (Nat.le_refl _)

-- A directory gets a new block only if there is one.
theorem dirlink (h : Stored n s.ino) (d : Nat) (name : List UInt8) (inum : Nat)
    : Keeps n Prod.fst (dirlink n room s d name inum) := by
  unfold Sysfile.dirlink
  apply (h.dirlookup d name).bind
  rintro ⟨s1, found⟩ h1
  cases found with
  | some r => exact (Stored.iput h1 r.1).bind fun s2 h2 => h2
  | none =>
    dsimp only
    have hslot : ((s1.ino d).ents.findIdx? fun de => decide (de.inum = 0)).getD (s1.ino d).ents.length ≤
        (s1.ino d).ents.length := by
      cases hj : (s1.ino d).ents.findIdx? fun de => decide (de.inum = 0) with
      | none => exact Nat.le_refl _
      | some j => exact (List.findIdx?_eq_some_iff_getElem.mp hj).1.le
    generalize ((s1.ino d).ents.findIdx? fun de => decide (de.inum = 0)).getD (s1.ino d).ents.length = j at hslot
    split
    . trivial
    . split
      . trivial
      . next hroom =>
        change Stored n (Function.update s1.ino d _)
        by_cases hlt : j < (s1.ino d).ents.length
        . apply Stored.update h1
          unfold setEnt
          rw [if_pos hlt, blocks_set]
        . have hj : j = (s1.ino d).ents.length := by omega
          unfold setEnt
          rw [if_neg hlt]
          by_cases hblock : DIRENT * j % BSIZE = 0
          . have hfree : dirBlocks n s1.ino < FSSIZE := by
              by_contra hfull
              exact hroom ⟨hj, hblock, .inr (by omega)⟩
            exact Stored.grow hfree (blocks_append_le _ _)
          . rw [hj] at hblock
            exact Stored.update h1 (blocks_append hblock)

theorem ialloc (h : Stored n s.ino) (type : Nat) : Keeps n Prod.fst (ialloc n s type) := by
  unfold Sysfile.ialloc
  split
  . trivial
  . next i _ =>
    apply (iget_ino _ i).bind
    intro s1 h1
    change Stored n s1.ino
    rw [h1]
    apply h.update
    rw [blocks_nil]
    exact Nat.zero_le _

theorem namexLoop (parent : Bool) (hcs : components path = cs) (h : Stored n s.ino)
    : Keeps n Prod.fst (namexLoop n parent path name i s) := by
  induction cs generalizing path name i s with
  | nil =>
    rw [namexLoop_none (skipelem_none hcs name)]
    split
    . exact (h.iput i).bind fun s1 h1 => h1
    . exact h
  | cons e cs ih =>
    obtain ⟨path', name', hskip, hpath, -⟩ := skipelem_some hcs name
    rw [namexLoop_some hskip]
    apply (h.ilock i).bind
    intro s1 h1
    split
    . exact (Stored.iunlockput h1 i).bind fun s2 h2 => h2
    . split
      . exact (Stored.iunlock h1 i).bind fun s2 h2 => h2
      . apply (Stored.dirlookup h1 i name').bind
        rintro ⟨s2, next⟩ h2
        cases next with
        | none => exact (Stored.iunlockput h2 i).bind fun s3 h3 => h3
        | some r => exact (Stored.iunlockput h2 i).bind fun s3 h3 => ih hpath h3

theorem namex (h : Stored n s.ino) (parent : Bool) (cwd : Nat) (path : List UInt8)
    : Keeps n Prod.fst (namex n parent cwd path s) := by
  unfold Sysfile.namex
  split
  . exact (iget_ino s ROOTINO).bind fun s1 h1 => namexLoop parent rfl (by rwa [h1])
  . exact namexLoop parent rfl h

theorem namei (h : Stored n s.ino) (cwd : Nat) (path : List UInt8) : Keeps n Prod.fst (namei n cwd path s) :=
  (h.namex false cwd path).bind fun _ h1 => h1

theorem nameiparent (h : Stored n s.ino) (cwd : Nat) (path : List UInt8)
    : Keeps n Prod.fst (nameiparent n cwd path s) :=
  h.namex true cwd path

theorem linkBad (h : Stored n s.ino) (i : Nat) : Keeps n Prod.fst (linkBad s i) :=
  (h.ilock i).bind fun _ h1 => (Stored.iunlockput (Stored.addLink h1 i (-1)) i).bind fun _ h2 => h2

theorem sysLink (h : Stored n s.ino) (cwd : Nat) (old new : List UInt8)
    : Keeps n Prod.fst (sysLink n room cwd old new s) := by
  unfold Sysfile.sysLink
  apply (h.namei cwd old).bind
  rintro ⟨s1, ip⟩ h1
  cases ip with
  | none => exact h1
  | some ip =>
    apply (Stored.ilock h1 ip).bind
    intro s2 h2
    split
    . exact (Stored.iunlockput h2 ip).bind fun s3 h3 => h3
    . apply (Stored.iunlock (Stored.addLink h2 ip 1) ip).bind
      intro s3 h3
      apply (Stored.nameiparent h3 cwd new).bind
      rintro ⟨s4, dp, name⟩ h4
      cases dp with
      | none => exact Stored.linkBad h4 ip
      | some dp =>
        apply (Stored.ilock h4 dp).bind
        intro s5 h5
        apply (Stored.dirlink h5 dp name ip).bind
        rintro ⟨s6, r⟩ h6
        apply (Stored.iunlockput h6 dp).bind
        intro s7 h7
        split
        . exact Stored.linkBad h7 ip
        . exact (Stored.iput h7 ip).bind fun s8 h8 => h8

theorem unlinkBad (h : Stored n s.ino) (d : Nat) : Keeps n Prod.fst (unlinkBad s d) :=
  (h.iunlockput d).bind fun _ h1 => h1

theorem sysUnlink (h : Stored n s.ino) (cwd : Nat) (path : List UInt8)
    : Keeps n Prod.fst (sysUnlink n cwd path s) := by
  unfold Sysfile.sysUnlink
  apply (h.nameiparent cwd path).bind
  rintro ⟨s1, dp, name⟩ h1
  cases dp with
  | none => exact h1
  | some dp =>
    apply (Stored.ilock h1 dp).bind
    intro s2 h2
    split
    . exact Stored.unlinkBad h2 dp
    . apply (dirlookup_ino s2 dp name).bind
      rintro ⟨s3, found⟩ ⟨h3, hlt⟩
      have hs3 : Stored n s3.ino := by
        rw [h3]
        exact h2
      cases found with
      | none => exact hs3.unlinkBad dp
      | some r =>
        obtain ⟨ip, j⟩ := r
        apply (ilock_ino s3 ip).bind
        intro s4 h4
        have hs4 : Stored n s4.ino := by rwa [h4]
        split
        . trivial
        . split
          . exact (hs4.iunlockput ip).bind fun s5 h5 => Stored.unlinkBad h5 dp
          . have hents : Stored n (s4.setIno dp { s4.ino dp with
                ents := setEnt (s4.ino dp).ents j ⟨0, List.replicate DIRSIZ 0⟩ }).ino := by
              apply hs4.update
              have hj : j < (s4.ino dp).ents.length := by
                rw [h4, h3]
                exact hlt (ip, j) rfl
              unfold setEnt
              rw [if_pos hj, blocks_set]
            dsimp only
            apply Ends.bind (Q := fun s5 => Stored n s5.ino)
            . split
              . exact (hents.addLink dp (-1)).iunlockput dp
              . exact hents.iunlockput dp
            . intro s5 h5
              exact (Stored.iunlockput (Stored.addLink h5 ip (-1)) ip).bind fun s6 h6 => h6

theorem createDots (h : Stored n s.ino) (dp i : Nat) : Keeps n id (createDots n room s dp i) := by
  unfold Sysfile.createDots
  apply (Stored.dirlink (h.addLink dp 1) i dot i).bind
  rintro ⟨s1, r⟩ h1
  dsimp only
  split
  . trivial
  . apply (Stored.dirlink h1 i dotdot dp).bind
    rintro ⟨s2, r⟩ h2
    dsimp only
    split
    . trivial
    . exact h2

theorem create (h : Stored n s.ino) (cwd : Nat) (path : List UInt8) (type : Nat)
    : Keeps n Prod.fst (create n room cwd path type s) := by
  unfold Sysfile.create
  apply (h.nameiparent cwd path).bind
  rintro ⟨s1, dp, name⟩ h1
  cases dp with
  | none => exact h1
  | some dp =>
    apply (Stored.ilock h1 dp).bind
    intro s2 h2
    apply (Stored.dirlookup h2 dp name).bind
    rintro ⟨s3, found⟩ h3
    cases found with
    | some r =>
      apply (Stored.iunlockput h3 dp).bind
      intro s4 h4
      apply (Stored.ilock h4 r.1).bind
      intro s5 h5
      split
      . exact h5
      . exact (Stored.iunlockput h5 r.1).bind fun s6 h6 => h6
    | none =>
      apply (Stored.ialloc h3 type).bind
      rintro ⟨s4, i⟩ h4
      apply (Stored.ilock h4 i).bind
      intro s5 h5
      have hset : Stored n (s5.setIno i { s5.ino i with nlink := 1 }).ino := Stored.update h5 (Nat.le_refl _)
      have hname : ∀ s6 : Store, Stored n s6.ino →
          Keeps n Prod.fst (Sysfile.dirlink n room s6 dp name i >>= fun a =>
            if a.2 < 0 then .error (.panic "create: dirlink")
            else Sysfile.iunlockput a.1 dp >>= fun s7 => .ok (s7, some i)) := by
        intro s6 h6
        apply (Stored.dirlink h6 dp name i).bind
        rintro ⟨s7, r⟩ h7
        dsimp only
        split
        . trivial
        . exact (Stored.iunlockput h7 dp).bind fun s8 h8 => h8
      dsimp only
      split
      . exact (hset.createDots dp i).bind hname
      . exact hname _ hset

theorem openInode (h : Stored n s.ino) (cwd : Nat) (path : List UInt8) (creates rdonly : Bool)
    : Keeps n Prod.fst (openInode n room cwd path creates rdonly s) := by
  unfold Sysfile.openInode
  split
  . exact h.create cwd path T_FILE
  . apply (h.namei cwd path).bind
    rintro ⟨s1, ip⟩ h1
    cases ip with
    | none => exact h1
    | some ip =>
      apply (Stored.ilock h1 ip).bind
      intro s2 h2
      split
      . exact (Stored.iunlockput h2 ip).bind fun s3 h3 => h3
      . exact h2

theorem sysOpen (h : Stored n s.ino) (cwd : Nat) (path : List UInt8) (creates rdonly fd : Bool)
    : Keeps n Prod.fst (sysOpen n room cwd path creates rdonly fd s) := by
  unfold Sysfile.sysOpen
  apply (h.openInode cwd path creates rdonly).bind
  rintro ⟨s1, ip⟩ h1
  cases ip with
  | none => exact h1
  | some ip =>
    dsimp only
    split
    . exact (Stored.iunlock h1 ip).bind fun s2 h2 => h2
    . exact (Stored.iunlockput h1 ip).bind fun s2 h2 => h2

theorem sysMake (h : Stored n s.ino) (cwd : Nat) (path : List UInt8) (type : Nat)
    : Keeps n Prod.fst (sysMake n room cwd path type s) := by
  unfold Sysfile.sysMake
  apply (h.create cwd path type).bind
  rintro ⟨s1, ip⟩ h1
  cases ip with
  | none => exact h1
  | some ip => exact (Stored.iunlockput h1 ip).bind fun s2 h2 => h2

theorem sysChdir (h : Stored n s.ino) (cwd : Nat) (path : List UInt8)
    : Keeps n Prod.fst (sysChdir n cwd path s) := by
  unfold Sysfile.sysChdir
  apply (h.namei cwd path).bind
  rintro ⟨s1, ip⟩ h1
  cases ip with
  | none => exact h1
  | some ip =>
    apply (Stored.ilock h1 ip).bind
    intro s2 h2
    split
    . exact (Stored.iunlockput h2 ip).bind fun s3 h3 => h3
    . apply (Stored.iunlock h2 ip).bind
      intro s3 h3
      exact (Stored.iput h3 cwd).bind fun s4 h4 => h4

theorem exec (h : Stored n s.ino) (cwd : Nat) (path : List UInt8) : Keeps n id (exec n cwd path s) := by
  unfold Sysfile.exec
  apply (h.namei cwd path).bind
  rintro ⟨s1, ip⟩ h1
  cases ip with
  | none => exact h1
  | some ip => exact (Stored.ilock h1 ip).bind fun s2 h2 => Stored.iunlockput h2 ip

theorem call [DecidableEq ι] {s : State ι} (h : Stored n s.store.ino) (room : Store → Bool) (p : ι) (c : Call ι)
    : Keeps n State.store (s.call n room p c) := by
  unfold State.call
  split
  . exact h
  . next cwd _ =>
    cases c with
    | link old new => exact (h.sysLink cwd old new).bind fun a ha => ha
    | unlink path => exact (h.sysUnlink cwd path).bind fun a ha => ha
    | openf path creates rdonly fd => exact (h.sysOpen cwd path creates rdonly fd).bind fun a ha => ha
    | mkdir path => exact (h.sysMake cwd path T_DIR).bind fun a ha => ha
    | mknod path => exact (h.sysMake cwd path T_DEV).bind fun a ha => ha
    | chdir path => exact (h.sysChdir cwd path).bind fun a ha => ha
    | exec path => exact (h.exec cwd path).bind fun a ha => ha
    | close k =>
      dsimp only
      split
      . exact h
      . next ip _ => exact (h.iput ip).bind fun a ha => ha
    | fork q =>
      dsimp only
      split
      . exact h
      . exact h
    | exit => exact (h.iput cwd).bind fun a ha => ha

end Stored

end Xv6.Sysfile
