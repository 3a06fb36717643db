import Xv6.Fs.Dirent

/-!
Directories as finite maps. The history beside the machine holds, for each directory, the map from names to inode
numbers that the calls of `dirlink` and the entries cleared by `sys_unlink` have left there; the inode number 0 is for
the names that are not in it.
-/

namespace Xv6.Fs

open Bytes Outcome

section

variable (sb : Superblock)

def State.isDir (s : State) (dinum : Nat) : Prop :=
  dinum < sb.ninodes ∧ (s.ino dinum).type = T_DIR

instance (s : State) (dinum : Nat) : Decidable (s.isDir sb dinum) :=
  inferInstanceAs (Decidable (_ ∧ _))

-- No two entries in use have the same name.
def Distinct (m : Nat) (c : List UInt8) : Prop :=
  ∀ i < m, ∀ j < m, (entry c i).inum ≠ 0 → (entry c j).inum ≠ 0 → namecmp (entry c i).name (entry c j).name = 0 → i = j

/-- Every directory is a sequence of entries with different names. -/
def Dirs (s : State) : Prop :=
  ∀ dinum, s.isDir sb dinum → DIRENT ∣ (s.ino dinum).size ∧ Distinct (s.nent dinum) (s.dir dinum)

inductive DirEvent where
  | dirlookup (dinum : Nat) (name : List UInt8)
  | dirlink (dinum : Nat) (name : List UInt8) (inum : Nat)
  | direrase (dinum : Nat) (name : List UInt8)

inductive DirOutput where
  | inum (n : Nat)
  | ret (r : Int)
  deriving DecidableEq, Repr

-- The calls that there are. The number of an inode is not 0 and fits into the `ushort` of an entry.
def DirEvent.Valid (s : State) : DirEvent → Prop
  | .dirlookup dinum _ => s.isDir sb dinum
  | .dirlink dinum _ inum => s.isDir sb dinum ∧ inum ≠ 0 ∧ inum < 2 ^ 16
  | .direrase dinum _ => s.isDir sb dinum

instance (s : State) : (e : DirEvent) → Decidable (e.Valid sb s)
  | .dirlookup dinum _ => inferInstanceAs (Decidable (s.isDir sb dinum))
  | .dirlink _ _ _ => inferInstanceAs (Decidable (_ ∧ _))
  | .direrase dinum _ => inferInstanceAs (Decidable (s.isDir sb dinum))

variable (devsw : Devsw)

def dirCall (s : State) : DirEvent → Except String (State × DirOutput)
  | .dirlookup dinum name => do
    let (disk, dp, found) ← dirlookup sb devsw s.disk (s.ino dinum) name
    return (⟨disk, Function.update s.ino dinum dp⟩, .inum ((found.map Prod.fst).getD 0))
  | .dirlink dinum name inum => do
    let (disk, dp, ret) ← dirlink sb devsw s.disk dinum (s.ino dinum) name inum
    return (⟨disk, Function.update s.ino dinum dp⟩, .ret ret)
  | .direrase dinum name => do
    let (disk, dp, ret) ← direrase sb devsw s.disk dinum (s.ino dinum) name
    return (⟨disk, Function.update s.ino dinum dp⟩, .ret ret)

-- A call that panics is not a step.
def dirStep : Machine State DirEvent DirOutput := fun s e =>
  if e.Valid sb s then (dirCall sb devsw s e).toOption else none

end

-- The maps that the calls are meant to work on.
def names (_ : State) (e : DirEvent) (_ : State) (h : Nat → List UInt8 → Nat) : Nat → List UInt8 → Nat :=
  match e with
  | .dirlookup _ _ => h
  | .dirlink dinum name inum =>
    if h dinum (key name) = 0 then Function.update h dinum (Function.update (h dinum) (key name) inum) else h
  | .direrase dinum name => Function.update h dinum (Function.update (h dinum) (key name) 0)

/--
What a call does with the map `h dinum`: `dirlookup` returns the number of the name, `dirlink` fails and changes nothing
exactly if the map has the name, and the entry is cleared if the map has it.
-/
def DirBehaves (x : State × (Nat → List UInt8 → Nat)) (e : DirEvent) (o : DirOutput)
    (x' : State × (Nat → List UInt8 → Nat)) : Prop :=
  match e with
  | .dirlookup dinum name => o = .inum (x.2 dinum (key name)) ∧ x'.1 = x.1
  | .dirlink dinum name _ => if x.2 dinum (key name) ≠ 0 then o = .ret (-1) ∧ x'.1 = x.1 else o = .ret 0
  | .direrase dinum name => if x.2 dinum (key name) = 0 then o = .ret (-1) ∧ x'.1 = x.1 else o = .ret 0

/--
A call returns, unless it is a `dirlink` of a new name for which there is no block, or into a directory of the maximal
size.
-/
def DirReturns (sb : Superblock) (devsw : Devsw) (x : State × (Nat → List UInt8 → Nat)) : Prop :=
  ∀ e : DirEvent, e.Valid sb x.1 → (∃ r, dirCall sb devsw x.1 e = .ok r) ∨
    ∃ dinum name inum, e = .dirlink dinum name inum ∧ x.2 dinum (key name) = 0 ∧
      (dirCall sb devsw x.1 e = .error "balloc: out of blocks" ∨ (x.1.ino dinum).size = MAXFILE * BSIZE)

structure DirInv (sb : Superblock) (x : State × (Nat → List UInt8 → Nat)) : Prop where
  wf : WellFormed sb x.1
  size : ∀ dinum, x.1.isDir sb dinum → DIRENT ∣ (x.1.ino dinum).size
  slots : ∀ dinum, x.1.isDir sb dinum →
    Slots (x.1.nent dinum) (entryKey (x.1.dir dinum)) (entryInum (x.1.dir dinum)) (x.2 dinum)

variable {sb : Superblock} {devsw : Devsw} {s s' : State} {i j m n dinum inum : Nat} {c name : List UInt8} {de : Dirent}
  {h : Nat → List UInt8 → Nat} {k : List UInt8}

theorem DirInv.isDir (hx : DirInv sb (s, h)) (hd : s.isDir sb dinum) : IsDir sb s dinum :=
  ⟨hd.1, hd.2, hx.size dinum hd⟩

theorem DirInv.dirs (hx : DirInv sb (s, h)) : Dirs sb s := by
  intro dinum hd
  refine ⟨hx.size dinum hd, ?_⟩
  intro i hi j hj hvi hvj hname
  exact (hx.slots dinum hd).unique i hi j hj hvi hvj ((namecmp_eq_zero _ _).mp hname)

theorem entry_fits (hs : WellFormed sb s) (hd : IsDir sb s dinum) (hj : j < s.nent dinum)
    : DIRENT * j + DIRENT ≤ (s.ino dinum).size ∧ (s.ino dinum).size ≤ MAXFILE * BSIZE := by
  have hsize := hd.size_eq
  refine ⟨?_, hs.size_le hd.lt hd.ne_zero⟩
  unfold DIRENT at *
  omega

theorem accepts_entry (hd : IsDir sb s dinum) (hj : j ≤ s.nent dinum) (hmax : DIRENT * j + DIRENT ≤ MAXFILE * BSIZE)
    : Accepts (s.ino dinum).size (DIRENT * j) DIRENT := by
  have hbig : MAXFILE * BSIZE < 2 ^ 32 := by decide
  exact ⟨hd.le_size hj, by omega, hmax⟩

-- An entry of `dinum` is written; `j` is the end of the directory at most.
theorem writeDirent_spec {disk' : Disk} {dp' : Dinode} {msg : String} (hs : WellFormed sb s) (hd : IsDir sb s dinum)
    (hj : j ≤ s.nent dinum) (hmax : DIRENT * j + DIRENT ≤ MAXFILE * BSIZE) (hname : de.name.length = DIRSIZ)
    (hinum : de.inum < 2 ^ 16)
    (hw : writeDirent sb devsw s.disk dinum (s.ino dinum) de (DIRENT * j) msg = .ok (disk', dp'))
    (hs' : s' = ⟨disk', Function.update s.ino dinum dp'⟩)
    : WellFormed sb s' ∧ Others sb dinum s s' ∧ IsDir sb s' dinum ∧ s'.nent dinum = max (s.nent dinum) (j + 1) ∧
      ∀ i < max (s.nent dinum) (j + 1), entry (s'.dir dinum) i = if i = j then de else entry (s.dir dinum) i := by
  have hsize := hd.size_eq
  have hacc := accepts_entry hd hj hmax
  unfold writeDirent at hw
  obtain ⟨r, hr, hw⟩ := bind_eq_ok hw
  split at hw
  . cases hw
  . cases hw
    obtain ⟨-, hwf, hothers, htype, hnew, hcontent⟩ := writei_spec hs hd.lt hd.ne_zero hd.ne_dev hacc hr
    subst hs'
    have hsize' : r.ip.size = DIRENT * max (s.nent dinum) (j + 1) := by
      rw [hnew, hsize]
      unfold DIRENT
      omega
    refine ⟨hwf, hothers, ⟨hd.lt, ?_, ?_⟩, ?_, ?_⟩
    . dsimp only
      rw [Function.update_self, htype, hd.type]
    . dsimp only
      rw [Function.update_self, hsize']
      exact Nat.dvd_mul_right _ _
    . simp only [State.nent, Function.update_self, hsize']
      exact Nat.mul_div_cancel_left _ (by decide)
    . intro i hi
      have hdir : (State.mk r.disk (Function.update s.ino dinum r.ip)).dir dinum =
          overwrite (s.dir dinum) (fun k => de.toBytes.getD k 0) (DIRENT * j) DIRENT := by
        simp only [State.dir, Function.update_self]
        exact hcontent
      rw [hdir]
      exact entry_overwrite hd.dir_length hj hname hinum hi

theorem writeDirent_of_writei {r : WriteResult} {msg : String} (hs : WellFormed sb s) (hd : IsDir sb s dinum)
    (hj : j ≤ s.nent dinum) (hmax : DIRENT * j + DIRENT ≤ MAXFILE * BSIZE)
    (hw : writei sb devsw s.disk dinum (s.ino dinum) (fun k => de.toBytes.getD k 0) (DIRENT * j) DIRENT = .ok r)
    : writeDirent sb devsw s.disk dinum (s.ino dinum) de (DIRENT * j) msg = .ok (r.disk, r.ip) := by
  have hret := (writei_spec hs hd.lt hd.ne_zero hd.ne_dev (accepts_entry hd hj hmax) hw).1
  unfold writeDirent
  rw [hw]
  simp only [bind, Except.bind, hret, ne_eq, not_true_eq_false, if_false]

theorem writeDirent_returns {msg : String} (devsw : Devsw) (de : Dirent) (hs : WellFormed sb s) (hd : IsDir sb s dinum)
    (hj : j ≤ s.nent dinum) (hmax : DIRENT * j + DIRENT ≤ MAXFILE * BSIZE)
    : (∃ r, writeDirent sb devsw s.disk dinum (s.ino dinum) de (DIRENT * j) msg = .ok r) ∨
      writeDirent sb devsw s.disk dinum (s.ino dinum) de (DIRENT * j) msg = .error "balloc: out of blocks" := by
  cases hw : writei sb devsw s.disk dinum (s.ino dinum) (fun k => de.toBytes.getD k 0) (DIRENT * j) DIRENT with
  | ok r => exact .inl ⟨_, writeDirent_of_writei hs hd hj hmax hw⟩
  | error m =>
    have hm := writei_error hw (accepts_entry hd hj hmax).2.1
    subst hm
    right
    unfold writeDirent
    rw [hw]
    rfl

theorem writeDirent_within {msg : String} (devsw : Devsw) (de : Dirent) (hs : WellFormed sb s) (hd : IsDir sb s dinum)
    (hj : j < s.nent dinum)
    : ∃ r, writeDirent sb devsw s.disk dinum (s.ino dinum) de (DIRENT * j) msg = .ok r := by
  have hfits := entry_fits hs hd hj
  obtain ⟨r, hr⟩ : ∃ r, writei sb devsw s.disk dinum (s.ino dinum) (fun k => de.toBytes.getD k 0) (DIRENT * j) DIRENT =
      .ok r := writei_within hs hd.lt hd.ne_zero hd.ne_dev hfits.1
  exact ⟨_, writeDirent_of_writei hs hd (Nat.le_of_lt hj) (hfits.1.trans hfits.2) hr⟩

theorem DirInv.of_others {k' : List UInt8 → Nat} (hx : DirInv sb (s, h)) (hwf : WellFormed sb s')
    (hothers : Others sb dinum s s') (hd : IsDir sb s' dinum)
    (hslots : Slots (s'.nent dinum) (entryKey (s'.dir dinum)) (entryInum (s'.dir dinum)) k')
    : DirInv sb (s', Function.update h dinum k') where
  wf := hwf
  size d hdir := by
    by_cases hne : d = dinum
    . subst hne
      exact hd.size
    . have hino : s'.ino d = s.ino d := hothers.ino d hne
      dsimp only at hdir ⊢
      unfold State.isDir at hdir
      rw [hino] at hdir ⊢
      exact hx.size d hdir
  slots d hdir := by
    by_cases hne : d = dinum
    . subst hne
      dsimp only
      rw [Function.update_self]
      exact hslots
    . have hino : s'.ino d = s.ino d := hothers.ino d hne
      dsimp only at hdir ⊢
      unfold State.isDir at hdir
      rw [hino] at hdir
      have hdir' : s'.dir d = s.dir d := by
        apply hothers.content d hdir.1 hne
        rw [hdir.2]
        decide
      rw [Function.update_of_ne hne, hdir', State.nent, hino]
      exact hx.slots d hdir

theorem DirInv.dirlookup_cases (devsw : Devsw) (hx : DirInv sb (s, h)) (hd : s.isDir sb dinum) (name : List UInt8)
    : (h dinum (key name) = 0 ∧ dirlookup sb devsw s.disk (s.ino dinum) name = .ok (s.disk, s.ino dinum, none)) ∨
      ∃ j < s.nent dinum, entryInum (s.dir dinum) j ≠ 0 ∧ entryKey (s.dir dinum) j = key name ∧
        h dinum (key name) = entryInum (s.dir dinum) j ∧
        dirlookup sb devsw s.disk (s.ino dinum) name =
          .ok (s.disk, s.ino dinum, some (entryInum (s.dir dinum) j, DIRENT * j)) := by
  have hslots := hx.slots dinum hd
  rw [dirlookup_spec devsw hx.wf (hx.isDir hd) name]
  cases hfind : Slots.find (s.nent dinum) (entryKey (s.dir dinum)) (entryInum (s.dir dinum)) (key name) with
  | none => exact .inl ⟨hslots.get_of_not_find hfind, rfl⟩
  | some j =>
    obtain ⟨hj, hinum, hkey⟩ := Slots.find_eq_some hfind
    exact .inr ⟨j, hj, hinum, hkey, hslots.get_of_find hfind, rfl⟩

theorem dirCall_dirlookup (devsw : Devsw) (hx : DirInv sb (s, h)) (hd : s.isDir sb dinum) (name : List UInt8)
    : dirCall sb devsw s (.dirlookup dinum name) = .ok (s, .inum (h dinum (key name))) := by
  simp only [dirCall]
  obtain ⟨hnone, hlookup⟩ | ⟨j, -, -, -, hget, hlookup⟩ := hx.dirlookup_cases devsw hd name
  . rw [hlookup, hnone]
    simp only [bind, Except.bind, pure, Except.pure, Function.update_eq_self, Option.map_none, Option.getD_none]
  . rw [hlookup, hget]
    simp only [bind, Except.bind, pure, Except.pure, Function.update_eq_self, Option.map_some, Option.getD_some]

theorem dirCall_dirlink_present (devsw : Devsw) (inum : Nat) (hx : DirInv sb (s, h)) (hd : s.isDir sb dinum)
    (hname : h dinum (key name) ≠ 0)
    : dirCall sb devsw s (.dirlink dinum name inum) = .ok (s, .ret (-1)) := by
  simp only [dirCall, dirlink]
  obtain ⟨hnone, -⟩ | ⟨j, -, -, -, -, hlookup⟩ := hx.dirlookup_cases devsw hd name
  . exact absurd hnone hname
  . rw [hlookup]
    simp only [bind, Except.bind, pure, Except.pure, Function.update_eq_self]

theorem dirCall_direrase_absent (devsw : Devsw) (hx : DirInv sb (s, h)) (hd : s.isDir sb dinum)
    (hname : h dinum (key name) = 0)
    : dirCall sb devsw s (.direrase dinum name) = .ok (s, .ret (-1)) := by
  simp only [dirCall, direrase]
  obtain ⟨-, hlookup⟩ | ⟨j, -, hinum, -, hget, -⟩ := hx.dirlookup_cases devsw hd name
  . rw [hlookup]
    simp only [bind, Except.bind, pure, Except.pure, Function.update_eq_self]
  . rw [hname] at hget
    exact absurd hget.symm hinum

theorem dirCall_dirlink_absent (devsw : Devsw) (inum : Nat) (hx : DirInv sb (s, h)) (hd : s.isDir sb dinum)
    (hname : h dinum (key name) = 0)
    : dirCall sb devsw s (.dirlink dinum name inum) =
      (writeDirent sb devsw s.disk dinum (s.ino dinum) ⟨inum, strncpy DIRSIZ name⟩
        (DIRENT * freeSlot (s.nent dinum) (s.dir dinum)) "dirlink").map fun r =>
          (⟨r.1, Function.update s.ino dinum r.2⟩, .ret 0) := by
  simp only [dirCall, dirlink]
  obtain ⟨-, hlookup⟩ | ⟨j, -, hinum, -, hget, -⟩ := hx.dirlookup_cases devsw hd name
  . rw [hlookup]
    simp only [bind, Except.bind, dirlinkLoop_freeSlot devsw hx.wf (hx.isDir hd)]
    cases writeDirent sb devsw s.disk dinum (s.ino dinum) ⟨inum, strncpy DIRSIZ name⟩
      (DIRENT * freeSlot (s.nent dinum) (s.dir dinum)) "dirlink" with
    | error _ => rfl
    | ok _ => rfl
  . rw [hname] at hget
    exact absurd hget.symm hinum

theorem dirCall_direrase_present (devsw : Devsw) (hx : DirInv sb (s, h)) (hd : s.isDir sb dinum)
    (hname : h dinum (key name) ≠ 0)
    : ∃ j < s.nent dinum, entryInum (s.dir dinum) j ≠ 0 ∧ entryKey (s.dir dinum) j = key name ∧
      dirCall sb devsw s (.direrase dinum name) =
        (writeDirent sb devsw s.disk dinum (s.ino dinum) ⟨0, List.replicate DIRSIZ 0⟩ (DIRENT * j)
          "unlink: writei").map fun r => (⟨r.1, Function.update s.ino dinum r.2⟩, .ret 0) := by
  simp only [dirCall, direrase]
  obtain ⟨hnone, -⟩ | ⟨j, hj, hinum, hkey, -, hlookup⟩ := hx.dirlookup_cases devsw hd name
  . exact absurd hnone hname
  . refine ⟨j, hj, hinum, hkey, ?_⟩
    rw [hlookup]
    simp only [bind, Except.bind]
    cases writeDirent sb devsw s.disk dinum (s.ino dinum) ⟨0, List.replicate DIRSIZ 0⟩ (DIRENT * j)
      "unlink: writei" with
    | error _ => rfl
    | ok _ => rfl

theorem map_eq_ok {α β : Type} {x : Except String α} {f : α → β} {r : β} (h : x.map f = .ok r)
    : ∃ a, x = .ok a ∧ f a = r := by
  cases x with
  | error msg => cases h
  | ok a =>
    cases h
    exact ⟨a, rfl, rfl⟩

theorem dirlink_inv {o : DirOutput} (hx : DirInv sb (s, h)) (hd : s.isDir sb dinum) (hinum : inum ≠ 0)
    (hlt : inum < 2 ^ 16) (hname : h dinum (key name) = 0)
    (hcall : dirCall sb devsw s (.dirlink dinum name inum) = .ok (s', o))
    : DirInv sb (s', Function.update h dinum (Function.update (h dinum) (key name) inum)) ∧ o = .ret 0 := by
  have hdir := hx.isDir hd
  rw [dirCall_dirlink_absent devsw inum hx hd hname] at hcall
  obtain ⟨⟨disk', dp'⟩, hw, hr⟩ := map_eq_ok hcall
  simp only [Prod.mk.injEq] at hr
  obtain ⟨hs', ho⟩ := hr
  have hfree := freeSlot_le (s.nent dinum) (s.dir dinum)
  have hmax : DIRENT * freeSlot (s.nent dinum) (s.dir dinum) + DIRENT ≤ MAXFILE * BSIZE := by
    -- otherwise `writei` returns -1
    by_contra hover
    have hle : (s.ino dinum).size ≤ MAXFILE * BSIZE := hx.wf.size_le hdir.lt hdir.ne_zero
    have hbig : MAXFILE * BSIZE < 2 ^ 32 := by decide
    have hoff := hdir.le_size hfree
    unfold writeDirent at hw
    rw [writei_rejects hdir.ne_dev (by omega) (by decide) (fun hacc => hover hacc.2.2)] at hw
    simp [bind, Except.bind] at hw
  obtain ⟨hwf, hothers, hdir', hnent, hentry⟩ :=
    writeDirent_spec hx.wf hdir hfree hmax (length_strncpy _ _) hlt hw hs'.symm
  refine ⟨hx.of_others hwf hothers hdir' ?_, ho.symm⟩
  rw [hnent]
  apply (hx.slots dinum hd).put hfree freeSlot_free hname hinum
  . intro i hi
    rw [entryKey, hentry i hi]
    split
    . exact key_key name
    . rfl
  . intro i hi
    rw [entryInum, hentry i hi]
    split
    . rfl
    . rfl

theorem direrase_inv {o : DirOutput} (hx : DirInv sb (s, h)) (hd : s.isDir sb dinum) (hname : h dinum (key name) ≠ 0)
    (hcall : dirCall sb devsw s (.direrase dinum name) = .ok (s', o))
    : DirInv sb (s', Function.update h dinum (Function.update (h dinum) (key name) 0)) ∧ o = .ret 0 := by
  have hdir := hx.isDir hd
  obtain ⟨j, hj, hinum, hkey, heq⟩ := dirCall_direrase_present devsw hx hd hname
  rw [heq] at hcall
  obtain ⟨⟨disk', dp'⟩, hw, hr⟩ := map_eq_ok hcall
  simp only [Prod.mk.injEq] at hr
  obtain ⟨hs', ho⟩ := hr
  have hfits := entry_fits hx.wf hdir hj
  obtain ⟨hwf, hothers, hdir', hnent, hentry⟩ :=
    writeDirent_spec hx.wf hdir (Nat.le_of_lt hj) (hfits.1.trans hfits.2) List.length_replicate (by decide) hw hs'.symm
  have hmax : max (s.nent dinum) (j + 1) = s.nent dinum := by omega
  rw [hmax] at hnent hentry
  refine ⟨hx.of_others hwf hothers hdir' ?_, ho.symm⟩
  rw [hnent, ← hkey]
  apply (hx.slots dinum hd).clear hj hinum
  . intro i hi hij
    rw [entryKey, hentry i hi, if_neg hij]
    rfl
  . intro i hi
    rw [entryInum, hentry i hi]
    split
    . rfl
    . rfl

theorem dirStep_inv {x x' : State × (Nat → List UInt8 → Nat)} {e : DirEvent} {o : DirOutput} (hx : DirInv sb x)
    (hstep : Machine.watch (dirStep sb devsw) names x e = some (x', o))
    : DirInv sb x' ∧ DirBehaves x e o x' := by
  obtain ⟨hs, hh⟩ := Machine.watch_eq_some hstep
  obtain ⟨s, h⟩ := x
  obtain ⟨s', h'⟩ := x'
  dsimp only at hs hh
  subst hh
  unfold dirStep at hs
  split at hs
  . next hvalid =>
    have hcall : dirCall sb devsw s e = .ok (s', o) := by
      cases hc : dirCall sb devsw s e with
      | error msg =>
        rw [hc] at hs
        cases hs
      | ok r =>
        rw [hc] at hs
        cases hs
        rfl
    cases e with
    | dirlookup dinum name =>
      rw [dirCall_dirlookup devsw hx hvalid name] at hcall
      cases hcall
      exact ⟨hx, rfl, rfl⟩
    | dirlink dinum name inum =>
      simp only [names, DirBehaves]
      by_cases hname : h dinum (key name) = 0
      . rw [if_pos hname, if_neg (not_not_intro hname)]
        exact dirlink_inv hx hvalid.1 hvalid.2.1 hvalid.2.2 hname hcall
      . rw [dirCall_dirlink_present devsw inum hx hvalid.1 hname] at hcall
        cases hcall
        rw [if_neg hname, if_pos hname]
        exact ⟨hx, rfl, rfl⟩
    | direrase dinum name =>
      simp only [names, DirBehaves]
      by_cases hname : h dinum (key name) = 0
      . rw [dirCall_direrase_absent devsw hx hvalid hname] at hcall
        cases hcall
        have hsame : Function.update h dinum (Function.update (h dinum) (key name) 0) = h := by
          rw [← hname, Function.update_eq_self, Function.update_eq_self]
        rw [if_pos hname, hsame]
        exact ⟨hx, rfl, rfl⟩
      . rw [if_neg hname]
        exact direrase_inv hx hvalid hname hcall
  . cases hs

theorem DirInv.returns {x : State × (Nat → List UInt8 → Nat)} (devsw : Devsw) (hx : DirInv sb x)
    : DirReturns sb devsw x := by
  obtain ⟨s, h⟩ := x
  intro e hvalid
  cases e with
  | dirlookup dinum name => exact .inl ⟨_, dirCall_dirlookup devsw hx hvalid name⟩
  | direrase dinum name =>
    by_cases hname : h dinum (key name) = 0
    . exact .inl ⟨_, dirCall_direrase_absent devsw hx hvalid hname⟩
    . obtain ⟨j, hj, -, -, heq⟩ := dirCall_direrase_present devsw hx hvalid hname
      obtain ⟨r, hr⟩ := writeDirent_within devsw ⟨0, List.replicate DIRSIZ 0⟩ hx.wf (hx.isDir hvalid) hj
      rw [hr] at heq
      exact .inl ⟨_, heq⟩
  | dirlink dinum name inum =>
    obtain ⟨hd, hinum, hlt⟩ := hvalid
    by_cases hname : h dinum (key name) = 0
    . have hdir := hx.isDir hd
      have hsize := hdir.size_eq
      have hle : (s.ino dinum).size ≤ MAXFILE * BSIZE := hx.wf.size_le hdir.lt hdir.ne_zero
      have hfree := freeSlot_le (s.nent dinum) (s.dir dinum)
      have heq := dirCall_dirlink_absent devsw inum hx hd hname
      by_cases hfull : (s.ino dinum).size = MAXFILE * BSIZE
      . exact .inr ⟨dinum, name, inum, rfl, hname, .inr hfull⟩
      . have hmax : DIRENT * freeSlot (s.nent dinum) (s.dir dinum) + DIRENT ≤ MAXFILE * BSIZE := by
          unfold DIRENT MAXFILE NDIRECT NINDIRECT BSIZE at *
          omega
        obtain ⟨r, hr⟩ | hr := writeDirent_returns devsw ⟨inum, strncpy DIRSIZ name⟩ hx.wf hdir hfree hmax
        . rw [hr] at heq
          exact .inl ⟨_, heq⟩
        . rw [hr] at heq
          exact .inr ⟨dinum, name, inum, rfl, hname, .inl heq⟩
    . exact .inl ⟨_, dirCall_dirlink_present devsw inum hx hd hname⟩

-- The maps of the directories as they are.
def State.names (s : State) (dinum : Nat) : List UInt8 → Nat :=
  Slots.get (s.nent dinum) (entryKey (s.dir dinum)) (entryInum (s.dir dinum))

theorem Dirs.inv (hs : WellFormed sb s) (hd : Dirs sb s) : DirInv sb (s, s.names) where
  wf := hs
  size dinum h := (hd dinum h).1
  slots dinum h := by
    apply Slots.of_unique
    intro i hi j hj hvi hvj hkey
    exact (hd dinum h).2 i hi j hj hvi hvj ((namecmp_eq_zero _ _).mpr hkey)

theorem fresh_dirs : Dirs mkfsLayout fresh := by
  intro dinum hd
  have hsize : (fresh.ino dinum).size = 0 := by
    rw [fresh_ino hd.1]
    split
    . rfl
    . split <;> rfl
  refine ⟨by rw [hsize]; exact Nat.dvd_zero _, ?_⟩
  intro i hi
  rw [State.nent, hsize] at hi
  simp at hi

end Xv6.Fs
