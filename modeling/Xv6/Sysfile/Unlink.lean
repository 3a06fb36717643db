import Xv6.Sysfile.Calls

/-!
`sys_unlink` and the calls that only look up a name.
-/

namespace Xv6.Sysfile

open Xv6.Fs Xv6.Path

variable {dl nd : Prop} {refs : Nat → Nat} {locked : List Nat} {s : Store} {ino : Graph} {d dp i j ninodes : Nat}
variable {name name' path : List UInt8} {room : Store → Bool} {cwd : Nat} {ip : Inode}

-- Entries other than `.` and `..` name other inodes, which have links, and a directory has one for each `..` below it.
def Linked (ino : Graph) : Prop :=
  ∀ d name i, ino.find d name = some i → key name ≠ key dot → key name ≠ key dotdot →
    i ≠ d ∧ 0 < (ino i).nlink ∧ ((ino i).type = T_DIR → 0 < (ino d).nlink)

theorem Kept.sweep_eq (h : Kept refs ino) : ino.sweep refs = ino := h

namespace At

theorem to_sweep (h : At refs locked ino s) (hkept : Kept refs ino) : At refs locked (ino.sweep refs) s := by
  rwa [hkept.sweep_eq]

theorem setIno_setIno {ip ip' : Inode} (h : At refs locked ino s) (hi : i ∈ locked) (ht : ip'.type ≠ 0)
    : At refs locked (Function.update ino i ip') ((s.setIno i ip).setIno i ip') := by
  have hset := h.setIno hi ht
  unfold Store.setIno at hset ⊢
  rwa [Function.update_idem]

-- Below the lock of `dp`, its entry `j` goes, and with it the link of a `..`.
theorem removeEntry (h : At refs locked ino s) (hi : dp ∈ locked) (hdp : (ino dp).type = T_DIR) (hne : i ≠ dp)
    (hlink : (ino i).type = T_DIR → 0 < (ino dp).nlink) (hlt : (ino dp).nlink < 2 ^ 15) (j : Nat)
    : At refs locked
        (Function.update ino dp (ino.without dp j i))
        (let s := s.setIno dp { s.ino dp with ents := setEnt (s.ino dp).ents j ⟨0, List.replicate DIRSIZ 0⟩ }
         if (s.ino i).type = T_DIR then Sysfile.addLink s dp (-1) else s) := by
  have ht : T_DIR ≠ 0 := by decide
  unfold Graph.without
  dsimp only
  rw [setIno_ino, Function.update_of_ne hne, h.2]
  split
  . next hdir =>
    have hpos := hlink hdir
    unfold Sysfile.addLink
    rw [setIno_ino, Function.update_self]
    have hnlink : (((ino dp).nlink + (-1 : Int)) % 2 ^ 16).toNat = (ino dp).nlink - 1 := by omega
    rw [← hnlink]
    exact h.setIno_setIno hi (by rwa [hdp])
  . exact h.setIno hi (by rwa [hdp])

-- The end of `sys_unlink`.
theorem unlinkEntry (h : At (more (more refs dp) i) [i, dp] ino s) (hkept : Kept refs ino) (hs : ino.Short)
    (hne : i ≠ dp) (ht : (ino i).type ≠ 0) (hdp : (ino dp).type = T_DIR) (hpos : 0 < (ino i).nlink)
    (hlink : (ino i).type = T_DIR → 0 < (ino dp).nlink)
    : Ends (Fine dl nd) (fun a => At refs [] ((ino.remove dp j i).sweep refs) a.1)
        (do
          let s := s.setIno dp { s.ino dp with ents := setEnt (s.ino dp).ents j ⟨0, List.replicate DIRSIZ 0⟩ }
          let s := if (s.ino i).type = T_DIR then Sysfile.addLink s dp (-1) else s
          let s ← Sysfile.iunlockput s dp
          let s ← Sysfile.iunlockput (Sysfile.addLink s i (-1)) i
          return (s, (0 : Int))) := by
  have hmem : i ∉ [dp] := by simpa using hne
  have hposd : 0 < more (more refs i) dp dp := by
    rw [more_self]
    omega
  have hposi : 0 < more refs i i := by
    rw [more_self]
    omega
  have hlt := hs i
  have h1 := (h.removeEntry (by simp) hdp hne hlink (hs dp) j).swap
  rw [more_comm] at h1
  have hkept1 : Kept (more (more refs i) dp) (Function.update ino dp (ino.without dp j i)) :=
    ((hkept.more i).more dp).update hposd
  apply (At.iunlockput_sweep (h1.to_sweep hkept1) (by simpa using hne.symm)).bind
  intro s2 h2
  have hi : Graph.sweep (more refs i) (Function.update ino dp (ino.without dp j i)) i = ino i := by
    unfold Graph.sweep
    rw [if_neg (by omega), Function.update_of_ne hne]
  have h3 := h2.addLink (m := (ino i).nlink - 1) (n := -1) List.mem_cons_self (by rwa [hi]) (by rw [hi]; omega) (by omega)
  rw [Graph.relink, hi, sweep_update hposi, Function.update_comm hne.symm] at h3
  exact (At.iunlockput_sweep h3 List.not_mem_nil).bind fun s4 h4 => h4

theorem unlinkBad (h : At (more refs dp) [dp] ino s) (hkept : Kept refs ino)
    : Ends (Fine dl nd) (fun a => At refs [] (ino.sweep refs) a.1) (unlinkBad s dp) :=
  (h.iunlockput List.not_mem_nil hkept).bind fun _ h => h.to_sweep hkept

theorem sysUnlink (h : At refs [] ino s) (hr : Ready nd refs ino cwd) (hs : ino.Short) (hlinked : Linked ino)
    (path : List UInt8)
    : Ends (Fine dl nd) (fun a => At refs [] ((ino.unlink cwd path).sweep refs) a.1)
        (sysUnlink ninodes cwd path s) := by
  unfold Sysfile.sysUnlink Graph.unlink Graph.unlinked
  apply (h.nameiparent hr path).bind
  rintro ⟨s1, dp, name⟩ ⟨hgoal, hkey, h1⟩
  dsimp only at hgoal hkey h1 ⊢
  cases hdp : ino.nameiparent cwd path with
  | none =>
    rw [hdp] at hgoal
    rw [hgoal] at h1 ⊢
    exact h1.to_sweep hr.kept
  | some r =>
    obtain ⟨d, e⟩ := r
    rw [hdp] at hgoal hkey
    rw [hgoal] at h1 ⊢
    have hd := Graph.namex_parent hdp
    have hkey : key name = key e := hkey (d, e) rfl rfl
    have hpos : 0 < more refs d d := by
      rw [more_self]
      omega
    rw [Option.bind_some, ← findName_congr _ hkey]
    simp only [namecmp_eq_zero, ← hkey]
    apply (At.ilock h1 hpos List.not_mem_nil fun _ => by rw [hd]; decide).bind
    rintro s2 ⟨h2, -⟩
    by_cases hdots : key name = key dot ∨ key name = key dotdot
    . rw [if_pos hdots, if_pos hdots]
      exact h2.unlinkBad hr.kept
    . rw [if_neg hdots, if_neg hdots]
      rw [not_or] at hdots
      apply (h2.dirlookup hd name).bind
      rintro ⟨s3, found⟩ ⟨hfound, h3⟩
      cases hj : findName (ino d).ents name with
      | none =>
        rw [hj] at hfound
        cases hfound
        exact At.unlinkBad h3 hr.kept
      | some j =>
        rw [hj] at hfound
        cases hfound
        obtain ⟨de, hmem, hget, -, hinum, -⟩ := Graph.mem_of_findName hj
        have hfind : ino.find d name = some de.inum := by
          unfold Graph.find
          rw [hj, Option.map_some, hget]
        obtain ⟨hne, hnlink, hlink⟩ := hlinked d name de.inum hfind hdots.1 hdots.2
        have h3 : At (more (more refs d) de.inum) [d] ino s3 := by
          rw [← hget]
          exact h3
        rw [Option.bind_some]
        simp only [hget]
        have hmem' : de.inum ∉ [d] := by simpa using hne
        have hpos' : 0 < more (more refs d) de.inum de.inum := by
          rw [more_self]
          omega
        apply (At.ilock h3 hpos' hmem' fun hn => hr.sound hn d hd de hmem hinum).bind
        rintro s4 ⟨h4, ht⟩
        have hlt : ¬ short (s4.ino de.inum).nlink < 1 := by
          unfold short
          rw [h4.2, if_pos (hs de.inum)]
          omega
        have hiff : ((s4.ino de.inum).type = T_DIR ∧ isdirempty (s4.ino de.inum).ents = false) ↔
            ((ino de.inum).type = T_DIR ∧ isdirempty (ino de.inum).ents = false) := by
          rw [h4.2]
        by_cases hfull : (ino de.inum).type = T_DIR ∧ isdirempty (ino de.inum).ents = false
        . rw [if_neg hlt, if_pos (hiff.mpr hfull), if_pos hfull]
          exact (h4.iunlockput hmem' (hr.kept.more d)).bind fun s5 h5 => At.unlinkBad h5 hr.kept
        . rw [if_neg hlt, if_neg (mt hiff.mp hfull), if_neg hfull]
          exact h4.unlinkEntry hr.kept hs hne ht hd hnlink hlink

end At

end Xv6.Sysfile
