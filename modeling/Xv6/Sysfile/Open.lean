import Xv6.Sysfile.Create
import Xv6.Sysfile.Unlink

/-!
The calls that open an inode or only look it up.
-/

namespace Xv6.Sysfile

open Xv6.Fs Xv6.Path

variable {dl nd : Prop} {refs : Nat → Nat} {locked : List Nat} {s : Store} {ino : Graph} {d dp i j ninodes type : Nat}
variable {name name' path : List UInt8} {room : Store → Bool} {cwd : Nat} {ip : Inode}

theorem Kept.make (h : Kept refs ino) : Kept refs (ino.make ninodes cwd path type) := by
  unfold Graph.make
  split
  . next dp name i hroom hi =>
    obtain ⟨hdp, -⟩ := Option.filter_eq_some_iff.mp hroom
    apply h.add (by simp [Graph.newInode])
    rw [Graph.namex_parent hdp]
    decide
  . exact h

namespace At

theorem sysMake (h : At refs [] ino s) (hr : Ready nd refs ino cwd) (hs : ino.Short) (ht : type ≠ 0)
    (path : List UInt8)
    : Ends (Fine dl nd) (fun a => At refs [] (ino.make ninodes cwd path type) a.1)
        (sysMake ninodes room cwd path type s) := by
  unfold Sysfile.sysMake
  apply (h.create hr hs ht path).bind
  rintro ⟨s1, ip⟩ ⟨hip, h1⟩
  dsimp only at hip h1 ⊢
  cases ip with
  | none => exact h1
  | some i => exact (At.iunlockput h1 List.not_mem_nil hr.kept.make).bind fun s2 h2 => h2

theorem openInode (h : At refs [] ino s) (hr : Ready nd refs ino cwd) (hs : ino.Short) (path : List UInt8)
    (creates rdonly : Bool)
    : Ends (Fine dl nd)
        (fun a => a.2 = ino.opened ninodes cwd path creates rdonly ∧
          At (a.2.elim refs (more refs)) a.2.toList (if creates then ino.make ninodes cwd path T_FILE else ino) a.1)
        (openInode ninodes room cwd path creates rdonly s) := by
  unfold Sysfile.openInode Graph.opened
  cases creates with
  | true => exact h.create hr hs (by decide) path
  | false =>
    apply (h.namei hr path).bind
    rintro ⟨s1, ip⟩ ⟨hip, htype, h1⟩
    dsimp only at hip htype h1 ⊢
    rw [if_neg (by decide), ← hip]
    cases ip with
    | none => exact ⟨rfl, h1⟩
    | some i =>
      have hpos : 0 < more refs i i := by
        rw [more_self]
        omega
      apply (At.ilock h1 hpos List.not_mem_nil fun hn => htype hn i rfl).bind
      rintro s2 ⟨h2, -⟩
      rw [h2.2, Option.filter_some]
      by_cases hdir : (ino i).type = T_DIR ∧ rdonly = false
      . rw [if_pos hdir, if_neg (by simpa using hdir)]
        exact (h2.iunlockput List.not_mem_nil hr.kept).bind fun s3 h3 => ⟨rfl, h3⟩
      . rw [if_neg hdir, if_pos (decide_eq_true hdir)]
        exact ⟨rfl, h2⟩

theorem sysOpen (h : At refs [] ino s) (hr : Ready nd refs ino cwd) (hs : ino.Short) (path : List UInt8)
    (creates rdonly fd : Bool)
    : Ends (Fine dl nd)
        (fun a => a.2 = (if fd then ino.opened ninodes cwd path creates rdonly else none) ∧
          At (a.2.elim refs (more refs)) [] (if creates then ino.make ninodes cwd path T_FILE else ino) a.1)
        (sysOpen ninodes room cwd path creates rdonly fd s) := by
  have hkept : Kept refs (if creates then ino.make ninodes cwd path T_FILE else ino) := by
    split
    . exact hr.kept.make
    . exact hr.kept
  unfold Sysfile.sysOpen
  apply (h.openInode hr hs path creates rdonly).bind
  rintro ⟨s1, ip⟩ ⟨hip, h1⟩
  dsimp only at hip h1 ⊢
  rw [← hip]
  cases ip with
  | none => exact ⟨by simp, h1⟩
  | some i =>
    cases fd with
    | true => exact (At.iunlock h1 List.not_mem_nil).bind fun s2 h2 => ⟨rfl, h2⟩
    | false => exact (At.iunlockput h1 List.not_mem_nil hkept).bind fun s2 h2 => ⟨rfl, h2⟩

theorem sysChdir (h : At (more refs cwd) [] ino s) (hr : Ready nd (more refs cwd) ino cwd) (path : List UInt8)
    : Ends (Fine dl nd)
        (fun a => a.2 = (ino.namei cwd path).filter (fun ip => (ino ip).type = T_DIR) ∧
          At (more refs (a.2.getD cwd)) [] (ino.sweep (more refs (a.2.getD cwd))) a.1)
        (sysChdir ninodes cwd path s) := by
  unfold Sysfile.sysChdir
  apply (h.namei hr path).bind
  rintro ⟨s1, ip⟩ ⟨hip, htype, h1⟩
  dsimp only at hip htype h1 ⊢
  rw [← hip]
  cases ip with
  | none => exact ⟨rfl, At.to_sweep h1 hr.kept⟩
  | some i =>
    have hpos : 0 < more (more refs cwd) i i := by
      rw [more_self]
      omega
    rw [Option.filter_some]
    apply (At.ilock h1 hpos List.not_mem_nil fun hn => htype hn i rfl).bind
    rintro s2 ⟨h2, -⟩
    rw [h2.2]
    by_cases hdir : (ino i).type = T_DIR
    . rw [if_neg (not_not_intro hdir), if_pos (by simpa using hdir)]
      apply (h2.iunlock List.not_mem_nil).bind
      intro s3 h3
      have hkept := hr.kept.more i
      have h3 : At (more (more refs cwd) i) [] ino s3 := h3
      rw [more_comm] at h3 hkept
      exact (At.iput_sweep (h3.to_sweep hkept) List.not_mem_nil).bind fun s4 h4 => ⟨rfl, h4⟩
    . rw [if_pos hdir, if_neg (by simpa using hdir)]
      exact (h2.iunlockput List.not_mem_nil hr.kept).bind fun s3 h3 => ⟨rfl, h3.to_sweep hr.kept⟩

theorem exec (h : At refs [] ino s) (hr : Ready nd refs ino cwd) (path : List UInt8)
    : Ends (Fine dl nd) (At refs [] ino) (exec ninodes cwd path s) := by
  unfold Sysfile.exec
  apply (h.namei hr path).bind
  rintro ⟨s1, ip⟩ ⟨hip, htype, h1⟩
  dsimp only at hip htype h1 ⊢
  cases ip with
  | none => exact h1
  | some i =>
    have hpos : 0 < more refs i i := by
      rw [more_self]
      omega
    apply (At.ilock h1 hpos List.not_mem_nil fun hn => htype hn i rfl).bind
    rintro s2 ⟨h2, -⟩
    exact h2.iunlockput List.not_mem_nil hr.kept

end At

end Xv6.Sysfile
