import Xv6.Sysfile.Cache

/-!
The paths: `namex` finds what the directories say, and puts back what it has taken on its way.
-/

namespace Xv6.Sysfile

open Xv6.Fs Xv6.Path

variable {dl nd : Prop} {refs : Nat → Nat} {locked : List Nat} {s : Store} {ino : Graph} {d i j ninodes : Nat}
variable {name name' path : List UInt8} {cs : List (List UInt8)}

-- No entry dangles.
def Sound (ino : Graph) : Prop :=
  ∀ d, (ino d).type = T_DIR → ∀ de ∈ (ino d).ents, de.inum ≠ 0 → (ino de.inum).type ≠ 0

theorem findName_congr (ents : List Dirent) (h : key name = key name') : findName ents name = findName ents name' := by
  unfold findName
  simp only [namecmp_eq_zero, h]

namespace Graph

theorem find_congr (ino : Graph) (h : key name = key name') : ino.find d name = ino.find d name' := by
  unfold find
  rw [findName_congr _ h]

-- The entry that `findName` finds is in use and has the name.
theorem mem_of_findName {ents : List Dirent} (h : findName ents name = some j)
    : ∃ de ∈ ents, ents.getD j ⟨0, []⟩ = de ∧ ents[j]? = some de ∧ de.inum ≠ 0 ∧ key name = key de.name := by
  obtain ⟨hlt, hj, -⟩ := List.findIdx?_eq_some_iff_getElem.mp h
  rw [decide_eq_true_eq, namecmp_eq_zero] at hj
  refine ⟨ents[j], List.getElem_mem hlt, ?_, List.getElem?_eq_getElem hlt, hj⟩
  rw [List.getD_eq_getElem?_getD, List.getElem?_eq_getElem hlt]
  rfl

theorem find_mem (h : ino.find d name = some i)
    : ∃ de ∈ (ino d).ents, de.inum = i ∧ i ≠ 0 ∧ key name = key de.name := by
  obtain ⟨j, hj, rfl⟩ := Option.map_eq_some_iff.mp h
  obtain ⟨de, hmem, hget, -, hne, hkey⟩ := mem_of_findName hj
  rw [hget]
  exact ⟨de, hmem, rfl, hne, hkey⟩

-- In sound directories a path leads to an inode.
theorem namex_type {parent : Bool} {e : List UInt8} (hsound : Sound ino) (hd : (ino d).type ≠ 0)
    (h : ino.namex parent d cs = some (i, e))
    : (ino i).type ≠ 0 := by
  induction cs generalizing d with
  | nil =>
    unfold namex at h
    split at h
    . cases h
    . cases h
      exact hd
  | cons c cs ih =>
    unfold namex at h
    split at h
    . cases h
    . next ht =>
      split at h
      . cases h
        exact hd
      . obtain ⟨k, hk, hnext⟩ := Option.bind_eq_some_iff.mp h
        obtain ⟨de, hmem, rfl, hne, -⟩ := find_mem hk
        exact ih (hsound d (not_not.mp ht) de hmem hne) hnext

-- A directory of a last element is one.
theorem namex_parent {e : List UInt8} (h : ino.namex true d cs = some (i, e)) : (ino i).type = T_DIR := by
  induction cs generalizing d with
  | nil => cases h
  | cons c cs ih =>
    unfold namex at h
    split at h
    . cases h
    . next ht =>
      split at h
      . cases h
        exact not_not.mp ht
      . obtain ⟨k, -, hnext⟩ := Option.bind_eq_some_iff.mp h
        exact ih hnext

end Graph

namespace At

theorem dirlookup (h : At refs locked ino s) (ht : (ino d).type = T_DIR) (name : List UInt8)
    : Ends (Fine dl nd)
        (fun a => a.2 = (findName (ino d).ents name).map (fun j => (((ino d).ents.getD j ⟨0, []⟩).inum, j)) ∧
          At (a.2.elim refs fun r => more refs r.1) locked ino a.1)
        (dirlookup ninodes s d name) := by
  obtain ⟨hconf, rfl⟩ := h
  unfold Sysfile.dirlookup
  rw [if_neg (not_not_intro ht)]
  cases findName (s.ino d).ents name with
  | none => exact ⟨rfl, hconf, rfl⟩
  | some j =>
    have hat : At refs locked s.ino s := ⟨hconf, rfl⟩
    exact (hat.iget _).bind fun s' h' => ⟨rfl, h'⟩

end At

theorem namexLoop_none {parent : Bool} (hskip : skipelem path name = none)
    : namexLoop ninodes parent path name i s =
        if parent then do
          let s ← iput s i
          return (s, none, name)
        else .ok (s, some i, name) := by
  rw [namexLoop]
  split
  . rfl
  . next hsome =>
    rw [hskip] at hsome
    cases hsome

theorem namexLoop_some {parent : Bool} {path' : List UInt8} (hskip : skipelem path name = some (path', name'))
    : namexLoop ninodes parent path name i s = (do
        let s ← ilock s i
        if (s.ino i).type ≠ T_DIR then
          let s ← iunlockput s i
          return (s, none, name')
        else if parent ∧ path'.headD 0 = 0 then
          let s ← iunlock s i
          return (s, some i, name')
        else
          let (s, next) ← dirlookup ninodes s i name'
          match next with
          | none =>
            let s ← iunlockput s i
            return (s, none, name')
          | some (next, _) =>
            let s ← iunlockput s i
            namexLoop ninodes parent path' name' next s) := by
  rw [namexLoop]
  split
  . next hnone =>
    rw [hskip] at hnone
    cases hnone
  . next hsome =>
    rw [hskip] at hsome
    cases hsome
    rfl

-- What `namex` returns when the directories say `goal`.
def Found (parent : Bool) (refs : Nat → Nat) (ino : Graph) (goal : Option (Nat × List UInt8))
    (a : Store × Option Nat × List UInt8)
    : Prop :=
  a.2.1 = goal.map Prod.fst ∧ (∀ r ∈ goal, parent = true → key a.2.2 = key r.2) ∧
    At (a.2.1.elim refs (more refs)) [] ino a.1

theorem namexLoop_found (parent : Bool) (hkept : Kept refs ino) (hsound : nd → Sound ino) (hcs : components path = cs)
    (h : At (more refs i) [] ino s) (hnd : nd → (ino i).type ≠ 0)
    : Ends (Fine dl nd) (Found parent refs ino (ino.namex parent i cs)) (namexLoop ninodes parent path name i s) := by
  induction cs generalizing path name i s with
  | nil =>
    rw [namexLoop_none (skipelem_none hcs name)]
    cases parent with
    | false => exact ⟨rfl, fun _ _ hf => (by cases hf), h⟩
    | true => exact (h.iput List.not_mem_nil hkept).bind fun s' h' => ⟨rfl, fun _ hr => (by cases hr), h'⟩
  | cons e cs ih =>
    obtain ⟨path', name', hskip, hpath, hname, hend⟩ := skipelem_some hcs name
    have hkey : key name' = key e := by
      rw [← hname, key_nameOf]
    have hpos : 0 < more refs i i := by
      rw [more_self]
      omega
    rw [namexLoop_some hskip, Graph.namex]
    apply (h.ilock hpos List.not_mem_nil hnd).bind
    rintro s1 ⟨h1, -⟩
    rw [h1.2]
    split
    . exact (h1.iunlockput List.not_mem_nil hkept).bind fun s2 h2 => ⟨rfl, fun _ hr => (by cases hr), h2⟩
    . next ht =>
      by_cases hstop : parent = true ∧ cs = []
      . rw [if_pos hstop, if_pos (c := parent = true ∧ path'.headD 0 = 0) (by rwa [hend])]
        apply (h1.iunlock List.not_mem_nil).bind
        intro s2 h2
        refine ⟨rfl, ?_, h2⟩
        rintro r ⟨⟩ _
        exact hkey
      . rw [if_neg hstop, if_neg (c := parent = true ∧ path'.headD 0 = 0) (by rwa [hend])]
        apply (h1.dirlookup (not_not.mp ht) name').bind
        rintro ⟨s2, found⟩ ⟨hfound, h2⟩
        rw [← Graph.find_congr ino hkey, Graph.find]
        cases hj : findName (ino i).ents name' with
        | none =>
          rw [hj] at hfound
          cases hfound
          exact (At.iunlockput h2 List.not_mem_nil hkept).bind fun s3 h3 => ⟨rfl, fun _ hr => (by cases hr), h3⟩
        | some j =>
          rw [hj] at hfound
          cases hfound
          dsimp only [Option.elim] at h2
          rw [more_comm] at h2
          apply (At.iunlockput h2 List.not_mem_nil (hkept.more _)).bind
          intro s3 h3
          apply ih hpath h3
          intro hn
          obtain ⟨de, hmem, hget, -, hne, -⟩ := Graph.mem_of_findName hj
          rw [hget]
          exact hsound hn i (not_not.mp ht) de hmem hne

theorem At.namex (parent : Bool) {cwd : Nat} (h : At refs [] ino s) (hkept : Kept refs ino) (hsound : nd → Sound ino)
    (hcwd : 0 < refs cwd) (hroot : nd → (ino ROOTINO).type ≠ 0) (hnd : nd → (ino cwd).type ≠ 0) (path : List UInt8)
    : Ends (Fine dl nd) (Found parent refs ino (ino.namex parent (Graph.start cwd path) (components path)))
        (namex ninodes parent cwd path s) := by
  unfold Sysfile.namex Graph.start
  split
  . exact (h.iget ROOTINO).bind fun s1 h1 => namexLoop_found parent hkept hsound rfl h1 hroot
  . exact namexLoop_found parent hkept hsound rfl (h.idup hcwd) hnd

end Xv6.Sysfile
