import Mathlib.Algebra.Order.BigOperators.Group.Finset
import Xv6.Sysfile.Unlink

/-!
The directories and the link counts, whatever happens: each entry but `.` and `..` names an inode with a link for it. The
first two entries of a directory are `.` and `..`, `rest` has the other ones.
-/

namespace Xv6.Sysfile

open Xv6.Fs Xv6.Path

def rest (ip : Inode) : List Dirent :=
  ip.ents.drop 2

def parent (ip : Inode) : Nat :=
  (ip.ents.getD 1 ⟨0, []⟩).inum

-- How many entries of the list name `i`.
def named (i : Nat) (ents : List Dirent) : Nat :=
  ents.countP fun de => de.inum ≠ 0 ∧ de.inum = i

-- How often the directory `d` names the inode `i`.
def names (ino : Graph) (d i : Nat) : Nat :=
  named i (rest (ino d))

def isDir (ip : Inode) : Nat :=
  if ip.type = T_DIR then 1 else 0

-- The entries that name `i`, and the ones in `i` that name directories.
def normal (n : Nat) (ino : Graph) (i : Nat) : Nat :=
  ∑ d ∈ Finset.range n, names ino d i

def subs (n : Nat) (ino : Graph) (i : Nat) : Nat :=
  ∑ j ∈ Finset.range n, isDir (ino j) * names ino i j

def links (n : Nat) (ino : Graph) (i : Nat) : Nat :=
  normal n ino i + subs n ino i

structure Tree (n : Nat) (ino : Graph) : Prop where
  range : ∀ i, (ino i).type ≠ 0 → 0 < i ∧ i < n
  root : (ino ROOTINO).type = T_DIR
  free : ∀ i, (ino i).type = 0 → (ino i).nlink = 0
  plain : ∀ i, (ino i).type ≠ T_DIR → (ino i).ents = []
  shape : ∀ d, (ino d).type = T_DIR → (ino d).ents = ⟨d, key dot⟩ :: ⟨parent (ino d), key dotdot⟩ :: rest (ino d)
  parents : ∀ d, (ino d).type = T_DIR → 0 < parent (ino d)
  ordinary : ∀ d, ∀ de ∈ rest (ino d), de.inum ≠ 0 → key de.name ≠ key dot ∧ key de.name ≠ key dotdot
  self : ∀ d, names ino d d = 0
  count : ∀ i, links n ino i + (if i = ROOTINO then 1 else 0) ≤ (ino i).nlink

variable {n : Nat} {ino ino' : Graph} {d i j k x dp : Nat} {name : List UInt8} {ip : Inode}

theorem key_key (name : List UInt8) : key (key name) = key name :=
  strncpy_strncpy DIRSIZ name

section

variable {ents : List Dirent} {a b de : Dirent}

theorem enter_cons (ha : a.inum ≠ 0) : Graph.enter (a :: ents) de = a :: Graph.enter ents de := by
  have hslot : Graph.slot (a :: ents) = Graph.slot ents + 1 := by
    unfold Graph.slot
    rw [List.findIdx?_cons, if_neg (by simpa using ha)]
    cases ents.findIdx? fun de => decide (de.inum = 0) <;> simp
  unfold Graph.enter setEnt
  rw [hslot]
  simp only [List.length_cons, Nat.add_lt_add_iff_right, List.set_cons_succ]
  split <;> rfl

theorem enter_free (ha : a.inum = 0) : Graph.enter (a :: ents) de = de :: ents := by
  have hslot : Graph.slot (a :: ents) = 0 := by
    unfold Graph.slot
    rw [List.findIdx?_cons, if_pos (by simpa using ha)]
    rfl
  unfold Graph.enter setEnt
  rw [hslot]
  rfl

-- Whether the entry names `i`.
def tally (i : Nat) (de : Dirent) : Nat :=
  if de.inum ≠ 0 ∧ de.inum = i then 1 else 0

theorem named_cons (i : Nat) (a : Dirent) (ents : List Dirent) : named i (a :: ents) = named i ents + tally i a := by
  unfold named tally
  rw [List.countP_cons]
  simp

-- A new entry takes no other one's place.
theorem named_enter (i : Nat) (ents : List Dirent) (de : Dirent)
    : named i (Graph.enter ents de) = named i ents + tally i de := by
  induction ents with
  | nil => exact named_cons i de []
  | cons a ents ih =>
    by_cases ha : a.inum = 0
    . have htally : tally i a = 0 := by
        unfold tally
        rw [if_neg (by simp [ha])]
      rw [enter_free ha, named_cons, named_cons, htally]
      rfl
    . rw [enter_cons ha, named_cons, named_cons, ih]
      omega

theorem named_set {j : Nat} (hj : ents[j]? = some a) (i : Nat) (b : Dirent)
    : named i (ents.set j b) + tally i a = named i ents + tally i b := by
  induction ents generalizing j with
  | nil => simp at hj
  | cons c ents ih =>
    cases j with
    | zero =>
      simp only [List.getElem?_cons_zero, Option.some.injEq] at hj
      rw [hj, List.set_cons_zero, named_cons, named_cons]
      omega
    | succ j =>
      rw [List.set_cons_succ, named_cons, named_cons]
      have := ih (j := j) (by simpa using hj)
      omega

theorem mem_enter (h : a ∈ Graph.enter ents de) : a ∈ ents ∨ a = de := by
  unfold Graph.enter setEnt at h
  split at h
  . exact List.mem_or_eq_of_mem_set h
  . simpa using h

end

namespace Tree

theorem names_of_not_dir (h : Tree n ino) (hd : (ino d).type ≠ T_DIR) : names ino d i = 0 := by
  unfold names rest
  rw [h.plain d hd]
  rfl

theorem names_le (h : Tree n ino) (d i : Nat) : names ino d i ≤ normal n ino i := by
  by_cases hd : (ino d).type = T_DIR
  . have hlt := (h.range d (by rw [hd]; decide)).2
    exact Finset.single_le_sum (f := fun d => names ino d i) (fun _ _ => Nat.zero_le _) (Finset.mem_range.mpr hlt)
  . rw [h.names_of_not_dir hd]
    exact Nat.zero_le _

theorem names_le_nlink (h : Tree n ino) (d i : Nat) : names ino d i ≤ (ino i).nlink := by
  have hle := h.names_le d i
  have := h.count i
  unfold links at this
  omega

-- What an ordinary entry names is allocated.
theorem type_ne_zero (h : Tree n ino) (hi : 0 < names ino d i) : (ino i).type ≠ 0 := by
  intro hzero
  have := h.names_le_nlink d i
  rw [h.free i hzero] at this
  omega

theorem names_free (h : Tree n ino) (hi : (ino i).type = 0) (d : Nat) : names ino d i = 0 := by
  have := h.names_le_nlink d i
  rw [h.free i hi] at this
  omega

-- A directory has a link for the `..` of each directory in it.
theorem isDir_le_nlink (h : Tree n ino) (hpos : 0 < names ino d i) : isDir (ino i) ≤ (ino d).nlink := by
  have hle : isDir (ino i) * names ino d i ≤ subs n ino d := by
    have hlt := (h.range i (h.type_ne_zero hpos)).2
    exact Finset.single_le_sum (f := fun j => isDir (ino j) * names ino d j) (fun _ _ => Nat.zero_le _)
      (Finset.mem_range.mpr hlt)
  have hmul : isDir (ino i) ≤ isDir (ino i) * names ino d i := Nat.le_mul_of_pos_right _ hpos
  have := h.count d
  unfold links at this
  omega

theorem root_nlink (h : Tree n ino) : 0 < (ino ROOTINO).nlink := by
  have := h.count ROOTINO
  rw [if_pos rfl] at this
  omega

-- Where an entry is that has been found.
theorem find_cases (h : Tree n ino) (hfind : ino.find d name = some i)
    : (ino d).type = T_DIR ∧ i ≠ 0 ∧
      ((key name = key dot ∧ i = d) ∨ (key name = key dotdot ∧ i = parent (ino d)) ∨
        (key name ≠ key dot ∧ key name ≠ key dotdot ∧ 0 < names ino d i)) := by
  obtain ⟨de, hmem, rfl, hne, hkey⟩ := Graph.find_mem hfind
  have hdir : (ino d).type = T_DIR := by
    by_contra hd
    rw [h.plain d hd] at hmem
    cases hmem
  refine ⟨hdir, hne, ?_⟩
  rw [h.shape d hdir, List.mem_cons, List.mem_cons] at hmem
  rcases hmem with rfl | rfl | hmem
  . exact .inl ⟨by rw [hkey, key_key], rfl⟩
  . exact .inr (.inl ⟨by rw [hkey, key_key], rfl⟩)
  . have hord := h.ordinary d de hmem hne
    refine .inr (.inr ⟨by rw [hkey]; exact hord.1, by rw [hkey]; exact hord.2, ?_⟩)
    exact List.countP_pos_iff.mpr ⟨de, hmem, by simp [hne]⟩

theorem linked (h : Tree n ino) : Linked ino := by
  intro d name i hfind hdot hdotdot
  obtain ⟨-, -, hcases⟩ := h.find_cases hfind
  rcases hcases with ⟨hkey, -⟩ | ⟨hkey, -⟩ | ⟨-, -, hpos⟩
  . exact absurd hkey hdot
  . exact absurd hkey hdotdot
  . have hle := h.names_le_nlink d i
    refine ⟨?_, by omega, ?_⟩
    . rintro rfl
      rw [h.self] at hpos
      omega
    . intro hdir
      have hlink := h.isDir_le_nlink hpos
      unfold isDir at hlink
      rw [if_pos hdir] at hlink
      omega

end Tree

-- There is one more entry for `i`, in `dp`, and the link counts know of it.
structure Grows (n : Nat) (ino ino' : Graph) (dp i : Nat) : Prop where
  dp_lt : dp < n
  lt : i < n
  ne : i ≠ dp
  names : ∀ d j, names ino' d j = names ino d j + if d = dp ∧ j = i then 1 else 0
  dirs : ∀ j, j ≠ i → isDir (ino' j) = isDir (ino j)
  dir : isDir (ino' i) = isDir (ino i) ∨ ∀ d, Sysfile.names ino d i = 0
  nlink_self : (ino' i).nlink = (ino i).nlink + 1
  nlink_dp : (ino' dp).nlink = (ino dp).nlink + isDir (ino' i)
  nlink : ∀ k, k ≠ i → k ≠ dp → (ino' k).nlink = (ino k).nlink

namespace Grows

theorem normal_eq (h : Grows n ino ino' dp i) (k : Nat)
    : normal n ino' k = normal n ino k + if k = i then 1 else 0 := by
  unfold normal
  simp only [h.names, Finset.sum_add_distrib]
  congr 1
  by_cases hk : k = i
  . simp [hk, h.dp_lt]
  . simp [hk]

theorem subs_eq (h : Grows n ino ino' dp i) (k : Nat)
    : subs n ino' k = subs n ino k + if k = dp then isDir (ino' i) else 0 := by
  have hold : ∀ j, isDir (ino' j) * Sysfile.names ino k j = isDir (ino j) * Sysfile.names ino k j := by
    intro j
    by_cases hj : j = i
    . subst hj
      rcases h.dir with hdir | hzero
      . rw [hdir]
      . rw [hzero, Nat.mul_zero, Nat.mul_zero]
    . rw [h.dirs j hj]
  unfold subs
  simp only [h.names, Nat.mul_add, Finset.sum_add_distrib, hold]
  congr 1
  by_cases hk : k = dp
  . simp [hk, h.lt]
  . simp [hk]

/-- The link counts stay as right or wrong as they are. -/
theorem balanced (h : Grows n ino ino' dp i) (k : Nat)
    : links n ino' k + (ino k).nlink = links n ino k + (ino' k).nlink := by
  unfold links
  rw [h.normal_eq, h.subs_eq]
  by_cases hi : k = i
  . subst hi
    have := h.nlink_self
    rw [if_pos rfl, if_neg h.ne]
    omega
  . by_cases hdp : k = dp
    . subst hdp
      have := h.nlink_dp
      rw [if_neg hi, if_pos rfl]
      omega
    . rw [if_neg hi, if_neg hdp, h.nlink k hi hdp]
      omega

end Grows

end Xv6.Sysfile
