import Xv6.Sysfile.Tree

/-!
The tree through the changes that the calls make to it.
-/

namespace Xv6.Sysfile

open Xv6.Fs Xv6.Path

variable {n : Nat} {ino ino' : Graph} {d i j k x dp type : Nat} {name : List UInt8} {ip : Inode} {refs : Nat → Nat}

-- What may be added as `i` to the directory `dp`: another link of a file, or a new inode.
structure Fits (n : Nat) (ino : Graph) (dp i : Nat) (name : List UInt8) (ip : Inode) : Prop where
  dir : (ino dp).type = T_DIR
  range : 0 < i ∧ i < n
  old : (ino i).type ≠ T_DIR
  nlink : ip.nlink = (ino i).nlink + 1
  type : ip.type ≠ 0
  kind : (ino i).type = 0 ∨ ip.type ≠ T_DIR
  ents : ip.ents = if ip.type = T_DIR then [⟨i, key dot⟩, ⟨dp, key dotdot⟩] else []
  name : key name ≠ key dot ∧ key name ≠ key dotdot

theorem key_ne_of_find (h : Tree n ino) (hd : (ino d).type = T_DIR) (hfind : ino.find d name = none)
    : key name ≠ key dot ∧ key name ≠ key dotdot := by
  have hall : ∀ de ∈ (ino d).ents, de.inum ≠ 0 → key name ≠ key de.name := by
    have hnone := List.findIdx?_eq_none_iff.mp (Option.map_eq_none_iff.mp hfind)
    intro de hde hne hkey
    have := hnone de hde
    rw [decide_eq_false_iff_not, namecmp_eq_zero] at this
    exact this ⟨hne, hkey⟩
  have hrange := (h.range d (by rw [hd]; decide)).1
  have hparent := h.parents d hd
  rw [h.shape d hd] at hall
  have hdot := hall ⟨d, key dot⟩ (by simp) (by dsimp only; omega)
  have hdotdot := hall ⟨parent (ino d), key dotdot⟩ (by simp) (by dsimp only; omega)
  rw [key_key] at hdot hdotdot
  exact ⟨hdot, hdotdot⟩

-- Below `.` and `..`, a directory has one entry more.
theorem ents_enter (h : Tree n ino) (hd : (ino d).type = T_DIR) (de : Dirent)
    : Graph.enter (ino d).ents de = ⟨d, key dot⟩ :: ⟨parent (ino d), key dotdot⟩ :: Graph.enter (rest (ino d)) de := by
  have hrange := (h.range d (by rw [hd]; decide)).1
  have hparent := h.parents d hd
  rw [h.shape d hd, enter_cons (by dsimp only; omega), enter_cons (by dsimp only; omega)]

section

variable (h : Tree n ino) (hf : Fits n ino dp i name ip)

include hf

theorem Fits.ne : i ≠ dp := by
  rintro rfl
  exact hf.old hf.dir

omit hf in
theorem add_dp : ino.add dp i name ip dp = { ino dp with
    nlink := (ino dp).nlink + if ip.type = T_DIR then 1 else 0
    ents := Graph.enter (ino dp).ents ⟨i, key name⟩ } := by
  unfold Graph.add
  rw [Function.update_self]

theorem add_self : ino.add dp i name ip i = ip := by
  unfold Graph.add
  rw [Function.update_of_ne hf.ne, Function.update_self]

omit hf in
theorem add_of_ne (hdp : k ≠ dp) (hi : k ≠ i) : ino.add dp i name ip k = ino k := by
  unfold Graph.add
  rw [Function.update_of_ne hdp, Function.update_of_ne hi]

theorem rest_self : rest ip = [] := by
  unfold rest
  rw [hf.ents]
  split <;> rfl

include h

theorem rest_add : rest (ino.add dp i name ip dp) = Graph.enter (rest (ino dp)) ⟨i, key name⟩ := by
  rw [add_dp]
  unfold rest
  dsimp only
  rw [ents_enter h hf.dir]
  rfl

theorem parent_add : parent (ino.add dp i name ip dp) = parent (ino dp) := by
  rw [add_dp]
  unfold parent
  dsimp only
  rw [ents_enter h hf.dir]
  rfl

theorem grows_add : Grows n ino (ino.add dp i name ip) dp i := by
  have hne := hf.ne
  constructor
  . exact (h.range dp (by rw [hf.dir]; decide)).2
  . exact hf.range.2
  . exact hne
  . intro d j
    unfold names
    by_cases hdp : d = dp
    . subst hdp
      rw [rest_add h hf, named_enter]
      congr 1
      unfold tally
      have := hf.range.1
      by_cases hj : j = i
      . subst hj
        simp
        omega
      . simp [hj, Ne.symm hj]
    . rw [if_neg (fun hd => hdp hd.1)]
      by_cases hi : d = i
      . subst hi
        rw [add_self hf, rest_self hf]
        exact (h.names_of_not_dir hf.old).symm
      . rw [add_of_ne hdp hi]
        rfl
  . intro j hj
    by_cases hdp : j = dp
    . subst hdp
      rw [add_dp]
      rfl
    . rw [add_of_ne hdp hj]
  . rw [add_self hf]
    rcases hf.kind with hfree | hfile
    . exact .inr (h.names_free hfree)
    . left
      unfold isDir
      rw [if_neg hfile, if_neg hf.old]
  . rw [add_self hf, hf.nlink]
  . rw [add_dp, add_self hf]
    rfl
  . intro k hi hdp
    rw [add_of_ne hdp hi]

theorem tree_add : Tree n (ino.add dp i name ip) := by
  have hgrows := grows_add h hf
  have hne := hf.ne
  have hcases : ∀ k, k = dp ∨ k = i ∨ (k ≠ dp ∧ k ≠ i) := by
    intro k
    omega
  constructor
  . intro k hk
    rcases hcases k with rfl | rfl | ⟨hdp, hi⟩
    . exact h.range k (by rw [hf.dir]; decide)
    . exact hf.range
    . rw [add_of_ne hdp hi] at hk
      exact h.range k hk
  . rcases hcases ROOTINO with heq | heq | ⟨hdp, hi⟩
    . rw [heq, add_dp]
      exact hf.dir
    . exact absurd h.root (heq ▸ hf.old)
    . rw [add_of_ne hdp hi]
      exact h.root
  . intro k hk
    rcases hcases k with rfl | rfl | ⟨hdp, hi⟩
    . rw [add_dp] at hk
      rw [hf.dir] at hk
      cases hk
    . rw [add_self hf] at hk
      exact absurd hk hf.type
    . rw [add_of_ne hdp hi] at hk ⊢
      exact h.free k hk
  . intro k hk
    rcases hcases k with rfl | rfl | ⟨hdp, hi⟩
    . rw [add_dp] at hk
      exact absurd hf.dir hk
    . rw [add_self hf] at hk ⊢
      rw [hf.ents, if_neg hk]
    . rw [add_of_ne hdp hi] at hk ⊢
      exact h.plain k hk
  . intro k hk
    rcases hcases k with rfl | rfl | ⟨hdp, hi⟩
    . rw [rest_add h hf, parent_add h hf, add_dp, ← ents_enter h hf.dir]
    . rw [add_self hf] at hk ⊢
      rw [rest_self hf]
      unfold parent
      rw [hf.ents, if_pos hk]
      rfl
    . rw [add_of_ne hdp hi] at hk ⊢
      exact h.shape k hk
  . intro k hk
    rcases hcases k with rfl | rfl | ⟨hdp, hi⟩
    . rw [parent_add h hf]
      exact h.parents k hf.dir
    . rw [add_self hf] at hk ⊢
      unfold parent
      rw [hf.ents, if_pos hk]
      exact (h.range dp (by rw [hf.dir]; decide)).1
    . rw [add_of_ne hdp hi] at hk ⊢
      exact h.parents k hk
  . intro k de hde hinum
    rcases hcases k with rfl | rfl | ⟨hdp, hi⟩
    . rw [rest_add h hf] at hde
      rcases mem_enter hde with hold | rfl
      . exact h.ordinary k de hold hinum
      . dsimp only
        rw [key_key]
        exact hf.name
    . rw [add_self hf, rest_self hf] at hde
      cases hde
    . rw [add_of_ne hdp hi] at hde
      exact h.ordinary k de hde hinum
  . intro d
    rw [hgrows.names, h.self, if_neg]
    rintro ⟨rfl, heq⟩
    exact hne heq.symm
  . intro k
    have := hgrows.balanced k
    have := h.count k
    omega

end

-- The entry `j` of `dp` that `sys_unlink` takes away.
structure Loses (ino : Graph) (dp j i : Nat) : Prop where
  dir : (ino dp).type = T_DIR
  entry : ∃ de, (ino dp).ents[j]? = some de ∧ de.inum = i ∧ key de.name ≠ key dot ∧ key de.name ≠ key dotdot
  pos : 0 < i

section

variable (h : Tree n ino) (hf : Loses ino dp j i)

include h hf

-- It is none of the first two.
theorem ents_without
    : ∃ j' de, (rest (ino dp))[j']? = some de ∧ de.inum = i ∧
        setEnt (ino dp).ents j ⟨0, List.replicate DIRSIZ 0⟩ =
          ⟨dp, key dot⟩ :: ⟨parent (ino dp), key dotdot⟩ :: (rest (ino dp)).set j' ⟨0, List.replicate DIRSIZ 0⟩ := by
  obtain ⟨de, hget, hinum, hdot, hdotdot⟩ := hf.entry
  have hlt := (List.getElem?_eq_some_iff.mp hget).1
  unfold setEnt
  rw [if_pos hlt]
  rw [h.shape dp hf.dir] at hget ⊢
  match j, hget with
  | 0, hget =>
    cases hget
    exact absurd (key_key dot) hdot
  | 1, hget =>
    cases hget
    exact absurd (key_key dotdot) hdotdot
  | j' + 2, hget => exact ⟨j', de, hget, hinum, rfl⟩

theorem names_loses : 0 < names ino dp i := by
  obtain ⟨j', de, hget, hinum, -⟩ := ents_without h hf
  have hpos := hf.pos
  exact List.countP_pos_iff.mpr ⟨de, List.mem_of_getElem? hget, by simp [hinum]; omega⟩

theorem Loses.ne : i ≠ dp := by
  rintro rfl
  have := names_loses h hf
  rw [h.self] at this
  omega

omit h hf in
theorem remove_dp : ino.remove dp j i dp = ino.without dp j i := by
  unfold Graph.remove
  rw [Function.update_self]

theorem remove_self : ino.remove dp j i i = { ino i with nlink := (ino i).nlink - 1 } := by
  unfold Graph.remove
  rw [Function.update_of_ne (hf.ne h), Function.update_self]

omit h hf in
theorem remove_of_ne (hdp : k ≠ dp) (hi : k ≠ i) : ino.remove dp j i k = ino k := by
  unfold Graph.remove
  rw [Function.update_of_ne hdp, Function.update_of_ne hi]

omit h hf in
theorem type_remove (k : Nat) : (ino.remove dp j i k).type = (ino k).type := by
  unfold Graph.remove
  rw [Function.update_apply]
  split
  . next heq => rw [heq]; rfl
  . rw [Function.update_apply]
    split
    . next heq => rw [heq]
    . rfl

omit h hf in
theorem ents_remove (hdp : k ≠ dp) : (ino.remove dp j i k).ents = (ino k).ents := by
  unfold Graph.remove
  rw [Function.update_of_ne hdp, Function.update_apply]
  split
  . next heq => rw [heq]
  . rfl

theorem named_remove (x : Nat)
    : names (ino.remove dp j i) dp x + (if x = i then 1 else 0) = names ino dp x := by
  obtain ⟨j', de, hget, hinum, hents⟩ := ents_without h hf
  have hset := named_set hget x ⟨0, List.replicate DIRSIZ 0⟩
  have hrest : rest (ino.remove dp j i dp) = (rest (ino dp)).set j' ⟨0, List.replicate DIRSIZ 0⟩ := by
    rw [remove_dp]
    unfold rest Graph.without
    dsimp only
    rw [hents]
    rfl
  have hpos := hf.pos
  have hde : tally x de = if x = i then 1 else 0 := by
    unfold tally
    rw [hinum]
    by_cases hx : x = i
    . subst hx
      simp
      omega
    . simp [hx, Ne.symm hx]
  have hzero : tally x ⟨0, List.replicate DIRSIZ 0⟩ = 0 := by
    unfold tally
    simp
  unfold names
  rw [hrest]
  omega

theorem grows_remove : Grows n (ino.remove dp j i) ino dp i := by
  have hne := hf.ne h
  have hpos := names_loses h hf
  constructor
  . exact (h.range dp (by rw [hf.dir]; decide)).2
  . exact (h.range i (h.type_ne_zero hpos)).2
  . exact hne
  . intro d x
    by_cases hdp : d = dp
    . subst hdp
      rw [← named_remove h hf]
      simp
    . have : names (ino.remove dp j i) d x = names ino d x := by
        unfold names rest
        rw [ents_remove hdp]
      rw [this, if_neg (fun hd => hdp hd.1)]
      rfl
  . intro x _
    unfold isDir
    rw [type_remove]
  . left
    unfold isDir
    rw [type_remove]
  . have := h.names_le_nlink dp i
    rw [remove_self h hf]
    dsimp only
    omega
  . have := h.isDir_le_nlink hpos
    rw [remove_dp]
    unfold isDir at *
    unfold Graph.without
    dsimp only
    omega
  . intro k hi hdp
    rw [remove_of_ne hdp hi]

theorem tree_remove : Tree n (ino.remove dp j i) := by
  have hgrows := grows_remove h hf
  obtain ⟨j', de, hget, hinum, hents⟩ := ents_without h hf
  have hdp : (ino.remove dp j i dp).ents =
      ⟨dp, key dot⟩ :: ⟨parent (ino dp), key dotdot⟩ :: (rest (ino dp)).set j' ⟨0, List.replicate DIRSIZ 0⟩ := by
    rw [remove_dp]
    exact hents
  have hrest : rest (ino.remove dp j i dp) = (rest (ino dp)).set j' ⟨0, List.replicate DIRSIZ 0⟩ := by
    unfold rest at *
    rw [hdp]
    rfl
  have hparent : ∀ k, (ino k).type = T_DIR → parent (ino.remove dp j i k) = parent (ino k) := by
    intro k hk
    unfold parent at *
    by_cases heq : k = dp
    . subst heq
      rw [hdp]
      rfl
    . rw [ents_remove heq]
  constructor
  . intro k hk
    rw [type_remove] at hk
    exact h.range k hk
  . rw [type_remove]
    exact h.root
  . intro k hk
    rw [type_remove] at hk
    rw [remove_of_ne]
    . exact h.free k hk
    . rintro rfl
      rw [hf.dir] at hk
      cases hk
    . rintro rfl
      exact h.type_ne_zero (names_loses h hf) hk
  . intro k hk
    rw [type_remove] at hk
    rw [ents_remove, h.plain k hk]
    rintro rfl
    exact hk hf.dir
  . intro k hk
    rw [type_remove] at hk
    rw [hparent k hk]
    by_cases heq : k = dp
    . subst heq
      rw [hrest, hdp]
    . unfold rest
      rw [ents_remove heq]
      exact h.shape k hk
  . intro k hk
    rw [type_remove] at hk
    rw [hparent k hk]
    exact h.parents k hk
  . intro k de' hde' hne'
    by_cases heq : k = dp
    . subst heq
      rw [hrest] at hde'
      rcases List.mem_or_eq_of_mem_set hde' with hold | rfl
      . exact h.ordinary k de' hold hne'
      . exact absurd rfl hne'
    . unfold rest at hde'
      rw [ents_remove heq] at hde'
      exact h.ordinary k de' hde' hne'
  . intro d
    have := h.self d
    rw [hgrows.names] at this
    omega
  . intro k
    have := hgrows.balanced k
    have := h.count k
    omega

end

section

variable (h : Tree n ino)

include h

theorem sweep_root : ino.sweep refs ROOTINO = ino ROOTINO := by
  have := h.root_nlink
  unfold Graph.sweep
  rw [if_neg (by omega)]

theorem tree_sweep : Tree n (ino.sweep refs) := by
  have hcases : ∀ k, (ino.sweep refs k = Inode.free ∧ (ino k).nlink = 0) ∨ ino.sweep refs k = ino k := by
    intro k
    unfold Graph.sweep
    split
    . next hk => exact .inl ⟨rfl, hk.1⟩
    . exact .inr rfl
  have htype : ∀ k, (ino.sweep refs k).type ≠ 0 → ino.sweep refs k = ino k := by
    intro k hk
    rcases hcases k with ⟨heq, -⟩ | heq
    . rw [heq] at hk
      exact absurd rfl hk
    . exact heq
  have hdir : T_DIR ≠ 0 := by decide
  have hnames : ∀ d k, names (ino.sweep refs) d k ≤ names ino d k := by
    intro d k
    unfold names
    rcases hcases d with ⟨heq, -⟩ | heq
    . rw [heq]
      exact Nat.zero_le _
    . rw [heq]
  have hisDir : ∀ k, isDir (ino.sweep refs k) ≤ isDir (ino k) := by
    intro k
    rcases hcases k with ⟨heq, -⟩ | heq
    . rw [heq]
      exact Nat.zero_le _
    . rw [heq]
  constructor
  . intro k hk
    rw [htype k hk] at hk
    exact h.range k hk
  . rw [sweep_root h]
    exact h.root
  . intro k hk
    rcases hcases k with ⟨heq, -⟩ | heq
    . rw [heq]
      rfl
    . rw [heq] at hk ⊢
      exact h.free k hk
  . intro k hk
    rcases hcases k with ⟨heq, -⟩ | heq
    . rw [heq]
      rfl
    . rw [heq] at hk ⊢
      exact h.plain k hk
  . intro k hk
    have heq := htype k (by rw [hk]; exact hdir)
    rw [heq] at hk ⊢
    exact h.shape k hk
  . intro k hk
    have heq := htype k (by rw [hk]; exact hdir)
    rw [heq] at hk ⊢
    exact h.parents k hk
  . intro k de hde
    rcases hcases k with ⟨heq, -⟩ | heq
    . rw [heq] at hde
      cases hde
    . rw [heq] at hde
      exact h.ordinary k de hde
  . intro d
    have := hnames d d
    have := h.self d
    omega
  . intro k
    have hnormal : normal n (ino.sweep refs) k ≤ normal n ino k := Finset.sum_le_sum fun d _ => hnames d k
    have hsubs : subs n (ino.sweep refs) k ≤ subs n ino k :=
      Finset.sum_le_sum fun j _ => Nat.mul_le_mul (hisDir j) (hnames k j)
    have hnlink : (ino.sweep refs k).nlink = (ino k).nlink := by
      rcases hcases k with ⟨heq, hzero⟩ | heq
      . rw [heq, hzero]
        rfl
      . rw [heq]
    have := h.count k
    unfold links at *
    omega

end

end Xv6.Sysfile
