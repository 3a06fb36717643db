import Xv6.Sysfile.System

/-!
The tree when nobody makes a name in a directory that has been removed: the link counts are exact, and every inode is in
use or can be reached from the root.
-/

namespace Xv6.Sysfile

open Xv6.Fs Xv6.Path

variable {n : Nat} {ino : Graph} {d i j k x dp : Nat} {name : List UInt8} {ip : Inode} {refs : Nat → Nat}

-- The ordinary entries lead from the root to the inode.
inductive Reaches (ino : Graph) : Nat → Prop where
  | root : Reaches ino ROOTINO
  | step {d i : Nat} (h : Reaches ino d) (hdir : (ino d).type = T_DIR) (hnames : 0 < names ino d i) : Reaches ino i

structure Exact (n : Nat) (ino : Graph) : Prop where
  count : ∀ i, links n ino i + (if i = ROOTINO then 1 else 0) = (ino i).nlink
  top : parent (ino ROOTINO) = ROOTINO
  nameless : ∀ x, names ino x ROOTINO = 0
  placed : ∀ d, (ino d).type = T_DIR → d ≠ ROOTINO → ∀ x,
    names ino x d = if x = parent (ino d) ∧ (ino d).nlink ≠ 0 then 1 else 0
  emptied : ∀ d, (ino d).type = T_DIR → (ino d).nlink = 0 → ∀ j, names ino d j = 0
  reaches : ∀ d, (ino d).type = T_DIR → (ino d).nlink ≠ 0 → Reaches ino d

theorem Reaches.mono {ino' : Graph} (h : Reaches ino i) (hdir : ∀ d, (ino d).type = T_DIR → (ino' d).type = T_DIR)
    (hnames : ∀ d j, (ino d).type = T_DIR → 0 < names ino d j → 0 < names ino' d j)
    : Reaches ino' i := by
  induction h with
  | root => exact .root
  | step _ hd hpos ih => exact .step ih (hdir _ hd) (hnames _ _ hd hpos)

section

variable (h : Tree n ino) (he : Exact n ino)

include h he

theorem exact_add (hf : Fits n ino dp i name ip) (hdp : (ino dp).nlink ≠ 0) : Exact n (ino.add dp i name ip) := by
  have hgrows := grows_add h hf
  have hne := hf.ne
  have hroot : i ≠ ROOTINO := by
    rintro rfl
    exact hf.old h.root
  have hnlink : (ino.add dp i name ip dp).nlink ≠ 0 := by
    rw [add_dp]
    dsimp only
    omega
  constructor
  . intro k
    have := hgrows.balanced k
    have := he.count k
    omega
  . by_cases heq : ROOTINO = dp
    . rw [heq, parent_add h hf, ← heq]
      exact he.top
    . rw [add_of_ne heq hroot.symm]
      exact he.top
  . intro x
    rw [hgrows.names, he.nameless, if_neg fun hx => hroot hx.2.symm]
  . intro d hd hdr x
    rw [hgrows.names]
    by_cases hi : d = i
    . subst hi
      rw [add_self hf] at hd ⊢
      have hfree : (ino d).type = 0 := by
        rcases hf.kind with hfree | hfile
        . exact hfree
        . exact absurd hd hfile
      have hparent : parent ip = dp := by
        unfold parent
        rw [hf.ents, if_pos hd]
        rfl
      rw [h.names_free hfree, hparent, hf.nlink]
      simp
    . rw [if_neg fun hx => hi hx.2, Nat.add_zero]
      by_cases heq : d = dp
      . subst heq
        rw [he.placed d hf.dir hdr, parent_add h hf]
        simp [hdp, hnlink]
      . rw [add_of_ne heq hi] at hd ⊢
        exact he.placed d hd hdr x
  . intro d hd hzero j
    have hdne : d ≠ dp := by
      rintro rfl
      exact hnlink hzero
    have hi : d ≠ i := by
      rintro rfl
      rw [add_self hf, hf.nlink] at hzero
      omega
    rw [hgrows.names, if_neg fun hx => hdne hx.1]
    rw [add_of_ne hdne hi] at hd hzero
    exact he.emptied d hd hzero j
  . have hmono : ∀ d, Reaches ino d → Reaches (ino.add dp i name ip) d := by
      intro d hr
      apply hr.mono
      . intro x hx
        by_cases heq : x = dp
        . rw [heq, add_dp]
          exact hf.dir
        . rw [add_of_ne heq]
          . exact hx
          . rintro rfl
            exact hf.old hx
      . intro x j _ hpos
        rw [hgrows.names]
        omega
    intro d hd hnz
    by_cases hi : d = i
    . subst hi
      apply Reaches.step (hmono dp (he.reaches dp hf.dir hdp))
      . rw [add_dp]
        exact hf.dir
      . rw [hgrows.names, if_pos ⟨rfl, rfl⟩]
        omega
    . apply hmono
      by_cases heq : d = dp
      . exact heq ▸ he.reaches dp hf.dir hdp
      . rw [add_of_ne heq hi] at hd hnz
        exact he.reaches d hd hnz

omit h he in
theorem names_of_isdirempty (hempty : isdirempty (ino d).ents = true) (j : Nat) : names ino d j = 0 := by
  unfold names named
  rw [List.countP_eq_zero]
  intro de hde
  have := List.all_eq_true.mp hempty de hde
  rw [decide_eq_true_eq] at this
  simp [this]

-- An empty directory has the link of its name only.
theorem nlink_of_empty (hi : (ino i).type = T_DIR) (hr : i ≠ ROOTINO) (hnz : (ino i).nlink ≠ 0)
    (hempty : ∀ j, names ino i j = 0)
    : (ino i).nlink = 1 := by
  have hcount := he.count i
  have hlt : parent (ino i) < n := by
    have hpos : 0 < names ino (parent (ino i)) i := by
      rw [he.placed i hi hr, if_pos ⟨rfl, hnz⟩]
      omega
    by_cases hd : (ino (parent (ino i))).type = T_DIR
    . exact (h.range _ (by rw [hd]; decide)).2
    . rw [h.names_of_not_dir hd] at hpos
      omega
  have hnormal : normal n ino i = 1 := by
    unfold normal
    simp only [he.placed i hi hr, hnz, ne_eq, not_false_eq_true, and_true]
    simp [hlt]
  have hsubs : subs n ino i = 0 := by
    unfold subs
    simp [hempty]
  unfold links at hcount
  rw [if_neg hr] at hcount
  omega

-- The directory that loses an entry keeps a link.
theorem nlink_remove (hf : Loses ino dp j i) : (ino dp).nlink ≠ 0 ∧ (ino.remove dp j i dp).nlink ≠ 0 := by
  have hgrows := grows_remove h hf
  have hpos := names_loses h hf
  have hdpnz : (ino dp).nlink ≠ 0 := by
    intro hzero
    rw [he.emptied dp hf.dir hzero] at hpos
    omega
  refine ⟨hdpnz, ?_⟩
  have hbalance := hgrows.nlink_dp
  have hcount := he.count dp
  have hsubs := hgrows.subs_eq dp
  have hnamed : dp ≠ ROOTINO → 0 < normal n ino dp := by
    intro hr
    have hle := h.names_le (parent (ino dp)) dp
    rw [he.placed dp hf.dir hr, if_pos ⟨rfl, hdpnz⟩] at hle
    omega
  unfold links at hcount
  rw [if_pos rfl] at hsubs
  by_cases hr : dp = ROOTINO
  . rw [if_pos hr] at hcount
    omega
  . have := hnamed hr
    rw [if_neg hr] at hcount
    omega

theorem exact_remove (hf : Loses ino dp j i) (hempty : (ino i).type = T_DIR → ∀ x, names ino i x = 0)
    : Exact n (ino.remove dp j i) := by
  have hgrows := grows_remove h hf
  have hne := hf.ne h
  have hpos := names_loses h hf
  have hroot : i ≠ ROOTINO := by
    rintro rfl
    rw [he.nameless] at hpos
    omega
  have hnames : ∀ d x, ¬ (d = dp ∧ x = i) → names (ino.remove dp j i) d x = names ino d x := by
    intro d x hx
    rw [hgrows.names, if_neg hx, Nat.add_zero]
  have hparent : ∀ k, (ino k).type = T_DIR → parent (ino.remove dp j i k) = parent (ino k) := by
    intro k hk
    by_cases heq : k = dp
    . subst heq
      obtain ⟨j', de, -, -, hents⟩ := ents_without h hf
      unfold parent Graph.remove Graph.without
      rw [Function.update_self]
      dsimp only
      rw [hents]
      rfl
    . unfold parent
      rw [ents_remove heq]
  obtain ⟨hdpnz, hdp⟩ := nlink_remove h he hf
  have hself : (ino i).type = T_DIR → (ino i).nlink = 1 ∧ parent (ino i) = dp ∧ names ino dp i = 1 := by
    intro hi
    have hplaced := he.placed i hi hroot dp
    split at hplaced
    . next hx => exact ⟨nlink_of_empty h he hi hroot hx.2 (hempty hi), hx.1.symm, hplaced⟩
    . omega
  constructor
  . intro k
    have := hgrows.balanced k
    have := he.count k
    omega
  . rw [hparent _ h.root]
    exact he.top
  . intro x
    rw [hnames x ROOTINO fun hx => hroot hx.2.symm]
    exact he.nameless x
  . intro d hd hdr x
    rw [type_remove] at hd
    rw [hparent d hd]
    by_cases hi : d = i
    . subst hi
      obtain ⟨hone, hpar, hname⟩ := hself hd
      have hzero : (ino.remove dp j d d).nlink = 0 := by
        rw [remove_self h hf]
        dsimp only
        omega
      rw [hzero, if_neg fun hx => hx.2 rfl]
      by_cases hx : x = dp
      . have := hgrows.names x d
        rw [if_pos ⟨hx, rfl⟩] at this
        rw [hx] at this ⊢
        omega
      . rw [hnames x d fun hx' => hx hx'.1, he.placed d hd hdr, if_neg]
        rintro ⟨rfl, -⟩
        exact hx hpar
    . rw [hnames x d fun hx => hi hx.2, he.placed d hd hdr]
      by_cases heq : d = dp
      . subst heq
        simp [hdp, hdpnz]
      . rw [remove_of_ne heq hi]
  . intro d hd hzero x
    rw [type_remove] at hd
    have hdne : d ≠ dp := by
      rintro rfl
      exact hdp hzero
    rw [hnames d x fun hx => hdne hx.1]
    by_cases hi : d = i
    . subst hi
      exact hempty hd x
    . rw [remove_of_ne hdne hi] at hzero
      exact he.emptied d hd hzero x
  . intro d hd hnz
    rw [type_remove] at hd
    have hi : d ≠ i := by
      rintro rfl
      rw [remove_self h hf] at hnz
      have := (hself hd).1
      dsimp only at hnz
      omega
    have hreach : ∀ d, Reaches ino d → d = i ∨ Reaches (ino.remove dp j i) d := by
      intro d hr
      induction hr with
      | root => exact .inr .root
      | @step x d _ hx hlead ih =>
        by_cases hd : d = i
        . exact .inl hd
        . rcases ih with rfl | ih
          . rw [hempty hx] at hlead
            omega
          . refine .inr (.step ih (by rwa [type_remove]) ?_)
            rwa [hnames x d fun hx => hd hx.2]
    have hold : (ino d).nlink ≠ 0 := by
      by_cases heq : d = dp
      . exact heq ▸ hdpnz
      . rwa [remove_of_ne heq hi] at hnz
    rcases hreach d (he.reaches d hd hold) with heq | hr
    . exact absurd heq hi
    . exact hr

theorem exact_sweep : Exact n (ino.sweep refs) := by
  have hcases : ∀ k, (ino.sweep refs k = Inode.free ∧ (ino k).nlink = 0) ∨ ino.sweep refs k = ino k := by
    intro k
    unfold Graph.sweep
    split
    . next hk => exact .inl ⟨rfl, hk.1⟩
    . exact .inr rfl
  have hdir : ∀ k, (ino.sweep refs k).type = T_DIR → ino.sweep refs k = ino k := by
    intro k hk
    rcases hcases k with ⟨heq, -⟩ | heq
    . rw [heq] at hk
      cases hk
    . exact heq
  have hnlink : ∀ k, (ino.sweep refs k).nlink = (ino k).nlink := by
    intro k
    rcases hcases k with ⟨heq, hzero⟩ | heq
    . rw [heq, hzero]
      rfl
    . rw [heq]
  -- A directory that goes has no entries.
  have hnames : ∀ d x, names (ino.sweep refs) d x = names ino d x := by
    intro d x
    rcases hcases d with ⟨heq, hzero⟩ | heq
    . have hfree : names (ino.sweep refs) d x = 0 := by
        unfold names
        rw [heq]
        rfl
      rw [hfree]
      by_cases hd : (ino d).type = T_DIR
      . exact (he.emptied d hd hzero x).symm
      . exact (h.names_of_not_dir hd).symm
    . unfold names
      rw [heq]
  have hlinks : ∀ k, links n (ino.sweep refs) k = links n ino k := by
    intro k
    unfold links normal subs
    congr 1
    . simp only [hnames]
    . apply Finset.sum_congr rfl
      intro j _
      rw [hnames]
      rcases hcases j with ⟨heq, hzero⟩ | heq
      . have := h.names_le_nlink k j
        rw [hzero] at this
        have hz : names ino k j = 0 := by omega
        rw [hz, Nat.mul_zero, Nat.mul_zero]
      . rw [heq]
  constructor
  . intro k
    rw [hlinks, hnlink]
    exact he.count k
  . rw [sweep_root h]
    exact he.top
  . intro x
    rw [hnames]
    exact he.nameless x
  . intro d hd hdr x
    have heq := hdir d hd
    rw [hnames, heq]
    rw [heq] at hd
    exact he.placed d hd hdr x
  . intro d hd hzero x
    have heq := hdir d hd
    rw [heq] at hd hzero
    rw [hnames]
    exact he.emptied d hd hzero x
  . intro d hd hnz
    have heq := hdir d hd
    rw [heq] at hd hnz
    have hr := he.reaches d hd hnz
    clear heq hd hnz
    induction hr with
    | root => exact .root
    | @step x d _ hx hlead ih =>
      apply Reaches.step ih
      . rcases hcases x with ⟨-, hzero⟩ | heq
        . rw [he.emptied x hx hzero] at hlead
          omega
        . rw [heq]
          exact hx
      . rwa [hnames]

end

variable {ι : Type} {cwd : Nat}

-- The directory in which the call makes a name.
def Graph.place (ino : Graph) (cwd : Nat) : Call ι → Option Nat
  | .link old new => (ino.linked cwd old new).map fun r => r.2.1
  | .openf path creates _ _ => if creates then (ino.room cwd path).map Prod.fst else none
  | .mkdir path => (ino.room cwd path).map Prod.fst
  | .mknod path => (ino.room cwd path).map Prod.fst
  | _ => none

-- The directory that gets a new name has not been removed.
def Rooted (v : View ι) (p : ι) (c : Call ι) : Prop :=
  ∀ cwd dp, v.cwd p = some cwd → v.ino.place cwd c = some dp → (v.ino dp).nlink ≠ 0

theorem place_dir (h : Tree n ino) {c : Call ι} (hplace : ino.place cwd c = some dp) : (ino dp).type = T_DIR := by
  have hroom : ∀ path, (ino.room cwd path).map Prod.fst = some dp → (ino dp).type = T_DIR := by
    intro path hp
    obtain ⟨r, hr, rfl⟩ := Option.map_eq_some_iff.mp hp
    exact (room_spec h hr).1
  cases c with
  | link old new =>
    obtain ⟨r, hr, rfl⟩ := Option.map_eq_some_iff.mp hplace
    exact (room_spec h (linked_spec hr).1).1
  | openf path creates rdonly fd =>
    unfold Graph.place at hplace
    dsimp only at hplace
    split at hplace
    . exact hroom path hplace
    . cases hplace
  | mkdir path => exact hroom path hplace
  | mknod path => exact hroom path hplace
  | _ => cases hplace

section

variable (h : Tree n ino) (he : Exact n ino)

include h he

theorem exact_make {type : Nat} {path : List UInt8} (ht : type ≠ 0)
    (hroot : ∀ dp, (ino.room cwd path).map Prod.fst = some dp → (ino dp).nlink ≠ 0)
    : Exact n (ino.make n cwd path type) := by
  unfold Graph.make
  split
  . next hroom hi => exact exact_add h he (fits_make h hroom hi ht) (hroot _ (by rw [hroom]; rfl))
  . exact he

theorem exact_effect {c : Call ι} (hroot : ∀ dp, ino.place cwd c = some dp → (ino dp).nlink ≠ 0)
    : Exact n (ino.effect n cwd c) := by
  cases c with
  | link old new =>
    change Exact n (ino.link cwd old new)
    unfold Graph.link
    split
    . next hlinked => exact exact_add h he (fits_link h hlinked) (hroot _ (by rw [Graph.place, hlinked]; rfl))
    . exact he
  | unlink path =>
    change Exact n (ino.unlink cwd path)
    unfold Graph.unlink
    split
    . next hunlinked =>
      obtain ⟨hloses, hfull⟩ := unlinked_loses hunlinked
      apply exact_remove h he hloses
      intro hdir
      apply names_of_isdirempty
      by_contra hempty
      exact hfull ⟨hdir, by simpa using hempty⟩
    . exact he
  | openf path creates rdonly fd =>
    unfold Graph.effect
    dsimp only
    split
    . next hc => exact exact_make h he (by decide) fun dp hdp => hroot dp (by rw [Graph.place, if_pos hc, hdp])
    . exact he
  | mkdir path => exact exact_make h he (by decide) hroot
  | mknod path => exact exact_make h he (by decide) hroot
  | chdir path => exact he
  | exec path => exact he
  | close k => exact he
  | fork q => exact he
  | exit => exact he

end

theorem exact_call [Fintype ι] [DecidableEq ι] {v : View ι} (h : Tree n v.ino) (he : Exact n v.ino) {p : ι} {c : Call ι}
    (hc : Rooted v p c)
    : Exact n (v.call n p c).ino := by
  cases hp : v.cwd p with
  | none =>
    unfold View.call
    rw [hp]
    exact he
  | some cwd =>
    rw [View.call_of_some hp]
    apply exact_sweep (tree_effect h cwd c)
    exact exact_effect h he fun dp hplace => hc cwd dp hp hplace

end Xv6.Sysfile
