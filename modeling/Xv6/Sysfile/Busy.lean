import Xv6.Sysfile.Exact

/-!
The tree when no directory is removed that somebody still uses: nothing dangles.
-/

namespace Xv6.Sysfile

open Xv6.Fs Xv6.Path

variable {ι : Type} {n : Nat} {ino : Graph} {d i j k x dp cwd : Nat}

-- All directories are part of the tree, the current ones too.
structure Busy (v : View ι) : Prop where
  dirs : ∀ d, (v.ino d).type = T_DIR → (v.ino d).nlink ≠ 0
  cwd : ∀ p cwd, v.cwd p = some cwd → (v.ino cwd).type = T_DIR

-- Nobody uses a directory that the call removes.
def Calm [Fintype ι] (v : View ι) (p : ι) : Call ι → Prop
  | .unlink path => ∀ cwd dp j ip, v.cwd p = some cwd → v.ino.unlinked cwd path = some (dp, j, ip) →
      (v.ino ip).type = T_DIR → v.refs ip = 0
  | _ => True

theorem Busy.firm {v : View ι} (hb : Busy v) (h : Tree n v.ino) (he : Exact n v.ino) : Firm v := by
  have hdir : T_DIR ≠ 0 := by decide
  constructor
  . intro d hd de hde hne
    rw [h.shape d hd, List.mem_cons, List.mem_cons] at hde
    rcases hde with rfl | rfl | hde
    . rw [hd]
      exact hdir
    . by_cases hr : d = ROOTINO
      . rw [hr, he.top, h.root]
        exact hdir
      . have hname := he.placed d hd hr (parent (v.ino d))
        rw [if_pos ⟨rfl, hb.dirs d hd⟩] at hname
        by_contra hz
        rw [h.names_of_not_dir] at hname
        . omega
        . dsimp only at hz
          rw [hz]
          exact hdir.symm
    . apply h.type_ne_zero (d := d)
      exact List.countP_pos_iff.mpr ⟨de, hde, by simp [hne]⟩
  . intro p cwd hp
    rw [hb.cwd p cwd hp]
    exact hdir

theorem Busy.rooted {v : View ι} (hb : Busy v) (h : Tree n v.ino) (p : ι) (c : Call ι) : Rooted v p c := by
  intro cwd dp _ hplace
  exact hb.dirs dp (place_dir h hplace)

-- Directories stay directories, and all but the ones in `gone` have links.
structure Lasts (ino ino' : Graph) (gone : Nat → Prop) : Prop where
  dir : ∀ d, (ino d).type = T_DIR → (ino' d).type = T_DIR
  links : ∀ d, (ino' d).type = T_DIR → (ino' d).nlink ≠ 0 ∨ gone d

-- What `sys_unlink` removes.
def Gone (ino : Graph) (cwd : Nat) (c : Call ι) (d : Nat) : Prop :=
  ∃ path dp j, c = .unlink path ∧ ino.unlinked cwd path = some (dp, j, d)

section

variable {name : List UInt8} {ip : Inode} {type : Nat} {path : List UInt8} {gone : Nat → Prop}
variable (h : Tree n ino) (hdirs : ∀ d, (ino d).type = T_DIR → (ino d).nlink ≠ 0)

include hdirs

theorem lasts_refl : Lasts ino ino gone :=
  ⟨fun _ hd => hd, fun d hd => .inl (hdirs d hd)⟩

theorem lasts_add (hf : Fits n ino dp i name ip) : Lasts ino (ino.add dp i name ip) gone := by
  have hcases : ∀ d, d = dp ∨ d = i ∨ (d ≠ dp ∧ d ≠ i) := by
    intro d
    omega
  constructor
  . intro d hd
    rcases hcases d with rfl | rfl | ⟨hdp, hi⟩
    . rw [add_dp]
      exact hd
    . exact absurd hd hf.old
    . rw [add_of_ne hdp hi]
      exact hd
  . intro d hd
    left
    rcases hcases d with rfl | rfl | ⟨hdp, hi⟩
    . have := hdirs d hf.dir
      rw [add_dp]
      dsimp only
      omega
    . rw [add_self hf, hf.nlink]
      omega
    . rw [add_of_ne hdp hi] at hd ⊢
      exact hdirs d hd

include h

theorem lasts_make (ht : type ≠ 0) : Lasts ino (ino.make n cwd path type) gone := by
  unfold Graph.make
  split
  . next hroom hi => exact lasts_add hdirs (fits_make h hroom hi ht)
  . exact lasts_refl hdirs

theorem lasts_effect (he : Exact n ino) (c : Call ι) : Lasts ino (ino.effect n cwd c) (Gone ino cwd c) := by
  cases c with
  | link old new =>
    change Lasts ino (ino.link cwd old new) _
    unfold Graph.link
    split
    . next hlinked => exact lasts_add hdirs (fits_link h hlinked)
    . exact lasts_refl hdirs
  | unlink path =>
    change Lasts ino (ino.unlink cwd path) _
    unfold Graph.unlink
    split
    . next dp j i hunlinked =>
      have hloses := (unlinked_loses hunlinked).1
      constructor
      . intro d hd
        rw [type_remove]
        exact hd
      . intro d hd
        rw [type_remove] at hd
        by_cases hdp : d = dp
        . subst hdp
          exact .inl (nlink_remove h he hloses).2
        . by_cases hi : d = i
          . subst hi
            exact .inr ⟨path, dp, j, rfl, hunlinked⟩
          . rw [remove_of_ne hdp hi]
            exact .inl (hdirs d hd)
    . exact lasts_refl hdirs
  | openf path creates rdonly fd =>
    unfold Graph.effect
    dsimp only
    split
    . exact lasts_make h hdirs (by decide)
    . exact lasts_refl hdirs
  | mkdir path => exact lasts_make h hdirs (by decide)
  | mknod path => exact lasts_make h hdirs (by decide)
  | chdir path => exact lasts_refl hdirs
  | exec path => exact lasts_refl hdirs
  | close k => exact lasts_refl hdirs
  | fork q => exact lasts_refl hdirs
  | exit => exact lasts_refl hdirs

end

variable [DecidableEq ι]

-- The current directories after the call.
theorem Busy.moves {v : View ι} (hb : Busy v) {p : ι} (hp : v.cwd p = some cwd) (c : Call ι) {q : ι}
    (hq : (v.moves n p cwd c).cwd q = some x)
    : (v.ino x).type = T_DIR := by
  have hupdate : ∀ {r y}, Function.update v.cwd r y q = some x → (∀ z, y = some z → (v.ino z).type = T_DIR) →
      (v.ino x).type = T_DIR := by
    intro r y hq hy
    by_cases hr : q = r
    . rw [hr, Function.update_self] at hq
      exact hy x hq
    . rw [Function.update_of_ne hr] at hq
      exact hb.cwd q x hq
  cases c with
  | chdir path =>
    apply hupdate hq
    rintro z hz
    rw [Option.some.injEq] at hz
    rw [← hz]
    unfold Graph.chdir
    cases hnamei : (v.ino.namei cwd path).filter fun ip => (v.ino ip).type = T_DIR with
    | none => exact hb.cwd p cwd hp
    | some ip => simpa using (Option.filter_eq_some_iff.mp hnamei).2
  | fork r =>
    rw [View.moves_fork] at hq
    split at hq
    . exact hb.cwd q x hq
    . apply hupdate hq
      rintro z hz
      cases hz
      exact hb.cwd p cwd hp
  | exit =>
    apply hupdate hq
    intro z hz
    cases hz
  | _ => exact hb.cwd q x hq

theorem busy_call [Fintype ι] {v : View ι} (h : Tree n v.ino) (he : Exact n v.ino) (hb : Busy v) {p : ι} {c : Call ι}
    (hc : Calm v p c)
    : Busy (v.call n p c) := by
  cases hp : v.cwd p with
  | none =>
    unfold View.call
    rw [hp]
    exact hb
  | some cwd =>
    have heffect : Lasts v.ino (v.ino.effect n cwd c) (Gone v.ino cwd c) := lasts_effect h hb.dirs he c
    rw [View.call_of_some hp]
    constructor
    . intro d hd
      dsimp only at hd ⊢
      unfold Graph.sweep at hd ⊢
      split at hd
      . cases hd
      . next hkeep =>
        rw [if_neg hkeep]
        rcases heffect.links d hd with hnz | ⟨path, dp, j, rfl, hunlinked⟩
        . exact hnz
        . intro hzero
          apply hkeep
          refine ⟨hzero, ?_⟩
          apply hc cwd dp j d hp hunlinked
          have htype : (v.ino.remove dp j d d).type = (v.ino d).type := type_remove d
          rw [← htype]
          have : v.ino.effect n cwd (.unlink path : Call ι) = v.ino.remove dp j d := by
            unfold Graph.effect
            dsimp only
            unfold Graph.unlink
            rw [hunlinked]
          rw [← this]
          exact hd
    . intro q x hq
      dsimp only at hq ⊢
      have hdir := heffect.dir x (hb.moves hp c hq)
      have hrefs := View.refs_eq { v.moves n p cwd c with ino := v.ino.effect n cwd c } hq
      unfold Graph.sweep
      rw [if_neg]
      . exact hdir
      . rintro ⟨-, hzero⟩
        rw [hrefs, more_self] at hzero
        omega

end Xv6.Sysfile
