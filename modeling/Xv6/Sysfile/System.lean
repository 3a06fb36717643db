import Xv6.Sysfile.Open
import Xv6.Sysfile.TreeSteps

/-!
The calls of all processes, one after the other.
-/

namespace Xv6.Sysfile

open Xv6.Fs Xv6.Path

variable {n : Nat} {ino : Graph} {i dp cwd type : Nat} {old new path name : List UInt8}

theorem room_spec (h : Tree n ino) {r : Nat × List UInt8} (hr : ino.room cwd path = some r)
    : (ino r.1).type = T_DIR ∧ key r.2 ≠ key dot ∧ key r.2 ≠ key dotdot := by
  obtain ⟨hparent, hnone⟩ := Option.filter_eq_some_iff.mp hr
  have hdir := Graph.namex_parent hparent
  exact ⟨hdir, key_ne_of_find h hdir (Option.isNone_iff_eq_none.mp hnone)⟩

theorem linked_spec {ip : Nat} {r : Nat × List UInt8} (h : ino.linked cwd old new = some (ip, r))
    : ino.room cwd new = some r ∧ (ino ip).type ≠ T_DIR ∧ (ino ip).type ≠ 0 := by
  obtain ⟨ip', hip, hcases⟩ := Option.bind_eq_some_iff.mp h
  split at hcases
  . cases hcases
  . next htype =>
    obtain ⟨r', hr, heq⟩ := Option.map_eq_some_iff.mp hcases
    cases heq
    exact ⟨hr, not_or.mp htype⟩

theorem fits_link (h : Tree n ino) {ip : Nat} (hlinked : ino.linked cwd old new = some (ip, dp, name))
    : Fits n ino dp ip name { ino ip with nlink := (ino ip).nlink + 1 } := by
  obtain ⟨hr, hfile, ht⟩ := linked_spec hlinked
  obtain ⟨hdir, hname⟩ := room_spec h hr
  exact ⟨hdir, h.range ip ht, hfile, rfl, ht, .inr hfile, by rw [if_neg hfile]; exact h.plain ip hfile, hname⟩

theorem fits_make (h : Tree n ino) (hroom : ino.room cwd path = some (dp, name)) (hi : ino.ialloc n = some i)
    (ht : type ≠ 0)
    : Fits n ino dp i name (Graph.newInode type dp i) := by
  obtain ⟨hdir, hname⟩ := room_spec h hroom
  have hfree := ialloc_type hi
  refine ⟨hdir, ialloc_range hi, ?_, ?_, ht, .inl hfree, rfl, hname⟩
  . rw [hfree]
    decide
  . rw [h.free i hfree]
    rfl

theorem tree_link (h : Tree n ino) (cwd : Nat) (old new : List UInt8) : Tree n (ino.link cwd old new) := by
  unfold Graph.link
  split
  . next hlinked => exact tree_add h (fits_link h hlinked)
  . exact h

theorem tree_make (h : Tree n ino) (cwd : Nat) (path : List UInt8) (ht : type ≠ 0)
    : Tree n (ino.make n cwd path type) := by
  unfold Graph.make
  split
  . next hroom hi => exact tree_add h (fits_make h hroom hi ht)
  . exact h

theorem unlinked_loses {j : Nat} (h : ino.unlinked cwd path = some (dp, j, i))
    : Loses ino dp j i ∧ ¬ ((ino i).type = T_DIR ∧ isdirempty (ino i).ents = false) := by
  obtain ⟨⟨d, name⟩, hparent, hcases⟩ := Option.bind_eq_some_iff.mp h
  dsimp only at hcases
  split at hcases
  . cases hcases
  . next hdots =>
    obtain ⟨j', hj, hcases⟩ := Option.bind_eq_some_iff.mp hcases
    split at hcases
    . cases hcases
    . next hfull =>
      cases hcases
      obtain ⟨de, -, hget, hent, hne, hkey⟩ := Graph.mem_of_findName hj
      rw [not_or, namecmp_eq_zero, namecmp_eq_zero, hkey] at hdots
      refine ⟨⟨Graph.namex_parent hparent, ⟨de, hent, by rw [hget], hdots.1, hdots.2⟩, ?_⟩, hfull⟩
      rw [hget]
      omega

theorem tree_unlink (h : Tree n ino) (cwd : Nat) (path : List UInt8) : Tree n (ino.unlink cwd path) := by
  unfold Graph.unlink
  split
  . next dp j ip hunlinked => exact tree_remove h (unlinked_loses hunlinked).1
  . exact h

theorem kept_link {refs : Nat → Nat} (h : Kept refs ino) (cwd : Nat) (old new : List UInt8)
    : Kept refs (ino.link cwd old new) := by
  unfold Graph.link
  split
  . next hlinked =>
    obtain ⟨hparent, -⟩ := Option.filter_eq_some_iff.mp (linked_spec hlinked).1
    apply h.add (Nat.succ_ne_zero _)
    rw [Graph.namex_parent hparent]
    decide
  . exact h

variable {ι : Type}

theorem tree_effect (h : Tree n ino) (cwd : Nat) (c : Call ι) : Tree n (ino.effect n cwd c) := by
  cases c with
  | link old new => exact tree_link h cwd old new
  | unlink path => exact tree_unlink h cwd path
  | openf path creates rdonly fd =>
    unfold Graph.effect
    dsimp only
    split
    . exact tree_make h cwd path (by decide)
    . exact h
  | mkdir path => exact tree_make h cwd path (by decide)
  | mknod path => exact tree_make h cwd path (by decide)
  | chdir path => exact h
  | exec path => exact h
  | close k => exact h
  | fork q => exact h
  | exit => exact h

namespace View

variable [Fintype ι]

section

variable [DecidableEq ι]

-- The references without those of the current directory of `p`.
def others (v : View ι) (p : ι) : Nat → Nat :=
  refs { v with cwd := Function.update v.cwd p none }

theorem refs_update (v : View ι) (p : ι) (x : Nat)
    : refs { v with cwd := Function.update v.cwd p (some x) } = more (v.others p) x := by
  funext i
  have hsum : ∀ y, (∑ q, if Function.update v.cwd p y q = some i then 1 else 0) =
      (if y = some i then 1 else 0) + ∑ q ∈ Finset.univ.erase p, if v.cwd q = some i then 1 else 0 := by
    intro y
    rw [← Finset.add_sum_erase _ _ (Finset.mem_univ p), Function.update_self]
    congr 1
    apply Finset.sum_congr rfl
    intro q hq
    rw [Function.update_of_ne (Finset.ne_of_mem_erase hq)]
  unfold others more refs
  dsimp only
  rw [hsum, hsum]
  simp only [Option.some.injEq, reduceCtorEq, if_false, eq_comm (a := x) (b := i)]
  omega

theorem refs_eq (v : View ι) {p : ι} {x : Nat} (h : v.cwd p = some x) : v.refs = more (v.others p) x := by
  rw [← refs_update, ← h, Function.update_eq_self]

theorem refs_of_none (v : View ι) {p : ι} (h : v.cwd p = none) : v.refs = v.others p := by
  unfold others
  rw [← h, Function.update_eq_self]

end

theorem refs_open (v : View ι) (ip : Option Nat)
    : refs { v with files := v.files ++ ip.toList } = ip.elim v.refs (more v.refs) := by
  funext i
  cases ip with
  | none =>
    unfold refs
    simp
  | some x =>
    unfold refs more
    simp only [Option.toList_some, List.count_append, List.count_singleton, beq_iff_eq, Option.elim_some,
      eq_comm (a := x) (b := i)]
    omega

theorem refs_close (v : View ι) {k x : Nat} (h : v.files[k]? = some x)
    : v.refs = more (refs { v with files := v.files.eraseIdx k }) x := by
  funext i
  obtain ⟨hlt, hx⟩ := List.getElem?_eq_some_iff.mp h
  have hcount := (List.getElem_cons_eraseIdx_perm hlt).count_eq i
  rw [List.count_cons, hx] at hcount
  simp only [beq_iff_eq, eq_comm (a := x) (b := i)] at hcount
  unfold refs more
  dsimp only
  omega

end View

variable [Fintype ι]

-- Between two calls: no lock is held, and the cache counts the current directories and the open files.
structure Rest (n : Nat) (s : State ι) : Prop where
  conf : At s.view.refs [] s.store.ino s.store
  kept : Kept s.view.refs s.store.ino
  tree : Tree n s.store.ino

-- No entry and no current directory dangles.
structure Firm (v : View ι) : Prop where
  sound : Sound v.ino
  cwd : ∀ p cwd, v.cwd p = some cwd → (v.ino cwd).type ≠ 0

-- The call is one that waits for itself.
def Waits (v : View ι) (p : ι) : Call ι → Prop
  | .link old new => ∃ cwd, v.cwd p = some cwd ∧ v.ino.Waits cwd old new
  | _ => False

theorem kept_sweep (refs : Nat → Nat) (ino : Graph) : Kept refs (ino.sweep refs) := by
  funext j
  unfold Graph.sweep
  split
  . rw [ite_self]
  . rfl

theorem rest_of_sweep {store : Store} {v : View ι} (ht : Tree n v.ino) (hat : At v.refs [] (v.ino.sweep v.refs) store)
    : State.view ⟨store, v.cwd, v.files⟩ = { v with ino := v.ino.sweep v.refs } ∧ Rest n ⟨store, v.cwd, v.files⟩ := by
  have hino := hat.2
  constructor
  . unfold State.view
    rw [hino]
  . constructor
    . change At v.refs [] store.ino store
      rw [hino]
      exact hat
    . change Kept v.refs store.ino
      rw [hino]
      exact kept_sweep v.refs v.ino
    . change Tree n store.ino
      rw [hino]
      exact tree_sweep ht

theorem Rest.ready [DecidableEq ι] {s : State ι} (h : Rest n s) {nd : Prop} (hnd : nd → Firm s.view) {p : ι}
    (hp : s.cwd p = some cwd)
    : Ready nd s.view.refs s.store.ino cwd := by
  constructor
  . exact h.kept
  . rw [View.refs_eq s.view hp, more_self]
    omega
  . exact fun hn => (hnd hn).sound
  . intro _
    rw [h.tree.root]
    decide
  . exact fun hn => (hnd hn).cwd p cwd hp

-- A call that does not change what the processes refer to.
theorem ends_store {α : Type} {E : Stop → Prop} {s : State ι} {ino : Graph} {x : Except Stop (Store × α)}
    (hx : Ends E (fun a => At s.view.refs [] (ino.sweep s.view.refs) a.1) x) (ht : Tree n ino)
    : Ends E (fun s' => s'.view = { s.view with ino := ino.sweep s.view.refs } ∧ Rest n s')
        (do
          let (store, _) ← x
          return { s with store := store }) :=
  hx.bind fun _ ha => rest_of_sweep (v := { s.view with ino := ino }) ht ha

variable [DecidableEq ι]

theorem View.call_of_some {v : View ι} {p : ι} (hp : v.cwd p = some cwd) (c : Call ι)
    : v.call n p c =
        { v.moves n p cwd c with
          ino := (v.ino.effect n cwd c).sweep (refs { v.moves n p cwd c with ino := v.ino.effect n cwd c }) } := by
  unfold call
  rw [hp]

omit [Fintype ι] in
theorem View.moves_fork (v : View ι) (p q : ι)
    : v.moves n p cwd (.fork q) =
        match v.cwd q with
        | some _ => v
        | none => { v with cwd := Function.update v.cwd q (some cwd) } := rfl

/-- Every call does what `View.call` says, or it stops. -/
theorem call_spec {s : State ι} (h : Rest n s) (hs : s.view.ino.Short) {nd : Prop} (hnd : nd → Firm s.view)
    (room : Store → Bool) (p : ι) (c : Call ι)
    : Ends (Fine (Waits s.view p c) nd) (fun s' => s'.view = s.view.call n p c ∧ Rest n s') (s.call n room p c) := by
  unfold State.call
  cases hp : s.cwd p with
  | none =>
    refine ⟨?_, h⟩
    unfold View.call
    rw [show s.view.cwd p = none from hp]
  | some cwd =>
    have hr := h.ready hnd hp
    have htree : Tree n (s.view.ino.effect n cwd c) := tree_effect h.tree cwd c
    have hbase := View.refs_eq s.view (p := p) hp
    rw [View.call_of_some (v := s.view) hp]
    cases c with
    | link old new =>
      have hkept : Kept s.view.refs (s.view.ino.link cwd old new) := kept_link h.kept cwd old new
      apply ends_store _ htree
      apply (h.conf.sysLink hr hs old new).imp
      . exact fun e he => he.imp fun hw => ⟨cwd, hp, hw⟩
      . exact fun a ha => At.to_sweep ha.2 hkept
    | unlink path =>
      apply ends_store _ htree
      exact h.conf.sysUnlink hr hs h.tree.linked path
    | openf path creates rdonly fd =>
      have hkept : Kept s.view.refs (s.view.ino.effect n cwd (.openf path creates rdonly fd : Call ι)) := by
        unfold Graph.effect
        dsimp only
        split
        . exact h.kept.make
        . exact h.kept
      apply (h.conf.sysOpen hr hs path creates rdonly fd).bind
      rintro ⟨store, ip⟩ ⟨hip, hat⟩
      dsimp only at hip hat
      have hmore : Kept (ip.elim s.view.refs (more s.view.refs))
          (s.view.ino.effect n cwd (.openf path creates rdonly fd : Call ι)) := by
        cases ip with
        | none => exact hkept
        | some i => exact hkept.more i
      have hat := At.to_sweep hat hmore
      rw [← View.refs_open] at hat
      subst hip
      exact rest_of_sweep (v := { s.view.moves n p cwd (.openf path creates rdonly fd) with
        ino := s.view.ino.effect n cwd (.openf path creates rdonly fd) }) htree hat
    | mkdir path =>
      apply ends_store _ htree
      exact (h.conf.sysMake hr hs (by decide) path).mono fun a ha => At.to_sweep ha h.kept.make
    | mknod path =>
      apply ends_store _ htree
      exact (h.conf.sysMake hr hs (by decide) path).mono fun a ha => At.to_sweep ha h.kept.make
    | chdir path =>
      have hat := h.conf
      rw [hbase] at hat hr
      apply (hat.sysChdir hr path).bind
      rintro ⟨store, ip⟩ ⟨hip, hat⟩
      dsimp only at hip hat ⊢
      subst hip
      rw [← View.refs_update] at hat
      exact rest_of_sweep (v := { s.view.moves n p cwd (.chdir path) with
        ino := s.view.ino.effect n cwd (.chdir path : Call ι) }) htree hat
    | exec path =>
      apply (h.conf.exec hr path).bind
      intro store hat
      exact rest_of_sweep (v := s.view) htree (At.to_sweep hat h.kept)
    | close k =>
      dsimp only
      cases hk : s.files[k]? with
      | none =>
        have hfiles : s.view.files.eraseIdx k = s.view.files :=
          List.eraseIdx_of_length_le (List.getElem?_eq_none_iff.mp hk)
        have hmoves : s.view.moves n p cwd (.close k) = s.view := by
          change { s.view with files := s.view.files.eraseIdx k } = s.view
          rw [hfiles]
        rw [hmoves]
        exact rest_of_sweep (v := s.view) htree (h.conf.to_sweep h.kept)
      | some ip =>
        have hat := h.conf
        have hkept := h.kept
        rw [View.refs_close s.view hk] at hat hkept
        apply (hat.to_sweep hkept |>.iput_sweep List.not_mem_nil).bind
        intro store hat
        exact rest_of_sweep (v := { s.view with files := s.files.eraseIdx k }) htree hat
    | fork q =>
      dsimp only
      cases hq : s.cwd q with
      | some x =>
        have hmoves : s.view.moves n p cwd (.fork q) = s.view := by
          rw [View.moves_fork, show s.view.cwd q = some x from hq]
        rw [hmoves]
        exact rest_of_sweep (v := s.view) htree (h.conf.to_sweep h.kept)
      | none =>
        have hmoves : s.view.moves n p cwd (.fork q) =
            { s.view with cwd := Function.update s.view.cwd q (some cwd) } := by
          rw [View.moves_fork, show s.view.cwd q = none from hq]
        have hat := h.conf.idup hr.pos
        have hkept := h.kept.more cwd
        rw [View.refs_of_none s.view hq, ← View.refs_update] at hat hkept
        rw [hmoves]
        exact rest_of_sweep (v := { s.view with cwd := Function.update s.view.cwd q (some cwd) }) htree
          (hat.to_sweep hkept)
    | exit =>
      have hat := h.conf
      have hkept := h.kept
      rw [hbase] at hat hkept
      apply (hat.to_sweep hkept |>.iput_sweep List.not_mem_nil).bind
      intro store hat
      exact rest_of_sweep (v := { s.view with cwd := Function.update s.cwd p none }) htree hat

-- A call that waits for itself does not return.
theorem not_waits_of_ok {s t : State ι} (h : Rest n s) (hs : s.view.ino.Short) {room : Store → Bool} {p : ι} {c : Call ι}
    (hcall : s.call n room p c = .ok t)
    : ¬ Waits s.view p c := by
  cases c with
  | link old new =>
    rintro ⟨cwd, hp, hw⟩
    have hr : Ready False s.view.refs s.store.ino cwd := h.ready False.elim hp
    have hlink : Ends _ _ (sysLink n room cwd old new s.store) := h.conf.sysLink hr hs old new
    unfold State.call at hcall
    rw [show s.cwd p = some cwd from hp] at hcall
    dsimp only at hcall
    cases hsys : sysLink n room cwd old new s.store with
    | error e =>
      rw [hsys] at hcall
      cases hcall
    | ok a =>
      rw [hsys] at hlink
      exact hlink.1 hw
  | _ => exact id

end Xv6.Sysfile
