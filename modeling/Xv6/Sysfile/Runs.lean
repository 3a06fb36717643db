import Mathlib.Algebra.BigOperators.Ring.Finset
import Xv6.Sysfile.Blocks
import Xv6.Sysfile.Busy

/-!
What holds after any number of calls, in any order, of any processes.
-/

namespace Xv6.Sysfile

open Xv6.Fs Xv6.Path

structure Step (ι : Type) where
  proc : ι
  call : Call ι
  room : Store → Bool

variable {ι : Type} [DecidableEq ι] {n : Nat} {ino : Graph} {d i : Nat}

def State.run (n : Nat) (s : State ι) : List (Step ι) → Except Stop (State ι)
  | [] => .ok s
  | a :: as => do
    let s ← s.call n a.room a.proc a.call
    s.run n as

-- The first process has the root directory.
def State.boot (ino : Graph) (p : ι) : State ι where
  store := ⟨ino, Function.update (fun _ => ⟨0, false, false⟩) ROOTINO ⟨1, false, false⟩⟩
  cwd := Function.update (fun _ => none) p (some ROOTINO)
  files := []

-- An image that nothing has been removed from while it was in use, on a disk of `FSSIZE` blocks.
structure Image (n : Nat) (ino : Graph) : Prop where
  tree : Tree n ino
  exact : Exact n ino
  free : ∀ i, (ino i).nlink = 0 → ino i = Inode.free
  stored : Stored n ino

-- The image that has the root directory only.
def emptyImage : Graph :=
  Function.update (fun _ => Inode.free) ROOTINO (Graph.newInode T_DIR ROOTINO ROOTINO)

theorem emptyImage_root : emptyImage ROOTINO = Graph.newInode T_DIR ROOTINO ROOTINO := by
  unfold emptyImage
  rw [Function.update_self]

theorem emptyImage_of_ne (h : i ≠ ROOTINO) : emptyImage i = Inode.free := by
  unfold emptyImage
  rw [Function.update_of_ne h]

theorem nlink_emptyImage (i : Nat) : (emptyImage i).nlink ≤ 1 := by
  by_cases hi : i = ROOTINO
  . rw [hi, emptyImage_root]
    decide
  . rw [emptyImage_of_ne hi]
    decide

theorem names_emptyImage (d i : Nat) : names emptyImage d i = 0 := by
  unfold names rest
  by_cases hd : d = ROOTINO
  . rw [hd, emptyImage_root]
    rfl
  . rw [emptyImage_of_ne hd]
    rfl

theorem stored_emptyImage (n : Nat) : Stored n emptyImage := by
  have hfree : dirBlocks n (fun _ => Inode.free) = 0 := Finset.sum_eq_zero fun _ _ => blocks_nil
  apply Stored.grow
  . rw [hfree]
    decide
  . decide

theorem image_empty (h : ROOTINO < n) : Image n emptyImage := by
  have hroot : ∀ i, (emptyImage i).type ≠ 0 → i = ROOTINO := by
    intro i hi
    by_contra hne
    rw [emptyImage_of_ne hne] at hi
    exact hi rfl
  have hdir : ∀ i, (emptyImage i).type = T_DIR → i = ROOTINO := by
    intro i hi
    exact hroot i (by rw [hi]; decide)
  have hlinks : ∀ i, links n emptyImage i = 0 := by
    intro i
    unfold links normal subs
    simp [names_emptyImage]
  have hcount : ∀ i, links n emptyImage i + (if i = ROOTINO then 1 else 0) = (emptyImage i).nlink := by
    intro i
    rw [hlinks]
    split
    . next hi =>
      rw [hi, emptyImage_root]
      rfl
    . next hi =>
      rw [emptyImage_of_ne hi]
      rfl
  refine ⟨⟨?_, ?_, ?_, ?_, ?_, ?_, ?_, ?_, ?_⟩, ⟨hcount, ?_, ?_, ?_, ?_, ?_⟩, ?_, stored_emptyImage n⟩
  . intro i hi
    rw [hroot i hi]
    exact ⟨by decide, h⟩
  . rw [emptyImage_root]
    rfl
  . intro i hi
    rw [emptyImage_of_ne]
    . rfl
    . rintro rfl
      rw [emptyImage_root] at hi
      cases hi
  . intro i hi
    rw [emptyImage_of_ne]
    . rfl
    . rintro rfl
      rw [emptyImage_root] at hi
      exact hi rfl
  . intro d hd
    rw [hdir d hd, emptyImage_root]
    rfl
  . intro d hd
    rw [hdir d hd, emptyImage_root]
    decide
  . intro d de hde hne
    have hnames := names_emptyImage d de.inum
    unfold names named at hnames
    rw [List.countP_eq_zero] at hnames
    have := hnames de hde
    simp [hne] at this
  . exact fun d => names_emptyImage d d
  . exact fun i => (hcount i).le
  . rw [emptyImage_root]
    rfl
  . exact fun x => names_emptyImage x ROOTINO
  . exact fun d hd hne => absurd (hdir d hd) hne
  . exact fun d _ _ j => names_emptyImage d j
  . intro d hd _
    rw [hdir d hd]
    exact .root
  . intro i hi
    apply emptyImage_of_ne
    rintro rfl
    rw [emptyImage_root] at hi
    cases hi

section

variable [Fintype ι]

namespace View

def run (n : Nat) (v : View ι) : List (Step ι) → View ι
  | [] => v
  | a :: as => (v.call n a.proc a.call).run n as

-- Each call of the run is one that `P` allows.
def Along (n : Nat) (P : View ι → ι → Call ι → Prop) (v : View ι) : List (Step ι) → Prop
  | [] => True
  | a :: as => P v a.proc a.call ∧ (v.call n a.proc a.call).Along n P as

end View

-- No lock is held, the references are those of current directories and open files, and what is unused is freed.
structure Quiet (s : State ι) : Prop where
  ref : ∀ i, (s.store.icache i).ref = s.view.refs i
  lock : ∀ i, (s.store.icache i).lock = false
  free : ∀ i, (s.store.ino i).nlink = 0 → s.view.refs i = 0 → s.store.ino i = Inode.free

-- The run stops in one of its calls.
def StopsAt (n : Nat) (nd : Prop) (v : View ι) (as : List (Step ι)) (e : Stop) : Prop :=
  ∃ as₁ a as₂, as = as₁ ++ a :: as₂ ∧ Fine (Waits (v.run n as₁) a.proc a.call) nd e

theorem run_spec {I : View ι → Prop} {P : View ι → ι → Call ι → Prop} {nd : Prop}
    (hfirm : ∀ v, Tree n v.ino → I v → nd → Firm v)
    (hshort : ∀ v p c, Tree n v.ino → Stored n v.ino → I v → P v p c → v.ino.Short)
    (hstep : ∀ v p c, Tree n v.ino → I v → P v p c → I (v.call n p c)) (as : List (Step ι)) {s : State ι}
    (h : Rest n s) (hs : Stored n s.store.ino) (hi : I s.view) (hp : s.view.Along n P as)
    : Ends (StopsAt n nd s.view as)
        (fun t => t.view = s.view.run n as ∧ Rest n t ∧ Stored n t.store.ino ∧ I t.view ∧
          s.view.Along n (fun v p c => ¬ Waits v p c) as)
        (s.run n as) := by
  induction as generalizing s with
  | nil => exact ⟨rfl, h, hs, hi, trivial⟩
  | cons a as ih =>
    have hcounts := hshort s.view a.proc a.call h.tree hs hi hp.1
    have hcall := call_spec h hcounts (hfirm s.view h.tree hi) a.room a.proc a.call
    have hblocks := hs.call a.room a.proc a.call
    unfold State.run
    cases hok : s.call n a.room a.proc a.call with
    | error e =>
      rw [hok] at hcall
      exact ⟨[], a, as, rfl, hcall⟩
    | ok t =>
      rw [hok] at hcall hblocks
      obtain ⟨hview, hrest⟩ := hcall
      have hit : I t.view := hview ▸ hstep s.view a.proc a.call h.tree hi hp.1
      have hpt : t.view.Along n P as := hview ▸ hp.2
      apply (ih hrest hblocks hit hpt).imp
      . rintro e ⟨as₁, b, as₂, rfl, hfine⟩
        refine ⟨a :: as₁, b, as₂, rfl, ?_⟩
        rw [hview] at hfine
        exact hfine
      . rintro u ⟨hrun, hru, hsu, hiu, hw⟩
        rw [hview] at hrun hw
        exact ⟨hrun, hru, hsu, hiu, not_waits_of_ok h hcounts hok, hw⟩

theorem refs_boot (ino : Graph) (p : ι) (i : Nat) : (State.boot ino p).view.refs i = if i = ROOTINO then 1 else 0 := by
  have hp : (State.boot ino p).view.cwd p = some ROOTINO := by
    unfold State.boot State.view
    simp
  rw [View.refs_eq _ hp]
  unfold more View.others View.refs State.boot State.view
  simp

theorem rest_boot (h : Image n ino) (p : ι) : Rest n (State.boot ino p) := by
  have hicache : ∀ i, ((State.boot ino p).store.icache i).lock = false ∧ ((State.boot ino p).store.icache i).valid = false ∧
      ((State.boot ino p).store.icache i).ref = if i = ROOTINO then 1 else 0 := by
    intro i
    unfold State.boot
    by_cases hi : i = ROOTINO
    . subst hi
      simp
    . simp [hi]
  have hfree : ∀ i, (ino i).nlink = 0 → (ino i).type = 0 := by
    intro i hi
    rw [h.free i hi]
    rfl
  refine ⟨⟨⟨?_, ?_, ?_, ?_, ?_, ?_⟩, rfl⟩, ?_, h.tree⟩
  . intro i
    rw [refs_boot, (hicache i).2.2]
  . intro i
    simp [(hicache i).1]
  . intro i hi
    cases hi
  . intro i hi
    rw [(hicache i).2.1] at hi
    cases hi
  . exact fun i hi ht => absurd (hfree i hi) ht
  . exact fun i hi => h.free i (h.tree.free i hi)
  . funext i
    unfold Graph.sweep
    split
    . next hi => exact (h.free i hi.1).symm
    . rfl

omit [Fintype ι] in
theorem boot_cwd {p q : ι} (h : (State.boot ino p).view.cwd q = some i) : i = ROOTINO := by
  change Function.update (fun _ => none) p (some ROOTINO) q = some i at h
  by_cases hq : q = p
  . rw [hq, Function.update_self] at h
    cases h
    rfl
  . rw [Function.update_of_ne hq] at h
    cases h

omit [Fintype ι] in
theorem busy_boot (h : Image n ino) (p : ι) : Busy (State.boot ino p).view := by
  constructor
  . intro d hd hz
    have hfree : (ino d).type = 0 := by
      rw [h.free d hz]
      rfl
    have hd : (ino d).type = T_DIR := hd
    rw [hfree] at hd
    cases hd
  . intro q i hq
    rw [boot_cwd hq]
    exact h.tree.root

-- No link count is greater by more than one.
def Creeps (ino ino' : Graph) : Prop :=
  ∀ k, (ino' k).nlink ≤ (ino k).nlink + 1

section

variable {ip : Inode} {name : List UInt8} {dp : Nat}

omit [DecidableEq ι] [Fintype ι]

theorem Creeps.refl (ino : Graph) : Creeps ino ino := fun _ => Nat.le_succ _

theorem creeps_add (hip : ip.nlink ≤ (ino i).nlink + 1) : Creeps ino (ino.add dp i name ip) := by
  intro k
  unfold Graph.add
  by_cases hdp : k = dp
  . subst hdp
    rw [Function.update_self]
    dsimp only
    split <;> omega
  . rw [Function.update_of_ne hdp]
    by_cases hi : k = i
    . subst hi
      rwa [Function.update_self]
    . rw [Function.update_of_ne hi]
      exact Nat.le_succ _

theorem creeps_remove (ino : Graph) (dp j i : Nat) : Creeps ino (ino.remove dp j i) := by
  intro k
  unfold Graph.remove
  by_cases hdp : k = dp
  . subst hdp
    rw [Function.update_self]
    exact (Nat.sub_le _ _).trans (Nat.le_succ _)
  . rw [Function.update_of_ne hdp]
    by_cases hi : k = i
    . subst hi
      rw [Function.update_self]
      exact (Nat.sub_le _ _).trans (Nat.le_succ _)
    . rw [Function.update_of_ne hi]
      exact Nat.le_succ _

theorem creeps_make (ino : Graph) (cwd : Nat) (path : List UInt8) (type : Nat)
    : Creeps ino (ino.make n cwd path type) := by
  unfold Graph.make
  split
  . exact creeps_add (Nat.le_add_left _ _)
  . exact .refl ino

theorem creeps_effect (ino : Graph) (cwd : Nat) (c : Call ι) : Creeps ino (ino.effect n cwd c) := by
  cases c with
  | link old new =>
    change Creeps ino (ino.link cwd old new)
    unfold Graph.link
    split
    . exact creeps_add (Nat.le_refl _)
    . exact .refl ino
  | unlink path =>
    change Creeps ino (ino.unlink cwd path)
    unfold Graph.unlink
    split
    . exact creeps_remove ino _ _ _
    . exact .refl ino
  | openf path creates rdonly fd =>
    unfold Graph.effect
    dsimp only
    split
    . exact creeps_make ino cwd path T_FILE
    . exact .refl ino
  | mkdir path => exact creeps_make ino cwd path T_DIR
  | mknod path => exact creeps_make ino cwd path T_DEV
  | _ => exact .refl ino

end

theorem creeps_call (v : View ι) (p : ι) (c : Call ι) : Creeps v.ino (v.call n p c).ino := by
  cases hp : v.cwd p with
  | none =>
    unfold View.call
    rw [hp]
    exact .refl v.ino
  | some cwd =>
    intro k
    rw [View.call_of_some hp]
    dsimp only
    unfold Graph.sweep
    split
    . exact Nat.zero_le _
    . exact creeps_effect v.ino cwd c k

-- The link counts before each call of the run are those of a `short`.
abbrev View.Shorts (n : Nat) (v : View ι) (as : List (Step ι)) : Prop :=
  v.Along n (fun v _ _ => v.ino.Short) as

theorem shorts_of_length {as : List (Step ι)} {v : View ι} {m : Nat} (h : ∀ i, (v.ino i).nlink ≤ m)
    (hm : m + as.length ≤ 2 ^ 15)
    : v.Shorts n as := by
  induction as generalizing v m with
  | nil => trivial
  | cons a as ih =>
    rw [List.length_cons] at hm
    constructor
    . intro i
      have := h i
      omega
    . apply ih (m := m + 1)
      . intro i
        have := h i
        have := creeps_call (n := n) v a.proc a.call i
        omega
      . omega

-- A directory is made, and a second process goes there. Another one is made and removed.
def firstCalls : List (Step Bool) :=
  [⟨false, .mkdir [97], fun _ => true⟩, ⟨false, .fork true, fun _ => true⟩, ⟨true, .chdir [97], fun _ => true⟩,
    ⟨false, .mkdir [98], fun _ => true⟩, ⟨false, .unlink [98], fun _ => true⟩]

theorem firstCalls_return : ((State.boot emptyImage false).run 4 firstCalls).toOption.isSome = true := by
  decide +kernel

end

-- The entries other than `.` that name `i`, in the directories that have links.
def entries (n : Nat) (ino : Graph) (i : Nat) : Nat :=
  ∑ d ∈ Finset.range n, if (ino d).type = T_DIR ∧ (ino d).nlink ≠ 0 then named i ((ino d).ents.drop 1) else 0

theorem entries_eq (h : Tree n ino) (he : Exact n ino) (i : Nat) : entries n ino i = (ino i).nlink := by
  have hterm : ∀ d, (if (ino d).type = T_DIR ∧ (ino d).nlink ≠ 0 then named i ((ino d).ents.drop 1) else 0) =
      names ino d i + isDir (ino d) * names ino i d + if d = ROOTINO then if i = ROOTINO then 1 else 0 else 0 := by
    intro d
    unfold isDir
    by_cases hd : (ino d).type = T_DIR
    . have hdrop : (ino d).ents.drop 1 = ⟨parent (ino d), key dotdot⟩ :: rest (ino d) := by
        conv_lhs => rw [h.shape d hd]
        rfl
      rw [if_pos hd, Nat.one_mul, hdrop, named_cons]
      by_cases hz : (ino d).nlink = 0
      . have hle := h.names_le_nlink i d
        have hr : d ≠ ROOTINO := by
          rintro rfl
          have := h.root_nlink
          omega
        rw [if_neg (fun hx => hx.2 hz), he.emptied d hd hz, if_neg hr]
        omega
      . rw [if_pos ⟨hd, hz⟩]
        unfold tally
        have hpos := h.parents d hd
        dsimp only
        by_cases hr : d = ROOTINO
        . -- The `..` of the root is the link that no other directory has made.
          rw [hr, he.top, he.nameless, if_pos rfl, Nat.add_zero]
          congr 1
          by_cases hi : i = ROOTINO
          . rw [if_pos hi, if_pos ⟨by decide, hi.symm⟩]
          . rw [if_neg hi, if_neg fun hx => hi hx.2.symm]
        . rw [he.placed d hd hr, if_neg hr, Nat.add_zero]
          congr 1
          by_cases hx : i = parent (ino d)
          . rw [if_pos ⟨by omega, hx.symm⟩, if_pos ⟨hx, hz⟩]
          . rw [if_neg fun hy => hx hy.2.symm, if_neg fun hy => hx hy.1]
    . have hr : d ≠ ROOTINO := by
        rintro rfl
        exact hd h.root
      rw [if_neg (fun hx => hd hx.1), if_neg hd, h.names_of_not_dir hd, if_neg hr]
      omega
  have hroot := (h.range ROOTINO (by rw [h.root]; decide)).2
  have hcount := he.count i
  unfold entries
  simp only [hterm, Finset.sum_add_distrib, Finset.sum_ite_eq', Finset.mem_range, hroot, if_true]
  exact hcount

-- An inode has no more entries than a disk has room for.
theorem short_of_exact (h : Tree n ino) (he : Exact n ino) (hs : Stored n ino) : ino.Short := by
  intro i
  have hentries : entries n ino i ≤ 32 * dirBlocks n ino := by
    unfold entries dirBlocks
    rw [Finset.mul_sum]
    apply Finset.sum_le_sum
    intro d _
    have hnamed : named i ((ino d).ents.drop 1) ≤ ((ino d).ents.drop 1).length := List.countP_le_length
    rw [List.length_drop] at hnamed
    unfold blocks DIRENT BSIZE
    split <;> omega
  rw [entries_eq h he] at hentries
  unfold Stored FSSIZE at hs
  omega

theorem reaches_of_links (h : Tree n ino) (he : Exact n ino) (hi : (ino i).nlink ≠ 0) : Reaches ino i := by
  by_cases hd : (ino i).type = T_DIR
  . exact he.reaches i hd hi
  . have hroot : i ≠ ROOTINO := by
      rintro rfl
      exact hd h.root
    have hcount := he.count i
    have hsubs : subs n ino i = 0 := by
      unfold subs
      simp [h.names_of_not_dir hd]
    unfold links normal at hcount
    rw [if_neg hroot, hsubs] at hcount
    obtain ⟨d, -, hpos⟩ := Finset.exists_ne_zero_of_sum_ne_zero (s := Finset.range n) (f := fun d => names ino d i)
      (by omega)
    have hdir : (ino d).type = T_DIR := by
      by_contra hx
      exact hpos (h.names_of_not_dir hx)
    have hnlink : (ino d).nlink ≠ 0 := fun hz => hpos (he.emptied d hdir hz i)
    exact .step (he.reaches d hdir hnlink) hdir (by omega)

section

variable [Fintype ι]

theorem tree_call {v : View ι} (h : Tree n v.ino) (p : ι) (c : Call ι) : Tree n (v.call n p c).ino := by
  cases hp : v.cwd p with
  | none =>
    unfold View.call
    rw [hp]
    exact h
  | some cwd =>
    rw [View.call_of_some hp]
    exact tree_sweep (tree_effect h cwd c)

-- A directory that nobody uses when it is removed gets no names any more.
theorem rooted_of_calm {as : List (Step ι)} {v : View ι} (h : Tree n v.ino) (he : Exact n v.ino) (hb : Busy v)
    (hc : v.Along n Calm as)
    : v.Along n Rooted as := by
  induction as generalizing v with
  | nil => trivial
  | cons a as ih =>
    have hroot := hb.rooted h a.proc a.call
    exact ⟨hroot, ih (tree_call h a.proc a.call) (exact_call h he hroot) (busy_call h he hb hc.1) hc.2⟩

-- The links of an inode are its entries, and what is neither in use nor free has a path.
structure Counted (n : Nat) (s : State ι) : Prop where
  count : ∀ i, i ≠ ROOTINO → short (s.store.ino i).nlink = entries n s.store.ino i
  reaches : ∀ i, (s.store.ino i).type ≠ 0 → s.view.refs i = 0 → Reaches s.store.ino i

structure Undangling (s : State ι) : Prop where
  sound : ∀ d, (s.store.ino d).type = T_DIR → ∀ de ∈ (s.store.ino d).ents, de.inum ≠ 0 → (s.store.ino de.inum).type ≠ 0
  cwd : ∀ q cwd, s.cwd q = some cwd → (s.store.ino cwd).type = T_DIR ∧ Reaches s.store.ino cwd

/--
As long as no name is made in a directory that has been removed, the link counts are the numbers of entries, and what
nobody uses can be reached from the root.
-/
theorem link_counts_exact (h : Image n ino) (p : ι) (as : List (Step ι))
    (hroot : (State.boot ino p).view.Along n Rooted as)
    : Ends (StopsAt n False (State.boot ino p).view as)
        (Counted n) ((State.boot ino p).run n as) := by
  have hrun := run_spec (I := fun v => Exact n v.ino) (P := Rooted)
    (fun _ _ _ (hf : False) => hf.elim) (fun _ _ _ ht hs he _ => short_of_exact ht he hs)
    (fun v q c ht he hc => exact_call ht he hc) as (rest_boot h p) h.stored h.exact hroot
  apply hrun.mono
  rintro s ⟨-, hrest, hstored, hexact, -⟩
  constructor
  . intro i _
    unfold short
    rw [entries_eq hrest.tree hexact i, if_pos (short_of_exact hrest.tree hexact hstored i)]
  . intro i ht hz
    apply reaches_of_links hrest.tree hexact
    intro hnlink
    have := hrest.kept.pos hnlink ht
    omega

-- Nobody is in the directory that is removed.
theorem calm_first : (State.boot emptyImage false).view.Along 4 Calm firstCalls := by
  have hcwd : ((State.boot emptyImage false).view.run 4 (firstCalls.take 4)).cwd false = some ROOTINO := by
    decide +kernel
  have hunlinked : ((State.boot emptyImage false).view.run 4 (firstCalls.take 4)).ino.unlinked ROOTINO [98] =
      some (ROOTINO, 3, 3) := by
    decide +kernel
  have hrefs : ((State.boot emptyImage false).view.run 4 (firstCalls.take 4)).refs 3 = 0 := by
    decide +kernel
  refine ⟨trivial, trivial, trivial, trivial, ?_, trivial⟩
  intro cwd dp j ip hc hu _
  cases hcwd.symm.trans hc
  cases hunlinked.symm.trans hu
  exact hrefs

theorem link_counts_exact_first
    : ((State.boot emptyImage false).run 4 firstCalls).toOption.isSome = true ∧
        Ends (StopsAt 4 False (State.boot emptyImage false).view firstCalls) (Counted 4)
          ((State.boot emptyImage false).run 4 firstCalls) := by
  have himage := image_empty (n := 4) (by decide)
  exact ⟨firstCalls_return, link_counts_exact himage false firstCalls
    (rooted_of_calm himage.tree himage.exact (busy_boot himage false) calm_first)⟩

/--
As long as no directory is removed that is in use, no entry and no current directory names a free inode, and no call
meets an inode without a type.
-/
theorem nothing_dangles (h : Image n ino) (p : ι) (as : List (Step ι))
    (hcalm : (State.boot ino p).view.Along n Calm as)
    : Ends (StopsAt n True (State.boot ino p).view as)
        Undangling ((State.boot ino p).run n as) := by
  have hrun := run_spec (I := fun v => Exact n v.ino ∧ Busy v) (P := Calm)
    (fun v ht hi (_ : True) => hi.2.firm ht hi.1) (fun _ _ _ ht hs hi _ => short_of_exact ht hi.1 hs)
    (fun v q c ht hi hc => ⟨exact_call ht hi.1 (hi.2.rooted ht q c), busy_call ht hi.1 hi.2 hc⟩) as (rest_boot h p)
    h.stored ⟨h.exact, busy_boot h p⟩ hcalm
  apply hrun.mono
  rintro s ⟨-, hrest, -, ⟨hexact, hbusy⟩, -⟩
  refine ⟨(hbusy.firm hrest.tree hexact).sound, ?_⟩
  intro q cwd hq
  have hdir := hbusy.cwd q cwd hq
  exact ⟨hdir, hexact.reaches cwd hdir (hbusy.dirs cwd hdir)⟩

theorem nothing_dangles_first
    : ((State.boot emptyImage false).run 4 firstCalls).toOption.isSome = true ∧
        Ends (StopsAt 4 True (State.boot emptyImage false).view firstCalls) Undangling
          ((State.boot emptyImage false).run 4 firstCalls) :=
  ⟨firstCalls_return, nothing_dangles (image_empty (by decide)) false firstCalls calm_first⟩

end

end Xv6.Sysfile
