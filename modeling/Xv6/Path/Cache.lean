import Xv6.Fs.Array
import Xv6.Path.Impl

/-!
References to inodes. `Holds` compares the cache with the one at the start of a call: the call holds one reference for
each entry of `held`, with repetitions.
-/

namespace Xv6.Path

open Fs

variable {sb : Superblock} {s : Fs.State} {k0 k k' : Kernel} {held : List Nat} {locked : Option Nat} {i j inum : Nat}

/-- A cache that agrees with the disk; every inode that somebody refers to is allocated. -/
structure Consistent (sb : Superblock) (s : Fs.State) (k : Kernel) : Prop where
  disk : k.disk = s.disk
  live : ∀ i < NINODE, 0 < (k.icache i).ref → (k.icache i).inum < sb.ninodes ∧ (s.ino (k.icache i).inum).type ≠ 0
  valid : ∀ i < NINODE, 0 < (k.icache i).ref → (k.icache i).valid = true → (k.icache i).ip = s.ino (k.icache i).inum

def Unlocked (k : Kernel) : Prop :=
  ∀ i, (k.icache i).lock = false

def Referenced (k : Kernel) (inum : Nat) : Prop :=
  ∃ i < NINODE, (k.icache i).inum = inum ∧ 0 < (k.icache i).ref

-- Nobody frees the inode when the references of the call are dropped.
def Kept (s : Fs.State) (k : Kernel) (inum : Nat) : Prop :=
  (s.ino inum).nlink ≠ 0 ∨ Referenced k inum

structure Holds (sb : Superblock) (s : Fs.State) (k0 : Kernel) (held : List Nat) (locked : Option Nat) (k : Kernel) : Prop
    where
  consistent : Consistent sb s k
  ref : ∀ i, (k.icache i).ref = (k0.icache i).ref + held.count i
  same : ∀ i, 0 < (k0.icache i).ref → (k.icache i).inum = (k0.icache i).inum
  lock : ∀ i, (k.icache i).lock = decide (locked = some i)
  lt : ∀ i ∈ held, i < NINODE
  kept : ∀ i ∈ held, (s.ino (k.icache i).inum).nlink ≠ 0 ∨ 0 < (k0.icache i).ref

theorem Holds.start (hc : Consistent sb s k) (hu : Unlocked k) : Holds sb s k [] none k where
  consistent := hc
  ref i := rfl
  same i hi := rfl
  lock i := hu i
  lt i hi := by cases hi
  kept i hi := by cases hi

namespace Holds

theorem perm {held' : List Nat} (h : Holds sb s k0 held locked k) (hp : held.Perm held')
    : Holds sb s k0 held' locked k where
  consistent := h.consistent
  ref i := by rw [h.ref, hp.count_eq]
  same := h.same
  lock := h.lock
  lt i hi := h.lt i (hp.mem_iff.mpr hi)
  kept i hi := h.kept i (hp.mem_iff.mpr hi)

theorem ref_pos (h : Holds sb s k0 held locked k) (hi : i ∈ held) : 0 < (k.icache i).ref := by
  rw [h.ref]
  have := List.count_pos_iff.mpr hi
  omega

end Holds

namespace Kernel

@[simp]
theorem set_self (k : Kernel) (i : Nat) (ip : Inode) : (k.set i ip).icache i = ip :=
  Function.update_self _ _ _

theorem set_of_ne (k : Kernel) (ip : Inode) (h : j ≠ i) : (k.set i ip).icache j = k.icache j :=
  Function.update_of_ne h _ _

theorem set_eq (k : Kernel) (i : Nat) : k.set i (k.icache i) = k := by
  rw [Kernel.set, Function.update_eq_self]

@[simp]
theorem set_disk (k : Kernel) (i : Nat) (ip : Inode) : (k.set i ip).disk = k.disk := rfl

end Kernel

theorem Holds.set {held' : List Nat} {locked' : Option Nat} {ip : Inode} (h : Holds sb s k0 held locked k)
    (hlive : 0 < ip.ref → ip.inum < sb.ninodes ∧ (s.ino ip.inum).type ≠ 0)
    (hvalid : 0 < ip.ref → ip.valid = true → ip.ip = s.ino ip.inum)
    (href : ip.ref = (k0.icache i).ref + held'.count i) (hsame : 0 < (k0.icache i).ref → ip.inum = (k0.icache i).inum)
    (hlock : ip.lock = decide (locked' = some i)) (hcount : ∀ j, j ≠ i → held'.count j = held.count j)
    (hlocked : ∀ j, j ≠ i → (locked' = some j ↔ locked = some j)) (hlt : i < NINODE)
    (hkept : i ∈ held' → (s.ino ip.inum).nlink ≠ 0 ∨ 0 < (k0.icache i).ref)
    : Holds sb s k0 held' locked' (k.set i ip) := by
  have hself := k.set_self i ip
  have hother : ∀ j, j ≠ i → (k.set i ip).icache j = k.icache j := fun j hj => k.set_of_ne ip hj
  have hheld : ∀ j, j ≠ i → j ∈ held' → j ∈ held := by
    intro j hj hmem
    rw [← List.count_pos_iff, ← hcount j hj]
    exact List.count_pos_iff.mpr hmem
  refine ⟨⟨h.consistent.disk, ?_, ?_⟩, ?_, ?_, ?_, ?_, ?_⟩
  . intro j hj
    by_cases hji : j = i
    . rw [hji, hself]
      exact hlive
    . rw [hother j hji]
      exact h.consistent.live j hj
  . intro j hj
    by_cases hji : j = i
    . rw [hji, hself]
      exact hvalid
    . rw [hother j hji]
      exact h.consistent.valid j hj
  . intro j
    by_cases hji : j = i
    . rw [hji, hself]
      exact href
    . rw [hother j hji, hcount j hji]
      exact h.ref j
  . intro j
    by_cases hji : j = i
    . rw [hji, hself]
      exact hsame
    . rw [hother j hji]
      exact h.same j
  . intro j
    by_cases hji : j = i
    . rw [hji, hself]
      exact hlock
    . rw [hother j hji, h.lock, decide_eq_decide]
      exact (hlocked j hji).symm
  . intro j hj
    by_cases hji : j = i
    . rw [hji]
      exact hlt
    . exact h.lt j (hheld j hji hj)
  . intro j hj
    by_cases hji : j = i
    . rw [hji] at hj ⊢
      rw [hself]
      exact hkept hj
    . rw [hother j hji]
      exact h.kept j (hheld j hji hj)

theorem Holds.share (h : Holds sb s k0 held locked k) (hi : i < NINODE) (hpos : 0 < (k.icache i).ref)
    (hkept : (s.ino (k.icache i).inum).nlink ≠ 0 ∨ 0 < (k0.icache i).ref)
    : Holds sb s k0 (i :: held) locked (k.set i { k.icache i with ref := (k.icache i).ref + 1 }) := by
  apply h.set
  . intro _
    exact h.consistent.live i hi hpos
  . intro _
    exact h.consistent.valid i hi hpos
  . rw [List.count_cons_self, h.ref i]
    rfl
  . exact h.same i
  . exact h.lock i
  . intro j hj
    exact List.count_cons_of_ne (Ne.symm hj)
  . intro j _
    exact Iff.rfl
  . exact hi
  . intro _
    exact hkept

theorem Holds.recycle (h : Holds sb s k0 held locked k) (hi : i < NINODE) (hzero : (k.icache i).ref = 0)
    (hlive : inum < sb.ninodes ∧ (s.ino inum).type ≠ 0) (hlinked : (s.ino inum).nlink ≠ 0)
    : Holds sb s k0 (i :: held) locked (k.set i { k.icache i with inum := inum, ref := 1, valid := false }) := by
  have href := h.ref i
  apply h.set
  . intro _
    exact hlive
  . nofun
  . rw [List.count_cons_self]
    dsimp only
    omega
  . intro hpos
    omega
  . exact h.lock i
  . intro j hj
    exact List.count_cons_of_ne (Ne.symm hj)
  . intro j _
    exact Iff.rfl
  . exact hi
  . intro _
    exact .inl hlinked

-- What the loop of `iget` finds.
inductive Scans (icache : Nat → Inode) (inum : Nat) (l : List Nat) (empty : Option Nat)
    : Nat ⊕ Option Nat → Prop where
  | found {i : Nat} (hmem : i ∈ l) (hpos : 0 < (icache i).ref) (hinum : (icache i).inum = inum)
    : Scans icache inum l empty (.inl i)
  | empty {i : Nat} (hempty : empty = some i ∨ i ∈ l ∧ (icache i).ref = 0)
    (habsent : ∀ j ∈ l, 0 < (icache j).ref → (icache j).inum ≠ inum) : Scans icache inum l empty (.inr (some i))
  | full (hempty : empty = none) (hpos : ∀ j ∈ l, 0 < (icache j).ref) : Scans icache inum l empty (.inr none)

theorem igetLoop_scans (icache : Nat → Inode) (inum : Nat) (l : List Nat) (empty : Option Nat)
    : Scans icache inum l empty (igetLoop icache inum l empty) := by
  induction l generalizing empty with
  | nil =>
    unfold igetLoop
    cases empty with
    | none => exact .full rfl nofun
    | some i => exact .empty (.inl rfl) nofun
  | cons i l ih =>
    unfold igetLoop
    split
    . next hfound => exact .found List.mem_cons_self hfound.1 hfound.2
    . next hne =>
      have habsent : 0 < (icache i).ref → (icache i).inum ≠ inum := fun hpos heq => hne ⟨hpos, heq⟩
      generalize hempty' : (if empty = none ∧ (icache i).ref = 0 then some i else empty) = empty'
      have hrest := ih empty'
      generalize igetLoop icache inum l empty' = result at hrest
      cases hrest with
      | found hmem hpos hinum => exact .found (List.mem_cons_of_mem i hmem) hpos hinum
      | empty hempty habsents =>
        refine .empty ?_ (List.forall_mem_cons.mpr ⟨habsent, habsents⟩)
        rcases hempty with hempty | ⟨hmem, hzero⟩
        . rw [hempty] at hempty'
          split at hempty'
          . next hfree =>
            cases hempty'
            exact .inr ⟨List.mem_cons_self, hfree.2⟩
          . exact .inl hempty'
        . exact .inr ⟨List.mem_cons_of_mem i hmem, hzero⟩
      | full hempty hpos =>
        rw [hempty] at hempty'
        split at hempty'
        . cases hempty'
        . next hused =>
          have hzero : (icache i).ref ≠ 0 := fun hzero => hused ⟨hempty', hzero⟩
          exact .full hempty' (List.forall_mem_cons.mpr ⟨Nat.pos_of_ne_zero hzero, hpos⟩)

theorem Holds.iget (h : Holds sb s k0 held locked k) (hlive : inum < sb.ninodes ∧ (s.ino inum).type ≠ 0)
    (hkept : Kept s k0 inum)
    : (iget k inum = .error (.panic "iget: no inodes") ∧ ∀ i < NINODE, i ∉ held → 0 < (k0.icache i).ref) ∨
      ∃ k' i, iget k inum = .ok (k', i) ∧ Holds sb s k0 (i :: held) locked k' ∧ (k'.icache i).inum = inum := by
  have hscan := igetLoop_scans k.icache inum (List.range NINODE) none
  have hused : ∀ i, 0 < (k0.icache i).ref → 0 < (k.icache i).ref := by
    intro i hi
    rw [h.ref]
    omega
  unfold Path.iget
  generalize igetLoop k.icache inum (List.range NINODE) none = result at hscan
  cases hscan with
  | found hmem hpos hinum =>
    next i =>
    right
    have hi := List.mem_range.mp hmem
    refine ⟨_, i, rfl, h.share hi hpos ?_, ?_⟩
    . by_cases hheld : i ∈ held
      . exact h.kept i hheld
      . right
        have href := h.ref i
        rw [List.count_eq_zero.mpr hheld] at href
        omega
    . rw [Kernel.set_self]
      exact hinum
  | empty hempty habsent =>
    next i =>
    right
    obtain ⟨hmem, hzero⟩ := hempty.resolve_left nofun
    refine ⟨_, i, rfl, h.recycle (List.mem_range.mp hmem) hzero hlive ?_, ?_⟩
    . rcases hkept with hlinked | ⟨j, hj, hinum, hpos⟩
      . exact hlinked
      . have hsame := h.same j hpos
        exact absurd (hsame.trans hinum) (habsent j (List.mem_range.mpr hj) (hused j hpos))
    . rw [Kernel.set_self]
  | full hempty hpos =>
    left
    refine ⟨rfl, ?_⟩
    intro i hi hheld
    have hpos := hpos i (List.mem_range.mpr hi)
    rwa [h.ref, List.count_eq_zero.mpr hheld] at hpos

-- The inodes in the entries stay.
def Stays (k k' : Kernel) : Prop :=
  ∀ i, (k'.icache i).inum = (k.icache i).inum

theorem Stays.set {ip : Inode} (h : ip.inum = (k.icache i).inum) : Stays k (k.set i ip) := by
  intro j
  by_cases hji : j = i
  . rw [hji, Kernel.set_self, h]
  . rw [Kernel.set_of_ne k ip hji]

namespace Holds

theorem ilock (h : Holds sb s k0 held none k) (hs : WellFormed sb s) (hi : i ∈ held)
    : ∃ k', ilock sb k i = .ok k' ∧ Holds sb s k0 held (some i) k' ∧ Stays k k' ∧
        (k'.icache i).ip = s.ino (k.icache i).inum := by
  have hlt := h.lt i hi
  have hpos := h.ref_pos hi
  have hlock := h.lock i
  have hlive := h.consistent.live i hlt hpos
  have hread : dinode sb k.disk (k.icache i).inum = s.ino (k.icache i).inum := by
    rw [h.consistent.disk]
    exact hs.coherent _ hlive.1
  have hlocks : ∀ ip : Inode, ip.inum = (k.icache i).inum → ip.ref = (k.icache i).ref → ip.lock = true →
      ip.ip = s.ino ip.inum → Holds sb s k0 held (some i) (k.set i ip) := by
    intro ip hinum href hlocked hip
    rw [hinum] at hip
    apply h.set
    . rw [hinum]
      exact fun _ => hlive
    . rw [hinum]
      exact fun _ _ => hip
    . rw [href]
      exact h.ref i
    . rw [hinum]
      exact h.same i
    . rw [hlocked]
      simp
    . exact fun j _ => rfl
    . intro j hj
      simp [Ne.symm hj]
    . exact hlt
    . rw [hinum]
      exact h.kept i
  unfold Path.ilock
  rw [if_neg (by omega), if_neg (by simp [hlock])]
  dsimp only
  split
  . rw [hread, if_neg hlive.2]
    exact ⟨_, rfl, hlocks _ rfl rfl rfl rfl, Stays.set rfl, by rw [Kernel.set_self]⟩
  . next hvalid =>
    have hip := h.consistent.valid i hlt hpos (by simpa using hvalid)
    exact ⟨_, rfl, hlocks _ rfl rfl rfl hip, Stays.set rfl, by rw [Kernel.set_self]; exact hip⟩

theorem iunlock (h : Holds sb s k0 held (some i) k) (hi : i ∈ held)
    : ∃ k', iunlock k i = .ok k' ∧ Holds sb s k0 held none k' ∧ Stays k k' := by
  have hpos := h.ref_pos hi
  have hlock := h.lock i
  unfold Path.iunlock
  rw [if_neg (by simp [hlock]; omega)]
  refine ⟨_, rfl, ?_, Stays.set rfl⟩
  apply h.set
  . exact h.consistent.live i (h.lt i hi)
  . exact h.consistent.valid i (h.lt i hi)
  . exact h.ref i
  . exact h.same i
  . simp
  . exact fun j _ => rfl
  . intro j hj
    simp [Ne.symm hj]
  . exact h.lt i hi
  . exact h.kept i

-- The reference is not the last one to an inode without links.
theorem iput (h : Holds sb s k0 (i :: held) none k)
    : ∃ k', iput sb k i = .ok k' ∧ Holds sb s k0 held none k' ∧ Stays k k' := by
  have hi : i ∈ i :: held := List.mem_cons_self
  have hlt := h.lt i hi
  have hpos := h.ref_pos hi
  have href := h.ref i
  rw [List.count_cons_self] at href
  have hkeeps : ¬ ((k.icache i).valid = true ∧ (k.icache i).ip.nlink = 0 ∧ (k.icache i).ref = 1) := by
    rintro ⟨hvalid, hnlink, hone⟩
    rw [h.consistent.valid i hlt hpos hvalid] at hnlink
    have := (h.kept i hi).resolve_left (not_not_intro hnlink)
    omega
  unfold Path.iput Fs.iput
  rw [if_neg (by simp [h.lock i]), if_neg hkeeps]
  refine ⟨k.set i { k.icache i with ref := (k.icache i).ref - 1 }, rfl, ?_, Stays.set rfl⟩
  apply h.set
  . exact fun _ => h.consistent.live i hlt hpos
  . exact fun _ => h.consistent.valid i hlt hpos
  . dsimp only
    omega
  . exact h.same i
  . exact h.lock i
  . intro j hj
    exact (List.count_cons_of_ne (Ne.symm hj)).symm
  . exact fun j _ => Iff.rfl
  . exact hlt
  . exact fun _ => h.kept i hi

theorem iunlockput (h : Holds sb s k0 (i :: held) (some i) k)
    : ∃ k', iunlockput sb k i = .ok k' ∧ Holds sb s k0 held none k' ∧ Stays k k' := by
  obtain ⟨k1, hunlock, h1, hstays1⟩ := h.iunlock List.mem_cons_self
  obtain ⟨k2, hput, h2, hstays2⟩ := h1.iput
  refine ⟨k2, ?_, h2, fun j => (hstays2 j).trans (hstays1 j)⟩
  unfold Path.iunlockput
  rw [hunlock]
  exact hput

end Holds

end Xv6.Path
