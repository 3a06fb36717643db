import Xv6.Sysfile.Spec

/-!
The cache of inodes while a call runs. `refs` counts the references, those of the call included, and `locked` are the
locks that it holds.
-/

namespace Xv6.Sysfile

open Xv6.Fs Xv6.Path

variable {α β ε : Type}

-- What a computation returns and how it may stop.
def Ends (E : ε → Prop) (Q : α → Prop) : Except ε α → Prop
  | .error e => E e
  | .ok a => Q a

namespace Ends

variable {E : ε → Prop} {Q Q' : α → Prop} {R : β → Prop} {x : Except ε α} {f : α → Except ε β}

theorem bind (h : Ends E Q x) (hf : ∀ a, Q a → Ends E R (f a)) : Ends E R (x >>= f) := by
  cases x with
  | error e => exact h
  | ok a => exact hf a h

theorem mono (h : Ends E Q x) (hQ : ∀ a, Q a → Q' a) : Ends E Q' x := by
  cases x with
  | error e => exact h
  | ok a => exact hQ a h

theorem imp {E' : ε → Prop} (h : Ends E Q x) (hE : ∀ e, E e → E' e) (hQ : ∀ a, Q a → Q' a) : Ends E' Q' x := by
  cases x with
  | error e => exact hE e h
  | ok a => exact hQ a h

end Ends

-- One more reference to `i`.
def more (refs : Nat → Nat) (i : Nat) : Nat → Nat :=
  fun j => refs j + if j = i then 1 else 0

theorem more_self (refs : Nat → Nat) (i : Nat) : more refs i i = refs i + 1 := by
  simp [more]

theorem more_of_ne {refs : Nat → Nat} {i j : Nat} (h : j ≠ i) : more refs i j = refs j := by
  simp [more, h]

theorem le_more (refs : Nat → Nat) (i j : Nat) : refs j ≤ more refs i j := Nat.le_add_right _ _

theorem more_comm (refs : Nat → Nat) (i j : Nat) : more (more refs i) j = more (more refs j) i := by
  funext k
  unfold more
  omega

structure Conf (refs : Nat → Nat) (locked : List Nat) (s : Store) : Prop where
  ref : ∀ i, (s.icache i).ref = refs i
  lock : ∀ i, (s.icache i).lock = true ↔ i ∈ locked
  held : ∀ i ∈ locked, 0 < refs i ∧ (s.icache i).valid = true
  live : ∀ i, (s.icache i).valid = true → 0 < refs i → (s.ino i).type ≠ 0
  kept : ∀ i, (s.ino i).nlink = 0 → (s.ino i).type ≠ 0 → 0 < refs i ∧ (s.icache i).valid = true
  free : ∀ i, (s.ino i).type = 0 → s.ino i = Inode.free

-- There is no room left in the cache, for inodes, on the disk or in a directory.
def exhausted : List String :=
  ["iget: no inodes", "ialloc: no inodes", "balloc: out of blocks", "dirlink"]

/--
The ways in which a call may stop: it waits for itself only if `dl` holds, and it meets an inode without a type only if
`nd` does not.
-/
def Fine (dl nd : Prop) : Stop → Prop
  | .deadlock => dl
  | .panic msg => msg ∈ exhausted ∨ (msg = "ilock: no type" ∧ ¬ nd)

-- No inode has neither links nor references.
def Kept (refs : Nat → Nat) (ino : Graph) : Prop :=
  ino.sweep refs = ino

variable {dl nd : Prop} {refs : Nat → Nat} {locked : List Nat} {s : Store} {ino : Graph} {i j ninodes : Nat}

theorem Fine.imp {dl' : Prop} {e : Stop} (h : Fine dl nd e) (hdl : dl → dl') : Fine dl' nd e := by
  cases e with
  | deadlock => exact hdl h
  | panic msg => exact h

theorem Kept.more (h : Kept refs ino) (i : Nat) : Kept (more refs i) ino := by
  funext j
  unfold Graph.sweep
  split
  . next hj =>
    have hle := le_more refs i j
    have := congrFun h j
    rwa [Graph.sweep, if_pos ⟨hj.1, by omega⟩] at this
  . rfl

theorem Kept.pos (h : Kept refs ino) (hi : (ino i).nlink = 0) (ht : (ino i).type ≠ 0) : 0 < refs i := by
  by_contra hz
  have := congrFun h i
  rw [Graph.sweep, if_pos ⟨hi, by omega⟩] at this
  rw [← this] at ht
  exact ht rfl

section

variable (s i)

@[simp]
theorem setIno_icache (ip : Inode) : (s.setIno i ip).icache = s.icache := rfl

@[simp]
theorem setEntry_ino (e : Entry) : (s.setEntry i e).ino = s.ino := rfl

@[simp]
theorem setIno_ino (ip : Inode) : (s.setIno i ip).ino = Function.update s.ino i ip := rfl

@[simp]
theorem setEntry_icache (e : Entry) : (s.setEntry i e).icache = Function.update s.icache i e := rfl

end

namespace Conf

variable {refs' : Nat → Nat} {locked' : List Nat} {e : Entry} {ip : Inode}

theorem set (h : Conf refs locked s) (hrefs : ∀ j, j ≠ i → refs' j = refs j)
    (hlocked : ∀ j, j ≠ i → (j ∈ locked' ↔ j ∈ locked)) (href : e.ref = refs' i) (hlock : e.lock = true ↔ i ∈ locked')
    (hheld : i ∈ locked' → 0 < refs' i ∧ e.valid = true)
    (hlive : e.valid = true → 0 < refs' i → ip.type ≠ 0)
    (hkept : ip.nlink = 0 → ip.type ≠ 0 → 0 < refs' i ∧ e.valid = true) (hfree : ip.type = 0 → ip = Inode.free)
    : Conf refs' locked' ((s.setIno i ip).setEntry i e) := by
  constructor
  . intro j
    by_cases hj : j = i
    . subst hj
      simpa using href
    . simp [hj, hrefs, h.ref]
  . intro j
    by_cases hj : j = i
    . subst hj
      simpa using hlock
    . simp [hj, hlocked, h.lock]
  . intro j hm
    by_cases hj : j = i
    . subst hj
      simpa using hheld hm
    . have hk := h.held j ((hlocked j hj).mp hm)
      exact ⟨by rw [hrefs j hj]; exact hk.1, by simpa [hj] using hk.2⟩
  . intro j hv hr
    by_cases hj : j = i
    . subst hj
      simpa using hlive (by simpa using hv) hr
    . simpa [hj] using h.live j (by simpa [hj] using hv) (by rwa [hrefs j hj] at hr)
  . intro j hn ht
    by_cases hj : j = i
    . subst hj
      simpa using hkept (by simpa using hn) (by simpa using ht)
    . have hk := h.kept j (by simpa [hj] using hn) (by simpa [hj] using ht)
      exact ⟨by rw [hrefs j hj]; exact hk.1, by simpa [hj] using hk.2⟩
  . intro j ht
    by_cases hj : j = i
    . subst hj
      simpa using hfree (by simpa using ht)
    . simpa [hj] using h.free j (by simpa [hj] using ht)

theorem setEntry (h : Conf refs locked s) (hrefs : ∀ j, j ≠ i → refs' j = refs j)
    (hlocked : ∀ j, j ≠ i → (j ∈ locked' ↔ j ∈ locked)) (href : e.ref = refs' i) (hlock : e.lock = true ↔ i ∈ locked')
    (hheld : i ∈ locked' → 0 < refs' i ∧ e.valid = true)
    (hlive : e.valid = true → 0 < refs' i → (s.ino i).type ≠ 0)
    (hkept : (s.ino i).nlink = 0 → (s.ino i).type ≠ 0 → 0 < refs' i ∧ e.valid = true)
    : Conf refs' locked' (s.setEntry i e) := by
  have hset := h.set hrefs hlocked href hlock hheld hlive hkept (h.free i)
  rwa [Store.setIno, Function.update_eq_self] at hset

theorem setIno (h : Conf refs locked s) (hi : i ∈ locked) (ht : ip.type ≠ 0) : Conf refs locked (s.setIno i ip) := by
  have hset := h.set (fun _ _ => rfl) (fun _ _ => Iff.rfl) (h.ref i) (h.lock i) (h.held i) (fun _ _ => ht)
    (fun _ _ => h.held i hi) fun hz => absurd hz ht
  rwa [Store.setEntry, setIno_icache, Function.update_eq_self] at hset

theorem share (h : Conf refs locked s) (hpos : 0 < refs i)
    : Conf (more refs i) locked (s.setEntry i { s.icache i with ref := (s.icache i).ref + 1 }) := by
  have hmore := more_self refs i
  apply h.setEntry (fun j hj => more_of_ne hj) fun _ _ => Iff.rfl
  . rw [h.ref, hmore]
  . exact h.lock i
  . intro hm
    exact ⟨by omega, (h.held i hm).2⟩
  . intro hv _
    exact h.live i hv hpos
  . intro hn ht
    exact ⟨by omega, (h.kept i hn ht).2⟩

theorem recycle (h : Conf refs locked s) (hzero : refs i = 0)
    : Conf (more refs i) locked (s.setEntry i { s.icache i with ref := 1, valid := false }) := by
  have hmore := more_self refs i
  apply h.setEntry (fun j hj => more_of_ne hj) fun _ _ => Iff.rfl
  . dsimp only
    omega
  . exact h.lock i
  . intro hm
    have := (h.held i hm).1
    omega
  . intro hv
    cases hv
  . intro hn ht
    have := (h.kept i hn ht).1
    omega

end Conf

-- The directories are `ino`.
def At (refs : Nat → Nat) (locked : List Nat) (ino : Graph) (s : Store) : Prop :=
  Conf refs locked s ∧ s.ino = ino

namespace At

theorem iget (h : At refs locked ino s) (i : Nat)
    : Ends (Fine dl nd) (At (more refs i) locked ino) (iget ninodes s i) := by
  obtain ⟨h, rfl⟩ := h
  unfold Sysfile.iget
  split
  . next hpos =>
    rw [h.ref] at hpos
    exact ⟨h.share hpos, rfl⟩
  . next hzero =>
    rw [h.ref] at hzero
    split
    . exact ⟨h.recycle (by omega), rfl⟩
    . exact .inl (by decide)

theorem idup (h : At refs locked ino s) (hpos : 0 < refs i) : At (more refs i) locked ino (idup s i) :=
  ⟨h.1.share hpos, h.2⟩

theorem ilock (h : At refs locked ino s) (hpos : 0 < refs i) (hfree : i ∉ locked) (hnd : nd → (ino i).type ≠ 0)
    : Ends (Fine dl nd) (fun s' => At refs (i :: locked) ino s' ∧ (ino i).type ≠ 0) (ilock s i) := by
  obtain ⟨h, rfl⟩ := h
  have hlock : ¬ (s.icache i).lock = true := mt (h.lock i).mp hfree
  unfold Sysfile.ilock
  rw [if_neg (by rw [h.ref]; omega), if_neg hlock]
  split
  . next hz => exact .inr ⟨rfl, fun hn => hnd hn hz.2⟩
  . next ht =>
    have ht : (s.ino i).type ≠ 0 := by
      intro hz
      cases hv : (s.icache i).valid with
      | false => exact ht ⟨hv, hz⟩
      | true => exact h.live i hv hpos hz
    refine ⟨⟨h.setEntry (fun _ _ => rfl) ?_ (h.ref i) ?_ ?_ (fun _ _ => ht) (fun _ _ => ⟨hpos, rfl⟩), rfl⟩, ht⟩
    . intro j hj
      simp [hj]
    . simp
    . exact fun _ => ⟨hpos, rfl⟩

theorem iunlock (h : At refs (i :: locked) ino s) (hfree : i ∉ locked)
    : Ends (Fine dl nd) (At refs locked ino) (iunlock s i) := by
  obtain ⟨h, rfl⟩ := h
  have hi : i ∈ i :: locked := List.mem_cons_self
  have hpos := (h.held i hi).1
  unfold Sysfile.iunlock
  rw [if_neg (by rw [h.ref, (h.lock i).mpr hi]; simp; omega)]
  refine ⟨h.setEntry (fun _ _ => rfl) ?_ (h.ref i) ?_ ?_ (h.live i) (h.kept i), rfl⟩
  . intro j hj
    simp [hj]
  . simp [hfree]
  . intro hm
    exact absurd hm hfree

-- The last reference to an inode without links frees it.
theorem iput_sweep (h : At (more refs i) locked (ino.sweep (more refs i)) s) (hlocked : i ∉ locked)
    : Ends (Fine dl nd) (At refs locked (ino.sweep refs)) (iput s i) := by
  obtain ⟨h, hino⟩ := h
  have hself := more_self refs i
  have hi : s.ino i = ino i := by
    rw [hino, Graph.sweep, if_neg (by omega)]
  have hother : ∀ j, j ≠ i → s.ino j = ino.sweep refs j := by
    intro j hj
    rw [hino, Graph.sweep, Graph.sweep, more_of_ne hj]
  have hlock : ¬ (s.icache i).lock = true := mt (h.lock i).mp hlocked
  unfold Sysfile.iput
  rw [if_neg hlock, h.ref, hself]
  split
  . next hlast =>
    have hset : Function.update s.ino i Inode.free = ino.sweep refs := by
      funext j
      by_cases hj : j = i
      . subst hj
        rw [Function.update_self, Graph.sweep, if_pos ⟨by rw [← hi]; exact hlast.2.1, by omega⟩]
      . rw [Function.update_of_ne hj, hother j hj]
    refine ⟨h.set (fun j hj => (more_of_ne hj).symm) (fun _ _ => Iff.rfl) ?_ (h.lock i) ?_ ?_ ?_ fun _ => rfl, hset⟩
    . dsimp only
      omega
    . intro hm
      exact absurd hm hlocked
    . intro hv
      cases hv
    . intro _ ht
      exact absurd rfl ht
  . next hlast =>
    have hkeeps : (s.ino i).nlink = 0 → refs i = 0 → (s.ino i).type = 0 := by
      intro hn hz
      by_contra ht
      exact hlast ⟨(h.kept i hn ht).2, hn, by omega⟩
    have hset : s.ino = ino.sweep refs := by
      funext j
      by_cases hj : j = i
      . subst hj
        rw [Graph.sweep, ← hi]
        split
        . next hz => exact h.free j (hkeeps hz.1 hz.2)
        . rfl
      . rw [hother j hj]
    refine ⟨h.setEntry (fun j hj => (more_of_ne hj).symm) (fun _ _ => Iff.rfl) ?_ (h.lock i) ?_ ?_ ?_, hset⟩
    . dsimp only
      omega
    . intro hm
      exact absurd hm hlocked
    . intro hv _
      exact h.live i hv (by omega)
    . intro hn ht
      exact ⟨Nat.pos_of_ne_zero fun hz => ht (hkeeps hn hz), (h.kept i hn ht).2⟩

theorem iput (h : At (more refs i) locked ino s) (hlocked : i ∉ locked) (hkept : Kept refs ino)
    : Ends (Fine dl nd) (At refs locked ino) (iput s i) := by
  rw [← hkept.more i] at h
  have hput : Ends (Fine dl nd) (At refs locked (ino.sweep refs)) (Sysfile.iput s i) := h.iput_sweep hlocked
  rwa [hkept] at hput

theorem iunlockput_sweep (h : At (more refs i) (i :: locked) (ino.sweep (more refs i)) s) (hlocked : i ∉ locked)
    : Ends (Fine dl nd) (At refs locked (ino.sweep refs)) (iunlockput s i) :=
  (h.iunlock hlocked).bind fun _ h => h.iput_sweep hlocked

theorem iunlockput (h : At (more refs i) (i :: locked) ino s) (hlocked : i ∉ locked) (hkept : Kept refs ino)
    : Ends (Fine dl nd) (At refs locked ino) (iunlockput s i) :=
  (h.iunlock hlocked).bind fun _ h => h.iput hlocked hkept

theorem setIno {ip : Inode} (h : At refs locked ino s) (hi : i ∈ locked) (ht : ip.type ≠ 0)
    : At refs locked (Function.update ino i ip) (s.setIno i ip) :=
  ⟨h.1.setIno hi ht, by rw [setIno_ino, h.2]⟩

end At

end Xv6.Sysfile
