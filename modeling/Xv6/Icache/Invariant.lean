import Xv6.Icache.Phases

/-!
What holds at any moment: how the references are counted, which call has which lock, and what an entry has to do with
the inode on the disk. One lemma for each kind of change keeps it.
-/

namespace Xv6.Icache

open Fs Crowd

variable {ι : Type} [Fintype ι] [DecidableEq ι] {s t : State ι} {e : Inode ι} {d : Dinode} {x : Phase} {y : Place}
  {p : ι} {i j : Slot} {k n ninodes dev inum : Nat}

-- The references are those of the pointers and of the calls of `iput`.
structure Counted (s : State ι) : Prop where
  ref : ∀ i, (s.icache i).ref = s.refs i + total (puts i) s.place
  used : ∀ p i x, s.place p = .on i x → x.inIput = false → 0 < s.refs i

structure Inv (s : State ι) : Prop where
  counted : Counted s
  mapped : ∀ dev inum, Mapped (s.disk dev inum)
  unique : ∀ i j, 0 < (s.icache i).ref → 0 < (s.icache j).ref → (s.icache i).dev = (s.icache j).dev →
    (s.icache i).inum = (s.icache j).inum → i = j
  held : ∀ p i x, s.place p = .on i x → x.held = true →
    (s.icache i).lock = some p ∧ Good (s.icache i) (s.dinode i) x
  free : ∀ i, 0 < (s.icache i).ref → (s.icache i).lock = none → Coherent (s.icache i) (s.dinode i)
  lock : ∀ p i, (s.icache i).lock = some p → ∃ x, s.place p = .on i x ∧ x.held = true

omit [Fintype ι] in
theorem goto_place (s : State ι) (p q : ι) (y : Place) : (s.goto p y).place q = if q = p then y else s.place q :=
  Function.update_apply s.place p y q

omit [Fintype ι] [DecidableEq ι] in
theorem setEntry_icache (s : State ι) (i j : Slot) (e : Inode ι)
    : (s.setEntry i e).icache j = if j = i then e else s.icache j :=
  Function.update_apply s.icache i e j

omit [Fintype ι] [DecidableEq ι] in
theorem setRefs_refs (s : State ι) (i j : Slot) (n : Nat) : (s.setRefs i n).refs j = if j = i then n else s.refs j :=
  Function.update_apply s.refs i n j

omit [Fintype ι] [DecidableEq ι] in
theorem setDisk_disk (s : State ι) (dev inum dev' inum' : Nat) (d : Dinode)
    : (s.setDisk dev inum d).disk dev' inum' = if dev' = dev ∧ inum' = inum then d else s.disk dev' inum' := by
  unfold State.setDisk
  dsimp only
  rw [Function.update_apply]
  split
  . next hdev =>
    rw [Function.update_apply, hdev]
    simp only [true_and]
  . next hdev => rw [if_neg fun h => hdev h.1]

omit [DecidableEq ι] in
theorem Counted.pos (h : Counted s) (hp : s.place p = .on i x) : 0 < (s.icache i).ref := by
  rw [h.ref i]
  cases hx : x.inIput with
  | false => exact Nat.add_pos_left (h.used p i x hp hx) _
  | true =>
    have hle := le_total (puts i) s.place p
    rw [hp] at hle
    dsimp only [puts] at hle
    rw [if_pos ⟨rfl, hx⟩] at hle
    omega

-- The process `p` goes on to `y`.
theorem Counted.goto (h : Counted s) (hicache : ∀ i, (t.icache i).ref + puts i (s.place p) + s.refs i =
      (s.icache i).ref + puts i y + t.refs i)
    (hplace : t.place = Function.update s.place p y)
    (hrefs : ∀ q, q ≠ p → ∀ i x, s.place q = .on i x → x.inIput = false → 0 < t.refs i)
    (hy : ∀ i x, y = .on i x → x.inIput = false → 0 < t.refs i)
    : Counted t where
  ref i := by
    have htotal := total_update (puts i) s.place p y
    have href := h.ref i
    have hnew := hicache i
    rw [hplace]
    omega
  used q i x hq hx := by
    rw [hplace, Function.update_apply] at hq
    split at hq
    . exact hy i x hq hx
    . next hne => exact hrefs q hne i x hq hx

-- The process `p` goes on to `y` and leaves the entry `e` and the inode `d` behind at `i`.
structure Touched (s : State ι) (p : ι) (i : Slot) (e : Inode ι) (d : Dinode) (y : Place) (t : State ι) : Prop where
  self : t.icache i = e
  other : ∀ j, j ≠ i → t.icache j = s.icache j
  disk : ∀ dev inum, t.disk dev inum =
    if dev = (s.icache i).dev ∧ inum = (s.icache i).inum then d else s.disk dev inum
  refs : t.refs = s.refs
  place : t.place = Function.update s.place p y

-- Two entries that are in use are different inodes on the disk.
theorem Touched.dinode_other (ht : Touched s p i e d y t) (h : Inv s) (hi : 0 < (s.icache i).ref)
    (hj : 0 < (s.icache j).ref) (hne : j ≠ i)
    : t.dinode j = s.dinode j := by
  unfold State.dinode
  rw [ht.other j hne, ht.disk, if_neg]
  intro heq
  exact hne (h.unique j i hj hi heq.1 heq.2)

-- A call that has the lock, or takes it, or gives it back.
theorem Inv.hold (h : Inv s) (hp : s.place p = .on i x) (hx : x.held = true ∨ (s.icache i).lock = none)
    (ht : Touched s p i e d y t) (hdev : e.dev = (s.icache i).dev) (hinum : e.inum = (s.icache i).inum)
    (href : e.ref = (s.icache i).ref) (hd : Mapped d)
    (hy : y = .out ∧ x.inIput = false ∨ ∃ x', y = .on i x' ∧ x'.inIput = x.inIput)
    (hheld : ∀ x', y = .on i x' → x'.held = true → e.lock = some p ∧ Good e d x')
    (hfree : (∀ x', y = .on i x' → x'.held = false) → e.lock = none ∧ Coherent e d)
    : Inv t := by
  have hpos := h.counted.pos hp
  have hself : t.dinode i = d := by
    unfold State.dinode
    rw [ht.self, ht.disk, hdev, hinum, if_pos ⟨rfl, rfl⟩]
  have hkeys : ∀ j, (t.icache j).ref = (s.icache j).ref ∧ (t.icache j).dev = (s.icache j).dev ∧
      (t.icache j).inum = (s.icache j).inum := by
    intro j
    by_cases hj : j = i
    . rw [hj, ht.self]
      exact ⟨href, hdev, hinum⟩
    . rw [ht.other j hj]
      exact ⟨rfl, rfl, rfl⟩
  have hslot : ∀ j x', y = .on j x' → j = i := by
    rintro j x' heq
    rcases hy with ⟨hout, -⟩ | ⟨x'', hon, -⟩
    . rw [heq] at hout
      cases hout
    . rw [heq] at hon
      cases hon
      rfl
  -- Nobody else has the lock.
  have halone : ∀ q, q ≠ p → (s.icache i).lock ≠ some q := by
    intro q hq hlock
    rcases hx with hheld | hnone
    . rw [(h.held p i x hp hheld).1] at hlock
      exact hq (Option.some.inj hlock).symm
    . rw [hnone] at hlock
      cases hlock
  constructor
  . refine h.counted.goto (fun j => ?_) ht.place (fun q _ j x' hq hin => ?_) fun j x' heq hin => ?_
    . rw [(hkeys j).1, ht.refs, hp]
      rcases hy with ⟨hout, hin⟩ | ⟨x', hon, hin⟩
      . rw [hout]
        dsimp only [puts]
        rw [hin, if_neg (by simp)]
      . rw [hon]
        dsimp only [puts]
        rw [hin]
    . rw [ht.refs]
      exact h.counted.used q j x' hq hin
    . rw [ht.refs]
      rcases hy with ⟨hout, -⟩ | ⟨x'', hon, hsame⟩
      . rw [heq] at hout
        cases hout
      . rw [heq] at hon
        cases hon
        exact h.counted.used p _ x hp (hsame ▸ hin)
  . intro dev inum
    rw [ht.disk]
    split
    . exact hd
    . exact h.mapped dev inum
  . intro j k
    rw [(hkeys j).1, (hkeys k).1, (hkeys j).2.1, (hkeys k).2.1, (hkeys j).2.2, (hkeys k).2.2]
    exact h.unique j k
  . intro q j x' hq hheld'
    rw [ht.place, Function.update_apply] at hq
    split at hq
    . next heq =>
      have hj := hslot j x' hq
      subst hj heq
      rw [ht.self, hself]
      exact hheld x' hq hheld'
    . next hne =>
      have hold := h.held q j x' hq hheld'
      have hj : j ≠ i := by
        rintro rfl
        exact halone q hne hold.1
      rw [ht.other j hj, ht.dinode_other h hpos (h.counted.pos hq) hj]
      exact hold
  . intro j hj hlock
    rw [(hkeys j).1] at hj
    by_cases heq : j = i
    . subst heq
      rw [ht.self] at hlock ⊢
      rw [hself]
      refine (hfree fun x' hon => ?_).2
      by_contra hheld'
      rw [(hheld x' hon (by simpa using hheld')).1] at hlock
      cases hlock
    . rw [ht.other j heq] at hlock ⊢
      rw [ht.dinode_other h hpos hj heq]
      exact h.free j hj hlock
  . intro q j hlock
    by_cases heq : j = i
    . subst heq
      rw [ht.self] at hlock
      by_cases hon : ∃ x', y = .on j x' ∧ x'.held = true
      . obtain ⟨x', hon, hheld'⟩ := hon
        rw [(hheld x' hon hheld').1] at hlock
        cases hlock
        exact ⟨x', by rw [ht.place, Function.update_self, hon], hheld'⟩
      . have hnone := (hfree fun x' hx' => by simpa using fun hheld' => hon ⟨x', hx', hheld'⟩).1
        rw [hnone] at hlock
        cases hlock
    . rw [ht.other j heq] at hlock
      obtain ⟨x', hq, hheld'⟩ := h.lock q j hlock
      have hne : q ≠ p := by
        rintro rfl
        rw [hp] at hq
        cases hq
        exact heq rfl
      exact ⟨x', by rw [ht.place, Function.update_of_ne hne, hq], hheld'⟩

-- Only reference counts change, and who is outside of the locked sections.
omit [DecidableEq ι] in
theorem Inv.rest (h : Inv s) (hc : Counted t)
    (hicache : ∀ j, ∃ r, t.icache j = { s.icache j with ref := r } ∧ (0 < r → 0 < (s.icache j).ref))
    (hdisk : t.disk = s.disk)
    (hplace : ∀ q j x, x.held = true → (t.place q = .on j x ↔ s.place q = .on j x))
    : Inv t := by
  have hdinode : ∀ j, t.dinode j = s.dinode j := by
    intro j
    obtain ⟨r, hj, -⟩ := hicache j
    unfold State.dinode
    rw [hdisk, hj]
  constructor
  . exact hc
  . rw [hdisk]
    exact h.mapped
  . intro i j hi hj hdev hinum
    obtain ⟨r, hri, hposi⟩ := hicache i
    obtain ⟨r', hrj, hposj⟩ := hicache j
    rw [hri] at hi hdev hinum
    rw [hrj] at hj hdev hinum
    exact h.unique i j (hposi hi) (hposj hj) hdev hinum
  . intro q j x hq hx
    obtain ⟨r, hj, -⟩ := hicache j
    obtain ⟨hlock, hgood⟩ := h.held q j x ((hplace q j x hx).mp hq) hx
    rw [hdinode, hj]
    exact ⟨hlock, (Good.ref r).mpr hgood⟩
  . intro j hpos hlock
    obtain ⟨r, hj, hposj⟩ := hicache j
    rw [hj] at hpos hlock ⊢
    rw [hdinode]
    exact h.free j (hposj hpos) hlock
  . intro q j hlock
    obtain ⟨r, hj, -⟩ := hicache j
    rw [hj] at hlock
    obtain ⟨x, hq, hx⟩ := h.lock q j hlock
    exact ⟨x, (hplace q j x hx).mpr hq, hx⟩

-- `ialloc` takes an inode that has no type.
omit [DecidableEq ι] in
theorem Inv.setDisk (h : Inv s) (hfree : (s.disk dev inum).type = 0) (hd : Mapped d) : Inv (s.setDisk dev inum d) := by
  have hdinode : ∀ j, (s.setDisk dev inum d).dinode j = s.dinode j ∨ (s.dinode j).type = 0 := by
    intro j
    unfold State.dinode
    rw [setDisk_disk]
    split
    . next heq =>
      right
      have hdev : (s.icache j).dev = dev := heq.1
      have hinum : (s.icache j).inum = inum := heq.2
      rw [hdev, hinum, hfree]
    . exact .inl rfl
  constructor
  . exact ⟨h.counted.ref, h.counted.used⟩
  . intro dev' inum'
    rw [setDisk_disk]
    split
    . exact hd
    . exact h.mapped dev' inum'
  . exact h.unique
  . intro q j x hq hx
    obtain ⟨hlock, hgood⟩ := h.held q j x hq hx
    refine ⟨hlock, ?_⟩
    rcases hdinode j with hsame | hzero
    . rw [hsame]
      exact hgood
    . exact hgood.recycle hzero _
  . intro j hpos hlock
    have hcoherent := h.free j hpos hlock
    rcases hdinode j with hsame | hzero
    . rw [hsame]
      exact hcoherent
    . exact hcoherent.recycle hzero _
  . exact h.lock

-- What `iget` finds has the inode, and what it takes is not referenced while no entry has the inode.
omit [Fintype ι] [DecidableEq ι] in
theorem igetLoop_spec (icache : Slot → Inode ι) (dev inum : Nat) (l : List Slot) (empty : Option Slot)
    (hempty : ∀ i, empty = some i → (icache i).ref = 0)
    : (∃ i, igetLoop icache dev inum l empty = .inl i ∧ 0 < (icache i).ref) ∨
      ∃ o, igetLoop icache dev inum l empty = .inr o ∧ (∀ i, o = some i → (icache i).ref = 0) ∧
        ∀ j ∈ l, 0 < (icache j).ref → ¬((icache j).dev = dev ∧ (icache j).inum = inum) := by
  induction l generalizing empty with
  | nil => exact .inr ⟨empty, rfl, hempty, fun j hj => absurd hj List.not_mem_nil⟩
  | cons i l ih =>
    unfold igetLoop
    split
    . next hhit => exact .inl ⟨i, rfl, hhit.1⟩
    . next hmiss =>
      have hempty' : ∀ j, (if empty = none ∧ (icache i).ref = 0 then some i else empty) = some j →
          (icache j).ref = 0 := by
        intro j hj
        split at hj
        . next hi =>
          cases hj
          exact hi.2
        . exact hempty j hj
      rcases ih _ hempty' with hhit | ⟨o, ho, href, hnone⟩
      . exact .inl hhit
      . refine .inr ⟨o, ho, href, fun j hj hpos hkey => ?_⟩
        rcases List.mem_cons.mp hj with rfl | hj
        . exact hmiss ⟨hpos, hkey⟩
        . exact hnone j hj hpos hkey

omit [Fintype ι] [DecidableEq ι] in
theorem iget_spec {icache : Slot → Inode ι} (h : iget icache dev inum = some (i, e))
    : (0 < (icache i).ref ∧ e = { icache i with ref := (icache i).ref + 1 }) ∨
      ((icache i).ref = 0 ∧ e = { icache i with dev := dev, inum := inum, ref := 1, valid := false } ∧
        ∀ j, 0 < (icache j).ref → ¬((icache j).dev = dev ∧ (icache j).inum = inum)) := by
  unfold iget at h
  rcases igetLoop_spec icache dev inum (List.finRange NINODE) none (fun _ hk => (by cases hk)) with
    ⟨k, hloop, hpos⟩ | ⟨o, hloop, hempty, hnone⟩
  . rw [hloop] at h
    cases h
    exact .inl ⟨hpos, rfl⟩
  . rw [hloop] at h
    cases o with
    | none => cases h
    | some k =>
      cases h
      exact .inr ⟨hempty i rfl, rfl, fun j => hnone j (List.mem_finRange j)⟩

-- A recycled entry.
omit [DecidableEq ι] in
theorem Inv.recycle (h : Inv s) (hc : Counted t) (hi : (s.icache i).ref = 0)
    (hself : t.icache i = { s.icache i with dev := dev, inum := inum, ref := 1, valid := false })
    (hother : ∀ j, j ≠ i → t.icache j = s.icache j) (hdisk : t.disk = s.disk)
    (hplace : ∀ q j x, x.held = true → (t.place q = .on j x ↔ s.place q = .on j x))
    (hnone : ∀ j, 0 < (s.icache j).ref → ¬((s.icache j).dev = dev ∧ (s.icache j).inum = inum))
    : Inv t := by
  have hidle : ∀ q x, s.place q ≠ .on i x := by
    intro q x hq
    have := h.counted.pos hq
    omega
  have hdinode : ∀ j, j ≠ i → t.dinode j = s.dinode j := by
    intro j hj
    unfold State.dinode
    rw [hdisk, hother j hj]
  constructor
  . exact hc
  . rw [hdisk]
    exact h.mapped
  . intro j k hj hk hdev hinum
    by_cases hji : j = i
    . by_cases hki : k = i
      . rw [hji, hki]
      . rw [hji, hself, hother k hki] at hdev hinum
        rw [hother k hki] at hk
        exact absurd ⟨hdev.symm, hinum.symm⟩ (hnone k hk)
    . by_cases hki : k = i
      . rw [hki, hself, hother j hji] at hdev hinum
        rw [hother j hji] at hj
        exact absurd ⟨hdev, hinum⟩ (hnone j hj)
      . rw [hother j hji] at hj hdev hinum
        rw [hother k hki] at hk hdev hinum
        exact h.unique j k hj hk hdev hinum
  . intro q j x hq hx
    have hold := (hplace q j x hx).mp hq
    have hj : j ≠ i := by
      rintro rfl
      exact hidle q x hold
    rw [hdinode j hj, hother j hj]
    exact h.held q j x hold hx
  . intro j hpos hlock
    by_cases hj : j = i
    . rw [hj, hself]
      exact fun hvalid => absurd hvalid Bool.false_ne_true
    . rw [hother j hj] at hpos hlock ⊢
      rw [hdinode j hj]
      exact h.free j hpos hlock
  . intro q j hlock
    by_cases hj : j = i
    . rw [hj, hself] at hlock
      obtain ⟨x, hq, -⟩ := h.lock q i hlock
      exact absurd hq (hidle q x)
    . rw [hother j hj] at hlock
      obtain ⟨x, hq, hx⟩ := h.lock q j hlock
      exact ⟨x, (hplace q j x hx).mpr hq, hx⟩

end Xv6.Icache
