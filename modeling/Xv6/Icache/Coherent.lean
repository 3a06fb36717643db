import Xv6.Icache.Invariant

/-!
The cache agrees with the disk whenever an inode is not locked, and an entry that is referenced keeps its inode.
-/

namespace Xv6.Icache

open Fs Crowd

variable {ι : Type} [Fintype ι] [DecidableEq ι] {s t : State ι} {e : Inode ι} {d : Dinode} {x : Phase} {y : Place}
  {p : ι} {i j : Slot} {k n ninodes dev inum : Nat}

omit [Fintype ι] in
theorem touched_run (s : State ι) (p : ι) (y : Place) (hdev : e.dev = (s.icache i).dev)
    (hinum : e.inum = (s.icache i).inum)
    : Touched s p i e d y (((s.setEntry i e).setDisk e.dev e.inum d).goto p y) where
  self := (setEntry_icache s i i e).trans (if_pos rfl)
  other j hj := (setEntry_icache s i j e).trans (if_neg hj)
  disk dev inum := by
    rw [← hdev, ← hinum]
    exact setDisk_disk (s.setEntry i e) e.dev e.inum dev inum d
  refs := rfl
  place := rfl

omit [Fintype ι] in
theorem touched_entry (s : State ι) (p : ι) (i : Slot) (e : Inode ι) (y : Place)
    : Touched s p i e (s.dinode i) y ((s.setEntry i e).goto p y) where
  self := (setEntry_icache s i i e).trans (if_pos rfl)
  other j hj := (setEntry_icache s i j e).trans (if_neg hj)
  disk dev inum := by
    split
    . next heq =>
      rw [heq.1, heq.2]
      rfl
    . rfl
  refs := rfl
  place := rfl

omit [Fintype ι] in
theorem touched_goto (s : State ι) (p : ι) (i : Slot) (y : Place)
    : Touched s p i (s.icache i) (s.dinode i) y (s.goto p y) where
  self := rfl
  other _ _ := rfl
  disk dev inum := by
    split
    . next heq =>
      rw [heq.1, heq.2]
      rfl
    . rfl
  refs := rfl
  place := rfl

-- Outside of the locked sections.
def Place.isIdle : Place → Bool
  | .on _ x => !x.held
  | _ => true

omit [Fintype ι] in
theorem goto_held (hs : (s.place p).isIdle = true) (hy : y.isIdle = true) (q : ι) (j : Slot) (x : Phase)
    (hx : x.held = true)
    : (s.goto p y).place q = .on j x ↔ s.place q = .on j x := by
  rw [goto_place]
  split
  . next heq =>
    rw [heq]
    constructor
    . rintro rfl
      dsimp only [Place.isIdle] at hy
      rw [hx] at hy
      cases hy
    . intro hon
      rw [hon] at hs
      dsimp only [Place.isIdle] at hs
      rw [hx] at hs
      cases hs
  . rfl

theorem puts_on (i j : Slot) (x : Phase) : puts i (.on j x) = if j = i ∧ x.inIput = true then 1 else 0 := rfl

omit [DecidableEq ι] in
theorem total_uses_pos (hp : s.place p = .on i x) (hx : x.inIput = false) : 0 < total (uses i) s.place := by
  have hle := le_total (uses i) s.place p
  rw [hp] at hle
  dsimp only [uses] at hle
  rw [if_pos ⟨rfl, hx⟩] at hle
  omega

-- A call that goes on without an inode, or waits for one.
theorem Inv.goto (h : Inv s) (hs : (s.place p).isIdle = true) (hy : y.isIdle = true)
    (hputs : ∀ i, puts i (s.place p) = puts i y) (hused : ∀ i x, y = .on i x → x.inIput = false → 0 < s.refs i)
    : Inv (s.goto p y) := by
  refine h.rest ?_ (fun j => ⟨(s.icache j).ref, rfl, id⟩) rfl fun q j x hx => goto_held hs hy q j x hx
  refine h.counted.goto (fun j => ?_) rfl (fun q _ => h.counted.used q) hused
  rw [hputs]
  rfl

omit [DecidableEq ι] in
theorem Inv.idup (h : Inv s) (hi : 0 < s.refs i)
    : Inv ((s.setEntry i { s.icache i with ref := (s.icache i).ref + 1 }).setRefs i (s.refs i + 1)) := by
  have hicache : ∀ j, ((s.setEntry i { s.icache i with ref := (s.icache i).ref + 1 }).setRefs i (s.refs i + 1)).icache j =
      if j = i then { s.icache i with ref := (s.icache i).ref + 1 } else s.icache j := fun j => setEntry_icache s i j _
  have hrefs : ∀ j, ((s.setEntry i { s.icache i with ref := (s.icache i).ref + 1 }).setRefs i (s.refs i + 1)).refs j =
      if j = i then s.refs i + 1 else s.refs j := fun j => setRefs_refs s i j _
  have hpos : 0 < (s.icache i).ref := by
    rw [h.counted.ref i]
    omega
  refine h.rest ⟨fun j => ?_, fun q j x hq hx => ?_⟩ (fun j => ?_) rfl fun _ _ _ _ => Iff.rfl
  . rw [hicache, hrefs]
    have href := h.counted.ref j
    split
    . next heq =>
      subst heq
      change (s.icache j).ref + 1 = s.refs j + 1 + total (puts j) s.place
      omega
    . exact href
  . have hused := h.counted.used q j x hq hx
    rw [hrefs]
    split
    . omega
    . exact hused
  . rw [hicache]
    split
    . next heq => exact ⟨_, by rw [heq], fun _ => heq ▸ hpos⟩
    . exact ⟨_, rfl, id⟩

theorem Inv.iput (h : Inv s) (hp : s.place p = .out) (hi : 0 < s.refs i)
    (hlast : 1 < s.refs i ∨ total (uses i) s.place = 0)
    : Inv ((s.setRefs i (s.refs i - 1)).goto p (.on i .iput)) := by
  have hrefs : ∀ j, ((s.setRefs i (s.refs i - 1)).goto p (.on i .iput)).refs j =
      if j = i then s.refs i - 1 else s.refs j := fun j => setRefs_refs s i j _
  have hout : ((s.setRefs i (s.refs i - 1)).place p).isIdle = true := by
    change (s.place p).isIdle = true
    rw [hp]
    rfl
  refine h.rest ?_ (fun j => ⟨(s.icache j).ref, rfl, id⟩) rfl fun q j x hx => goto_held hout rfl q j x hx
  refine h.counted.goto (fun j => ?_) rfl (fun q _ j x hq hx => ?_) fun j x hon hx => ?_
  . rw [hrefs, hp, puts_on]
    dsimp only [puts]
    by_cases hj : j = i
    . subst hj
      rw [if_pos rfl, if_pos ⟨rfl, rfl⟩]
      change (s.icache j).ref + 0 + s.refs j = (s.icache j).ref + 1 + (s.refs j - 1)
      omega
    . rw [if_neg hj, if_neg fun h => hj h.1.symm]
      rfl
  . have hused := h.counted.used q j x hq hx
    rw [hrefs]
    split
    . next heq =>
      subst heq
      have := total_uses_pos hq hx
      omega
    . exact hused
  . cases hon
    cases hx

theorem Inv.drop (h : Inv s) (hp : s.place p = .on i .drop)
    : Inv ((s.setEntry i { s.icache i with ref := (s.icache i).ref - 1 }).goto p .out) := by
  have hicache : ∀ j, ((s.setEntry i { s.icache i with ref := (s.icache i).ref - 1 }).goto p .out).icache j =
      if j = i then { s.icache i with ref := (s.icache i).ref - 1 } else s.icache j := fun j => setEntry_icache s i j _
  have hpos := h.counted.pos hp
  have hout : ((s.setEntry i { s.icache i with ref := (s.icache i).ref - 1 }).place p).isIdle = true := by
    change (s.place p).isIdle = true
    rw [hp]
    rfl
  refine h.rest ?_ (fun j => ?_) rfl fun q j x hx => goto_held hout rfl q j x hx
  . refine h.counted.goto (fun j => ?_) rfl (fun q _ => h.counted.used q) fun _ _ hon => (by cases hon)
    rw [hicache, hp, puts_on]
    dsimp only [puts]
    by_cases hj : j = i
    . subst hj
      rw [if_pos rfl, if_pos ⟨rfl, rfl⟩]
      change (s.icache j).ref - 1 + 1 + s.refs j = (s.icache j).ref + 0 + s.refs j
      omega
    . rw [if_neg hj, if_neg fun h => hj h.1.symm]
      rfl
  . rw [hicache]
    split
    . next heq => exact ⟨_, by rw [heq], fun _ => heq ▸ hpos⟩
    . exact ⟨_, rfl, id⟩

theorem Inv.iget (h : Inv s) (hp : s.place p = .iget dev inum) (higet : iget s.icache dev inum = some (i, e))
    : Inv (((s.setEntry i e).setRefs i (s.refs i + 1)).goto p .out) := by
  have hicache : ∀ j, (((s.setEntry i e).setRefs i (s.refs i + 1)).goto p .out).icache j =
      if j = i then e else s.icache j := fun j => setEntry_icache s i j _
  have hrefs : ∀ j, (((s.setEntry i e).setRefs i (s.refs i + 1)).goto p .out).refs j =
      if j = i then s.refs i + 1 else s.refs j := fun j => setRefs_refs s i j _
  have hidle : (((s.setEntry i e).setRefs i (s.refs i + 1)).place p).isIdle = true := by
    change (s.place p).isIdle = true
    rw [hp]
    rfl
  have hspec := iget_spec higet
  have href : e.ref = (s.icache i).ref + 1 := by
    rcases hspec with ⟨-, rfl⟩ | ⟨hzero, rfl, -⟩
    . rfl
    . rw [hzero]
  have hcounted : Counted (((s.setEntry i e).setRefs i (s.refs i + 1)).goto p .out) := by
    refine h.counted.goto (fun j => ?_) rfl (fun q _ j x hq hx => ?_) fun _ _ hon => (by cases hon)
    . rw [hicache, hrefs, hp]
      split
      . next heq =>
        rw [href, heq]
        change (s.icache i).ref + 1 + 0 + s.refs i = (s.icache i).ref + 0 + (s.refs i + 1)
        omega
      . rfl
    . have hused := h.counted.used q j x hq hx
      rw [hrefs]
      split
      . omega
      . exact hused
  rcases hspec with ⟨hpos, rfl⟩ | ⟨hzero, rfl, hnone⟩
  . refine h.rest hcounted (fun j => ?_) rfl fun q j x hx => goto_held hidle rfl q j x hx
    rw [hicache]
    split
    . next heq => exact ⟨_, by rw [heq], fun _ => heq ▸ hpos⟩
    . exact ⟨_, rfl, id⟩
  . refine h.recycle hcounted hzero ?_ (fun j hj => ?_) rfl (fun q j x hx => goto_held hidle rfl q j x hx) hnone
    . rw [hicache, if_pos rfl]
    . rw [hicache, if_neg hj]

-- The process `p` has locked the inode and does something with the entry alone.
theorem Inv.use (h : Inv s) (hp : s.place p = .on i .use) (ht : Touched s p i e (s.dinode i) y t)
    (hdev : e.dev = (s.icache i).dev) (hinum : e.inum = (s.icache i).inum) (href : e.ref = (s.icache i).ref)
    (hy : y = .out ∧ e.lock = none ∧ Coherent e (s.dinode i) ∨
      ∃ x, y = .on i x ∧ x.inIput = false ∧ x.held = true ∧ e.lock = some p ∧ Good e (s.dinode i) x)
    : Inv t := by
  refine h.hold hp (.inl rfl) ht hdev hinum href (h.mapped _ _) ?_ ?_ ?_
  . rcases hy with ⟨hout, -⟩ | ⟨x, hon, hin, -⟩
    . exact .inl ⟨hout, rfl⟩
    . exact .inr ⟨x, hon, hin⟩
  . rintro x' hon' -
    rcases hy with ⟨hout, -⟩ | ⟨x, hon, -, -, hgood⟩
    . rw [hout] at hon'
      cases hon'
    . rw [hon] at hon'
      cases hon'
      exact hgood
  . intro hfree
    rcases hy with ⟨-, hnone⟩ | ⟨x, hon, -, hheld, -⟩
    . exact hnone
    . rw [hfree x hon] at hheld
      cases hheld

theorem Inv.run {x' : Phase} {b : Nat} (h : Inv s) (hp : s.place p = .on i x)
    (hrun : run p b (s.icache i) (s.dinode i) x = some (e, d, x'))
    : Inv (((s.setEntry i e).setDisk e.dev e.inum d).goto p (.on i x')) := by
  have hpos := h.counted.pos hp
  have hmoved := run_moved (h.mapped _ _) (h.held p i x hp) (h.free i hpos) hrun
  have hlock : x.held = true ∨ (s.icache i).lock = none := by
    cases x with
    | acquire | iput =>
      right
      dsimp only [Icache.run] at hrun
      split at hrun
      . cases hrun
      . next hnone => exact Option.not_isSome_iff_eq_none.mp hnone
    | drop => cases hrun
    | _ => exact .inl rfl
  refine h.hold hp hlock (touched_run s p _ hmoved.dev hmoved.inum) hmoved.dev hmoved.inum hmoved.ref hmoved.mapped
    (.inr ⟨x', rfl, hmoved.inIput⟩) ?_ fun hfree => hmoved.free (hfree x' rfl)
  rintro x'' heq hheld
  cases heq
  exact hmoved.held hheld

theorem Change.apply_same (ip : Dinode) (c : Change)
    : (c.apply ip).type = ip.type ∧ (c.apply ip).size = ip.size ∧ (c.apply ip).addrs = ip.addrs := by
  have hnlink : ∀ n, ({ ip with nlink := n } : Dinode).type = ip.type ∧
      ({ ip with nlink := n } : Dinode).size = ip.size ∧ ({ ip with nlink := n } : Dinode).addrs = ip.addrs :=
    fun _ => ⟨rfl, rfl, rfl⟩
  cases c with
  | link => exact hnlink ((ip.nlink + 1) % 2 ^ 16)
  | unlink => exact hnlink ((ip.nlink + (2 ^ 16 - 1)) % 2 ^ 16)
  | make major minor => exact ⟨rfl, rfl, rfl⟩

omit [Fintype ι] [DecidableEq ι] in
theorem Change.apply_good {c : Change} {e : Inode ι} (hgood : Good e d .use) (hd : Mapped d)
    : Good { e with ip := c.apply e.ip } d .iupdate := by
  obtain ⟨hvalid, rfl, htype⟩ := hgood
  obtain ⟨htype', hsize, haddrs⟩ := Change.apply_same e.ip c
  refine ⟨hvalid, htype, htype' ▸ htype, ?_⟩
  unfold Mapped MappedTo
  rw [hsize, haddrs]
  exact hd

theorem Inv.step {ev : Event ι} {o : Option Slot} (h : Inv s) (hstep : step ninodes s ev = some (t, o)) : Inv t := by
  cases ev with
  | ialloc p dev type =>
    dsimp only [Icache.step] at hstep
    split at hstep
    . next hp =>
      cases hstep
      exact h.goto (by rw [hp]; rfl) rfl (fun i => by rw [hp]; rfl) fun _ _ hon => (by cases hon)
    . cases hstep
  | iget p dev inum =>
    dsimp only [Icache.step] at hstep
    split at hstep
    . next hp =>
      cases hstep
      exact h.goto (by rw [hp]; rfl) rfl (fun i => by rw [hp]; rfl) fun _ _ hon => (by cases hon)
    . cases hstep
  | idup i =>
    dsimp only [Icache.step] at hstep
    split at hstep
    . next hi =>
      cases hstep
      exact h.idup hi
    . cases hstep
  | ilock p i =>
    dsimp only [Icache.step] at hstep
    split at hstep
    . next hp =>
      cases hstep
      refine h.goto (by rw [hp.1]; rfl) rfl (fun j => ?_) ?_
      . rw [hp.1, puts_on, if_neg (by simp [Phase.inIput])]
        rfl
      . intro j x hon _
        cases hon
        exact hp.2.1
    . cases hstep
  | iunlock p =>
    dsimp only [Icache.step] at hstep
    split at hstep
    . next i hp =>
      split at hstep
      . cases hstep
      . cases hstep
        obtain ⟨-, hgood⟩ := h.held p i .use hp rfl
        exact h.use hp (touched_entry s p i _ .out) rfl rfl rfl (.inl ⟨rfl, rfl, fun _ => hgood.2⟩)
    . cases hstep
  | iput p i =>
    dsimp only [Icache.step] at hstep
    split at hstep
    . next hp =>
      cases hstep
      exact h.iput hp.1 hp.2.1 hp.2.2
    . cases hstep
  | change p c =>
    dsimp only [Icache.step] at hstep
    split at hstep
    . next i hp =>
      cases hstep
      obtain ⟨hlock, hgood⟩ := h.held p i .use hp rfl
      exact h.use hp (touched_entry s p i _ _) rfl rfl rfl
        (.inr ⟨.iupdate, rfl, rfl, rfl, hlock, Change.apply_good hgood (h.mapped _ _)⟩)
    . cases hstep
  | readi p off n =>
    dsimp only [Icache.step] at hstep
    split at hstep
    . next i hp =>
      split at hstep
      . cases hstep
        exact h
      . next hrange =>
        cases hstep
        obtain ⟨hlock, hvalid, heq, htype⟩ := h.held p i .use hp rfl
        refine h.use hp (touched_goto s p i _) rfl rfl rfl (.inr ⟨_, rfl, rfl, rfl, hlock, hvalid, heq, htype, ?_⟩)
        rw [← heq]
        split <;> omega
    . cases hstep
  | writei p off n =>
    dsimp only [Icache.step] at hstep
    split at hstep
    . next i hp =>
      split at hstep
      . cases hstep
        exact h
      . next hrange =>
        cases hstep
        obtain ⟨hlock, hvalid, heq, htype⟩ := h.held p i .use hp rfl
        have hmapped : Mapped (s.icache i).ip := heq ▸ h.mapped _ _
        have hoff : off ≤ (s.dinode i).size := by
          rw [← heq]
          omega
        refine h.use hp (touched_goto s p i _) rfl rfl rfl
          (.inr ⟨_, rfl, rfl, rfl, hlock, hvalid, htype, heq ▸ htype, by rw [heq], fun _ => heq, ?_, fun hlt => by omega⟩)
        rw [Nat.max_eq_right hoff, ← heq]
        exact hmapped
    . cases hstep
  | step p b =>
    dsimp only [Icache.step] at hstep
    split at hstep
    . cases hstep
    . next dev inum type hp =>
      split at hstep
      . cases hstep
      split at hstep
      . next hfree =>
        cases hstep
        have hmapped : Mapped { Dinode.zero with type := type } := fun bn hbn => absurd hbn (Nat.not_lt_zero _)
        have hidle : ((s.setDisk dev inum { Dinode.zero with type := type }).place p).isIdle = true := by
          change (s.place p).isIdle = true
          rw [hp]
          rfl
        refine (h.setDisk hfree hmapped).goto hidle rfl (fun i => ?_) fun _ _ hon => (by cases hon)
        change puts i (s.place p) = _
        rw [hp]
        rfl
      . cases hstep
        exact h.goto (by rw [hp]; rfl) rfl (fun i => by rw [hp]; rfl) fun _ _ hon => (by cases hon)
    . next dev inum hp =>
      split at hstep
      . cases hstep
      . next i e higet =>
        cases hstep
        exact h.iget hp higet
    . next i hp =>
      cases hstep
      exact h.drop hp
    . next i x _ hp =>
      split at hstep
      . cases hstep
      . next e d x' hrun =>
        cases hstep
        exact h.run hp hrun

omit [DecidableEq ι] in
theorem Inv.init {icache : Slot → Inode ι} {disk : Nat → Nat → Dinode} (hdisk : ∀ dev inum, Mapped (disk dev inum))
    : Inv (State.init icache disk) where
  counted := {
    ref := fun i => by
      have hzero : total (puts i) (fun _ : ι => Place.out) = Fintype.card ι * 0 := total_eq_of_forall fun _ => rfl
      rw [Nat.mul_zero] at hzero
      exact hzero.symm.trans (Nat.zero_add _).symm
    used := fun _ _ _ hp => (by cases hp)
  }
  mapped := hdisk
  unique i j hi := absurd hi (Nat.lt_irrefl 0)
  held _ _ _ hp := by cases hp
  free i hi := absurd hi (Nat.lt_irrefl 0)
  lock p i hlock := by cases hlock

-- The entry is still for the same inode.
def Keeps (s t : State ι) (j : Slot) : Prop :=
  (t.icache j).dev = (s.icache j).dev ∧ (t.icache j).inum = (s.icache j).inum

omit [Fintype ι] [DecidableEq ι] in
theorem keeps_setEntry (ht : t.icache = (s.setEntry i e).icache) (hdev : e.dev = (s.icache i).dev)
    (hinum : e.inum = (s.icache i).inum) (j : Slot)
    : Keeps s t j := by
  unfold Keeps
  rw [ht, setEntry_icache]
  split
  . next heq =>
    rw [heq]
    exact ⟨hdev, hinum⟩
  . exact ⟨rfl, rfl⟩

omit [Fintype ι] [DecidableEq ι] in
theorem iget_keeps (ht : t.icache = (s.setEntry i e).icache) (higet : iget s.icache dev inum = some (i, e))
    (hj : 0 < (s.icache j).ref)
    : Keeps s t j := by
  rcases iget_spec higet with ⟨-, rfl⟩ | ⟨hzero, rfl, -⟩
  . exact keeps_setEntry ht rfl rfl j
  . have hne : j ≠ i := by
      rintro rfl
      omega
    unfold Keeps
    rw [ht, setEntry_icache, if_neg hne]
    exact ⟨rfl, rfl⟩

theorem step_keeps {ev : Event ι} {o : Option Slot} (h : Inv s) (hstep : step ninodes s ev = some (t, o))
    (hj : 0 < (s.icache j).ref)
    : Keeps s t j := by
  cases ev with
  | ialloc p dev type =>
    dsimp only [Icache.step] at hstep
    split at hstep
    . cases hstep
      exact ⟨rfl, rfl⟩
    . cases hstep
  | iget p dev inum =>
    dsimp only [Icache.step] at hstep
    split at hstep
    . cases hstep
      exact ⟨rfl, rfl⟩
    . cases hstep
  | idup i =>
    dsimp only [Icache.step] at hstep
    split at hstep
    . cases hstep
      exact keeps_setEntry (i := i) (e := { s.icache i with ref := (s.icache i).ref + 1 }) rfl rfl rfl j
    . cases hstep
  | ilock p i =>
    dsimp only [Icache.step] at hstep
    split at hstep
    . cases hstep
      exact ⟨rfl, rfl⟩
    . cases hstep
  | iunlock p =>
    dsimp only [Icache.step] at hstep
    split at hstep
    . next i hp =>
      split at hstep
      . cases hstep
      . cases hstep
        exact keeps_setEntry (i := i) (e := { s.icache i with lock := none }) rfl rfl rfl j
    . cases hstep
  | iput p i =>
    dsimp only [Icache.step] at hstep
    split at hstep
    . cases hstep
      exact ⟨rfl, rfl⟩
    . cases hstep
  | change p c =>
    dsimp only [Icache.step] at hstep
    split at hstep
    . next i hp =>
      cases hstep
      exact keeps_setEntry (i := i) (e := { s.icache i with ip := c.apply (s.icache i).ip }) rfl rfl rfl j
    . cases hstep
  | readi p off n =>
    dsimp only [Icache.step] at hstep
    split at hstep
    . split at hstep
      . cases hstep
        exact ⟨rfl, rfl⟩
      . cases hstep
        exact ⟨rfl, rfl⟩
    . cases hstep
  | writei p off n =>
    dsimp only [Icache.step] at hstep
    split at hstep
    . split at hstep
      . cases hstep
        exact ⟨rfl, rfl⟩
      . cases hstep
        exact ⟨rfl, rfl⟩
    . cases hstep
  | step p b =>
    dsimp only [Icache.step] at hstep
    split at hstep
    . cases hstep
    . split at hstep
      . cases hstep
      split at hstep
      . cases hstep
        exact ⟨rfl, rfl⟩
      . cases hstep
        exact ⟨rfl, rfl⟩
    . split at hstep
      . cases hstep
      . next i e higet =>
        cases hstep
        exact iget_keeps rfl higet hj
    . next i hp =>
      cases hstep
      exact keeps_setEntry (i := i) (e := { s.icache i with ref := (s.icache i).ref - 1 }) rfl rfl rfl j
    . next i x _ hp =>
      split at hstep
      . cases hstep
      . next e d x' hrun =>
        cases hstep
        have hmoved := run_moved (h.mapped _ _) (h.held p i x hp) (h.free i (h.counted.pos hp)) hrun
        exact keeps_setEntry (i := i) (e := e) rfl hmoved.dev hmoved.inum j

/-- Every inode has at most one entry, which is its own while it is referenced, and what is not locked is on the disk. -/
theorem icache_coherent {icache : Slot → Inode ι} {disk : Nat → Nat → Dinode} {es : List (Event ι)}
    (hdisk : ∀ dev inum, Mapped (disk dev inum))
    (hrun : Machine.run (step ninodes) (State.init icache disk) es = some s)
    : (∀ i j, 0 < (s.icache i).ref → 0 < (s.icache j).ref → (s.icache i).dev = (s.icache j).dev →
        (s.icache i).inum = (s.icache j).inum → i = j) ∧
      (∀ ev t o, step ninodes s ev = some (t, o) → ∀ i, 0 < (s.icache i).ref → Keeps s t i) ∧
      (∀ i, 0 < (s.icache i).ref → (s.icache i).valid = true → (s.icache i).lock = none →
        (s.icache i).ip = s.dinode i) := by
  have h : Inv s := Machine.run_invariant' (fun _ _ _ _ hinv hstep => hinv.step hstep) (Inv.init hdisk) hrun
  refine ⟨h.unique, fun ev t o hstep i hi => step_keeps h hstep hi, fun i hi hvalid hlock => ?_⟩
  exact (h.free i hi hlock hvalid).1

-- Two processes have the same file of 5 bytes. One writes 600 bytes from offset 3 on, the other one waits for the lock,
-- reads what is there and gives up its pointer.
theorem icache_coherent_file
    : ∃ s, Machine.run (step 3) (State.init (fun _ => ⟨0, 0, 0, none, false, Dinode.zero⟩)
        fun _ inum => if inum = 2 then ⟨T_FILE, 0, 0, 1, 5, fun k => if k = 0 then 60 else 0⟩ else Dinode.zero)
        ([.iget false 1 2, .iget true 1 2, .step false 0, .step true 0, .ilock false 0, .ilock true 0, .step false 0,
          .step false 0, .step false 0, .writei false 3 600, .step false 0, .step false 70, .step false 0, .step false 0,
          .iunlock false, .step true 0, .readi true 0 603, .step true 0, .step true 0, .step true 0, .iunlock true,
          .iput true 0, .step true 0, .step true 0, .step true 0, .step true 0] : List (Event Bool)) = some s ∧
      (s.icache 0).ref = 1 ∧ (s.icache 0).ip.size = 603 ∧ (s.icache 0).ip = s.dinode 0 ∧
      ∀ i, 0 < (s.icache i).ref → (s.icache i).dev = 1 → (s.icache i).inum = 2 → i = 0 := by
  refine Exists.imp (fun s hrun => ⟨hrun, ?_⟩) (Option.isSome_iff_exists.mp rfl)
  have hend : ((s.icache 0).ref, (s.icache 0).valid, (s.icache 0).lock, (s.icache 0).dev, (s.icache 0).inum,
      (s.icache 0).ip.size) = (1, true, none, 1, 2, 603) := by
    apply Option.some.inj
    exact (congrArg (Option.map fun s : State Bool => ((s.icache 0).ref, (s.icache 0).valid, (s.icache 0).lock,
      (s.icache 0).dev, (s.icache 0).inum, (s.icache 0).ip.size)) hrun).symm
  simp only [Prod.mk.injEq] at hend
  obtain ⟨href, hvalid, hlock, hdev, hinum, hsize⟩ := hend
  have hmapped : ∀ dev inum : Nat, Mapped (if inum = 2 then ⟨T_FILE, 0, 0, 1, 5, fun k => if k = 0 then 60 else 0⟩
      else Dinode.zero) := by
    intro _ inum bn hbn
    split at hbn
    . next hfile =>
      have : bn * 512 < 5 := hbn
      obtain rfl : bn = 0 := by omega
      rw [if_pos hfile]
      decide
    . exact absurd hbn (Nat.not_lt_zero _)
  have hpos : 0 < (s.icache 0).ref := by omega
  obtain ⟨hunique, -, hdisk⟩ := icache_coherent hmapped hrun
  refine ⟨href, hsize, hdisk 0 hpos hvalid hlock, fun i hi hdev' hinum' => ?_⟩
  exact hunique i 0 hi hpos (hdev'.trans hdev.symm) (hinum'.trans hinum.symm)

end Xv6.Icache
