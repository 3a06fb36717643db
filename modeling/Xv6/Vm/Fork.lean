import Xv6.Vm.Lemmas.Boot

/-!
`fork` and address spaces with holes. `copyuvm` wants every page below `sz` to be there, but `mmap` only moves
`sz`. Apart from that, parent and child see the same bytes, and nothing of each other from then on.
-/

namespace Xv6.Vm

-- What the process reads at `va`, where a page that is missing reads as zero once the handler has mapped it.
def Proc.view (x : Proc) (m : Mem) (va : Nat) : Option UInt8 :=
  if (x.pgdir.pte (va / PGSIZE)).present then
    if (x.pgdir.pte (va / PGSIZE)).user then some (x.byte m va) else none
  else
    some 0

/--
`fork` finds a slot and the memory to get to the first page below `sz` that is missing: a kernel stack, and
the page directory with the copies of all pages before it.
-/
def Holey (s : State) (x : Proc) : Prop :=
  (∃ np, s.procs np = none) ∧ ∃ h, h * PGSIZE < x.sz ∧ (x.pgdir.pte h).present = false ∧
    (∀ w < h, (x.pgdir.pte w).present = true) ∧ 1 + copyCost h ≤ s.mem.free.length

-- The kernel survives and a child sees what its parent sees.
structure ForkOk (s : State) (x : Proc) (o : Output) (s' : State) : Prop where
  returns : ∀ why, o ≠ .stop why
  child : ∀ np child, s.procs np = none → s'.procs np = some child → ∀ va < x.sz,
    child.view s'.mem va = x.view s.mem va ∧ x.view s'.mem va = x.view s.mem va

-- The others go on as if nothing had happened.
def Isolated (s : State) (e : Event) (s' : State) : Prop :=
  ∀ r y, s.procs r = some y → r ≠ e.slot →
    s'.procs r = some y ∧ ∀ va, y.view s'.mem va = y.view s.mem va

section

variable {L : Layout} {s s' : State} {e : Event} {o : Output} {p : Slot} {x y : Proc} {m m' : Mem}

theorem view_congr (hd : y.pgdir.Wf) (h : ∀ p ∈ y.frames, m'.data p = m.data p) (va : Nat)
    : y.view m' va = y.view m va := by
  unfold Proc.view
  split
  . next hpresent =>
    split
    . next huser =>
      have hu : va / PGSIZE < UPAGES := by
        by_contra hkern
        have := hd.kern _ (Nat.not_lt.mp hkern)
        simp [huser] at this
      unfold Proc.byte
      rw [h]
      unfold Proc.frames
      rw [Multiset.mem_add]
      exact .inr (PgDir.addr_mem_frames hu hpresent)
    . rfl
  . rfl

theorem step_isolates (hI : Inv L s) (h : s.step L e = some (s', o)) : Isolated s e s' := by
  intro r y hy hr
  obtain ⟨hproc, hdata⟩ := step_isolated hI h hr hy
  exact ⟨hproc, view_congr (hI.wf r y hy) hdata⟩

-- The parent's pages stay as they are while pages come off the free list.
theorem view_of_xfer {F : Multiset Ppn} (hd : x.pgdir.Wf) (hs : m.Sound (Valid L) x.frames)
    (hx : m.Xfer 0 m' F) (va : Nat)
    : x.view m' va = x.view m va := by
  apply view_congr hd
  intro p hp
  apply hx.data
  rw [zero_add]
  exact hs.notMem_free hp

theorem view_of_copies {d : PgDir} {kstack : Ppn} {m₀ : Mem} {h va : Nat}
    (hcopies : Copies x.pgdir m₀ d m' (Set.Ico 0 h)) (hpresent : ∀ w < h, (x.pgdir.pte w).present = true)
    (hdata : m₀.data = m.data) (hva : va / PGSIZE < h)
    : Proc.view { sz := x.sz, pgdir := d, kstack := kstack, killed := false } m' va = x.view m va := by
  obtain ⟨q, hpte, -, hsame⟩ := hcopies (va / PGSIZE) ⟨Nat.zero_le _, hva⟩
  unfold Proc.view Proc.byte
  dsimp only
  rw [hpte, hpresent _ hva]
  dsimp only
  rw [hsame, hdata]

theorem forkProc_cases {h : Nat} (hd : x.pgdir.Wf) (hs : m.Sound (Valid L) x.frames) (hr : Reach x.pgdir x.sz h)
    : (m.free.length < 1 + copyCost h ∧ ∃ m', forkProc L x m = .ok (none, m')) ∨
      (1 + copyCost h ≤ m.free.length ∧ h * PGSIZE < x.sz ∧ ∃ why, forkProc L x m = .error why) ∨
      (1 + copyCost h ≤ m.free.length ∧ ¬ h * PGSIZE < x.sz ∧
        ∃ child m', forkProc L x m = .ok (some child, m') ∧ ∀ va < x.sz,
          child.view m' va = x.view m va ∧ x.view m' va = x.view m va) := by
  have hsx : m.Sound (Valid L) x.pgdir.frames := by
    apply hs.mono
    unfold Proc.frames
    exact Multiset.le_add_left _ _
  have hforkx : ∀ child m', forkProc L x m = .ok (child, m') → m.Xfer 0 m' (owned child) :=
    fun child m' h => (forkProc_xfer hd hsx h).1
  cases hp : m.kalloc with
  | none =>
    left
    have hempty := Mem.kalloc_eq_none.mp hp
    refine ⟨?_, m, ?_⟩
    . rw [hempty, List.length_nil]
      exact Nat.lt_add_right _ Nat.one_pos
    . unfold forkProc
      rw [hp]
  | some r =>
    obtain ⟨kstack, m1⟩ := r
    have hx := Mem.kalloc_xfer hp
    have hfree := (kalloc_eq_some hp).1
    have hlen : m.free.length = m1.free.length + 1 := by rw [hfree, List.length_cons]
    have hs1' := (hx.frame x.pgdir.frames).sound (by rw [zero_add]; exact hsx)
    have hs1 : m1.Sound (Valid L) x.pgdir.frames := hs1'.mono (Multiset.le_add_left _ _)
    have hkvalid : Valid L kstack := by
      apply hs1'.valid
      rw [Multiset.mem_add, Multiset.mem_add]
      exact .inl (.inl (Multiset.mem_singleton_self kstack))
    rcases copyuvm_cases hd hs1 hr with
      ⟨hcost, m2, heq, -⟩ | ⟨hcost, hsz, msg, heq⟩ | ⟨hcost, hsz, d, m2, heq, -, hx2, hcopies⟩
    . refine .inl ⟨by omega, (m2.memset kstack 1).give kstack, ?_⟩
      unfold forkProc
      rw [hp]
      dsimp only
      rw [heq]
      dsimp only
      rw [Mem.kfree_of_valid hkvalid]
    . refine .inr (.inl ⟨by omega, hsz, .panic msg, ?_⟩)
      unfold forkProc
      rw [hp]
      dsimp only
      rw [heq]
    . have hfork : forkProc L x m
          = .ok (some { sz := x.sz, pgdir := d, kstack := kstack, killed := false }, m2) := by
        unfold forkProc
        rw [hp]
        dsimp only
        rw [heq]
      refine .inr (.inr ⟨by omega, hsz, _, m2, hfork, ?_⟩)
      intro va hva
      refine ⟨?_, view_of_xfer hd hs (hforkx _ _ hfork) va⟩
      apply view_of_copies hcopies hr.present (kalloc_eq_some hp).2
      apply Nat.div_lt_of_lt_mul
      rw [Nat.mul_comm]
      exact Nat.lt_of_lt_of_le hva (Nat.not_lt.mp hsz)

theorem fork_stops_of_holey (hI : Inv L s) (hp : s.procs p = some x) (h : s.fork L x = (s', o))
    (hholey : Holey s x)
    : ∃ why, o = .stop why := by
  obtain ⟨⟨np, hnp⟩, k, hsz, habsent, hpresent, hlen⟩ := hholey
  have hr : Reach x.pgdir x.sz k := ⟨Nat.le_of_lt (lt_npages.mpr hsz), hpresent, .inr habsent⟩
  unfold State.fork at h
  cases halloc : s.allocproc with
  | none =>
    have := findSlot_eq_none halloc np
    simp [hnp] at this
  | some np' =>
    rw [halloc] at h
    dsimp only at h
    rcases forkProc_cases (hI.wf p x hp) (hI.sound_proc hp) hr with
      ⟨hlt, -⟩ | ⟨-, -, why, heq⟩ | ⟨-, hsz', -⟩
    . omega
    . rw [heq] at h
      simp only [State.stop, Prod.mk.injEq] at h
      exact ⟨why, h.2.symm⟩
    . exact absurd hsz hsz'

theorem fork_ok_of_not_holey (hI : Inv L s) (hp : s.procs p = some x) (h : s.fork L x = (s', o))
    (hholey : ¬ Holey s x)
    : ForkOk s x o s' := by
  obtain ⟨k, hr⟩ := exists_reach x.pgdir x.sz
  unfold State.fork at h
  cases halloc : s.allocproc with
  | none =>
    rw [halloc] at h
    simp only [Prod.mk.injEq] at h
    obtain ⟨rfl, rfl⟩ := h
    refine ⟨by simp, ?_⟩
    intro np child hnone hsome
    simp [hnone] at hsome
  | some np' =>
    have hfree : s.procs np' = none := by
      have := findSlot_eq_some halloc
      simpa using this
    rw [halloc] at h
    dsimp only at h
    rcases forkProc_cases (hI.wf p x hp) (hI.sound_proc hp) hr with
      ⟨-, m, heq⟩ | ⟨hlen, hsz, why, heq⟩ | ⟨-, -, child, m, heq, hview⟩
    . rw [heq] at h
      simp only [Prod.mk.injEq] at h
      obtain ⟨rfl, rfl⟩ := h
      refine ⟨by simp, ?_⟩
      intro np child hnone hsome
      simp [hnone] at hsome
    . have hne : (x.pgdir.pte k).present = false := by
        rcases hr.hole with hk | hk
        . rw [← lt_npages] at hsz
          omega
        . exact hk
      exact absurd ⟨⟨np', hfree⟩, k, hsz, hne, hr.present, hlen⟩ hholey
    . rw [heq] at h
      simp only [Prod.mk.injEq] at h
      obtain ⟨rfl, rfl⟩ := h
      refine ⟨by simp, ?_⟩
      intro np child' hnone hsome
      rw [State.set_procs] at hsome
      split at hsome
      . rw [Option.some.injEq] at hsome
        subst hsome
        exact hview
      . simp [hnone] at hsome

theorem fork_step (h : s.step L (.fork p) = some (s', o)) (hp : s.procs p = some x) : s.fork L x = (s', o) := by
  unfold State.step at h
  dsimp only at h
  split at h
  . simp at h
  . rw [hp, Option.bind_some, Option.some.injEq] at h
    exact h

end

/--
In every run from `userinit` on, `fork` does what it should if and only if it does not come to a page below
`sz` that is missing, and no step of one process is seen by another one. A run ends with a `growproc` that shrinks
a process from above `KERNBASE` and frees a page that the kernel uses.
-/
theorem fork_ok_iff_not_holey {L : Layout} {init : List UInt8} {m : Mem} {s : State}
    (hs : m.Sound (Valid L) 0) (hboot : userinit L init m = .ok s) (es : List Event)
    : Machine.Along (State.step L) (fun s e o s' =>
        (∀ p x, e = .fork p → s.procs p = some x → (ForkOk s x o s' ↔ ¬ Holey s x)) ∧ Isolated s e s') s es := by
  apply Machine.along_of_invariant (I := Inv L) _ (userinit_inv hs hboot).1 (Machine.along_true s es)
  intro s e o s' hI h _
  refine ⟨⟨?_, step_isolates hI h⟩, step_inv hI h⟩
  rintro p x rfl hp
  have hfork := fork_step h hp
  constructor
  . intro hok hholey
    obtain ⟨why, hwhy⟩ := fork_stops_of_holey hI hp hfork hholey
    exact hok.returns why hwhy
  . exact fork_ok_of_not_holey hI hp hfork

theorem fork_ok_iff_not_holey_boot
    : ∃ s, userinit Layout.small [] Mem.small = .ok s ∧
        Machine.Along (State.step Layout.small) (fun s e o s' =>
          (∀ p x, e = .fork p → s.procs p = some x → (ForkOk s x o s' ↔ ¬ Holey s x)) ∧ Isolated s e s') s
          [.fork 0, .mmap 0 4096, .fork 0] := by
  obtain ⟨d, kstack, m, hboot, -⟩ := Mem.small_boot
  exact ⟨_, hboot, fork_ok_iff_not_holey Mem.small_sound hboot _⟩

-- `mmap` of one page that nobody touches, then `fork`.
theorem fork_after_mmap_panics
    : ∃ s, userinit Layout.small [] Mem.small = .ok s ∧
        ¬ Machine.Along (State.step Layout.small) (fun s e o s' =>
          ∀ p x, e = .fork p → s.procs p = some x → ForkOk s x o s') s [.mmap 0 4096, .fork 0] := by
  obtain ⟨d, kstack, m, hboot, hb, -, hlen⟩ := Mem.small_boot
  refine ⟨_, hboot, ?_⟩
  intro hall
  have hinv := (userinit_inv Mem.small_sound hboot).1
  generalize hs1 : (bootState d kstack m).set 0
    (some { sz := uint (PGSIZE + 4096), pgdir := d, kstack := kstack, killed := false }) m = s1
  have hstep : (bootState d kstack m).step Layout.small (.mmap 0 4096) = some (s1, .ret (.ofNat 32 PGSIZE)) := by
    rw [← hs1]
    rfl
  have hinv1 := step_inv hinv hstep
  have hp1 : s1.procs 0 = some { sz := uint (PGSIZE + 4096), pgdir := d, kstack := kstack, killed := false } := by
    rw [← hs1, State.set_procs, if_pos rfl]
  have hholey : Holey s1 { sz := uint (PGSIZE + 4096), pgdir := d, kstack := kstack, killed := false } := by
    refine ⟨⟨1, by rw [← hs1]; rfl⟩, 1, ?_, ?_, ?_, ?_⟩
    . show 1 * PGSIZE < uint (PGSIZE + 4096)
      decide
    . have := (hb.pages 1 (by decide)).not.mpr (by decide)
      simpa using this
    . intro w hw
      exact (hb.pages w (Nat.lt_of_lt_of_le hw (by decide))).mpr hw
    . have hcost : copyCost 1 = 67 := by decide
      rw [hcost, ← hs1, State.set_mem]
      omega
  have hfork := fork_stops_of_holey hinv1 hp1 (Prod.eta _).symm hholey
  obtain ⟨why, hwhy⟩ := hfork
  have hstep1 : s1.step Layout.small (.fork 0) = some (s1.fork Layout.small
      { sz := uint (PGSIZE + 4096), pgdir := d, kstack := kstack, killed := false }) := by
    unfold State.step
    dsimp only
    rw [hp1, if_neg (by rw [← hs1]; simp [State.set, bootState]), Option.bind_some]
  rw [Machine.along_cons hstep, Machine.along_cons (hstep1.trans (congrArg some (Prod.eta _).symm))] at hall
  exact (hall.2.1 0 _ rfl hp1).returns why hwhy

end Xv6.Vm
