import Xv6.Proc.Accounting
import Xv6.Proc.Lemmas.Moves

/-!
How long `trap` lets a process run. The test in front of `yield()` reads `rutime`, which the snapshot
kernel leaves alone from the dispatch of a process to its next state change. So the timer interrupts of a
time slice all see the ticks that the process had run before this slice.
-/

namespace Xv6

namespace State

-- The ticks that `p` had run at its last dispatch.
def ran (s s' : State) (c : Slot → Clock) (r : Slot → Nat) : Slot → Nat := fun p =>
  if (s.ptable p).state ≠ .running ∧ (s'.ptable p).state = .running then (c p).running else r p

def slices (s : State) (e : Event) (s' : State) (h : (Slot → Clock) × (Slot → Nat))
    : (Slot → Clock) × (Slot → Nat) :=
  (clock s e s' h.1, ran s s' h.1 h.2)

-- The timer interrupts since the last dispatch that found `p` running.
def hits (x : State × (Slot → Clock) × (Slot → Nat)) (p : Slot) : Nat :=
  (x.2.1 p).running - x.2.2 p

def odd (s : State) (p : Slot) : Prop :=
  (s.ptable p).pid.toNat % 2 = 1

-- A timer interrupt now has to take the CPU from `p`.
def due (x : State × (Slot → Clock) × (Slot → Nat)) (p : Slot) : Prop :=
  x.1.odd p ∨ 1 ≤ hits x p

instance (s : State) (p : Slot) : Decidable (s.odd p) :=
  inferInstanceAs (Decidable (_ = _))

instance (x : State × (Slot → Clock) × (Slot → Nat)) (p : Slot) : Decidable (due x p) :=
  inferInstanceAs (Decidable (_ ∨ _))

variable {k : Accounting} {s s' : State} {e : Event} {o : Output} {p : Slot}

theorem tmod_two_eq_zero (w : Word) : w.toInt.tmod 2 = 0 ↔ w.toNat % 2 = 0 := by
  rw [← Int.dvd_iff_tmod_eq_zero, BitVec.toInt_eq_toNat_cond]
  split <;> omega

theorem yieldTest_iff
    : yieldTest (s.ptable p) = true ↔
      s.odd p ∨ ((s.ptable p).rutime.toNat % 2 = 0 ∧ (s.ptable p).rutime ≠ 0) := by
  unfold yieldTest odd
  rw [decide_eq_true_iff, tmod_two_eq_zero, tmod_two_eq_zero]
  rw [show ¬ (s.ptable p).pid.toNat % 2 = 0 ↔ (s.ptable p).pid.toNat % 2 = 1 by omega]

-- If the slot runs afterwards, nothing has happened to it that matters here.
def Kept (r r' : Proc) : Prop :=
  r'.state = .running → r.state = .running ∧ r'.pid = r.pid ∧ r'.rutime = r.rutime

namespace Kept

theorem refl (r : Proc) : Kept r r := fun h => ⟨h, rfl, rfl⟩

theorem of_ne {r r' : Proc} (h : r'.state ≠ .running) : Kept r r' := fun h' => absurd h' h

theorem trans {r r' r'' : Proc} (h : Kept r r') (h' : Kept r' r'') : Kept r r'' := by
  intro hr
  obtain ⟨h1, h2, h3⟩ := h' hr
  obtain ⟨i1, i2, i3⟩ := h h1
  exact ⟨i1, h2.trans i2, h3.trans i3⟩

theorem moves {ticks : Word} {r r' : Proc} (h : Moves .snapshot s ticks e p r r')
    (hne : ¬ (e = .schedule ∧ s.cpu = .scan p.val))
    : Kept r r' := by
  induction h with
  | refl => exact .refl r
  | tail _ hmove ih =>
    apply ih.trans
    cases hmove with
    | dispatch he hcpu => exact absurd ⟨he, hcpu⟩ hne
    | wakeup => exact .of_ne (by simp [Proc.wakeup])
    | alloc => exact .of_ne (by simp [Proc.alloc])
    | giveUp => exact .of_ne (by simp)
    | publish => exact .of_ne (by simp)
    | yield => exact .of_ne (by simp [Proc.yield])
    | sleep => exact .of_ne (by simp [Proc.sleep])
    | exit => exact .of_ne (by simp [Proc.exit])
    | reap => exact .of_ne (by simp [Proc.reap])
    | orphan cur =>
      intro hr
      simpa using hr
    | tick | setPc | forkret | fault | kill | setParent => exact fun hr => ⟨hr, rfl, rfl⟩

end Kept

-- A process that runs after a step ran before it, with the same counters, or was dispatched by it.
theorem step_running (hs : s.Wf) (h : s.step .snapshot e = some (s', o))
    : Kept (s.ptable p) (s'.ptable p) ∨
      ((s.ptable p).state = .runnable ∧ e.isTimer = false ∧
        (s'.ptable p).rutime = (s.ptable p).rutime) := by
  by_cases hne : e = .schedule ∧ s.cpu = .scan p.val
  . obtain ⟨rfl, hcpu⟩ := hne
    cases step_cases h with
    | dispatch q hcpu' hq =>
      rw [hcpu, Cpu.scan.injEq, ← Fin.ext_iff] at hcpu'
      subst hcpu'
      exact .inr ⟨hq, rfl, by simp [Proc.dispatch, Accounting.onDispatch]⟩
    | scanStart | scanEnd | scanSkip => exact .inl (.refl _)
    | trapIdle _ _ hh | trapExit _ _ _ hh | trapStay _ _ _ hh => cases hh
    | reap _ _ _ _ _ hscan | waitFail _ _ _ _ hscan | waitSleep _ _ _ _ hscan => cases hscan
  . exact .inl (.moves (step_moves hs h p) hne)

theorem kstep_eq_some (h : s.kstep k e = some (s', o))
    : s.step k e = some (s', o) ∧ ∀ yields, e = .timer yields → yields = s.trapYields k := by
  unfold kstep at h
  split at h
  . next yields =>
    split at h
    . next hy =>
      refine ⟨h, ?_⟩
      intro yields' heq
      rw [← Event.timer.inj heq]
      exact hy
    . simp at h
  . next hne =>
    refine ⟨h, ?_⟩
    intro yields heq
    exact absurd heq (hne yields)

@[simp]
theorem tick_forcedExit : (s.tick k).forcedExit p = s.forcedExit p := by
  simp [forcedExit, Proc.tick]

theorem trapYields_eq (hcpu : s.cpu = .run p) : s.trapYields k = yieldTest ((s.tick k).ptable p) := by
  unfold trapYields
  rw [hcpu]

theorem yieldTest_tick : yieldTest ((s.tick .snapshot).ptable p) = yieldTest (s.ptable p) := by
  unfold yieldTest
  simp [Proc.tick, Accounting.onTick]

theorem timer_cases {yields : Bool} (hs : s.Wf) (hcpu : s.cpu = .run p)
    (h : s.kstep k (.timer yields) = some (s', o))
    : (s.ptable p).pc.intrOn = true ∧
      ((s.forcedExit p = true ∧ (s'.ptable p).state = .running ∧ (s'.ptable p).pc = .exit false) ∨
       (s.forcedExit p = false ∧ yieldTest ((s.tick k).ptable p) = true ∧ (s'.ptable p).state = .runnable) ∨
       (s.forcedExit p = false ∧ yieldTest ((s.tick k).ptable p) = false ∧
        (s'.ptable p).state = .running)) := by
  obtain ⟨hstep, hy⟩ := kstep_eq_some h
  have hy := hy yields rfl
  rw [trapYields_eq hcpu] at hy
  have hrunning := hs.running p hcpu
  generalize he : Event.timer yields = e at hstep
  cases step_cases hstep with
  | trapIdle _ _ hh hidle => simp [hcpu] at hidle
  | trapExit q _ _ hh hcpu' hon hexit =>
    rw [hcpu, Cpu.run.injEq] at hcpu'
    subst hcpu'
    subst he
    cases hh
    rw [tick_forcedExit] at hexit
    refine ⟨hon, .inl ⟨hexit, ?_, ?_⟩⟩
    . simpa [Proc.tick] using hrunning
    . simp
  | trapYield q pc hcpu' hon hexit hrun hpc =>
    rw [hcpu, Cpu.run.injEq] at hcpu'
    subst hcpu'
    rw [tick_forcedExit] at hexit
    rw [Event.timer.injEq] at he
    subst he
    refine ⟨hon, .inr (.inl ⟨hexit, hy.symm, ?_⟩)⟩
    simp [Proc.yield]
  | trapStay q _ _ hh hcpu' hon hexit hstay =>
    rw [hcpu, Cpu.run.injEq] at hcpu'
    subst hcpu'
    subst he
    cases hh
    rw [tick_forcedExit] at hexit
    have hrunning' : ((s.tick k).ptable p).state = .running := by
      simpa [Proc.tick] using hrunning
    refine ⟨hon, .inr (.inr ⟨hexit, ?_, hrunning'⟩)⟩
    rw [← hy]
    by_contra hne
    simp only [Bool.not_eq_false] at hne
    exact hstay (by rw [hne]) hrunning'
  | reap _ _ _ _ _ hscan => subst he; cases hscan
  | waitFail _ _ _ _ hscan => subst he; cases hscan
  | waitSleep _ _ _ _ hscan => subst he; cases hscan
  | _ => simp at he

structure Sliced (x : State × (Slot → Clock) × (Slot → Nat)) : Prop where
  timed : Timed .snapshot (x.1, x.2.1)
  rutime : ∀ p, (x.1.ptable p).state = .running → (x.1.ptable p).rutime = .ofNat 32 (x.2.2 p)
  le : ∀ p, (x.1.ptable p).state = .running → x.2.2 p ≤ (x.2.1 p).running

section

variable {x x' : State × (Slot → Clock) × (Slot → Nat)}

theorem clock_running {c : Slot → Clock} (hp : (s.ptable p).state ≠ .unused)
    (hp' : (s'.ptable p).state ≠ .zombie)
    : (clock s e s' c p).running
        =
      (c p).running + if e.isTimer = true ∧ (s.ptable p).state = .running then 1 else 0 := by
  unfold clock
  simp only [hp, hp', false_and, and_false, ↓reduceIte]
  split
  . next he =>
    cases hst : (s.ptable p).state <;> simp [Clock.tick, he]
  . next he => simp [he]

theorem step_sliced (hx : Sliced x)
    (hstep : Machine.watch (kstep .snapshot) slices x e = some (x', o))
    : Sliced x' := by
  obtain ⟨hk, hhist⟩ := Machine.watch_eq_some hstep
  have hs := (kstep_eq_some hk).1
  have hwf : x.1.Wf := hx.timed.wf
  have htimed : Timed .snapshot (x'.1, x'.2.1) := by
    rw [hhist]
    exact step_timed hx.timed (Machine.watch_of_step clock x.2.1 hs)
  have hran : ∀ p, (x'.1.ptable p).state = .running →
      (x'.1.ptable p).rutime = .ofNat 32 (x'.2.2 p) ∧ x'.2.2 p ≤ (x'.2.1 p).running := by
    intro p hp'
    rw [hhist]
    unfold slices ran
    dsimp only
    rcases step_running (p := p) hwf hs with hkept | ⟨hp, htimer, hru⟩
    . obtain ⟨hp, -, hru⟩ := hkept hp'
      rw [clock_running (by simp [hp]) (by simp [hp'])]
      have := hx.le p hp
      simp only [hp, ne_eq, not_true_eq_false, false_and, ↓reduceIte]
      refine ⟨hru.trans (hx.rutime p hp), ?_⟩
      omega
    . rw [clock_running (by simp [hp]) (by simp [hp'])]
      simp only [hp, hp', ne_eq, reduceCtorEq, not_false_eq_true, and_self, ↓reduceIte]
      refine ⟨?_, by omega⟩
      have := (hx.timed.counted p).run (by simp [hp])
      rw [hru]
      simpa [CountedRun, hp] using this
  exact ⟨htimed, fun p hp => (hran p hp).1, fun p hp => (hran p hp).2⟩

theorem boot_sliced : Sliced (boot .snapshot, fun _ => .zero, fun _ => 0) := by
  refine ⟨boot_timed, ?_, fun _ _ => by simp⟩
  intro p hp
  have := boot_wf.current p hp
  simp [boot_cpu] at this

theorem yieldTest_ran (hx : Sliced x) (hcpu : x.1.cpu = .run p)
    : yieldTest (x.1.ptable p) = true ↔
      x.1.odd p ∨ (x.2.2 p % 2 = 0 ∧ x.2.2 p % 2 ^ 32 ≠ 0) := by
  have hru := hx.rutime p (hx.timed.wf.running p hcpu)
  rw [yieldTest_iff, hru, ne_eq, ← BitVec.toNat_inj]
  simp only [BitVec.toNat_ofNat, BitVec.ofNat_eq_ofNat, Nat.zero_mod]
  rw [show x.2.2 p % 2 ^ 32 % 2 = x.2.2 p % 2 by omega]

theorem Wf.cpu_eq (hs : s.Wf) (h : s.step k e = some (s', o)) (hp : (s.ptable p).state = .running)
    : s.cpu = .run p := by
  cases hs.current p hp with
  | inl hcpu => exact hcpu
  | inr hcpu => cases step_cases h <;> simp_all

-- Interrupts are off in an `exit` that `trap` has forced, so it goes on to its end.
theorem step_exiting (hs : s.Wf) (h : s.step k e = some (s', o)) (hp : (s.ptable p).state = .running)
    (hpc : (s.ptable p).pc = .exit false) (hp' : (s'.ptable p).state = .running)
    : (s'.ptable p).pc = .exit false := by
  have hcpu := hs.cpu_eq h hp
  cases step_cases h with
  | wakeup q chan => simpa using hpc
  | exitInit => exact hpc
  | sleep q chan hcpu' =>
    rw [hcpu, Cpu.run.injEq] at hcpu'
    simp [hcpu', Proc.sleep] at hp'
  | exit q intr hcpu' =>
    rw [hcpu, Cpu.run.injEq] at hcpu'
    rw [exit_ptable] at hp'
    simp [hcpu', Proc.exit] at hp'
  | reap _ _ _ _ hcpu' hscan => cases hscan <;> simp_all
  | waitFail _ _ _ hcpu' hscan => cases hscan <;> simp_all
  | waitSleep _ _ _ hcpu' hscan => cases hscan <;> simp_all
  | trapExit _ _ _ _ hcpu' hon => simp_all [Pc.intrOn]
  | trapYield _ _ hcpu' hon => simp_all [Pc.intrOn]
  | trapStay _ _ _ _ hcpu' hon => simp_all [Pc.intrOn]
  | _ => simp_all

def sliceBound (s : State) (p : Slot) : Nat :=
  if s.odd p then 1 else 2

theorem hits_cases (hx : Sliced x)
    (hstep : Machine.watch (kstep .snapshot) slices x e = some (x', o))
    (hp : (x'.1.ptable p).state = .running)
    : ((x.1.ptable p).state = .running ∧ x'.1.sliceBound p = x.1.sliceBound p ∧
        hits x' p = hits x p + if e.isTimer then 1 else 0) ∨ hits x' p = 0 := by
  obtain ⟨hk, hhist⟩ := Machine.watch_eq_some hstep
  have hwf : x.1.Wf := hx.timed.wf
  rcases step_running (p := p) hwf (kstep_eq_some hk).1 with hkept | ⟨hp0, htimer, hru⟩
  . left
    obtain ⟨hp0, hpid, -⟩ := hkept hp
    refine ⟨hp0, if_congr (by simp [odd, hpid]) rfl rfl, ?_⟩
    have := hx.le p hp0
    unfold hits
    rw [hhist]
    simp only [slices, ran, hp0, ne_eq, not_true_eq_false, false_and, ↓reduceIte]
    rw [clock_running (by simp [hp0]) (by simp [hp])]
    simp only [hp0, and_true]
    omega
  . right
    unfold hits
    rw [hhist]
    simp only [slices, ran, hp0, hp, ne_eq, reduceCtorEq, not_false_eq_true, and_self, ↓reduceIte]
    rw [clock_running (by simp [hp0]) (by simp [hp])]
    simp [htimer]

-- What `trap` owes at a timer interrupt: the CPU changes hands when it is due.
def Preempts (x : State × (Slot → Clock) × (Slot → Nat)) (e : Event)
    (x' : State × (Slot → Clock) × (Slot → Nat)) : Prop :=
  ∀ p yields, e = .timer yields → (x.1.ptable p).state = .running → due x p →
    (x'.1.ptable p).state = .runnable ∨
      (x.1.forcedExit p = true ∧ (x'.1.ptable p).pc = .exit false)

structure Bounded (x : State × (Slot → Clock) × (Slot → Nat)) : Prop where
  sliced : Sliced x
  hits : ∀ p, (x.1.ptable p).state = .running →
    hits x p + 1 ≤ x.1.sliceBound p ∨ ((x.1.ptable p).pc = .exit false ∧ hits x p ≤ x.1.sliceBound p)

theorem one_le_sliceBound : 1 ≤ s.sliceBound p := by
  unfold sliceBound
  split <;> omega

theorem step_bounded (hx : Bounded x)
    (hstep : Machine.watch (kstep .snapshot) slices x e = some (x', o)) (hpre : Preempts x e x')
    : Bounded x' := by
  obtain ⟨hk, -⟩ := Machine.watch_eq_some hstep
  have hs := (kstep_eq_some hk).1
  have hwf := hx.sliced.timed.wf
  refine ⟨step_sliced hx.sliced hstep, ?_⟩
  intro p hp'
  rcases hits_cases hx.sliced hstep hp' with ⟨hp, hbound, hhits⟩ | hhits
  . have hcpu := hwf.cpu_eq hs hp
    rw [hbound, hhits]
    cases e with
    | timer yields =>
      have hon := (timer_cases hwf hcpu hk).1
      have hroom : State.hits x p + 1 ≤ x.1.sliceBound p := by
        rcases hx.hits p hp with h | ⟨hpc, -⟩
        . exact h
        . simp [hpc, Pc.intrOn] at hon
      by_cases hdue : due x p
      . rcases hpre p yields rfl hp hdue with h | ⟨-, h⟩
        . simp [hp'] at h
        . exact .inr ⟨h, by simpa [Event.isTimer] using hroom⟩
      . left
        simp only [due, not_or] at hdue
        simp only [Event.isTimer, ↓reduceIte, sliceBound, hdue.1]
        omega
    | _ =>
      simp only [Event.isTimer, Bool.false_eq_true, ↓reduceIte, Nat.add_zero]
      rcases hx.hits p hp with h | ⟨hpc, h⟩
      . exact .inl h
      . exact .inr ⟨step_exiting hwf hs hp hpc hp', h⟩
  . left
    rw [hhits]
    exact one_le_sliceBound

theorem boot_bounded : Bounded (boot .snapshot, fun _ => .zero, fun _ => 0) := by
  refine ⟨boot_sliced, ?_⟩
  intro p hp
  exact .inl one_le_sliceBound

-- A due timer interrupt finds a process whose ticks before its time slice let it pass the test.
def Ready (x : State × (Slot → Clock) × (Slot → Nat)) (e : Event) : Prop :=
  ∀ p yields, e = .timer yields → (x.1.ptable p).state = .running → due x p →
    x.1.forcedExit p = false → x.1.odd p ∨ (x.2.2 p % 2 = 0 ∧ x.2.2 p % 2 ^ 32 ≠ 0)

theorem preempts_iff_ready (hx : Sliced x)
    (hstep : Machine.watch (kstep .snapshot) slices x e = some (x', o))
    : Preempts x e x' ↔ Ready x e := by
  obtain ⟨hk, -⟩ := Machine.watch_eq_some hstep
  have hwf := hx.timed.wf
  unfold Preempts Ready
  apply forall_congr'
  intro p
  apply forall_congr'
  intro yields
  apply forall_congr'
  intro he
  apply forall_congr'
  intro hp
  apply forall_congr'
  intro hdue
  subst he
  have hcpu := hwf.cpu_eq (kstep_eq_some hk).1 hp
  have hcases := (timer_cases hwf hcpu hk).2
  rw [yieldTest_tick] at hcases
  rw [← yieldTest_ran hx hcpu]
  rcases hcases with ⟨h1, h2, h3⟩ | ⟨h1, h2, h3⟩ | ⟨h1, h2, h3⟩
  . simp [h1, h2, h3]
  . simp [h1, h2, h3]
  . simp [h1, h2, h3]

/--
In every run, `trap` takes the CPU from every process in time exactly if every due timer interrupt finds
a process that has an odd pid or that had run a positive even number of ticks before this time slice.
-/
theorem preempts_in_time_iff_ready (es : List Event)
    : Machine.Along (Machine.watch (kstep .snapshot) slices)
        (fun x e _ x' => Preempts x e x' ∧
          ∀ p, (x'.1.ptable p).state = .running → hits x' p ≤ x'.1.sliceBound p)
        (boot .snapshot, fun _ => .zero, fun _ => 0) es
      ↔
      Machine.Along (Machine.watch (kstep .snapshot) slices) (fun x e _ _ => Ready x e)
        (boot .snapshot, fun _ => .zero, fun _ => 0) es := by
  constructor
  . apply Machine.along_of_invariant _ boot_sliced
    intro x e o x' hx hstep h
    exact ⟨(preempts_iff_ready hx hstep).mp h.1, step_sliced hx hstep⟩
  . apply Machine.along_of_invariant _ boot_bounded
    intro x e o x' hx hstep h
    have hpre := (preempts_iff_ready hx.sliced hstep).mpr h
    have hx' := step_bounded hx hstep hpre
    refine ⟨⟨hpre, ?_⟩, hx'⟩
    intro p hp
    rcases hx'.hits p hp with h | h
    . omega
    . exact h.2

instance (x : State × (Slot → Clock) × (Slot → Nat)) (e : Event)
    (x' : State × (Slot → Clock) × (Slot → Nat)) : Decidable (Preempts x e x') :=
  inferInstanceAs (Decidable (∀ _ _, _))

-- The child of `init` has never run before and keeps the CPU through three timer interrupts.
theorem even_pid_runs_on
    : ¬ Machine.Along (Machine.watch (kstep .snapshot) slices)
        (fun x e _ x' => Preempts x e x' ∧
          ∀ p, (x'.1.ptable p).state = .running → hits x' p ≤ x'.1.sliceBound p)
        (boot .snapshot, fun _ => .zero, fun _ => 0)
        [.schedule, .schedule, .done, .ret, .syscall .fork, .forkNext true, .forkNext true,
          .forkNext true, .ret, .timer true, .schedule, .timer false, .timer false, .timer false] := by
  decide +kernel

end

end State

end Xv6
