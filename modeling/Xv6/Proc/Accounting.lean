import Xv6.Proc.Lemmas.Lifecycle

/-!
What `wtime` and `rutime` count. A `Clock` is the history of one slot since `allocproc` claimed it: the
ticks that found it in each state, and the two counts at its exit.
-/

namespace Xv6

structure Clock where
  embryo : Nat
  runnable : Nat
  running : Nat
  exitWait : Nat
  exitRun : Nat

namespace Clock

def zero : Clock where
  embryo := 0
  runnable := 0
  running := 0
  exitWait := 0
  exitRun := 0

def tick (st : ProcState) (c : Clock) : Clock :=
  match st with
  | .embryo => { c with embryo := c.embryo + 1 }
  | .runnable => { c with runnable := c.runnable + 1 }
  | .running => { c with running := c.running + 1 }
  | _ => c

end Clock

namespace State

def clock (s : State) (e : Event) (s' : State) (h : Slot → Clock) : Slot → Clock := fun p =>
  let c := if e.isTimer then (h p).tick (s.ptable p).state else h p
  if (s.ptable p).state = .unused ∧ (s'.ptable p).state = .embryo then
    .zero
  else if (s.ptable p).state ≠ .zombie ∧ (s'.ptable p).state = .zombie then
    { c with exitWait := c.embryo + c.runnable, exitRun := c.running }
  else
    c

end State

def CountedRun (k : Accounting) (ticks : Word) (p : Proc) (c : Clock) : Prop :=
  match k with
  | .snapshot => p.rutime + (if p.state = .running then ticks - p.snapticks else 0) = .ofNat 32 c.running
  | .perTick => p.rutime = .ofNat 32 c.running

def CountedWait (k : Accounting) (ticks : Word) (p : Proc) (c : Clock) : Prop :=
  match k with
  | .snapshot =>
    p.wtime + (if p.state = .embryo ∨ p.state = .runnable then ticks - p.snapticks else 0)
      =
    .ofNat 32 (c.embryo + c.runnable)
  | .perTick => p.wtime = .ofNat 32 c.runnable

structure Counted (k : Accounting) (ticks : Word) (p : Proc) (c : Clock) : Prop where
  run : p.state ≠ .unused → CountedRun k ticks p c
  wait : p.state ≠ .unused → CountedWait k ticks p c

theorem Counted.trans {k : Accounting} {ticks : Word} {p p' : Proc} {c : Clock}
    (h : Counted k ticks p c) (ht : Trans k ticks p p')
    : Counted k ticks p' c := by
  cases ht with
  | keep hs hc =>
    constructor
    . intro hu
      rw [hs] at hu
      have := h.run hu
      cases k <;> simpa [CountedRun, hs, hc] using this
    . intro hu
      rw [hs] at hu
      have := h.wait hu
      cases k <;> simpa [CountedWait, hs, hc] using this
  | giveUp hs => constructor <;> simp
  | reap two hs => constructor <;> simp [Proc.reap]
  | publish hs =>
    have hrun := h.run (by simp [hs])
    have hwait := h.wait (by simp [hs])
    cases k <;> constructor <;> simp_all [CountedRun, CountedWait]
  | dispatch hs =>
    have hrun := h.run (by simp [hs])
    have hwait := h.wait (by simp [hs])
    cases k <;> constructor <;> simp_all [CountedRun, CountedWait, Proc.dispatch, Accounting.onDispatch]
  | yield hs =>
    have hrun := h.run (by simp [hs])
    have hwait := h.wait (by simp [hs])
    cases k <;> constructor <;> simp_all [CountedRun, CountedWait, Proc.yield, Accounting.onYield]
  | sleep chan hs =>
    have hrun := h.run (by simp [hs])
    have hwait := h.wait (by simp [hs])
    cases k <;> constructor <;> simp_all [CountedRun, CountedWait, Proc.sleep, Accounting.onStop]
  | wakeup hs =>
    have hrun := h.run (by simp [hs])
    have hwait := h.wait (by simp [hs])
    cases k <;> constructor <;> simp_all [CountedRun, CountedWait, Proc.wakeup, Accounting.onWakeup]
  | exit hs =>
    have hrun := h.run (by simp [hs])
    have hwait := h.wait (by simp [hs])
    cases k <;> constructor <;> simp_all [CountedRun, CountedWait, Proc.exit, Accounting.onStop]

theorem Counted.life {k : Accounting} {ticks : Word} {p p' : Proc} {c : Clock}
    (h : Counted k ticks p c) (hl : Life k ticks p p')
    : Counted k ticks p' c := by
  induction hl with
  | refl => exact h
  | tail _ ht ih => exact ih.trans ht

theorem add_elapsed_succ {a ticks snap : Word} {n : Nat} (h : a + (ticks - snap) = .ofNat 32 n)
    : a + (ticks + 1 - snap) = .ofNat 32 (n + 1) := by
  rw [BitVec.ofNat_add, ← h]
  grind

theorem Counted.tick {k : Accounting} {ticks : Word} {p : Proc} {c : Clock}
    (h : Counted k ticks p c)
    : Counted k (ticks + 1) (p.tick k) (c.tick p.state) := by
  rcases p with ⟨counters, st, pid, parent, chan, killed, pc⟩
  constructor
  . intro hu
    have hrun := h.run hu
    cases k with
    | snapshot =>
      cases st with
      | running => exact add_elapsed_succ hrun
      | _ => exact hrun
    | perTick =>
      cases st with
      | running =>
        simp only [CountedRun] at hrun
        simp [CountedRun, Proc.tick, Accounting.onTick, Clock.tick, hrun, BitVec.ofNat_add]
      | _ => exact hrun
  . intro hu
    have hwait := h.wait hu
    cases k with
    | snapshot =>
      cases st with
      | embryo =>
        have := add_elapsed_succ hwait
        rw [Nat.add_right_comm] at this
        exact this
      | runnable => exact add_elapsed_succ hwait
      | _ => exact hwait
    | perTick =>
      cases st with
      | runnable =>
        simp only [CountedWait] at hwait
        simp [CountedWait, Proc.tick, Accounting.onTick, Clock.tick, hwait, BitVec.ofNat_add]
      | _ => exact hwait

theorem Counted.alloc (k : Accounting) (ticks pid : Word) (p : Proc)
    : Counted k ticks (p.alloc k ticks pid) .zero := by
  cases k <;> constructor <;>
    simp [CountedRun, CountedWait, Proc.alloc, Accounting.onAlloc, Clock.zero]

theorem Counted.zombie_rutime {k : Accounting} {ticks : Word} {p : Proc} {c : Clock}
    (h : Counted k ticks p c) (hp : p.state = .zombie)
    : p.rutime = .ofNat 32 c.running := by
  have := h.run (by simp [hp])
  cases k <;> simpa [CountedRun, hp] using this

theorem Counted.zombie_wtime {k : Accounting} {ticks : Word} {p : Proc} {c : Clock}
    (h : Counted k ticks p c) (hp : p.state = .zombie)
    : p.wtime
        =
      match k with
      | .snapshot => .ofNat 32 (c.embryo + c.runnable)
      | .perTick => .ofNat 32 c.runnable := by
  have := h.wait (by simp [hp])
  cases k <;> simpa [CountedWait, hp] using this

theorem Counted.exitCounts {k : Accounting} {ticks : Word} {p : Proc} {c : Clock}
    (h : Counted k ticks p c) (m n : Nat)
    : Counted k ticks p { c with exitWait := m, exitRun := n } := by
  constructor
  . intro hu
    have := h.run hu
    cases k <;> exact this
  . intro hu
    have := h.wait hu
    cases k <;> exact this

namespace State

structure Timed (k : Accounting) (x : State × (Slot → Clock)) : Prop where
  wf : x.1.Wf
  counted : ∀ p, Counted k x.1.ticks (x.1.ptable p) (x.2 p)
  exited : ∀ p, (x.1.ptable p).state = .zombie →
    (x.2 p).exitWait = (x.2 p).embryo + (x.2 p).runnable ∧ (x.2 p).exitRun = (x.2 p).running

variable {k : Accounting}

theorem step_counted {s s' : State} {h : Slot → Clock} {e : Event} {o : Output} (hs : s.Wf)
    (hstep : s.step k e = some (s', o)) {p : Slot} (hp : Counted k s.ticks (s.ptable p) (h p))
    : Counted k s'.ticks (s'.ptable p) (clock s e s' h p) := by
  have hticks := step_ticks hstep
  unfold clock
  rcases step_life hs hstep p with ⟨hu, htimer, pid, halloc⟩ | hlife
  . have hembryo : (s'.ptable p).state = .embryo := by
      rw [halloc]
      rfl
    simp only [hu, hembryo, and_self, ↓reduceIte]
    rw [halloc]
    apply Counted.alloc
  . have hunused : ¬ ((s.ptable p).state = .unused ∧ (s'.ptable p).state = .embryo) := by
      intro hboth
      have : (s.ticked k e p).state = .unused := by
        unfold ticked
        split <;> exact hboth.1
      have := hlife.unused this
      simp [hboth.2] at this
    have hstart : Counted k s'.ticks (s.ticked k e p)
        (if e.isTimer then (h p).tick (s.ptable p).state else h p) := by
      unfold ticked
      rw [hticks]
      split
      . exact hp.tick
      . exact hp
    dsimp only
    rw [if_neg hunused]
    split
    . exact (hstart.life hlife).exitCounts _ _
    . exact hstart.life hlife

theorem step_timed {x x' : State × (Slot → Clock)} {e : Event} {o : Output} (hx : Timed k x)
    (hstep : Machine.watch (step k) clock x e = some (x', o))
    : Timed k x' := by
  obtain ⟨hstep, hclock⟩ := Machine.watch_eq_some hstep
  constructor
  . exact step_wf hx.wf hstep
  . intro p
    rw [hclock]
    exact step_counted hx.wf hstep (hx.counted p)
  . intro p hzombie
    rw [hclock]
    unfold clock
    by_cases hold : (x.1.ptable p).state = .zombie
    . have : (if e.isTimer = true then (x.2 p).tick .zombie else x.2 p) = x.2 p := by
        split <;> rfl
      simp only [hold, reduceCtorEq, false_and, ↓reduceIte, ne_eq, not_true_eq_false, this]
      exact hx.exited p hold
    . simp [hold, hzombie]

theorem boot_timed : Timed k (boot k, fun _ => .zero) := by
  constructor
  . exact boot_wf
  . intro p
    have hzero : (boot k).ticks = 0 := by
      cases k <;> rfl
    rw [hzero]
    dsimp only
    rw [boot_ptable]
    split
    . exact (Counted.alloc k 0 1 .zero).trans (.publish rfl) |>.trans (.keep rfl rfl)
    . constructor <;> simp [Proc.zero]
  . intro p hzombie
    exact ⟨rfl, rfl⟩

theorem times_cases {s s' : State} {e : Event} {o : Output} {pid wtime rutime : Word}
    (hstep : s.step k e = some (s', o)) (ho : o = .times pid wtime rutime)
    : ∃ p c, s.cpu = .run p ∧ (s.ptable c).parent = some p ∧ (s.ptable c).state = .zombie ∧
        (s'.ptable c).state = .unused ∧ (∀ q, q ≠ c → (s'.ptable q).state = (s.ptable q).state) ∧
        pid = (s.ptable c).pid ∧ wtime = (s.ptable c).wtime ∧ rutime = (s.ptable c).rutime := by
  subst ho
  generalize ho : Output.times pid wtime rutime = o at hstep
  cases step_cases hstep with
  | reap p c _ two hcpu hscan hparent hzombie =>
    cases two with
    | true =>
      simp only [↓reduceIte, Output.times.injEq] at ho
      refine ⟨p, c, hcpu, hparent, hzombie, ?_, ?_, ho⟩
      . by_cases hc : c = p <;> simp [hc, Proc.reap]
      . intro q hq
        by_cases hp : q = p
        . rw [hp] at hq
          simp [hp, hq]
        . simp [hp, hq]
    | false => simp at ho
  | _ => simp at ho

/--
The counters of the snapshot kernel are exact at every moment of every run, and what `wait2` stores is
what they were at the exit of the child.
-/
theorem snapshot_counters_exact (es : List Event)
    : Machine.Always (Machine.watch (step .snapshot) clock)
        (fun x => ∀ p, (x.1.ptable p).state ≠ .unused →
          (x.1.ptable p).rutime
              + (if (x.1.ptable p).state = .running then x.1.ticks - (x.1.ptable p).snapticks else 0)
            = .ofNat 32 (x.2 p).running ∧
          (x.1.ptable p).wtime
              + (if (x.1.ptable p).state = .embryo ∨ (x.1.ptable p).state = .runnable then
                  x.1.ticks - (x.1.ptable p).snapticks else 0)
            = .ofNat 32 ((x.2 p).embryo + (x.2 p).runnable))
        (boot .snapshot, fun _ => .zero) es ∧
      Machine.Along (Machine.watch (step .snapshot) clock)
        (fun x _ o x' => ∀ pid wtime rutime, o = .times pid wtime rutime →
          ∃ p c, x.1.cpu = .run p ∧ (x.1.ptable c).parent = some p ∧ (x.1.ptable c).state = .zombie ∧
            (x'.1.ptable c).state = .unused ∧ pid = (x.1.ptable c).pid ∧ wtime = .ofNat 32 (x.2 c).exitWait ∧
            rutime = .ofNat 32 (x.2 c).exitRun)
        (boot .snapshot, fun _ => .zero) es := by
  constructor
  . apply Machine.always_of_invariant (I := Timed .snapshot) _ _ boot_timed
    . intro x e o x' hx hstep
      exact step_timed hx hstep
    . intro x hx p hp
      exact ⟨(hx.counted p).run hp, (hx.counted p).wait hp⟩
  . apply Machine.along_of_invariant (I := Timed .snapshot) _ boot_timed (Machine.along_true _ _)
    intro x e o x' hx hstep _
    refine ⟨?_, step_timed hx hstep⟩
    intro pid wtime rutime ho
    obtain ⟨p, c, hcpu, hparent, hzombie, hreap, -, h1, h2, h3⟩ :=
      times_cases (Machine.watch_eq_some hstep).1 ho
    refine ⟨p, c, hcpu, hparent, hzombie, hreap, h1, ?_, ?_⟩
    . rw [h2, (hx.counted c).zombie_wtime hzombie, (hx.exited c hzombie).1]
    . rw [h3, (hx.counted c).zombie_rutime hzombie, (hx.exited c hzombie).2]

end State

end Xv6
