import Xv6.Lib.Machine
import Xv6.Proc.Lemmas.Moves

/-!
`exit` against `wait` and `wait2`. A parent that finds no zombie among its children sleeps on its own slot,
and it must not be possible to miss the `exit` of a child in between or to return one child twice.
-/

namespace Xv6

/--
The history of the table. A process is a slot together with the step in which `allocproc` has claimed it,
so that the next process in the same slot is another one.
-/
structure Lives where
  time : Nat
  birth : Slot → Nat
  exited : Slot → Bool
  returned : List (Slot × Nat)

namespace State

variable {k : Accounting} {s s' : State} {e : Event} {o : Output} {p c : Slot}

def claimed (s s' : State) (p : Slot) : Bool :=
  (s.ptable p).state = .unused ∧ (s'.ptable p).state = .embryo

def reaped (s s' : State) (p : Slot) : Bool :=
  (s.ptable p).state = .zombie ∧ (s'.ptable p).state = .unused

def lives (s : State) (e : Event) (s' : State) (h : Lives) : Lives where
  time := h.time + 1
  birth p := if s.claimed s' p then h.time else h.birth p
  exited p := if s.claimed s' p then false else h.exited p || decide (e = .exitNext ∧ s.cpu = .run p)
  returned := ((List.finRange NPROC).filter (s.reaped s')).map (fun p => (p, h.birth p)) ++ h.returned

-- `p` sleeps in `wait` or `wait2`.
def asleep (s : State) (p : Slot) : Prop :=
  (s.ptable p).state = .sleeping ∧ (s.ptable p).chan = .proc p

def zombieChild (s : State) (p c : Slot) : Prop :=
  (s.ptable c).parent = some p ∧ (s.ptable c).state = .zombie

-- No process is its own parent, and the first process has none and never exits.
structure Rooted (s : State) (p : Slot) (r : Proc) : Prop where
  noself : r.parent ≠ some p
  parent : s.initproc = some p → r.parent = none
  state : s.initproc = some p → r.state = .sleeping ∨ r.state = .runnable ∨ r.state = .running

structure Family (s : State) : Prop where
  wf : s.Wf
  awake : ∀ p c, s.asleep p → ¬ s.zombieChild p c
  rooted : ∀ p, Rooted s p (s.ptable p)

theorem Rooted.move {ticks : Word} {r r' : Proc} (h : Rooted s p r) (hmove : Move k s ticks e p r r')
    : Rooted s p r' := by
  have hout : ∀ {st : ProcState}, r.state = st → st = .unused ∨ st = .embryo ∨ st = .zombie →
      s.initproc ≠ some p := by
    intro st hst hcases hinit
    have := h.state hinit
    rcases hcases with rfl | rfl | rfl <;> simp [hst] at this
  cases hmove with
  | setParent cur hcpu hne hst =>
    have hinit := hout hst (by simp)
    exact ⟨by simpa using hne, fun h => absurd h hinit, fun h => absurd h hinit⟩
  | orphan cur =>
    refine ⟨?_, ?_, ?_⟩
    . rw [Proc.orphan_parent]
      split
      . next hcur =>
        intro hinit
        simp [h.parent hinit] at hcur
      . exact h.noself
    . intro hinit
      simp [Proc.orphan_parent, h.parent hinit]
    . simpa using h.state
  | alloc he hst =>
    have hinit := hout hst (by simp)
    exact ⟨h.noself, fun h => absurd h hinit, fun h => absurd h hinit⟩
  | giveUp hgive hst =>
    have hinit := hout hst (by simp)
    exact ⟨h.noself, fun h => absurd h hinit, fun h => absurd h hinit⟩
  | publish hst =>
    have hinit := hout hst (by simp)
    exact ⟨h.noself, fun h => absurd h hinit, fun h => absurd h hinit⟩
  | reap two cur hcpu hscan hst =>
    have hinit := hout hst (by simp)
    exact ⟨by simp [Proc.reap], fun h => absurd h hinit, fun h => absurd h hinit⟩
  | exit he hcpu hinit => exact ⟨h.noself, fun h => absurd h hinit, fun h => absurd h hinit⟩
  | dispatch =>
    refine ⟨?_, ?_, ?_⟩
    . simpa [Proc.dispatch] using h.noself
    . simpa [Proc.dispatch] using h.parent
    . simp [Proc.dispatch]
  | wakeup => exact ⟨h.noself, h.parent, fun _ => by simp [Proc.wakeup]⟩
  | yield => exact ⟨h.noself, h.parent, fun _ => by simp [Proc.yield]⟩
  | sleep => exact ⟨h.noself, h.parent, fun _ => by simp [Proc.sleep]⟩
  | tick | setPc | forkret | fault | kill => exact ⟨h.noself, h.parent, h.state⟩

theorem Rooted.moves {ticks : Word} {r r' : Proc} (h : Rooted s p r)
    (hmoves : Moves k s ticks e p r r')
    : Rooted s p r' := by
  induction hmoves with
  | refl => exact h
  | tail _ hmove ih => exact ih.move hmove

theorem step_initproc (h : s.step k e = some (s', o)) : s'.initproc = s.initproc := by
  cases step_cases h with
  | trapIdle _ _ hh | trapExit _ _ _ hh | trapStay _ _ _ hh => cases hh <;> rfl
  | sysKill p pid =>
    rcases s.kill_cases k pid with ⟨p, -, h⟩ | ⟨-, h⟩ <;> rw [h] <;> rfl
  | exit p => exact (s.exit_frame k p).2.1
  | _ => rfl

-- Who sleeps in `wait` after a step slept there before it or has just looked at all its children.
theorem asleep_of_step (hs : s.Wf) (h : s.step k e = some (s', o)) (hp : s'.asleep p)
    : s.asleep p ∨ ∀ c, ¬ s.zombieChild p c := by
  obtain ⟨hstate, hchan⟩ := hp
  have hmoves := step_moves hs h p
  generalize s'.ptable p = r' at hstate hchan hmoves
  induction hmoves with
  | refl => exact .inl ⟨hstate, hchan⟩
  | tail _ hmove ih =>
    cases hmove with
    | sleep chan hcpu hrunning hok =>
      right
      rcases hok with hobj | ⟨-, hnone⟩
      . have hchan : chan = .proc p := hchan
        simp [hchan, Chan.isObject] at hobj
      . intro c hc
        exact hnone c hc.1 hc.2
    | wakeup | alloc | giveUp | publish | yield | exit | reap => cases hstate
    | dispatch => simp [Proc.dispatch] at hstate
    | orphan cur => exact ih (by simpa using hstate) (by simpa using hchan)
    | tick | setPc | forkret | fault | kill | setParent => exact ih hstate hchan

-- A zombie child after a step was one before it, unless somebody exits.
theorem zombieChild_of_step (hs : s.Wf) (h : s.step k e = some (s', o)) (he : e ≠ .exitNext)
    (hc : s'.zombieChild p c)
    : s.zombieChild p c := by
  obtain ⟨hparent, hstate⟩ := hc
  have hmoves := step_moves hs h c
  generalize s'.ptable c = r' at hparent hstate hmoves
  induction hmoves with
  | refl => exact ⟨hparent, hstate⟩
  | tail _ hmove ih =>
    cases hmove with
    | exit hexit => exact absurd hexit he
    | orphan cur horphan => exact absurd horphan he
    | wakeup | alloc | giveUp | publish | yield | sleep | reap => cases hstate
    | setParent cur hcpu hne hembryo =>
      have hstate : _ = ProcState.zombie := hstate
      simp [hembryo] at hstate
    | dispatch => simp [Proc.dispatch] at hstate
    | tick | setPc | forkret | fault | kill => exact ih hparent hstate

theorem Family.exit (hs : s.Family) {cur : Slot} (hp : (s.exit k cur).asleep p)
    : ¬ (s.exit k cur).zombieChild p c := by
  rintro ⟨hparent, hzombie⟩
  obtain ⟨hsleep, hchan⟩ := hp
  rw [exit_ptable] at hparent hzombie hsleep hchan
  have hpcur : p ≠ cur := by
    intro h
    simp [h, Proc.exit] at hsleep
  simp only [hpcur, ↓reduceIte, Proc.wakeFor_chan, Proc.orphan_chan] at hsleep hchan
  -- the parent has not been woken up
  have hstate : (s.ptable p).state = .sleeping ∧ s.exitWakes cur (.proc p) = false := by
    rw [Proc.wakeFor_state, Proc.orphan_state, Proc.orphan_chan, hchan] at hsleep
    split at hsleep
    . simp at hsleep
    . next h =>
      refine ⟨hsleep, ?_⟩
      simpa [hsleep] using h
  have hwakes := hstate.2
  simp only [exitWakes, decide_eq_false_iff_not, not_or, not_and] at hwakes
  by_cases hc : c = cur
  . subst hc
    simp only [↓reduceIte, Proc.exit, Proc.wakeFor_parent, Proc.orphan_parent, (hs.rooted c).noself] at hparent
    exact hwakes.1 (by simp [hparent, Chan.ofProc])
  . simp only [hc, ↓reduceIte, Proc.wakeFor_parent, Proc.orphan_parent] at hparent hzombie
    rw [Proc.wakeFor_state_eq_iff _ _ _ _ (by simp) (by simp), Proc.orphan_state] at hzombie
    split at hparent
    . next horphan => exact hwakes.2 ⟨c, horphan, hzombie⟩ (by simp [hparent, Chan.ofProc])
    . exact hs.awake p c ⟨hstate.1, hchan⟩ ⟨hparent, hzombie⟩

theorem step_family (hs : s.Family) (h : s.step k e = some (s', o)) : s'.Family := by
  refine ⟨step_wf hs.wf h, ?_, ?_⟩
  . intro p c hp hc
    by_cases he : e = .exitNext
    . subst he
      cases step_cases h with
      | exitInit => exact hs.awake p c hp hc
      | exit cur => exact hs.exit hp hc
      | trapIdle _ _ hh | trapExit _ _ _ hh | trapStay _ _ _ hh => cases hh
      | reap _ _ _ _ _ hscan | waitFail _ _ _ _ hscan | waitSleep _ _ _ _ hscan => cases hscan
    . have hold := zombieChild_of_step hs.wf h he hc
      rcases asleep_of_step hs.wf h hp with hp | hnone
      . exact hs.awake p c hp hold
      . exact hnone c hold
  . intro p
    have hrooted := (hs.rooted p).moves (step_moves hs.wf h p)
    have hinit := step_initproc h
    exact ⟨hrooted.noself, fun h => hrooted.parent (hinit ▸ h), fun h => hrooted.state (hinit ▸ h)⟩

theorem boot_family : (boot k).Family := by
  refine ⟨boot_wf, ?_, ?_⟩
  . rintro p c - ⟨-, hc⟩
    rw [boot_ptable] at hc
    split at hc <;> simp [Proc.zero] at hc
  . intro p
    have hinit : (boot k).initproc = some 0 := by
      cases k <;> rfl
    rw [boot_ptable]
    refine ⟨?_, ?_, ?_⟩
    . split <;> simp [Proc.alloc, Proc.zero]
    . split <;> simp [Proc.alloc, Proc.zero]
    . rw [hinit, Option.some.injEq]
      rintro rfl
      simp

structure Lived (x : State × Lives) : Prop where
  family : x.1.Family
  exited : ∀ p, (x.1.ptable p).state = .zombie → x.2.exited p = true
  birth : ∀ p, (x.1.ptable p).state ≠ .unused → x.2.birth p < x.2.time
  returned : ∀ b ∈ x.2.returned, b.2 < x.2.time
  fresh : ∀ p, (x.1.ptable p).state ≠ .unused → (p, x.2.birth p) ∉ x.2.returned

theorem zombie_of_step (hs : s.Wf) (h : s.step k e = some (s', o)) (hp : (s'.ptable p).state = .zombie)
    : (s.ptable p).state = .zombie ∨ (e = .exitNext ∧ s.cpu = .run p) := by
  have hmoves := step_moves hs h p
  generalize s'.ptable p = r' at hp hmoves
  induction hmoves with
  | refl => exact .inl hp
  | tail _ hmove ih =>
    cases hmove with
    | exit he hcpu => exact .inr ⟨he, hcpu⟩
    | wakeup | alloc | giveUp | publish | yield | sleep | reap => cases hp
    | dispatch => simp [Proc.dispatch] at hp
    | orphan cur => exact ih (by simpa using hp)
    | tick | setPc | forkret | fault | kill | setParent => exact ih hp

theorem claimed_of_step (hs : s.Wf) (h : s.step k e = some (s', o)) (hp : (s.ptable p).state = .unused)
    (hp' : (s'.ptable p).state ≠ .unused)
    : s.claimed s' p = true := by
  rcases step_life hs h p with ⟨-, -, pid, halloc⟩ | hlife
  . simp [claimed, hp, halloc, Proc.alloc]
  . have : (s.ticked k e p).state = .unused := by
      unfold ticked
      split <;> exact hp
    exact absurd (hlife.unused this) hp'

theorem mem_returned {h : Lives} {b : Slot × Nat}
    : b ∈ (lives s e s' h).returned ↔
      (s.reaped s' b.1 = true ∧ b.2 = h.birth b.1) ∨ b ∈ h.returned := by
  obtain ⟨p, n⟩ := b
  simp only [lives, List.mem_append, List.mem_map, List.mem_filter, List.mem_finRange, true_and]
  constructor
  . rintro (⟨q, hq, heq⟩ | h)
    . rw [Prod.mk.injEq] at heq
      obtain ⟨rfl, rfl⟩ := heq
      exact .inl ⟨hq, rfl⟩
    . exact .inr h
  . rintro (⟨hq, rfl⟩ | h)
    . exact .inl ⟨p, hq, rfl⟩
    . exact .inr h

theorem step_lived {x x' : State × Lives} (hx : Lived x)
    (hstep : Machine.watch (step k) lives x e = some (x', o))
    : Lived x' := by
  obtain ⟨hs, hlives⟩ := Machine.watch_eq_some hstep
  have hwf := hx.family.wf
  have halive : ∀ p, (x'.1.ptable p).state ≠ .unused → x.1.claimed x'.1 p = false →
      (x.1.ptable p).state ≠ .unused := by
    intro p hp hclaimed hu
    simp [claimed_of_step hwf hs hu hp] at hclaimed
  refine ⟨step_family hx.family hs, ?_, ?_, ?_, ?_⟩ <;> rw [hlives]
  . intro p hp
    have hclaimed : x.1.claimed x'.1 p = false := by
      simp [claimed, hp]
    simp only [lives, hclaimed, Bool.false_eq_true, ↓reduceIte, Bool.or_eq_true, decide_eq_true_eq]
    exact (zombie_of_step hwf hs hp).imp_left (hx.exited p)
  . intro p hp
    cases hclaimed : x.1.claimed x'.1 p with
    | true => simp [lives, hclaimed]
    | false =>
      have := hx.birth p (halive p hp hclaimed)
      simp only [lives, hclaimed, Bool.false_eq_true, ↓reduceIte]
      omega
  . intro b hb
    have hlt : b.2 < x.2.time := by
      rcases mem_returned.mp hb with ⟨hreaped, hbirth⟩ | hold
      . rw [hbirth]
        apply hx.birth
        simp only [reaped, decide_eq_true_eq] at hreaped
        simp [hreaped.1]
      . exact hx.returned b hold
    simp only [lives]
    omega
  . intro p hp hmem
    rcases mem_returned.mp hmem with ⟨hreaped, -⟩ | hold
    . simp only [reaped, decide_eq_true_eq] at hreaped
      exact hp hreaped.2
    . cases hclaimed : x.1.claimed x'.1 p with
      | true =>
        have := hx.returned _ hold
        simp [lives, hclaimed] at this
      | false =>
        simp only [lives, hclaimed, Bool.false_eq_true, ↓reduceIte] at hold
        exact hx.fresh p (halive p hp hclaimed) hold

def Lives.boot : Lives where
  time := 1
  birth _ := 0
  exited _ := false
  returned := []

theorem boot_lived : Lived (boot k, Lives.boot) := by
  refine ⟨boot_family, ?_, ?_, ?_, ?_⟩
  . intro p hp
    dsimp only at hp
    rw [boot_ptable] at hp
    split at hp <;> simp [Proc.zero] at hp
  . simp [Lives.boot]
  . simp [Lives.boot]
  . simp [Lives.boot]

-- The pid that a successful `wait` or `wait2` returns.
def childPid : Output → Option Word
  | .child pid => some pid
  | .times pid _ _ => some pid
  | _ => none

theorem childPid_cases (h : s.step k e = some (s', o)) {pid : Word} (ho : childPid o = some pid)
    : ∃ p c, s.cpu = .run p ∧ s.zombieChild p c ∧ (s.ptable c).pid = pid ∧ s.reaped s' c = true := by
  cases step_cases h with
  | reap p c _ two hcpu hscan hparent hzombie =>
    refine ⟨p, c, hcpu, ⟨hparent, hzombie⟩, ?_, ?_⟩
    . cases two <;> simpa [childPid] using ho
    . by_cases hc : c = p <;> simp_all [reaped, Proc.reap]
  | _ => simp [childPid] at ho

def isWait : Event → Bool
  | .syscall .wait => true
  | .syscall .wait2 => true
  | .waitNext => true
  | _ => false

theorem waitFail_cases (h : s.step k e = some (s', o)) (he : isWait e = true) (ho : o = .ret (-1))
    : ∃ p, s.cpu = .run p ∧ ((∀ c, (s.ptable c).parent ≠ some p) ∨ (s.ptable p).killed = true) := by
  cases step_cases h with
  | waitFail p _ two hcpu hscan hfail =>
    refine ⟨p, hcpu, hfail.imp_left ?_⟩
    intro hnone c hc
    simp only [havekids, Option.isSome_eq_false_iff, Option.isNone_iff_eq_none] at hnone
    have := findSlot_eq_none hnone c
    simp [hc] at this
  | reap p c _ two => cases two <;> simp at ho
  | forkPublish | sysKill | forkFail | sysForkFull => simp [isWait] at he
  | _ => simp at ho

-- What `wait` and `wait2` owe in one step.
structure Waits (x : State × Lives) (e : Event) (o : Output) (x' : State × Lives) : Prop where
  awake : ∀ p c, x'.1.asleep p → ¬ x'.1.zombieChild p c
  child : ∀ pid, childPid o = some pid → ∃ p c, x.1.cpu = .run p ∧ (x.1.ptable c).parent = some p ∧
    (x.1.ptable c).pid = pid ∧ x.2.exited c = true ∧
    (c, x.2.birth c) ∉ x.2.returned ∧ (c, x.2.birth c) ∈ x'.2.returned
  none : isWait e = true → o = .ret (-1) →
    ∃ p, x.1.cpu = .run p ∧ ((∀ c, (x.1.ptable c).parent ≠ some p) ∨ (x.1.ptable p).killed = true)

theorem step_waits {x x' : State × Lives} (hx : Lived x)
    (hstep : Machine.watch (step k) lives x e = some (x', o))
    : Waits x e o x' := by
  obtain ⟨hs, hlives⟩ := Machine.watch_eq_some hstep
  refine ⟨(step_lived hx hstep).family.awake, ?_, waitFail_cases hs⟩
  intro pid hpid
  obtain ⟨p, c, hcpu, hchild, hpid, hreaped⟩ := childPid_cases hs hpid
  refine ⟨p, c, hcpu, hchild.1, hpid, hx.exited c hchild.2, hx.fresh c (by simp [hchild.2]), ?_⟩
  rw [hlives]
  exact mem_returned.mpr (.inl ⟨hreaped, rfl⟩)

/--
No order of the critical sections makes a parent miss the `exit` of a child, return a process that has not
exited, return one twice, or give up while it has children.
-/
theorem wait_meets_exit (es : List Event)
    : Machine.Along (Machine.watch (step .snapshot) lives) Waits (boot .snapshot, Lives.boot) es := by
  apply Machine.along_of_invariant (I := Lived) _ boot_lived (Machine.along_true _ _)
  intro x e o x' hx hstep _
  exact ⟨step_waits hx hstep, step_lived hx hstep⟩

end State

end Xv6
