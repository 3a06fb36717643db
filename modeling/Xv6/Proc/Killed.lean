import Xv6.Lib.Machine
import Xv6.Proc.Lemmas.Moves

/-!
Who sets `killed`. The flag and the pid live in slots that are used again and again, `kill` looks at the
slots of every state, and a `fork` that fails gives its slot back with the pid and the flag still in it.
-/

namespace Xv6

namespace State

-- `allocproc` has claimed the slot and has not returned it yet.
def inAllocproc (s : State) (np : Slot) : Prop :=
  ∃ p, (s.ptable p).pc = .forkKstack np

-- A reason for `killed`: the process faults, or `kill` is called with its pid while it is alive.
def blamed (s : State) (e : Event) (p : Slot) : Bool :=
  match e, s.cpu with
  | .fault, .run cur => p = cur
  | .syscall (.kill pid), .run cur =>
    (s.ptable cur).killed = false ∧ (s.ptable p).pid = pid ∧ (s.ptable p).state ≠ .unused
  | _, _ => false

-- Whether there has been a reason since `allocproc` claimed the slot.
def blame (s : State) (e : Event) (s' : State) (h : Slot → Bool) : Slot → Bool := fun p =>
  if (s.ptable p).state = .unused ∧ (s'.ptable p).state = .embryo then
    false
  else
    h p || s.blamed e p

variable {k : Accounting} {s s' : State} {e : Event} {o : Output} {p : Slot}

theorem killed_of_moves {ticks : Word} {r r' : Proc} (h : Moves k s ticks e p r r')
    (hfault : ¬ (e = .fault ∧ s.cpu = .run p)) (hkill : s.kills e ≠ some p) (hr' : r'.killed = true)
    : r.killed = true := by
  induction h with
  | refl => exact hr'
  | tail _ hmove ih =>
    apply ih
    cases hmove with
    | fault he hcpu => exact absurd ⟨he, hcpu⟩ hfault
    | kill h => exact absurd h hkill
    | reap => simp [Proc.reap] at hr'
    | dispatch => simpa [Proc.dispatch] using hr'
    | orphan => simpa using hr'
    | _ => exact hr'

-- A slot becomes free in `wait`, which clears the flag, and in a failing `fork`, which does not.
theorem unused_of_moves {ticks : Word} {r r' : Proc} (h : Moves k s ticks e p r r')
    (hgive : s.givesUp e ≠ some p) (hr' : r'.state = .unused)
    : r.state = .unused ∨ ∃ cur two, Scans s cur e two ∧ r'.killed = false := by
  induction h with
  | refl => exact .inl hr'
  | tail _ hmove ih =>
    cases hmove with
    | reap two cur hcpu hscan => exact .inr ⟨cur, two, hscan, rfl⟩
    | giveUp h => exact absurd h hgive
    | orphan cur => simpa using ih (by simpa using hr')
    | wakeup | alloc | publish | yield | sleep | exit => cases hr'
    | dispatch => simp [Proc.dispatch] at hr'
    | tick | setPc | forkret | setParent => exact ih hr'
    | fault he =>
      rcases ih hr' with h | ⟨cur, two, hscan, -⟩
      . exact .inl h
      . subst he
        cases hscan
    | kill h =>
      rcases ih hr' with h | ⟨cur, two, hscan, -⟩
      . exact .inl h
      . cases hscan <;> simp [kills] at h

-- A process that is in `allocproc` after a step was there before it or has just called it.
theorem step_inAllocproc (hs : s.Wf) (h : s.step k e = some (s', o)) (hp : s'.inAllocproc p)
    : s.inAllocproc p ∨ (s.ptable p).state = .unused := by
  obtain ⟨q, hq⟩ := hp
  suffices (s.ptable q).pc = .forkKstack p ∨ (s.ptable p).state = .unused from
    this.imp_left fun hpc => ⟨q, hpc⟩
  have hmoves := step_moves hs h q
  generalize s'.ptable q = r' at hq hmoves
  induction hmoves with
  | refl => exact .inl hq
  | tail _ hmove ih =>
    cases hmove with
    | setPc pc hcpu hpc =>
      rcases hpc p hq with h | h
      . exact .inl (h.trans hq)
      . exact .inr h
    | forkret => simp at hq
    | dispatch =>
      apply ih
      unfold Proc.resume at hq
      split at hq
      . dsimp only at hq
        split at hq <;> simp at hq
      . exact hq
    | orphan => exact ih (by simpa using hq)
    | _ => exact ih hq

-- `kill` only ever finds live processes, and no `fork` gives up a child that has been killed.
def Orderly (s : State) (e : Event) : Prop :=
  (∀ p, s.kills e = some p → (s.ptable p).state ≠ .unused ∧ ¬ s.inAllocproc p) ∧
  (∀ p, s.givesUp e = some p → (s.ptable p).killed = false)

theorem kills_eq_some (h : s.kills e = some p)
    : ∃ pid cur, e = .syscall (.kill pid) ∧ s.cpu = .run cur ∧ (s.ptable cur).killed = false ∧
        (s.ptable p).pid = pid := by
  unfold kills at h
  split at h
  . next pid cur hcpu =>
    split at h
    . simp at h
    . next hkilled =>
      refine ⟨pid, cur, rfl, hcpu, by simpa using hkilled, ?_⟩
      simpa using findSlot_eq_some h
  . simp at h

theorem givesUp_eq_some (h : s.givesUp e = some p) : e = .forkNext false := by
  unfold givesUp at h
  split at h
  . rfl
  . simp at h

theorem step_killed (hs : s.Wf) (h : s.step k e = some (s', o)) (ho : Orderly s e)
    (hp : (s'.ptable p).killed = true)
    : ((s'.ptable p).state = .unused → (s.ptable p).state = .unused) ∧
      ((e = .fault ∧ s.cpu = .run p) ∨ s.kills e = some p ∨ (s.ptable p).killed = true) := by
  have hmoves := step_moves hs h p
  have hcause : (e = .fault ∧ s.cpu = .run p) ∨ s.kills e = some p ∨ (s.ptable p).killed = true := by
    by_cases hfault : e = .fault ∧ s.cpu = .run p
    . exact .inl hfault
    . by_cases hkill : s.kills e = some p
      . exact .inr (.inl hkill)
      . exact .inr (.inr (killed_of_moves hmoves hfault hkill hp))
  refine ⟨?_, hcause⟩
  intro hu
  have hgive : s.givesUp e ≠ some p := by
    intro hgive
    have he := givesUp_eq_some hgive
    rcases hcause with ⟨hfault, -⟩ | hkill | hkilled
    . simp [he] at hfault
    . obtain ⟨pid, cur, hsys, -⟩ := kills_eq_some hkill
      simp [he] at hsys
    . simp [ho.2 p hgive] at hkilled
  rcases unused_of_moves hmoves hgive hu with h | ⟨-, -, -, h⟩
  . exact h
  . simp [hp] at h

structure Blamed (x : State × (Slot → Bool)) : Prop where
  wf : x.1.Wf
  blame : ∀ p, (x.1.ptable p).killed = true → (x.1.ptable p).state ≠ .unused ∧ x.2 p = true
  fresh : ∀ p, x.1.inAllocproc p → (x.1.ptable p).killed = false

theorem kills_blamed (h : s.kills e = some p) (hp : (s.ptable p).state ≠ .unused)
    : s.blamed e p = true := by
  obtain ⟨pid, cur, rfl, hcpu, hkilled, hpid⟩ := kills_eq_some h
  simp [blamed, hcpu, hkilled, hpid, hp]

theorem step_blamed {x x' : State × (Slot → Bool)} (hx : Blamed x)
    (hstep : Machine.watch (step k) blame x e = some (x', o)) (ho : Orderly x.1 e)
    : Blamed x' := by
  obtain ⟨hs, hblame⟩ := Machine.watch_eq_some hstep
  have hcause : ∀ p, (x'.1.ptable p).killed = true →
      (x.1.ptable p).state ≠ .unused ∧ (x.2 p = true ∨ x.1.blamed e p = true) ∧ ¬ x.1.inAllocproc p := by
    intro p hp
    rcases (step_killed hx.wf hs ho hp).2 with ⟨rfl, hcpu⟩ | hkill | hkilled
    . have hrunning := hx.wf.running p hcpu
      refine ⟨by simp [hrunning], .inr (by simp [blamed, hcpu]), ?_⟩
      rintro ⟨q, hq⟩
      have := hx.wf.embryo q p (by simp [hq, Pc.child])
      simp [hrunning] at this
    . have halive := ho.1 p hkill
      exact ⟨halive.1, .inr (kills_blamed hkill halive.1), halive.2⟩
    . have hb := hx.blame p hkilled
      refine ⟨hb.1, .inl hb.2, ?_⟩
      intro hin
      simp [hx.fresh p hin] at hkilled
  refine ⟨step_wf hx.wf hs, ?_, ?_⟩
  . intro p hp
    obtain ⟨halive, hreason, -⟩ := hcause p hp
    refine ⟨fun hu => halive ((step_killed hx.wf hs ho hp).1 hu), ?_⟩
    rw [hblame]
    unfold State.blame
    simp only [halive, false_and, ↓reduceIte, Bool.or_eq_true]
    exact hreason
  . intro p hin
    by_contra hp
    simp only [Bool.not_eq_false] at hp
    obtain ⟨halive, -, hout⟩ := hcause p hp
    rcases step_inAllocproc hx.wf hs hin with h | h
    . exact hout h
    . exact halive h

theorem boot_blamed : Blamed (boot k, fun _ => false) := by
  refine ⟨boot_wf, ?_, ?_⟩
  . intro p hp
    dsimp only at hp
    rw [boot_ptable] at hp
    split at hp <;> simp [Proc.alloc, Proc.zero] at hp
  . intro p hin
    dsimp only
    rw [boot_ptable]
    split <;> rfl

-- The slot that `allocproc` returns to `fork` in this step.
def returns (s : State) (e : Event) : Option Slot :=
  match e, s.cpu with
  | .forkNext true, .run cur =>
    match (s.ptable cur).pc with
    | .forkKstack np => some np
    | _ => none
  | _, _ => none

theorem returns_eq_some (h : s.returns e = some p) : e = .forkNext true ∧ s.inAllocproc p := by
  unfold returns at h
  split at h
  . next cur hcpu =>
    refine ⟨rfl, cur, ?_⟩
    split at h
    . next np hpc => rw [hpc, Option.some.inj h]
    . simp at h
  . simp at h

def killPid : Event → Option Word
  | .syscall (.kill pid) => some pid
  | _ => none

def alive (s : State) (pid : Word) : Prop :=
  ∃ p, (s.ptable p).state ≠ .unused ∧ (s.ptable p).pid = pid

-- What one step may do with `killed`.
structure Justified (x : State × (Slot → Bool)) (e : Event) (o : Output) (x' : State × (Slot → Bool))
    : Prop where
  cause : ∀ p, (x'.1.ptable p).state ≠ .unused → (x'.1.ptable p).killed = true → x'.2 p = true
  claimed : ∀ p, (x.1.ptable p).state = .unused → (x'.1.ptable p).state = .embryo →
    (x'.1.ptable p).killed = false
  returned : ∀ np ∈ x.1.returns e, (x'.1.ptable np).killed = false
  kill : o = .ret 0 → ∀ pid ∈ killPid e, x.1.alive pid

instance (x : State × (Slot → Bool)) (e : Event) (o : Output) (x' : State × (Slot → Bool))
    : Decidable (Justified x e o x') :=
  have (pid : Word) : Decidable (x.1.alive pid) := inferInstanceAs (Decidable (∃ _, _))
  have : Decidable (∀ pid ∈ killPid e, x.1.alive pid) := Option.decidableForallMem _
  decidable_of_iff (_ ∧ _ ∧ _ ∧ _) ⟨fun h => ⟨h.1, h.2.1, h.2.2.1, h.2.2.2⟩,
    fun h => ⟨h.cause, h.claimed, h.returned, h.kill⟩⟩

theorem kill_eq_zero {pid : Word} (h : s.step k (.syscall (.kill pid)) = some (s', .ret 0))
    : ∃ p, s.kills (.syscall (.kill pid)) = some p ∧ (s.ptable p).pid = pid := by
  generalize he : Event.syscall (.kill pid) = e at h
  generalize ho : Output.ret 0 = o at h
  cases step_cases h with
  | sysKill q pid' hcpu hpc hkilled =>
    rw [Event.syscall.injEq, Call.kill.injEq] at he
    subst he
    rcases s.kill_cases k pid with ⟨p, hp, -⟩ | ⟨-, hkill⟩
    . exact ⟨p, by simp [kills, hcpu, hkilled, hp], by simpa using findSlot_eq_some hp⟩
    . simp [hkill] at ho
  | trapIdle _ _ hh | trapExit _ _ _ hh | trapStay _ _ _ hh => simp at ho
  | reap _ _ _ _ _ hscan | waitFail _ _ _ _ hscan | waitSleep _ _ _ _ hscan =>
    subst he
    cases hscan
  | _ => simp at he ho

theorem step_justified {x x' : State × (Slot → Bool)} (hx : Blamed x)
    (hstep : Machine.watch (step k) blame x e = some (x', o)) (ho : Orderly x.1 e)
    : Justified x e o x' := by
  have hx' := step_blamed hx hstep ho
  obtain ⟨hs, hblame⟩ := Machine.watch_eq_some hstep
  constructor
  . intro p hp hkilled
    exact (hx'.blame p hkilled).2
  . intro p hu hembryo
    by_contra hkilled
    simp only [Bool.not_eq_false] at hkilled
    have := (hx'.blame p hkilled).2
    rw [hblame] at this
    simp [State.blame, hu, hembryo] at this
  . intro np hnp
    obtain ⟨he, hin⟩ := returns_eq_some hnp
    by_contra hkilled
    simp only [Bool.not_eq_false] at hkilled
    rcases (step_killed hx.wf hs ho hkilled).2 with ⟨h, -⟩ | h | h
    . simp [he] at h
    . obtain ⟨pid, cur, hsys, -⟩ := kills_eq_some h
      simp [he] at hsys
    . simp [hx.fresh np hin] at h
  . intro hzero pid hpid
    have he : e = .syscall (.kill pid) := by
      unfold killPid at hpid
      split at hpid <;> simp_all
    subst he hzero
    obtain ⟨p, hp, hpid⟩ := kill_eq_zero hs
    exact ⟨p, (ho.1 p hp).1, hpid⟩

/--
As long as `kill` finds no free slot and no slot that `allocproc` still works on, and no failing `fork`
gives a killed child back, nobody is killed without a cause.
-/
theorem killed_only_for_cause (es : List Event)
    (h : Machine.Along (Machine.watch (step .snapshot) blame) (fun x e _ _ => Orderly x.1 e)
      (boot .snapshot, fun _ => false) es)
    : Machine.Along (Machine.watch (step .snapshot) blame) Justified
        (boot .snapshot, fun _ => false) es := by
  apply Machine.along_of_invariant _ boot_blamed h
  intro x e o x' hx hstep ho
  exact ⟨step_justified hx hstep ho, step_blamed hx hstep ho⟩

instance (s : State) (p : Slot) : Decidable (s.inAllocproc p) :=
  inferInstanceAs (Decidable (∃ _, _))

instance (s : State) (e : Event) : Decidable (Orderly s e) :=
  inferInstanceAs (Decidable (_ ∧ _))

-- `init` kills its child, waits for it and forks again.
def killChild : List Event :=
  [.schedule, .schedule, .done, .ret, .syscall .fork, .forkNext true, .forkNext true, .forkNext true,
    .ret, .syscall (.kill 2), .ret, .syscall .wait, .schedule, .timer false, .exitNext] ++
    List.replicate 65 .schedule ++ [.waitNext, .ret, .syscall .fork, .forkNext false]

theorem killed_only_for_cause_killChild
    : (Machine.run (step .snapshot) (boot .snapshot) killChild).isSome = true ∧
      Machine.Along (Machine.watch (step .snapshot) blame) Justified
        (boot .snapshot, fun _ => false) killChild :=
  ⟨by decide +kernel, killed_only_for_cause killChild (by decide +kernel)⟩

-- `init` calls `kill(0)`, which finds a free slot, and then `fork`, which claims it.
theorem killed_without_cause
    : ¬ Machine.Along (Machine.watch (step .snapshot) blame) Justified (boot .snapshot, fun _ => false)
        [.schedule, .schedule, .done, .ret, .syscall (.kill 0)] ∧
      ¬ Machine.Along (Machine.watch (step .snapshot) blame)
        (fun _ _ _ x' => ∀ p, (x'.1.ptable p).state ≠ .unused → (x'.1.ptable p).killed = true →
          x'.2 p = true)
        (boot .snapshot, fun _ => false)
        [.schedule, .schedule, .done, .ret, .syscall (.kill 0), .ret, .syscall .fork] := by
  decide +kernel

end State

end Xv6
