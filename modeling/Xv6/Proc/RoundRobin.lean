import Xv6.Proc.Lemmas.Lifecycle

/-!
The order in which `scheduler` serves the table. The loop variable survives on the scheduler's stack while a
process runs, so a process cannot get the CPU back before the loop has come by at every other slot.
-/

namespace Xv6

-- The slot at which the loop of `scheduler` goes on.
def Cpu.next : Cpu → Option Nat
  | .idle => some NPROC
  | .scan i => some i
  | .run p => some (p.val + 1)
  | .halted => none

namespace State

variable {k : Accounting} {s s' : State} {e : Event} {o : Output} {p q : Slot}

-- The step in which `scheduler` switches to `p`.
def dispatches (s : State) (e : Event) (p : Slot) : Bool :=
  e = .schedule ∧ s.cpu = .scan p.val ∧ (s.ptable p).state = .runnable

/--
The history: `stays p q` tells that `p` has been dispatched and that `q` has been `RUNNABLE` in every state
since then.
-/
def stays (s : State) (e : Event) (s' : State) (h : Slot → Slot → Bool) (p q : Slot) : Bool :=
  (s.dispatches e p || h p q) && (s'.ptable q).state = .runnable

-- In the order `p + 1, ..., NPROC - 1, 0, ..., p` the slot `q` comes at `n` or later, and before `p`.
def Ahead (p q : Slot) (n : Nat) : Prop :=
  if p.val < n then n ≤ q.val ∨ q.val < p.val else n ≤ q.val ∧ q.val < p.val

-- Processes that have waited since the last dispatch of `p` are still ahead of the loop.
structure Fair (s : State) (h : Slot → Slot → Bool) : Prop where
  runnable : ∀ p q, h p q = true → (s.ptable q).state = .runnable
  ahead : ∀ p q n, h p q = true → q ≠ p → s.cpu.next = some n → Ahead p q n

theorem Ahead.start (p : Slot) (h : q ≠ p) : Ahead p q (p.val + 1) := by
  have := Fin.val_ne_of_ne h
  unfold Ahead
  rw [if_pos (Nat.lt_succ_self _)]
  omega

theorem Ahead.succ {n : Nat} (h : Ahead p q n) (hq : q.val ≠ n) (hn : n ≠ p.val) : Ahead p q (n + 1) := by
  unfold Ahead at *
  split at h
  . rw [if_pos (by omega)]
    omega
  . rw [if_neg (by omega)]
    omega

-- The end of the table, where `idle` waits for the next pass.
theorem Ahead.stop {n : Nat} (h : Ahead p q n) (hn : ¬ n < NPROC) : Ahead p q NPROC := by
  have hp := p.isLt
  have hq := q.isLt
  unfold Ahead at *
  rw [if_pos (by omega)] at h
  rw [if_pos hp]
  omega

theorem Ahead.wrap (h : Ahead p q NPROC) : Ahead p q 0 := by
  have hp := p.isLt
  have hq := q.isLt
  unfold Ahead at *
  rw [if_pos hp] at h
  rw [if_neg (by omega)]
  omega

-- Whoever is ahead has been served before the loop comes back to `p`.
theorem not_ahead : ¬ Ahead p q p.val := by
  unfold Ahead
  rw [if_neg (by omega)]
  omega

theorem step_next (h : s.step k e = some (s', o))
    : s'.cpu = .halted ∨ s'.cpu.next = s.cpu.next ∨
      (s.cpu = .idle ∧ s'.cpu = .scan 0) ∨
      (∃ i, s.cpu = .scan i ∧ ¬ i < NPROC ∧ s'.cpu = .idle) ∨
      ∃ i : Slot, s.cpu = .scan i.val ∧ s'.cpu.next = some (i.val + 1) ∧
        ((s.ptable i).state = .runnable → s.dispatches e i = true ∧ (s'.ptable i).state = .running) := by
  cases step_cases h with
  | scanStart hcpu => exact .inr (.inr (.inl ⟨hcpu, rfl⟩))
  | scanEnd i hcpu hi => exact .inr (.inr (.inr (.inl ⟨i, hcpu, hi, rfl⟩)))
  | scanSkip i hcpu hi => exact .inr (.inr (.inr (.inr ⟨i, hcpu, rfl, fun h => absurd h hi⟩)))
  | dispatch i hcpu hi =>
    refine .inr (.inr (.inr (.inr ⟨i, hcpu, rfl, fun _ => ⟨?_, ?_⟩⟩)))
    . simp [dispatches, hcpu, hi]
    . simp [Proc.dispatch]
  | trapIdle _ _ hh => cases hh <;> exact .inr (.inl rfl)
  | trapExit _ _ _ hh | trapStay _ _ _ hh => cases hh <;> exact .inr (.inl rfl)
  | trapYield i _ hcpu => exact .inr (.inl (by rw [hcpu]; rfl))
  | waitSleep i _ _ hcpu => exact .inr (.inl (by rw [hcpu]; rfl))
  | sleep i _ hcpu => exact .inr (.inl (by rw [hcpu]; rfl))
  | exit i _ hcpu => exact .inr (.inl (by rw [hcpu, (s.exit_frame k i).2.2.1]; rfl))
  | exitInit => exact .inl rfl
  | sysKill i pid hcpu =>
    right
    left
    rcases s.kill_cases k pid with ⟨_, -, hkill⟩ | ⟨-, hkill⟩ <;> rw [hkill] <;> rfl
  | _ => exact .inr (.inl rfl)

theorem dispatches_cpu (h : s.step k e = some (s', o)) (hp : s.dispatches e p = true)
    : s'.cpu = .run p ∧ (s'.ptable p).state = .running := by
  simp only [dispatches, decide_eq_true_eq] at hp
  obtain ⟨rfl, hcpu, hstate⟩ := hp
  have : s.step k .schedule = some (s.dispatch k p Proc.resume, .none) := by
    simp [step, schedule, hcpu, hstate]
  rw [this] at h
  simp only [Option.some.injEq, Prod.mk.injEq] at h
  rw [← h.1]
  simp [Proc.dispatch]

theorem step_ahead {n : Nat} (h : s.step k e = some (s', o)) (hn : s'.cpu.next = some n)
    (hq : (s.ptable q).state = .runnable) (hq' : (s'.ptable q).state = .runnable)
    (hold : ∀ m, s.cpu.next = some m → Ahead p q m)
    : Ahead p q n := by
  rcases step_next h with hhalted | hsame | ⟨hidle, hscan⟩ | ⟨i, hscan, hi, hidle⟩ | ⟨i, hscan, hnext, hrun⟩
  . simp [hhalted, Cpu.next] at hn
  . exact hold n (hsame ▸ hn)
  . have := hold NPROC (by rw [hidle]; rfl)
    rw [hscan] at hn
    rw [← Option.some.inj hn]
    exact this.wrap
  . have := hold i (by rw [hscan]; rfl)
    rw [hidle] at hn
    rw [← Option.some.inj hn]
    exact this.stop hi
  . have := hold i.val (by rw [hscan]; rfl)
    rw [hnext] at hn
    rw [← Option.some.inj hn]
    apply this.succ
    . intro hqi
      rw [← Fin.ext hqi] at hrun
      simp [(hrun hq).2] at hq'
    . intro hip
      rw [hip] at this
      exact not_ahead this

theorem step_fair {h : Slot → Slot → Bool} (hs : Fair s h) (hstep : s.step k e = some (s', o))
    : Fair s' (s.stays e s' h) := by
  constructor
  . intro p q hpq
    simp only [stays, Bool.and_eq_true, decide_eq_true_eq] at hpq
    exact hpq.2
  . intro p q n hpq hne hn
    simp only [stays, Bool.and_eq_true, Bool.or_eq_true, decide_eq_true_eq] at hpq
    cases hp : s.dispatches e p with
    | true =>
      rw [(dispatches_cpu hstep hp).1] at hn
      rw [← Option.some.inj hn]
      exact .start p hne
    | false =>
      have hold : h p q = true := by simpa [hp] using hpq.1
      exact step_ahead hstep hn (hs.runnable p q hold) hpq.2 fun m hm => hs.ahead p q m hold hne hm

/--
Round-robin without bypass: when a process is dispatched again, no other process has been `RUNNABLE` all the
time since its last dispatch.
-/
theorem dispatch_bypasses_nobody (es : List Event)
    : Machine.Along (Machine.watch (step .snapshot) stays)
        (fun x e _ _ => ∀ p, x.1.dispatches e p = true → ∀ q, q ≠ p → x.2 p q = false)
        (boot .snapshot, fun _ _ => false) es := by
  apply Machine.along_of_invariant (I := fun x => Fair x.1 x.2) _ _ (Machine.along_true _ _)
  . intro x e o x' hx hstep _
    obtain ⟨hs, hstays⟩ := Machine.watch_eq_some hstep
    rw [hstays]
    refine ⟨?_, step_fair hx hs⟩
    intro p hp q hne
    simp only [dispatches, decide_eq_true_eq] at hp
    by_contra hpq
    rw [Bool.not_eq_false] at hpq
    exact not_ahead (hx.ahead p q p.val hpq hne (by rw [hp.2.1]; rfl))
  . exact ⟨by simp, by simp⟩

end State

end Xv6
