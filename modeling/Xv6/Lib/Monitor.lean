import Mathlib.Logic.Function.Basic
import Xv6.Lib.Machine

/-!
Monitors: processes share data under a lock, and wait on one channel until a condition on the data holds. A second lock
protects the states of the processes, and a process that goes to sleep takes it before it lets go of the first one.

A program says what a process does in the stretches of code between two changes of the locks: `act` under the lock, and
`outside` without it. `μ` is the type of local states and `ε` the type of what a process chooses to do outside. The places
of a process:
- `out`: it has none of the locks
- `enter`: about to take the lock, for the first time or behind `resume`
- `inside`: it has the lock
- `notify`: about to take the second lock in order to wake up all sleepers
- `waking`: about to wake them up
- `leaving`: about to release the lock
- `sleepAcquire`: about to take the second lock in order to go to sleep
- `sleepRelease`: about to release the lock
- `sleepSwitch`: about to go to sleep, which releases the second lock
- `asleep`
- `woken`: it can run again, and needs the second lock for it
- `resume`: about to release the second lock
- `elsewhere`: it has the second lock for other reasons
-/

namespace Monitor

inductive Place where
  | out
  | enter
  | inside
  | notify
  | waking
  | leaving
  | sleepAcquire
  | sleepRelease
  | sleepSwitch
  | asleep
  | woken
  | resume
  | elsewhere
  deriving DecidableEq, Repr

-- How a stretch of code under the lock ends.
inductive Next where
  | more
  | wait
  | notify
  | leave
  deriving DecidableEq, Repr

def Next.place : Next → Place
  | .more => .inside
  | .wait => .sleepAcquire
  | .notify => .notify
  | .leave => .leaving

structure Program (ι σ μ ε : Type) where
  -- the flag says that somebody has killed the process
  act : ι → Bool → μ → σ → σ × μ × Next
  -- the flag says that the process goes on to take the lock
  outside : ι → ε → μ → σ → Option (σ × μ × Bool)

structure State (ι σ μ : Type) where
  data : σ
  loc : ι → μ
  place : ι → Place
  lock : Option ι
  queue : Option ι
  killed : ι → Bool

inductive Event (ι ε : Type) where
  | outside (p : ι) (e : ε)
  | elsewhere (p : ι)
  | kill (p q : ι)
  | step (p : ι)

variable {ι σ μ ε : Type} [DecidableEq ι]

namespace State

def setPlace (s : State ι σ μ) (p : ι) (x : Place) : State ι σ μ :=
  { s with place := Function.update s.place p x }

-- `p` goes on, and the locks change hands.
def move (s : State ι σ μ) (p : ι) (x : Place) (lock queue : Option ι) : State ι σ μ :=
  { s.setPlace p x with lock := lock, queue := queue }

def wake (s : State ι σ μ) (q : ι) : State ι σ μ :=
  if s.place q = .asleep then s.setPlace q .woken else s

def wakeAll (s : State ι σ μ) : State ι σ μ :=
  { s with place := fun q => if s.place q = .asleep then .woken else s.place q }

def init (data : σ) (loc : ι → μ) : State ι σ μ where
  data := data
  loc := loc
  place := fun _ => .out
  lock := none
  queue := none
  killed := fun _ => false

end State

def Program.advance (M : Program ι σ μ ε) (s : State ι σ μ) (p : ι) : Option (State ι σ μ) :=
  match s.place p with
  | .out => none
  | .enter => if s.lock = none then some (s.move p .inside (some p) s.queue) else none
  | .inside =>
    let (data, l, next) := M.act p (s.killed p) (s.loc p) s.data
    some { s.setPlace p next.place with data := data, loc := Function.update s.loc p l }
  | .notify => if s.queue = none then some (s.move p .waking s.lock (some p)) else none
  | .waking => some (s.wakeAll.move p .inside s.lock none)
  | .leaving => some (s.move p .out none s.queue)
  | .sleepAcquire => if s.queue = none then some (s.move p .sleepRelease s.lock (some p)) else none
  | .sleepRelease => some (s.move p .sleepSwitch none s.queue)
  | .sleepSwitch => some (s.move p .asleep s.lock none)
  | .asleep => none
  | .woken => if s.queue = none then some (s.move p .resume s.lock (some p)) else none
  | .resume => some (s.move p .enter s.lock none)
  | .elsewhere => some (s.move p .out s.lock none)

def Program.step (M : Program ι σ μ ε) : Machine (State ι σ μ) (Event ι ε) Unit := fun s e =>
  match e with
  | .outside p e =>
    if s.place p = .out then
      match M.outside p e (s.loc p) s.data with
      | some (data, l, enters) =>
        some ({ s.setPlace p (if enters then .enter else .out) with
          data := data, loc := Function.update s.loc p l }, ())
      | none => none
    else none
  | .elsewhere p =>
    if s.place p = .out ∧ s.queue = none then some (s.move p .elsewhere s.lock (some p), ()) else none
  | .kill p q =>
    if s.place p = .elsewhere then some ({ s.wake q with killed := Function.update s.killed q true }, ()) else none
  | .step p => (M.advance s p).map fun s => (s, ())

-- The places with the first lock and those with the second one.
def Place.locked : Place → Bool
  | .inside | .notify | .waking | .leaving | .sleepAcquire | .sleepRelease => true
  | _ => false

def Place.queued : Place → Bool
  | .waking | .sleepRelease | .sleepSwitch | .resume | .elsewhere => true
  | _ => false

-- A process that has decided to sleep, with the lock and without it.
def Place.commits : Place → Bool
  | .sleepAcquire | .sleepRelease => true
  | _ => false

def Place.sleeps : Place → Bool
  | .sleepSwitch | .asleep => true
  | _ => false

-- A process that is going to wake up the sleepers.
def Place.owes : Place → Bool
  | .notify | .waking => true
  | _ => false

/--
A program of which `J` is an invariant and `B` the condition under which processes wait: nobody waits without it, and
who makes it false wakes up the sleepers.
-/
structure Sound (M : Program ι σ μ ε) (J : σ → (ι → μ) → Prop) (B : σ → Prop) : Prop where
  act : ∀ {d d' : σ} {loc : ι → μ} {p : ι} {k : Bool} {l : μ} {n : Next}, J d loc →
    M.act p k (loc p) d = (d', l, n) →
    J d' (Function.update loc p l) ∧ (n = .wait → B d') ∧ (n ≠ .notify → B d → B d')
  outside : ∀ {d d' : σ} {loc : ι → μ} {p : ι} {e : ε} {l : μ} {enters : Bool}, J d loc →
    M.outside p e (loc p) d = some (d', l, enters) →
    J d' (Function.update loc p l) ∧ (B d → B d')

structure Inv (J : σ → (ι → μ) → Prop) (B : σ → Prop) (s : State ι σ μ) : Prop where
  data : J s.data s.loc
  lock : ∀ p, s.lock = some p ↔ (s.place p).locked = true
  queue : ∀ p, s.queue = some p ↔ (s.place p).queued = true
  commits : ∀ p, (s.place p).commits = true → B s.data
  sleeps : ∀ p, (s.place p).sleeps = true → B s.data ∨ ∃ q, (s.place q).owes = true

section

variable {M : Program ι σ μ ε} {J : σ → (ι → μ) → Prop} {B : σ → Prop} {s s' : State ι σ μ} {e : Event ι ε} {o : Unit}
  {p q : ι} {x : Place}

theorem Place.locked_of_owes (h : x.owes = true) : x.locked = true := by
  cases x <;> simp_all [Place.owes, Place.locked]

theorem State.move_self (s : State ι σ μ) (p : ι) (x : Place) (lock queue : Option ι)
    : (s.move p x lock queue).place p = x :=
  Function.update_self _ _ _

theorem State.move_of_ne (s : State ι σ μ) (x : Place) (lock queue : Option ι) (h : q ≠ p)
    : (s.move p x lock queue).place q = s.place q :=
  Function.update_of_ne h _ _

-- What a step of `p` does to a lock that was in the hands of `held`.
inductive Hands (held : Option ι) (p : ι) (before after : Bool) : Option ι → Prop where
  | keep : after = before → Hands held p before after held
  | take : held = none → after = true → Hands held p before after (some p)
  | drop : before = true → after = false → Hands held p before after none

omit [DecidableEq ι] in
theorem inv_init {data : σ} {loc : ι → μ} (h : J data loc) : Inv J B (State.init data loc) where
  data := h
  lock p := by simp [State.init, Place.locked]
  queue p := by simp [State.init, Place.queued]
  commits p hp := by simp [State.init, Place.commits] at hp
  sleeps p hp := by simp [State.init, Place.sleeps] at hp

theorem Hands.spec {f : Place → Bool} {held held' : Option ι} {place : ι → Place}
    (h : ∀ q, held = some q ↔ f (place q) = true) (hh : Hands held p (f (place p)) (f x) held') (q : ι)
    : held' = some q ↔ f (Function.update place p x q) = true := by
  by_cases hq : q = p
  . subst hq
    rw [Function.update_self]
    cases hh with
    | keep hx => rw [hx, h]
    | take _ hx => simp [hx]
    | drop _ hx => simp [hx]
  . rw [Function.update_of_ne hq]
    cases hh with
    | keep _ => exact h q
    | take hnone _ =>
      rw [← h q, hnone]
      simp [Ne.symm hq]
    | drop hp _ =>
      rw [← h q, (h p).mpr hp]
      simp [Ne.symm hq]

omit [DecidableEq ι] in
theorem Inv.locked_unique (h : Inv J B s) (hp : (s.place p).locked = true) (hq : (s.place q).locked = true) : q = p :=
  Option.some.inj (((h.lock q).mpr hq).symm.trans ((h.lock p).mpr hp))

omit [DecidableEq ι] in
theorem Inv.queued_unique (h : Inv J B s) (hp : (s.place p).queued = true) (hq : (s.place q).queued = true) : q = p :=
  Option.some.inj (((h.queue q).mpr hq).symm.trans ((h.queue p).mpr hp))

/-- A step of `p` to the place `x`, in which `p` does not wake up anybody. -/
theorem Inv.move (h : Inv J B s) (hplace : s'.place = Function.update s.place p x) (hJ : J s'.data s'.loc)
    (hlock : Hands s.lock p (s.place p).locked x.locked s'.lock)
    (hqueue : Hands s.queue p (s.place p).queued x.queued s'.queue)
    (hB : (B s.data → B s'.data) ∨ (x.owes = true ∧ (s.place p).locked = true))
    (howes : (s.place p).owes = true → x.owes = true) (hcommits : x.commits = true → B s'.data)
    (hsleeps : x.sleeps = true → B s'.data ∨ (s.place p).sleeps = true)
    : Inv J B s' where
  data := hJ
  lock q := by
    rw [hplace]
    exact hlock.spec h.lock q
  queue q := by
    rw [hplace]
    exact hqueue.spec h.queue q
  commits q hq := by
    rw [hplace] at hq
    by_cases hqp : q = p
    . rw [hqp, Function.update_self] at hq
      exact hcommits hq
    . rw [Function.update_of_ne hqp] at hq
      rcases hB with hB | ⟨_, hp⟩
      . exact hB (h.commits q hq)
      . exact absurd (h.locked_unique hp (by cases hx : s.place q <;> simp_all [Place.commits, Place.locked])) hqp
  sleeps q hq := by
    have hmain : B s'.data ∨ (s.place p).sleeps = true ∨ q ≠ p ∧ (s.place q).sleeps = true := by
      rw [hplace] at hq
      by_cases hqp : q = p
      . rw [hqp, Function.update_self] at hq
        rcases hsleeps hq with hb | hp
        . exact .inl hb
        . exact .inr (.inl hp)
      . rw [Function.update_of_ne hqp] at hq
        exact .inr (.inr ⟨hqp, hq⟩)
    have hold : B s'.data ∨ ∃ r, (s.place r).sleeps = true := by
      rcases hmain with hb | hp | ⟨_, hq⟩
      . exact .inl hb
      . exact .inr ⟨p, hp⟩
      . exact .inr ⟨q, hq⟩
    rcases hold with hb | ⟨r, hr⟩
    . exact .inl hb
    . rcases hB with hB | ⟨hx, _⟩
      . rcases h.sleeps r hr with hb | ⟨r', hr'⟩
        . exact .inl (hB hb)
        . refine .inr ⟨r', ?_⟩
          rw [hplace]
          by_cases hrp : r' = p
          . rw [hrp, Function.update_self]
            exact howes (hrp ▸ hr')
          . rwa [Function.update_of_ne hrp]
      . refine .inr ⟨p, ?_⟩
        rw [hplace, Function.update_self]
        exact hx

theorem Inv.waking (h : Inv J B s) (hp : s.place p = .waking)
    : Inv J B (s.wakeAll.move p .inside s.lock none) := by
  have hqueued : (s.place p).queued = true := by
    rw [hp]
    rfl
  have hawake : Inv J B s.wakeAll := by
    have hplace : ∀ q, s.wakeAll.place q = if s.place q = .asleep then .woken else s.place q := fun _ => rfl
    refine ⟨h.data, ?_, ?_, ?_, ?_⟩
    . intro q
      rw [hplace]
      split
      . next hq => exact (h.lock q).trans (by rw [hq]; exact Iff.rfl)
      . exact h.lock q
    . intro q
      rw [hplace]
      split
      . next hq => exact (h.queue q).trans (by rw [hq]; exact Iff.rfl)
      . exact h.queue q
    . intro q hq
      rw [hplace] at hq
      split at hq
      . cases hq
      . exact h.commits q hq
    . intro q hq
      rw [hplace] at hq
      split at hq
      . cases hq
      . rcases h.sleeps q hq with hb | ⟨r, hr⟩
        . exact .inl hb
        . refine .inr ⟨r, ?_⟩
          rw [hplace, if_neg]
          . exact hr
          . intro hasleep
            rw [hasleep] at hr
            cases hr
  have hp' : s.wakeAll.place p = .waking := by
    show (if s.place p = .asleep then Place.woken else s.place p) = .waking
    rw [hp]
    rfl
  -- nobody is left who sleeps: those who are about to would need the second lock
  have hnone : ∀ q, (s.wakeAll.place q).sleeps = false := by
    intro q
    cases hx : s.wakeAll.place q with
    | asleep =>
      have : (if s.place q = .asleep then Place.woken else s.place q) = .asleep := hx
      split at this
      . cases this
      . next hne => exact absurd this hne
    | sleepSwitch =>
      have := hawake.queued_unique (p := p) (q := q) (by rw [hp']; rfl) (by rw [hx]; rfl)
      rw [this, hp'] at hx
      cases hx
    | _ => rfl
  refine ⟨h.data, ?_, ?_, ?_, ?_⟩
  . apply Hands.spec hawake.lock
    apply Hands.keep
    rw [hp']
    rfl
  . apply Hands.spec hawake.queue
    apply Hands.drop
    . rw [hp']
      rfl
    . rfl
  . intro q hq
    by_cases hqp : q = p
    . rw [hqp, State.move_self] at hq
      cases hq
    . rw [State.move_of_ne _ _ _ _ hqp] at hq
      exact hawake.commits q hq
  . intro q hq
    by_cases hqp : q = p
    . rw [hqp, State.move_self] at hq
      cases hq
    . rw [State.move_of_ne _ _ _ _ hqp, hnone q] at hq
      cases hq

theorem Inv.still {y : Place} {lock queue : Option ι} (h : Inv J B s) (hp : s.place p = y)
    (hlock : Hands s.lock p y.locked x.locked lock) (hqueue : Hands s.queue p y.queued x.queued queue)
    (hmay : (y.owes = true → x.owes = true) ∧ (x.commits = true → y.commits = true) ∧
      (x.sleeps = true → y.commits = true ∨ y.sleeps = true))
    : Inv J B (s.move p x lock queue) := by
  subst hp
  obtain ⟨howes, hcommits, hsleeps⟩ := hmay
  have hsleeps' : x.sleeps = true → B s.data ∨ (s.place p).sleeps = true := fun hx => (hsleeps hx).imp (h.commits p) id
  have hcommits' : x.commits = true → B s.data := fun hx => h.commits p (hcommits hx)
  have hplace : (s.move p x lock queue).place = Function.update s.place p x := rfl
  exact h.move hplace h.data hlock hqueue (.inl id) howes hcommits' hsleeps'

theorem act_inv (hM : Sound M J B) (h : Inv J B s) (hp : s.place p = .inside) {d : σ} {l : μ} {n : Next}
    (hact : M.act p (s.killed p) (s.loc p) s.data = (d, l, n))
    : Inv J B { s.setPlace p n.place with data := d, loc := Function.update s.loc p l } := by
  obtain ⟨hJ, hwait, hkeep⟩ := hM.act h.data hact
  apply h.move (p := p) (x := n.place) rfl hJ
  . apply Hands.keep
    rw [hp]
    cases n <;> rfl
  . apply Hands.keep
    rw [hp]
    cases n <;> rfl
  . by_cases hn : n = .notify
    . refine .inr ⟨?_, ?_⟩
      . rw [hn]
        rfl
      . rw [hp]
        rfl
    . exact .inl (hkeep hn)
  . intro hx
    rw [hp] at hx
    cases hx
  . intro hx
    cases n with
    | wait => exact hwait rfl
    | _ => cases hx
  . intro hx
    cases n <;> cases hx

theorem advance_inv (hM : Sound M J B) (h : Inv J B s) (hs : M.advance s p = some s') : Inv J B s' := by
  unfold Program.advance at hs
  split at hs
  . cases hs
  . next hp =>
    split at hs
    . next hfree =>
      cases hs
      exact h.still hp (.take hfree rfl) (.keep rfl) (by decide)
    . cases hs
  . next hp =>
    cases hs
    exact act_inv hM h hp rfl
  . next hp =>
    split at hs
    . next hfree =>
      cases hs
      exact h.still hp (.keep rfl) (.take hfree rfl) (by decide)
    . cases hs
  . next hp =>
    cases hs
    exact h.waking hp
  . next hp =>
    cases hs
    exact h.still hp (.drop rfl rfl) (.keep rfl) (by decide)
  . next hp =>
    split at hs
    . next hfree =>
      cases hs
      exact h.still hp (.keep rfl) (.take hfree rfl) (by decide)
    . cases hs
  . next hp =>
    cases hs
    exact h.still hp (.drop rfl rfl) (.keep rfl) (by decide)
  . next hp =>
    cases hs
    exact h.still hp (.keep rfl) (.drop rfl rfl) (by decide)
  . cases hs
  . next hp =>
    split at hs
    . next hfree =>
      cases hs
      exact h.still hp (.keep rfl) (.take hfree rfl) (by decide)
    . cases hs
  . next hp =>
    cases hs
    exact h.still hp (.keep rfl) (.drop rfl rfl) (by decide)
  . next hp =>
    cases hs
    exact h.still hp (.keep rfl) (.drop rfl rfl) (by decide)

theorem outside_inv (hM : Sound M J B) (h : Inv J B s) (hp : s.place p = .out) {e : ε} {d : σ} {l : μ} {enters : Bool}
    (hout : M.outside p e (s.loc p) s.data = some (d, l, enters))
    : Inv J B { s.setPlace p (if enters then .enter else .out) with data := d, loc := Function.update s.loc p l } := by
  obtain ⟨hJ, hkeep⟩ := hM.outside h.data hout
  apply h.move (p := p) (x := if enters then .enter else .out) rfl hJ _ _ (.inl hkeep)
  . intro hx
    rw [hp] at hx
    cases hx
  . cases enters <;> nofun
  . cases enters <;> nofun
  . rw [hp]
    cases enters <;> exact .keep rfl
  . rw [hp]
    cases enters <;> exact .keep rfl

theorem step_inv (hM : Sound M J B) (h : Inv J B s) (hs : M.step s e = some (s', o)) : Inv J B s' := by
  unfold Program.step at hs
  split at hs
  . next p e =>
    split at hs
    . next hp =>
      split at hs
      . next d l enters hout =>
        cases hs
        exact outside_inv hM h hp hout
      . cases hs
    . cases hs
  . next p =>
    split at hs
    . next hfree =>
      cases hs
      exact h.still hfree.1 (.keep rfl) (.take hfree.2 rfl) (by decide)
    . cases hs
  . next p q =>
    split at hs
    . cases hs
      have : Inv J B (s.wake q) := by
        unfold State.wake
        split
        . next hq => exact h.still hq (.keep rfl) (.keep rfl) (by decide)
        . exact h
      exact ⟨this.data, this.lock, this.queue, this.commits, this.sleeps⟩
    . cases hs
  . next p =>
    obtain ⟨s1, hs1, heq⟩ := Option.map_eq_some_iff.mp hs
    cases heq
    exact advance_inv hM h hs1

omit [DecidableEq ι] in
/-- Whenever the lock is free, nobody sleeps without a reason. -/
theorem Inv.asleep (h : Inv J B s) (hfree : s.lock = none) (hp : s.place p = .asleep) : B s.data := by
  rcases h.sleeps p (by rw [hp]; rfl) with hb | ⟨q, hq⟩
  . exact hb
  . rw [(h.lock q).mpr (Place.locked_of_owes hq)] at hfree
    cases hfree

theorem advance_still (hs : M.advance s p = some s') (hp : s.place p ≠ .inside)
    : s'.data = s.data ∧ s'.loc = s.loc := by
  unfold Program.advance at hs
  split at hs
  case h_3 hin => exact absurd hin hp
  case h_2 | h_4 | h_7 | h_11 =>
    split at hs
    . cases hs
      exact ⟨rfl, rfl⟩
    . cases hs
  all_goals
    cases hs <;> exact ⟨rfl, rfl⟩

theorem step_data (hs : M.step s e = some (s', o))
    : (∃ p l n, e = .step p ∧ s.place p = .inside ∧ M.act p (s.killed p) (s.loc p) s.data = (s'.data, l, n) ∧
        s'.loc = Function.update s.loc p l) ∨
      (∃ p a l enters, e = .outside p a ∧ M.outside p a (s.loc p) s.data = some (s'.data, l, enters) ∧
        s'.loc = Function.update s.loc p l) ∨
      (s'.data = s.data ∧ s'.loc = s.loc ∧ ∀ p, e = .step p → s.place p ≠ .inside) := by
  unfold Program.step at hs
  split at hs
  . next p a =>
    split at hs
    . split at hs
      . next d l enters hout =>
        cases hs
        exact .inr (.inl ⟨p, a, l, enters, rfl, hout, rfl⟩)
      . cases hs
    . cases hs
  . split at hs
    . cases hs
      exact .inr (.inr ⟨rfl, rfl, nofun⟩)
    . cases hs
  . next p q =>
    split at hs
    . cases hs
      refine .inr (.inr ⟨?_, ?_, nofun⟩)
      . show (s.wake q).data = s.data
        unfold State.wake
        split <;> rfl
      . show (s.wake q).loc = s.loc
        unfold State.wake
        split <;> rfl
    . cases hs
  . next p =>
    obtain ⟨s1, hs1, heq⟩ := Option.map_eq_some_iff.mp hs
    cases heq
    by_cases hp : s.place p = .inside
    . unfold Program.advance at hs1
      rw [hp] at hs1
      cases hs1
      exact .inl ⟨p, _, _, rfl, hp, rfl, rfl⟩
    . obtain ⟨hdata, hloc⟩ := advance_still hs1 hp
      refine .inr (.inr ⟨hdata, hloc, ?_⟩)
      intro q hq
      cases hq
      exact hp

theorem step_inside (hs : M.step s (.step p) = some (s', o)) (hp : s.place p = .inside)
    : s'.place p = (M.act p (s.killed p) (s.loc p) s.data).2.2.place := by
  obtain ⟨s1, hs1, heq⟩ := Option.map_eq_some_iff.mp hs
  cases heq
  unfold Program.advance at hs1
  rw [hp] at hs1
  cases hs1
  exact Function.update_self _ _ _

theorem always_of_sound (hM : Sound M J B) {I : State ι σ μ → Prop} (hI : ∀ s, Inv J B s → I s) {data : σ}
    {loc : ι → μ} (h : J data loc) (es : List (Event ι ε))
    : Machine.Always M.step I (State.init data loc) es := by
  apply Machine.always_of_invariant (I := Inv J B) _ hI (inv_init h)
  intro s e o s' hs hstep
  exact step_inv hM hs hstep

end

end Monitor
