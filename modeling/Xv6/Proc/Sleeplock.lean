import Xv6.Lib.Monitor

/-!
`sleeplock.c`: one sleep-lock, and any number of processes that acquire and release it. `lk->lk` is the lock of the
monitor and `ptable.lock` the second one, so `sleep`, `wakeup` and `kill` of `proc.c` are the steps of the monitor.
Wakeups on other channels and whatever else `ptable.lock` is taken for are its place `elsewhere`.

`ι` is the type of processes and `pid p` the pid of `p`.
-/

namespace Xv6

structure Sleeplock where
  locked : Bool
  pid : Int
  deriving DecidableEq, Repr

namespace Sleeplock

inductive Call where
  | acquiresleep
  | releasesleep
  | holdingsleep
  deriving DecidableEq, Repr

-- `release` is a place in `releasesleep`, behind the `wakeup`.
inductive Pc where
  | idle
  | acquiresleep
  | releasesleep
  | release
  | holdingsleep
  deriving DecidableEq, Repr

-- `has` says that the process is between the two assignments to `lk->locked`, and `ret` what `holdingsleep` returned.
structure Loc where
  pc : Pc
  has : Bool
  ret : Bool
  deriving DecidableEq, Repr

variable {ι : Type} (pid : ι → Int)

def act (p : ι) (_ : Bool) (l : Loc) (lk : Sleeplock) : Sleeplock × Loc × Monitor.Next :=
  match l.pc with
  | .idle => (lk, l, .leave)
  | .acquiresleep =>
    if lk.locked then (lk, l, .wait)
    else ({ locked := true, pid := pid p }, { l with pc := .idle, has := true }, .leave)
  | .releasesleep => ({ locked := false, pid := 0 }, { l with pc := .release, has := false }, .notify)
  | .release => (lk, { l with pc := .idle }, .leave)
  | .holdingsleep => (lk, { l with pc := .idle, ret := lk.locked && lk.pid = pid p }, .leave)

-- `releasesleep` is called by the process that has the lock.
def outside (_ : ι) (c : Call) (l : Loc) (lk : Sleeplock) : Option (Sleeplock × Loc × Bool) :=
  if l.pc ≠ .idle then none
  else
    match c with
    | .acquiresleep => some (lk, { l with pc := .acquiresleep }, true)
    | .releasesleep => if l.has then some (lk, { l with pc := .releasesleep }, true) else none
    | .holdingsleep => some (lk, { l with pc := .holdingsleep }, true)

def program : Monitor.Program ι Sleeplock Loc Call where
  act := act pid
  outside := outside

abbrev State (ι : Type) := Monitor.State ι Sleeplock Loc

-- Behind `initsleeplock`.
def State.init : State ι :=
  Monitor.State.init { locked := false, pid := 0 } fun _ => { pc := .idle, has := false, ret := false }

structure Inv (lk : Sleeplock) (loc : ι → Loc) : Prop where
  unique : ∀ p q, (loc p).has → (loc q).has → p = q
  pid : ∀ p, (loc p).has → lk.locked ∧ lk.pid = pid p
  releases : ∀ p, (loc p).pc = .releasesleep → (loc p).has
  owner : lk.locked → ∃ p, (loc p).has

variable {pid} [DecidableEq ι] {lk : Sleeplock} {loc : ι → Loc} {p : ι} {l : Loc}

theorem Inv.same (h : Inv pid lk loc) (hhas : l.has = (loc p).has) (hpc : l.pc = .releasesleep → l.has)
    : Inv pid lk (Function.update loc p l) := by
  have hsame : ∀ q, (Function.update loc p l q).has = (loc q).has := by
    intro q
    by_cases hq : q = p
    . rw [hq, Function.update_self, hhas]
    . rw [Function.update_of_ne hq]
  constructor
  . intro q r hq hr
    rw [hsame] at hq hr
    exact h.unique q r hq hr
  . intro q hq
    rw [hsame] at hq
    exact h.pid q hq
  . intro q hq
    by_cases hqp : q = p
    . rw [hqp, Function.update_self] at hq ⊢
      exact hpc hq
    . rw [Function.update_of_ne hqp] at hq ⊢
      exact h.releases q hq
  . intro hlocked
    obtain ⟨q, hq⟩ := h.owner hlocked
    exact ⟨q, by rwa [hsame]⟩

theorem Inv.acquire (h : Inv pid lk loc) (hfree : lk.locked = false)
    : Inv pid { locked := true, pid := pid p } (Function.update loc p { l with pc := .idle, has := true }) := by
  -- while the lock is free nobody has it
  have hnone : ∀ q, (loc q).has → q = p := by
    intro q hq
    have := (h.pid q hq).1
    rw [hfree] at this
    cases this
  have hall : ∀ q, (Function.update loc p { l with pc := .idle, has := true } q).has → q = p := by
    intro q hq
    by_contra hqp
    rw [Function.update_of_ne hqp] at hq
    exact hqp (hnone q hq)
  constructor
  . intro q r hq hr
    rw [hall q hq, hall r hr]
  . intro q hq
    exact ⟨rfl, by rw [hall q hq]⟩
  . intro q hq
    by_cases hqp : q = p
    . rw [hqp, Function.update_self] at hq
      cases hq
    . rw [Function.update_of_ne hqp] at hq ⊢
      exact h.releases q hq
  . intro _
    exact ⟨p, by rw [Function.update_self]⟩

theorem Inv.release (h : Inv pid lk loc) (hhas : (loc p).has)
    : Inv pid { locked := false, pid := 0 } (Function.update loc p { l with pc := .release, has := false }) := by
  have hnone : ∀ q, (Function.update loc p { l with pc := .release, has := false } q).has = false := by
    intro q
    by_cases hqp : q = p
    . rw [hqp, Function.update_self]
    . rw [Function.update_of_ne hqp]
      by_contra hq
      exact hqp (h.unique q p (by simpa using hq) hhas)
  constructor
  . intro q r hq
    rw [hnone q] at hq
    cases hq
  . intro q hq
    rw [hnone q] at hq
    cases hq
  . intro q hq
    by_cases hqp : q = p
    . rw [hqp, Function.update_self] at hq
      cases hq
    . rw [Function.update_of_ne hqp] at hq
      have := hnone q
      rw [Function.update_of_ne hqp, h.releases q hq] at this
      cases this
  . nofun

theorem program_sound : Monitor.Sound (program pid) (Inv pid) (fun lk => lk.locked = true) where
  act {lk lk' loc p k l n} h hact := by
    change act pid p k (loc p) lk = (lk', l, n) at hact
    unfold act at hact
    split at hact
    . cases hact
      refine ⟨h.same rfl (h.releases p), nofun, fun _ => id⟩
    . next hpc =>
      split at hact
      . next hlocked =>
        cases hact
        exact ⟨h.same rfl (h.releases p), fun _ => hlocked, fun _ => id⟩
      . next hfree =>
        cases hact
        exact ⟨h.acquire (by simpa using hfree), nofun, fun _ _ => rfl⟩
    . next hpc =>
      cases hact
      exact ⟨h.release (h.releases p hpc), nofun, fun hn => absurd rfl hn⟩
    . cases hact
      exact ⟨h.same rfl nofun, nofun, fun _ => id⟩
    . cases hact
      exact ⟨h.same rfl nofun, nofun, fun _ => id⟩
  outside {lk lk' loc p c l enters} h hout := by
    change outside p c (loc p) lk = some (lk', l, enters) at hout
    unfold outside at hout
    split at hout
    . cases hout
    . split at hout
      . cases hout
        exact ⟨h.same rfl nofun, id⟩
      . split at hout
        . next hhas =>
          cases hout
          exact ⟨h.same rfl fun _ => hhas, id⟩
        . cases hout
      . cases hout
        exact ⟨h.same rfl nofun, id⟩

/-- At any time at most one process has the lock, the lock has its pid, and nobody sleeps while it is free. -/
theorem sleeplock_safe (pid : ι → Int) (es : List (Monitor.Event ι Call))
    : Machine.Always (program pid).step
        (fun s => (∀ p q, (s.loc p).has → (s.loc q).has → p = q) ∧
          (∀ p, (s.loc p).has → s.data.locked ∧ s.data.pid = pid p) ∧
          (s.lock = none → ∀ p, s.place p = .asleep → s.data.locked))
        State.init es := by
  apply Monitor.always_of_sound program_sound
  . intro s hs
    exact ⟨hs.data.unique, hs.data.pid, fun hfree p hp => hs.asleep hfree hp⟩
  . exact ⟨nofun, nofun, nofun, nofun⟩

omit [DecidableEq ι] in
-- With the pids all different, `holdingsleep` tells whether the caller has the lock.
theorem holdingsleep_ret (h : Inv pid lk loc) (hpid : Function.Injective pid)
    : (lk.locked && lk.pid = pid p) = (loc p).has := by
  rw [Bool.eq_iff_iff]
  constructor
  . intro hret
    rw [Bool.and_eq_true, decide_eq_true_eq] at hret
    obtain ⟨q, hq⟩ := h.owner hret.1
    rw [(h.pid q hq).2] at hret
    rwa [← hpid hret.2]
  . intro hhas
    have := h.pid p hhas
    simp [this.1, this.2]

end Sleeplock

end Xv6
