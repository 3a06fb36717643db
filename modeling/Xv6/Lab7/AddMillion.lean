import Mathlib.Data.Fintype.Basic
import Xv6.Lib.Crowd
import Xv6.Lib.Machine

/-!
`addmillion.c`: `main` and its `n` threads in `increment`, where `n` is `threadNum`. A step is one statement, and
`account_balance++` is two, a load and a store. `arg` is one cell, which every iteration of the loop of `main` uses
again and which a thread reads in its first step.
-/

namespace Xv6.Lab7.AddMillion

inductive Pc where
  | unborn
  | start
  | lock (mil : Nat)
  | outer (mil j : Nat)
  | inner (mil j i : Nat)
  | load (mil j i : Nat)
  | store (mil j i balance : Nat)
  | unlock
  | done
  deriving DecidableEq, Repr

inductive MainPc where
  | loop (i : Nat)
  | arg (i : Nat)
  | addLeft (i : Nat)
  | create (i : Nat)
  | started (i : Nat)
  | join (i : Nat)
  | finished (i : Nat)
  | balance
  | done
  deriving DecidableEq, Repr

structure State (n : Nat) where
  arg : Nat
  balance : Nat
  lock : Option (Fin n)
  threads : Fin n → Pc
  main : MainPc

def State.init (n : Nat) : State n where
  arg := 0
  balance := 0
  lock := none
  threads _ := .unborn
  main := .loop 0

inductive Event (n : Nat) where
  | main
  | thread (t : Fin n)
  deriving DecidableEq, Repr

inductive Output where
  | silent
  | started (i : Nat)
  | finished (i : Nat)
  | balance (b : Nat)
  deriving DecidableEq, Repr

def each (n : Nat) : Nat :=
  2048 / n

def left (n : Nat) : Nat :=
  2048 % n

variable {n : Nat}

def State.setThread (s : State n) (t : Fin n) (pc : Pc) : State n :=
  { s with threads := Function.update s.threads t pc }

def increment (s : State n) (t : Fin n) : Option (State n × Output) :=
  match s.threads t with
  | .unborn => none
  | .start => some (s.setThread t (.lock s.arg), .silent)
  | .lock mil => if s.lock = none then some ({ s with lock := some t }.setThread t (.outer mil 0), .silent) else none
  | .outer mil j => some (s.setThread t (if j < mil then .inner mil j 0 else .unlock), .silent)
  | .inner mil j i => some (s.setThread t (if i < 1000000 then .load mil j i else .outer mil (j + 1)), .silent)
  | .load mil j i => some (s.setThread t (.store mil j i s.balance), .silent)
  | .store mil j i b => some ({ s with balance := b + 1 }.setThread t (.inner mil j (i + 1)), .silent)
  | .unlock => some ({ s with lock := none }.setThread t .done, .silent)
  | .done => none

def main (s : State n) : Option (State n × Output) :=
  match s.main with
  | .loop i => some ({ s with main := if i < n then .arg i else .join 0 }, .silent)
  | .arg i => some ({ s with arg := each n, main := .addLeft i }, .silent)
  | .addLeft i => some ({ s with arg := if i = 0 then s.arg + left n else s.arg, main := .create i }, .silent)
  | .create i => if h : i < n then some ({ s with main := .started i }.setThread ⟨i, h⟩ .start, .silent) else none
  | .started i => some ({ s with main := .loop (i + 1) }, .started i)
  | .join i =>
    if h : i < n then
      if s.threads ⟨i, h⟩ = .done then some ({ s with main := .finished i }, .silent) else none
    else some ({ s with main := .balance }, .silent)
  | .finished i => some ({ s with main := .join (i + 1) }, .finished i)
  | .balance => some ({ s with main := .done }, .balance s.balance)
  | .done => none

def step : Machine (State n) (Event n) Output := fun s e =>
  match e with
  | .main => main s
  | .thread t => increment s t

-- When `main` stores the share of the second thread, the first one has read its own.
def TakesShare (s : State n) : Event n → Prop
  | .main => s.main = .arg 1 → ∀ t : Fin n, t.val = 0 → s.threads t ≠ .start
  | .thread _ => True

instance (s : State n) : (e : Event n) → Decidable (TakesShare s e)
  | .main => inferInstanceAs (Decidable (_ → _))
  | .thread _ => .isTrue trivial

-- The share that is computed for the thread `i`, and for all threads from `c` on.
def share (n i : Nat) : Nat :=
  each n + if i = 0 then left n else 0

def shares (n c : Nat) : Nat :=
  each n * (n - c) + if c = 0 then left n else 0

theorem shares_zero (n : Nat) : shares n 0 = 2048 := by
  unfold shares each left
  rw [if_pos rfl, Nat.sub_zero, Nat.mul_comm, Nat.div_add_mod]

theorem shares_eq {c : Nat} (h : c < n) : shares n c = share n c + shares n (c + 1) := by
  unfold shares share
  have : n - c = n - (c + 1) + 1 := by omega
  rw [this, Nat.mul_add, Nat.mul_one, if_neg (Nat.succ_ne_zero c)]
  omega

theorem shares_self (h : 0 < n) : shares n n = 0 := by
  unfold shares
  rw [if_neg (by omega), Nat.sub_self, Nat.mul_zero]

theorem share_le (h : 0 < n) (i : Nat) : share n i ≤ 2048 := by
  have h0 := shares_zero n
  rw [shares_eq h] at h0
  have : share n i ≤ share n 0 := by
    unfold share
    split <;> simp
  omega

@[irreducible]
def million : Nat :=
  1000000

theorem million_eq : million = 1000000 := by
  rw [million]

-- What a thread has yet to add; one that has not read `arg` would read `a`.
def Pc.owed (a : Nat) : Pc → Nat
  | .start => a * million
  | .lock mil => mil * million
  | .outer mil j => (mil - j) * million
  | .inner mil j i | .load mil j i | .store mil j i _ => (mil - (j + 1)) * million + (million - i)
  | _ => 0

@[simp]
theorem Pc.owed_unborn (a : Nat) : Pc.unborn.owed a = 0 := rfl

@[simp]
theorem Pc.owed_done (a : Nat) : Pc.done.owed a = 0 := rfl

-- The steps that a thread has yet to take.
def Pc.steps : Pc → Nat
  | .unborn => 2048 * 3000002 + 5
  | .start => 2048 * 3000002 + 4
  | .lock mil => mil * 3000002 + 3
  | .outer mil j => (mil - j) * 3000002 + 2
  | .inner mil j i => (mil - (j + 1)) * 3000002 + 3 * (1000000 - i) + 3
  | .load mil j i => (mil - (j + 1)) * 3000002 + 3 * (1000000 - i) + 2
  | .store mil j i _ => (mil - (j + 1)) * 3000002 + 3 * (1000000 - i) + 1
  | .unlock => 1
  | .done => 0

def Pc.holds : Pc → Prop
  | .outer _ _ | .inner _ _ _ | .load _ _ _ | .store _ _ _ _ | .unlock => True
  | _ => False

def Pc.ok : Pc → Prop
  | .outer mil j => j ≤ mil
  | .inner mil j i => j < mil ∧ i ≤ 1000000
  | .load mil j i | .store mil j i _ => j < mil ∧ i < 1000000
  | _ => True

-- The threads that `main` has created, and those that it has joined.
def MainPc.created (n : Nat) : MainPc → Nat
  | .loop i | .arg i | .addLeft i | .create i => i
  | .started i => i + 1
  | _ => n

def MainPc.joined (n : Nat) : MainPc → Nat
  | .join i => i
  | .finished i => i + 1
  | .balance | .done => n
  | _ => 0

def MainPc.steps (n : Nat) : MainPc → Nat
  | .loop i => 5 * (n - i) + 2 * n + 4
  | .arg i => 5 * (n - i) + 2 * n + 3
  | .addLeft i => 5 * (n - i) + 2 * n + 2
  | .create i => 5 * (n - i) + 2 * n + 1
  | .started i => 5 * (n - i) + 2 * n
  | .join i => 2 * (n - i) + 3
  | .finished i => 2 * (n - i) + 2
  | .balance => 1
  | .done => 0

def MainPc.ok (n : Nat) : MainPc → Prop
  | .loop i => i ≤ n
  | .arg i | .addLeft i | .create i | .started i | .finished i => i < n
  | _ => True

-- What `arg` holds.
def MainPc.argOk (n a : Nat) : MainPc → Prop
  | .loop i | .arg i => i = 0 ∨ a = share n (i - 1)
  | .addLeft _ => a = each n
  | .create i | .started i => a = share n i
  | _ => 0 < n → a = share n (n - 1)

structure Sound (s : State n) : Prop where
  main : s.main.ok n
  arg : s.main.argOk n s.arg
  created : ∀ t, s.threads t = .unborn ↔ s.main.created n ≤ t.val
  joined : ∀ t : Fin n, t.val < s.main.joined n → s.threads t = .done
  threads : ∀ t, (s.threads t).ok
  holds : ∀ t, (s.threads t).holds → s.lock = some t
  held : ∀ t, s.lock = some t → (s.threads t).holds
  stored : ∀ t mil j i b, s.threads t = .store mil j i b → b = s.balance

open Crowd

-- What the balance will be if the threads that have not read `arg` read what it holds now.
def State.worth (s : State n) : Nat :=
  s.balance + total (Pc.owed s.arg) s.threads + shares n (s.main.created n) * million

def State.steps (s : State n) : Nat :=
  s.main.steps n + total Pc.steps s.threads

variable {s s' : State n} {t : Fin n} {o : Output}

-- What a statement of `increment` does.
structure Moves (s : State n) (t : Fin n) (pc : Pc) (s' : State n) : Prop where
  arg : s'.arg = s.arg
  main : s'.main = s.main
  threads : s'.threads = Function.update s.threads t pc
  lock : (s'.lock = s.lock ∧ (pc.holds ↔ (s.threads t).holds)) ∨ (s.lock = none ∧ s'.lock = some t ∧ pc.holds) ∨
    (s'.lock = none ∧ (s.threads t).holds ∧ ¬ pc.holds)
  balance : s'.balance = s.balance ∨ (s.threads t).holds
  unborn : s.threads t ≠ .unborn
  ne_unborn : pc ≠ .unborn
  done : s.threads t ≠ .done
  ok : pc.ok
  stored : ∀ mil j i b, pc = .store mil j i b → b = s'.balance
  owed : s'.balance + pc.owed s.arg = s.balance + (s.threads t).owed s.arg
  steps : pc.steps < (s.threads t).steps
  ne_start : pc ≠ .start

theorem Sound.arg_le (hx : Sound s) (h : s.threads t = .start) : s.arg ≤ 2048 := by
  have hn : 0 < n := by
    have := t.isLt
    omega
  have harg := hx.arg
  have hcreated : ¬ s.main.created n ≤ t.val := by
    rw [← hx.created t, h]
    simp
  have heach : each n ≤ share n 1 := by simp [share]
  have := share_le hn 1
  unfold MainPc.argOk at harg
  split at harg
  . next i hpc =>
    rw [hpc, MainPc.created] at hcreated
    rcases harg with harg | harg
    . omega
    . exact harg ▸ share_le hn _
  . next i hpc =>
    rw [hpc, MainPc.created] at hcreated
    rcases harg with harg | harg
    . omega
    . exact harg ▸ share_le hn _
  . omega
  . exact harg ▸ share_le hn _
  . exact harg ▸ share_le hn _
  . exact harg hn ▸ share_le hn _

theorem increment_moves (hx : Sound s) (hs : increment s t = some (s', o)) : ∃ pc, Moves s t pc s' := by
  have hok := hx.threads t
  have hstored := hx.stored t
  have hle := hx.arg_le (t := t)
  unfold increment at hs
  cases hpc : s.threads t with
  | unborn => simp [hpc] at hs
  | done => simp [hpc] at hs
  | start =>
    have := hle hpc
    rw [hpc] at hs
    cases hs
    refine ⟨.lock s.arg, ?_⟩
    constructor <;> simp [State.setThread, hpc, Pc.holds, Pc.ok, Pc.owed, Pc.steps, million_eq]
    omega
  | lock mil =>
    rw [hpc] at hs
    dsimp only at hs
    split at hs
    . next hlock =>
      cases hs
      refine ⟨.outer mil 0, ?_⟩
      constructor <;> simp [State.setThread, hpc, hlock, Pc.holds, Pc.ok, Pc.owed, Pc.steps, million_eq]
    . cases hs
  | outer mil j =>
    rw [hpc, Pc.ok] at hok
    rw [hpc] at hs
    dsimp only at hs
    split at hs
    . cases hs
      refine ⟨.inner mil j 0, ?_⟩
      constructor <;> simp [State.setThread, hpc, Pc.holds, Pc.ok, Pc.owed, Pc.steps, million_eq] <;> omega
    . cases hs
      refine ⟨.unlock, ?_⟩
      constructor <;> simp [State.setThread, hpc, Pc.holds, Pc.ok, Pc.owed, Pc.steps, million_eq]
      omega
  | inner mil j i =>
    rw [hpc, Pc.ok] at hok
    rw [hpc] at hs
    dsimp only at hs
    split at hs
    . cases hs
      refine ⟨.load mil j i, ?_⟩
      constructor <;> simp [State.setThread, hpc, Pc.holds, Pc.ok, Pc.owed, Pc.steps, million_eq]
      omega
    . cases hs
      refine ⟨.outer mil (j + 1), ?_⟩
      constructor <;> simp [State.setThread, hpc, Pc.holds, Pc.ok, Pc.owed, Pc.steps, million_eq] <;> omega
  | load mil j i =>
    rw [hpc, Pc.ok] at hok
    rw [hpc] at hs
    cases hs
    refine ⟨.store mil j i s.balance, ?_⟩
    constructor <;> simp [State.setThread, hpc, hok, Pc.holds, Pc.ok, Pc.owed, Pc.steps, million_eq]
    grind
  | store mil j i b =>
    have hb := hstored mil j i b hpc
    rw [hpc, Pc.ok] at hok
    rw [hpc] at hs
    cases hs
    refine ⟨.inner mil j (i + 1), ?_⟩
    constructor <;> simp [State.setThread, hpc, Pc.holds, Pc.ok, Pc.owed, Pc.steps, million_eq] <;> omega
  | unlock =>
    rw [hpc] at hs
    cases hs
    refine ⟨.done, ?_⟩
    constructor <;> simp [State.setThread, hpc, Pc.holds, Pc.ok, Pc.owed, Pc.steps]

theorem Moves.sound {pc : Pc} (hm : Moves s t pc s') (hx : Sound s) : Sound s' := by
  obtain ⟨harg, hmain, hthreads, hlock, hbalance, hunborn, hne, hdone, hok, hstored, -, -⟩ := hm
  have hself : s'.threads t = pc := by rw [hthreads, Function.update_self]
  have hother : ∀ u, u ≠ t → s'.threads u = s.threads u := by
    intro u hu
    rw [hthreads, Function.update_of_ne hu]
  constructor
  . rw [hmain]
    exact hx.main
  . rw [hmain, harg]
    exact hx.arg
  . intro u
    rw [hmain, ← hx.created u]
    by_cases hu : u = t
    . subst hu
      rw [hself]
      exact iff_of_false hne hunborn
    . rw [hother u hu]
  . intro u hu
    rw [hmain] at hu
    have := hx.joined u hu
    by_cases hut : u = t
    . exact absurd (hut ▸ this) hdone
    . rw [hother u hut, this]
  . intro u
    by_cases hu : u = t
    . rwa [hu, hself]
    . rw [hother u hu]
      exact hx.threads u
  . intro u hu
    have htu : u ≠ t → s.lock = some u := by
      intro hut
      rw [hother u hut] at hu
      exact hx.holds u hu
    rcases hlock with ⟨hlock, hiff⟩ | ⟨hnone, hlock, hpc⟩ | ⟨hlock, hpc, hnot⟩
    . by_cases hut : u = t
      . rw [hut, hself, hiff] at hu
        rw [hlock, hut, hx.holds t hu]
      . rw [hlock, htu hut]
    . by_cases hut : u = t
      . rw [hlock, hut]
      . simp [htu hut] at hnone
    . by_cases hut : u = t
      . rw [hut, hself] at hu
        exact absurd hu hnot
      . have := htu hut
        rw [hx.holds t hpc, Option.some.injEq] at this
        exact absurd this.symm hut
  . intro u hu
    rcases hlock with ⟨hlock, hiff⟩ | ⟨hnone, hlock, hpc⟩ | ⟨hlock, hpc, hnot⟩
    . rw [hlock] at hu
      have := hx.held u hu
      by_cases hut : u = t
      . rw [hut, hself, hiff]
        exact hut ▸ this
      . rwa [hother u hut]
    . rw [hlock, Option.some.injEq] at hu
      rwa [← hu, hself]
    . rw [hlock] at hu
      cases hu
  . intro u mil j i b hu
    by_cases hut : u = t
    . rw [hut, hself] at hu
      exact hstored mil j i b hu
    . rw [hother u hut] at hu
      rw [hx.stored u mil j i b hu]
      rcases hbalance with hbalance | hpc
      . rw [hbalance]
      . have := hx.holds u (by rw [hu]; trivial)
        rw [hx.holds t hpc, Option.some.injEq] at this
        exact absurd this.symm hut

theorem Moves.worth {pc : Pc} (hm : Moves s t pc s') : s'.worth = s.worth := by
  have := total_update (Pc.owed s.arg) s.threads t pc
  have := hm.owed
  unfold State.worth
  rw [hm.arg, hm.main, hm.threads]
  omega

theorem Moves.steps_lt {pc : Pc} (hm : Moves s t pc s') : s'.steps < s.steps := by
  have := total_update Pc.steps s.threads t pc
  have := hm.steps
  unfold State.steps
  rw [hm.main, hm.threads]
  omega

theorem Sound.of_main (hx : Sound s) {arg : Nat} {pc : MainPc} (hmain : pc.ok n) (harg : pc.argOk n arg)
    (hcreated : pc.created n = s.main.created n)
    (hjoined : ∀ t : Fin n, t.val < pc.joined n → s.threads t = .done)
    : Sound { s with arg := arg, main := pc } := by
  obtain ⟨-, -, hxcreated, -, hok, hholds, hheld, hstored⟩ := hx
  rw [← hcreated] at hxcreated
  exact ⟨hmain, harg, hxcreated, hjoined, hok, hholds, hheld, hstored⟩

theorem Sound.create {i : Nat} (hx : Sound s) (hpc : s.main = .create i) (h : i < n)
    : Sound ({ s with main := .started i }.setThread ⟨i, h⟩ .start) := by
  obtain ⟨-, harg, hcreated, -, hok, hholds, hheld, hstored⟩ := hx
  rw [hpc] at harg hcreated
  have hself : s.threads ⟨i, h⟩ = .unborn := (hcreated ⟨i, h⟩).mpr (Nat.le_refl i)
  have hother : ∀ u, u ≠ ⟨i, h⟩ → Function.update s.threads ⟨i, h⟩ .start u = s.threads u := by
    intro u hu
    rw [Function.update_of_ne hu]
  unfold State.setThread
  constructor
  . exact h
  . exact harg
  . intro u
    by_cases hu : u = ⟨i, h⟩
    . simp [hu, MainPc.created]
    . have hne : u.val ≠ i := fun heq => hu (Fin.ext heq)
      dsimp only
      rw [hother u hu, hcreated u, MainPc.created, MainPc.created]
      omega
  . intro u hu
    exact absurd hu (Nat.not_lt_zero _)
  . intro u
    by_cases hu : u = ⟨i, h⟩
    . simp [hu, Pc.ok]
    . dsimp only
      rw [hother u hu]
      exact hok u
  . intro u hu
    by_cases hut : u = ⟨i, h⟩
    . simp [hut, Pc.holds] at hu
    . dsimp only at hu
      rw [hother u hut] at hu
      exact hholds u hu
  . intro u hu
    have := hheld u hu
    have hut : u ≠ ⟨i, h⟩ := by
      intro hut
      rw [hut, hself] at this
      exact this
    dsimp only
    rwa [hother u hut]
  . intro u mil j k b hu
    have hut : u ≠ ⟨i, h⟩ := by
      intro hut
      simp [hut] at hu
    dsimp only at hu
    rw [hother u hut] at hu
    exact hstored u mil j k b hu

theorem share_succ (n i : Nat) : share n (i + 1) = each n := by
  simp [share]

theorem main_sound (hx : Sound s) (hs : main s = some (s', o)) : Sound s' := by
  have hmain := hx.main
  have harg := hx.arg
  have hjoined := hx.joined
  unfold main at hs
  cases hpc : s.main with
  | loop i =>
    rw [hpc] at hs hmain harg
    cases hs
    dsimp only [MainPc.ok, MainPc.argOk] at hmain harg
    apply hx.of_main
    . split
      . next h => exact h
      . trivial
    . split
      . exact harg
      . next h =>
        intro hn
        have : i = n := by omega
        subst this
        rcases harg with hi | harg
        . omega
        . exact harg
    . rw [hpc]
      split
      . rfl
      . next h =>
        dsimp only [MainPc.created]
        omega
    . intro t ht
      split at ht <;> exact absurd ht (Nat.not_lt_zero _)
  | arg i =>
    rw [hpc] at hs hmain harg
    cases hs
    apply hx.of_main
    . exact hmain
    . exact rfl
    . rw [hpc]
      rfl
    . intro t ht
      exact absurd ht (Nat.not_lt_zero _)
  | addLeft i =>
    rw [hpc] at hs hmain harg
    cases hs
    apply hx.of_main
    . exact hmain
    . dsimp only [MainPc.argOk] at harg ⊢
      rw [harg, share]
      split <;> simp
    . rw [hpc]
      rfl
    . intro t ht
      exact absurd ht (Nat.not_lt_zero _)
  | create i =>
    rw [hpc] at hs hmain
    have hi : i < n := hmain
    dsimp only at hs
    rw [dif_pos hi] at hs
    cases hs
    exact hx.create hpc hi
  | started i =>
    rw [hpc] at hs hmain harg
    cases hs
    apply hx.of_main
    . exact hmain
    . exact Or.inr harg
    . rw [hpc]
      rfl
    . intro t ht
      exact absurd ht (Nat.not_lt_zero _)
  | join i =>
    rw [hpc] at hs hmain harg hjoined
    dsimp only at hs
    split at hs
    . next h =>
      split at hs
      . next hdone =>
        cases hs
        apply hx.of_main
        . exact h
        . exact harg
        . rw [hpc]
          rfl
        . intro t ht
          by_cases hti : t.val = i
          . have : t = ⟨i, h⟩ := Fin.ext hti
            rw [this, hdone]
          . apply hjoined t
            dsimp only [MainPc.joined] at ht ⊢
            omega
      . cases hs
    . next h =>
      cases hs
      apply hx.of_main
      . trivial
      . exact harg
      . rw [hpc]
        rfl
      . intro t ht
        apply hjoined t
        dsimp only [MainPc.joined] at ht ⊢
        omega
  | finished i =>
    rw [hpc] at hs hmain harg hjoined
    cases hs
    exact hx.of_main trivial harg (by rw [hpc]; rfl) hjoined
  | balance =>
    rw [hpc] at hs hmain harg hjoined
    cases hs
    exact hx.of_main trivial harg (by rw [hpc]; rfl) hjoined
  | done =>
    rw [hpc] at hs
    cases hs

theorem main_steps_lt (hx : Sound s) (hs : main s = some (s', o)) : s'.steps < s.steps := by
  have hmain := hx.main
  have hcreated := hx.created
  unfold main at hs
  unfold State.steps
  cases hpc : s.main with
  | loop i =>
    rw [hpc] at hs hmain
    cases hs
    dsimp only [MainPc.ok] at hmain
    split <;> simp only [MainPc.steps] <;> omega
  | create i =>
    rw [hpc] at hs hmain hcreated
    dsimp only at hs
    split at hs
    . next h =>
      cases hs
      have := total_update Pc.steps s.threads ⟨i, h⟩ .start
      rw [(hcreated ⟨i, h⟩).mpr (Nat.le_refl i)] at this
      simp only [MainPc.steps, Pc.steps, State.setThread] at this ⊢
      omega
    . cases hs
  | join i =>
    rw [hpc] at hs
    dsimp only at hs
    split at hs
    . split at hs
      . cases hs
        simp only [MainPc.steps]
        omega
      . cases hs
    . cases hs
      simp only [MainPc.steps]
      omega
  | done =>
    rw [hpc] at hs
    cases hs
  | _ =>
    rw [hpc] at hs hmain
    cases hs
    simp only [MainPc.steps, MainPc.ok] at hmain ⊢
    omega

-- What `arg` holds only matters to a thread that has not read it.
theorem total_owed_eq {f : Fin n → Pc} (h : ∀ t, f t ≠ .start) (a a' : Nat)
    : total (Pc.owed a) f = total (Pc.owed a') f := by
  apply total_congr
  intro t
  have := h t
  cases hpc : f t <;> simp_all [Pc.owed]

theorem total_owed_start {f : Fin n → Pc} {t : Fin n} (ht : f t = .start) (h : ∀ u, u ≠ t → f u ≠ .start)
    : ∃ x, ∀ a, total (Pc.owed a) f = x + a * million := by
  refine ⟨total (Pc.owed 0) (Function.update f t .done), ?_⟩
  intro a
  have hrest : total (Pc.owed a) (Function.update f t .done) = total (Pc.owed 0) (Function.update f t .done) := by
    apply total_owed_eq
    intro u
    by_cases hu : u = t
    . simp [hu]
    . rw [Function.update_of_ne hu]
      exact h u hu
  have := total_update (Pc.owed a) f t .done
  rw [ht, hrest] at this
  exact this.symm

-- Before the second thread is created only the first one can read `arg`.
theorem Sound.ne_start (hx : Sound s) (hc : s.main.created n ≤ 1) (h : t.val ≠ 0) : s.threads t ≠ .start := by
  have := (hx.created t).mpr (by omega)
  simp [this]

theorem Sound.owed_arg (hx : Sound s) {i : Nat} (hpc : s.main = .arg i)
    : total (Pc.owed (each n)) s.threads + (if TakesShare s .main then 0 else left n * million)
        =
      total (Pc.owed s.arg) s.threads := by
  have harg := hx.arg
  have hstart : ∀ t : Fin n, i ≤ 1 → t.val ≠ 0 → s.threads t ≠ .start := by
    intro t hi
    apply hx.ne_start
    rw [hpc]
    exact hi
  rw [hpc, MainPc.argOk] at harg
  match i, harg with
  | 0, _ =>
    rw [if_pos (by simp [TakesShare, hpc]), Nat.add_zero]
    apply total_owed_eq
    intro t
    have := (hx.created t).mpr (by rw [hpc]; exact Nat.zero_le _)
    simp [this]
  | 1, harg =>
    by_cases htakes : TakesShare s .main
    . rw [if_pos htakes, Nat.add_zero]
      apply total_owed_eq
      intro t
      by_cases ht : t.val = 0
      . exact htakes hpc t ht
      . exact hstart t (Nat.le_refl 1) ht
    . rw [if_neg htakes]
      simp only [TakesShare, hpc, forall_const, not_forall, not_not] at htakes
      obtain ⟨t, ht, hread⟩ := htakes
      have hother : ∀ u, u ≠ t → s.threads u ≠ .start := by
        intro u hu
        apply hstart u (Nat.le_refl 1)
        intro h0
        exact hu (Fin.ext (h0.trans ht.symm))
      obtain ⟨x, htotal⟩ := total_owed_start hread hother
      have heq : s.arg = each n + left n := by simpa [share] using harg
      rw [heq, htotal, htotal, Nat.add_mul, Nat.add_assoc]
  | k + 2, harg =>
    have : s.arg = each n := by simpa [share_succ] using harg
    rw [if_pos (by simp [TakesShare, hpc]), this, Nat.add_zero]

theorem Sound.owed_addLeft (hx : Sound s) {i : Nat} (hpc : s.main = .addLeft i)
    : total (Pc.owed (if i = 0 then s.arg + left n else s.arg)) s.threads = total (Pc.owed s.arg) s.threads := by
  split
  . next h =>
    apply total_owed_eq
    intro t
    have := (hx.created t).mpr (by rw [hpc, h]; exact Nat.zero_le _)
    simp [this]
  . rfl

theorem main_worth (hx : Sound s) (hs : main s = some (s', o))
    : s'.worth + (if TakesShare s .main then 0 else left n * million) = s.worth := by
  have hmain := hx.main
  have harg := hx.arg
  have hcreated := hx.created
  have hjoin : s.main ≠ .arg 1 → TakesShare s .main := fun h1 h2 => absurd h2 h1
  unfold main at hs
  unfold State.worth
  cases hpc : s.main with
  | loop i =>
    rw [hpc] at hs hmain
    rw [if_pos (hjoin (by simp [hpc]))]
    cases hs
    dsimp only [MainPc.ok] at hmain
    split
    . dsimp only [MainPc.created]
      rw [Nat.add_zero]
    . next h =>
      have hi : i = n := by omega
      dsimp only [MainPc.created]
      rw [hi, Nat.add_zero]
  | arg i =>
    have := hx.owed_arg hpc
    rw [hpc] at hs
    cases hs
    rw [← this]
    simp only [MainPc.created]
    rw [Nat.add_right_comm, Nat.add_assoc s.balance]
  | addLeft i =>
    have := hx.owed_addLeft hpc
    rw [hpc] at hs
    rw [if_pos (hjoin (by simp [hpc]))]
    cases hs
    rw [this]
    dsimp only [MainPc.created]
    rw [Nat.add_zero]
  | create i =>
    rw [hpc] at hs hmain harg hcreated
    rw [if_pos (hjoin (by simp [hpc]))]
    dsimp only at hs
    split at hs
    . next h =>
      cases hs
      have htotal : total (Pc.owed s.arg) (Function.update s.threads ⟨i, h⟩ .start)
          = total (Pc.owed s.arg) s.threads + s.arg * million := by
        have := total_update (Pc.owed s.arg) s.threads ⟨i, h⟩ .start
        rwa [(hcreated ⟨i, h⟩).mpr (Nat.le_refl i), Pc.owed_unborn, Pc.owed, Nat.add_zero] at this
      have hshares : shares n i = s.arg + shares n (i + 1) := by
        rw [shares_eq h]
        rw [show s.arg = share n i from harg]
      simp only [State.setThread, MainPc.created]
      rw [htotal, hshares, Nat.add_mul, Nat.add_zero, ← Nat.add_assoc, ← Nat.add_assoc]
    . cases hs
  | join i =>
    rw [hpc] at hs
    rw [if_pos (hjoin (by simp [hpc]))]
    dsimp only at hs
    split at hs
    . split at hs <;> cases hs
      dsimp only [MainPc.created]
      rw [Nat.add_zero]
    . cases hs
      dsimp only [MainPc.created]
      rw [Nat.add_zero]
  | done =>
    rw [hpc] at hs
    cases hs
  | _ =>
    rw [hpc] at hs
    rw [if_pos (hjoin (by simp [hpc]))]
    cases hs
    dsimp only [MainPc.created]
    rw [Nat.add_zero]

variable {e : Event n} {es : List (Event n)}

theorem step_sound (hx : Sound s) (hs : step s e = some (s', o)) : Sound s' := by
  cases e with
  | main => exact main_sound hx hs
  | thread t =>
    obtain ⟨pc, hm⟩ := increment_moves hx hs
    exact hm.sound hx

theorem step_steps_lt (hx : Sound s) (hs : step s e = some (s', o)) : s'.steps < s.steps := by
  cases e with
  | main => exact main_steps_lt hx hs
  | thread t =>
    obtain ⟨pc, hm⟩ := increment_moves hx hs
    exact hm.steps_lt

theorem step_worth (hx : Sound s) (hs : step s e = some (s', o))
    : s'.worth + (if TakesShare s e then 0 else left n * million) = s.worth := by
  cases e with
  | main => exact main_worth hx hs
  | thread t =>
    obtain ⟨pc, hm⟩ := increment_moves hx hs
    rw [if_pos (by trivial), hm.worth, Nat.add_zero]

-- No thread can add more than what was computed.
structure Bounded (s : State n) : Prop extends Sound s where
  worth : s.worth ≤ 2048 * million

theorem step_bounded (hx : Bounded s) (hs : step s e = some (s', o)) : Bounded s' := by
  have := step_worth hx.toSound hs
  have := hx.worth
  exact ⟨step_sound hx.toSound hs, by omega⟩

theorem step_worth_iff (hx : Bounded s) (hs : step s e = some (s', o))
    : s'.worth = 2048 * million ↔ s.worth = 2048 * million ∧ (left n = 0 ∨ TakesShare s e) := by
  have hworth := step_worth hx.toSound hs
  have hle := hx.worth
  by_cases htakes : TakesShare s e
  . rw [if_pos htakes, Nat.add_zero] at hworth
    rw [hworth, and_iff_left (Or.inr htakes)]
  . rw [if_neg htakes] at hworth
    by_cases hleft : left n = 0
    . rw [hleft, Nat.zero_mul, Nat.add_zero] at hworth
      rw [hworth, and_iff_left (Or.inl hleft)]
    . have : 0 < left n * million := Nat.mul_pos (Nat.pos_of_ne_zero hleft) (by rw [million_eq]; decide)
      apply iff_of_false
      . omega
      . rintro ⟨-, h | h⟩
        . exact hleft h
        . exact htakes h

theorem init_worth (n : Nat) : (State.init n).worth = 2048 * million := by
  have htotal : total (Pc.owed 0) (fun _ : Fin n => Pc.unborn) = 0 := by
    rw [total_eq_of_forall (fun _ => Pc.owed_unborn 0), Nat.mul_zero]
  unfold State.worth State.init
  dsimp only [MainPc.created]
  rw [htotal, shares_zero, Nat.zero_add]

theorem init_sound (n : Nat) : Sound (State.init n) := by
  constructor
  . exact Nat.zero_le n
  . exact Or.inl rfl
  . intro t
    exact iff_of_true rfl (Nat.zero_le _)
  . intro t ht
    exact absurd ht (Nat.not_lt_zero _)
  . intro t
    trivial
  . intro t ht
    exact absurd ht id
  . intro t ht
    cases ht
  . intro t mil j i b ht
    cases ht

theorem init_bounded (n : Nat) : Bounded (State.init n) :=
  ⟨init_sound n, Nat.le_of_eq (init_worth n)⟩

theorem increment_eq_none (h : increment s t = none)
    : s.threads t = .unborn ∨ s.threads t = .done ∨ (¬ (s.threads t).holds ∧ s.lock ≠ none) := by
  unfold increment at h
  split at h
  any_goals cases h
  . next hpc => exact Or.inl hpc
  . next mil hpc =>
    right; right
    split at h
    . cases h
    . next hlock => exact ⟨by simp [hpc, Pc.holds], hlock⟩
  . next hpc => exact Or.inr (Or.inl hpc)

-- A thread that cannot go on waits for the one that holds the lock, which can.
theorem Sound.done_of_final (hx : Sound s) (hfinal : Machine.Final step s) (hcreated : t.val < s.main.created n)
    : s.threads t = .done := by
  have hborn : ∀ u, s.threads u = .unborn → s.main.created n ≤ u.val := fun u => (hx.created u).mp
  rcases increment_eq_none (hfinal (.thread t)) with hpc | hpc | ⟨-, hlock⟩
  . have := hborn t hpc
    omega
  . exact hpc
  . obtain ⟨u, hu⟩ := Option.ne_none_iff_exists'.mp hlock
    have hholds := hx.held u hu
    rcases increment_eq_none (hfinal (.thread u)) with hpc | hpc | ⟨hpc, -⟩
    . rw [hpc] at hholds
      exact absurd hholds id
    . rw [hpc] at hholds
      exact absurd hholds id
    . exact absurd hholds hpc

theorem Sound.of_final (hx : Sound s) (hfinal : Machine.Final step s) : s.main = .done := by
  have hmain : AddMillion.main s = none := hfinal .main
  unfold AddMillion.main at hmain
  split at hmain
  any_goals cases hmain
  . next i hpc =>
    have hok := hx.main
    rw [hpc] at hok
    have hi : i < n := hok
    simp [hi] at hmain
  . next i hpc =>
    split at hmain
    . next h =>
      split at hmain
      . cases hmain
      . next hdone =>
        apply absurd (hx.done_of_final hfinal _) hdone
        rw [hpc]
        exact h
    . cases hmain
  . next hpc => exact hpc

theorem Sound.worth_of_done (hn : 0 < n) (hx : Sound s) (hpc : s.main = .done) : s.worth = s.balance := by
  have hdone : ∀ t, s.threads t = .done := by
    intro t
    apply hx.joined
    rw [hpc]
    exact t.isLt
  have htotal : total (Pc.owed s.arg) s.threads = 0 := by
    rw [total_eq_of_forall (fun t => congrArg (Pc.owed s.arg) (hdone t)), Pc.owed_done, Nat.mul_zero]
  have hcreated : s.main.created n = n := by rw [hpc]; rfl
  rw [State.worth, htotal, hcreated, shares_self hn, Nat.zero_mul, Nat.add_zero]

theorem Bounded.run_worth {s t : State n} (hx : Bounded s) (hrun : Machine.run step s es = some t)
    : Bounded t ∧ (t.worth = 2048 * million ↔
      s.worth = 2048 * million ∧ Machine.Along step (fun s e _ _ => left n = 0 ∨ TakesShare s e) s es) := by
  constructor
  . apply Machine.run_invariant' _ hx hrun
    intro s e o s'
    exact step_bounded
  . apply Machine.run_iff_along (J := Bounded) _ _ hx hrun
    . intro s e o s'
      exact step_bounded
    . intro s e o s'
      exact step_worth_iff

theorem along_left_or
    : Machine.Along step (fun s e _ _ => left n = 0 ∨ TakesShare s e) s es ↔
      left n = 0 ∨ Machine.Along step (fun s e _ _ => TakesShare s e) s es := by
  by_cases h : left n = 0
  . simp only [h, true_or, iff_true]
    exact Machine.along_true s es
  . simp only [h, false_or]

/-- Every run ends, and it ends with 2048 million if and only if thread 0 has read the share that was meant for it. -/
theorem balance_iff (hn : 0 < n) (hrun : Machine.run step (State.init n) es = some s)
    : s.balance < 2 ^ 31 ∧ es.length ≤ (State.init n).steps ∧ (Machine.Final step s → s.main = .done) ∧
      (s.main = .done → (s.balance = 2048 * 1000000 ↔
        2048 % n = 0 ∨ Machine.Along step (fun s e _ _ => TakesShare s e) (State.init n) es)) := by
  obtain ⟨hx, hworth⟩ := (init_bounded n).run_worth hrun
  refine ⟨?_, ?_, hx.of_final, ?_⟩
  . have hle : s.balance ≤ s.worth := by
      unfold State.worth
      rw [Nat.add_assoc]
      exact Nat.le_add_right _ _
    have := hx.worth
    rw [million_eq] at this
    omega
  . have := Machine.length_add_le (J := Sound) (fun s e o s' => step_sound) (fun s e o s' => step_steps_lt)
      (init_bounded n).toSound hrun
    omega
  . intro hpc
    rw [← hx.worth_of_done hn hpc, ← million_eq, hworth, along_left_or]
    exact and_iff_right (init_worth n)

theorem Sound.exists_done (hx : Sound s) : ∃ es t, Machine.run step s es = some t ∧ t.main = .done := by
  obtain ⟨es, t, hrun, hfinal⟩ :=
    Machine.exists_final (fun _ _ _ _ => step_sound) (fun _ _ _ _ => step_steps_lt) hx
  have ht : Sound t := Machine.run_invariant' (fun _ _ _ _ => step_sound) hx hrun
  exact ⟨es, t, hrun, ht.of_final hfinal⟩

-- Thread 0 has read its share.
def Taken (s : State n) : Prop :=
  ∀ t : Fin n, t.val = 0 → s.threads t ≠ .unborn ∧ s.threads t ≠ .start

theorem step_taken (hx : Sound s) (ht : Taken s) (hs : step s e = some (s', o)) : Taken s' := by
  cases e with
  | thread u =>
    obtain ⟨pc, hm⟩ := increment_moves hx hs
    intro t h0
    rw [hm.threads]
    by_cases htu : t = u
    . rw [htu, Function.update_self]
      exact ⟨hm.ne_unborn, hm.ne_start⟩
    . rw [Function.update_of_ne htu]
      exact ht t h0
  | main =>
    have hcreated := hx.created
    change main s = some (s', o) at hs
    unfold main at hs
    cases hpc : s.main with
    | create i =>
      rw [hpc] at hs hcreated
      dsimp only at hs
      split at hs
      . next h =>
        cases hs
        intro t h0
        by_cases hti : t = ⟨i, h⟩
        . rw [hti] at h0
          have hunborn := (hcreated ⟨i, h⟩).mpr (Nat.le_refl i)
          exact absurd hunborn (ht ⟨i, h⟩ h0).1
        . have hother : Function.update s.threads ⟨i, h⟩ .start t = s.threads t := Function.update_of_ne hti ..
          change Function.update s.threads ⟨i, h⟩ .start t ≠ .unborn ∧ Function.update s.threads ⟨i, h⟩ .start t ≠ .start
          rw [hother]
          exact ht t h0
      . cases hs
    | join i =>
      rw [hpc] at hs
      dsimp only at hs
      split at hs
      . split at hs <;> cases hs
        exact ht
      . cases hs
        exact ht
    | done =>
      rw [hpc] at hs
      cases hs
    | _ =>
      rw [hpc] at hs
      cases hs
      exact ht

theorem along_of_taken (hx : Sound s) (ht : Taken s) (es : List (Event n))
    : Machine.Along step (fun s e _ _ => TakesShare s e) s es := by
  apply Machine.along_of_invariant (I := fun s => Sound s ∧ Taken s) _ ⟨hx, ht⟩ (Machine.along_true s es)
  intro s e o s' hs hstep _
  refine ⟨?_, step_sound hs.1 hstep, step_taken hs.1 hs.2 hstep⟩
  cases e with
  | main => exact fun _ t h0 => (hs.2 t h0).2
  | thread t => trivial

-- Thread 0 of 3 runs before `main` stores the share of thread 1.
theorem balance_iff_three
    : ∃ es s, Machine.run step (State.init 3) (List.replicate 4 .main ++ [.thread 0] ++ es) = some s ∧ s.main = .done ∧
      s.balance = 2048 * 1000000 := by
  have hfirst : Machine.Along step (fun s e _ _ => TakesShare s e) (State.init 3) (List.replicate 4 .main ++ [.thread 0]) := by
    decide
  obtain ⟨t, ht⟩ := Option.isSome_iff_exists.mp
    (by decide : (Machine.run step (State.init 3) (List.replicate 4 .main ++ [.thread 0])).isSome)
  have htaken : Taken t := by
    cases ht
    intro u h0
    have hu : u = 0 := Fin.ext h0
    rw [hu]
    exact ⟨fun h => (by cases h), fun h => (by cases h)⟩
  have hbounded := ((init_bounded 3).run_worth ht).1
  obtain ⟨es, s, hrun, hdone⟩ := hbounded.exists_done
  have halong := Machine.along_append hfirst ht (along_of_taken hbounded.toSound htaken es)
  rw [← Machine.run_append ht] at hrun
  exact ⟨es, s, hrun, hdone, ((balance_iff (by decide) hrun).2.2.2 hdone).mpr (.inr halong)⟩

-- Thread 0 of 3 runs when `main` has already stored the share of thread 1.
def lateRun : List (Event 3) :=
  List.replicate 7 .main ++ [.thread 0]

theorem late_thread
    : ∃ es s, Machine.run step (State.init 3) (lateRun ++ es) = some s ∧ s.main = .done ∧
      s.balance ≠ 2048 * 1000000 := by
  have hlate : ¬ Machine.Along step (fun s e _ _ => left 3 = 0 ∨ TakesShare s e) (State.init 3) lateRun := by
    decide
  obtain ⟨t, ht⟩ := Option.isSome_iff_exists.mp (by decide : (Machine.run step (State.init 3) lateRun).isSome)
  obtain ⟨es, s, hrun, hdone⟩ := ((init_bounded 3).run_worth ht).1.exists_done
  rw [← Machine.run_append ht] at hrun
  obtain ⟨hx, hworth⟩ := (init_bounded 3).run_worth hrun
  refine ⟨es, s, hrun, hdone, ?_⟩
  rw [← hx.worth_of_done (by decide) hdone, ← million_eq, Ne, hworth]
  intro h
  exact hlate (Machine.along_of_append h.2)

end Xv6.Lab7.AddMillion
