import Mathlib.Algebra.GroupWithZero.Nat
import Mathlib.Data.Fintype.Basic
import Mathlib.Logic.Function.Basic
import Xv6.Cricket.Impl
import Xv6.Lib.Machine

/-!
`cricket-cv-mutex.c`: `n` threads in `bat` and one in `startGame`. The two take different mutexes, so a step is one
statement. A thread that `main` has not created yet is one that does not step yet. Nobody but `startGame` uses `mutex1`,
which it therefore always gets, and `individual_score` belongs to the players.

`pthread_cond_wait` is two steps: at `wait` the thread lets go of the mutex and falls asleep, and when it has been woken
up it takes the mutex again. `pthread_cond_signal` and `pthread_cond_broadcast` wake up those who sleep.
-/

namespace Xv6.Cricket.Condvars

-- `titan` is the branch in which a player is, `run` its local variable.
inductive BatPc where
  | lock
  | test
  | wait
  | asleep
  | choose
  | countCapital
  | scoreCapital
  | countTitan
  | scoreTitan
  | individual (titan : Bool) (run : Nat)
  | testPermatch (titan : Bool) (run : Nat)
  | setPermatch (titan : Bool) (run : Nat)
  | checkTitan
  | setOver
  | signal
  | unlock
  | done
  deriving DecidableEq, Repr

inductive GamePc where
  | loop
  | test
  | wait
  | asleep
  | count
  | printMatch
  | printScore
  | printHigh
  | ifCapitals
  | printCapitals
  | countCapitals
  | ifMaxCapitals
  | setMaxCapitals
  | ifTitans
  | countTitans
  | printTitans
  | ifMaxTitans
  | setMaxTitans
  | countTied
  | printTied
  | setMaxTied
  | printLn
  | resetGameover
  | resetPermatch
  | resetCounterCapital
  | resetCounterTitan
  | resetCapitalScore
  | resetTitanScore
  | broadcast
  | unlock
  | done
  deriving DecidableEq, Repr

structure State (n : Nat) where
  vars : Vars
  mutex : Option (Fin n)
  bats : Fin n → BatPc
  game : GamePc

def State.init (n : Nat) : State n where
  vars := .init
  mutex := none
  bats _ := .lock
  game := .loop

scoped instance neZeroRuns : NeZero 101 := ⟨by decide⟩

-- `run` is `rand() % 101`.
inductive Event (n : Nat) where
  | bat (i : Fin n) (run : Fin 101)
  | startGame
  deriving DecidableEq, Repr

inductive Output where
  | silent
  | matchNo (m : Nat)
  | score (capitals titans : Nat)
  | high (run : Nat)
  | capitalsWon (runs : Int)
  | titansWon (runs : Int)
  | tied
  deriving DecidableEq, Repr

variable {n : Nat}

def State.setBat (s : State n) (i : Fin n) (pc : BatPc) : State n :=
  { s with bats := Function.update s.bats i pc }

-- Behind the two updates of the highest runs.
def BatPc.next (titan : Bool) : BatPc :=
  if titan then .checkTitan else .unlock

-- The statements of `bat` between the lock and the calls that concern other threads.
def play (v : Vars) (run : Nat) : BatPc → Vars × BatPc
  | .test => (v, if v.gameover = 1 then .wait else .choose)
  | .choose => (v, if v.counterCapital < 11 then .countCapital else .countTitan)
  | .countCapital => ({ v with counterCapital := v.counterCapital + 1 }, .scoreCapital)
  | .scoreCapital => ({ v with capitalScore := v.capitalScore + run }, .individual false run)
  | .countTitan => ({ v with counterTitan := v.counterTitan + 1 }, .scoreTitan)
  | .scoreTitan => ({ v with titanScore := v.titanScore + run }, .individual true run)
  | .individual titan r => (v.maxIndividual r, .testPermatch titan r)
  | .testPermatch titan r => (v, if r > v.permatchscore then .setPermatch titan r else .next titan)
  | .setPermatch titan r => ({ v with permatchscore := r }, .next titan)
  | .checkTitan => (v, if v.counterTitan = 11 then .setOver else .unlock)
  | .setOver => ({ v with gameover := 1 }, .signal)
  | pc => (v, pc)

def batStep (s : State n) (i : Fin n) (run : Nat) : Option (State n × Output) :=
  match s.bats i with
  | .lock => if s.mutex = none then some ({ s with mutex := some i }.setBat i .test, .silent) else none
  | .wait => some ({ s with mutex := none }.setBat i .asleep, .silent)
  | .asleep => none
  | .signal => some ({ s with game := if s.game = GamePc.asleep then GamePc.test else s.game }.setBat i .unlock, .silent)
  | .unlock => some ({ s with mutex := none }.setBat i .done, .silent)
  | .done => none
  | pc => some ({ s with vars := (play s.vars run pc).1 }.setBat i (play s.vars run pc).2, .silent)

-- The statements of `startGame` up to the reset.
def summarize (v : Vars) : GamePc → Vars × GamePc × Output
  | .count => ({ v with matchNo := v.matchNo + 1 }, .printMatch, .silent)
  | .printMatch => (v, .printScore, .matchNo v.matchNo)
  | .printScore => (v, .printHigh, .score v.capitalScore v.titanScore)
  | .printHigh => (v, .ifCapitals, .high v.permatchscore)
  | .ifCapitals => (v, if v.capitalScore > v.titanScore then .printCapitals else .ifTitans, .silent)
  | .printCapitals => (v, .countCapitals, .capitalsWon (v.capitalScore - v.titanScore))
  | .countCapitals => ({ v with capitalswin := v.capitalswin + 1 }, .ifMaxCapitals, .silent)
  | .ifMaxCapitals => (v, if v.capitalScore > v.maxscore then .setMaxCapitals else .printLn, .silent)
  | .setMaxCapitals => ({ v with maxscore := v.capitalScore }, .printLn, .silent)
  | .ifTitans => (v, if v.titanScore > v.capitalScore then .countTitans else .countTied, .silent)
  | .countTitans => ({ v with titanswin := v.titanswin + 1 }, .printTitans, .silent)
  | .printTitans => (v, .ifMaxTitans, .titansWon (v.titanScore - v.capitalScore))
  | .ifMaxTitans => (v, if v.titanScore > v.maxscore then .setMaxTitans else .printLn, .silent)
  | .setMaxTitans => ({ v with maxscore := v.titanScore }, .printLn, .silent)
  | .countTied => ({ v with tied := v.tied + 1 }, .printTied, .silent)
  | .printTied => (v, .setMaxTied, .tied)
  | .setMaxTied =>
    ({ v with maxscore := if v.capitalScore > v.maxscore then v.capitalScore else v.maxscore }, .printLn, .silent)
  | .printLn => (v, .resetGameover, .silent)
  | pc => (v, pc, .silent)

-- The reset, whose statements go one by one.
def clear (v : Vars) : GamePc → Vars × GamePc
  | .resetGameover => ({ v with gameover := 0 }, .resetPermatch)
  | .resetPermatch => ({ v with permatchscore := 0 }, .resetCounterCapital)
  | .resetCounterCapital => ({ v with counterCapital := 0 }, .resetCounterTitan)
  | .resetCounterTitan => ({ v with counterTitan := 0 }, .resetCapitalScore)
  | .resetCapitalScore => ({ v with capitalScore := 0 }, .resetTitanScore)
  | .resetTitanScore => ({ v with titanScore := 0 }, .broadcast)
  | pc => (v, pc)

def GamePc.clearing : GamePc → Bool
  | .resetGameover | .resetPermatch | .resetCounterCapital | .resetCounterTitan | .resetCapitalScore | .resetTitanScore =>
    true
  | _ => false

def wake : BatPc → BatPc
  | .asleep => .lock
  | pc => pc

def gameStep (s : State n) : Option (State n × Output) :=
  match s.game with
  | .loop => some ({ s with game := if s.vars.matchNo < n / 22 then .test else .unlock }, .silent)
  | .test => some ({ s with game := if s.vars.gameover = 0 then .wait else .count }, .silent)
  | .wait => some ({ s with game := .asleep }, .silent)
  | .asleep => none
  | .broadcast => some ({ s with bats := fun i => wake (s.bats i), game := .loop }, .silent)
  -- this is not the mutex that `startGame` has locked
  | .unlock => some ({ s with mutex := none, game := .done }, .silent)
  | .done => none
  | pc =>
    if pc.clearing then some ({ s with vars := (clear s.vars pc).1, game := (clear s.vars pc).2 }, .silent)
    else
      some ({ s with vars := (summarize s.vars pc).1, game := (summarize s.vars pc).2.1 }, (summarize s.vars pc).2.2)

def step : Machine (State n) (Event n) Output := fun s e =>
  match e with
  | .bat i run => batStep s i run
  | .startGame => gameStep s

def State.finished (s : State n) : Prop :=
  s.game = .done ∧ ∀ i, s.bats i = .done

def State.stuck (s : State n) : Prop :=
  ¬ s.finished ∧ ∀ e, step s e = none

-- The assignments of the reset that are left when `gameover` has been cleared.
def GamePc.left : GamePc → Nat
  | .resetPermatch => 5
  | .resetCounterCapital => 4
  | .resetCounterTitan => 3
  | .resetCapitalScore => 2
  | .resetTitanScore => 1
  | _ => 0

-- A player does not add to a counter that the reset has yet to clear.
def KeepsCounters (s : State n) : Event n → Prop
  | .bat i _ => (s.bats i = .countCapital → s.game.left < 4) ∧ (s.bats i = .countTitan → s.game.left < 3)
  | .startGame => True

-- The same for the scores.
def KeepsScores (s : State n) : Event n → Prop
  | .bat i _ => (s.bats i = .scoreCapital → s.game.left < 2) ∧ (s.bats i = .scoreTitan → s.game.left < 1)
  | .startGame => True

-- The last player does not signal while `startGame`, which has found `gameover` clear, has yet to fall asleep; and
-- `startGame` does not broadcast while a player, which has found it set, has yet to do so.
def KeepsSignals (s : State n) : Event n → Prop
  | .bat i _ => s.bats i = .signal → ¬ (s.game = .wait ∧ s.vars.gameover = 1)
  | .startGame => s.game = .broadcast → ∀ i, s.bats i ≠ .wait

instance (s : State n) : (e : Event n) → Decidable (KeepsCounters s e)
  | .bat _ _ => inferInstanceAs (Decidable (_ ∧ _))
  | .startGame => .isTrue trivial

instance (s : State n) : (e : Event n) → Decidable (KeepsScores s e)
  | .bat _ _ => inferInstanceAs (Decidable (_ ∧ _))
  | .startGame => .isTrue trivial

instance (s : State n) : (e : Event n) → Decidable (KeepsSignals s e)
  | .bat _ _ => inferInstanceAs (Decidable (_ → _))
  | .startGame => inferInstanceAs (Decidable (_ → _))

end Xv6.Cricket.Condvars
