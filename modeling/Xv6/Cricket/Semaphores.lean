import Mathlib.Algebra.GroupWithZero.Nat
import Mathlib.Data.Fintype.Basic
import Xv6.Cricket.Impl
import Xv6.Lib.Crowd
import Xv6.Lib.Machine

/-!
`cricket-semaphores.c`: `n` threads in `bat` and one in `startGame`. A step is one semaphore operation or the code
between `sem_wait(&mut)` and `sem_post(&mut)`, from which the 22 posts of `barrier` are taken apart. A thread that
`main` has not created yet is one that does not step yet.

The places of the threads in the code: `waitBarrier`, `waitMut` and `waitSig` are in front of a `sem_wait`, `play` and
`summary` behind `sem_wait(&mut)`, `postMut` in front of `sem_post(&mut)`, and `post j` in the loop of the posts.
-/

namespace Xv6.Cricket.Semaphores

inductive BatPc where
  | waitBarrier
  | waitMut
  | play
  | postMut
  | done
  deriving DecidableEq, Repr

inductive GamePc where
  | loop
  | waitSig
  | waitMut
  | summary
  | post (j : Nat)
  | postMut
  | done
  deriving DecidableEq, Repr

structure State (n : Nat) where
  vars : Vars
  barrier : Nat
  semMut : Nat
  sig : Nat
  bats : Fin n → BatPc
  game : GamePc

-- `main` has initialized `sig` with 1 and taken it.
def State.init (n : Nat) : State n where
  vars := .init
  barrier := 22
  semMut := 1
  sig := 1 - 1
  bats _ := .waitBarrier
  game := .loop

-- `run` is `rand() % 101`.
inductive Event (n : Nat) where
  | bat (i : Fin n) (run : Fin 101)
  | startGame

inductive Output where
  | silent
  | batted (run : Nat)
  | summary (matchNo capitalScore titanScore permatchscore : Nat)
  deriving DecidableEq, Repr

variable {n : Nat}

def State.setBat (s : State n) (i : Fin n) (pc : BatPc) : State n :=
  { s with bats := Function.update s.bats i pc }

-- The section of `bat`.
def State.play (s : State n) (run : Nat) : State n :=
  if s.vars.counterCapital < 11 then { s with vars := s.vars.batCapital run }
  else
    let v := s.vars.batTitan run
    if v.counterTitan = 11 then { s with vars := { v with gameover := 1 }, sig := s.sig + 1 }
    else { s with vars := v }

def batStep (s : State n) (i : Fin n) (run : Nat) : Option (State n × Output) :=
  match s.bats i with
  | .waitBarrier => if s.barrier > 0 then some ({ s with barrier := s.barrier - 1 }.setBat i .waitMut, .silent) else none
  | .waitMut => if s.semMut > 0 then some ({ s with semMut := s.semMut - 1 }.setBat i .play, .silent) else none
  | .play => some ((s.play run).setBat i .postMut, .batted run)
  | .postMut => some ({ s with semMut := s.semMut + 1 }.setBat i .done, .silent)
  | .done => none

def gameStep (s : State n) : Option (State n × Output) :=
  match s.game with
  | .loop => some ({ s with game := if s.vars.matchNo < n / 22 then .waitSig else .done }, .silent)
  | .waitSig => if s.sig > 0 then some ({ s with sig := s.sig - 1, game := .waitMut }, .silent) else none
  | .waitMut => if s.semMut > 0 then some ({ s with semMut := s.semMut - 1, game := .summary }, .silent) else none
  | .summary =>
    some ({ s with vars := s.vars.summary.reset, game := .post 0 },
      .summary s.vars.summary.matchNo s.vars.capitalScore s.vars.titanScore s.vars.permatchscore)
  | .post j =>
    if j < 22 then some ({ s with barrier := s.barrier + 1, game := .post (j + 1) }, .silent)
    else some ({ s with game := .postMut }, .silent)
  | .postMut => some ({ s with semMut := s.semMut + 1, game := .loop }, .silent)
  | .done => none

def step : Machine (State n) (Event n) Output := fun s e =>
  match e with
  | .bat i run => batStep s i run
  | .startGame => gameStep s

-- What has happened: the runs of the two teams since the last reset, and the team scores that were printed.
structure Day where
  capitals : List Nat
  titans : List Nat
  scores : List Nat

def Day.init : Day :=
  ⟨[], [], []⟩

def record (s : State n) (e : Event n) (_ : State n) (h : Day) : Day :=
  match e with
  | .bat i run =>
    if s.bats i = .play then
      if s.vars.counterCapital < 11 then { h with capitals := run.val :: h.capitals }
      else { h with titans := run.val :: h.titans }
    else h
  | .startGame =>
    if s.game = .summary then ⟨[], [], s.vars.capitalScore :: s.vars.titanScore :: h.scores⟩ else h

def maximum (l : List Nat) : Nat :=
  l.foldr max 0

def State.finished (s : State n) : Prop :=
  s.game = .done ∧ ∀ i, s.bats i = .done

/--
At a summary 11 players of each team have batted since the last reset, and the scores are the sums of their runs. No
player bats between the 22nd bat and the reset.
-/
def Fair (x : State n × Day) (e : Event n) (o : Output) (_ : State n × Day) : Prop :=
  match e with
  | .bat i _ => x.1.bats i = .play → x.2.capitals.length + x.2.titans.length < 22
  | .startGame => x.1.game = .summary →
    x.2.capitals.length = 11 ∧ x.2.titans.length = 11 ∧ x.2.capitals.sum ≤ 1100 ∧ x.2.titans.sum ≤ 1100 ∧
      o = .summary (x.1.vars.matchNo + 1) x.2.capitals.sum x.2.titans.sum x.1.vars.permatchscore

-- The results add up; in the end all matches were played, and `maxscore` is the highest score that was printed.
def Results (x : State n × Day) : Prop :=
  x.1.vars.capitalswin + x.1.vars.titanswin + x.1.vars.tied = x.1.vars.matchNo ∧
    (x.1.finished → x.1.vars.matchNo = n / 22 ∧ x.1.vars.maxscore = maximum x.2.scores)

def State.stuck (s : State n) : Prop :=
  ¬ s.finished ∧ ∀ e, step s e = none

-- Players between the barrier and their bat, players behind it, and players that hold `mut`.
@[simp]
def BatPc.inside : BatPc → Nat
  | .waitMut | .play => 1
  | _ => 0

@[simp]
def BatPc.batted : BatPc → Nat
  | .postMut | .done => 1
  | _ => 0

@[simp]
def BatPc.holds : BatPc → Nat
  | .play | .postMut => 1
  | _ => 0

@[simp]
def GamePc.holds : GamePc → Nat
  | .summary | .post _ | .postMut => 1
  | _ => 0

-- The posts of `barrier` that the reset still owes.
@[simp]
def GamePc.owed : GamePc → Nat
  | .post j => 22 - j
  | _ => 0

-- `sig` has been taken and the match is not over yet.
@[simp]
def GamePc.called : GamePc → Nat
  | .waitMut | .summary => 1
  | _ => 0

@[simp]
def GamePc.inMatch : GamePc → Nat
  | .waitSig | .waitMut | .summary => 1
  | _ => 0

open Crowd

-- The semaphores and the counters.
structure Tokens (s : State n) : Prop where
  semMut : s.semMut + total BatPc.holds s.bats + s.game.holds = 1
  tokens : s.barrier + total BatPc.inside s.bats + s.vars.counterCapital + s.vars.counterTitan + s.game.owed = 22
  batted : total BatPc.batted s.bats = 22 * s.vars.matchNo + s.vars.counterCapital + s.vars.counterTitan
  capitals : s.vars.counterCapital ≤ 11
  titans : s.vars.counterTitan ≤ 11
  order : 0 < s.vars.counterTitan → s.vars.counterCapital = 11
  sig : s.sig + s.game.called = s.vars.counterTitan / 11
  matches_le : s.vars.matchNo + s.game.inMatch ≤ n / 22
  matches_eq : s.game = .done → s.vars.matchNo = n / 22
  owed : s.game.owed ≤ 22

-- The scores and the results.
structure Books (v : Vars) (h : Day) : Prop where
  capitals : h.capitals.length = v.counterCapital
  capitalScore : h.capitals.sum = v.capitalScore
  titans : h.titans.length = v.counterTitan
  titanScore : h.titans.sum = v.titanScore
  capitalRuns : ∀ r ∈ h.capitals, r ≤ 100
  titanRuns : ∀ r ∈ h.titans, r ≤ 100
  wins : v.capitalswin + v.titanswin + v.tied = v.matchNo
  maxscore : v.maxscore = maximum h.scores

section

variable {s s' : State n} {h : Day} {i : Fin n} {run : Fin 101} {o : Output}

theorem init_tokens (n : Nat) : Tokens (State.init n) where
  semMut := by simp [State.init, total, BatPc.holds, GamePc.holds]
  tokens := by simp [State.init, total, BatPc.inside, GamePc.owed, Vars.init]
  batted := by simp [State.init, total, BatPc.batted, Vars.init]
  capitals := Nat.zero_le _
  titans := Nat.zero_le _
  order h := absurd h (Nat.lt_irrefl 0)
  sig := by simp [State.init, Vars.init]
  matches_le := Nat.zero_le _
  matches_eq := by simp [State.init]
  owed := Nat.zero_le _

theorem init_books : Books .init .init where
  capitals := rfl
  capitalScore := rfl
  titans := rfl
  titanScore := rfl
  capitalRuns := by simp [Day.init]
  titanRuns := by simp [Day.init]
  wins := rfl
  maxscore := rfl

theorem count_setBat (s : State n) (i : Fin n) (pc : BatPc)
    : total BatPc.holds (Function.update s.bats i pc) + (s.bats i).holds = total BatPc.holds s.bats + pc.holds ∧
      total BatPc.inside (Function.update s.bats i pc) + (s.bats i).inside = total BatPc.inside s.bats + pc.inside ∧
      total BatPc.batted (Function.update s.bats i pc) + (s.bats i).batted = total BatPc.batted s.bats + pc.batted :=
  ⟨total_update _ _ _ _, total_update _ _ _ _, total_update _ _ _ _⟩

theorem Tokens.playing (hx : Tokens s) (hpc : s.bats i = .play)
    : s.vars.counterCapital + s.vars.counterTitan < 22 ∧ s.game.holds = 0 := by
  have htokens := hx.tokens
  have hmut := hx.semMut
  have hinside := le_total BatPc.inside s.bats i
  have hholds := le_total BatPc.holds s.bats i
  rw [hpc] at hinside hholds
  simp only [BatPc.inside, BatPc.holds] at hinside hholds
  omega

theorem Tokens.play (hx : Tokens s) (hpc : s.bats i = .play) (run : Nat) : Tokens ((s.play run).setBat i .postMut) := by
  obtain ⟨hlt, -⟩ := hx.playing hpc
  obtain ⟨hholds, hinside, hbatted⟩ := count_setBat s i .postMut
  rw [hpc] at hholds hinside hbatted
  simp only [BatPc.holds, BatPc.inside, BatPc.batted] at hholds hinside hbatted
  obtain ⟨hmut, htokens, hbats, hcap, htit, horder, hsig, hle, heq, howed⟩ := hx
  unfold State.play
  split
  . next hfirst =>
    obtain ⟨high, permatch, hv⟩ := s.vars.batCapital_eq run
    rw [hv]
    constructor <;> dsimp only [State.setBat] <;> first | assumption | omega
  . next hsecond =>
    obtain ⟨high, permatch, hv⟩ := s.vars.batTitan_eq run
    rw [hv]
    dsimp only
    split
    . constructor <;> dsimp only [State.setBat] <;> first | assumption | omega
    . constructor <;> dsimp only [State.setBat] <;> first | assumption | omega

theorem batStep_tokens {run : Nat} (hx : Tokens s) (hs : batStep s i run = some (s', o)) : Tokens s' := by
  have hcount := count_setBat s i
  unfold batStep at hs
  cases hpc : s.bats i with
  | waitBarrier =>
    rw [hpc] at hs
    dsimp only at hs
    split at hs
    . cases hs
      obtain ⟨hholds, hinside, hbatted⟩ := hcount .waitMut
      rw [hpc] at hholds hinside hbatted
      simp only [BatPc.holds, BatPc.inside, BatPc.batted] at hholds hinside hbatted
      obtain ⟨hmut, htokens, hbats, hcap, htit, horder, hsig, hle, heq, howed⟩ := hx
      constructor <;> first | assumption | (dsimp only [State.setBat]; omega)
    . cases hs
  | waitMut =>
    rw [hpc] at hs
    dsimp only at hs
    split at hs
    . cases hs
      obtain ⟨hholds, hinside, hbatted⟩ := hcount .play
      rw [hpc] at hholds hinside hbatted
      simp only [BatPc.holds, BatPc.inside, BatPc.batted] at hholds hinside hbatted
      obtain ⟨hmut, htokens, hbats, hcap, htit, horder, hsig, hle, heq, howed⟩ := hx
      constructor <;> first | assumption | (dsimp only [State.setBat]; omega)
    . cases hs
  | play =>
    rw [hpc] at hs
    cases hs
    exact hx.play hpc run
  | postMut =>
    rw [hpc] at hs
    cases hs
    obtain ⟨hholds, hinside, hbatted⟩ := hcount .done
    rw [hpc] at hholds hinside hbatted
    simp only [BatPc.holds, BatPc.inside, BatPc.batted] at hholds hinside hbatted
    obtain ⟨hmut, htokens, hbats, hcap, htit, horder, hsig, hle, heq, howed⟩ := hx
    constructor <;> first | assumption | (dsimp only [State.setBat]; omega)
  | done =>
    rw [hpc] at hs
    cases hs

theorem Tokens.over (hx : Tokens s) (hpc : s.game = .summary)
    : s.vars.counterCapital = 11 ∧ s.vars.counterTitan = 11 ∧ s.sig = 0 := by
  have hsig := hx.sig
  have htit := hx.titans
  rw [hpc, GamePc.called] at hsig
  have h11 : s.vars.counterTitan = 11 := by omega
  refine ⟨hx.order (by omega), h11, by omega⟩

theorem gameStep_tokens (hx : Tokens s) (hs : gameStep s = some (s', o)) : Tokens s' := by
  have hover := hx.over
  obtain ⟨hmut, htokens, hbats, hcap, htit, horder, hsig, hle, heq, howed⟩ := hx
  unfold gameStep at hs
  cases hpc : s.game with
  | loop =>
    rw [hpc] at hs hmut htokens hsig hle
    cases hs
    simp at hmut htokens hsig hle
    split
    . constructor <;> first | assumption | simp
    . constructor <;> first | assumption | simp <;> omega
  | waitSig =>
    rw [hpc] at hs hmut htokens hsig hle
    dsimp only at hs
    split at hs
    . cases hs
      simp at hmut htokens hsig hle
      constructor <;> first | assumption | simp <;> omega
    . cases hs
  | waitMut =>
    rw [hpc] at hs hmut htokens hsig hle
    dsimp only at hs
    split at hs
    . cases hs
      simp at hmut htokens hsig hle
      constructor <;> first | assumption | simp <;> omega
    . cases hs
  | summary =>
    obtain ⟨hcap11, htit11, hsig0⟩ := hover hpc
    rw [hpc] at hs hmut htokens hle
    cases hs
    obtain ⟨c, t, d, -, hv⟩ := s.vars.summary_eq
    rw [hv]
    simp at hmut htokens hle
    constructor <;> simp [Vars.reset] <;> omega
  | post j =>
    rw [hpc] at hs hmut htokens hsig hle howed
    dsimp only at hs
    simp at hmut htokens hsig hle howed
    split at hs
    . cases hs
      constructor <;> first | assumption | simp <;> omega
    . cases hs
      constructor <;> first | assumption | simp <;> omega
  | postMut =>
    rw [hpc] at hs hmut htokens hsig hle
    cases hs
    simp at hmut htokens hsig hle
    constructor <;> first | assumption | simp <;> omega
  | done =>
    rw [hpc] at hs
    cases hs

theorem step_tokens {e : Event n} (hx : Tokens s) (hs : step s e = some (s', o)) : Tokens s' := by
  cases e with
  | bat i run => exact batStep_tokens hx hs
  | startGame => exact gameStep_tokens hx hs

theorem stuck_bat (h : ∀ e, step s e = none) (i : Fin n)
    : (s.bats i = .waitBarrier ∧ s.barrier = 0) ∨ (s.bats i = .waitMut ∧ s.semMut = 0) ∨ s.bats i = .done := by
  have hi := h (.bat i 0)
  simp only [step, batStep] at hi
  split at hi
  . next hpc =>
    split at hi
    . cases hi
    . exact .inl ⟨hpc, by omega⟩
  . next hpc =>
    split at hi
    . cases hi
    . exact .inr (.inl ⟨hpc, by omega⟩)
  . cases hi
  . cases hi
  . next hpc => exact .inr (.inr hpc)

theorem stuck_game (h : ∀ e, step s e = none)
    : (s.game = .waitSig ∧ s.sig = 0) ∨ (s.game = .waitMut ∧ s.semMut = 0) ∨ s.game = .done := by
  have hi := h .startGame
  simp only [step, gameStep] at hi
  split at hi
  . cases hi
  . next hpc =>
    split at hi
    . cases hi
    . exact .inl ⟨hpc, by omega⟩
  . next hpc =>
    split at hi
    . cases hi
    . exact .inr (.inl ⟨hpc, by omega⟩)
  . cases hi
  . split at hi <;> cases hi
  . cases hi
  . next hpc => exact .inr (.inr hpc)

theorem Tokens.semMut_free (hx : Tokens s) (h : ∀ e, step s e = none) : s.semMut = 1 := by
  have hmut := hx.semMut
  have hbats : total BatPc.holds s.bats = 0 := by
    rw [total_eq_of_forall (c := 0)]
    . omega
    . intro i
      obtain ⟨hpc, -⟩ | ⟨hpc, -⟩ | hpc := stuck_bat h i <;> rw [hpc] <;> rfl
  have hgame : s.game.holds = 0 := by
    obtain ⟨hpc, -⟩ | ⟨hpc, -⟩ | hpc := stuck_game h <;> rw [hpc] <;> rfl
  omega

theorem Tokens.not_stuck (hx : Tokens s) : ¬ s.stuck := by
  rintro ⟨hfin, h⟩
  have hfree := hx.semMut_free h
  have hbat : ∀ i, (s.bats i = .waitBarrier ∧ s.barrier = 0) ∨ s.bats i = .done := by
    intro i
    obtain hpc | ⟨-, hmut⟩ | hpc := stuck_bat h i
    . exact .inl hpc
    . omega
    . exact .inr hpc
  have hinside : total BatPc.inside s.bats = 0 := by
    rw [total_eq_of_forall (c := 0)]
    . omega
    . intro i
      obtain ⟨hpc, -⟩ | hpc := hbat i <;> rw [hpc] <;> rfl
  have hbatted : total BatPc.batted s.bats ≤ n := by
    have := total_le_card (w := BatPc.batted) (by intro pc; cases pc <;> decide) s.bats
    rwa [Fintype.card_fin] at this
  have htokens := hx.tokens
  have hbats := hx.batted
  have hle := hx.matches_le
  obtain ⟨hpc, hsig0⟩ | ⟨-, hmut⟩ | hpc := stuck_game h
  . -- the match is not over, so there is a token for every player that is left
    have hsig := hx.sig
    have hcap := hx.capitals
    rw [hpc] at hsig htokens hle
    simp at hsig htokens hle
    have hall : total BatPc.batted s.bats = n := by
      rw [total_eq_of_forall (c := 1), Fintype.card_fin, Nat.mul_one]
      intro i
      obtain ⟨-, hzero⟩ | hpc := hbat i
      . omega
      . rw [hpc]
        rfl
    omega
  . omega
  . -- all matches are over, so fewer than 22 players are left
    have heq := hx.matches_eq hpc
    rw [hpc] at htokens
    simp at htokens
    apply hfin
    refine ⟨hpc, ?_⟩
    intro i
    obtain ⟨-, hzero⟩ | hpc := hbat i
    . omega
    . exact hpc

theorem sum_le_mul {l : List Nat} {m : Nat} (h : ∀ r ∈ l, r ≤ m) : l.sum ≤ l.length * m := by
  have := List.sum_le_card_nsmul l m h
  simpa using this

namespace Books

variable {v : Vars}

theorem batCapital {run : Nat} (hb : Books v h) (hrun : run ≤ 100)
    : Books (v.batCapital run) { h with capitals := run :: h.capitals } := by
  obtain ⟨high, permatch, hv⟩ := v.batCapital_eq run
  rw [hv]
  exact { hb with
    capitals := by simp [hb.capitals]
    capitalScore := by simp [hb.capitalScore, Nat.add_comm]
    capitalRuns := by simpa [hrun] using hb.capitalRuns }

theorem batTitan {run : Nat} (hb : Books v h) (hrun : run ≤ 100)
    : Books (v.batTitan run) { h with titans := run :: h.titans } := by
  obtain ⟨high, permatch, hv⟩ := v.batTitan_eq run
  rw [hv]
  exact { hb with
    titans := by simp [hb.titans]
    titanScore := by simp [hb.titanScore, Nat.add_comm]
    titanRuns := by simpa [hrun] using hb.titanRuns }

theorem gameover (hb : Books v h) (g : Nat) : Books { v with gameover := g } h :=
  { hb with }

theorem summary (hb : Books v h)
    : Books v.summary.reset ⟨[], [], v.capitalScore :: v.titanScore :: h.scores⟩ := by
  obtain ⟨c, t, d, hsum, hv⟩ := v.summary_eq
  rw [hv]
  have hwins := hb.wins
  have hmax := hb.maxscore
  exact {
    capitals := rfl
    capitalScore := rfl
    titans := rfl
    titanScore := rfl
    capitalRuns := by simp
    titanRuns := by simp
    wins := by
      dsimp only [Vars.reset]
      omega
    maxscore := by
      simp only [Vars.reset, hmax]
      rfl }

theorem play (hb : Books s.vars h) (hpc : s.bats i = .play)
    : Books (s.play run).vars (record s (.bat i run) s' h) := by
  have hrun : run.val ≤ 100 := Fin.is_le run
  simp only [record, hpc, if_true, State.play]
  split
  . exact hb.batCapital hrun
  . split
    . exact (hb.batTitan hrun).gameover 1
    . exact hb.batTitan hrun

end Books

theorem batStep_books (hb : Books s.vars h) (hs : batStep s i run = some (s', o))
    : Books s'.vars (record s (.bat i run) s' h) := by
  unfold batStep at hs
  split at hs
  . next hpc =>
    split at hs
    . cases hs
      simpa [record, hpc, State.setBat] using hb
    . cases hs
  . next hpc =>
    split at hs
    . cases hs
      simpa [record, hpc, State.setBat] using hb
    . cases hs
  . next hpc =>
    cases hs
    exact hb.play hpc
  . next hpc =>
    cases hs
    simpa [record, hpc, State.setBat] using hb
  . cases hs

theorem gameStep_books (hb : Books s.vars h) (hs : gameStep s = some (s', o))
    : Books s'.vars (record s .startGame s' h) := by
  unfold gameStep at hs
  split at hs
  . next hpc =>
    cases hs
    simpa [record, hpc, State.setBat] using hb
  . next hpc =>
    split at hs
    . cases hs
      simpa [record, hpc, State.setBat] using hb
    . cases hs
  . next hpc =>
    split at hs
    . cases hs
      simpa [record, hpc, State.setBat] using hb
    . cases hs
  . next hpc =>
    cases hs
    simp only [record, hpc, if_true]
    exact hb.summary
  . next hpc =>
    split at hs
    . cases hs
      simpa [record, hpc, State.setBat] using hb
    . cases hs
      simpa [record, hpc, State.setBat] using hb
  . next hpc =>
    cases hs
    simpa [record, hpc, State.setBat] using hb
  . cases hs

end

structure Inv (x : State n × Day) : Prop where
  tokens : Tokens x.1
  books : Books x.1.vars x.2

theorem step_inv {x x' : State n × Day} {e : Event n} {o : Output} (hx : Inv x)
    (hstep : Machine.watch step record x e = some (x', o))
    : Inv x' := by
  obtain ⟨hs, hh⟩ := Machine.watch_eq_some hstep
  refine ⟨step_tokens hx.tokens hs, ?_⟩
  rw [hh]
  cases e with
  | bat i run => exact batStep_books hx.books hs
  | startGame => exact gameStep_books hx.books hs

theorem Inv.fair {x x' : State n × Day} {e : Event n} {o : Output} (hx : Inv x)
    (hstep : Machine.watch step record x e = some (x', o))
    : Fair x e o x' := by
  obtain ⟨hs, -⟩ := Machine.watch_eq_some hstep
  have hcap := hx.books.capitals
  have htit := hx.books.titans
  cases e with
  | bat i run =>
    intro hpc
    have := (hx.tokens.playing hpc).1
    omega
  | startGame =>
    intro hpc
    obtain ⟨hcap11, htit11, -⟩ := hx.tokens.over hpc
    have hcapSum := sum_le_mul hx.books.capitalRuns
    have htitSum := sum_le_mul hx.books.titanRuns
    simp only [step, gameStep, hpc, Option.some.injEq, Prod.mk.injEq] at hs
    refine ⟨by omega, by omega, by omega, by omega, ?_⟩
    obtain ⟨c, t, d, -, hv⟩ := x.1.vars.summary_eq
    rw [← hs.2, hv, hx.books.capitalScore, hx.books.titanScore]

theorem Inv.results {x : State n × Day} (hx : Inv x) : Results x :=
  ⟨hx.books.wins, fun hfin => ⟨hx.tokens.matches_eq hfin.1, hx.books.maxscore⟩⟩

/-- The matches of the day are fair, and the summary of the day is right. -/
theorem matches_are_fair (n : Nat) (es : List (Event n))
    : Machine.Along (Machine.watch step record) Fair (State.init n, Day.init) es ∧
      Machine.Always (Machine.watch step record) Results (State.init n, Day.init) es := by
  have hinit : Inv (State.init n, Day.init) := ⟨init_tokens n, init_books⟩
  constructor
  . apply Machine.along_of_invariant (I := Inv) _ hinit (Machine.along_true _ es)
    intro x e o x' hx hstep _
    exact ⟨hx.fair hstep, step_inv hx hstep⟩
  . apply Machine.always_of_invariant (I := Inv) _ (fun x hx => hx.results) hinit
    intro x e o x' hx hstep
    exact step_inv hx hstep

/-- The semaphores do not deadlock. -/
theorem never_stuck (n : Nat) (es : List (Event n))
    : Machine.Always step (fun s => ¬ s.stuck) (State.init n) es := by
  apply Machine.always_of_invariant (I := Tokens) _ (fun s hs => hs.not_stuck) (init_tokens n)
  intro s e o s' hs hstep
  exact step_tokens hs hstep

end Xv6.Cricket.Semaphores
