/-!
The variables that the two cricket programs of lab 7 share, and the pieces of code that both of them have. The counters
and scores are sums of few small numbers, so no `int` overflows.
-/

namespace Xv6.Cricket

structure Vars where
  counterCapital : Nat
  counterTitan : Nat
  capitalScore : Nat
  titanScore : Nat
  maxscore : Nat
  matchNo : Nat
  individualScore : Nat
  titanswin : Nat
  capitalswin : Nat
  tied : Nat
  permatchscore : Nat
  gameover : Nat
  deriving DecidableEq, Repr

def Vars.init : Vars :=
  ⟨0, 0, 0, 0, 0, 0, 0, 0, 0, 0, 0, 0⟩

namespace Vars

def maxIndividual (v : Vars) (run : Nat) : Vars :=
  if run > v.individualScore then { v with individualScore := run } else v

def maxPermatch (v : Vars) (run : Nat) : Vars :=
  if run > v.permatchscore then { v with permatchscore := run } else v

def batCapital (v : Vars) (run : Nat) : Vars :=
  (({ v with counterCapital := v.counterCapital + 1, capitalScore := v.capitalScore + run } : Vars).maxIndividual
    run).maxPermatch run

def batTitan (v : Vars) (run : Nat) : Vars :=
  (({ v with counterTitan := v.counterTitan + 1, titanScore := v.titanScore + run } : Vars).maxIndividual
    run).maxPermatch run

-- The summary up to the reset.
def summary (v : Vars) : Vars :=
  let v := { v with matchNo := v.matchNo + 1 }
  if v.capitalScore > v.titanScore then
    let v := { v with capitalswin := v.capitalswin + 1 }
    if v.capitalScore > v.maxscore then { v with maxscore := v.capitalScore } else v
  else if v.titanScore > v.capitalScore then
    let v := { v with titanswin := v.titanswin + 1 }
    if v.titanScore > v.maxscore then { v with maxscore := v.titanScore } else v
  else
    let v := { v with tied := v.tied + 1 }
    { v with maxscore := if v.capitalScore > v.maxscore then v.capitalScore else v.maxscore }

def reset (v : Vars) : Vars :=
  { v with
    gameover := 0, permatchscore := 0, counterCapital := 0, counterTitan := 0, capitalScore := 0, titanScore := 0 }

theorem batCapital_eq (v : Vars) (run : Nat)
    : ∃ high permatch, v.batCapital run = { v with
        counterCapital := v.counterCapital + 1, capitalScore := v.capitalScore + run,
        individualScore := high, permatchscore := permatch } := by
  refine ⟨if run > v.individualScore then run else v.individualScore,
    if run > v.permatchscore then run else v.permatchscore, ?_⟩
  unfold batCapital maxIndividual maxPermatch
  split
  . split <;> rfl
  . split <;> rfl

theorem batTitan_eq (v : Vars) (run : Nat)
    : ∃ high permatch, v.batTitan run = { v with
        counterTitan := v.counterTitan + 1, titanScore := v.titanScore + run,
        individualScore := high, permatchscore := permatch } := by
  refine ⟨if run > v.individualScore then run else v.individualScore,
    if run > v.permatchscore then run else v.permatchscore, ?_⟩
  unfold batTitan maxIndividual maxPermatch
  split
  . split <;> rfl
  . split <;> rfl

theorem summary_eq (v : Vars)
    : ∃ c t d, c + t + d = v.capitalswin + v.titanswin + v.tied + 1 ∧ v.summary = { v with
        matchNo := v.matchNo + 1, maxscore := max v.capitalScore (max v.titanScore v.maxscore),
        capitalswin := c, titanswin := t, tied := d } := by
  unfold summary
  dsimp only
  split
  . refine ⟨v.capitalswin + 1, v.titanswin, v.tied, by omega, ?_⟩
    split
    . simp only [mk.injEq, and_true, true_and]
      omega
    . simp only [mk.injEq, and_true, true_and]
      omega
  . split
    . refine ⟨v.capitalswin, v.titanswin + 1, v.tied, by omega, ?_⟩
      split
      . simp only [mk.injEq, and_true, true_and]
        omega
      . simp only [mk.injEq, and_true, true_and]
        omega
    . refine ⟨v.capitalswin, v.titanswin, v.tied + 1, by omega, ?_⟩
      simp only [mk.injEq, and_true, true_and]
      split <;> omega

end Vars

end Xv6.Cricket
