import Xv6.Cricket.Condvars.Impl

/-!
The results of the day as the two programs print them. They keep the same counters, but `cricket-cv-mutex.c` takes all
matches that a team has not won for lost.
-/

namespace Xv6.Cricket

structure Tally where
  won : Int
  lost : Int
  tied : Int
  deriving DecidableEq, Repr

structure DaySummary where
  titans : Tally
  capitals : Tally
  highestTeamScore : Nat
  deriving DecidableEq, Repr

namespace Vars

-- The last lines of `main` in `cricket-cv-mutex.c`, where `m` is `matches`, and in `cricket-semaphores.c`.
def mutexDay (v : Vars) (m : Nat) : DaySummary where
  titans := ⟨v.titanswin, m - v.titanswin, v.tied⟩
  capitals := ⟨v.capitalswin, m - v.capitalswin, v.tied⟩
  highestTeamScore := v.maxscore

def semaphoresDay (v : Vars) : DaySummary where
  titans := ⟨v.titanswin, v.capitalswin, v.tied⟩
  capitals := ⟨v.capitalswin, v.titanswin, v.tied⟩
  highestTeamScore := v.maxscore

-- `startGame` finds the scores of the capitals and of the titans.
def close (v : Vars) (result : Nat × Nat) : Vars :=
  ({ v with capitalScore := result.1, titanScore := result.2 } : Vars).summary.reset

end Vars

def day (results : List (Nat × Nat)) : Vars :=
  results.foldl Vars.close .init

def Tally.total (t : Tally) : Int :=
  t.won + t.lost + t.tied

/-- The two summaries agree, and in both of them the results of each team add up to the number of matches. -/
structure DaysAgree (results : List (Nat × Nat)) : Prop where
  agree : (day results).mutexDay results.length = (day results).semaphoresDay
  mutexTitans : ((day results).mutexDay results.length).titans.total = results.length
  mutexCapitals : ((day results).mutexDay results.length).capitals.total = results.length
  semaphoresTitans : (day results).semaphoresDay.titans.total = results.length
  semaphoresCapitals : (day results).semaphoresDay.capitals.total = results.length

namespace Condvars

variable {n : Nat} {s : State n}

-- When nobody else steps, `startGame` counts the match and clears the scores as `Vars.close` says.
theorem startGame_closes (hpc : s.game = .count)
    : ∃ k, Machine.run step s (List.replicate k .startGame) =
        some { s with vars := s.vars.close (s.vars.capitalScore, s.vars.titanScore), game := .broadcast } := by
  obtain ⟨v, mutex, bats, game⟩ := s
  dsimp only at hpc
  subst hpc
  unfold Vars.close Vars.summary Vars.reset
  by_cases hcapitals : v.capitalScore > v.titanScore
  . by_cases hmax : v.capitalScore > v.maxscore
    . refine ⟨16, ?_⟩
      simp [Machine.run, step, gameStep, summarize, clear, GamePc.clearing, hcapitals, hmax]
    . refine ⟨15, ?_⟩
      simp [Machine.run, step, gameStep, summarize, clear, GamePc.clearing, hcapitals, hmax]
  . by_cases htitans : v.titanScore > v.capitalScore
    . by_cases hmax : v.titanScore > v.maxscore
      . refine ⟨17, ?_⟩
        simp [Machine.run, step, gameStep, summarize, clear, GamePc.clearing, hcapitals, htitans, hmax]
      . refine ⟨16, ?_⟩
        simp [Machine.run, step, gameStep, summarize, clear, GamePc.clearing, hcapitals, htitans, hmax]
    . refine ⟨16, ?_⟩
      simp [Machine.run, step, gameStep, summarize, clear, GamePc.clearing, hcapitals, htitans]

end Condvars

theorem close_results (v : Vars) (result : Nat × Nat)
    : (v.close result).capitalswin + (v.close result).titanswin + (v.close result).tied =
        v.capitalswin + v.titanswin + v.tied + 1 ∧
      (v.close result).tied = v.tied + if result.1 = result.2 then 1 else 0 := by
  unfold Vars.close Vars.summary Vars.reset
  dsimp only
  by_cases hcapitals : result.1 > result.2
  . have hne : result.1 ≠ result.2 := by omega
    simp only [hcapitals, hne, if_true, if_false]
    split
    . exact ⟨by dsimp only; omega, rfl⟩
    . exact ⟨by dsimp only; omega, rfl⟩
  . by_cases htitans : result.2 > result.1
    . have hne : result.1 ≠ result.2 := by omega
      simp only [hcapitals, htitans, hne, if_true, if_false]
      split
      . exact ⟨by dsimp only; omega, rfl⟩
      . exact ⟨by dsimp only; omega, rfl⟩
    . have heq : result.1 = result.2 := by omega
      simp only [hcapitals, htitans, if_false]
      exact ⟨by omega, by rw [if_pos heq]⟩

theorem day_results (results : List (Nat × Nat))
    : (day results).capitalswin + (day results).titanswin + (day results).tied = results.length ∧
      (day results).tied = results.countP fun result => result.1 = result.2 := by
  induction results using List.reverseRecOn with
  | nil => exact ⟨rfl, rfl⟩
  | append_singleton results result ih =>
    obtain ⟨hsum, htied⟩ := close_results (day results) result
    have hday : day (results ++ [result]) = (day results).close result := List.foldl_concat _ _ _ _
    rw [hday, List.length_append, List.countP_append, List.countP_singleton, ← ih.1, ← ih.2]
    refine ⟨hsum, htied.trans ?_⟩
    simp

/-- The days agree if and only if no match is tied. -/
theorem days_agree_iff (results : List (Nat × Nat))
    : DaysAgree results ↔ ∀ result ∈ results, result.1 ≠ result.2 := by
  obtain ⟨hsum, htied⟩ := day_results results
  have hzero : (day results).tied = 0 ↔ ∀ result ∈ results, result.1 ≠ result.2 := by
    rw [htied, List.countP_eq_zero]
    simp
  rw [← hzero]
  constructor
  . intro h
    have htitans := h.mutexTitans
    unfold Vars.mutexDay Tally.total at htitans
    dsimp only at htitans
    omega
  . intro h
    constructor
    . unfold Vars.mutexDay Vars.semaphoresDay
      simp only [DaySummary.mk.injEq, Tally.mk.injEq, and_true, true_and]
      omega
    all_goals
      unfold Tally.total
      first | unfold Vars.mutexDay | unfold Vars.semaphoresDay
      dsimp only
      omega

theorem days_differ_tied : ¬ ∀ results, DaysAgree results := by
  intro h
  exact absurd (h [(5, 5)]).mutexTitans (by decide)

end Xv6.Cricket
