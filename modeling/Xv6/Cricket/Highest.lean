import Xv6.Cricket.Semaphores

/-!
The highest individual score of the day. The players that are left when all matches are over bat too, and their runs
count for the day, but no match summary shows them.
-/

namespace Xv6.Cricket.Semaphores

variable {n : Nat}

-- The highest individual scores of the match summaries, the last one first.
def recordHigh (s : State n) (e : Event n) (_ : State n) (printed : List Nat) : List Nat :=
  match e with
  | .bat _ _ => printed
  | .startGame => if s.game = .summary then s.vars.permatchscore :: printed else printed

-- A player who bats when all matches are over makes no more runs than somebody before him.
def Modest (s : State n) : Event n → Prop
  | .bat i run => s.bats i = .play → s.vars.matchNo = n / 22 → run ≤ s.vars.individualScore
  | .startGame => True

instance (s : State n) : (e : Event n) → Decidable (Modest s e)
  | .bat _ _ => inferInstanceAs (Decidable (_ → _))
  | .startGame => .isTrue trivial

variable {x x' : State n × List Nat} {s s' : State n} {e : Event n} {o : Output} {i : Fin n}

-- The runs since the last summary, and the ones before it.
structure Highest (x : State n × List Nat) : Prop where
  tokens : Tokens x.1
  high : x.1.vars.individualScore = max (maximum x.2) x.1.vars.permatchscore

theorem play_high (s : State n) (run : Nat)
    : (s.play run).vars.individualScore = max s.vars.individualScore run ∧
      (s.play run).vars.permatchscore = max s.vars.permatchscore run ∧
      (s.play run).vars.matchNo = s.vars.matchNo := by
  have hcapital : (s.vars.batCapital run).individualScore = max s.vars.individualScore run ∧
      (s.vars.batCapital run).permatchscore = max s.vars.permatchscore run ∧
      (s.vars.batCapital run).matchNo = s.vars.matchNo := by
    unfold Vars.batCapital Vars.maxIndividual Vars.maxPermatch
    split <;> split <;> dsimp only at * <;> omega
  have htitan : (s.vars.batTitan run).individualScore = max s.vars.individualScore run ∧
      (s.vars.batTitan run).permatchscore = max s.vars.permatchscore run ∧
      (s.vars.batTitan run).matchNo = s.vars.matchNo := by
    unfold Vars.batTitan Vars.maxIndividual Vars.maxPermatch
    split <;> split <;> dsimp only at * <;> omega
  unfold State.play
  split
  . exact hcapital
  . dsimp only
    split <;> exact htitan

theorem summary_high (v : Vars)
    : v.summary.reset.individualScore = v.individualScore ∧ v.summary.reset.permatchscore = 0 := by
  obtain ⟨c, t, d, -, hv⟩ := v.summary_eq
  rw [hv]
  exact ⟨rfl, rfl⟩

-- A step bats, closes a match, or leaves the scores alone.
inductive Scores (s : State n) : Event n → State n → Prop where
  | bats {t : State n} {i : Fin n} {run : Fin 101} (hpc : s.bats i = .play)
      (hhigh : t.vars.individualScore = max s.vars.individualScore run)
      (hpermatch : t.vars.permatchscore = max s.vars.permatchscore run) (hmatch : t.vars.matchNo = s.vars.matchNo)
    : Scores s (.bat i run) t
  | closes {t : State n} (hpc : s.game = .summary) (hhigh : t.vars.individualScore = s.vars.individualScore)
      (hpermatch : t.vars.permatchscore = 0)
    : Scores s .startGame t
  | waits {t : State n} {i : Fin n} {run : Fin 101} (hpc : s.bats i ≠ .play) (hvars : t.vars = s.vars)
    : Scores s (.bat i run) t
  | moves {t : State n} (hpc : s.game ≠ .summary) (hvars : t.vars = s.vars) : Scores s .startGame t

theorem step_scores (hs : step s e = some (s', o)) : Scores s e s' := by
  cases e with
  | bat i run =>
    simp only [step, batStep] at hs
    split at hs
    . next hpc =>
      split at hs
      . cases hs
        exact .waits (by rw [hpc]; intro heq; cases heq) rfl
      . cases hs
    . next hpc =>
      split at hs
      . cases hs
        exact .waits (by rw [hpc]; intro heq; cases heq) rfl
      . cases hs
    . next hpc =>
      cases hs
      obtain ⟨hhigh, hpermatch, hmatch⟩ := play_high s run
      exact .bats hpc hhigh hpermatch hmatch
    . next hpc =>
      cases hs
      exact .waits (by rw [hpc]; intro heq; cases heq) rfl
    . cases hs
  | startGame =>
    simp only [step, gameStep] at hs
    split at hs
    . next hpc =>
      cases hs
      exact .moves (by rw [hpc]; intro heq; cases heq) rfl
    . next hpc =>
      split at hs
      . cases hs
        exact .moves (by rw [hpc]; intro heq; cases heq) rfl
      . cases hs
    . next hpc =>
      split at hs
      . cases hs
        exact .moves (by rw [hpc]; intro heq; cases heq) rfl
      . cases hs
    . next hpc =>
      cases hs
      obtain ⟨hhigh, hpermatch⟩ := summary_high s.vars
      exact .closes hpc hhigh hpermatch
    . next hpc =>
      split at hs
      . cases hs
        exact .moves (by rw [hpc]; intro heq; cases heq) rfl
      . cases hs
        exact .moves (by rw [hpc]; intro heq; cases heq) rfl
    . next hpc =>
      cases hs
      exact .moves (by rw [hpc]; intro heq; cases heq) rfl
    . cases hs

-- When all matches are over, no run is higher than those in the summaries.
def Shown (x : State n × List Nat) : Prop :=
  x.1.vars.matchNo = n / 22 → x.1.vars.permatchscore ≤ maximum x.2

theorem step_highest (hx : Highest x) (hstep : Machine.watch step recordHigh x e = some (x', o)) : Highest x' := by
  obtain ⟨hs, hprinted⟩ := Machine.watch_eq_some hstep
  have hhigh := hx.high
  refine ⟨step_tokens hx.tokens hs, ?_⟩
  rw [hprinted]
  cases step_scores hs with
  | bats hpc hhigh' hpermatch' hmatch =>
    rw [hhigh', hpermatch', hhigh]
    exact Nat.max_assoc _ _ _
  | closes hpc hhigh' hpermatch' =>
    have hcons : maximum (x.1.vars.permatchscore :: x.2) = max x.1.vars.permatchscore (maximum x.2) := rfl
    rw [hhigh', hpermatch', recordHigh, if_pos hpc, hcons]
    omega
  | waits hpc hvars => rwa [hvars]
  | moves hpc hvars =>
    rw [hvars, recordHigh, if_neg hpc]
    exact hhigh

theorem step_shown (hx : Highest x) (hstep : Machine.watch step recordHigh x e = some (x', o))
    : Shown x' ↔ Shown x ∧ Modest x.1 e := by
  obtain ⟨hs, hprinted⟩ := Machine.watch_eq_some hstep
  have hhigh := hx.high
  unfold Shown
  rw [hprinted]
  cases step_scores hs with
  | bats hpc hhigh' hpermatch' hmatch =>
    rw [hmatch, hpermatch']
    unfold recordHigh Modest
    dsimp only
    constructor
    . intro h
      refine ⟨fun hover => ?_, fun _ hover => ?_⟩
      . have := h hover
        omega
      . have := h hover
        omega
    . rintro ⟨h, hmodest⟩ hover
      have hle := h hover
      have hrun := hmodest hpc hover
      omega
  | closes hpc hhigh' hpermatch' =>
    have hlt := hx.tokens.matches_le
    rw [hpc] at hlt
    simp only [GamePc.inMatch] at hlt
    rw [hpermatch']
    constructor
    . intro _
      refine ⟨fun hover => ?_, trivial⟩
      omega
    . intro _ _
      exact Nat.zero_le _
  | waits hpc hvars =>
    rw [hvars]
    constructor
    . intro h
      exact ⟨h, fun hplay => absurd hplay hpc⟩
    . exact And.left
  | moves hpc hvars =>
    rw [hvars, recordHigh, if_neg hpc]
    constructor
    . intro h
      exact ⟨h, trivial⟩
    . exact And.left

/-- The score of the day is the highest of the match summaries if and only if the players that are left are modest. -/
theorem day_highest_iff (n : Nat) (es : List (Event n)) {x : State n × List Nat}
    (hrun : Machine.run (Machine.watch step recordHigh) (State.init n, []) es = some x) (hfin : x.1.finished)
    : x.1.vars.individualScore = maximum x.2 ↔
      Machine.Along (Machine.watch step recordHigh) (fun x e _ _ => Modest x.1 e) (State.init n, []) es := by
  have hinit : Highest (State.init n, []) := ⟨init_tokens n, rfl⟩
  have hshown : Shown (State.init n, []) := fun _ => Nat.le_refl 0
  have hx : Highest x := by
    apply Machine.run_invariant' _ hinit hrun
    intro x e o x' hx hstep
    exact step_highest hx hstep
  have hiff := Machine.run_iff_along (fun _ _ _ _ hx hstep => step_highest hx hstep)
    (fun _ _ _ _ hx hstep => step_shown hx hstep) hinit hrun
  rw [and_iff_right hshown] at hiff
  have hover := hx.tokens.matches_eq hfin.1
  have hhigh := hx.high
  rw [← hiff]
  unfold Shown
  constructor
  . intro heq _
    omega
  . intro hle
    have := hle hover
    omega

-- One player is not enough for a match.
def lonely (run : Fin 101) : List (Event 1) :=
  .startGame :: List.replicate 4 (.bat 0 run)

-- A match with a highest score of 50, and then a player without one who makes 10.
theorem day_highest_iff_fifty
    : ∃ x, Machine.run (Machine.watch step recordHigh) (State.init 23, [])
        (.startGame :: ((List.finRange 22).flatMap fun i =>
          List.replicate 4 (.bat i.castSucc (if i = 3 then 50 else 10))) ++
          List.replicate 28 .startGame ++ List.replicate 4 (.bat 22 10)) = some x ∧
      (x.1.vars.individualScore = maximum x.2 ↔
        Machine.Along (Machine.watch step recordHigh) (fun x e _ _ => Modest x.1 e) (State.init 23, [])
          (.startGame :: ((List.finRange 22).flatMap fun i =>
            List.replicate 4 (.bat i.castSucc (if i = 3 then 50 else 10))) ++
            List.replicate 28 .startGame ++ List.replicate 4 (.bat 22 10))) := by
  have hall : (Machine.run (Machine.watch step recordHigh) (State.init 23, [])
      (.startGame :: ((List.finRange 22).flatMap fun i =>
        List.replicate 4 (.bat i.castSucc (if i = 3 then 50 else 10))) ++
        List.replicate 28 .startGame ++ List.replicate 4 (.bat 22 10))).map
      (fun x => decide (x.1.game = .done ∧ ∀ i, x.1.bats i = .done)) = some true := by decide +kernel
  obtain ⟨x, hrun, hfin⟩ := Option.map_eq_some_iff.mp hall
  have hfinished : x.1.game = .done ∧ ∀ i, x.1.bats i = .done := of_decide_eq_true hfin
  exact ⟨x, hrun, day_highest_iff 23 _ hrun hfinished⟩

theorem day_highest_of_nobody
    : ¬ ∀ (n : Nat) (es : List (Event n)) (x : State n × List Nat),
        Machine.run (Machine.watch step recordHigh) (State.init n, []) es = some x → x.1.finished →
        x.1.vars.individualScore = maximum x.2 := by
  intro h
  have heq := h 1 (lonely 7) _ rfl ⟨rfl, fun i => by rw [Subsingleton.elim i 0]; rfl⟩
  exact absurd heq (by decide)

end Xv6.Cricket.Semaphores
