import Xv6.Cricket.Condvars.Lemmas

/-!
Whether the threads of `cricket-cv-mutex.c` can all be asleep. With a multiple of 22 players every match is played to
its end, so nobody is left waiting as long as no signal is lost.
-/

namespace Xv6.Cricket.Condvars

open Crowd

variable {n : Nat} {s s' : State n} {i : Fin n} {run : Fin 101} {o : Output}

/-- Somebody can take a step, and `startGame` is not asleep in a match that is over, unless it is about to be woken up. -/
def Sound (s : State n) : Prop :=
  ¬ s.stuck ∧ (s.game = .asleep → s.vars.gameover = 1 → ∃ i, s.bats i = .signal)

-- A player that has been counted.
def BatPc.counted : BatPc → Nat
  | .lock | .test | .wait | .asleep | .choose | .countCapital | .countTitan => 0
  | _ => 1

def BatPc.counting : BatPc → Nat
  | .countCapital | .countTitan => 1
  | _ => 0

-- `match` has been increased, and the reset has not begun.
def GamePc.summed : GamePc → Nat
  | .printMatch | .printScore | .printHigh | .ifCapitals | .printCapitals | .countCapitals | .ifMaxCapitals
  | .setMaxCapitals | .ifTitans | .countTitans | .printTitans | .ifMaxTitans | .setMaxTitans | .countTied | .printTied
  | .setMaxTied | .printLn | .resetGameover => 1
  | _ => 0

-- In the reset up to the broadcast.
def GamePc.waking : GamePc → Nat
  | .resetPermatch | .resetCounterCapital | .resetCounterTitan | .resetCapitalScore | .resetTitanScore | .broadcast => 1
  | _ => 0

def GamePc.inMatch : GamePc → Nat
  | .test | .wait | .asleep | .count => 1
  | _ => 0

structure Counted (v : Vars) (game : GamePc) (total : Nat) : Prop where
  whole : game.left < 3 → total + 22 * game.summed = 22 * v.matchNo + v.counterCapital + v.counterTitan
  titans : 3 ≤ game.left → game.left < 4 → total = 22 * v.matchNo + v.counterCapital
  both : 4 ≤ game.left → total = 22 * v.matchNo

structure Awake (s : State n) : Prop where
  inv : Inv s
  sleepers : s.game ≠ .done → ∀ i, s.bats i = .wait ∨ s.bats i = .asleep → s.vars.gameover = 1 ∨ s.game.waking = 1
  caller : s.game = .wait ∨ s.game = .asleep → s.vars.gameover = 1 → s.cur = .signal
  counted : s.game ≠ .done → Counted s.vars s.game (total BatPc.counted s.bats)
  matches_le : s.vars.matchNo + s.game.inMatch ≤ n / 22
  matches_eq : s.game = .unlock → s.vars.matchNo = n / 22
  done : s.game = .done → ∀ i, (s.bats i).counted = 1

theorem counted_le (pc : BatPc) : pc.counted ≤ 1 := by
  cases pc <;> simp [BatPc.counted]

theorem init_awake (n : Nat) : Awake (State.init n) where
  inv := init_inv n
  sleepers _ i h := by simp [State.init] at h
  caller h := by simp [State.init] at h
  counted _ := by
    constructor <;> simp [State.init, Vars.init, total, BatPc.counted, GamePc.left, GamePc.summed]
  matches_le := Nat.zero_le _
  matches_eq h := by cases h
  done h := by cases h

theorem stuck_bat (h : ∀ e, step s e = none) (i : Fin n)
    : (s.bats i = .lock ∧ s.mutex ≠ none) ∨ s.bats i = .asleep ∨ s.bats i = .done := by
  have hi := h (.bat i 0)
  simp only [step, batStep] at hi
  split at hi
  . next hpc =>
    split at hi
    . cases hi
    . next hmutex => exact .inl ⟨hpc, hmutex⟩
  . cases hi
  . next hpc => exact .inr (.inl hpc)
  . cases hi
  . cases hi
  . next hpc => exact .inr (.inr hpc)
  . cases hi

theorem stuck_game (h : ∀ e, step s e = none) : s.game = .asleep ∨ s.game = .done := by
  have hi := h .startGame
  simp only [step, gameStep] at hi
  split at hi
  . cases hi
  . cases hi
  . cases hi
  . next hpc => exact .inl hpc
  . cases hi
  . cases hi
  . next hpc => exact .inr hpc
  . split at hi <;> cases hi

-- If everybody is asleep or waits for the mutex, nobody has it.
theorem Awake.mutex_free (hx : Awake s) (h : ∀ e, step s e = none) (hgame : s.game ≠ .done) : s.mutex = none := by
  cases hmutex : s.mutex with
  | none => rfl
  | some i =>
    have hin := (hx.inv.exclusive hgame i).mpr hmutex
    obtain ⟨hpc, -⟩ | hpc | hpc := stuck_bat h i
    all_goals
      rw [hpc] at hin
      cases hin

theorem Awake.not_stuck (hx : Awake s) : ¬ s.stuck := by
  rintro ⟨hfin, h⟩
  obtain hgame | hgame := stuck_game h
  . have hne : s.game ≠ .done := by
      rw [hgame]
      decide
    have hfree := hx.mutex_free h hne
    have hcounters := hx.inv.counters hne
    rw [cur_of_none hfree] at hcounters
    have hgo : s.vars.gameover = 0 := by
      have hle := hcounters.gameover
      have hcaller := hx.caller (.inr hgame)
      rw [cur_of_none hfree] at hcaller
      by_contra hgo
      cases hcaller (by omega)
    have hall : ∀ i, s.bats i = .done := by
      intro i
      obtain ⟨-, hmutex⟩ | hpc | hpc := stuck_bat h i
      . exact absurd hfree hmutex
      . obtain hgo' | hwaking := hx.sleepers hne i (.inr hpc)
        . omega
        . rw [hgame] at hwaking
          cases hwaking
      . exact hpc
    -- so the match is over, and `gameover` would be set
    have htotal : total BatPc.counted s.bats = n := by
      rw [total_eq_of_forall (c := 1), Fintype.card_fin, Nat.mul_one]
      intro i
      rw [hall i]
      rfl
    have hwhole := (hx.counted hne).whole
    have hle := hx.matches_le
    have hlast := hcounters.last
    have hcaps := hcounters.capitals
    have htits := hcounters.titans
    rw [hgame] at hwhole hle hlast htits
    simp only [GamePc.left, GamePc.summed, GamePc.inMatch, BatPc.closing] at hwhole hle hlast htits
    omega
  . apply hfin
    refine ⟨hgame, ?_⟩
    intro i
    have hcounted := hx.done hgame i
    obtain ⟨hpc, -⟩ | hpc | hpc := stuck_bat h i
    . rw [hpc] at hcounted
      cases hcounted
    . rw [hpc] at hcounted
      cases hcounted
    . exact hpc

theorem Awake.sound (hx : Awake s) : Sound s := by
  refine ⟨hx.not_stuck, ?_⟩
  intro hgame hgo
  have hcur := hx.caller (.inr hgame) hgo
  unfold State.cur at hcur
  split at hcur
  . next i hmutex => exact ⟨i, hcur⟩
  . cases hcur

theorem counted_play {pc : BatPc} {v : Vars} {r : Nat} (hacts : pc.acts = true)
    : (play v r pc).2.counted = pc.counted + pc.counting := by
  cases pc <;> simp only [BatPc.acts, Bool.false_eq_true] at hacts
  all_goals simp only [play, BatPc.next]
  all_goals repeat' split
  all_goals rfl

-- The counters and the players that were counted, after a statement of a player.
theorem Counted.play {v : Vars} {game : GamePc} {cur : BatPc} {k k' : Nat} (h : Counted v game k) (r : Nat)
    (hcap : cur = .countCapital → game.left < 4) (htit : cur = .countTitan → game.left < 3)
    (hk : k' = k + cur.counting)
    : Counted (play v r cur).1 game k' := by
  obtain ⟨hwhole, htitans, hboth⟩ := h
  by_cases hc : cur = .countCapital
  . subst hc
    specialize hcap rfl
    dsimp only [BatPc.counting] at hk
    constructor <;> dsimp only [Condvars.play] <;> omega
  . by_cases ht : cur = .countTitan
    . subst ht
      specialize htit rfl
      dsimp only [BatPc.counting] at hk
      constructor <;> dsimp only [Condvars.play] <;> omega
    . have hsame : (Condvars.play v r cur).1.counterCapital = v.counterCapital ∧
          (Condvars.play v r cur).1.counterTitan = v.counterTitan ∧
          (Condvars.play v r cur).1.matchNo = v.matchNo ∧ cur.counting = 0 := by
        cases cur <;> simp only [Condvars.play, Vars.maxIndividual, not_true_eq_false] at hc ht ⊢
        all_goals repeat' split
        all_goals simp [BatPc.counting]
      constructor <;> omega

theorem Awake.setBat {pc : BatPc} (hx : Awake s) (hinv : Inv s') (hvars : s'.vars = s.vars) (hgame : s'.game = s.game)
    (hbats : s'.bats = Function.update s.bats i pc) (hcount : pc.counted = (s.bats i).counted)
    (hsleep : s.game ≠ .done → pc = .wait ∨ pc = .asleep → s.vars.gameover = 1 ∨ s.game.waking = 1)
    (hcur : s.game ≠ .done → s.cur ≠ .signal)
    : Awake s' where
  inv := hinv
  sleepers := by
    rw [hvars, hgame, hbats]
    intro hne j hj
    rw [Function.update_apply] at hj
    split at hj
    . exact hsleep hne hj
    . exact hx.sleepers hne j hj
  caller := by
    rw [hvars, hgame]
    intro hpc hgo
    refine absurd (hx.caller hpc hgo) (hcur ?_)
    obtain hpc | hpc := hpc <;> rw [hpc] <;> decide
  counted := by
    rw [hvars, hgame, hbats]
    have := total_update BatPc.counted s.bats i pc
    intro hne
    rw [show total BatPc.counted (Function.update s.bats i pc) = total BatPc.counted s.bats by omega]
    exact hx.counted hne
  matches_le := by
    rw [hvars, hgame]
    exact hx.matches_le
  matches_eq := by
    rw [hvars, hgame]
    exact hx.matches_eq
  done := by
    rw [hgame, hbats]
    intro hdone j
    rw [Function.update_apply]
    split
    . rw [hcount]
      exact hx.done hdone i
    . exact hx.done hdone j

theorem Awake.signal (hx : Awake s) (hpc : s.bats i = .signal) (hsignals : ¬ (s.game = .wait ∧ s.vars.gameover = 1))
    (hinv : Inv s') (hs' : s' = { s with game := if s.game = GamePc.asleep then GamePc.test else s.game }.setBat i .unlock)
    : Awake s' := by
  have hcount : total BatPc.counted (Function.update s.bats i .unlock) = total BatPc.counted s.bats := by
    have := total_update BatPc.counted s.bats i .unlock
    rw [hpc] at this
    exact Nat.add_right_cancel this
  have hawake : s.game ≠ .asleep → s'.game = s.game := by
    intro h
    rw [hs']
    exact if_neg h
  have hwoken : s.game = .asleep → s'.game = .test := by
    intro h
    rw [hs']
    exact if_pos h
  have hvars : s'.vars = s.vars := by rw [hs']; rfl
  have hbats : s'.bats = Function.update s.bats i .unlock := by rw [hs']; rfl
  have hbat : ∀ j, s'.bats j = .wait ∨ s'.bats j = .asleep → s.bats j = .wait ∨ s.bats j = .asleep := by
    intro j hj
    rw [hbats, Function.update_apply] at hj
    split at hj
    . simp at hj
    . exact hj
  by_cases hasleep : s.game = .asleep
  . have hne : s.game ≠ .done := by
      rw [hasleep]
      decide
    have hgame := hwoken hasleep
    have hcounted := hx.counted hne
    have hle := hx.matches_le
    have hsleepers := hx.sleepers hne
    rw [hasleep] at hcounted hle hsleepers
    constructor
    . exact hinv
    . intro _ j hj
      rw [hvars, hgame]
      exact hsleepers j (hbat j hj)
    . intro h
      rw [hgame] at h
      simp at h
    . intro _
      rw [hvars, hgame, hbats, hcount]
      exact ⟨hcounted.whole, hcounted.titans, hcounted.both⟩
    . rw [hvars, hgame]
      exact hle
    . intro h
      rw [hgame] at h
      cases h
    . intro h
      rw [hgame] at h
      cases h
  . have hgame := hawake hasleep
    constructor
    . exact hinv
    . rw [hvars, hgame]
      exact fun hne j hj => hx.sleepers hne j (hbat j hj)
    . rw [hvars, hgame]
      intro h hgo
      obtain h | h := h
      . exact absurd ⟨h, hgo⟩ hsignals
      . exact absurd h hasleep
    . rw [hvars, hgame, hbats, hcount]
      exact hx.counted
    . rw [hvars, hgame]
      exact hx.matches_le
    . rw [hvars, hgame]
      exact hx.matches_eq
    . rw [hgame, hbats]
      intro hdone j
      rw [Function.update_apply]
      split
      . rfl
      . exact hx.done hdone j

theorem play_wait {pc : BatPc} {v : Vars} {r : Nat} (hacts : pc.acts = true)
    (h : (play v r pc).2 = .wait ∨ (play v r pc).2 = .asleep)
    : (play v r pc).1.gameover = 1 := by
  cases pc <;> simp only [BatPc.acts, Bool.false_eq_true] at hacts
  case test =>
    simp only [Condvars.play] at h ⊢
    split at h
    . next hgo => exact hgo
    . simp at h
  all_goals simp only [Condvars.play, BatPc.next] at h
  all_goals repeat' split at h
  all_goals simp at h

theorem Awake.play (hx : Awake s) (hacts : (s.bats i).acts = true) (hcounters : KeepsCounters s (.bat i run))
    (hinv : Inv s')
    (hs' : s' = { s with vars := (play s.vars run (s.bats i)).1 }.setBat i (play s.vars run (s.bats i)).2)
    : Awake s' := by
  have hin := inSection_of_acts hacts
  have htotal := total_update BatPc.counted s.bats i (Condvars.play s.vars run (s.bats i)).2
  have hcount := counted_play (v := s.vars) (r := run) hacts
  have hvars : s'.vars = (Condvars.play s.vars run (s.bats i)).1 := by rw [hs']; rfl
  have hbats : s'.bats = Function.update s.bats i (Condvars.play s.vars run (s.bats i)).2 := by rw [hs']; rfl
  have hgame : s'.game = s.game := by rw [hs']; rfl
  have hmatch : s'.vars.matchNo = s.vars.matchNo := by
    rw [hvars]
    cases s.bats i <;> simp only [Condvars.play, Vars.maxIndividual]
    split <;> rfl
  -- only the last player sets `gameover`, and nobody clears it here
  have hgo : s'.vars.gameover = s.vars.gameover ∨
      (s'.vars.gameover = 1 ∧ (Condvars.play s.vars run (s.bats i)).2 = .signal) := by
    rw [hvars]
    cases s.bats i <;> simp only [Condvars.play, Vars.maxIndividual, true_or, and_self, or_true]
    split <;> exact .inl rfl
  constructor
  . exact hinv
  . intro hne j hj
    rw [hgame] at hne ⊢
    rw [hbats, Function.update_apply] at hj
    split at hj
    . left
      rw [hvars]
      exact play_wait hacts hj
    . obtain hgo1 | hwaking := hx.sleepers hne j hj
      . omega
      . exact .inr hwaking
  . intro hpc hgo1
    rw [hgame] at hpc
    have hne : s.game ≠ .done := by
      obtain hpc | hpc := hpc <;> rw [hpc] <;> decide
    have hcur := (hx.inv.exclusive hne).cur_eq hin
    have hcur' : s'.cur = (Condvars.play s.vars run (s.bats i)).2 := by
      rw [hs']
      exact ((hx.inv.exclusive hne).stay _ s.game hin (play_inSection hacts s.vars run)).2
    obtain hsame | hset := hgo
    . rw [hsame] at hgo1
      have := hx.caller hpc hgo1
      rw [hcur] at this
      rw [this] at hacts
      cases hacts
    . rw [hcur']
      exact hset.2
  . rw [hgame, hvars, hbats]
    intro hne
    exact (hx.counted hne).play run hcounters.1 hcounters.2 (by omega)
  . rw [hgame, hmatch]
    exact hx.matches_le
  . rw [hgame, hmatch]
    exact hx.matches_eq
  . rw [hgame, hbats]
    intro hdone j
    rw [Function.update_apply]
    split
    . have := hx.done hdone i
      have := counted_le (Condvars.play s.vars run (s.bats i)).2
      omega
    . exact hx.done hdone j

theorem batStep_awake (hx : Awake s) (hcounters : KeepsCounters s (.bat i run)) (hsignals : KeepsSignals s (.bat i run))
    (hs : batStep s i run = some (s', o))
    : Awake s' := by
  have hinv := batStep_inv hx.inv hcounters.1 hcounters.2 hs
  obtain ⟨hpc, hfree, hs'⟩ | ⟨hpc, hs'⟩ | ⟨hpc, hs'⟩ | ⟨hpc, hs'⟩ | ⟨hacts, hs'⟩ := batStep_cases hs
  . apply hx.setBat hinv (by rw [hs']; rfl) (by rw [hs']; rfl) (by rw [hs']; rfl) (by rw [hpc]; rfl)
    . intro _ h
      simp at h
    . rw [cur_of_none hfree]
      simp
  . apply hx.setBat hinv (by rw [hs']; rfl) (by rw [hs']; rfl) (by rw [hs']; rfl) (by rw [hpc]; rfl)
    . exact fun hne _ => hx.sleepers hne i (.inl hpc)
    . intro hne
      rw [hx.inv.cur_eq hne hpc rfl]
      simp
  . exact hx.signal hpc (hsignals hpc) hinv hs'
  . apply hx.setBat hinv (by rw [hs']; rfl) (by rw [hs']; rfl) (by rw [hs']; rfl) (by rw [hpc]; rfl)
    . intro _ h
      simp at h
    . intro hne
      rw [hx.inv.cur_eq hne hpc rfl]
      simp
  . exact hx.play hacts hcounters hinv hs'

theorem Counted.clear {v : Vars} {game : GamePc} {cur : BatPc} {k : Nat} (h : Counted v game k)
    (hc : Counters v game cur) (hpc : game.clearing = true)
    : Counted (clear v game).1 (clear v game).2 k := by
  have hover := hc.ended
  have hsum := hc.summing
  obtain ⟨hwhole, htitans, hboth⟩ := h
  cases game <;> simp only [GamePc.clearing, Bool.false_eq_true] at hpc
  all_goals
    dsimp only [GamePc.left, GamePc.summed, GamePc.summing] at hsum hwhole htitans hboth
    constructor <;> dsimp only [Condvars.clear, GamePc.left, GamePc.summed] <;> omega

theorem Counted.summarize {v : Vars} {game : GamePc} {k : Nat} (h : Counted v game k) (hpc : game.summing = 1)
    (hclearing : game.clearing = false)
    : Counted (summarize v game).1 (summarize v game).2.1 k := by
  have hwhole := h.whole
  cases game <;> simp only [GamePc.summing, GamePc.clearing, reduceCtorEq] at hpc hclearing
  all_goals simp only [Condvars.summarize]
  all_goals repeat' split
  all_goals
    dsimp only [GamePc.left, GamePc.summed] at hwhole
    constructor <;> dsimp only [GamePc.left, GamePc.summed] <;> omega

theorem summarize_matches {v : Vars} {game : GamePc} {m : Nat} (hpc : game.summing = 1)
    (hclearing : game.clearing = false) (h : v.matchNo + game.inMatch ≤ m)
    : (summarize v game).1.matchNo + (summarize v game).2.1.inMatch ≤ m ∧ (summarize v game).2.1 ≠ .unlock ∧
      (summarize v game).2.1 ≠ .wait ∧ (summarize v game).2.1 ≠ .asleep ∧ (summarize v game).2.1 ≠ .done := by
  cases game <;> simp only [GamePc.summing, GamePc.clearing, reduceCtorEq] at hpc hclearing
  all_goals simp only [Condvars.summarize]
  all_goals repeat' split
  all_goals
    simp only [GamePc.inMatch] at h ⊢
    simpa using h

theorem clear_matches {v : Vars} {game : GamePc} {m : Nat} (hpc : game.clearing = true) (h : v.matchNo + game.inMatch ≤ m)
    : (clear v game).1.matchNo + (clear v game).2.inMatch ≤ m ∧ (clear v game).2 ≠ .unlock ∧
      (clear v game).2 ≠ .wait ∧ (clear v game).2 ≠ .asleep ∧ (clear v game).2 ≠ .done ∧ (clear v game).2.waking = 1 := by
  cases game <;> simp only [GamePc.clearing, Bool.false_eq_true] at hpc
  all_goals
    simp only [Condvars.clear, GamePc.inMatch, GamePc.waking] at h ⊢
    simpa using h

-- With a multiple of 22 players, all of them have been counted when the matches are over.
theorem Awake.all_counted (hx : Awake s) (hn : 22 ∣ n) (hpc : s.game = .unlock) (i : Fin n)
    : (s.bats i).counted = 1 := by
  have hne : s.game ≠ .done := by
    rw [hpc]
    decide
  have hwhole := (hx.counted hne).whole
  have heq := hx.matches_eq hpc
  rw [hpc] at hwhole
  simp only [GamePc.left, GamePc.summed] at hwhole
  apply eq_one_of_total counted_le
  rw [Fintype.card_fin]
  omega

theorem counted_wake (pc : BatPc) : (wake pc).counted = pc.counted := by
  cases pc <;> rfl

theorem gameStep_awake (hn : 22 ∣ n) (hx : Awake s) (hsignals : KeepsSignals s .startGame)
    (hs : gameStep s = some (s', o))
    : Awake s' := by
  have hinv := gameStep_inv hx.inv hs
  have hne : s.game ≠ .done := by
    intro hdone
    simp [gameStep, hdone] at hs
  have hsleepers := hx.sleepers hne
  have hcounted := hx.counted hne
  have hle := hx.matches_le
  have hcounters := hx.inv.counters hne
  obtain ⟨hpc, rfl⟩ | ⟨hpc, rfl⟩ | ⟨hpc, rfl⟩ | ⟨hpc, rfl⟩ | ⟨hpc, rfl⟩ | ⟨hpc, rfl⟩ | ⟨hpc, hclearing, -, rfl⟩ :=
    gameStep_cases hs
  . rw [hpc] at hcounted hle hsleepers
    simp only [GamePc.inMatch] at hle
    split at hinv
    . next hmore =>
      rw [if_pos hmore]
      exact ⟨hinv, fun _ => hsleepers, fun h => by simp at h, fun _ => ⟨hcounted.whole, hcounted.titans, hcounted.both⟩,
        hmore, fun h => by simp at h, fun h => by simp at h⟩
    . next hover =>
      rw [if_neg hover]
      exact ⟨hinv, fun _ => hsleepers, fun h => by simp at h, fun _ => ⟨hcounted.whole, hcounted.titans, hcounted.both⟩,
        hle, fun _ => by dsimp only; omega, fun h => by simp at h⟩
  . rw [hpc] at hcounted hle hsleepers
    split at hinv
    . next hgo =>
      rw [if_pos hgo]
      exact ⟨hinv, fun _ => hsleepers, fun _ h => by dsimp only at h; omega,
        fun _ => ⟨hcounted.whole, hcounted.titans, hcounted.both⟩, hle, fun h => by simp at h, fun h => by simp at h⟩
    . next hgo =>
      rw [if_neg hgo]
      exact ⟨hinv, fun _ => hsleepers, fun h => by simp at h, fun _ => ⟨hcounted.whole, hcounted.titans, hcounted.both⟩,
        hle, fun h => by simp at h, fun h => by simp at h⟩
  . have hcaller := hx.caller (.inl hpc)
    rw [hpc] at hcounted hle hsleepers
    exact ⟨hinv, fun _ => hsleepers, fun _ => hcaller, fun _ => ⟨hcounted.whole, hcounted.titans, hcounted.both⟩, hle,
      fun h => by simp at h, fun h => by simp at h⟩
  . -- everybody is woken up, since nobody is on the way to sleep
    have hawake : ∀ i, wake (s.bats i) ≠ .wait ∧ wake (s.bats i) ≠ .asleep := by
      intro i
      have hi := hsignals hpc i
      cases hbat : s.bats i <;> rw [hbat] at hi <;> simp [wake] at hi ⊢
    have hcount : total BatPc.counted (fun i => wake (s.bats i)) = total BatPc.counted s.bats := by
      apply Finset.sum_congr rfl
      intro i _
      exact counted_wake (s.bats i)
    rw [hpc] at hcounted hle
    refine ⟨hinv, ?_, fun h => by simp at h, ?_, hle, fun h => by simp at h, fun h => by simp at h⟩
    . intro _ i hi
      obtain hi | hi := hi
      . exact absurd hi (hawake i).1
      . exact absurd hi (hawake i).2
    . intro _
      rw [show total BatPc.counted _ = _ from hcount]
      exact ⟨hcounted.whole, hcounted.titans, hcounted.both⟩
  . refine ⟨hinv, fun h => absurd rfl h, fun h => by simp at h, fun h => absurd rfl h, ?_, fun h => by simp at h, ?_⟩
    . rw [hpc] at hle
      exact hle
    . exact fun _ => hx.all_counted hn hpc
  . obtain ⟨hle', hunlock, hwait, hasleep, hdone, hwaking⟩ := clear_matches hpc hle
    refine ⟨hinv, fun _ _ _ => .inr hwaking, ?_, fun _ => hcounted.clear hcounters hpc, hle', fun h => absurd h hunlock,
      fun h => absurd h hdone⟩
    intro h
    obtain h | h := h
    . exact absurd h hwait
    . exact absurd h hasleep
  . obtain ⟨hle', hunlock, hwait, hasleep, hdone⟩ := summarize_matches hpc hclearing hle
    obtain ⟨-, -, -, -, hgo, -, -, -⟩ := summarize_frame (v := s.vars) hpc hclearing
    refine ⟨hinv, ?_, ?_, fun _ => hcounted.summarize hpc hclearing, hle', fun h => absurd h hunlock,
      fun h => absurd h hdone⟩
    . intro _ _ _
      left
      dsimp only
      rw [hgo]
      exact hcounters.summing (by omega)
    . intro h
      obtain h | h := h
      . exact absurd h hwait
      . exact absurd h hasleep

theorem step_awake {e : Event n} (hn : 22 ∣ n) (hx : Awake s) (hcounters : KeepsCounters s e)
    (hsignals : KeepsSignals s e) (hs : step s e = some (s', o))
    : Awake s' := by
  cases e with
  | bat i run => exact batStep_awake hx hcounters hsignals hs
  | startGame => exact gameStep_awake hn hx hsignals hs

/-- Nobody is left asleep in a run in which no signal falls into the way to sleep and no bat into the reset. -/
theorem nobody_left_asleep (n : Nat) (hn : 22 ∣ n) (es : List (Event n))
    (h : Machine.Along step (fun s e _ _ => KeepsCounters s e ∧ KeepsSignals s e) (State.init n) es)
    : Machine.Always step Sound (State.init n) es := by
  have hinit := init_awake n
  refine ⟨hinit.sound, ?_⟩
  apply Machine.along_of_invariant (I := Awake) _ hinit h
  intro s e o s' hx hs hkeeps
  have := step_awake hn hx hkeeps.1 hkeeps.2 hs
  exact ⟨this.sound, this⟩

-- A whole day of one match, in which the first player scores.
theorem nobody_left_asleep_wholeDay
    : Machine.Always step Sound (State.init 22)
        (List.replicate 3 .startGame ++ (List.finRange 22).flatMap (fun i =>
          List.replicate (if i = 0 then 9 else if i < 11 then 8 else if i < 21 then 9 else 11)
            (.bat i (if i = 0 then 7 else 0))) ++ List.replicate 20 .startGame) :=
  nobody_left_asleep 22 ⟨1, rfl⟩ _ (by decide +kernel)

-- `startGame` finds `gameover` clear and falls asleep after the whole match.
def lateRun : List (Event 22) :=
  [.startGame, .startGame] ++ (List.range 22).flatMap (fun j =>
    List.replicate (if j < 11 then 8 else if j < 21 then 9 else 11) (.bat (Fin.ofNat 22 j) 0)) ++ [.startGame]

-- Everybody is done but `startGame`, which sleeps for ever.
def State.deserted (s : State n) : Prop :=
  s.game = .asleep ∧ s.vars.gameover = 1 ∧ ∀ i, s.bats i = .done

instance (s : State n) : Decidable s.deserted :=
  inferInstanceAs (Decidable (_ ∧ _ ∧ _))

theorem State.deserted.not_sound (h : s.deserted) : ¬ Sound s := by
  obtain ⟨hgame, hgo, hall⟩ := h
  rintro ⟨hstuck, -⟩
  apply hstuck
  constructor
  . intro hfin
    rw [hfin.1] at hgame
    cases hgame
  . intro e
    cases e with
    | bat i run => simp [step, batStep, hall i]
    | startGame => simp [step, gameStep, hgame]

theorem match_never_summed : ¬ Machine.Always step Sound (State.init 22) lateRun := by
  intro h
  have hdeserted : Machine.Along step (fun _ _ _ s' => ¬ s'.deserted) (State.init 22) lateRun := by
    apply Machine.along_of_invariant (I := fun _ => True) _ trivial h.2
    intro _ _ _ s' _ _ hsound
    exact ⟨fun hd => hd.not_sound hsound, trivial⟩
  revert hdeserted
  decide +kernel

end Xv6.Cricket.Condvars
