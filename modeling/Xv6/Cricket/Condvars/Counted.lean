import Xv6.Cricket.Condvars.Lemmas

/-!
The matches of `cricket-cv-mutex.c`. The history beside the machine holds who has batted, with the runs: the players of
each team since the last summary, and those of the matches before it.
-/

namespace Xv6.Cricket.Condvars

variable {n : Nat}

structure Day (n : Nat) where
  capitals : List (Fin n × Nat)
  titans : List (Fin n × Nat)
  completed : List (Fin n × Nat)
  printed : Nat

def Day.init : Day n :=
  ⟨[], [], [], 0⟩

def Day.all (h : Day n) : List (Fin n × Nat) :=
  h.capitals ++ h.titans ++ h.completed

def runs (l : List (Fin n × Nat)) : Nat :=
  (l.map Prod.snd).sum

def record (s : State n) (e : Event n) (_ : State n) (h : Day n) : Day n :=
  match e with
  | .bat i run =>
    if s.bats i = .scoreCapital then { h with capitals := (i, run.val) :: h.capitals }
    else if s.bats i = .scoreTitan then { h with titans := (i, run.val) :: h.titans }
    else h
  | .startGame =>
    if s.game = .printScore then ⟨[], [], h.all, h.printed + s.vars.capitalScore + s.vars.titanScore⟩ else h

-- A player that has added its run to a score.
def BatPc.batted : BatPc → Bool
  | .individual _ _ | .testPermatch _ _ | .setPermatch _ _ | .checkTitan | .setOver | .signal | .unlock | .done => true
  | _ => false

/-- A summary is about 11 players of each team, and the scores are the sums of their runs. -/
def Fair (x : State n × Day n) (e : Event n) (o : Output) (_ : State n × Day n) : Prop :=
  e = .startGame → x.1.game = .printScore →
    x.2.capitals.length = 11 ∧ x.2.titans.length = 11 ∧ o = .score (runs x.2.capitals) (runs x.2.titans)

/-- Every bat is counted in one match, and the scores printed so far are the runs of the players of these matches. -/
def Results (x : State n × Day n) : Prop :=
  (x.2.all.map Prod.fst).Nodup ∧ (∀ i, i ∈ x.2.all.map Prod.fst ↔ (x.1.bats i).batted = true) ∧
    x.2.printed = runs x.2.completed

def BatPc.scoresCapital : BatPc → Nat
  | .scoreCapital => 1
  | _ => 0

def BatPc.scoresTitan : BatPc → Nat
  | .scoreTitan => 1
  | _ => 0

-- Behind the score.
def BatPc.scored : BatPc → Nat
  | .individual true _ | .testPermatch true _ | .setPermatch true _ | .checkTitan | .setOver => 1
  | _ => 0

-- The score has been printed, and the counters are still the old ones.
def GamePc.printed : GamePc → Nat
  | .printHigh | .ifCapitals | .printCapitals | .countCapitals | .ifMaxCapitals | .setMaxCapitals | .ifTitans
  | .countTitans | .printTitans | .ifMaxTitans | .setMaxTitans | .countTied | .printTied | .setMaxTied | .printLn
  | .resetGameover => 1
  | _ => 0

structure Books (v : Vars) (game : GamePc) (cur : BatPc) (h : Day n) : Prop where
  capitals : game.left < 4 → game.printed = 0 → h.capitals.length + cur.scoresCapital = v.counterCapital
  titans : game.left < 3 → game.printed = 0 → h.titans.length + cur.scoresTitan = v.counterTitan
  capitalScore : game.left < 2 → game.printed = 0 → runs h.capitals = v.capitalScore
  titanScore : game.left < 1 → game.printed = 0 → runs h.titans = v.titanScore
  noCapitals : 2 ≤ game.left ∨ game.printed = 1 → h.capitals = []
  noTitans : 1 ≤ game.left ∨ game.printed = 1 → h.titans = []
  noCapital : 4 ≤ game.left → cur.scoresCapital = 0
  scored : 1 ≤ cur.scored → game.left < 1
  pending : 1 ≤ game.left → v.gameover = 0

variable {s s' : State n} {v v' : Vars} {game game' : GamePc} {cur cur' : BatPc} {h : Day n} {i : Fin n} {run : Fin 101}
  {o : Output}

theorem Counters.playing_summing (h : Counters v game cur) (hcur : cur.playing = 1) : game.summing ≠ 1 := by
  intro hsum
  have hgo := h.summing (by omega)
  have := (h.ended hgo).2.2
  omega

theorem printed_le (game : GamePc) : game.printed ≤ game.summing := by
  cases game <;> decide

theorem summing_le (game : GamePc) : game.summing ≤ 1 := by
  cases game <;> decide

namespace Books

theorem init : Books .init .loop .lock (Day.init : Day n) := by
  constructor <;> simp [Vars.init, Day.init, runs, BatPc.scoresCapital, BatPc.scoresTitan, BatPc.scored, GamePc.left,
    GamePc.printed]

theorem move (hb : Books v game cur h) (hcc : v'.counterCapital = v.counterCapital)
    (hct : v'.counterTitan = v.counterTitan) (hcs : v'.capitalScore = v.capitalScore)
    (hts : v'.titanScore = v.titanScore) (hgo : v'.gameover = v.gameover)
    (hcapital : cur'.scoresCapital = cur.scoresCapital) (htitan : cur'.scoresTitan = cur.scoresTitan)
    (hscored : cur'.scored ≤ cur.scored)
    : Books v' game cur' h where
  capitals := by rw [hcapital, hcc]; exact hb.capitals
  titans := by rw [htitan, hct]; exact hb.titans
  capitalScore := by rw [hcs]; exact hb.capitalScore
  titanScore := by rw [hts]; exact hb.titanScore
  noCapitals := hb.noCapitals
  noTitans := hb.noTitans
  noCapital := by rw [hcapital]; exact hb.noCapital
  scored hle := hb.scored (by omega)
  pending := by rw [hgo]; exact hb.pending

-- The history of a statement of a player.
def note (h : Day n) (i : Fin n) (run : Nat) (pc : BatPc) : Day n :=
  if pc = .scoreCapital then { h with capitals := (i, run) :: h.capitals }
  else if pc = .scoreTitan then { h with titans := (i, run) :: h.titans }
  else h

theorem play (hb : Books v game cur h) (hc : Counters v game cur) (i : Fin n) (run : Nat)
    (hcap : cur = .countCapital → game.left < 4) (htit : cur = .countTitan → game.left < 3)
    (hcapScore : cur = .scoreCapital → game.left < 2) (htitScore : cur = .scoreTitan → game.left < 1)
    : Books (play v run cur).1 game (play v run cur).2 (note h i run cur) := by
  have hprinted : cur.playing = 1 → game.printed = 0 := by
    intro hplaying
    have := hc.playing_summing hplaying
    have := printed_le game
    have := summing_le game
    omega
  cases cur with
  | test =>
    simp only [Condvars.play]
    split
    . exact hb.move rfl rfl rfl rfl rfl rfl rfl (Nat.le_refl 0)
    . exact hb.move rfl rfl rfl rfl rfl rfl rfl (Nat.le_refl 0)
  | choose =>
    simp only [Condvars.play]
    split
    . exact hb.move rfl rfl rfl rfl rfl rfl rfl (Nat.le_refl 0)
    . exact hb.move rfl rfl rfl rfl rfl rfl rfl (Nat.le_refl 0)
  | countCapital =>
    have hleft := hcap rfl
    exact { hb with
      capitals := fun h1 h2 => congrArg (· + 1) (hb.capitals h1 h2)
      noCapital := fun h1 => by omega
      scored := fun h1 => by cases h1 }
  | scoreCapital =>
    have hleft := hcapScore rfl
    specialize hprinted rfl
    have hcount := hb.capitals (by omega) hprinted
    have hscore := hb.capitalScore hleft hprinted
    exact { hb with
      capitals := fun _ _ => hcount
      titans := hb.titans
      capitalScore := fun _ _ => by
        show runs ((i, run) :: h.capitals) = v.capitalScore + run
        rw [← hscore]
        simp [runs, Nat.add_comm]
      titanScore := hb.titanScore
      noCapitals := fun h1 => by omega
      noCapital := fun _ => rfl
      scored := fun h1 => by cases h1 }
  | countTitan =>
    have hleft := htit rfl
    exact { hb with
      titans := fun h1 h2 => congrArg (· + 1) (hb.titans h1 h2)
      scored := fun h1 => by cases h1 }
  | scoreTitan =>
    have hleft := htitScore rfl
    specialize hprinted rfl
    have hcount := hb.titans (by omega) hprinted
    have hscore := hb.titanScore hleft hprinted
    exact { hb with
      capitals := hb.capitals
      titans := fun _ _ => hcount
      capitalScore := hb.capitalScore
      titanScore := fun _ _ => by
        show runs ((i, run) :: h.titans) = v.titanScore + run
        rw [← hscore]
        simp [runs, Nat.add_comm]
      noTitans := fun h1 => by omega
      scored := fun _ => hleft }
  | individual titan r =>
    simp only [Condvars.play, Vars.maxIndividual]
    split <;> cases titan <;> exact hb.move rfl rfl rfl rfl rfl rfl rfl (Nat.le_refl _)
  | testPermatch titan r =>
    simp only [Condvars.play]
    split <;> cases titan <;> exact hb.move rfl rfl rfl rfl rfl rfl rfl (Nat.le_refl _)
  | setPermatch titan r => cases titan <;> exact hb.move rfl rfl rfl rfl rfl rfl rfl (Nat.le_refl _)
  | checkTitan =>
    simp only [Condvars.play]
    split
    . exact hb.move rfl rfl rfl rfl rfl rfl rfl (Nat.le_refl 1)
    . exact hb.move rfl rfl rfl rfl rfl rfl rfl (Nat.zero_le 1)
  | setOver =>
    have hleft := hb.scored (Nat.le_refl 1)
    exact { hb with
      scored := fun _ => hleft
      pending := fun h1 => by omega }
  | lock => exact hb
  | wait => exact hb
  | asleep => exact hb
  | signal => exact hb
  | unlock => exact hb
  | done => exact hb

theorem moveGame (hb : Books v game cur h) (hcc : v'.counterCapital = v.counterCapital)
    (hct : v'.counterTitan = v.counterTitan) (hcs : v'.capitalScore = v.capitalScore)
    (hts : v'.titanScore = v.titanScore) (hgo : v'.gameover = v.gameover) (hleft : game'.left = game.left)
    (hprinted : game'.printed = game.printed)
    : Books v' game' cur h where
  capitals := by rw [hleft, hprinted, hcc]; exact hb.capitals
  titans := by rw [hleft, hprinted, hct]; exact hb.titans
  capitalScore := by rw [hleft, hprinted, hcs]; exact hb.capitalScore
  titanScore := by rw [hleft, hprinted, hts]; exact hb.titanScore
  noCapitals := by rw [hleft, hprinted]; exact hb.noCapitals
  noTitans := by rw [hleft, hprinted]; exact hb.noTitans
  noCapital := by rw [hleft]; exact hb.noCapital
  scored := by rw [hleft]; exact hb.scored
  pending := by rw [hleft, hgo]; exact hb.pending

theorem clear (hb : Books v game cur h) (hc : Counters v game cur) (hpc : game.clearing = true)
    : Books (clear v game).1 (clear v game).2 cur h := by
  have hplaying : cur.scoresCapital ≤ cur.playing ∧ cur.scoresTitan ≤ cur.closing ∧ cur.scored ≤ cur.playing := by
    cases cur <;> simp [BatPc.scoresCapital, BatPc.scoresTitan, BatPc.playing, BatPc.closing, BatPc.scored]
    all_goals split <;> simp
  have hover := hc.ended
  have hsum := hc.summing
  have hclosing := hc.closing
  have hcapsNil : h.capitals = [] → h.capitals.length = 0 ∧ runs h.capitals = 0 := by
    rintro heq
    rw [heq]
    exact ⟨rfl, rfl⟩
  have htitsNil : h.titans = [] → h.titans.length = 0 ∧ runs h.titans = 0 := by
    rintro heq
    rw [heq]
    exact ⟨rfl, rfl⟩
  obtain ⟨hcaps, htits, hcapScore, htitScore, hnoCaps, hnoTits, hnoCap, hscored, hpending⟩ := hb
  cases game <;> simp only [GamePc.clearing, Bool.false_eq_true] at hpc
  all_goals
    dsimp only [GamePc.left, GamePc.printed, GamePc.summing] at hsum hclosing hcaps htits hcapScore htitScore
    dsimp only [GamePc.left, GamePc.printed] at hnoCaps hnoTits hnoCap hscored hpending
    constructor <;> dsimp only [Condvars.clear, GamePc.left, GamePc.printed]
    all_goals
      intros
      first
      | omega
      | exact hnoCaps (by omega)
      | exact hnoTits (by omega)
      | (have hnil := hcapsNil (hnoCaps (by omega)); omega)
      | (have hnil := htitsNil (hnoTits (by omega)); omega)

theorem print (cur : BatPc) (h : Day n) (p : Nat) : Books v .printHigh cur ⟨[], [], h.all, p⟩ where
  capitals _ hprinted := by cases hprinted
  titans _ hprinted := by cases hprinted
  capitalScore _ hprinted := by cases hprinted
  titanScore _ hprinted := by cases hprinted
  noCapitals _ := rfl
  noTitans _ := rfl
  noCapital hleft := by cases hleft
  scored _ := Nat.zero_lt_one
  pending hleft := by cases hleft

theorem summarize_printed (hpc : game.summing = 1) (hclearing : game.clearing = false) (hne : game ≠ .printScore)
    : (summarize v game).2.1.printed = game.printed := by
  cases game <;> simp only [GamePc.summing, GamePc.clearing, reduceCtorEq, ne_eq, not_true_eq_false] at hpc hclearing hne
  all_goals simp only [summarize]
  all_goals repeat' split
  all_goals rfl

end Books

structure Kept (x : State n × Day n) : Prop where
  inv : Inv x.1
  books : x.1.game ≠ .done → Books x.1.vars x.1.game x.1.cur x.2

theorem batStep_books (hx : Inv s) (hb : s.game ≠ .done → Books s.vars s.game s.cur h)
    (hcounters : KeepsCounters s (.bat i run)) (hscores : KeepsScores s (.bat i run))
    (hs : batStep s i run = some (s', o)) (hgame' : s'.game ≠ .done)
    : Books s'.vars s'.game s'.cur (record s (.bat i run) s' h) := by
  obtain ⟨hpc, hfree, rfl⟩ | ⟨hpc, rfl⟩ | ⟨hpc, rfl⟩ | ⟨hpc, rfl⟩ | ⟨hacts, rfl⟩ := batStep_cases hs
  . have hgame : s.game ≠ .done := hgame'
    have hb := hb hgame
    rw [cur_of_none hfree] at hb
    rw [((hx.exclusive hgame).enter hfree rfl).2]
    simp only [record, hpc, reduceCtorEq, if_false]
    exact hb.move rfl rfl rfl rfl rfl rfl rfl (Nat.le_refl 0)
  . have hgame : s.game ≠ .done := hgame'
    have hb := hb hgame
    rw [hx.cur_eq hgame hpc rfl] at hb
    rw [cur_of_none rfl]
    simp only [record, hpc, reduceCtorEq, if_false]
    exact hb.move rfl rfl rfl rfl rfl rfl rfl (Nat.le_refl 0)
  . have hgame : s.game ≠ .done := by
      intro heq
      simp [State.setBat, heq] at hgame'
    have hb := hb hgame
    rw [hx.cur_eq hgame hpc rfl] at hb
    rw [((hx.exclusive hgame).stay s.vars _ (by rw [hpc]; rfl) rfl).2]
    simp only [record, hpc, reduceCtorEq, if_false]
    have hunlock : Books s.vars s.game .unlock h := hb.move rfl rfl rfl rfl rfl rfl rfl (Nat.le_refl 0)
    apply hunlock.moveGame rfl rfl rfl rfl rfl
    . dsimp only [State.setBat]
      split
      . next heq => rw [heq]; rfl
      . rfl
    . dsimp only [State.setBat]
      split
      . next heq => rw [heq]; rfl
      . rfl
  . have hgame : s.game ≠ .done := hgame'
    have hb := hb hgame
    rw [hx.cur_eq hgame hpc rfl] at hb
    rw [cur_of_none rfl]
    simp only [record, hpc, reduceCtorEq, if_false]
    exact hb.move rfl rfl rfl rfl rfl rfl rfl (Nat.le_refl 0)
  . have hgame : s.game ≠ .done := hgame'
    have hin := inSection_of_acts hacts
    have hb := hb hgame
    have hc := hx.counters hgame
    rw [(hx.exclusive hgame).cur_eq hin] at hb hc
    rw [((hx.exclusive hgame).stay _ s.game hin (play_inSection hacts s.vars run)).2]
    exact hb.play hc i run hcounters.1 hcounters.2 hscores.1 hscores.2

theorem gameStep_books (hx : Inv s) (hb : s.game ≠ .done → Books s.vars s.game s.cur h)
    (hs : gameStep s = some (s', o)) (hgame' : s'.game ≠ .done)
    : Books s'.vars s'.game s'.cur (record s .startGame s' h) := by
  have hgame : s.game ≠ .done := by
    intro hdone
    simp [gameStep, hdone] at hs
  have hex := hx.exclusive hgame
  have hcount := hx.counters hgame
  have hb := hb hgame
  obtain ⟨hpc, rfl⟩ | ⟨hpc, rfl⟩ | ⟨hpc, rfl⟩ | ⟨hpc, rfl⟩ | ⟨hpc, rfl⟩ | ⟨hpc, rfl⟩ | ⟨hpc, hclearing, -, rfl⟩ :=
    gameStep_cases hs
  . simp only [record, hpc, reduceCtorEq, if_false]
    rw [hpc] at hb
    split
    . exact hb.moveGame rfl rfl rfl rfl rfl rfl rfl
    . exact hb.moveGame rfl rfl rfl rfl rfl rfl rfl
  . simp only [record, hpc, reduceCtorEq, if_false]
    rw [hpc] at hb
    split
    . exact hb.moveGame rfl rfl rfl rfl rfl rfl rfl
    . exact hb.moveGame rfl rfl rfl rfl rfl rfl rfl
  . simp only [record, hpc, reduceCtorEq, if_false]
    rw [hpc] at hb
    exact hb.moveGame rfl rfl rfl rfl rfl rfl rfl
  . simp only [record, hpc, reduceCtorEq, if_false]
    rw [(hex.wakeAll .loop).2]
    rw [hpc] at hb
    exact hb.moveGame rfl rfl rfl rfl rfl rfl rfl
  . exact absurd rfl hgame'
  . have hne : s.game ≠ .printScore := by
      intro heq
      rw [heq] at hpc
      cases hpc
    simp only [record, hne, if_false]
    exact hb.clear hcount hpc
  . obtain ⟨hcc, hct, hcs, hts, hgo, -, hleft, hleft'⟩ := summarize_frame (v := s.vars) hpc hclearing
    by_cases hne : s.game = .printScore
    . rw [hne] at hb
      simp only [record, hne, if_true, summarize]
      exact .print _ _ _
    . simp only [record, hne, if_false]
      exact hb.moveGame hcc hct hcs hts hgo (by rw [hleft, hleft']) (Books.summarize_printed hpc hclearing hne)

-- The players that have batted, by their places.
structure Roster (s : State n) (h : Day n) : Prop where
  nodup : (h.all.map Prod.fst).Nodup
  mem : ∀ i, i ∈ h.all.map Prod.fst ↔ (s.bats i).batted = true

namespace Roster

theorem move (hr : Roster s h) (hbats : ∀ j, (s'.bats j).batted = (s.bats j).batted) : Roster s' h where
  nodup := hr.nodup
  mem i := by rw [hr.mem, hbats]

theorem setBat (hr : Roster s h) {pc : BatPc} (hpc : pc.batted = (s.bats i).batted)
    (hs' : s'.bats = Function.update s.bats i pc)
    : Roster s' h := by
  apply hr.move
  intro j
  rw [hs', Function.update_apply]
  split
  . next hj => rw [hpc, hj]
  . rfl

theorem add {h' : Day n} (hr : Roster s h) (hpc : (s.bats i).batted = false) {pc : BatPc} (hpc' : pc.batted = true)
    (hs' : s'.bats = Function.update s.bats i pc) (r : Nat) (hall : h'.all.Perm ((i, r) :: h.all))
    : Roster s' h' := by
  have hperm : (h'.all.map Prod.fst).Perm (i :: h.all.map Prod.fst) := hall.map Prod.fst
  constructor
  . rw [hperm.nodup_iff, List.nodup_cons]
    refine ⟨?_, hr.nodup⟩
    rw [hr.mem, hpc]
    simp
  . intro j
    rw [hperm.mem_iff, List.mem_cons, hr.mem, hs', Function.update_apply]
    split
    . next hj => simp [hj, hpc']
    . next hj => simp [hj]

end Roster

theorem batStep_roster (hr : Roster s h) (hs : batStep s i run = some (s', o))
    : Roster s' (record s (.bat i run) s' h) := by
  obtain ⟨hpc, -, rfl⟩ | ⟨hpc, rfl⟩ | ⟨hpc, rfl⟩ | ⟨hpc, rfl⟩ | ⟨hacts, rfl⟩ := batStep_cases hs
  . simp only [record, hpc, reduceCtorEq, if_false]
    exact hr.setBat (by rw [hpc]; rfl) rfl
  . simp only [record, hpc, reduceCtorEq, if_false]
    exact hr.setBat (by rw [hpc]; rfl) rfl
  . simp only [record, hpc, reduceCtorEq, if_false]
    exact hr.setBat (by rw [hpc]; rfl) rfl
  . simp only [record, hpc, reduceCtorEq, if_false]
    exact hr.setBat (by rw [hpc]; rfl) rfl
  . unfold record
    dsimp only
    split
    . next hpc =>
      exact hr.add (by rw [hpc]; rfl) (by rw [hpc]; rfl) rfl run.val (List.Perm.refl _)
    . split
      . next hpc =>
        apply hr.add (by rw [hpc]; rfl) (by rw [hpc]; rfl) rfl run.val
        simp only [Day.all, List.append_assoc, List.cons_append]
        exact List.perm_middle
      . next hcap htit =>
        refine hr.setBat ?_ rfl
        cases hpc : s.bats i <;> rw [hpc] at hacts hcap htit <;>
          simp only [BatPc.acts, Bool.false_eq_true, not_true_eq_false] at hacts hcap htit
        all_goals simp only [play, BatPc.next]
        all_goals repeat' split
        all_goals rfl

theorem gameStep_roster (hr : Roster s h) (hs : gameStep s = some (s', o)) : Roster s' (record s .startGame s' h) := by
  have hall : (record s .startGame s' h).all = h.all := by
    unfold record
    dsimp only
    split
    . simp [Day.all]
    . rfl
  have hbats : ∀ j, (s'.bats j).batted = (s.bats j).batted := by
    intro j
    obtain ⟨-, rfl⟩ | ⟨-, rfl⟩ | ⟨-, rfl⟩ | ⟨-, rfl⟩ | ⟨-, rfl⟩ | ⟨-, rfl⟩ | ⟨-, -, -, rfl⟩ := gameStep_cases hs
    case inr.inr.inr.inl =>
      dsimp only
      cases s.bats j <;> rfl
    all_goals rfl
  constructor
  . rw [hall]
    exact hr.nodup
  . intro i
    rw [hall, hr.mem, hbats]

theorem Kept.atPrint {x : State n × Day n} (hx : Kept x) (hpc : x.1.game = .printScore)
    : x.2.capitals.length = 11 ∧ x.2.titans.length = 11 ∧ runs x.2.capitals = x.1.vars.capitalScore ∧
      runs x.2.titans = x.1.vars.titanScore := by
  have hne : x.1.game ≠ .done := by
    rw [hpc]
    decide
  have hb := hx.books hne
  have hc := hx.inv.counters hne
  rw [hpc] at hb hc
  obtain ⟨hcc, hct, hplaying⟩ := hc.ended (hc.summing (Nat.le_refl 1))
  have hcur : x.1.cur.scoresCapital ≤ x.1.cur.playing ∧ x.1.cur.scoresTitan ≤ x.1.cur.playing := by
    cases x.1.cur <;> simp [BatPc.scoresCapital, BatPc.scoresTitan, BatPc.playing]
  have hcaps := hb.capitals (by decide) rfl
  have htits := hb.titans (by decide) rfl
  refine ⟨by omega, by omega, hb.capitalScore (by decide) rfl, hb.titanScore (by decide) rfl⟩

structure DayInv (x : State n × Day n) : Prop where
  kept : Kept x
  roster : Roster x.1 x.2
  printed : x.2.printed = runs x.2.completed

theorem init_dayInv (n : Nat) : DayInv (State.init n, Day.init) where
  kept := ⟨init_inv n, fun _ => Books.init⟩
  roster := ⟨List.nodup_nil, fun i => by simp [Day.all, Day.init, State.init, BatPc.batted]⟩
  printed := rfl

theorem runs_append (l l' : List (Fin n × Nat)) : runs (l ++ l') = runs l + runs l' := by
  simp [runs]

theorem step_dayInv {x x' : State n × Day n} {e : Event n} {o : Output} (hx : DayInv x)
    (hcounters : KeepsCounters x.1 e) (hscores : KeepsScores x.1 e)
    (hstep : Machine.watch step record x e = some (x', o))
    : DayInv x' := by
  obtain ⟨hs, hh⟩ := Machine.watch_eq_some hstep
  refine ⟨⟨step_inv hx.kept.inv hcounters hs, ?_⟩, ?_, ?_⟩
  . rw [hh]
    cases e with
    | bat i run => exact batStep_books hx.kept.inv hx.kept.books hcounters hscores hs
    | startGame => exact gameStep_books hx.kept.inv hx.kept.books hs
  . rw [hh]
    cases e with
    | bat i run => exact batStep_roster hx.roster hs
    | startGame => exact gameStep_roster hx.roster hs
  . have hprinted := hx.printed
    rw [hh]
    unfold record
    cases e with
    | bat i run =>
      dsimp only
      split
      . exact hprinted
      . split
        . exact hprinted
        . exact hprinted
    | startGame =>
      dsimp only
      split
      . next hpc =>
        obtain ⟨-, -, hcap, htit⟩ := hx.kept.atPrint hpc
        dsimp only
        rw [Day.all, runs_append, runs_append, hcap, htit]
        omega
      . exact hprinted

theorem DayInv.fair {x x' : State n × Day n} {e : Event n} {o : Output} (hx : DayInv x)
    (hstep : Machine.watch step record x e = some (x', o))
    : Fair x e o x' := by
  obtain ⟨hs, -⟩ := Machine.watch_eq_some hstep
  rintro rfl hpc
  obtain ⟨hcaps, htits, hcap, htit⟩ := hx.kept.atPrint hpc
  refine ⟨hcaps, htits, ?_⟩
  rw [hcap, htit]
  simp only [step, gameStep, hpc, GamePc.clearing, Bool.false_eq_true, if_false, summarize, Option.some.injEq,
    Prod.mk.injEq] at hs
  exact hs.2.symm

/--
No bat is lost in a run in which no player adds to a counter or a score that `startGame` has yet to clear.
-/
theorem no_batsman_lost (n : Nat) (es : List (Event n))
    (h : Machine.Along (Machine.watch step record) (fun x e _ _ => KeepsCounters x.1 e ∧ KeepsScores x.1 e)
      (State.init n, Day.init) es)
    : Machine.Along (Machine.watch step record) Fair (State.init n, Day.init) es ∧
      Machine.Always (Machine.watch step record) Results (State.init n, Day.init) es := by
  have hinit := init_dayInv n
  constructor
  . apply Machine.along_of_invariant (I := DayInv) _ hinit h
    intro x e o x' hx hstep hkeeps
    exact ⟨hx.fair hstep, step_dayInv hx hkeeps.1 hkeeps.2 hstep⟩
  . refine ⟨⟨hinit.roster.nodup, hinit.roster.mem, hinit.printed⟩, ?_⟩
    apply Machine.along_of_invariant (I := DayInv) _ hinit h
    intro x e o x' hx hstep hkeeps
    have := step_dayInv hx hkeeps.1 hkeeps.2 hstep
    exact ⟨⟨this.roster.nodup, this.roster.mem, this.printed⟩, this⟩

instance (x : State n × Day n) (e : Event n) (o : Output) (x' : State n × Day n) : Decidable (Fair x e o x') :=
  inferInstanceAs (Decidable (_ → _ → _))

-- A whole day of one match, in which the first player scores.
theorem no_batsman_lost_wholeDay
    : Machine.Along (Machine.watch step record) Fair (State.init 22, Day.init)
        (List.replicate 3 .startGame ++ (List.finRange 22).flatMap (fun i =>
          List.replicate (if i = 0 then 9 else if i < 11 then 8 else if i < 21 then 9 else 11)
            (.bat i (if i = 0 then 7 else 0))) ++ List.replicate 20 .startGame) ∧
      Machine.Always (Machine.watch step record) Results (State.init 22, Day.init)
        (List.replicate 3 .startGame ++ (List.finRange 22).flatMap (fun i =>
          List.replicate (if i = 0 then 9 else if i < 11 then 8 else if i < 21 then 9 else 11)
            (.bat i (if i = 0 then 7 else 0))) ++ List.replicate 20 .startGame) :=
  no_batsman_lost 22 _ (by decide +kernel)

-- The steps of a whole match in which nobody scores, from the player `k` on.
def wholeMatch (k : Nat) : List (Event 45) :=
  (List.range 22).flatMap fun j =>
    List.replicate (if j < 11 then 8 else if j < 21 then 9 else 11) (.bat (Fin.ofNat 45 (k + j)) 0)

-- The player 22 bats when `gameover` has been cleared and the counters have not.
def lostRun : List (Event 45) :=
  wholeMatch 0 ++ List.replicate 13 .startGame ++ List.replicate 9 (.bat 22 0) ++ List.replicate 6 .startGame ++
    wholeMatch 23 ++ List.replicate 5 .startGame

theorem batsman_lost
    : ¬ Machine.Along (Machine.watch step record) Fair (State.init 45, Day.init) lostRun := by
  decide +kernel

end Xv6.Cricket.Condvars
