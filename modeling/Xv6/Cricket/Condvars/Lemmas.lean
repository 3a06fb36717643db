import Xv6.Cricket.Condvars.Impl
import Xv6.Lib.Crowd

/-!
What holds as long as players do not add to counters that are about to be cleared. The player that has the mutex is the
only one between its `lock` and its `unlock`, so the invariants are about its place, `cur`.
-/

namespace Xv6.Cricket.Condvars

def BatPc.inSection : BatPc → Bool
  | .lock | .asleep | .done => false
  | _ => true

-- Past the test of `gameover`, and the bat is not over.
def BatPc.playing : BatPc → Nat
  | .lock | .test | .wait | .asleep | .signal | .unlock | .done => 0
  | _ => 1

-- In front of the counters.
def BatPc.entering : BatPc → Nat
  | .choose | .countCapital | .countTitan => 1
  | _ => 0

def BatPc.atCapital : BatPc → Nat
  | .countCapital => 1
  | _ => 0

def BatPc.atTitan : BatPc → Nat
  | .countTitan => 1
  | _ => 0

-- A Titan who has been counted.
def BatPc.closing : BatPc → Nat
  | .scoreTitan | .individual true _ | .testPermatch true _ | .setPermatch true _ | .checkTitan | .setOver => 1
  | _ => 0

def BatPc.atOver : BatPc → Nat
  | .setOver => 1
  | _ => 0

def GamePc.summing : GamePc → Nat
  | .count | .printMatch | .printScore | .printHigh | .ifCapitals | .printCapitals | .countCapitals | .ifMaxCapitals
  | .setMaxCapitals | .ifTitans | .countTitans | .printTitans | .ifMaxTitans | .setMaxTitans | .countTied | .printTied
  | .setMaxTied | .printLn | .resetGameover => 1
  | _ => 0

variable {n : Nat}

def State.cur (s : State n) : BatPc :=
  match s.mutex with
  | some i => s.bats i
  | none => .lock

-- `startGame` releases the mutex that it does not have at the very end.
def Exclusive (s : State n) : Prop :=
  ∀ i, (s.bats i).inSection = true ↔ s.mutex = some i

structure Counters (v : Vars) (game : GamePc) (cur : BatPc) : Prop where
  gameover : v.gameover ≤ 1
  summing : 1 ≤ game.summing → v.gameover = 1
  clearing : 3 ≤ game.left → v.gameover = 0
  stale : 4 ≤ game.left → v.counterCapital = 11
  ended : v.gameover = 1 → v.counterCapital = 11 ∧ v.counterTitan = 11 ∧ cur.playing = 0
  capitals : v.counterCapital ≤ 11
  titans : game.left < 3 → v.counterTitan ≤ 11
  counting : 1 ≤ cur.atCapital → v.counterCapital ≤ 10
  order : game.left < 3 → v.counterCapital < 11 → v.counterTitan + cur.atTitan ≤ 1
  room : game.left < 3 → 1 ≤ cur.entering → v.counterTitan ≤ 10
  last : game.left < 3 → v.counterTitan = 11 → v.gameover = 1 ∨ 1 ≤ cur.closing
  closing : 1 ≤ cur.closing → game.left < 3
  atOver : 1 ≤ cur.atOver → v.counterTitan = 11

variable {s s' : State n} {v v' : Vars} {game : GamePc} {cur cur' : BatPc} {i : Fin n} {run : Nat} {o : Output}

namespace Counters

theorem init (game : GamePc) (hgame : game.summing = 0) (hleft : game.left = 0)
    : Counters .init game .lock := by
  constructor <;> simp [Vars.init, hgame, hleft, BatPc.playing, BatPc.closing, BatPc.entering, BatPc.atCapital,
    BatPc.atTitan, BatPc.atOver]

theorem move (h : Counters v game cur) (hcc : v'.counterCapital = v.counterCapital)
    (hct : v'.counterTitan = v.counterTitan) (hgo : v'.gameover = v.gameover) (hplaying : cur'.playing ≤ cur.playing)
    (hentering : cur'.entering = 0) (hcapital : cur'.atCapital = 0) (htitan : cur'.atTitan = 0)
    (hclosing : cur'.closing = cur.closing) (hover : cur'.atOver = 0)
    : Counters v' game cur' := by
  constructor
  . rw [hgo]
    exact h.gameover
  . rw [hgo]
    exact h.summing
  . rw [hgo]
    exact h.clearing
  . rw [hcc]
    exact h.stale
  . rw [hgo, hcc, hct]
    intro hone
    obtain ⟨hcapitals, htitans, hzero⟩ := h.ended hone
    exact ⟨hcapitals, htitans, by omega⟩
  . rw [hcc]
    exact h.capitals
  . rw [hct]
    exact h.titans
  . omega
  . rw [hcc, hct, htitan]
    intro hleft hlt
    have := h.order hleft hlt
    omega
  . omega
  . rw [hgo, hct, hclosing]
    exact h.last
  . rw [hclosing]
    exact h.closing
  . omega

theorem play (h : Counters v game cur) (hcap : cur = .countCapital → game.left < 4)
    (htit : cur = .countTitan → game.left < 3)
    : Counters (play v run cur).1 game (play v run cur).2 := by
  cases cur with
  | test =>
    obtain ⟨hg, hsum, hclear, hstale, hov, hcaps, htits, hcount, horder, hroom, hlast, hclosed, hatOver⟩ := h
    simp only [BatPc.playing, BatPc.atTitan, BatPc.closing] at hov horder hlast
    simp only [Condvars.play]
    split
    . constructor <;> try dsimp only [BatPc.playing, BatPc.entering, BatPc.atCapital, BatPc.atTitan, BatPc.closing,
        BatPc.atOver]
      all_goals omega
    . constructor <;> try dsimp only [BatPc.playing, BatPc.entering, BatPc.atCapital, BatPc.atTitan, BatPc.closing,
        BatPc.atOver]
      all_goals omega
  | choose =>
    obtain ⟨hg, hsum, hclear, hstale, hov, hcaps, htits, hcount, horder, hroom, hlast, hclosed, hatOver⟩ := h
    simp only [BatPc.playing, BatPc.entering, BatPc.atTitan, BatPc.closing] at hov horder hroom hlast
    simp only [Condvars.play]
    split
    . constructor <;> try dsimp only [BatPc.playing, BatPc.entering, BatPc.atCapital, BatPc.atTitan, BatPc.closing,
        BatPc.atOver]
      all_goals omega
    . constructor <;> try dsimp only [BatPc.playing, BatPc.entering, BatPc.atCapital, BatPc.atTitan, BatPc.closing,
        BatPc.atOver]
      all_goals omega
  | countCapital =>
    specialize hcap rfl
    obtain ⟨hg, hsum, hclear, hstale, hov, hcaps, htits, hcount, horder, hroom, hlast, hclosed, hatOver⟩ := h
    simp only [BatPc.playing, BatPc.entering, BatPc.atCapital, BatPc.atTitan, BatPc.closing] at hov hcount horder hroom hlast
    simp only [Condvars.play]
    constructor <;> try dsimp only [BatPc.playing, BatPc.entering, BatPc.atCapital, BatPc.atTitan, BatPc.closing,
      BatPc.atOver]
    all_goals omega
  | countTitan =>
    specialize htit rfl
    obtain ⟨hg, hsum, hclear, hstale, hov, hcaps, htits, hcount, horder, hroom, hlast, hclosed, hatOver⟩ := h
    simp only [BatPc.playing, BatPc.entering, BatPc.atTitan, BatPc.closing] at hov horder hroom hlast
    simp only [Condvars.play]
    constructor <;> try dsimp only [BatPc.playing, BatPc.entering, BatPc.atCapital, BatPc.atTitan, BatPc.closing,
      BatPc.atOver]
    all_goals omega
  | checkTitan =>
    obtain ⟨hg, hsum, hclear, hstale, hov, hcaps, htits, hcount, horder, hroom, hlast, hclosed, hatOver⟩ := h
    simp only [BatPc.playing, BatPc.atTitan, BatPc.closing] at hov horder hlast hclosed
    simp only [Condvars.play]
    split
    . constructor <;> try dsimp only [BatPc.playing, BatPc.entering, BatPc.atCapital, BatPc.atTitan, BatPc.closing,
        BatPc.atOver]
      all_goals omega
    . constructor <;> try dsimp only [BatPc.playing, BatPc.entering, BatPc.atCapital, BatPc.atTitan, BatPc.closing,
        BatPc.atOver]
      all_goals omega
  | setOver =>
    obtain ⟨hg, hsum, hclear, hstale, hov, hcaps, htits, hcount, horder, hroom, hlast, hclosed, hatOver⟩ := h
    simp only [BatPc.playing, BatPc.atTitan, BatPc.closing, BatPc.atOver] at hov horder hlast hclosed hatOver
    simp only [Condvars.play]
    constructor <;> try dsimp only [BatPc.playing, BatPc.entering, BatPc.atCapital, BatPc.atTitan, BatPc.closing,
      BatPc.atOver]
    all_goals omega
  | scoreCapital => exact h.move rfl rfl rfl (Nat.le_refl 1) rfl rfl rfl rfl rfl
  | scoreTitan => exact h.move rfl rfl rfl (Nat.le_refl 1) rfl rfl rfl rfl rfl
  | individual titan r =>
    simp only [Condvars.play, Vars.maxIndividual]
    split <;> cases titan <;> exact h.move rfl rfl rfl (Nat.le_refl 1) rfl rfl rfl rfl rfl
  | testPermatch titan r =>
    simp only [Condvars.play]
    split <;> cases titan <;> exact h.move rfl rfl rfl (by simp [BatPc.playing, BatPc.next]) rfl rfl rfl rfl rfl
  | setPermatch titan r =>
    cases titan <;> exact h.move rfl rfl rfl (by simp [BatPc.playing, BatPc.next, Condvars.play]) rfl rfl rfl rfl rfl
  | lock => exact h
  | wait => exact h
  | asleep => exact h
  | signal => exact h
  | unlock => exact h
  | done => exact h

theorem moveGame {game' : GamePc} (h : Counters v game cur) (hcc : v'.counterCapital = v.counterCapital)
    (hct : v'.counterTitan = v.counterTitan) (hgo : v'.gameover = v.gameover) (hleft : game'.left = game.left)
    (hsumming : 1 ≤ game'.summing → v.gameover = 1)
    : Counters v' game' cur := by
  constructor
  . rw [hgo]
    exact h.gameover
  . rw [hgo]
    exact hsumming
  . rw [hgo, hleft]
    exact h.clearing
  . rw [hcc, hleft]
    exact h.stale
  . rw [hgo, hcc, hct]
    exact h.ended
  . rw [hcc]
    exact h.capitals
  . rw [hct, hleft]
    exact h.titans
  . rw [hcc]
    exact h.counting
  . rw [hcc, hct, hleft]
    exact h.order
  . rw [hct, hleft]
    exact h.room
  . rw [hgo, hct, hleft]
    exact h.last
  . rw [hleft]
    exact h.closing
  . rw [hct]
    exact h.atOver

-- While `gameover` is set nobody plays, and behind it the counters are cleared one by one.
theorem clear (h : Counters v game cur) (hpc : game.clearing = true)
    : Counters (clear v game).1 (clear v game).2 cur := by
  obtain ⟨hg, hsum, hclear, hstale, hov, hcaps, htits, hcount, horder, hroom, hlast, hclosed, hatOver⟩ := h
  have hplaying : cur.atCapital ≤ cur.playing ∧ cur.atTitan ≤ cur.playing ∧ cur.closing ≤ cur.playing ∧
      cur.entering ≤ cur.playing ∧ cur.atOver ≤ cur.closing ∧ cur.atTitan ≤ 1 := by
    cases cur <;> simp [BatPc.atCapital, BatPc.atTitan, BatPc.closing, BatPc.entering, BatPc.playing, BatPc.atOver]
    all_goals split <;> simp
  cases game <;> simp only [GamePc.clearing, Bool.false_eq_true] at hpc
  all_goals
    simp only [GamePc.left, GamePc.summing] at hsum hclear hstale htits horder hroom hlast hclosed
    constructor <;> dsimp only [Condvars.clear, GamePc.left, GamePc.summing]
    all_goals omega

end Counters

theorem summarize_frame (hpc : game.summing = 1) (hclearing : game.clearing = false)
    : (summarize v game).1.counterCapital = v.counterCapital ∧ (summarize v game).1.counterTitan = v.counterTitan ∧
      (summarize v game).1.capitalScore = v.capitalScore ∧ (summarize v game).1.titanScore = v.titanScore ∧
      (summarize v game).1.gameover = v.gameover ∧ (summarize v game).2.1.summing = 1 ∧ game.left = 0 ∧
      (summarize v game).2.1.left = 0 := by
  cases game <;> simp only [GamePc.summing, GamePc.clearing, reduceCtorEq] at hpc hclearing
  all_goals simp only [summarize]
  all_goals repeat' split
  all_goals simp [GamePc.summing, GamePc.left]

section

-- The statements that `play` describes.
def BatPc.acts : BatPc → Bool
  | .lock | .wait | .asleep | .signal | .unlock | .done => false
  | _ => true

theorem batStep_cases (hs : batStep s i run = some (s', o))
    : (s.bats i = .lock ∧ s.mutex = none ∧ s' = { s with mutex := some i }.setBat i .test) ∨
      (s.bats i = .wait ∧ s' = { s with mutex := none }.setBat i .asleep) ∨
      (s.bats i = .signal ∧ s' = { s with game := if s.game = GamePc.asleep then GamePc.test else s.game }.setBat i .unlock) ∨
      (s.bats i = .unlock ∧ s' = { s with mutex := none }.setBat i .done) ∨
      ((s.bats i).acts = true ∧
        s' = { s with vars := (play s.vars run (s.bats i)).1 }.setBat i (play s.vars run (s.bats i)).2) := by
  unfold batStep at hs
  cases hpc : s.bats i <;> rw [hpc] at hs <;> dsimp only at hs
  case lock =>
    split at hs
    . next hfree =>
      cases hs
      exact .inl ⟨rfl, hfree, rfl⟩
    . cases hs
  case wait =>
    cases hs
    exact .inr (.inl ⟨rfl, rfl⟩)
  case signal =>
    cases hs
    exact .inr (.inr (.inl ⟨rfl, rfl⟩))
  case unlock =>
    cases hs
    exact .inr (.inr (.inr (.inl ⟨rfl, rfl⟩)))
  case asleep => cases hs
  case done => cases hs
  all_goals
    cases hs
    exact .inr (.inr (.inr (.inr ⟨rfl, rfl⟩)))

theorem gameStep_cases (hs : gameStep s = some (s', o))
    : (s.game = .loop ∧ s' = { s with game := if s.vars.matchNo < n / 22 then .test else .unlock }) ∨
      (s.game = .test ∧ s' = { s with game := if s.vars.gameover = 0 then .wait else .count }) ∨
      (s.game = .wait ∧ s' = { s with game := .asleep }) ∨
      (s.game = .broadcast ∧ s' = { s with bats := fun i => wake (s.bats i), game := .loop }) ∨
      (s.game = .unlock ∧ s' = { s with mutex := none, game := .done }) ∨
      (s.game.clearing = true ∧ s' = { s with vars := (clear s.vars s.game).1, game := (clear s.vars s.game).2 }) ∨
      (s.game.summing = 1 ∧ s.game.clearing = false ∧ o = (summarize s.vars s.game).2.2 ∧
        s' = { s with vars := (summarize s.vars s.game).1, game := (summarize s.vars s.game).2.1 }) := by
  unfold gameStep at hs
  cases hpc : s.game <;> rw [hpc] at hs <;> dsimp only at hs
  case loop =>
    cases hs
    exact .inl ⟨rfl, rfl⟩
  case test =>
    cases hs
    exact .inr (.inl ⟨rfl, rfl⟩)
  case wait =>
    cases hs
    exact .inr (.inr (.inl ⟨rfl, rfl⟩))
  case broadcast =>
    cases hs
    exact .inr (.inr (.inr (.inl ⟨rfl, rfl⟩)))
  case unlock =>
    cases hs
    exact .inr (.inr (.inr (.inr (.inl ⟨rfl, rfl⟩))))
  case asleep => cases hs
  case done => cases hs
  all_goals
    simp only [GamePc.clearing, Bool.false_eq_true, if_true, if_false] at hs
    cases hs
    first
    | exact .inr (.inr (.inr (.inr (.inr (.inl ⟨rfl, rfl⟩)))))
    | exact .inr (.inr (.inr (.inr (.inr (.inr ⟨rfl, rfl, rfl, rfl⟩)))))

end

namespace Exclusive

variable {pc : BatPc}

theorem cur_eq (h : Exclusive s) (hi : (s.bats i).inSection = true) : s.cur = s.bats i := by
  unfold State.cur
  rw [(h i).mp hi]

theorem enter (h : Exclusive s) (hfree : s.mutex = none) (hpc : pc.inSection = true)
    : Exclusive ({ s with mutex := some i }.setBat i pc) ∧ ({ s with mutex := some i }.setBat i pc).cur = pc := by
  constructor
  . intro j
    simp only [State.setBat, Option.some.injEq]
    by_cases hj : j = i
    . subst hj
      simp [hpc]
    . rw [Function.update_of_ne hj, h j, hfree]
      simp [Ne.symm hj]
  . simp [State.cur, State.setBat]

theorem stay (h : Exclusive s) (v : Vars) (game : GamePc) (hi : (s.bats i).inSection = true) (hpc : pc.inSection = true)
    : Exclusive ({ s with vars := v, game := game }.setBat i pc) ∧
      ({ s with vars := v, game := game }.setBat i pc).cur = pc := by
  have hmutex := (h i).mp hi
  constructor
  . intro j
    simp only [State.setBat]
    by_cases hj : j = i
    . subst hj
      simp [hpc, hmutex]
    . rw [Function.update_of_ne hj, h j]
  . simp [State.cur, State.setBat, hmutex]

theorem leave (h : Exclusive s) (hi : (s.bats i).inSection = true) (hpc : pc.inSection = false)
    : Exclusive ({ s with mutex := none }.setBat i pc) := by
  have hmutex := (h i).mp hi
  intro j
  simp only [State.setBat]
  by_cases hj : j = i
  . subst hj
    simp [hpc]
  . rw [Function.update_of_ne hj, h j, hmutex]
    simp [Ne.symm hj]

theorem wakeAll (h : Exclusive s) (game : GamePc)
    : Exclusive { s with bats := fun i => wake (s.bats i), game := game } ∧
      State.cur { s with bats := fun i => wake (s.bats i), game := game } = s.cur := by
  have hiff : ∀ pc, (wake pc).inSection = true ↔ pc.inSection = true := by
    intro pc
    cases pc <;> simp [wake, BatPc.inSection]
  have heq : ∀ pc : BatPc, pc.inSection = true → wake pc = pc := by
    intro pc hpc
    cases pc <;> simp [wake, BatPc.inSection] at hpc ⊢
  constructor
  . intro j
    exact (hiff _).trans (h j)
  . cases hmutex : s.mutex with
    | none => simp [State.cur, hmutex]
    | some i =>
      simp only [State.cur, hmutex]
      exact heq _ ((h i).mpr hmutex)

end Exclusive

-- Up to the end of `startGame`.
structure Inv (s : State n) : Prop where
  exclusive : s.game ≠ .done → Exclusive s
  counters : s.game ≠ .done → Counters s.vars s.game s.cur

theorem cur_of_none (h : s.mutex = none) : s.cur = .lock := by
  unfold State.cur
  rw [h]

theorem inSection_of_acts {pc : BatPc} (h : pc.acts = true) : pc.inSection = true := by
  cases pc <;> first | rfl | cases h

theorem play_inSection {pc : BatPc} (h : pc.acts = true) (v : Vars) (run : Nat)
    : (play v run pc).2.inSection = true := by
  cases pc <;> simp only [BatPc.acts, Bool.false_eq_true] at h
  all_goals simp only [play, BatPc.next]
  all_goals repeat' split
  all_goals rfl

theorem Inv.cur_eq (hx : Inv s) (hgame : s.game ≠ .done) {pc : BatPc} (hpc : s.bats i = pc)
    (hin : pc.inSection = true)
    : s.cur = pc := by
  rw [(hx.exclusive hgame).cur_eq (by rwa [hpc]), hpc]

theorem init_inv (n : Nat) : Inv (State.init n) where
  exclusive _ i := by simp [State.init, BatPc.inSection]
  counters _ := Counters.init .loop rfl rfl

theorem batStep_inv (hx : Inv s) (hcap : s.bats i = .countCapital → s.game.left < 4)
    (htit : s.bats i = .countTitan → s.game.left < 3) (hs : batStep s i run = some (s', o))
    : Inv s' := by
  obtain ⟨hpc, hfree, rfl⟩ | ⟨hpc, rfl⟩ | ⟨hpc, rfl⟩ | ⟨hpc, rfl⟩ | ⟨hacts, rfl⟩ := batStep_cases hs
  . constructor
    . exact fun hgame => ((hx.exclusive hgame).enter hfree rfl).1
    . intro hgame
      have := hx.counters hgame
      rw [cur_of_none hfree] at this
      rw [((hx.exclusive hgame).enter hfree rfl).2]
      exact this.move rfl rfl rfl (Nat.le_refl 0) rfl rfl rfl rfl rfl
  . constructor
    . exact fun hgame => (hx.exclusive hgame).leave (by rw [hpc]; rfl) rfl
    . intro hgame
      have := hx.counters hgame
      rw [hx.cur_eq hgame hpc rfl] at this
      rw [cur_of_none rfl]
      exact this.move rfl rfl rfl (Nat.le_refl 0) rfl rfl rfl rfl rfl
  . have hdone : (if s.game = GamePc.asleep then GamePc.test else s.game) ≠ .done → s.game ≠ .done := by
      intro h heq
      simp [heq] at h
    constructor
    . exact fun hgame => ((hx.exclusive (hdone hgame)).stay s.vars _ (by rw [hpc]; rfl) rfl).1
    . intro hgame
      have := hx.counters (hdone hgame)
      rw [hx.cur_eq (hdone hgame) hpc rfl] at this
      rw [((hx.exclusive (hdone hgame)).stay s.vars _ (by rw [hpc]; rfl) rfl).2]
      have hunlock : Counters s.vars s.game .unlock := this.move rfl rfl rfl (Nat.le_refl 0) rfl rfl rfl rfl rfl
      apply hunlock.moveGame rfl rfl rfl
      . dsimp only [State.setBat]
        split
        . next h => rw [h]; rfl
        . rfl
      . dsimp only [State.setBat]
        split
        . intro h
          cases h
        . exact this.summing
  . constructor
    . exact fun hgame => (hx.exclusive hgame).leave (by rw [hpc]; rfl) rfl
    . intro hgame
      have := hx.counters hgame
      rw [hx.cur_eq hgame hpc rfl] at this
      rw [cur_of_none rfl]
      exact this.move rfl rfl rfl (Nat.le_refl 0) rfl rfl rfl rfl rfl
  . have hin := inSection_of_acts hacts
    have hin' := play_inSection hacts s.vars run
    constructor
    . exact fun hgame => ((hx.exclusive hgame).stay _ s.game hin hin').1
    . intro hgame
      have := hx.counters hgame
      rw [(hx.exclusive hgame).cur_eq hin] at this
      rw [((hx.exclusive hgame).stay _ s.game hin hin').2]
      exact this.play hcap htit

theorem gameStep_inv (hx : Inv s) (hs : gameStep s = some (s', o)) : Inv s' := by
  have hne : s.game ≠ .done := by
    intro hdone
    simp [gameStep, hdone] at hs
  have hex := hx.exclusive hne
  have hcount := hx.counters hne
  obtain ⟨hpc, rfl⟩ | ⟨hpc, rfl⟩ | ⟨hpc, rfl⟩ | ⟨hpc, rfl⟩ | ⟨hpc, rfl⟩ | ⟨hpc, rfl⟩ | ⟨hpc, hclearing, -, rfl⟩ :=
    gameStep_cases hs
  . rw [hpc] at hcount
    refine ⟨fun _ => hex, fun _ => ?_⟩
    dsimp only
    split
    . exact hcount.moveGame rfl rfl rfl rfl (fun h => by cases h)
    . exact hcount.moveGame rfl rfl rfl rfl (fun h => by cases h)
  . rw [hpc] at hcount
    refine ⟨fun _ => hex, fun _ => ?_⟩
    dsimp only
    split
    . exact hcount.moveGame rfl rfl rfl rfl (fun h => by cases h)
    . next hover =>
      have hgo := hcount.gameover
      exact hcount.moveGame rfl rfl rfl rfl (fun _ => by omega)
  . rw [hpc] at hcount
    exact ⟨fun _ => hex, fun _ => hcount.moveGame rfl rfl rfl rfl (fun h => by cases h)⟩
  . rw [hpc] at hcount
    refine ⟨fun _ => (hex.wakeAll .loop).1, fun _ => ?_⟩
    rw [(hex.wakeAll .loop).2]
    exact hcount.moveGame rfl rfl rfl rfl (fun h => by cases h)
  . exact ⟨fun h => absurd rfl h, fun h => absurd rfl h⟩
  . exact ⟨fun _ => hex, fun _ => hcount.clear hpc⟩
  . obtain ⟨hcc, hct, -, -, hgo, -, hleft, hleft'⟩ := summarize_frame (v := s.vars) hpc hclearing
    refine ⟨fun _ => hex, fun _ => ?_⟩
    apply hcount.moveGame hcc hct hgo (by rw [hleft, hleft'])
    exact fun _ => hcount.summing (by omega)

theorem step_inv {e : Event n} (hx : Inv s) (hkeeps : KeepsCounters s e) (hs : step s e = some (s', o)) : Inv s' := by
  cases e with
  | bat i run => exact batStep_inv hx hkeeps.1 hkeeps.2 hs
  | startGame => exact gameStep_inv hx hs

end Xv6.Cricket.Condvars
