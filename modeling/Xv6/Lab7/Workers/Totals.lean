import Xv6.Lab7.Workers.Impl
import Xv6.Lib.Crowd
import Xv6.Lib.Ring

/-!
What the totals are when all threads have finished.
-/

namespace Xv6.Lab7.Workers

-- The totals are those of the numbers.
structure Totals.Of (t : Totals) (nums : List Int) : Prop where
  sum : t.sum = nums.sum
  odd : t.odd = nums.countP fun num => num % 2 = 1
  even : t.even = nums.countP fun num => num % 2 = 0
  min : nums ≠ [] → t.min ∈ nums ∧ ∀ num ∈ nums, t.min ≤ num
  max : nums ≠ [] → t.max ∈ nums ∧ ∀ num ∈ nums, num ≤ t.max

-- The numbers that the program can count: they fit into an `int`, and `%` gives 1 for those that are odd.
def Countable (num : Int) : Prop :=
  -2 ^ 31 ≤ num ∧ num < 2 ^ 31 ∧ (num < 0 → num % 2 = 0)

def tally (added : List Int) : Totals :=
  added.foldr (fun item t => t.update item) .init

theorem toInt_eq {num : Int} (h : Countable num) : toInt num = num := by
  obtain ⟨hlo, hhi, -⟩ := h
  unfold toInt
  rw [Int.bmod_eq_of_le] <;> omega

theorem tmod_eq {num : Int} (h : Countable num) : num.tmod 2 = num % 2 := by
  obtain ⟨-, -, hneg⟩ := h
  have hdvd : 0 ≤ num ∨ 2 ∣ num := by
    by_cases hnum : num < 0
    . exact Or.inr (Int.dvd_of_emod_eq_zero (hneg hnum))
    . exact Or.inl (Int.not_lt.mp hnum)
  simp [Int.tmod_eq_emod, hdvd]

theorem tally_min (added : List Int)
    : (∀ num ∈ added, (tally added).min ≤ num) ∧ ((tally added).min ∈ added ∨ (tally added).min = 2 ^ 31 - 1) := by
  induction added with
  | nil => simp [tally, Totals.init]
  | cons num added ih =>
    obtain ⟨hle, hmem⟩ := ih
    have hcons : (tally (num :: added)).min = if num < (tally added).min then num else (tally added).min := rfl
    rw [hcons]
    split
    . next hlt =>
      constructor
      . intro num' hnum'
        rcases List.mem_cons.mp hnum' with rfl | hnum'
        . exact Int.le_refl _
        . have := hle num' hnum'
          omega
      . exact Or.inl List.mem_cons_self
    . next hge =>
      constructor
      . intro num' hnum'
        rcases List.mem_cons.mp hnum' with rfl | hnum'
        . exact Int.not_lt.mp hge
        . exact hle num' hnum'
      . exact hmem.imp_left (List.mem_cons_of_mem num)

theorem tally_max (added : List Int)
    : (∀ num ∈ added, num ≤ (tally added).max) ∧ ((tally added).max ∈ added ∨ (tally added).max = -2 ^ 31) := by
  induction added with
  | nil => simp [tally, Totals.init]
  | cons num added ih =>
    obtain ⟨hle, hmem⟩ := ih
    have hcons : (tally (num :: added)).max = if num > (tally added).max then num else (tally added).max := rfl
    rw [hcons]
    split
    . next hlt =>
      constructor
      . intro num' hnum'
        rcases List.mem_cons.mp hnum' with rfl | hnum'
        . exact Int.le_refl _
        . have := hle num' hnum'
          omega
      . exact Or.inl List.mem_cons_self
    . next hge =>
      constructor
      . intro num' hnum'
        rcases List.mem_cons.mp hnum' with rfl | hnum'
        . exact Int.not_lt.mp hge
        . exact hle num' hnum'
      . exact hmem.imp_left (List.mem_cons_of_mem num)

theorem tally_counts {added : List Int} (h : ∀ num ∈ added, Countable num)
    : (tally added).sum = added.sum ∧ (tally added).odd = (added.countP fun num => num % 2 = 1) ∧
      (tally added).even = (added.countP fun num => num % 2 = 0) := by
  induction added with
  | nil => simp [tally, Totals.init]
  | cons num added ih =>
    obtain ⟨hsum, hodd, heven⟩ := ih (fun num' hnum' => h num' (List.mem_cons_of_mem num hnum'))
    have hcons : tally (num :: added) = (tally added).update num := rfl
    rw [hcons, List.sum_cons, List.countP_cons, List.countP_cons]
    unfold Totals.update
    rw [hsum, hodd, heven, tmod_eq (h num List.mem_cons_self)]
    have hmod : num % 2 = 1 ∨ num % 2 = 0 := by omega
    rcases hmod with hmod | hmod <;> simp [hmod, Int.add_comm]

theorem tally_of {added : List Int} (h : ∀ num ∈ added, Countable num) : (tally added).Of added := by
  obtain ⟨hsum, hodd, heven⟩ := tally_counts h
  obtain ⟨hmin, hmin'⟩ := tally_min added
  obtain ⟨hmax, hmax'⟩ := tally_max added
  refine ⟨hsum, hodd, heven, ?_, ?_⟩
  . intro hne
    obtain ⟨num, hnum⟩ := List.exists_mem_of_ne_nil added hne
    refine ⟨?_, hmin⟩
    rcases hmin' with hmem | heq
    . exact hmem
    -- every number is as large as an `int` can be
    . have := hmin num hnum
      have := (h num hnum).2.1
      have hnum' : num = (tally added).min := by omega
      exact hnum' ▸ hnum
  . intro hne
    obtain ⟨num, hnum⟩ := List.exists_mem_of_ne_nil added hne
    refine ⟨?_, hmax⟩
    rcases hmax' with hmem | heq
    . exact hmem
    . have := hmax num hnum
      have := (h num hnum).1
      have hnum' : num = (tally added).max := by omega
      exact hnum' ▸ hnum

theorem Totals.Of.perm {t : Totals} {nums nums' : List Int} (ht : t.Of nums) (hperm : nums.Perm nums') : t.Of nums' := by
  obtain ⟨hsum, hodd, heven, hmin, hmax⟩ := ht
  constructor
  . rw [hsum, hperm.sum_eq]
  . rw [hodd, hperm.countP_eq]
  . rw [heven, hperm.countP_eq]
  . intro hne
    simp only [← hperm.mem_iff]
    apply hmin
    rintro rfl
    exact hne hperm.nil_eq.symm
  . intro hne
    simp only [← hperm.mem_iff]
    apply hmax
    rintro rfl
    exact hne hperm.nil_eq.symm

-- How often a thread is about to add `num`.
def Pc.carries (num : Int) : Pc → Nat
  | .decrement item | .unlock (some item) | .lockTask item | .update item => if item = num then 1 else 0
  | _ => 0

-- The item has left the ring and is still in `taskCount`.
def Pc.decrements : Pc → Nat
  | .decrement _ => 1
  | _ => 0

def Pc.holds : Pc → Bool
  | .test | .delete | .decrement _ | .unlock _ => true
  | _ => false

def MainPc.carries (num : Int) : MainPc → Nat
  | .lock item | .insert item => if item = num then 1 else 0
  | _ => 0

def MainPc.increments : MainPc → Nat
  | .increment => 1
  | _ => 0

def MainPc.holds : MainPc → Bool
  | .insert _ | .increment | .unlock => true
  | _ => false

def MainPc.ended : MainPc → Bool
  | .setDone | .join _ | .print | .done => true
  | _ => false

def MainPc.closed : MainPc → Bool
  | .join _ | .print | .done => true
  | _ => false

open Crowd

variable {n : Nat}

def State.items (s : State n) : List Int :=
  Ring.items 20 s.front s.rear s.queue

-- Every item is in the totals, in a thread, in the ring or in the rest of the input.
structure Sound (input : List Line) (x : State n × List Int) : Prop where
  front : x.1.front < 20
  rear : x.1.rear < 20
  count : x.1.items.length + total Pc.decrements x.1.workers = x.1.taskCount + x.1.main.increments
  items : ∀ num, x.2.count num + total (Pc.carries num) x.1.workers + x.1.items.count num + x.1.main.carries num +
    ((numbers x.1.input).map toInt).count num = ((numbers input).map toInt).count num
  totals : x.1.totals = tally x.2
  main : x.1.main.holds → x.1.queueMutex = some .main
  worker : ∀ i, (x.1.workers i).holds → x.1.queueMutex = some (.worker i)
  delete : ∀ i, x.1.workers i = .delete → 0 < x.1.taskCount
  testCount : ∀ i, x.1.workers i = .testCount → x.1.done
  finished : ∀ i, x.1.workers i = .done → x.1.done ∧ x.1.taskCount = 0
  done : x.1.done → x.1.main.closed
  ended : x.1.main.ended → x.1.input = []

variable {input : List Line} {s s' : State n} {added added' : List Int} {i : Fin n} {o : Output}

-- What a step of a worker from `pc` to `pc'` does.
structure Moves (s : State n) (added : List Int) (i : Fin n) (pc pc' : Pc) (s' : State n) (added' : List Int) : Prop where
  before : s.workers i = pc
  workers : s'.workers = Function.update s.workers i pc'
  main : s'.main = s.main
  input : s'.input = s.input
  done : s'.done = s.done
  front : s'.front < 20
  rear : s'.rear < 20
  count : s'.items.length + pc'.decrements + s.taskCount = s.items.length + pc.decrements + s'.taskCount
  items : ∀ num, added'.count num + pc'.carries num + s'.items.count num
      =
    added.count num + pc.carries num + s.items.count num
  totals : s'.totals = tally added'
  mutex : (s'.queueMutex = s.queueMutex ∧ (pc'.holds → pc.holds)) ∨
    (s.queueMutex = none ∧ s'.queueMutex = some (.worker i)) ∨ (s'.queueMutex = none ∧ pc.holds ∧ ¬ pc'.holds)
  taskCount : s'.taskCount = s.taskCount ∨ (pc.holds ∧ s'.taskCount ≤ s.taskCount)
  delete : pc' = .delete → 0 < s'.taskCount
  testCount : pc' = .testCount → s.done
  finished : pc' = .done → s.done ∧ s'.taskCount = 0

theorem Moves.sound {pc pc' : Pc} (hm : Moves s added i pc pc' s' added') (hx : Sound input (s, added))
    : Sound input (s', added') := by
  have hself : s'.workers i = pc' := by rw [hm.workers, Function.update_self]
  have hother : ∀ j, j ≠ i → s'.workers j = s.workers j := by
    intro j hj
    rw [hm.workers, Function.update_of_ne hj]
  have hpc : pc.holds → s.queueMutex = some (.worker i) := by
    intro hholds
    exact hx.worker i (hm.before ▸ hholds)
  -- who else holds the mutex when the worker does
  have halone : ∀ j, j ≠ i → pc.holds → ¬ (s.workers j).holds := by
    intro j hj hholds hj'
    have := hx.worker j hj'
    rw [show (s, added).1.queueMutex = some (.worker i) from hpc hholds] at this
    simp only [Option.some.injEq, Holder.worker.injEq] at this
    exact hj this.symm
  have hmainalone : pc.holds → ¬ s.main.holds := by
    intro hholds hmain
    have := hx.main hmain
    rw [show (s, added).1.queueMutex = some (.worker i) from hpc hholds] at this
    cases this
  constructor
  . exact hm.front
  . exact hm.rear
  . have hdec := total_update Pc.decrements s.workers i pc'
    have hcount := hx.count
    have := hm.count
    dsimp only at hcount ⊢
    rw [hm.before] at hdec
    rw [hm.workers, hm.main]
    omega
  . intro num
    have hcarries := total_update (Pc.carries num) s.workers i pc'
    have hitems := hx.items num
    have := hm.items num
    dsimp only at hitems ⊢
    rw [hm.before] at hcarries
    rw [hm.workers, hm.main, hm.input]
    omega
  . exact hm.totals
  . intro hmain
    dsimp only at hmain ⊢
    rw [hm.main] at hmain
    have hheld := hx.main hmain
    rcases hm.mutex with ⟨hsame, -⟩ | ⟨hnone, -⟩ | ⟨-, hholds, -⟩
    . rw [hsame]
      exact hheld
    . rw [hheld] at hnone
      cases hnone
    . exact absurd hmain (hmainalone hholds)
  . intro j hj
    dsimp only at hj ⊢
    by_cases hji : j = i
    . rw [hji, hself] at hj
      rw [hji]
      rcases hm.mutex with ⟨hsame, himp⟩ | ⟨-, hsome⟩ | ⟨-, -, hnot⟩
      . rw [hsame]
        exact hpc (himp hj)
      . exact hsome
      . exact absurd hj hnot
    . rw [hother j hji] at hj
      have hheld := hx.worker j hj
      rcases hm.mutex with ⟨hsame, -⟩ | ⟨hnone, -⟩ | ⟨-, hholds, -⟩
      . rw [hsame]
        exact hheld
      . rw [hheld] at hnone
        cases hnone
      . exact absurd hj (halone j hji hholds)
  . intro j hj
    dsimp only at hj ⊢
    by_cases hji : j = i
    . rw [hji, hself] at hj
      exact hm.delete hj
    . rw [hother j hji] at hj
      rcases hm.taskCount with hsame | ⟨hholds, -⟩
      . rw [hsame]
        exact hx.delete j hj
      . exact absurd (by rw [hj]; rfl) (halone j hji hholds)
  . intro j hj
    dsimp only at hj ⊢
    rw [hm.done]
    by_cases hji : j = i
    . rw [hji, hself] at hj
      exact hm.testCount hj
    . rw [hother j hji] at hj
      exact hx.testCount j hj
  . intro j hj
    dsimp only at hj ⊢
    rw [hm.done]
    by_cases hji : j = i
    . rw [hji, hself] at hj
      exact hm.finished hj
    . rw [hother j hji] at hj
      obtain ⟨hdone, hzero⟩ := hx.finished j hj
      refine ⟨hdone, ?_⟩
      rcases hm.taskCount with hsame | ⟨-, hle⟩
      . rw [hsame]
        exact hzero
      . dsimp only at hzero
        omega
  . dsimp only
    rw [hm.done, hm.main]
    exact hx.done
  . dsimp only
    rw [hm.main, hm.input]
    exact hx.ended

variable {junk : Int}

-- A step that leaves the ring, `taskCount` and the totals alone.
theorem Moves.of_same {pc pc' : Pc} (hx : Sound input (s, added)) (hpc : s.workers i = pc)
    (hworkers : s'.workers = Function.update s.workers i pc') (hmain : s'.main = s.main) (hinput : s'.input = s.input)
    (hdone : s'.done = s.done) (hfront : s'.front = s.front) (hrear : s'.rear = s.rear) (hqueue : s'.queue = s.queue)
    (htaskCount : s'.taskCount = s.taskCount) (htotals : s'.totals = s.totals)
    (hdecrements : pc'.decrements = pc.decrements) (hcarries : ∀ num, pc'.carries num = pc.carries num)
    (hmutex : (s'.queueMutex = s.queueMutex ∧ (pc'.holds → pc.holds)) ∨
      (s.queueMutex = none ∧ s'.queueMutex = some (.worker i)) ∨ (s'.queueMutex = none ∧ pc.holds ∧ ¬ pc'.holds))
    (hdelete : pc' = .delete → 0 < s.taskCount) (htest : pc' = .testCount → s.done)
    (hover : pc' = .done → s.done ∧ s.taskCount = 0)
    : Moves s added i pc pc' s' added := by
  have hitems : s'.items = s.items := by
    unfold State.items
    rw [hfront, hrear, hqueue]
  constructor
  . exact hpc
  . exact hworkers
  . exact hmain
  . exact hinput
  . exact hdone
  . rw [hfront]
    exact hx.front
  . rw [hrear]
    exact hx.rear
  . rw [hitems, hdecrements, htaskCount]
  . intro num
    rw [hitems, hcarries]
  . rw [htotals]
    exact hx.totals
  . exact hmutex
  . exact Or.inl htaskCount
  . rwa [htaskCount]
  . exact htest
  . rwa [htaskCount]

theorem Sound.ne_of_delete (hx : Sound input (s, added)) (hpc : s.workers i = .delete) : s.front ≠ s.rear := by
  have hheld := hx.worker i (by rw [hpc]; rfl)
  have hdec : total Pc.decrements s.workers = 0 := by
    have hnone : ∀ j, (s.workers j).decrements = 0 := by
      intro j
      by_cases hj : (s.workers j).holds
      . have hj' := hx.worker j hj
        rw [hheld] at hj'
        simp only [Option.some.injEq, Holder.worker.injEq] at hj'
        rw [← hj', hpc]
        rfl
      . revert hj
        cases s.workers j <;> simp [Pc.holds, Pc.decrements]
    rw [total_eq_of_forall hnone, Nat.mul_zero]
  have hpos := hx.delete i hpc
  have hcount := hx.count
  dsimp only at hcount hpos
  intro heq
  unfold State.items at hcount
  rw [heq, Ring.items_self, hdec, List.length_nil] at hcount
  omega

theorem Sound.delete_moves (hx : Sound input (s, added)) (hpc : s.workers i = .delete)
    : Moves s added i .delete (.decrement (s.queue_delete junk).2.1)
        ((s.queue_delete junk).1.setWorker i (.decrement (s.queue_delete junk).2.1)) added := by
  have hne := hx.ne_of_delete hpc
  have hitems := Ring.items_advance hx.front hx.rear hne s.queue
  unfold State.queue_delete
  rw [if_neg hne]
  refine ⟨hpc, rfl, rfl, rfl, rfl, Nat.mod_lt _ (by decide), hx.rear, ?_, ?_, hx.totals, ?_, Or.inl rfl, ?_, ?_, ?_⟩
  . unfold State.items
    dsimp only [State.setWorker] at hitems ⊢
    rw [hitems, List.length_cons]
    simp only [Pc.decrements]
  . intro num
    unfold State.items
    dsimp only [State.setWorker] at hitems ⊢
    rw [hitems, List.count_cons]
    simp only [Pc.carries, beq_iff_eq]
    omega
  . exact Or.inl ⟨rfl, fun _ => rfl⟩
  . intro heq
    cases heq
  . intro heq
    cases heq
  . intro heq
    cases heq

theorem Sound.decrement_moves {item : Int} (hx : Sound input (s, added)) (hpc : s.workers i = .decrement item)
    : Moves s added i (.decrement item) (.unlock (some item))
        ({ s with taskCount := s.taskCount - 1 }.setWorker i (.unlock (some item))) added := by
  have hpos : 0 < s.taskCount := by
    have hdec := le_total Pc.decrements s.workers i
    rw [hpc, Pc.decrements] at hdec
    have hcount := hx.count
    have hmain : s.main.increments = 0 := by
      have hheld := hx.worker i (by rw [hpc]; rfl)
      cases hm : s.main <;> try rfl
      have := hx.main (by rw [hm]; rfl)
      rw [hheld] at this
      cases this
    dsimp only at hcount
    omega
  refine ⟨hpc, rfl, rfl, rfl, rfl, hx.front, hx.rear, ?_, fun num => rfl, hx.totals, Or.inl ⟨rfl, fun _ => rfl⟩, ?_, ?_,
    ?_, ?_⟩
  . simp only [State.items, State.setWorker, Pc.decrements]
    omega
  . exact Or.inr ⟨rfl, Nat.sub_le _ _⟩
  . intro heq
    cases heq
  . intro heq
    cases heq
  . intro heq
    cases heq

theorem Sound.update_moves {item : Int} (hx : Sound input (s, added)) (hpc : s.workers i = .update item)
    : Moves s added i (.update item) .unlockTask ({ s with totals := s.totals.update item }.setWorker i .unlockTask)
        (item :: added) := by
  refine ⟨hpc, rfl, rfl, rfl, rfl, hx.front, hx.rear, rfl, ?_, ?_, Or.inl ⟨rfl, fun hh => absurd hh (by decide)⟩,
    Or.inl rfl, ?_, ?_, ?_⟩
  . intro num
    simp only [State.items, State.setWorker, Pc.carries, List.count_cons, beq_iff_eq]
    omega
  . have := hx.totals
    dsimp only at this
    simp only [State.setWorker, this]
    rfl
  . intro heq
    cases heq
  . intro heq
    cases heq
  . intro heq
    cases heq

theorem workerFunc_moves (hx : Sound input (s, added)) (hs : workerFunc s i junk = some (s', o))
    : ∃ pc pc', Moves s added i pc pc' s' (record s (.worker i junk) s' added) := by
  unfold workerFunc at hs
  unfold record
  dsimp only
  cases hpc : s.workers i with
  | lock =>
    rw [hpc] at hs
    dsimp only at hs
    split at hs
    . next hnone =>
      cases hs
      refine ⟨.lock, .test, ?_⟩
      apply Moves.of_same hx hpc <;> simp [State.setWorker, Pc.decrements, Pc.carries, hnone]
    . cases hs
  | test =>
    rw [hpc] at hs
    cases hs
    refine ⟨.test, if s.taskCount > 0 then .delete else .unlock none, ?_⟩
    apply Moves.of_same hx hpc rfl <;> split <;> simp_all [State.setWorker, Pc.decrements, Pc.carries, Pc.holds]
  | delete =>
    rw [hpc] at hs
    simp only [Option.some.injEq, Prod.mk.injEq] at hs
    obtain ⟨rfl, -⟩ := hs
    exact ⟨_, _, hx.delete_moves hpc⟩
  | decrement item =>
    rw [hpc] at hs
    cases hs
    exact ⟨_, _, hx.decrement_moves hpc⟩
  | unlock item =>
    rw [hpc] at hs
    cases item with
    | none =>
      cases hs
      refine ⟨.unlock none, .testDone, ?_⟩
      apply Moves.of_same hx hpc <;> simp [State.setWorker, Pc.decrements, Pc.carries, Pc.holds]
    | some item =>
      cases hs
      refine ⟨.unlock (some item), .lockTask item, ?_⟩
      apply Moves.of_same hx hpc <;> simp [State.setWorker, Pc.decrements, Pc.carries, Pc.holds]
  | lockTask item =>
    rw [hpc] at hs
    dsimp only at hs
    split at hs
    . cases hs
      refine ⟨.lockTask item, .update item, ?_⟩
      apply Moves.of_same hx hpc <;> simp [State.setWorker, Pc.decrements, Pc.carries, Pc.holds]
    . cases hs
  | update item =>
    rw [hpc] at hs
    cases hs
    exact ⟨_, _, hx.update_moves hpc⟩
  | unlockTask =>
    rw [hpc] at hs
    cases hs
    refine ⟨.unlockTask, .testDone, ?_⟩
    apply Moves.of_same hx hpc <;> simp [State.setWorker, Pc.decrements, Pc.carries, Pc.holds]
  | testDone =>
    rw [hpc] at hs
    cases hs
    refine ⟨.testDone, if s.done then .testCount else .lock, ?_⟩
    apply Moves.of_same hx hpc rfl <;> split <;> simp_all [State.setWorker, Pc.decrements, Pc.carries, Pc.holds]
  | testCount =>
    have hdone := hx.testCount i hpc
    rw [hpc] at hs
    cases hs
    refine ⟨.testCount, if s.taskCount = 0 then .done else .lock, ?_⟩
    apply Moves.of_same hx hpc rfl <;> split <;> simp_all [State.setWorker, Pc.decrements, Pc.carries, Pc.holds]
  | done =>
    rw [hpc] at hs
    cases hs

theorem Sound.of_main (hx : Sound input (s, added)) (hworkers : s'.workers = s.workers) (htotals : s'.totals = s.totals)
    (hfront : s'.front < 20) (hrear : s'.rear < 20)
    (hcount : s'.items.length + s.taskCount + s.main.increments = s.items.length + s'.taskCount + s'.main.increments)
    (hitems : ∀ num, s'.items.count num + s'.main.carries num + ((numbers s'.input).map toInt).count num
        =
      s.items.count num + s.main.carries num + ((numbers s.input).map toInt).count num)
    (hmain : s'.main.holds → s'.queueMutex = some .main)
    (hmutex : ∀ i, s.queueMutex = some (.worker i) → s'.queueMutex = some (.worker i))
    (htaskCount : s.taskCount ≤ s'.taskCount) (hover : s.done → s'.taskCount = s.taskCount) (hdone : s.done → s'.done)
    (hclosed : s'.done → s'.main.closed) (hended : s'.main.ended → s'.input = [])
    : Sound input (s', added) := by
  constructor
  . exact hfront
  . exact hrear
  . have := hx.count
    dsimp only at this ⊢
    rw [hworkers]
    omega
  . intro num
    have := hx.items num
    have := hitems num
    dsimp only at *
    rw [hworkers]
    omega
  . dsimp only
    rw [htotals]
    exact hx.totals
  . exact hmain
  . dsimp only
    rw [hworkers]
    intro i hi
    exact hmutex i (hx.worker i hi)
  . dsimp only
    rw [hworkers]
    intro i hi
    exact Nat.lt_of_lt_of_le (hx.delete i hi) htaskCount
  . dsimp only
    rw [hworkers]
    intro i hi
    exact hdone (hx.testCount i hi)
  . dsimp only
    rw [hworkers]
    intro i hi
    obtain ⟨hd, hzero⟩ := hx.finished i hi
    exact ⟨hdone hd, (hover hd).trans hzero⟩
  . exact hclosed
  . exact hended

theorem Sound.insert {item : Int} (hx : Sound input (s, added)) (hpc : s.main = .insert item)
    (hfits : s.front ≠ (s.rear + 1) % 20)
    : Sound input ({ (s.queue_insert item).1 with main := .increment }, added) := by
  have hput := Ring.items_put hx.front hx.rear hfits s.queue item
  have hdone := hx.done
  have hheld : s.queueMutex = some .main := hx.main (by rw [hpc]; rfl)
  dsimp only at hput hdone
  rw [hpc] at hdone
  unfold State.queue_insert
  dsimp only
  rw [if_neg hfits]
  apply hx.of_main
  . rfl
  . rfl
  . exact hx.front
  . exact Nat.mod_lt _ (by decide)
  . simp only [State.items, hput, hpc, List.length_append, List.length_singleton, MainPc.increments]
    omega
  . intro num
    simp only [State.items, hput, hpc, List.count_append, List.count_singleton, MainPc.carries, beq_iff_eq]
    omega
  . intro
    exact hheld
  . intro i hi
    exact hi
  . exact Nat.le_refl _
  . intro
    rfl
  . exact id
  . exact hdone
  . intro hended
    cases hended

theorem main_sound (hx : Sound input (s, added)) (hfits : Fits s .main) (hs : main s = some (s', o))
    : Sound input (s', added) := by
  have hdone := hx.done
  have hended := hx.ended
  have hmain := hx.main
  have hfront := hx.front
  have hrear := hx.rear
  dsimp only at hdone hended hmain hfront hrear
  unfold main at hs
  unfold Fits at hfits
  cases hpc : s.main with
  | insert item =>
    rw [hpc] at hs
    cases hs
    exact hx.insert hpc (hfits (by rw [hpc]; rfl))
  | read =>
    rw [hpc] at hs hdone
    cases hinput : s.input with
    | nil =>
      rw [hinput] at hs
      cases hs
      apply hx.of_main <;>
        simp_all [State.items, MainPc.increments, MainPc.carries, MainPc.holds, MainPc.closed, MainPc.ended]
    | cons line rest =>
      rw [hinput] at hs
      cases line with
      | p num =>
        cases hs
        apply hx.of_main <;>
          simp_all [State.items, MainPc.increments, MainPc.carries, MainPc.holds, MainPc.closed, MainPc.ended, numbers,
            List.count_cons]
        intro num'
        omega
      | w num =>
        cases hs
        apply hx.of_main <;>
          simp_all [State.items, MainPc.increments, MainPc.carries, MainPc.holds, MainPc.closed, MainPc.ended, numbers]
  | _ =>
    rw [hpc] at hs hdone hended hmain
    dsimp only at hs
    repeat' split at hs
    all_goals cases hs
    all_goals apply hx.of_main <;>
      simp_all [State.items, MainPc.increments, MainPc.carries, MainPc.holds, MainPc.closed, MainPc.ended]
    all_goals omega

abbrev watched (n : Nat) : Machine (State n × List Int) (Event n) Output :=
  Machine.watch step record

theorem step_sound {x x' : State n × List Int} {e : Event n} (hx : Sound input x) (hfits : Fits x.1 e)
    (hs : watched n x e = some (x', o))
    : Sound input x' := by
  obtain ⟨s, added⟩ := x
  obtain ⟨s', added'⟩ := x'
  obtain ⟨hstep, hadded⟩ := Machine.watch_eq_some hs
  dsimp only at hstep hadded
  subst hadded
  cases e with
  | main => exact main_sound hx hfits hstep
  | worker i junk =>
    obtain ⟨pc, pc', hm⟩ := workerFunc_moves hx hstep
    exact hm.sound hx

theorem init_sound (n : Nat) (input : List Line) : Sound input (State.init n input, []) := by
  have htotal : ∀ w : Pc → Nat, w .lock = 0 → total w (fun _ : Fin n => Pc.lock) = 0 := by
    intro w hw
    rw [total_eq_of_forall (fun _ => hw), Nat.mul_zero]
  constructor
  . exact Nat.succ_pos 19
  . exact Nat.succ_pos 19
  . simp [State.init, State.items, Ring.items_self, MainPc.increments, htotal Pc.decrements rfl]
  . intro num
    simp [State.init, State.items, Ring.items_self, MainPc.carries, htotal (Pc.carries num) rfl]
  . rfl
  . intro h
    cases h
  . intro i h
    cases h
  . intro i h
    cases h
  . intro i h
    cases h
  . intro i h
    cases h
  . intro h
    cases h
  . intro h
    cases h

theorem Sound.perm (hx : Sound input (s, added)) (hfin : s.finished) (hn : numbers input = [] ∨ 0 < n)
    : added.Perm ((numbers input).map toInt) := by
  obtain ⟨hmain, hworkers⟩ := hfin
  have htotal : ∀ w : Pc → Nat, w .done = 0 → total w s.workers = 0 := by
    intro w hw
    rw [total_eq_of_forall (fun i => (congrArg w (hworkers i)).trans hw), Nat.mul_zero]
  have hcount := hx.count
  dsimp only at hcount
  rw [htotal Pc.decrements rfl, hmain, MainPc.increments] at hcount
  . have hnil : numbers s.input = [] := by
      rw [hx.ended (by dsimp only; rw [hmain]; rfl)]
      rfl
    rw [List.perm_iff_count]
    intro num
    have hitems := hx.items num
    dsimp only at hitems
    rw [htotal (Pc.carries num) rfl, hmain, hnil] at hitems
    rcases hn with hnone | hpos
    . rw [hnone] at hitems ⊢
      simp only [List.map_nil, List.count_nil] at hitems ⊢
      omega
    . obtain ⟨-, hzero⟩ := hx.finished ⟨0, hpos⟩ (hworkers ⟨0, hpos⟩)
      dsimp only at hzero
      have hempty : s.items = [] := List.eq_nil_of_length_eq_zero (by omega)
      rw [hempty] at hitems
      simp only [List.map_nil, List.count_nil, MainPc.carries] at hitems
      omega
  . simp

theorem totals_right (input : List Line) (hnums : ∀ num ∈ numbers input, Countable num)
    (hthreads : numbers input = [] ∨ 0 < noThreads (numbers input).length)
    (es : List (Event (noThreads (numbers input).length))) {x : State (noThreads (numbers input).length) × List Int}
    (halong : Machine.Along (watched _) (fun x e _ _ => Fits x.1 e) (State.init _ input, []) es)
    (hrun : Machine.run (watched _) (State.init _ input, []) es = some x) (hfin : x.1.finished)
    : x.1.totals.Of (numbers input) ∧ x.2.Perm (numbers input) := by
  have hx : Sound input x := by
    apply Machine.run_invariant _ (init_sound _ input) halong hrun
    intro x e o x' hx hs hfits
    exact step_sound hx hfits hs
  have hmap : (numbers input).map toInt = numbers input :=
    (List.map_congr_left (fun num hnum => toInt_eq (hnums num hnum))).trans (List.map_id' _)
  have hperm := hx.perm hfin hthreads
  rw [hmap] at hperm
  refine ⟨?_, hperm⟩
  rw [hx.totals]
  apply (tally_of _).perm hperm
  intro num hnum
  exact hnums num (hperm.mem_iff.mp hnum)

-- One worker takes two numbers.
def twoTasks : List (Event (noThreads 2)) :=
  List.replicate 12 .main ++ List.replicate 20 (.worker ⟨0, by decide⟩ 0) ++ List.replicate 3 .main

theorem totals_right_twoTasks
    : ∃ x, Machine.run (watched _) (State.init (noThreads 2) [.p 3, .p 4], []) twoTasks = some x ∧
      x.1.totals.Of [3, 4] := by
  have hnums : ∀ num ∈ [3, 4], Countable num := by
    simp [Countable]
  have halong : Machine.Along (watched _) (fun x e _ _ => Fits x.1 e) (State.init (noThreads 2) [.p 3, .p 4], [])
      twoTasks := by
    decide
  refine ⟨_, rfl, (totals_right [.p 3, .p 4] hnums (Or.inr (by decide)) twoTasks halong rfl ⟨rfl, ?_⟩).1⟩
  intro i
  have hi : i = ⟨0, by decide⟩ := Fin.ext (Nat.lt_one_iff.mp i.isLt)
  rw [hi]
  rfl

-- For one number there is no worker.
theorem task_never_done
    : ∃ x, Machine.run (watched _) (State.init (noThreads 1) [.p 4], []) (List.replicate 9 .main) = some x ∧
      x.1.finished ∧ ¬ x.1.totals.Of [4] := by
  refine ⟨_, rfl, ⟨rfl, ?_⟩, ?_⟩
  . intro i
    exact absurd i.isLt (Nat.not_lt_zero _)
  . intro h
    exact absurd h.sum (by decide)

end Xv6.Lab7.Workers
