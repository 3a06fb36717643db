import Xv6.Lab7.Workers.Totals

/-!
The ring under `queueMutex`: `masterFunc` and the critical section of `workerFunc` as whole steps.
-/

namespace Xv6.Lab7.Workers

-- `junk` is what a `queue_delete` without a value returns.
inductive Op where
  | insert (item : Int)
  | remove (junk : Int)
  deriving DecidableEq, Repr

variable {n : Nat}

def masterFunc (s : State n) (item : Int) : State n :=
  let s := (s.queue_insert item).1
  { s with taskCount := s.taskCount + 1 }

-- The critical section of `workerFunc`, and the item that it has found.
def State.takeTask (s : State n) (junk : Int) : State n × Option Int :=
  if s.taskCount > 0 then
    let (s, item, _) := s.queue_delete junk
    ({ s with taskCount := s.taskCount - 1 }, some item)
  else (s, none)

-- The items that were inserted and those that were removed, in their order.
structure Traffic where
  inserted : List Int
  removed : List Int
  deriving DecidableEq, Repr

def exec (x : State n × Traffic) : Op → State n × Traffic
  | .insert item => (masterFunc x.1 item, { x.2 with inserted := x.2.inserted ++ [item] })
  | .remove junk => ((x.1.takeTask junk).1, { x.2 with removed := x.2.removed ++ (x.1.takeTask junk).2.toList })

def run (n : Nat) (ops : List Op) : State n × Traffic :=
  ops.foldl exec (State.init n [], ⟨[], []⟩)

-- How many items wait for a worker.
def waiting (ops : List Op) : Nat :=
  ops.foldl (fun k op => match op with
    | .insert _ => k + 1
    | .remove _ => k - 1) 0

-- Whenever an item is inserted, fewer than 19 items wait.
def Roomy (ops : List Op) : Prop :=
  ∀ pre item, pre ++ [.insert item] <+: ops → waiting pre < 19

/-- `taskCount` counts the items in the ring, and they are the ones that were inserted and not yet removed. -/
structure InStep (x : State n × Traffic) : Prop where
  count : x.1.taskCount = Ring.size 20 x.1.front x.1.rear
  fifo : x.2.inserted = x.2.removed ++ x.1.items

structure Bounded (s : State n) : Prop where
  front : s.front < 20
  rear : s.rear < 20

variable {x : State n × Traffic} {s : State n} {ops : List Op} {op : Op} {item junk : Int} {i : Fin n}

-- What the threads do from the lock to the unlock of `queueMutex`, which nobody else has in the meantime.
theorem main_masterFunc (hmain : s.main = .lock item) (hfree : s.queueMutex = none)
    : Machine.run step s (List.replicate 4 .main) = some { masterFunc s item with main := .read } := by
  obtain ⟨input, front, rear, taskCount, queue, queueMutex, taskMutex, totals, done, workers, main⟩ := s
  dsimp only at hmain hfree
  subst hmain hfree
  by_cases hfull : front = (rear + 1) % 20
  . simp [Machine.run, step, Workers.main, masterFunc, State.queue_insert, ← hfull]
  . simp [Machine.run, step, Workers.main, masterFunc, State.queue_insert, hfull]

theorem worker_takeTask (hpc : s.workers i = .lock) (hfree : s.queueMutex = none) (junk : Int)
    : ∃ k, Machine.run step s (List.replicate k (.worker i junk)) =
        some ((s.takeTask junk).1.setWorker i (match (s.takeTask junk).2 with
          | some item => .lockTask item
          | none => .testDone)) := by
  obtain ⟨input, front, rear, taskCount, queue, queueMutex, taskMutex, totals, done, workers, main⟩ := s
  dsimp only at hpc hfree
  subst hfree
  by_cases hpos : taskCount > 0
  . refine ⟨5, ?_⟩
    by_cases hempty : front = rear
    . simp [Machine.run, step, workerFunc, State.takeTask, State.queue_delete, State.setWorker, hpc, hpos, hempty]
    . simp [Machine.run, step, workerFunc, State.takeTask, State.queue_delete, State.setWorker, hpc, hpos, hempty]
  . refine ⟨3, ?_⟩
    simp [Machine.run, step, workerFunc, State.takeTask, State.setWorker, hpc, hpos]

theorem run_concat (n : Nat) (ops : List Op) (op : Op) : run n (ops ++ [op]) = exec (run n ops) op := by
  simp [run]

theorem waiting_concat (ops : List Op) (op : Op)
    : waiting (ops ++ [op]) = match op with
        | .insert _ => waiting ops + 1
        | .remove _ => waiting ops - 1 := by
  simp [waiting]

theorem roomy_concat : Roomy (ops ++ [op]) ↔ Roomy ops ∧ ∀ item, op = .insert item → waiting ops < 19 := by
  constructor
  . intro h
    refine ⟨fun pre item hpre => h pre item (hpre.trans (List.prefix_append ops [op])), ?_⟩
    rintro item rfl
    exact h ops item (List.prefix_refl _)
  . rintro ⟨h, hlast⟩ pre item hpre
    rcases List.prefix_concat_iff.mp hpre with heq | hpre
    . obtain ⟨rfl, hop⟩ := List.append_inj' heq rfl
      exact hlast item (List.cons.inj hop).1.symm
    . exact h pre item hpre

theorem Bounded.exec (h : Bounded x.1) (op : Op) : Bounded (exec x op).1 := by
  obtain ⟨hfront, hrear⟩ := h
  cases op with
  | insert item =>
    unfold Workers.exec masterFunc State.queue_insert
    dsimp only
    split
    . next hfull =>
      refine ⟨hfront, ?_⟩
      dsimp only
      split <;> omega
    . exact ⟨hfront, Nat.mod_lt _ (by decide)⟩
  | remove junk =>
    unfold Workers.exec State.takeTask State.queue_delete
    dsimp only
    split
    . split
      . exact ⟨hfront, hrear⟩
      . exact ⟨Nat.mod_lt _ (by decide), hrear⟩
    . exact ⟨hfront, hrear⟩

theorem run_bounded (n : Nat) (ops : List Op) : Bounded (run n ops).1 := by
  induction ops using List.reverseRecOn with
  | nil => exact ⟨Nat.zero_lt_succ 19, Nat.zero_lt_succ 19⟩
  | append_singleton ops op ih =>
    rw [run_concat]
    exact ih.exec op

-- `taskCount` counts the calls, whatever happens to the ring.
theorem run_taskCount (n : Nat) (ops : List Op) : (run n ops).1.taskCount = waiting ops := by
  induction ops using List.reverseRecOn with
  | nil => rfl
  | append_singleton ops op ih =>
    rw [run_concat, waiting_concat, ← ih]
    cases op with
    | insert item =>
      unfold exec masterFunc State.queue_insert
      dsimp only
      split <;> rfl
    | remove junk =>
      unfold exec State.takeTask State.queue_delete
      dsimp only
      split
      . split <;> rfl
      . next hzero =>
        dsimp only
        omega

theorem InStep.insert (h : InStep x) (hb : Bounded x.1) (hfits : x.1.front ≠ (x.1.rear + 1) % 20) (item : Int)
    : InStep (exec x (.insert item)) := by
  have hput := Ring.items_put hb.front hb.rear hfits x.1.queue item
  unfold exec masterFunc State.queue_insert
  dsimp only
  rw [if_neg hfits]
  constructor
  . have hlen := congrArg List.length hput
    rw [List.length_append, Ring.length_items, Ring.length_items, ← h.count] at hlen
    exact hlen.symm
  . unfold State.items
    dsimp only
    rw [hput, ← List.append_assoc, h.fifo]
    rfl

theorem InStep.ne_of_pos (h : InStep x) (hpos : 0 < x.1.taskCount) : x.1.front ≠ x.1.rear := by
  intro heq
  have hcount := h.count
  rw [heq, ← Ring.length_items x.1.queue, Ring.items_self] at hcount
  rw [hcount] at hpos
  exact Nat.lt_irrefl 0 hpos

theorem InStep.remove (h : InStep x) (hb : Bounded x.1) (junk : Int) : InStep (exec x (.remove junk)) := by
  unfold exec State.takeTask State.queue_delete
  dsimp only
  by_cases hpos : x.1.taskCount > 0
  . have hne := h.ne_of_pos hpos
    have hitems := Ring.items_advance hb.front hb.rear hne x.1.queue
    rw [if_pos hpos, if_neg hne]
    constructor
    . have hlen := congrArg List.length hitems
      rw [List.length_cons, Ring.length_items, Ring.length_items, ← h.count] at hlen
      dsimp only
      omega
    . have hfifo := h.fifo
      unfold State.items at hfifo ⊢
      rw [hfifo, hitems]
      simp
  . rw [if_neg hpos]
    exact ⟨h.count, by rw [h.fifo, Option.toList_none, List.append_nil]⟩

theorem run_inStep (n : Nat) (hroomy : Roomy ops) : InStep (run n ops) := by
  induction ops using List.reverseRecOn with
  | nil => exact ⟨rfl, rfl⟩
  | append_singleton ops op ih =>
    obtain ⟨hroomy, hlast⟩ := roomy_concat.mp hroomy
    have hx := ih hroomy
    have hb := run_bounded n ops
    rw [run_concat]
    cases op with
    | insert item =>
      apply hx.insert hb
      have hlt := hlast item rfl
      have hcount := hx.count
      have hnext := Ring.next_cases hb.rear
      have hfront := hb.front
      have hrear := hb.rear
      rw [run_taskCount] at hcount
      unfold Ring.size at hcount
      intro hfull
      split at hcount <;> omega
    | remove junk => exact hx.remove hb junk

/--
The ring holds what it should after every call, and nothing is deleted from an empty ring, if and only if no item is
inserted while 19 of them wait.
-/
theorem queue_in_step_iff (n : Nat) (ops : List Op)
    : (∀ pre, pre <+: ops → InStep (run n pre)) ∧
        (∀ pre junk, pre ++ [.remove junk] <+: ops → 0 < (run n pre).1.taskCount →
          (run n pre).1.front ≠ (run n pre).1.rear) ↔
      Roomy ops := by
  constructor
  . rintro ⟨h, -⟩ pre item hpre
    have hpos := (h _ hpre).count
    have hb := run_bounded n (pre ++ [.insert item])
    have hlt := Ring.size_lt hb.front hb.rear
    rw [run_taskCount, waiting_concat] at hpos
    dsimp only at hpos
    omega
  . intro hroomy
    have hstep : ∀ pre, pre <+: ops → InStep (run n pre) := by
      intro pre hpre
      apply run_inStep
      intro pre' item hpre'
      exact hroomy pre' item (hpre'.trans hpre)
    refine ⟨hstep, ?_⟩
    intro pre junk hpre hpos
    exact (hstep pre ((List.prefix_append _ _).trans hpre)).ne_of_pos hpos

-- The twentieth of twenty items is dropped, and still counted.
theorem queue_overflows
    : ¬ ∀ (n : Nat) (ops : List Op), (∀ pre, pre <+: ops → InStep (run n pre)) ∧
        (∀ pre junk, pre ++ [.remove junk] <+: ops → 0 < (run n pre).1.taskCount →
          (run n pre).1.front ≠ (run n pre).1.rear) := by
  intro h
  have hcount := ((h 1 (List.replicate 20 (.insert 7))).1 _ (List.prefix_refl _)).count
  exact absurd hcount (by decide)

end Xv6.Lab7.Workers
