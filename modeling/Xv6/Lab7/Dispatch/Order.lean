import Xv6.Lab7.Dispatch.Impl

/-!
Which numbers `main` passes to its threads.
-/

namespace Xv6.Lab7.Dispatch

-- The numbers that wait in `tasks`.
def waiting (tasks : Nat → Int) (f b : Nat) : List Int :=
  (List.range' f (b - f)).map tasks

theorem waiting_self (tasks : Nat → Int) (f : Nat) : waiting tasks f f = [] := by
  simp [waiting]

theorem waiting_cons {f b : Nat} (h : f < b) (tasks : Nat → Int)
    : waiting tasks f b = tasks f :: waiting tasks (f + 1) b := by
  unfold waiting
  have : b - f = b - (f + 1) + 1 := by omega
  rw [this, List.range'_succ, List.map_cons]

theorem waiting_concat {f b : Nat} (h : f ≤ b) (tasks : Nat → Int) (num : Int)
    : waiting (Function.update tasks b num) f (b + 1) = waiting tasks f b ++ [num] := by
  unfold waiting
  have : b + 1 - f = b - f + 1 := by omega
  rw [this, List.range'_concat, List.map_append]
  congr 1
  . apply List.map_congr_left
    intro j hj
    rw [List.mem_range'] at hj
    rw [Function.update_of_ne (by omega)]
  . simp [show f + (b - f) = b by omega]

-- The number that `main` has stored for a thread that it has not created yet.
def State.stored (s : State) : List Int :=
  match s.main with
  | .create site _ _ => [(s.cells site).number]
  | _ => []

-- The number of the last line, as long as it is neither stored nor in `tasks`.
def MainPc.inHand : MainPc → List Int
  | .scan num _ | .look num _ | .next num _ | .queue num | .enqueue num _ => [num]
  | .store .direct num _ | .store .queued num _ | .create .queued num _ => [num]
  | _ => []

def MainPc.sweeping : MainPc → Bool
  | .sweep _ | .sweepLook _ | .store .drain _ _ | .create .drain _ _ | .sweepTaken _ | .sweepNext _ => true
  | _ => false

def MainPc.drained : MainPc → Bool
  | .join _ | .print | .done => true
  | _ => false

def MainPc.direct : MainPc → Bool
  | .store .direct _ _ | .create .direct _ _ => true
  | _ => false

def MainPc.queued : MainPc → Bool
  | .store .queued _ _ => true
  | _ => false

def MainPc.reading : MainPc → Bool
  | .read | .scan _ _ | .look _ _ | .store .direct _ _ | .store .queued _ _ | .create .direct _ _ | .create .queued _ _
  | .enqueue _ _ | .taken _ | .leave | .next _ _ | .queue _ => true
  | _ => false

-- Every number that was read has been passed to one thread or waits for that, and nothing else has been passed.
structure Dispatched (x : State × Log) : Prop where
  order : x.1.f ≤ x.1.b
  reads : ∀ r ∈ x.2.reads, r.1 < r.2
  passed : x.2.passed.map Arg.number ++ x.1.stored ++ waiting x.1.tasks x.1.f x.1.b ++ x.1.main.inHand = x.2.read
  drained : x.1.main.drained → x.2.passed.map Arg.number = x.2.read

-- A sweep of the drain loop meets no more free slots than tasks were left when it began.
def KeepsToTasks (x : State × Log) : Event → Prop
  | .main =>
    match x.1.main with
    | .store .drain _ _ => x.2.met < x.2.left
    | _ => True
  | .thread _ => True

-- What a sweep and the end of the drain loop know, whether or not the sweep goes too far.
structure Counted (x : State × Log) : Prop where
  sweeping : x.1.main.sweeping → x.2.left + x.1.f = x.1.b + x.2.met
  drained : x.1.main.drained → x.1.b ≤ x.1.f
  direct : x.1.main.direct → x.1.f = x.1.b
  queued : x.1.main.queued → x.1.f < x.1.b
  reading : x.1.main.reading → x.1.f ≤ x.1.b

abbrev watched (threadNum : Nat) : Machine (State × Log) Event Output :=
  Machine.watch (step threadNum) record

variable {threadNum k : Nat} {s s' : State} {h : Log} {o : Output}

theorem processtask_counted (hx : Counted (s, h)) (hs : processtask s k = some (s', o)) : Counted (s', h) := by
  obtain ⟨-, -, hf, hb, -, hmain⟩ := processtask_frame hs
  constructor
  . dsimp only
    rw [hf, hb, hmain]
    exact hx.sweeping
  . dsimp only
    rw [hf, hb, hmain]
    exact hx.drained
  . dsimp only
    rw [hf, hb, hmain]
    exact hx.direct
  . dsimp only
    rw [hf, hb, hmain]
    exact hx.queued
  . dsimp only
    rw [hf, hb, hmain]
    exact hx.reading

theorem processtask_dispatched (hx : Dispatched (s, h)) (hs : processtask s k = some (s', o)) : Dispatched (s', h) := by
  obtain ⟨-, htasks, hf, hb, hcells, hmain⟩ := processtask_frame hs
  have hstored : s'.stored = s.stored := by
    unfold State.stored
    rw [hmain, hcells]
  constructor
  . dsimp only
    rw [hf, hb]
    exact hx.order
  . exact hx.reads
  . dsimp only
    rw [hstored, htasks, hf, hb, hmain]
    exact hx.passed
  . dsimp only
    rw [hmain]
    exact hx.drained

theorem main_counted (hx : Counted (s, h)) (hs : main threadNum s = some (s', o)) : Counted (s', recordMain s h) := by
  obtain ⟨hsweeping, hdrained, hdirect, hqueued, hreading⟩ := hx
  unfold main at hs
  unfold recordMain
  cases hpc : s.main with
  | store site num i =>
    rw [hpc] at hs hsweeping hdirect hreading
    cases hs
    cases site <;> constructor
    all_goals simp_all [State.store, MainPc.sweeping, MainPc.drained, MainPc.direct, MainPc.queued, MainPc.reading]
    all_goals omega
  | create site num i =>
    rw [hpc] at hs hsweeping hreading
    cases hs
    cases site <;> constructor <;>
      simp_all [State.create, MainPc.created, MainPc.sweeping, MainPc.drained, MainPc.direct, MainPc.queued,
        MainPc.reading]
  | drain =>
    rw [hpc] at hs
    cases hs
    dsimp only [State.goto]
    split
    . constructor
      . intro
        dsimp only
        omega
      . simp [MainPc.drained]
      . simp [MainPc.direct]
      . simp [MainPc.queued]
      . simp [MainPc.reading]
    . constructor
      . simp [MainPc.sweeping]
      . intro
        dsimp only
        omega
      . simp [MainPc.direct]
      . simp [MainPc.queued]
      . simp [MainPc.reading]
  | _ =>
    rw [hpc] at hs hsweeping hdrained hreading
    dsimp only at hs
    repeat' split at hs
    all_goals cases hs
    all_goals constructor <;>
      simp_all [State.goto, State.take, State.enqueue, MainPc.sweeping, MainPc.drained, MainPc.direct, MainPc.queued,
        MainPc.reading]
    all_goals omega

theorem Dispatched.store (hx : Dispatched (s, h)) (hc : Counted (s, h)) {site : Site} {num : Int} {i : Nat}
    (hpc : s.main = .store site num i) (hsite : site ≠ .drain)
    : Dispatched (s.store site num i, recordMain s h) := by
  obtain ⟨horder, hreads, hpassed, -⟩ := hx
  obtain ⟨-, -, hdirect, hqueued⟩ := hc
  unfold State.stored at hpassed
  unfold recordMain
  rw [hpc] at hpassed hdirect hqueued ⊢
  cases site with
  | direct =>
    have heq : s.f = s.b := hdirect rfl
    constructor
    . exact horder
    . exact hreads
    . simp only [MainPc.inHand, List.append_nil, heq, waiting_self] at hpassed
      simp [State.store, State.stored, State.argNumber, MainPc.inHand, heq, waiting_self, hpassed]
    . intro hf
      cases hf
  | queued =>
    have hlt : s.f < s.b := hqueued rfl
    constructor
    . exact hlt
    . intro r hr
      rw [List.mem_append, List.mem_singleton] at hr
      rcases hr with hr | rfl
      . exact hreads r hr
      . exact hlt
    . simp only [MainPc.inHand, List.append_nil, waiting_cons hlt] at hpassed
      simp [State.store, State.stored, State.argNumber, MainPc.inHand, ← hpassed]
    . intro hf
      cases hf
  | drain => exact absurd rfl hsite

-- The store of the drain loop is right as long as the sweep has met fewer free slots than there were tasks.
theorem Dispatched.store_drain (hx : Dispatched (s, h)) (hc : Counted (s, h)) {num : Int} {i : Nat}
    (hpc : s.main = .store .drain num i)
    : Dispatched (s.store .drain num i, recordMain s h) ↔ h.met < h.left := by
  obtain ⟨horder, hreads, hpassed, -⟩ := hx
  have hsweeping := hc.sweeping
  unfold State.stored at hpassed
  unfold recordMain
  rw [hpc] at hpassed hsweeping ⊢
  have hcount : h.left + s.f = s.b + h.met := hsweeping rfl
  constructor
  . intro hx'
    have : s.f < s.b := hx'.reads (s.f, s.b) (by simp)
    omega
  . intro hmet
    have hlt : s.f < s.b := by omega
    constructor
    . exact hlt
    . intro r hr
      rw [List.mem_append, List.mem_singleton] at hr
      rcases hr with hr | rfl
      . exact hreads r hr
      . exact hlt
    . simp only [MainPc.inHand, List.append_nil, waiting_cons hlt] at hpassed
      simp [State.store, State.stored, State.argNumber, MainPc.inHand, ← hpassed]
    . intro hf
      cases hf

theorem Dispatched.create (hx : Dispatched (s, h)) {site : Site} {num : Int} {i : Nat}
    (hpc : s.main = .create site num i)
    : Dispatched (s.create site num i, recordMain s h) := by
  obtain ⟨horder, hreads, hpassed, -⟩ := hx
  unfold State.stored at hpassed
  unfold recordMain
  rw [hpc] at hpassed ⊢
  constructor
  . exact horder
  . exact hreads
  . rw [← hpassed]
    cases site <;> simp [State.create, State.stored, MainPc.created, MainPc.inHand]
  . intro hf
    cases site <;> cases hf

theorem Dispatched.enqueue (hx : Dispatched (s, h)) {num : Int} {pc : MainPc}
    (hhand : s.main.inHand = [num]) (hstored : s.stored = []) (hpc : pc = .read ∨ ∃ i, pc = .taken i)
    : Dispatched (s.enqueue num pc, h) := by
  obtain ⟨horder, hreads, hpassed, -⟩ := hx
  simp only [hhand, hstored, List.append_nil] at hpassed
  have hnone : (s.enqueue num pc).stored = [] ∧ pc.inHand = [] ∧ ¬ pc.drained := by
    rcases hpc with rfl | ⟨i, rfl⟩ <;> simp [State.enqueue, State.stored, MainPc.inHand, MainPc.drained]
  constructor
  . exact Nat.le_succ_of_le horder
  . exact hreads
  . rw [hnone.1]
    dsimp only [State.enqueue]
    rw [waiting_concat horder, hnone.2.1, ← hpassed]
    simp
  . intro hf
    exact absurd hf hnone.2.2

-- A step of `main` that neither stores nor creates moves nothing.
theorem Dispatched.move (hx : Dispatched (s, h)) (hf : s'.f = s.f) (hb : s'.b = s.b) (htasks : s'.tasks = s.tasks)
    (hstored : s.stored = []) (hstored' : s'.stored = []) (hhand : s'.main.inHand = s.main.inHand)
    (hdrained : s'.main.drained → s'.main.inHand = [] ∧ s.b ≤ s.f)
    : Dispatched (s', h) := by
  obtain ⟨horder, hreads, hpassed, -⟩ := hx
  simp only [hstored, List.append_nil] at hpassed
  constructor
  . dsimp only
    rwa [hf, hb]
  . exact hreads
  . dsimp only
    rw [hf, hb, htasks, hstored', hhand, List.append_nil]
    exact hpassed
  . intro hd
    obtain ⟨hnil, hle⟩ := hdrained hd
    have heq : s.f = s.b := Nat.le_antisymm horder hle
    rw [← hpassed, ← hhand, hnil, heq, waiting_self, List.append_nil, List.append_nil]

theorem main_dispatched_iff (hx : Dispatched (s, h)) (hc : Counted (s, h)) (hs : main threadNum s = some (s', o))
    : Dispatched (s', recordMain s h) ↔ KeepsToTasks (s, h) .main := by
  have horder := hx.order
  unfold main at hs
  unfold KeepsToTasks
  cases hpc : s.main with
  | store site num i =>
    rw [hpc] at hs
    cases hs
    cases site with
    | drain => exact hx.store_drain hc hpc
    | _ =>
      rw [iff_true]
      apply hx.store hc hpc
      simp
  | create site num i =>
    rw [hpc] at hs
    cases hs
    rw [iff_true]
    exact hx.create hpc
  | enqueue num i =>
    rw [hpc] at hs
    cases hs
    rw [iff_true, recordMain, hpc]
    apply hx.enqueue
    . rw [hpc]
      rfl
    . simp [State.stored, hpc]
    . exact Or.inr ⟨i, rfl⟩
  | queue num =>
    rw [hpc] at hs
    cases hs
    rw [iff_true, recordMain, hpc]
    apply hx.enqueue
    . rw [hpc]
      rfl
    . simp [State.stored, hpc]
    . exact Or.inl rfl
  | read =>
    rw [hpc] at hs
    rw [iff_true, recordMain, hpc]
    cases hinput : s.input with
    | nil =>
      rw [hinput] at hs
      cases hs
      apply hx.move <;> simp [State.goto, State.stored, MainPc.inHand, MainPc.drained, hpc]
    | cons line input =>
      rw [hinput] at hs
      cases line with
      | p num =>
        cases hs
        obtain ⟨-, hreads, hpassed, -⟩ := hx
        simp only [State.stored, hpc, MainPc.inHand, List.append_nil] at hpassed
        constructor
        . exact horder
        . exact hreads
        . rw [← hpassed]
          simp [State.goto, State.stored, MainPc.inHand]
        . intro hd
          cases hd
      | w num =>
        cases hs
        apply hx.move <;> simp [State.goto, State.stored, MainPc.inHand, MainPc.drained, hpc]
  | drain =>
    rw [hpc] at hs
    cases hs
    rw [iff_true, recordMain, hpc]
    have : Dispatched (s.goto (if s.f < s.b then .sweep 0 else .join 0), h) := by
      split
      . apply hx.move <;> simp [State.goto, State.stored, MainPc.inHand, MainPc.drained, hpc]
      . next hlt => apply hx.move <;> simp [State.goto, State.stored, MainPc.inHand, hpc, Nat.le_of_not_lt hlt]
    exact ⟨this.order, this.reads, this.passed, this.drained⟩
  | look num i =>
    rw [hpc] at hs
    dsimp only at hs
    rw [iff_true, recordMain, hpc]
    split at hs
    . split at hs
      . cases hs
        apply hx.move <;> simp [State.goto, State.stored, MainPc.inHand, MainPc.drained, hpc]
      . split at hs
        . cases hs
          apply hx.move <;> simp [State.goto, State.stored, MainPc.inHand, MainPc.drained, hpc]
        . dsimp only at horder
          omega
    . cases hs
      apply hx.move <;> simp [State.goto, State.stored, MainPc.inHand, MainPc.drained, hpc]
  | _ =>
    have hle := hc.drained
    rw [hpc] at hs hle
    rw [iff_true, recordMain, hpc]
    dsimp only at hs
    repeat' split at hs
    all_goals cases hs
    all_goals apply hx.move <;>
      simp_all [State.goto, State.take, State.stored, MainPc.inHand, MainPc.drained]

theorem step_counted {x x' : State × Log} {e : Event} (hx : Counted x) (hs : watched threadNum x e = some (x', o))
    : Counted x' := by
  obtain ⟨s, h⟩ := x
  obtain ⟨s', h'⟩ := x'
  obtain ⟨hstep, hlog⟩ := Machine.watch_eq_some hs
  dsimp only at hstep hlog
  subst hlog
  cases e with
  | main => exact main_counted hx hstep
  | thread k =>
    unfold step at hstep
    dsimp only at hstep
    split at hstep
    . cases hstep
    . exact processtask_counted hx hstep

theorem step_dispatched_iff {x x' : State × Log} {e : Event} (hc : Counted x) (hx : Dispatched x)
    (hs : watched threadNum x e = some (x', o))
    : Dispatched x' ↔ KeepsToTasks x e := by
  obtain ⟨s, h⟩ := x
  obtain ⟨s', h'⟩ := x'
  obtain ⟨hstep, hlog⟩ := Machine.watch_eq_some hs
  dsimp only at hstep hlog
  subst hlog
  cases e with
  | main => exact main_dispatched_iff hx hc hstep
  | thread k =>
    unfold step at hstep
    dsimp only at hstep
    split at hstep
    . cases hstep
    . exact iff_of_true (processtask_dispatched hx hstep) trivial

theorem init_counted (input : List Line) (tasks : Nat → Int) : Counted (State.init input tasks, Log.init) := by
  constructor
  . intro h
    cases h
  . intro h
    cases h
  . intro h
    cases h
  . intro h
    cases h
  . intro
    exact Nat.le_refl 0

theorem init_dispatched (input : List Line) (tasks : Nat → Int) : Dispatched (State.init input tasks, Log.init) := by
  constructor
  . exact Nat.le_refl 0
  . intro r hr
    cases hr
  . rfl
  . intro h
    cases h

theorem dispatched_iff (threadNum : Nat) (input : List Line) (tasks : Nat → Int) (es : List Event)
    : Machine.Always (watched threadNum) Dispatched (State.init input tasks, Log.init) es ↔
      Machine.Along (watched threadNum) (fun x e _ _ => KeepsToTasks x e) (State.init input tasks, Log.init) es := by
  apply Machine.always_iff_along (J := Counted)
  . intro x e o x'
    exact step_counted
  . intro x e o x'
    exact step_dispatched_iff
  . exact init_counted input tasks
  . exact init_dispatched input tasks

-- Two slots are free and one task is left when the drain loop begins its sweep.
def overrun : List Event :=
  List.replicate 7 .main ++ [.thread 0] ++ List.replicate 19 .main ++ List.replicate 12 (.thread 0) ++
    List.replicate 13 (.thread 1) ++ List.replicate 11 .main

theorem task_made_up
    : ¬ Machine.Always (watched 2) Dispatched (State.init [.p 1, .p 2, .p 3] (fun _ => 0), Log.init) overrun := by
  intro h
  have hreads : (Machine.run (watched 2) (State.init [.p 1, .p 2, .p 3] (fun _ => 0), Log.init) overrun).map
      (fun x => x.2.reads) = some [(0, 1), (1, 1)] := by
    decide
  rw [Option.map_eq_some_iff] at hreads
  obtain ⟨x, hrun, hx⟩ := hreads
  have hlt := (Machine.always_run h hrun).reads (1, 1) (by simp [hx])
  exact Nat.lt_irrefl 1 hlt

end Xv6.Lab7.Dispatch
