import Xv6.Lab7.Dispatch.Order

/-!
Which pairs the threads read.
-/

namespace Xv6.Lab7.Dispatch

-- The pair that a thread works on.
def Pc.nums : Pc → Option Arg
  | .lock _ nums | .update _ nums | .unlock _ nums => some nums
  | _ => none

def Pc.holds : Pc → Bool
  | .update _ _ | .unlock _ _ => true
  | _ => false

-- The thread has given its slot back.
def Pc.freed : Pc → Bool
  | .unlock .pool _ | .done => true
  | _ => false

def MainPc.holds : MainPc → Bool
  | .look _ _ | .store _ _ _ | .create _ _ _ | .enqueue _ _ | .taken _ | .leave | .next _ _ | .sweepLook _
  | .sweepTaken _ | .sweepNext _ => true
  | _ => false

-- The slot that `main` has given to a thread and not marked yet.
def MainPc.taking : MainPc → Option Nat
  | .enqueue _ i | .taken i | .sweepTaken i => some i
  | _ => none

-- The slot for which `main` is about to create a thread.
def MainPc.giving : MainPc → Option Nat
  | .store _ _ i | .create _ _ i => some i
  | _ => none

-- The thread `k` was given the slot `i` and has not given it back.
def Occupies (x : State × Log) (k i : Nat) : Prop :=
  ∃ nums pc, x.2.passed[k]? = some nums ∧ nums.idx = i ∧ x.1.threads[k]? = some pc ∧ ¬ pc.freed

-- Every thread works on the pair that was stored for it, and a slot is taken as long as the one thread that it was
-- given to has not given it back.
structure Handed (x : State × Log) : Prop where
  count : x.1.threads.length = x.2.passed.length
  own : ∀ (k : Nat) (pc : Pc) (nums : Arg), x.1.threads[k]? = some pc → pc.nums = some nums →
    x.2.passed[k]? = some nums
  unique : ∀ k k' i, Occupies x k i → Occupies x k' i → k = k'
  taken : ∀ k i, Occupies x k i → x.1.threadPool i = false ∨ x.1.main.taking = some i
  kept : ∀ i, x.1.threadPool i = false → ∃ k, Occupies x k i

def MainPc.storing : MainPc → Option Site
  | .store site _ _ => some site
  | _ => none

-- When `main` stores a pair, no thread has yet to read the pair before it.
def HandsOver (s : State) : Event → Prop
  | .main => ∀ site ∈ s.main.storing, .start site ∉ s.threads
  | .thread _ => True

instance (s : State) : (e : Event) → Decidable (HandsOver s e)
  | .main => inferInstanceAs (Decidable (∀ site ∈ s.main.storing, .start site ∉ s.threads))
  | .thread _ => .isTrue trivial

structure Owned (x : State × Log) : Prop extends Handed x, Counted x where
  cell : ∀ (k : Nat) (site : Site), x.1.threads[k]? = some (.start site) → x.2.passed[k]? = some (x.1.cells site)
  create : ∀ site num i, x.1.main = .create site num i → (x.1.cells site).idx = i
  giving : ∀ i, x.1.main.giving = some i → x.1.threadPool i = true
  taking : ∀ i, x.1.main.taking = some i → ∃ k, Occupies x k i
  main : x.1.main.holds → x.1.m = some .main
  thread : ∀ (k : Nat) (pc : Pc), x.1.threads[k]? = some pc → pc.holds → x.1.m = some (.thread k)

variable {threadNum k : Nat} {s s' : State} {h : Log} {o : Output}

-- What a step of a thread does.
structure Moves (s : State) (k : Nat) (pc pc' : Pc) (s' : State) : Prop where
  before : s.threads[k]? = some pc
  threads : s'.threads = s.threads.set k pc'
  nums : ∀ nums, pc'.nums = some nums → pc.nums = some nums ∨ ∃ site, pc = .start site ∧ nums = s.cells site
  start : ∀ site, pc' ≠ .start site
  m : (s'.m = s.m ∧ (pc'.holds → pc.holds)) ∨ (s.m = none ∧ s'.m = some (.thread k)) ∨
    (s'.m = none ∧ pc.holds ∧ ¬ pc'.holds)
  pool : (s'.threadPool = s.threadPool ∧ pc'.freed = pc.freed) ∨
    (∃ nums, pc = .update .pool nums ∧ pc'.freed ∧ s'.threadPool = Function.update s.threadPool nums.idx true)

theorem processtask_moves (hs : processtask s k = some (s', o)) : ∃ pc pc', Moves s k pc pc' s' := by
  unfold processtask at hs
  cases hpc : s.threads[k]? with
  | none =>
    rw [hpc] at hs
    cases hs
  | some pc =>
    rw [hpc] at hs
    cases pc with
    | start site =>
      cases hs
      refine ⟨.start site, .lock .sum (s.cells site), hpc, rfl, ?_, ?_, ?_, ?_⟩ <;>
        simp [Pc.nums, State.setThread, Pc.holds, Pc.freed]
    | lock part nums =>
      dsimp only at hs
      split at hs
      . next hm =>
        cases hs
        refine ⟨.lock part nums, .update part nums, hpc, rfl, ?_, ?_, ?_, ?_⟩ <;>
          simp [Pc.nums, State.setThread, Pc.holds, Pc.freed, hm]
      . cases hs
    | update part nums =>
      cases part with
      | pool =>
        cases hs
        refine ⟨.update .pool nums, .unlock .pool nums, hpc, rfl, ?_, ?_, ?_, ?_⟩ <;>
          simp [Pc.nums, State.setThread, Pc.holds, Pc.freed]
      | _ =>
        cases hs
        refine ⟨_, _, hpc, rfl, ?_, ?_, ?_, ?_⟩ <;>
          simp [Pc.nums, State.setThread, Pc.holds, Pc.freed]
    | unlock part nums =>
      cases hs
      refine ⟨.unlock part nums, Pc.after nums part, hpc, rfl, ?_, ?_, ?_, ?_⟩ <;>
        cases part <;> simp [Pc.nums, State.setThread, Pc.after, Pc.holds, Pc.freed]
    | done => cases hs

theorem Moves.get_self {pc pc' : Pc} (hm : Moves s k pc pc' s') : s'.threads[k]? = some pc' := by
  have hk := (List.getElem?_eq_some_iff.mp hm.before).1
  rw [hm.threads, List.getElem?_set_self hk]

theorem Moves.get_of_ne {pc pc' : Pc} (hm : Moves s k pc pc' s') {j : Nat} (hj : j ≠ k)
    : s'.threads[j]? = s.threads[j]? := by
  rw [hm.threads, List.getElem?_set_ne (Ne.symm hj)]

theorem Moves.occupies_of_ne {pc pc' : Pc} (hm : Moves s k pc pc' s') {j i : Nat} (hj : j ≠ k)
    : Occupies (s', h) j i ↔ Occupies (s, h) j i := by
  unfold Occupies
  dsimp only
  rw [hm.get_of_ne hj]

theorem Moves.occupies_of_eq {pc pc' : Pc} (hm : Moves s k pc pc' s') (hfreed : pc'.freed = pc.freed) {j i : Nat}
    : Occupies (s', h) j i ↔ Occupies (s, h) j i := by
  by_cases hj : j = k
  . unfold Occupies
    dsimp only
    rw [hj, hm.get_self, hm.before]
    simp [hfreed]
  . exact hm.occupies_of_ne hj

theorem Moves.not_occupies {pc pc' : Pc} (hm : Moves s k pc pc' s') (hfreed : pc'.freed) {i : Nat}
    : ¬ Occupies (s', h) k i := by
  rintro ⟨nums, pc'', -, -, hpc, hnot⟩
  rw [hm.get_self, Option.some.injEq] at hpc
  exact hnot (hpc ▸ hfreed)

-- The thread that gives back the slot of its pair gives back its own.
theorem Owned.occupies_update {nums : Arg} (hx : Owned (s, h)) (hpc : s.threads[k]? = some (.update .pool nums))
    : Occupies (s, h) k nums.idx :=
  ⟨nums, _, hx.own k _ nums hpc rfl, rfl, hpc, by simp [Pc.freed]⟩

theorem Moves.owned {pc pc' : Pc} (hm : Moves s k pc pc' s') (hx : Owned (s, h)) (hcounted : Counted (s', h))
    (hcells : s'.cells = s.cells) (hmain : s'.main = s.main)
    : Owned (s', h) := by
  have hthread : ∀ pc, s.threads[k]? = some pc → pc.holds → s.m = some (.thread k) := hx.thread k
  have hbusy : pc.holds → ¬ s.main.holds := by
    intro hholds hmain
    have := hthread pc hm.before hholds
    rw [hx.main hmain] at this
    cases this
  have hsub : ∀ j i, Occupies (s', h) j i → Occupies (s, h) j i := by
    intro j i hj
    rcases hm.pool with ⟨-, hfreed⟩ | ⟨nums, hpc, hfreed, -⟩
    . exact (hm.occupies_of_eq hfreed).mp hj
    . have hjk : j ≠ k := by
        rintro rfl
        exact hm.not_occupies hfreed hj
      exact (hm.occupies_of_ne hjk).mp hj
  refine ⟨⟨?_, ?_, ?_, ?_, ?_⟩, hcounted, ?_, ?_, ?_, ?_, ?_, ?_⟩
  . dsimp only
    rw [hm.threads, List.length_set]
    exact hx.count
  . intro j pcj nums hpcj hnums
    by_cases hj : j = k
    . subst hj
      dsimp only at hpcj
      rw [hm.get_self, Option.some.injEq] at hpcj
      subst hpcj
      rcases hm.nums nums hnums with hold | ⟨site, hpc, hcell⟩
      . exact hx.own j pc nums hm.before hold
      . rw [hcell]
        exact hx.cell j site (hpc ▸ hm.before)
    . dsimp only at hpcj
      rw [hm.get_of_ne hj] at hpcj
      exact hx.own j pcj nums hpcj hnums
  . intro j j' i hj hj'
    exact hx.unique j j' i (hsub j i hj) (hsub j' i hj')
  . intro j i hj
    dsimp only
    rw [hmain]
    rcases hm.pool with ⟨hpool, -⟩ | ⟨nums, hpc, hfreed, hpool⟩
    . rw [hpool]
      exact hx.taken j i (hsub j i hj)
    . have hjk : j ≠ k := by
        rintro rfl
        exact hm.not_occupies hfreed hj
      have hne : i ≠ nums.idx := by
        rintro rfl
        exact hjk (hx.unique j k _ (hsub j _ hj) (hx.occupies_update (hpc ▸ hm.before)))
      rw [hpool, Function.update_of_ne hne]
      exact hx.taken j i (hsub j i hj)
  . intro i hi
    dsimp only at hi
    rcases hm.pool with ⟨hpool, hfreed⟩ | ⟨nums, hpc, hfreed, hpool⟩
    . rw [hpool] at hi
      obtain ⟨j, hj⟩ := hx.kept i hi
      exact ⟨j, (hm.occupies_of_eq hfreed).mpr hj⟩
    . have hne : i ≠ nums.idx := by
        rintro rfl
        rw [hpool, Function.update_self] at hi
        cases hi
      rw [hpool, Function.update_of_ne hne] at hi
      obtain ⟨j, hj⟩ := hx.kept i hi
      have hjk : j ≠ k := by
        rintro rfl
        obtain ⟨nums', pc'', hpassed, hidx, -, -⟩ := hj
        rw [hx.own j pc nums hm.before (by rw [hpc]; rfl), Option.some.injEq] at hpassed
        exact hne (hpassed ▸ hidx.symm)
      exact ⟨j, (hm.occupies_of_ne hjk).mpr hj⟩
  . intro j site hj
    dsimp only
    rw [hcells]
    by_cases hjk : j = k
    . subst hjk
      dsimp only at hj
      rw [hm.get_self, Option.some.injEq] at hj
      exact absurd hj (hm.start site)
    . dsimp only at hj
      rw [hm.get_of_ne hjk] at hj
      exact hx.cell j site hj
  . dsimp only
    rw [hmain, hcells]
    exact hx.create
  . intro i hi
    dsimp only at hi ⊢
    rw [hmain] at hi
    have := hx.giving i hi
    rcases hm.pool with ⟨hpool, -⟩ | ⟨nums, hpc, hfreed, hpool⟩
    . rwa [hpool]
    . rw [hpool]
      by_cases hne : i = nums.idx
      . rw [hne, Function.update_self]
      . rwa [Function.update_of_ne hne]
  . intro i hi
    dsimp only at hi
    rw [hmain] at hi
    obtain ⟨j, hj⟩ := hx.taking i hi
    rcases hm.pool with ⟨-, hfreed⟩ | ⟨nums, hpc, hfreed, -⟩
    . exact ⟨j, (hm.occupies_of_eq hfreed).mpr hj⟩
    . have hholds : s.main.holds := by
        revert hi
        cases s.main <;> simp [MainPc.taking, MainPc.holds]
      exact absurd hholds (hbusy (by rw [hpc]; rfl))
  . intro hmainholds
    dsimp only at hmainholds ⊢
    rw [hmain] at hmainholds
    rcases hm.m with ⟨hsame, -⟩ | ⟨hnone, -⟩ | ⟨-, hholds, -⟩
    . rw [hsame]
      exact hx.main hmainholds
    . rw [hx.main hmainholds] at hnone
      cases hnone
    . exact absurd hmainholds (hbusy hholds)
  . intro j pcj hpcj hholds
    dsimp only at hpcj ⊢
    by_cases hjk : j = k
    . subst hjk
      rw [hm.get_self, Option.some.injEq] at hpcj
      subst hpcj
      rcases hm.m with ⟨hsame, himp⟩ | ⟨-, hsome⟩ | ⟨-, -, hnot⟩
      . rw [hsame]
        exact hthread pc hm.before (himp hholds)
      . exact hsome
      . exact absurd hholds hnot
    . rw [hm.get_of_ne hjk] at hpcj
      have hj := hx.thread j pcj hpcj hholds
      rcases hm.m with ⟨hsame, -⟩ | ⟨hnone, -⟩ | ⟨-, hpcholds, -⟩
      . rw [hsame]
        exact hj
      . rw [hj] at hnone
        cases hnone
      . rw [hthread pc hm.before hpcholds] at hj
        simp only [Option.some.injEq, Holder.thread.injEq] at hj
        exact absurd hj.symm hjk

theorem occupies_congr {h' : Log} (hthreads : s'.threads = s.threads) (hpassed : h'.passed = h.passed) {j i : Nat}
    : Occupies (s', h') j i ↔ Occupies (s, h) j i := by
  unfold Occupies
  dsimp only
  rw [hthreads, hpassed]

theorem Owned.move {h' : Log} (hx : Owned (s, h)) (hcounted : Counted (s', h')) (hpassed : h'.passed = h.passed)
    (hthreads : s'.threads = s.threads) (hpool : s'.threadPool = s.threadPool) (hcells : s'.cells = s.cells)
    (htaking : s'.main.taking = s.main.taking) (hcreate : ∀ site num i, s'.main ≠ .create site num i)
    (hgiving : ∀ i, s'.main.giving = some i → s.threadPool i = true)
    (hm : s'.main.holds → s'.m = some .main) (hm' : ∀ j, s.m = some (.thread j) → s'.m = some (.thread j))
    : Owned (s', h') := by
  have hocc : ∀ j i, Occupies (s', h') j i ↔ Occupies (s, h) j i := fun j i => occupies_congr hthreads hpassed
  refine ⟨⟨?_, ?_, ?_, ?_, ?_⟩, hcounted, ?_, ?_, ?_, ?_, hm, ?_⟩
  . dsimp only
    rw [hthreads, hpassed]
    exact hx.count
  . dsimp only
    rw [hthreads, hpassed]
    exact hx.own
  . simp only [hocc]
    exact hx.unique
  . simp only [hocc, hpool, htaking]
    exact hx.taken
  . simp only [hocc, hpool]
    exact hx.kept
  . dsimp only
    rw [hthreads, hpassed, hcells]
    exact hx.cell
  . intro site num i hpc
    exact absurd hpc (hcreate site num i)
  . dsimp only
    rw [hpool]
    exact hgiving
  . simp only [hocc, htaking]
    exact hx.taking
  . dsimp only
    rw [hthreads]
    intro j pc hpc hholds
    exact hm' j (hx.thread j pc hpc hholds)

theorem Owned.store {h' : Log} (hx : Owned (s, h)) {site : Site} {num : Int} {i : Nat} (hpc : s.main = .store site num i)
    (hcounted : Counted (s.store site num i, h')) (hpassed : h'.passed = h.passed) (hover : .start site ∉ s.threads)
    : Owned (s.store site num i, h') := by
  have hocc : ∀ j i', Occupies (s.store site num i, h') j i' ↔ Occupies (s, h) j i' :=
    fun j i' => occupies_congr rfl hpassed
  obtain ⟨⟨hcount, hown, hunique, htaken, hkept⟩, -, hcell, -, hgiving, -, hmain, hthread⟩ := hx
  rw [hpc] at hgiving hmain
  refine ⟨⟨?_, ?_, ?_, ?_, ?_⟩, hcounted, ?_, ?_, ?_, ?_, ?_, ?_⟩
  . dsimp only
    rw [hpassed]
    exact hcount
  . dsimp only
    rw [hpassed]
    exact hown
  . simp only [hocc]
    exact hunique
  . simp only [hocc]
    rw [hpc] at htaken
    exact htaken
  . simp only [hocc]
    exact hkept
  . intro j site' hj
    have hne : site' ≠ site := by
      rintro rfl
      exact hover (List.mem_of_getElem? hj)
    dsimp only [State.store]
    rw [hpassed, Function.update_of_ne hne]
    exact hcell j site' hj
  . intro site' num' i' heq
    cases heq
    simp [State.store]
  . exact hgiving
  . intro i' hi'
    cases hi'
  . intro
    exact hmain rfl
  . exact hthread

theorem Owned.createThread {h' : Log} (hx : Owned (s, h)) {site : Site} {num : Int} {i : Nat}
    (hpc : s.main = .create site num i) (hcounted : Counted (s.create site num i, h'))
    (hpassed : h'.passed = h.passed ++ [s.cells site])
    : Owned (s.create site num i, h') := by
  obtain ⟨⟨hcount, hown, hunique, htaken, hkept⟩, -, hcell, hcreate, hgiving, -, hmain, hthread⟩ := hx
  have hfree : s.threadPool i = true := hgiving i (by rw [hpc]; rfl)
  have hidx : (s.cells site).idx = i := hcreate site num i hpc
  have hholds : s.m = some .main := hmain (by rw [hpc]; rfl)
  have hnone : ∀ j, ¬ Occupies (s, h) j i := by
    intro j hj
    rcases htaken j i hj with hpool | htaking
    . rw [hfree] at hpool
      cases hpool
    . rw [hpc] at htaking
      cases htaking
  have hthreads : ∀ j, (s.create site num i).threads[j]? =
      if j < s.threads.length then s.threads[j]? else if j = s.threads.length then some (.start site) else none := by
    intro j
    dsimp only [State.create]
    rw [List.getElem?_append]
    split
    . rfl
    . rw [List.getElem?_singleton]
      split <;> split <;> first | rfl | omega
  have hpassed' : ∀ j, h'.passed[j]? =
      if j < s.threads.length then h.passed[j]? else if j = s.threads.length then some (s.cells site) else none := by
    intro j
    dsimp only at hcount
    rw [hpassed, hcount, List.getElem?_append]
    split
    . rfl
    . rw [List.getElem?_singleton]
      split <;> split <;> first | rfl | omega
  have hocc : ∀ j i', Occupies (s.create site num i, h') j i' ↔
      Occupies (s, h) j i' ∨ (j = s.threads.length ∧ i' = i) := by
    intro j i'
    unfold Occupies
    dsimp only
    rw [hthreads, hpassed']
    by_cases hlt : j < s.threads.length
    . have hne : j ≠ s.threads.length := by omega
      simp [hlt, hne]
    . have hnone : s.threads[j]? = none := List.getElem?_eq_none (by omega)
      rw [if_neg hlt, if_neg hlt, hnone]
      by_cases heq : j = s.threads.length
      . simp [heq, Pc.freed, hidx, Eq.comm (a := i)]
      . simp [heq]
  refine ⟨⟨?_, ?_, ?_, ?_, ?_⟩, hcounted, ?_, ?_, ?_, ?_, ?_, ?_⟩
  . dsimp only [State.create] at hcount ⊢
    rw [hpassed, List.length_append, List.length_append, hcount]
    rfl
  . intro j pc nums hj hnums
    dsimp only at hj ⊢
    rw [hthreads] at hj
    rw [hpassed']
    split at hj
    . next hlt =>
      rw [if_pos hlt]
      exact hown j pc nums hj hnums
    . split at hj
      . cases hj
        cases hnums
      . cases hj
  . intro j j' i' hj hj'
    rw [hocc] at hj hj'
    rcases hj with hj | ⟨rfl, rfl⟩
    . rcases hj' with hj' | ⟨rfl, rfl⟩
      . exact hunique j j' i' hj hj'
      . exact absurd hj (hnone j)
    . rcases hj' with hj' | ⟨rfl, -⟩
      . exact absurd hj' (hnone j')
      . rfl
  . intro j i' hj
    rw [hocc] at hj
    rcases hj with hj | ⟨-, rfl⟩
    . have := htaken j i' hj
      rw [hpc] at this
      exact Or.inl (this.resolve_right (by simp [MainPc.taking]))
    . right
      cases site <;> rfl
  . intro i' hi'
    obtain ⟨j, hj⟩ := hkept i' hi'
    exact ⟨j, (hocc j i').mpr (Or.inl hj)⟩
  . intro j site' hj
    dsimp only at hj ⊢
    rw [hthreads] at hj
    rw [hpassed']
    split at hj
    . next hlt =>
      rw [if_pos hlt]
      exact hcell j site' hj
    . next hlt =>
      split at hj
      . next heq =>
        cases hj
        rw [if_neg hlt, if_pos heq]
        rfl
      . cases hj
  . intro site' num' i' heq
    cases site <;> cases heq
  . intro i' hi'
    cases site <;> cases hi'
  . intro i' hi'
    have : i' = i := by
      cases site <;> cases hi' <;> rfl
    exact ⟨s.threads.length, (hocc _ i').mpr (Or.inr ⟨rfl, this⟩)⟩
  . intro
    exact hholds
  . intro j pc hj hpcholds
    dsimp only at hj
    rw [hthreads] at hj
    split at hj
    . exact hthread j pc hj hpcholds
    . split at hj
      . cases hj
        cases hpcholds
      . cases hj

theorem Owned.take {h' : Log} (hx : Owned (s, h)) {i : Nat} {pc : MainPc} (htake : s.main.taking = some i)
    (hcounted : Counted (s.take i pc, h')) (hpassed : h'.passed = h.passed) (htaking : pc.taking = none)
    (hgiving : pc.giving = none)
    : Owned (s.take i pc, h') := by
  have hocc : ∀ j i', Occupies (s.take i pc, h') j i' ↔ Occupies (s, h) j i' :=
    fun j i' => occupies_congr rfl hpassed
  obtain ⟨⟨hcount, hown, hunique, htaken, hkept⟩, -, hcell, hcreate, -, htakes, hmain, hthread⟩ := hx
  refine ⟨⟨?_, ?_, ?_, ?_, ?_⟩, hcounted, ?_, ?_, ?_, ?_, ?_, ?_⟩
  . dsimp only
    rw [hpassed]
    exact hcount
  . dsimp only
    rw [hpassed]
    exact hown
  . simp only [hocc]
    exact hunique
  . intro j i' hj
    rw [hocc] at hj
    left
    dsimp only [State.take]
    by_cases hi : i' = i
    . rw [hi, Function.update_self]
    . rw [Function.update_of_ne hi]
      apply (htaken j i' hj).resolve_right
      rw [htake, Option.some.injEq]
      exact Ne.symm hi
  . intro i' hi'
    dsimp only [State.take] at hi'
    simp only [hocc]
    by_cases hi : i' = i
    . rw [hi]
      exact htakes i htake
    . rw [Function.update_of_ne hi] at hi'
      exact hkept i' hi'
  . dsimp only
    rw [hpassed]
    exact hcell
  . intro site num j heq
    rw [show (s.take i pc, h').1.main = pc from rfl] at heq
    rw [heq] at hgiving
    cases hgiving
  . intro j hj
    rw [show (s.take i pc, h').1.main = pc from rfl, hgiving] at hj
    cases hj
  . intro j hj
    rw [show (s.take i pc, h').1.main = pc from rfl, htaking] at hj
    cases hj
  . intro
    apply hmain
    revert htake
    cases s.main <;> simp [MainPc.taking, MainPc.holds]
  . exact hthread

theorem recordMain_passed (s : State) (h : Log) (hpc : ∀ site num i, s.main ≠ .create site num i)
    : (recordMain s h).passed = h.passed := by
  unfold recordMain
  split
  any_goals split
  any_goals rfl
  next site num i heq => exact absurd heq (hpc site num i)

theorem main_owned (hx : Owned (s, h)) (hover : HandsOver s .main) (hs : main threadNum s = some (s', o))
    : Owned (s', recordMain s h) := by
  have hcounted := main_counted hx.toCounted hs
  have hholds := hx.main
  unfold main at hs
  cases hpc : s.main with
  | store site num i =>
    rw [hpc] at hs
    cases hs
    exact hx.store hpc hcounted (recordMain_passed s h (by simp [hpc])) (hover site (by rw [hpc]; rfl))
  | create site num i =>
    rw [hpc] at hs
    cases hs
    apply hx.createThread hpc hcounted
    unfold recordMain
    rw [hpc]
  | taken i =>
    rw [hpc] at hs
    cases hs
    apply hx.take _ hcounted (recordMain_passed s h (by simp [hpc])) rfl rfl
    rw [hpc]
    rfl
  | sweepTaken i =>
    rw [hpc] at hs
    cases hs
    apply hx.take _ hcounted (recordMain_passed s h (by simp [hpc])) rfl rfl
    rw [hpc]
    rfl
  | look num i =>
    have hreading := hx.reading
    have hpassed := recordMain_passed s h (by simp [hpc])
    rw [hpc] at hs hholds hreading
    dsimp only at hs
    split at hs
    . next hfree =>
      split at hs
      . cases hs
        apply hx.move hcounted hpassed <;> simp_all [State.goto, MainPc.taking, MainPc.giving, MainPc.holds]
      . split at hs
        . cases hs
          apply hx.move hcounted hpassed <;> simp_all [State.goto, MainPc.taking, MainPc.giving, MainPc.holds]
        . have hle : s.f ≤ s.b := hreading rfl
          omega
    . cases hs
      apply hx.move hcounted hpassed <;> simp_all [State.goto, MainPc.taking, MainPc.giving, MainPc.holds]
  | sweepLook i =>
    have hpassed := recordMain_passed s h (by simp [hpc])
    rw [hpc] at hs hholds
    cases hs
    apply hx.move hcounted hpassed <;> cases hfree : s.threadPool i <;>
      simp_all [State.goto, MainPc.taking, MainPc.giving, MainPc.holds]
  | _ =>
    have hpassed := recordMain_passed s h (by simp [hpc])
    rw [hpc] at hs hholds
    dsimp only at hs
    repeat' split at hs
    all_goals cases hs
    all_goals apply hx.move hcounted hpassed <;>
      simp_all [State.goto, State.enqueue, MainPc.taking, MainPc.giving, MainPc.holds]

theorem step_owned {x x' : State × Log} {e : Event} (hx : Owned x) (hover : HandsOver x.1 e)
    (hs : watched threadNum x e = some (x', o))
    : Owned x' := by
  have hcounted := step_counted hx.toCounted hs
  obtain ⟨s, h⟩ := x
  obtain ⟨s', h'⟩ := x'
  obtain ⟨hstep, hlog⟩ := Machine.watch_eq_some hs
  dsimp only at hstep hlog
  subst hlog
  cases e with
  | main => exact main_owned hx hover hstep
  | thread k =>
    unfold step at hstep
    dsimp only at hstep
    split at hstep
    . cases hstep
    . obtain ⟨-, -, -, -, hcells, hmain⟩ := processtask_frame hstep
      obtain ⟨pc, pc', hm⟩ := processtask_moves hstep
      exact hm.owned hx hcounted hcells hmain

theorem init_owned (input : List Line) (tasks : Nat → Int) : Owned (State.init input tasks, Log.init) := by
  refine ⟨⟨rfl, ?_, ?_, ?_, ?_⟩, init_counted input tasks, ?_, ?_, ?_, ?_, ?_, ?_⟩
  . intro k pc nums hk
    cases hk
  . rintro k k' i ⟨nums, pc, hk, -⟩
    cases hk
  . rintro k i ⟨nums, pc, hk, -⟩
    cases hk
  . intro i hi
    cases hi
  . intro k site hk
    cases hk
  . intro site num i hpc
    cases hpc
  . intro i hi
    cases hi
  . intro i hi
    cases hi
  . intro hholds
    cases hholds
  . intro k pc hk
    cases hk

theorem pairs_handed_over (threadNum : Nat) (input : List Line) (tasks : Nat → Int) (es : List Event)
    (halong : Machine.Along (watched threadNum) (fun x e _ _ => HandsOver x.1 e) (State.init input tasks, Log.init) es)
    : Machine.Always (watched threadNum) Handed (State.init input tasks, Log.init) es := by
  refine ⟨(init_owned input tasks).toHanded, ?_⟩
  apply Machine.along_of_invariant (I := Owned) _ (init_owned input tasks) halong
  intro x e o x' hx hs hover
  have := step_owned hx hover hs
  exact ⟨this.toHanded, this⟩

theorem pairs_handed_over_twoTasks
    : Machine.Always (watched 1) Handed (State.init [.p 5, .p 6] (fun _ => 0), Log.init)
        (List.replicate 7 .main ++ List.replicate 13 (.thread 0) ++ List.replicate 7 .main ++
          List.replicate 13 (.thread 1) ++ List.replicate 6 .main) :=
  pairs_handed_over 1 [.p 5, .p 6] _ _ (by decide +kernel)

-- Thread 0 runs for the first time when `main` has already stored the pair for thread 1.
def lateStart : List Event :=
  List.replicate 17 .main ++ [.thread 0]

theorem wrong_pair
    : ¬ Machine.Always (watched 2) Handed (State.init [.p 1, .p 2] (fun _ => 0), Log.init) lateStart := by
  intro h
  have hpairs : (Machine.run (watched 2) (State.init [.p 1, .p 2] (fun _ => 0), Log.init) lateStart).map
      (fun x => (x.1.threads[0]?, x.2.passed[0]?)) = some (some (.lock .sum ⟨2, 1⟩), some ⟨1, 0⟩) := by
    decide
  rw [Option.map_eq_some_iff] at hpairs
  obtain ⟨x, hrun, hx⟩ := hpairs
  rw [Prod.mk.injEq] at hx
  have hown := (Machine.always_run h hrun).own 0 _ ⟨2, 1⟩ hx.1 rfl
  rw [hx.2] at hown
  cases hown

end Xv6.Lab7.Dispatch
