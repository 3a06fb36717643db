import Xv6.Lib.Waits
import Xv6.Spinlock.Runs

/-!
The main results: who holds a lock, when interrupts are on, which panics there are, what `swtch` finds, and that not
everybody spins.
-/

namespace Xv6.Spinlock

variable {κ ι L : Type} [DecidableEq κ] [DecidableEq ι] [DecidableEq L]
variable {s t : State κ ι L} {c c' : κ} {lk ptable : L} {p : ι} {R : L → L → Prop} {e : Event κ ι L}
variable {es : List (Event κ ι L)}

omit [DecidableEq κ] [DecidableEq ι] [DecidableEq L] in
theorem inv_init : Inv R ptable (State.init : State κ ι L) := by
  have howns : ∀ c lk, ¬ ((State.init : State κ ι L).loc c).Owns lk := by
    rintro c lk (hmem | hbusy)
    . cases hmem
    . cases hbusy
  refine ⟨⟨fun c => ?_, fun lk => ?_, fun lk c c' how => absurd how (howns c lk), fun lk c => ?_⟩,
    ⟨fun p c c' hp => (by cases hp), fun p c hp => (by cases hp), fun lk c hpc => (by cases hpc),
      fun p c hp => (by cases hp), fun p hp => .inl rfl⟩⟩
  . refine ⟨⟨rfl, fun _ => rfl, fun _ b hb => (by cases hb), List.nodup_nil⟩, fun lk hlk => (by cases hlk),
      fun lk hlk => (by cases hlk)⟩
  . constructor
    . intro hlocked
      cases hlocked
    . rintro ⟨c, how⟩
      exact absurd how (howns c lk)
  . constructor
    . intro hcpu
      cases hcpu
    . exact fun hsign => absurd hsign.owns (howns c lk)

theorem panic_of_event (hs : s.event ptable e = some t) : s.panic = none := by
  cases e <;> unfold State.event at hs <;> dsimp only at hs
  case sched c state =>
    split at hs
    . cases hs
    . split at hs
      . next hcond => exact hcond.1.1.1
      . cases hs
  all_goals
    split at hs
    . next hcond =>
      first
        | exact hcond
        | exact hcond.1
        | exact hcond.1.1
        | exact hcond.1.1.1
    . cases hs

theorem inv_run
    (horder : Machine.Along (step ptable) (fun s e _ _ => e.Ordered R s) (State.init : State κ ι L) es)
    (hrun : Machine.run (step ptable) State.init es = some s) (hpanic : s.panic = none)
    : Inv R ptable s := by
  have hinv : s.panic = none → Inv R ptable s := by
    apply Machine.run_invariant (I := fun s => s.panic = none → Inv R ptable s) _ (fun _ => inv_init) horder hrun
    intro s e _ t hinv hstep hordered ht
    obtain ⟨t', hs, heq⟩ := Option.map_eq_some_iff.mp hstep
    cases heq
    exact inv_event (hinv (panic_of_event hs)) hordered hs ht
  exact hinv hpanic

theorem inv_reach (hrun : Machine.run (step ptable) (State.init : State κ ι L) es = some s) (hpanic : s.panic = none)
    : Inv (fun _ _ => True) ptable s := by
  apply inv_run _ hrun hpanic
  apply Machine.along_of_invariant (I := fun _ => True) (P := fun _ _ _ _ => True) _ trivial (Machine.along_true _ _)
  intro s e _ t _ _ _
  refine ⟨?_, trivial⟩
  cases e <;> first | exact fun _ _ => trivial | trivial

namespace State

variable (s) (ptable)

-- How the caller of `holding` may panic.
def fails (c : κ) : Caller → L → Option String
  | .acquire, lk => if lk ∈ s.held c then some "acquire" else none
  | .release, lk => if lk ∈ s.held c then none else some "release"
  | .sched, _ => if s.held c = [ptable] then none else some "sched locks"

-- If `lk->locked` is 1, `holding` answers in the next step.
def misuse : Event κ ι L → Option String
  | .release c lk => if (s.lock lk).locked then none else s.fails ptable c .release lk
  | .step c =>
    match (s.cpu c).pc with
    | .holding f lk => s.fails ptable c f lk
    | _ => none
  | _ => none

end State

section

variable (h : Inv R ptable s)

include h

theorem panic_acquire (hfree : s.free c) : ((s.pushcli c).holding c .acquire lk).panic = none := by
  have hdeep := h.deep c
  rw [hfree.2] at hdeep
  have hproc : (s.cpu c).pushcli.proc = (s.cpu c).proc := rfl
  rw [State.pushcli_eq, State.holding_put hproc]
  split
  . exact hfree.1
  . obtain ⟨cpu, hpop, -⟩ := hdeep.pushcli.pushcli.popcli
    rw [hpop]
    exact hfree.1

theorem panic_release (hfree : s.free c)
    : (s.holding c .release lk).panic = if (s.lock lk).locked then none else s.fails ptable c .release lk := by
  have hdeep := h.deep c
  rw [hfree.2] at hdeep
  by_cases hlocked : (s.lock lk).locked = true
  . rw [State.holding_of_locked hlocked, if_pos hlocked]
    exact hfree.1
  . have hmem : lk ∉ s.held c := fun hmem => hlocked ((h.locks.locked lk).mpr ⟨c, .inl hmem⟩)
    have hself : s.put c (s.cpu c) (s.thread (s.current c)) = s := by
      unfold State.put State.setThread State.setCpu
      simp only [Function.update_eq_self]
    obtain ⟨cpu, hpop, -⟩ := hdeep.pushcli.popcli
    rw [← hself, State.holding_put rfl, hself, if_neg hlocked, if_neg hlocked, hpop]
    unfold State.fails
    dsimp only
    rw [if_neg hmem]
    rfl

theorem panic_next (hs : s.next c = some t) (hpanic : s.panic = none)
    : t.panic = s.misuse ptable (.step c) := by
  unfold State.misuse
  unfold State.next at hs
  dsimp only at hs ⊢
  cases hpc : (s.cpu c).pc with
  | code =>
    rw [hpc] at hs
    cases hs
  | holding f lk =>
    have hbusy : (s.cpu c).pc.busy = none := by
      rw [hpc]
      rfl
    have hsigned : (s.lock lk).cpu = some c ↔ lk ∈ s.held c := h.signed (Pc.ne_clearCpu hbusy)
    have hr : decide ((s.lock lk).cpu = some c) = decide (lk ∈ s.held c) := decide_eq_decide.mpr hsigned
    rw [hpc, Option.some.injEq, hr] at hs
    dsimp only
    obtain ⟨n, hn⟩ : ∃ n, (s.cpu c).pc.depth = n + 1 := by
      rw [hpc]
      cases f
      . exact ⟨1, rfl⟩
      . exact ⟨0, rfl⟩
      . exact ⟨0, rfl⟩
    obtain ⟨cpu, hpop, hdeep, hproc⟩ := h.popcli hn
    rw [hpop] at hs
    rw [← hs]
    unfold State.fails
    cases f with
    | acquire =>
      dsimp only
      by_cases hmem : lk ∈ s.held c
      . rw [decide_eq_true hmem, if_pos hmem]
        rfl
      . rw [decide_eq_false hmem, if_neg hmem]
        exact hpanic
    | release =>
      dsimp only
      by_cases hmem : lk ∈ s.held c
      . rw [decide_eq_true hmem, if_pos hmem]
        exact hpanic
      . rw [decide_eq_false hmem, if_neg hmem]
        rfl
    | sched =>
      rw [hpc] at hn
      cases hn
      obtain ⟨rfl, hmem, hsome⟩ := h.placed.sched lk c hpc
      obtain ⟨p, hp⟩ := Option.ne_none_iff_exists'.mp hsome
      have hncli : cpu.ncli = (s.held c).length + 0 := hdeep.ncli
      have hpos := List.length_pos_of_mem hmem
      have hoff : cpu.eflags = false := hdeep.eflags (by change 0 < cpu.ncli; omega)
      have hone : cpu.ncli = 1 ↔ s.held c = [lk] := by
        rw [hncli, Nat.add_zero, List.length_eq_one_iff]
        constructor
        . rintro ⟨x, hx⟩
          rw [hx, List.mem_singleton] at hmem
          rw [hx, hmem]
        . exact fun heq => ⟨lk, heq⟩
      have hleave : (s.proc p).state ≠ .running := by
        rcases (h.placed.running p c hp).2 with ⟨-, hno⟩ | ⟨-, hleave⟩
        . exact absurd hpc hno
        . rcases hleave with heq | heq | heq <;> rw [heq] <;> exact fun heq => by cases heq
      rw [decide_eq_true hmem]
      change (s.swtch c cpu).panic = _
      unfold State.swtch Cpu.mycpu
      rw [hoff, if_neg Bool.false_ne_true, hproc, hp]
      dsimp only [State.orPanic]
      by_cases hheld : s.held c = [lk]
      . rw [if_neg (not_not.mpr (hone.mpr hheld)), if_neg hleave, if_neg Bool.false_ne_true, if_pos hheld]
        exact hpanic
      . rw [if_pos (fun heq => hheld (hone.mp heq)), if_neg hheld]
        rfl
  | spin lk =>
    rw [hpc] at hs
    dsimp only at hs
    split at hs
    . cases hs
      exact hpanic
    . cases hs
      exact hpanic
  | setCpu lk =>
    have hdeep := h.deep c
    rw [hpc] at hdeep
    rw [hpc, hdeep.mycpu] at hs
    cases hs
    exact hpanic
  | clearCpu lk =>
    rw [hpc] at hs
    cases hs
    exact hpanic
  | clearLocked lk =>
    obtain ⟨cpu, hpop, -, -⟩ := h.popcli (n := 0) (by rw [hpc]; rfl)
    rw [hpc, hpop] at hs
    cases hs
    exact hpanic

theorem panic_event (hs : s.event ptable e = some t) : t.panic = s.misuse ptable e := by
  have hpanic := panic_of_event hs
  cases e with
  | acquire c lk =>
    unfold State.event at hs
    dsimp only at hs
    split at hs
    . next hfree =>
      cases hs
      exact panic_acquire h hfree
    . cases hs
  | release c lk =>
    unfold State.event at hs
    dsimp only at hs
    split at hs
    . next hfree =>
      cases hs
      exact panic_release h hfree
    . cases hs
  | sched c state =>
    unfold State.event at hs
    dsimp only at hs
    split at hs
    . cases hs
    . next p hp =>
      split at hs
      . next hcond =>
        cases hs
        have hlocked : (s.lock ptable).locked = true := (h.locks.locked ptable).mpr ⟨c, .inl hcond.1.2⟩
        rw [State.holding_of_locked (s := s.setProc p { s.proc p with state := state }) hlocked]
        exact hpanic
      . cases hs
  | step c =>
    unfold State.event at hs
    dsimp only at hs
    rw [if_pos hpanic] at hs
    exact panic_next h hs hpanic
  | dispatch c p =>
    unfold State.event at hs
    dsimp only at hs
    split at hs
    . next hcond =>
      cases hs
      exact (inv_dispatch h hcond.1 hcond.2.1 hcond.2.2.1 hcond.2.2.2.1 hcond.2.2.2.2).2
    . cases hs
  | _ =>
    unfold State.event at hs
    dsimp only at hs
    split at hs
    . cases hs
      exact hpanic
    . cases hs

end

/--
A lock is held by one CPU at a time, and interrupts are off on a CPU that holds one, so that no handler runs there. With
the last lock of a thread they are again as they were when it acquired the first one, on whatever CPU that was.
-/
theorem locks_exclusive (hrun : Machine.run (step ptable) (State.init : State κ ι L) es = some s)
    (hpanic : s.panic = none)
    : (∀ lk c c', lk ∈ s.held c → lk ∈ s.held c' → c = c') ∧
      (∀ c, s.held c ≠ [] → (s.cpu c).eflags = false ∧ s.event ptable (.intr c) = none) ∧
      ∀ c lk t b, (s.cpu c).pc = .clearLocked lk → s.held c = [] → (s.thread (s.current c)).flag = some b →
        s.event ptable (.step c) = some t → (t.cpu c).eflags = b := by
  have h := inv_reach hrun hpanic
  refine ⟨fun lk c c' hc hc' => h.locks.unique lk c c' (.inl hc) (.inl hc'), ?_, ?_⟩
  . intro c hheld
    have hoff : (s.cpu c).eflags = false := by
      apply (h.deep c).eflags
      have hncli : (s.cpu c).ncli = (s.held c).length + (s.cpu c).pc.depth := (h.deep c).ncli
      have hpos := List.length_pos_iff.mpr hheld
      change 0 < (s.cpu c).ncli
      omega
    refine ⟨hoff, ?_⟩
    unfold State.event
    dsimp only
    rw [if_neg]
    rintro ⟨-, hon⟩
    rw [hoff] at hon
    cases hon
  . intro c lk t b hpc hheld hflag hs
    have hdeep := h.deep c
    rw [hpc] at hdeep
    obtain ⟨cpu, hpop, hdeep', -, -, hrestored⟩ := hdeep.popcli
    have hncli : cpu.ncli = (s.held c).length + 0 := hdeep'.ncli
    rw [hheld] at hncli
    unfold State.event State.next at hs
    dsimp only at hs
    rw [if_pos hpanic, hpc] at hs
    dsimp only at hs
    rw [hpop, Option.some.injEq] at hs
    have hcpu : t.cpu c = { cpu with pc := .code } := by
      rw [← hs]
      exact Function.update_self ..
    rw [hcpu]
    exact hrestored hncli b hflag

-- A CPU that acquires and releases a lock with interrupts on has them on again.
theorem locks_exclusive_one
    : ∃ s t, Machine.run (step false) (State.init : State Bool Bool Bool)
        [.sti false, .acquire false true, .step false, .step false, .release false true, .step false, .step false] =
          some s ∧
      s.event false (.step false) = some t ∧ (t.cpu false).eflags = true := by
  refine ⟨_, _, rfl, rfl, ?_⟩
  have hrun : Machine.run (step false) (State.init : State Bool Bool Bool)
      [.sti false, .acquire false true, .step false, .step false, .release false true, .step false, .step false] =
        some _ := rfl
  exact (locks_exclusive hrun rfl).2.2 false true _ true rfl rfl rfl rfl

/-- The kernel panics exactly where a lock is acquired twice, is released by somebody else, or is kept in `sched`. -/
theorem panic_iff_misuse (hrun : Machine.run (step ptable) (State.init : State κ ι L) es = some s)
    (hpanic : s.panic = none) (hs : s.event ptable e = some t)
    : t.panic = s.misuse ptable e :=
  panic_event (inv_reach hrun hpanic) hs

-- The CPU that has acquired a lock acquires it again.
theorem panic_iff_misuse_twice
    : ∃ s t, Machine.run (step false) (State.init : State Bool Bool Bool)
        [.acquire true true, .step true, .step true, .acquire true true] = some s ∧
      s.event false (.step true) = some t ∧ t.panic = some "acquire" := by
  refine ⟨_, _, rfl, rfl, ?_⟩
  have hrun : Machine.run (step false) (State.init : State Bool Bool Bool)
      [.acquire true true, .step true, .step true, .acquire true true] = some _ := rfl
  exact (panic_iff_misuse (e := .step true) hrun rfl rfl).trans rfl

/--
A process runs on one CPU at a time. Whoever may dispatch it finds it on no CPU, with a context that is its own and with
`ptable.lock` as the only lock that it holds and that the CPU holds for it; and the stack that `wait` gives back is on no
CPU.
-/
theorem switches_safe (hrun : Machine.run (step ptable) (State.init : State κ ι L) es = some s)
    (hpanic : s.panic = none)
    : (∀ p c c', (s.cpu c).proc = some p → (s.cpu c').proc = some p → c = c') ∧
      (∀ c p t, s.event ptable (.dispatch c p) = some t → (∀ c', (s.cpu c').proc ≠ some p) ∧
        (s.proc p).context ≠ none ∧ t.current c = .proc p ∧ t.held c = [ptable] ∧ (t.cpu c).ncli = 1 ∧
        (t.lock ptable).cpu = some c ∧ ∀ b, (t.thread (.proc p)).flag = some b → (t.cpu c).intena = b) ∧
      ∀ c p t, s.event ptable (.reap c p) = some t → ∀ c', (s.cpu c').proc ≠ some p := by
  have h := inv_reach hrun hpanic
  refine ⟨h.placed.single, ?_, ?_⟩
  . intro c p t hs
    unfold State.event at hs
    dsimp only at hs
    split at hs
    . next hcond =>
      obtain ⟨hfree, hheld, hnone, htraps, hstate⟩ := hcond
      rw [Option.some.injEq] at hs
      have hmem : ptable ∈ s.held c := by
        rw [hheld]
        exact List.mem_singleton_self ptable
      have hne : (s.proc p).state ≠ .running := by
        rw [hstate]
        intro heq
        cases heq
      have hoff := h.off_of_locked ⟨hfree, hmem⟩ hne
      have hunused : (s.proc p).state ≠ .unused := by
        rw [hstate]
        intro heq
        cases heq
      obtain ⟨-, hsaved, hsaves⟩ := (h.placed.saved p hoff).resolve_left hunused
      have hcontext : (s.proc p).context ≠ none := by
        intro heq
        rw [heq] at hsaves
        exact hsaves
      obtain ⟨ht, -⟩ := inv_dispatch h hfree hheld hnone htraps hstate
      obtain ⟨intena, hflag, heq⟩ := State.dispatch_eq (c := c) hsaves
      rw [hs] at ht heq
      have hcpu : t.cpu c = ⟨(s.cpu c).ncli, intena, (s.cpu c).eflags, some p, (s.cpu c).pc⟩ := by
        rw [heq]
        exact Function.update_self ..
      have hother : (Thread.proc p : Thread κ ι) ≠ .scheduler c := by
        intro hx
        cases hx
      have hthread : t.thread (.proc p) = s.thread (.proc p) := by
        rw [heq]
        exact Function.update_of_ne hother { s.thread (.scheduler c) with flag := none } s.thread
      have hcurrent : t.current c = .proc p := State.current_of_some (by rw [hcpu])
      have hheld' : t.held c = [ptable] := by
        unfold State.held
        rw [hcurrent, hthread, hsaved]
      have hpc : (t.cpu c).pc = .code := by
        rw [hcpu]
        exact hfree.2
      refine ⟨hoff, hcontext, hcurrent, hheld', ?_, ?_, ?_⟩
      . have hncli : (t.cpu c).ncli = (t.held c).length + (t.cpu c).pc.depth := (ht.deep c).ncli
        rw [hheld', hpc] at hncli
        exact hncli
      . rw [ht.locks.cpu]
        left
        change ptable ∈ t.held c
        rw [hheld']
        exact List.mem_singleton_self ptable
      . intro b hb
        rw [hthread] at hb
        rw [hcpu]
        exact hflag b hb
    . cases hs
  . intro c p t hs
    unfold State.event at hs
    dsimp only at hs
    split at hs
    . next hcond =>
      apply h.off_of_locked hcond.1
      rw [hcond.2]
      intro heq
      cases heq
    . cases hs

-- The process `true` has been made by the scheduler of the CPU `false`, and CPU `true` dispatches it.
theorem switches_safe_first
    : ∃ s t, Machine.run (step false) (State.init : State Bool Bool Bool)
        [.acquire false false, .step false, .step false, .alloc false true, .ready false true, .release false false,
          .step false, .step false, .step false, .acquire true false, .step true, .step true] = some s ∧
      s.event false (.dispatch true true) = some t ∧ t.held true = [false] ∧ (t.lock false).cpu = some true := by
  have hsome : ((Machine.run (step false) (State.init : State Bool Bool Bool)
      [.acquire false false, .step false, .step false, .alloc false true, .ready false true, .release false false,
        .step false, .step false, .step false, .acquire true false, .step true, .step true]).bind
      fun s => s.event false (.dispatch true true)).isSome = true := by decide +kernel
  obtain ⟨t, hrun⟩ := Option.isSome_iff_exists.mp hsome
  obtain ⟨s, hrun, hs⟩ := Option.bind_eq_some_iff.mp hrun
  have h := (switches_safe hrun (panic_of_event hs)).2.1 true true t hs
  exact ⟨s, t, hrun, hs, h.2.2.2.1, h.2.2.2.2.2.1⟩

-- The CPU spins for a lock that the other one has.
def State.WaitsFor (s : State κ ι L) (c c' : κ) : Prop :=
  ∃ lk, (s.cpu c).pc = .spin lk ∧ (s.loc c').Owns lk

-- The next turn of the loop in `acquire` is not the last one.
def State.Spins (s : State κ ι L) (c : κ) : Prop :=
  ∃ lk, (s.cpu c).pc = .spin lk ∧ (s.lock lk).locked = true

/--
If every thread acquires its locks in the order of their ranks, then whoever spins waits in the end for a CPU that does
not spin.
-/
theorem somebody_goes_on [Finite κ] (rank : L → Nat)
    (horder : Machine.Along (step ptable) (fun s e _ _ => e.Ordered (fun x y => rank x < rank y) s)
      (State.init : State κ ι L) es)
    (hrun : Machine.run (step ptable) State.init es = some s) (hpanic : s.panic = none) (c : κ)
    : ∃ c', Relation.ReflTransGen s.WaitsFor c c' ∧ ¬ s.Spins c' := by
  have h := inv_run horder hrun hpanic
  have hwants : ∀ {c lk}, (s.cpu c).pc = .spin lk → (s.cpu c).pc.wants = some lk := by
    intro c lk hpc
    rw [hpc]
    rfl
  -- Who spins owns what he holds, and nothing else.
  have hbelow : ∀ c c', s.WaitsFor c c' → (∃ c'', s.WaitsFor c' c'') →
      ((s.cpu c).pc.wants.elim 0 rank) < ((s.cpu c').pc.wants.elim 0 rank) := by
    rintro c c' ⟨lk, hpc, how⟩ ⟨c'', lk', hpc', -⟩
    rw [hwants hpc, hwants hpc']
    apply (h.locks.good c').order lk' (hwants hpc')
    rw [Local.owns_iff] at how
    . exact how
    . change (s.cpu c').pc.busy = none
      rw [hpc']
      rfl
  obtain ⟨c', hreach, hend⟩ := Waits.exists_free (r := s.WaitsFor) _ hbelow c
  refine ⟨c', hreach, ?_⟩
  rintro ⟨lk, hpc, hlocked⟩
  obtain ⟨c'', how⟩ := (h.locks.locked lk).mp hlocked
  exact hend c'' ⟨lk, hpc, how⟩

-- CPU 2 spins for the lock 1 of CPU 1, and that one, which holds it, for the lock 2 of CPU 0.
theorem somebody_goes_on_three
    : ∃ s, Machine.run (step 0) (State.init : State (Fin 3) (Fin 3) (Fin 3))
        [.acquire 0 2, .step 0, .step 0, .acquire 1 1, .step 1, .step 1, .acquire 1 2, .step 1, .acquire 2 1, .step 2] =
          some s ∧
      s.held 1 = [1] ∧ s.Spins 1 ∧ s.Spins 2 ∧ ∃ c, Relation.ReflTransGen s.WaitsFor 2 c ∧ ¬ s.Spins c := by
  refine ⟨_, rfl, rfl, ⟨2, rfl, rfl⟩, ⟨1, rfl, rfl⟩, ?_⟩
  have hrun : Machine.run (step 0) (State.init : State (Fin 3) (Fin 3) (Fin 3))
      [.acquire 0 2, .step 0, .step 0, .acquire 1 1, .step 1, .step 1, .acquire 1 2, .step 1, .acquire 2 1, .step 2] =
        some _ := rfl
  refine somebody_goes_on Fin.val ?_ hrun rfl 2
  have hnone : ∀ lk, ∀ x ∈ ([] : List (Fin 3)), x.val < lk := fun _ _ hx => absurd hx List.not_mem_nil
  have hone : ∀ x ∈ ([1] : List (Fin 3)), x.val < 2 := by decide
  exact ⟨hnone 2, trivial, trivial, hnone 1, trivial, trivial, hone, trivial, hnone 1, trivial, trivial⟩

end Xv6.Spinlock
