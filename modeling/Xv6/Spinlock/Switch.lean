import Xv6.Spinlock.Events

/-!
The invariant through the changes of processes, and through `swtch` in both directions.
-/

namespace Xv6.Spinlock

variable {κ ι L : Type} [DecidableEq κ] [DecidableEq ι] [DecidableEq L]
variable {cpu : Cpu ι L} {k : Kthread L} {s t : State κ ι L} {c : κ} {ptable : L} {p : ι} {x : Proc}
variable {R : L → L → Prop}

namespace State

omit [DecidableEq κ] [DecidableEq ι] [DecidableEq L] in
theorem current_of_none (h : (s.cpu c).proc = none) : s.current c = .scheduler c := by
  unfold current
  rw [h]

omit [DecidableEq κ] [DecidableEq ι] [DecidableEq L] in
theorem current_of_some (h : (s.cpu c).proc = some p) : s.current c = .proc p := by
  unfold current
  rw [h]

end State

section

variable (h : Inv R ptable s)

include h

omit [DecidableEq κ] [DecidableEq ι] [DecidableEq L] in
-- Whoever holds `ptable.lock` sees that a process does not run.
theorem Inv.off_of_locked (hlocked : s.locked ptable c) (hstate : (s.proc p).state ≠ .running) (c' : κ)
    : (s.cpu c').proc ≠ some p := by
  intro hp
  rcases (h.placed.running p c' hp).2 with ⟨hrun, -⟩ | ⟨hpc, -⟩
  . exact hstate hrun
  . obtain ⟨-, hmem, -⟩ := h.placed.sched ptable c' hpc
    have hc := h.locks.unique ptable c c' (.inl hlocked.2) (.inl hmem)
    have hcode := hlocked.1.2
    rw [hc, hpc] at hcode
    cases hcode

omit [DecidableEq κ] [DecidableEq ι] [DecidableEq L] in
theorem Inv.off_of_state (hstate : (s.proc p).state = .unused ∨ (s.proc p).state = .embryo) (c' : κ)
    : (s.cpu c').proc ≠ some p := by
  intro hp
  rcases (h.placed.running p c' hp).2 with ⟨hrun, -⟩ | ⟨-, hleave⟩
  . rw [hrun] at hstate
    rcases hstate with heq | heq <;> cases heq
  . unfold Leaving at hleave
    rcases hstate with heq | heq <;> rw [heq] at hleave <;> rcases hleave with heq | heq | heq <;> cases heq

omit [DecidableEq κ] [DecidableEq L] in
-- A process that does not run gets another state.
theorem inv_setProc (hoff : ∀ c, (s.cpu c).proc ≠ some p)
    (hx : x.state = .unused ∨ (x.state ≠ .running ∧ (s.thread (.proc p)).held = [ptable] ∧
      Context.Saves x.context (s.thread (.proc p)).flag))
    : Inv R ptable (s.setProc p x) := by
  have hsame : ∀ p', p' ≠ p → (s.setProc p x).proc p' = s.proc p' := fun p' hp' => Function.update_of_ne hp' ..
  have hself : (s.setProc p x).proc p = x := Function.update_self ..
  refine ⟨⟨h.locks.good, h.locks.locked, h.locks.unique, h.locks.cpu⟩,
    ⟨h.placed.single, h.placed.off, h.placed.sched, ?_, ?_⟩⟩
  . intro p' c hp'
    rw [hsame]
    . exact h.placed.running p' c hp'
    . rintro rfl
      exact hoff c hp'
  . intro p' hp'
    by_cases heq : p' = p
    . subst heq
      rw [hself]
      exact hx
    . rw [hsame p' heq]
      exact h.placed.saved p' hp'

omit [DecidableEq κ] [DecidableEq L] in
theorem inv_ready (hoff : ∀ c, (s.cpu c).proc ≠ some p) (hstate : (s.proc p).state ≠ .unused)
    : Inv R ptable (s.setProc p { s.proc p with state := .runnable }) := by
  apply inv_setProc h hoff
  right
  rcases h.placed.saved p hoff with heq | ⟨-, hheld, hsaves⟩
  . exact absurd heq hstate
  . exact ⟨fun heq => (by cases heq), hheld, hsaves⟩

omit [DecidableEq L] in
-- The new process goes on as if it had acquired `ptable.lock`.
theorem inv_alloc (hstate : (s.proc p).state = .unused)
    : Inv R ptable ((s.setProc p ⟨.embryo, some .forkret⟩).setThread (.proc p) ⟨[ptable], 0, none⟩) := by
  have hoff := h.off_of_state (.inl hstate)
  have hthread : ∀ t, t ≠ .proc p →
      ((s.setProc p ⟨.embryo, some .forkret⟩).setThread (.proc p) ⟨[ptable], 0, none⟩).thread t = s.thread t :=
    fun t ht => Function.update_of_ne ht ..
  have hcurrent : ∀ c, s.current c ≠ .proc p := by
    intro c heq
    cases hp : (s.cpu c).proc with
    | none =>
      rw [State.current_of_none hp] at heq
      cases heq
    | some p' =>
      rw [State.current_of_some hp] at heq
      cases heq
      exact hoff c hp
  have hheld : ∀ c, ((s.setProc p ⟨.embryo, some .forkret⟩).setThread (.proc p) ⟨[ptable], 0, none⟩).held c =
      s.held c := by
    intro c
    unfold State.held
    exact congrArg Kthread.held (hthread _ (hcurrent c))
  have hloc : ((s.setProc p ⟨.embryo, some .forkret⟩).setThread (.proc p) ⟨[ptable], 0, none⟩).loc = s.loc := by
    funext c
    exact congrArg (Local.of (s.cpu c)) (hthread _ (hcurrent c))
  have hsame : ∀ p', p' ≠ p → ((s.setProc p ⟨.embryo, some .forkret⟩).setThread (.proc p)
      ⟨[ptable], 0, none⟩).proc p' = s.proc p' := fun p' hp' => Function.update_of_ne hp' ..
  constructor
  . rw [hloc]
    exact h.locks
  . refine ⟨h.placed.single, ?_, ?_, ?_, ?_⟩
    . intro p' c hp'
      rw [hthread _ fun heq => by cases heq]
      exact h.placed.off p' c hp'
    . intro lk c hlk
      rw [hheld]
      exact h.placed.sched lk c hlk
    . intro p' c hp'
      rw [hsame]
      . exact h.placed.running p' c hp'
      . rintro rfl
        exact hoff c hp'
    . intro p' hp'
      by_cases heq : p' = p
      . subst heq
        right
        have hself : ((s.setProc p' ⟨.embryo, some .forkret⟩).setThread (.proc p') ⟨[ptable], 0, none⟩).proc p' =
            ⟨.embryo, some .forkret⟩ := Function.update_self ..
        have hself' : ((s.setProc p' ⟨.embryo, some .forkret⟩).setThread (.proc p') ⟨[ptable], 0, none⟩).thread (.proc p') =
            ⟨[ptable], 0, none⟩ := Function.update_self ..
        rw [hself, hself']
        exact ⟨fun heq => (by cases heq), rfl, rfl⟩
      . rw [hsame p' heq, hthread _ fun hx => heq (Thread.proc.inj hx)]
        exact h.placed.saved p' hp'

end

theorem State.holding_of_locked {f : Caller} {lk : L} (h : (s.lock lk).locked = true)
    : s.holding c f lk =
        s.put c { (s.cpu c).pushcli with pc := .holding f lk } ((s.thread (s.current c)).push (s.cpu c)) := by
  have hproc : (s.cpu c).pushcli.proc = (s.cpu c).proc := rfl
  unfold holding
  dsimp only
  rw [pushcli_eq]
  change (if (s.lock lk).locked = true then _ else _) = _
  rw [if_pos h, setPc_eq, put_put hproc, thread_put hproc, cpu_put]

omit [DecidableEq κ] [DecidableEq ι] [DecidableEq L] in
-- The process `p` on the CPU `c` has given itself another state and is in `sched`.
theorem Placed.leave (h : Placed ptable s) (hp : (s.cpu c).proc = some p) (hmem : ptable ∈ s.held c)
    (hprocs : ∀ c', (t.cpu c').proc = (s.cpu c').proc) (hpcs : ∀ c' ≠ c, (t.cpu c').pc = (s.cpu c').pc)
    (hpc : (t.cpu c).pc = .holding .sched ptable) (hheld : ∀ c', t.held c' = s.held c')
    (hthread : ∀ x, x ≠ .proc p → t.thread x = s.thread x) (hproc : ∀ p' ≠ p, t.proc p' = s.proc p')
    (hcontext : (t.proc p).context = (s.proc p).context) (hleave : Leaving (t.proc p).state)
    : Placed ptable t := by
  constructor
  . intro p' c1 c2 h1 h2
    rw [hprocs] at h1 h2
    exact h.single p' c1 c2 h1 h2
  . intro p' c' hp'
    rw [hprocs] at hp'
    rw [hthread _ fun heq => by cases heq]
    exact h.off p' c' hp'
  . intro lk c' hlk
    rw [hheld, hprocs]
    by_cases hc : c' = c
    . subst hc
      rw [hpc] at hlk
      cases hlk
      exact ⟨rfl, hmem, by rw [hp]; exact fun heq => by cases heq⟩
    . rw [hpcs c' hc] at hlk
      exact h.sched lk c' hlk
  . intro p' c' hp'
    rw [hprocs] at hp'
    by_cases heq : p' = p
    . subst heq
      have hc := h.single p' c' c hp' hp
      rw [hcontext, hc]
      exact ⟨(h.running p' c hp).1, .inr ⟨hpc, hleave⟩⟩
    . have hc : c' ≠ c := by
        rintro rfl
        rw [hp] at hp'
        exact heq (Option.some.inj hp').symm
      rw [hproc p' heq, hpcs c' hc]
      exact h.running p' c' hp'
  . intro p' hp'
    have hoff : ∀ c, (s.cpu c).proc ≠ some p' := fun c' hc' => hp' c' (by rwa [hprocs])
    have heq : p' ≠ p := by
      rintro rfl
      exact hoff c hp
    rw [hproc p' heq, hthread _ fun hx => heq (Thread.proc.inj hx)]
    exact h.saved p' hoff

-- The beginning of `sched`.
theorem inv_sched (h : Inv R ptable s) {state : ProcState} (hlocked : s.locked ptable c) (hp : (s.cpu c).proc = some p)
    (hleave : Leaving state)
    : Inv R ptable ((s.setProc p { s.proc p with state := state }).holding c .sched ptable) := by
  have hcode := hlocked.1.2
  have hdeep := h.deep c
  rw [hcode] at hdeep
  have hbusy : (s.cpu c).pc.busy = none := by
    rw [hcode]
    rfl
  have hheld : (s.lock ptable).locked = true := (h.locks.locked ptable).mpr ⟨c, .inl hlocked.2⟩
  have hproc : ({ (s.cpu c).pushcli with pc := .holding .sched ptable } : Cpu ι L).proc = (s.cpu c).proc := rfl
  rw [State.holding_of_locked (s := s.setProc p { s.proc p with state := state }) hheld]
  change Inv R ptable ((s.setProc p { s.proc p with state := state }).put c
    { (s.cpu c).pushcli with pc := .holding .sched ptable } ((s.thread (s.current c)).push (s.cpu c)))
  have hloc : ((s.setProc p { s.proc p with state := state }).put c
      { (s.cpu c).pushcli with pc := .holding .sched ptable } ((s.thread (s.current c)).push (s.cpu c))).loc =
      Function.update s.loc c (.of { (s.cpu c).pushcli with pc := .holding .sched ptable }
        ((s.thread (s.current c)).push (s.cpu c))) :=
    State.loc_put (s := s.setProc p { s.proc p with state := state }) h.placed.single hproc
  constructor
  . rw [hloc]
    apply h.locks.keep
    . exact (hdeep.pushcli.setPc (.holding .sched ptable)).good rfl rfl fun _ heq => (by cases heq)
    . intro x
      rw [Local.owns_iff rfl, Local.owns_iff hbusy]
      exact Iff.rfl
    . intro x
      rw [Local.signs_iff (fun heq => by cases heq), Local.signs_iff (Pc.ne_clearCpu hbusy x)]
      exact Iff.rfl
  . have hself : Function.update s.proc p { s.proc p with state := state } p = { s.proc p with state := state } :=
      Function.update_self ..
    apply h.placed.leave hp hlocked.2
    . intro c'
      by_cases hc : c' = c
      . subst hc
        rw [State.cpu_put]
        rfl
      . exact congrArg Cpu.proc (Function.update_of_ne hc ..)
    . exact fun c' hc => congrArg Cpu.pc (Function.update_of_ne hc ..)
    . rw [State.cpu_put]
    . intro c'
      have hc' := congrArg Local.held (congrFun hloc c')
      by_cases hc : c' = c
      . subst hc
        rw [Function.update_self] at hc'
        exact hc'
      . rw [Function.update_of_ne hc] at hc'
        exact hc'
    . intro x hx
      have hcurrent : (s.setProc p { s.proc p with state := state }).current c = .proc p :=
        State.current_of_some (s := s.setProc p { s.proc p with state := state }) hp
      unfold State.put
      rw [hcurrent]
      exact Function.update_of_ne hx ..
    . exact fun p' hp' => Function.update_of_ne hp' ..
    . change (Function.update s.proc p { s.proc p with state := state } p).context = (s.proc p).context
      rw [hself]
    . change Leaving (Function.update s.proc p { s.proc p with state := state } p).state
      rw [hself]
      exact hleave

omit [DecidableEq ι] [DecidableEq L] in
-- The CPU goes over to another thread that holds the same lock.
theorem Locks.hand {loc : κ → Local L} {lock : L → Lock κ} (h : Locks R loc lock) {l : Local L} (hgood : l.Good R)
    (hheld : l.held = (loc c).held) (hbusy : l.pc.busy = none) (hbusy' : (loc c).pc.busy = none)
    : Locks R (Function.update loc c l) lock := by
  apply h.keep hgood
  . intro x
    rw [Local.owns_iff hbusy, Local.owns_iff hbusy', hheld]
  . intro x
    rw [Local.signs_iff (Pc.ne_clearCpu hbusy x), Local.signs_iff (Pc.ne_clearCpu hbusy' x), hheld]

omit [DecidableEq L] in
-- `sched` leaves a process.
theorem inv_leave (h : Inv R ptable s) (hp : (s.cpu c).proc = some p) (hpc : (s.cpu c).pc = .holding .sched ptable)
    (hproc : cpu.proc = some p) (hdeep : (Local.of cpu (s.thread (s.current c))).Deep 0) (hone : cpu.ncli = 1)
    (hstate : (s.proc p).state ≠ .running)
    : Inv R ptable ((s.setProc p { s.proc p with context := some (.sched cpu.intena) }).setPc c { cpu with proc := none }
        .code) := by
  have hcurrent := State.current_of_some hp
  have hheld : s.held c = [ptable] := by
    have hmem := (h.placed.sched ptable c hpc).2.1
    have hlength : cpu.ncli = (s.held c).length + 0 := hdeep.ncli
    obtain ⟨x, hx⟩ := List.length_eq_one_iff.mp (show (s.held c).length = 1 by omega)
    rw [hx, List.mem_singleton] at hmem
    rw [hx, hmem]
  have hbusy : (s.cpu c).pc.busy = none := by
    rw [hpc]
    rfl
  generalize ht : (s.setProc p { s.proc p with context := some (.sched cpu.intena) }).setPc c { cpu with proc := none }
    .code = t
  have hcpu : ∀ c', c' ≠ c → t.cpu c' = s.cpu c' := by
    intro c' hc
    rw [← ht]
    exact Function.update_of_ne hc ..
  have hcpu' : t.cpu c = ⟨cpu.ncli, cpu.intena, cpu.eflags, none, .code⟩ := by
    rw [← ht]
    exact Function.update_self ..
  have hsome : ∀ p' c', (t.cpu c').proc = some p' → c' ≠ c ∧ (s.cpu c').proc = some p' := by
    intro p' c' hp'
    by_cases hc : c' = c
    . rw [hc, hcpu'] at hp'
      cases hp'
    . exact ⟨hc, by rwa [← hcpu c' hc]⟩
  have hthread : t.thread = s.thread := by
    rw [← ht]
    rfl
  have hprocs : ∀ p', p' ≠ p → t.proc p' = s.proc p' := by
    intro p' hp'
    rw [← ht]
    exact Function.update_of_ne hp' ..
  have hself : t.proc p = { s.proc p with context := some (.sched cpu.intena) } := by
    rw [← ht]
    exact Function.update_self ..
  have hothers : ∀ c', c' ≠ c → t.current c' = s.current c' := by
    intro c' hc
    unfold State.current
    rw [hcpu c' hc]
  have hscheduler : t.current c = .scheduler c := State.current_of_none (by rw [hcpu'])
  constructor
  . have hloc : t.loc = Function.update s.loc c ⟨cpu.ncli, cpu.intena, cpu.eflags, .code, [ptable], none⟩ := by
      funext c'
      by_cases hc : c' = c
      . rw [hc, Function.update_self]
        unfold State.loc
        rw [hcpu', hscheduler, hthread, h.placed.off p c hp]
        rfl
      . rw [Function.update_of_ne hc]
        unfold State.loc
        rw [hcpu c' hc, hothers c' hc, hthread]
    have hlock : t.lock = s.lock := by
      rw [← ht]
      rfl
    rw [hloc, hlock]
    apply h.locks.hand
    . refine ⟨⟨?_, ?_, fun _ b hb => (by cases hb), List.nodup_singleton ptable⟩, ?_, fun _ heq => (by cases heq)⟩
      . exact hone
      . exact fun hpos => hdeep.eflags hpos
      . intro lk hlk
        cases hlk
    . exact hheld.symm
    . rfl
    . exact hbusy
  . constructor
    . intro p' c1 c2 h1 h2
      exact h.placed.single p' c1 c2 (hsome p' c1 h1).2 (hsome p' c2 h2).2
    . intro p' c' hp'
      rw [hthread]
      exact h.placed.off p' c' (hsome p' c' hp').2
    . intro lk c' hlk
      have hc : c' ≠ c := by
        rintro rfl
        rw [hcpu'] at hlk
        cases hlk
      unfold State.held
      rw [hothers c' hc, hthread, hcpu c' hc]
      rw [hcpu c' hc] at hlk
      exact h.placed.sched lk c' hlk
    . intro p' c' hp'
      obtain ⟨hc, hold⟩ := hsome p' c' hp'
      rw [hcpu c' hc, hprocs]
      . exact h.placed.running p' c' hold
      . rintro rfl
        exact hc (h.placed.single p' c' c hold hp)
    . intro p' hp'
      rw [hthread]
      by_cases heq : p' = p
      . subst heq
        rw [hself]
        refine .inr ⟨hstate, ?_, ?_⟩
        . rw [← hcurrent]
          exact hheld
        . intro b hb
          rw [← hcurrent] at hb
          exact hdeep.flag (by change 0 < cpu.ncli; omega) b hb
      . rw [hprocs p' heq]
        apply h.placed.saved
        intro c' hc'
        by_cases hc : c' = c
        . rw [hc, hp] at hc'
          exact heq (Option.some.inj hc').symm
        . apply hp' c'
          rwa [hcpu c' hc]

omit [DecidableEq L] in
-- The context of the process is its own, and `intena` is what it has saved.
theorem State.dispatch_eq (hsaves : Context.Saves (s.proc p).context (s.thread (.proc p)).flag)
    : ∃ intena : Bool, (∀ b, (s.thread (.proc p)).flag = some b → intena = b) ∧
        s.dispatch c p = ((s.setThread (.scheduler c) { s.thread (.scheduler c) with flag := none }).setProc p
          ⟨.running, none⟩).setCpu c ⟨(s.cpu c).ncli, intena, (s.cpu c).eflags, some p, (s.cpu c).pc⟩ := by
  cases hx : (s.proc p).context with
  | none =>
    rw [hx] at hsaves
    exact hsaves.elim
  | some x =>
    rw [hx] at hsaves
    unfold State.dispatch
    dsimp only [State.setThread]
    rw [hx]
    cases x with
    | forkret =>
      refine ⟨(s.cpu c).intena, ?_, rfl⟩
      intro b hb
      rw [hsaves] at hb
      cases hb
    | sched intena => exact ⟨intena, hsaves, rfl⟩

omit [DecidableEq L] in
-- `scheduler` switches to a process, which has always been saved.
theorem inv_dispatch (h : Inv R ptable s) (hfree : s.free c) (hheld : s.held c = [ptable])
    (hnone : (s.cpu c).proc = none)
    (htraps : (s.thread (.scheduler c)).traps = 0) (hstate : (s.proc p).state = .runnable)
    : Inv R ptable (s.dispatch c p) ∧ (s.dispatch c p).panic = none := by
  have hcurrent := State.current_of_none hnone
  have hmem : ptable ∈ s.held c := by
    rw [hheld]
    exact List.mem_singleton_self ptable
  have hoff := h.off_of_locked ⟨hfree, hmem⟩ (by rw [hstate]; exact fun heq => by cases heq)
  have hbusy : (s.cpu c).pc.busy = none := by
    rw [hfree.2]
    rfl
  have hdeep := h.deep c
  rw [hfree.2] at hdeep
  have hncli : (s.cpu c).ncli = 1 := by
    have hlength : (s.cpu c).ncli = (s.held c).length + 0 := hdeep.ncli
    rw [hheld] at hlength
    exact hlength
  obtain ⟨-, hsaved, hsaves⟩ := (h.placed.saved p hoff).resolve_left (by rw [hstate]; exact fun heq => by cases heq)
  obtain ⟨intena, hflag, ht⟩ := State.dispatch_eq (c := c) hsaves
  generalize s.dispatch c p = t at ht
  have hpanic : t.panic = none := by
    rw [ht]
    exact hfree.1
  refine ⟨?_, hpanic⟩
  have hcpu : ∀ c', c' ≠ c → t.cpu c' = s.cpu c' := by
    intro c' hc
    rw [ht]
    exact Function.update_of_ne hc ..
  have hcpu' : t.cpu c = ⟨(s.cpu c).ncli, intena, (s.cpu c).eflags, some p, (s.cpu c).pc⟩ := by
    rw [ht]
    exact Function.update_self ..
  have hsome : ∀ p' c', (t.cpu c').proc = some p' → (c' = c ∧ p' = p) ∨ (c' ≠ c ∧ (s.cpu c').proc = some p') := by
    intro p' c' hp'
    by_cases hc : c' = c
    . rw [hc, hcpu'] at hp'
      exact .inl ⟨hc, (Option.some.inj hp').symm⟩
    . exact .inr ⟨hc, by rwa [← hcpu c' hc]⟩
  have hthread : ∀ x, x ≠ .scheduler c → t.thread x = s.thread x := by
    intro x hx
    rw [ht]
    exact Function.update_of_ne hx ..
  have hscheduler : t.thread (.scheduler c) = ⟨[ptable], 0, none⟩ := by
    have hself : t.thread (.scheduler c) = { s.thread (.scheduler c) with flag := none } := by
      rw [ht]
      exact Function.update_self ..
    rw [hself]
    unfold State.held at hheld
    rw [hcurrent] at hheld
    dsimp only
    rw [hheld, htraps]
  have hprocs : ∀ p', p' ≠ p → t.proc p' = s.proc p' := by
    intro p' hp'
    rw [ht]
    exact Function.update_of_ne hp' ..
  have hself : t.proc p = ⟨.running, none⟩ := by
    rw [ht]
    exact Function.update_self ..
  have hothers : ∀ c', c' ≠ c → t.current c' = s.current c' ∧ s.current c' ≠ .scheduler c := by
    intro c' hc
    constructor
    . unfold State.current
      rw [hcpu c' hc]
    . intro heq
      apply hc
      apply State.current_inj h.placed.single
      rw [heq, hcurrent]
  have hnow : t.current c = .proc p := State.current_of_some (by rw [hcpu'])
  constructor
  . have hloc : t.loc = Function.update s.loc c ⟨(s.cpu c).ncli, intena, (s.cpu c).eflags, (s.cpu c).pc, [ptable],
        (s.thread (.proc p)).flag⟩ := by
      funext c'
      by_cases hc : c' = c
      . rw [hc, Function.update_self]
        unfold State.loc
        rw [hcpu', hnow, hthread _ fun heq => by cases heq]
        unfold Local.of
        rw [hsaved]
      . rw [Function.update_of_ne hc]
        unfold State.loc
        rw [hcpu c' hc, (hothers c' hc).1, hthread _ (hothers c' hc).2]
    have hlock : t.lock = s.lock := by
      rw [ht]
      rfl
    rw [hloc, hlock]
    apply h.locks.hand
    . refine ⟨⟨?_, ?_, fun _ b hb => hflag b hb, List.nodup_singleton ptable⟩, ?_, ?_⟩
      . dsimp only
        rw [hncli, hfree.2]
        rfl
      . exact fun hpos => hdeep.eflags hpos
      . intro lk hlk
        dsimp only at hlk
        rw [hbusy] at hlk
        cases hlk
      . intro lk hlk
        dsimp only at hlk
        rw [hfree.2] at hlk
        cases hlk
    . exact hheld.symm
    . exact hbusy
    . exact hbusy
  . constructor
    . intro p' c1 c2 h1 h2
      rcases hsome p' c1 h1 with ⟨rfl, rfl⟩ | ⟨-, hold1⟩
      . rcases hsome p' c2 h2 with ⟨rfl, -⟩ | ⟨-, hold2⟩
        . rfl
        . exact absurd hold2 (hoff c2)
      . rcases hsome p' c2 h2 with ⟨rfl, rfl⟩ | ⟨-, hold2⟩
        . exact absurd hold1 (hoff c1)
        . exact h.placed.single p' c1 c2 hold1 hold2
    . intro p' c' hp'
      rcases hsome p' c' hp' with ⟨rfl, -⟩ | ⟨hc, hold⟩
      . exact hscheduler
      . rw [hthread _ fun heq => hc (Thread.scheduler.inj heq)]
        exact h.placed.off p' c' hold
    . intro lk c' hlk
      have hc : c' ≠ c := by
        rintro rfl
        rw [hcpu', hfree.2] at hlk
        cases hlk
      unfold State.held
      rw [(hothers c' hc).1, hthread _ (hothers c' hc).2, hcpu c' hc]
      rw [hcpu c' hc] at hlk
      exact h.placed.sched lk c' hlk
    . intro p' c' hp'
      rcases hsome p' c' hp' with ⟨rfl, rfl⟩ | ⟨hc, hold⟩
      . rw [hself, hcpu', hfree.2]
        exact ⟨rfl, .inl ⟨rfl, fun heq => (by cases heq)⟩⟩
      . rw [hcpu c' hc, hprocs]
        . exact h.placed.running p' c' hold
        . rintro rfl
          exact hoff c' hold
    . intro p' hp'
      have heq : p' ≠ p := by
        rintro rfl
        apply hp' c
        rw [hcpu']
      rw [hprocs p' heq, hthread _ fun hx => by cases hx]
      apply h.placed.saved
      intro c' hc'
      by_cases hc : c' = c
      . rw [hc, hnone] at hc'
        cases hc'
      . apply hp' c'
        rwa [hcpu c' hc]

end Xv6.Spinlock
