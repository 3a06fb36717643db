import Mathlib.Logic.Relation
import Xv6.Proc.Lemmas.Step
import Xv6.Proc.Lemmas.Ptable

/-!
The life cycle of one slot of the table. `Wf` is the part of the kernel's invariant that tells which
state the current process and the child of a `fork` in progress are in. Under it every step moves every
slot along `Trans`, the transitions of a single process, or claims it in `allocproc`.
-/

namespace Xv6

def Pc.child : Pc → Option Slot
  | .forkKstack np => some np
  | .forkCopy np => some np
  | .forkPublish np => some np
  | _ => none

@[simp]
theorem Proc.resume_child (p : Proc) : p.resume.pc.child = p.pc.child := by
  unfold Proc.resume
  split
  . next h =>
    rw [h]
    dsimp only
    split <;> rfl
  . rfl

namespace State

structure Wf (s : State) : Prop where
  running : ∀ p, s.cpu = .run p → (s.ptable p).state = .running
  current : ∀ p, (s.ptable p).state = .running → s.cpu = .run p ∨ s.cpu = .halted
  busy : ∀ p np, (s.ptable p).pc.child = some np →
    (s.ptable p).state = .running ∨ (s.ptable p).state = .runnable
  embryo : ∀ p np, (s.ptable p).pc.child = some np → (s.ptable np).state = .embryo
  owner : ∀ p q np, (s.ptable p).pc.child = some np → (s.ptable q).pc.child = some np → p = q

variable {k : Accounting} {s s' : State} {e : Event} {o : Output}

-- A slot that at most wakes up.
structure Wakes (r r' : Proc) : Prop where
  child : r'.pc.child = r.pc.child
  running : r'.state = .running ↔ r.state = .running
  runnable : r.state = .runnable → r'.state = .runnable
  embryo : r.state = .embryo → r'.state = .embryo

theorem Wakes.refl (r : Proc) : Wakes r r :=
  ⟨rfl, Iff.rfl, id, id⟩

theorem Wakes.wakeFor {r r' : Proc} (h : Wakes r r') (ticks : Word) (f : Chan → Bool)
    : Wakes r (r'.wakeFor k ticks f) where
  child := by simp [h.child]
  running := by simp [h.running]
  runnable hr := by simp [Proc.wakeFor_state, h.runnable hr]
  embryo hr := by simp [h.embryo hr]

theorem Wf.wakes (hs : s.Wf) (htab : ∀ p, Wakes (s.ptable p) (s'.ptable p)) (hcpu : s'.cpu = s.cpu)
    : s'.Wf where
  running p h := by
    rw [hcpu] at h
    rw [(htab p).running]
    exact hs.running p h
  current p h := by
    rw [(htab p).running] at h
    rw [hcpu]
    exact hs.current p h
  busy p np h := by
    rw [(htab p).child] at h
    cases hs.busy p np h with
    | inl h => exact .inl ((htab p).running.mpr h)
    | inr h => exact .inr ((htab p).runnable h)
  embryo p np h := by
    rw [(htab p).child] at h
    exact (htab np).embryo (hs.embryo p np h)
  owner p q np hp hq := by
    rw [(htab p).child] at hp
    rw [(htab q).child] at hq
    exact hs.owner p q np hp hq

theorem Wf.wakeup1 (hs : s.Wf) (chan : Chan) : (s.wakeup1 k chan).Wf := by
  refine hs.wakes ?_ rfl
  intro p
  rw [wakeup1_ptable]
  exact (Wakes.refl _).wakeFor _ _

theorem Wf.tick (hs : s.Wf) : (s.tick k).Wf := by
  refine hs.wakes ?_ rfl
  intro p
  rw [tick_ptable]
  apply Wakes.wakeFor
  exact ⟨rfl, Iff.rfl, id, id⟩

theorem Wf.kill (hs : s.Wf) (pid : Word) : (s.kill k pid).1.Wf := by
  rcases s.kill_cases k pid with ⟨p, -, h⟩ | ⟨-, h⟩
  . rw [h]
    refine hs.wakes ?_ rfl
    intro q
    rw [modify_ptable]
    split
    . unfold Proc.kill
      split
      . next hsleep => constructor <;> simp [Proc.wakeup, hsleep]
      . exact ⟨rfl, Iff.rfl, id, id⟩
    . exact Wakes.refl _
  . rw [h]
    exact hs

theorem Wf.handler {h : State} (hs : s.Wf) (hh : Handler k s e h) : h.Wf ∧ h.cpu = s.cpu := by
  cases hh with
  | timer yields => exact ⟨hs.tick, rfl⟩
  | intr chan => exact ⟨hs.wakeup1 chan, rfl⟩

theorem Wf.setPc (hs : s.Wf) {p : Slot} {pc : Pc}
    (hpc : ∀ np, pc.child = some np → (s.ptable p).state = .running ∧ (s.ptable np).state = .embryo ∧
      ∀ q, (s.ptable q).pc.child = some np → q = p)
    : (s.setPc p pc).Wf := by
  have hstate : ∀ q, ((s.setPc p pc).ptable q).state = (s.ptable q).state := by
    intro q
    by_cases hq : q = p <;> simp [hq]
  constructor
  . intro q h
    rw [hstate]
    exact hs.running q h
  . intro q h
    rw [hstate] at h
    exact hs.current q h
  . intro q np h
    rw [hstate]
    by_cases hq : q = p
    . simp only [setPc_ptable, hq, ↓reduceIte] at h
      rw [hq]
      exact .inl (hpc np h).1
    . simp only [setPc_ptable, hq, ↓reduceIte] at h
      exact hs.busy q np h
  . intro q np h
    rw [hstate]
    by_cases hq : q = p
    . simp only [setPc_ptable, hq, ↓reduceIte] at h
      exact (hpc np h).2.1
    . simp only [setPc_ptable, hq, ↓reduceIte] at h
      exact hs.embryo q np h
  . intro q r np hq hr
    by_cases h1 : q = p
    . by_cases h2 : r = p
      . rw [h1, h2]
      . simp only [setPc_ptable, h1, h2, ↓reduceIte] at hq hr
        exact absurd ((hpc np hq).2.2 r hr) h2
    . by_cases h2 : r = p
      . simp only [setPc_ptable, h1, h2, ↓reduceIte] at hq hr
        exact absurd ((hpc np hr).2.2 q hq) h1
      . simp only [setPc_ptable, h1, h2, ↓reduceIte] at hq hr
        exact hs.owner q r np hq hr

theorem Wf.leave (hs : s.Wf) {p : Slot} {r : Proc} (hcpu : s.cpu = .run p)
    (htab : ∀ q, s'.ptable q = if q = p then r else s.ptable q) (hcpu' : ∃ i, s'.cpu = .scan i)
    (hpc : r.pc.child = none ∨ r.pc.child = (s.ptable p).pc.child ∧ r.state = .runnable)
    (hrunning : r.state ≠ .running)
    : s'.Wf := by
  obtain ⟨i, hcpu'⟩ := hcpu'
  have hp : (s.ptable p).state = .running := hs.running p hcpu
  have hchild : ∀ q np, (s'.ptable q).pc.child = some np → (s.ptable q).pc.child = some np := by
    intro q np h
    by_cases hq : q = p
    . cases hpc with
      | inl hpc => simp [htab, hq, hpc] at h
      | inr hpc => simpa [htab, hq, hpc.1] using h
    . simpa [htab, hq] using h
  constructor
  . intro q h
    simp [hcpu'] at h
  . intro q h
    by_cases hq : q = p
    . simp [htab, hq, hrunning] at h
    . simp only [htab, hq, ↓reduceIte] at h
      have := hs.current q h
      simp [hcpu, Ne.symm hq] at this
  . intro q np h
    by_cases hq : q = p
    . cases hpc with
      | inl hpc => simp [htab, hq, hpc] at h
      | inr hpc => simp [htab, hq, hpc.2]
    . rw [htab]
      simp only [hq, ↓reduceIte]
      exact hs.busy q np (hchild q np h)
  . intro q np h
    have hnp := hs.embryo q np (hchild q np h)
    have : np ≠ p := by
      intro heq
      rw [heq, hp] at hnp
      simp at hnp
    simpa [htab, this] using hnp
  . intro q r np hq hr
    exact hs.owner q r np (hchild q np hq) (hchild r np hr)

theorem Wf.dispatch (hs : s.Wf) {p : Slot} {i : Nat} (hcpu : s.cpu = .scan i)
    (hp : (s.ptable p).state = .runnable)
    : (s.dispatch k p Proc.resume).Wf := by
  have hchild : ∀ q np, ((s.dispatch k p Proc.resume).ptable q).pc.child = some np →
      (s.ptable q).pc.child = some np := by
    intro q np h
    by_cases hq : q = p
    . simpa [hq, Proc.dispatch] using h
    . simpa [hq] using h
  constructor
  . intro q h
    simp only [dispatch_cpu, Cpu.run.injEq] at h
    simp [h, Proc.dispatch]
  . intro q h
    left
    by_cases hq : q = p
    . simp [hq]
    . simp only [dispatch_ptable, hq, ↓reduceIte] at h
      have := hs.current q h
      simp [hcpu] at this
  . intro q np h
    by_cases hq : q = p
    . simp [hq, Proc.dispatch]
    . simp only [dispatch_ptable, hq, ↓reduceIte]
      exact hs.busy q np (hchild q np h)
  . intro q np h
    have hnp := hs.embryo q np (hchild q np h)
    have : np ≠ p := by
      intro heq
      rw [heq, hp] at hnp
      simp at hnp
    simpa [this] using hnp
  . intro q r np hq hr
    exact hs.owner q r np (hchild q np hq) (hchild r np hr)

theorem Wf.setCpu (hs : s.Wf) {c : Cpu} (hidle : s.cpu = .idle ∨ ∃ i, s.cpu = .scan i)
    (hc : ∀ p, c ≠ .run p)
    : { s with cpu := c }.Wf where
  running p h := absurd h (hc p)
  current p h := by
    have := hs.current p h
    rcases hidle with hidle | ⟨i, hidle⟩ <;> simp [hidle] at this
  busy := hs.busy
  embryo := hs.embryo
  owner := hs.owner

-- A slot that is neither the current process nor the child of a `fork` gets a new value.
theorem Wf.modify (hs : s.Wf) {c : Slot} {f : Proc → Proc}
    (hold : (s.ptable c).state ≠ .running ∧ (s.ptable c).pc.child = none)
    (hnew : (f (s.ptable c)).state ≠ .running ∧ (f (s.ptable c)).pc.child = none)
    (hembryo : (∀ p, (s.ptable p).pc.child ≠ some c) ∨
      (s.ptable c).state ≠ .embryo ∨ (f (s.ptable c)).state = .embryo)
    : (s.modify c f).Wf := by
  have hchild : ∀ q np, ((s.modify c f).ptable q).pc.child = some np →
      q ≠ c ∧ (s.ptable q).pc.child = some np := by
    intro q np h
    by_cases hq : q = c
    . simp [hq, hnew.2] at h
    . exact ⟨hq, by simpa [hq] using h⟩
  constructor
  . intro q h
    have hq := hs.running q h
    have : q ≠ c := by
      intro heq
      exact hold.1 (heq ▸ hq)
    simpa [this] using hq
  . intro q h
    by_cases hq : q = c
    . simp [hq, hnew.1] at h
    . exact hs.current q (by simpa [hq] using h)
  . intro q np h
    have := hchild q np h
    simpa [this.1] using hs.busy q np this.2
  . intro q np h
    have hq := (hchild q np h).2
    have hnp := hs.embryo q np hq
    by_cases heq : np = c
    . subst heq
      rcases hembryo with hembryo | hembryo | hembryo
      . exact absurd hq (hembryo q)
      . exact absurd hnp hembryo
      . simpa using hembryo
    . simpa [heq] using hnp
  . intro q r np hq hr
    exact hs.owner q r np (hchild q np hq).2 (hchild r np hr).2

theorem Wf.child_eq_none (hs : s.Wf) {p : Slot}
    (h : (s.ptable p).state ≠ .running ∧ (s.ptable p).state ≠ .runnable)
    : (s.ptable p).pc.child = none := by
  cases hc : (s.ptable p).pc.child with
  | none => rfl
  | some np =>
    cases hs.busy p np hc with
    | inl hp => exact absurd hp h.1
    | inr hp => exact absurd hp h.2

theorem Wf.forkStart (hs : s.Wf) {p np : Slot} (hcpu : s.cpu = .run p)
    (hnp : (s.ptable np).state = .unused)
    : ({ s.modify np (.alloc k s.ticks s.nextpid) with nextpid := s.nextpid + 1 }.setPc p
        (.forkKstack np)).Wf := by
  have hp := hs.running p hcpu
  have hne : p ≠ np := by
    intro h
    rw [h, hnp] at hp
    simp at hp
  have hnone : (s.ptable np).pc.child = none := hs.child_eq_none (by simp [hnp])
  have hidle : ∀ q, (s.ptable q).pc.child ≠ some np := by
    intro q h
    have := hs.embryo q np h
    simp [hnp] at this
  have halloc : (s.modify np (.alloc k s.ticks s.nextpid)).Wf := by
    apply hs.modify
    . simp [hnp, hnone]
    . simp [Proc.alloc, hnone]
    . exact .inl hidle
  have halloc' : { s.modify np (.alloc k s.ticks s.nextpid) with nextpid := s.nextpid + 1 }.Wf :=
    ⟨halloc.running, halloc.current, halloc.busy, halloc.embryo, halloc.owner⟩
  apply halloc'.setPc
  intro c hc
  simp only [Pc.child, Option.some.injEq] at hc
  subst hc
  refine ⟨by simp [hne, hp], by simp [Proc.alloc], ?_⟩
  intro q hq
  by_cases h : q = np
  . simp [h, Proc.alloc, hnone] at hq
  . simp only [modify_ptable, h, ↓reduceIte] at hq
    exact absurd hq (hidle q)

-- The process in `fork` moves on and changes its embryo on the way.
theorem Wf.forkMove (hs : s.Wf) {p np : Slot} {pc : Pc} {f : Proc → Proc} (hcpu : s.cpu = .run p)
    (hchild : (s.ptable p).pc.child = some np)
    (hf : ∀ r, (f r).pc.child = none ∨ (f r).pc = r.pc)
    (hpc : pc.child = none ∧ (f (s.ptable np)).state ≠ .running ∨
      pc.child = some np ∧ (f (s.ptable np)).state = .embryo)
    : ((s.modify np f).setPc p pc).Wf := by
  have hp := hs.running p hcpu
  have hnp := hs.embryo p np hchild
  have hne : p ≠ np := by
    intro h
    rw [h, hnp] at hp
    simp at hp
  have hnone : (s.ptable np).pc.child = none := hs.child_eq_none (by simp [hnp])
  have hnone' : (f (s.ptable np)).pc.child = none := by
    cases hf (s.ptable np) with
    | inl h => exact h
    | inr h => rw [h, hnone]
  -- leave `fork` first, so that nobody owns the embryo while it changes
  have hleft : (s.setPc p .ret).Wf := by
    apply hs.setPc
    simp [Pc.child]
  have hfree : ∀ q, ((s.setPc p .ret).ptable q).pc.child ≠ some np := by
    intro q h
    by_cases hq : q = p
    . simp [hq, Pc.child] at h
    . simp only [setPc_ptable, hq, ↓reduceIte] at h
      exact hq (hs.owner q p np h hchild)
  have hmod : ((s.setPc p .ret).modify np f).Wf := by
    apply hleft.modify
    . simp [hne.symm, hnp, hnone]
    . simp only [setPc_ptable, hne.symm, ↓reduceIte, ne_eq, hnone', and_true]
      rcases hpc with hpc | hpc <;> simp [hpc.2]
    . exact .inl hfree
  have hcomm : (s.modify np f).setPc p pc = ((s.setPc p .ret).modify np f).setPc p pc := by
    simp only [State.setPc, State.modify, State.mk.injEq, and_true]
    funext q
    by_cases h1 : q = p
    . simp [h1, hne]
    . by_cases h2 : q = np <;> simp [h1, h2, hne.symm]
  rw [hcomm]
  apply hmod.setPc
  intro c hc
  rcases hpc with hpc | hpc
  . simp [hpc.1] at hc
  . simp only [hpc.1, Option.some.injEq] at hc
    subst hc
    refine ⟨by simp [hne, hp], by simp [hne.symm, hpc.2], ?_⟩
    intro q hq
    by_cases h : q = np
    . simp [h, hne.symm, hnone'] at hq
    . simp only [modify_ptable, h, ↓reduceIte] at hq
      exact absurd hq (hfree q)

theorem Wf.exit (hs : s.Wf) {p : Slot} (hcpu : s.cpu = .run p) (hpc : (s.ptable p).pc.child = none)
    : (s.exit k p).Wf := by
  -- first everything that `exit` does to other slots, then the process itself leaves
  let t : State := { s with ptable := fun q =>
    ((s.ptable q).orphan p s.initproc).wakeFor k s.ticks (s.exitWakes p) }
  have ht : t.Wf := by
    refine hs.wakes ?_ rfl
    intro q
    apply Wakes.wakeFor
    constructor <;> simp
  apply ht.leave (r := (t.ptable p).exit k s.ticks) hcpu
  . intro q
    rw [exit_ptable]
    dsimp only
    split
    . next hq => rw [hq]
    . rfl
  . exact ⟨_, (s.exit_frame k p).2.2.1⟩
  . left
    simpa [t, Proc.exit] using hpc
  . simp [Proc.exit]

theorem step_wf (hs : s.Wf) (h : s.step k e = some (s', o)) : s'.Wf := by
  cases step_cases h with
  | scanStart hcpu => exact hs.setCpu (.inl hcpu) (by simp)
  | scanEnd i hcpu hi => exact hs.setCpu (.inr ⟨i, hcpu⟩) (by simp)
  | scanSkip p hcpu hp => exact hs.setCpu (.inr ⟨p.val, hcpu⟩) (by simp)
  | dispatch p hcpu hp => exact hs.dispatch hcpu hp
  | trapIdle _ _ hh hcpu => exact (hs.handler hh).1
  | trapExit p _ _ hh hcpu hon hexit =>
    apply (hs.handler hh).1.setPc
    simp [Pc.child]
  | trapYield p pc hcpu hon hexit hrunning hpc =>
    apply (hs.tick (k := k)).leave (r := ({ (s.tick k).ptable p with pc := pc }).yield k (s.ticks + 1)) hcpu
    . intro q
      by_cases hq : q = p <;> simp [hq]
    . exact ⟨_, rfl⟩
    . rw [hpc]
      split
      . exact .inl rfl
      . exact .inr ⟨rfl, rfl⟩
    . simp [Proc.yield]
  | trapStay p _ _ hh hcpu hon hexit hstay => exact (hs.handler hh).1
  | fault p hcpu hpc =>
    have hk : (s.modify p fun r => { r with killed := true }).Wf := by
      refine hs.wakes ?_ rfl
      intro q
      by_cases hq : q = p <;> constructor <;> simp [hq]
    apply hk.setPc
    simp [Pc.child]
  | sysKilled p call hcpu hpc hkilled =>
    apply hs.setPc
    simp [Pc.child]
  | sysKill p pid hcpu hpc hkilled =>
    apply (hs.kill pid).setPc
    simp [Pc.child]
  | sysFork p np hcpu hpc hkilled hnp => exact hs.forkStart hcpu hnp
  | sysForkFull p hcpu hpc hkilled =>
    apply hs.setPc
    simp [Pc.child]
  | sysExit p hcpu hpc hkilled =>
    apply hs.setPc
    simp [Pc.child]
  | sysOther p hcpu hpc hkilled =>
    apply hs.setPc
    simp [Pc.child]
  | reap p c _ two hcpu hscan hparent hzombie =>
    have hnone : (s.ptable c).pc.child = none := hs.child_eq_none (by simp [hzombie])
    have hr : (s.modify c (.reap k two)).Wf := by
      apply hs.modify
      . simp [hzombie, hnone]
      . simp [Proc.reap, hnone]
      . simp [hzombie]
    apply hr.setPc
    simp [Pc.child]
  | waitFail p _ two hcpu hscan hfail =>
    apply hs.setPc
    simp [Pc.child]
  | waitSleep p _ two hcpu hscan hnone =>
    apply hs.leave (r := { s.ptable p with pc := .wait two }.sleep k s.ticks (.proc p)) hcpu
    . intro q
      by_cases hq : q = p <;> simp [hq]
    . exact ⟨_, rfl⟩
    . exact .inl rfl
    . simp [Proc.sleep]
  | sleep p chan hcpu hpc hchan =>
    apply hs.leave (r := (s.ptable p).sleep k s.ticks chan) hcpu
    . intro q
      by_cases hq : q = p <;> simp [hq]
    . exact ⟨_, rfl⟩
    . left
      rcases hpc with hpc | ⟨intr, hpc⟩ <;> simp [Proc.sleep, hpc, Pc.child]
    . simp [Proc.sleep]
  | wakeup p chan hcpu hpc => exact hs.wakeup1 chan
  | done p hcpu hpc =>
    apply hs.setPc
    simp [Pc.child]
  | forkKstack p np hcpu hpc =>
    apply hs.forkMove (f := fun r => { r with pc := .user }) hcpu (by simp [hpc, Pc.child])
    . intro r
      exact .inl rfl
    . exact .inr ⟨rfl, hs.embryo p np (by simp [hpc, Pc.child])⟩
  | forkFail p np hcpu hpc =>
    apply hs.forkMove hcpu
    . rcases hpc with hpc | hpc <;> simp [hpc, Pc.child]
    . intro r
      exact .inr rfl
    . left
      simp [Pc.child]
  | forkCopy p np hcpu hpc =>
    apply hs.forkMove hcpu (by simp [hpc, Pc.child])
    . intro r
      exact .inr rfl
    . exact .inr ⟨rfl, hs.embryo p np (by simp [hpc, Pc.child])⟩
  | forkPublish p np ok hcpu hpc =>
    apply hs.forkMove hcpu (by simp [hpc, Pc.child])
    . intro r
      exact .inr rfl
    . left
      simp [Pc.child]
  | ret p hcpu hpc =>
    apply hs.setPc
    split <;> simp [Pc.child]
  | exitInit p intr hcpu hpc hinit =>
    exact ⟨by simp, fun _ _ => .inr rfl, hs.busy, hs.embryo, hs.owner⟩
  | exit p intr hcpu hpc hinit => exact hs.exit hcpu (by simp [hpc, Pc.child])

theorem boot_ptable (p : Slot)
    : (boot k).ptable p
        =
      if p = 0 then
        { Proc.zero.alloc k 0 1 with state := .runnable, pc := .sys }
      else
        .zero := by
  have hslot : findSlot (fun _ => decide (Proc.zero.state = .unused)) = some 0 := by
    decide
  unfold boot userinit allocproc
  simp only [hslot, modify_ptable]
  by_cases hp : p = 0 <;> simp [hp]

theorem boot_cpu : (boot k).cpu = .idle := by
  cases k <;> rfl

theorem boot_wf : (boot k).Wf := by
  have hchild : ∀ p, ((boot k).ptable p).pc.child = none := by
    intro p
    rw [boot_ptable]
    split <;> rfl
  constructor
  . intro p h
    simp [boot_cpu] at h
  . intro p h
    rw [boot_ptable] at h
    split at h <;> simp [Proc.zero] at h
  . intro p np h
    simp [hchild] at h
  . intro p np h
    simp [hchild] at h
  . intro p q np h
    simp [hchild] at h

end State

/-- The transitions of one process between `allocproc` and its slot being free again. -/
inductive Trans (k : Accounting) (ticks : Word) : Proc → Proc → Prop where
  | keep {p p' : Proc} : p'.state = p.state → p'.toCounters = p.toCounters → Trans k ticks p p'
  | giveUp {p : Proc} : p.state = .embryo → Trans k ticks p { p with state := .unused }
  | publish {p : Proc} : p.state = .embryo → Trans k ticks p { p with state := .runnable }
  | dispatch {p : Proc} : p.state = .runnable → Trans k ticks p (p.dispatch k ticks)
  | yield {p : Proc} : p.state = .running → Trans k ticks p (p.yield k ticks)
  | sleep {p : Proc} (chan : Chan) : p.state = .running → Trans k ticks p (p.sleep k ticks chan)
  | wakeup {p : Proc} : p.state = .sleeping → Trans k ticks p (p.wakeup k ticks)
  | exit {p : Proc} : p.state = .running → Trans k ticks p (p.exit k ticks)
  | reap {p : Proc} (two : Bool) : p.state = .zombie → Trans k ticks p (p.reap k two)

abbrev Life (k : Accounting) (ticks : Word) := Relation.ReflTransGen (Trans k ticks)

def Event.isTimer : Event → Bool
  | .timer _ => true
  | _ => false

namespace Life

variable {k : Accounting} {ticks : Word} {p q : Proc}

theorem keep (h : Life k ticks p q) {r : Proc} (hs : r.state = q.state)
    (hc : r.toCounters = q.toCounters)
    : Life k ticks p r :=
  h.tail (.keep hs hc)

theorem wakeFor (h : Life k ticks p q) (f : Chan → Bool) : Life k ticks p (q.wakeFor k ticks f) := by
  rcases Proc.wakeFor_cases k ticks f q with ⟨hs, -, heq⟩ | ⟨-, heq⟩
  . rw [heq]
    exact h.tail (.wakeup hs)
  . rw [heq]
    exact h

theorem kill (h : Life k ticks p q) : Life k ticks p (q.kill k ticks) := by
  have hkeep : Life k ticks p { q with killed := true } := h.keep rfl rfl
  unfold Proc.kill
  split
  . next hs => exact hkeep.tail (.wakeup hs)
  . exact hkeep

theorem setPc {s : State} {c d : Slot} (h : Life k ticks p (s.ptable c)) (pc : Pc)
    : Life k ticks p ((s.setPc d pc).ptable c) := by
  rw [State.setPc_ptable]
  split
  . exact h.keep rfl rfl
  . exact h

theorem modify {s : State} {c d : Slot} {f : Proc → Proc} (h : Life k ticks p (s.ptable c))
    (hf : c = d → Trans k ticks (s.ptable c) (f (s.ptable c)))
    : Life k ticks p ((s.modify d f).ptable c) := by
  rw [State.modify_ptable]
  split
  . next hc => exact h.tail (hf hc)
  . exact h

theorem unused (h : Life k ticks p q) (hp : p.state = .unused) : q.state = .unused := by
  induction h with
  | refl => exact hp
  | tail _ ht ih => cases ht <;> simp_all

end Life

namespace State

variable {k : Accounting} {s s' : State} {e : Event} {o : Output}

-- A tick reaches every slot before anything else in the step does.
def ticked (k : Accounting) (s : State) (e : Event) (q : Slot) : Proc :=
  if e.isTimer then (s.ptable q).tick k else s.ptable q

theorem Handler.life {h : State} (hh : Handler k s e h) (q : Slot)
    : Life k h.ticks (s.ticked k e q) (h.ptable q) := by
  cases hh with
  | timer yields =>
    rw [tick_ptable]
    exact Life.wakeFor .refl _
  | intr chan =>
    rw [wakeup1_ptable]
    exact Life.wakeFor .refl _

theorem Handler.ticks_eq {h : State} (hh : Handler k s e h)
    : h.ticks = if e.isTimer then s.ticks + 1 else s.ticks := by
  cases hh with
  | timer yields => rfl
  | intr chan => rfl

theorem Scans.ticked {p q : Slot} {two : Bool} (h : Scans s p e two) : s.ticked k e q = s.ptable q := by
  cases h with
  | wait => rfl
  | wait2 => rfl
  | again => rfl

theorem step_ticks (h : s.step k e = some (s', o))
    : s'.ticks = if e.isTimer then s.ticks + 1 else s.ticks := by
  cases step_cases h with
  | trapIdle _ _ hh => exact hh.ticks_eq
  | trapExit _ _ _ hh => exact hh.ticks_eq
  | trapStay _ _ _ hh => exact hh.ticks_eq
  | sysKill p pid =>
    rcases s.kill_cases k pid with ⟨p, -, h⟩ | ⟨-, h⟩ <;> rw [h] <;> rfl
  | reap _ _ _ _ _ hscan => cases hscan <;> rfl
  | waitFail _ _ _ _ hscan => cases hscan <;> rfl
  | waitSleep _ _ _ _ hscan => cases hscan <;> rfl
  | exit p => exact (s.exit_frame k p).1
  | _ => rfl

theorem step_life (hs : s.Wf) (h : s.step k e = some (s', o)) (q : Slot)
    : ((s.ptable q).state = .unused ∧ e.isTimer = false ∧
        ∃ pid, s'.ptable q = (s.ptable q).alloc k s'.ticks pid) ∨
      Life k s'.ticks (s.ticked k e q) (s'.ptable q) := by
  cases step_cases h with
  | sysFork p np hcpu hpc hkilled hnp =>
    by_cases hq : q = np
    . left
      have hne : np ≠ p := by
        intro heq
        have := hs.running p hcpu
        simp [← heq, hnp] at this
      exact ⟨by rw [hq, hnp], rfl, s.nextpid, by simp [hq, hne]⟩
    . right
      apply Life.setPc
      simp only [modify_ptable, hq, ↓reduceIte]
      exact .refl
  | scanStart | scanEnd | scanSkip | exitInit => exact .inr .refl
  | dispatch p hcpu hp =>
    right
    rw [dispatch_ptable]
    split
    . next hq =>
      subst hq
      apply Life.keep (.single (.dispatch hp)) <;> simp
    . exact .refl
  | trapIdle _ _ hh => exact .inr (hh.life q)
  | trapExit p _ _ hh => exact .inr ((hh.life q).setPc _)
  | trapYield p pc hcpu hon hexit hrunning hpc =>
    right
    have htick := ((Handler.timer (k := k) (s := s) true).life q).setPc (d := p) pc
    rw [yield_ptable]
    split
    . next hq =>
      subst hq
      apply htick.tail
      apply Trans.yield
      simpa using hrunning
    . exact htick
  | trapStay p _ _ hh => exact .inr (hh.life q)
  | fault p =>
    right
    apply Life.setPc
    apply Life.modify .refl
    intro _
    exact .keep rfl rfl
  | sysKill p pid =>
    right
    apply Life.setPc
    rcases s.kill_cases k pid with ⟨r, -, h⟩ | ⟨-, h⟩
    . rw [h, modify_ptable]
      split
      . exact Life.kill .refl
      . exact .refl
    . rw [h]
      exact .refl
  | sysKilled | sysForkFull | sysExit | sysOther | done | ret => exact .inr (Life.setPc .refl _)
  | reap p c _ two hcpu hscan hparent hzombie =>
    right
    rw [hscan.ticked]
    apply Life.setPc
    apply Life.modify .refl
    intro hq
    exact .reap two (hq ▸ hzombie)
  | waitFail p _ two hcpu hscan =>
    right
    rw [hscan.ticked]
    exact Life.setPc .refl _
  | waitSleep p _ two hcpu hscan =>
    right
    rw [hscan.ticked, sleep_ptable]
    split
    . next hq =>
      subst hq
      apply Relation.ReflTransGen.tail (Life.setPc .refl _)
      apply Trans.sleep
      simpa using hs.running q hcpu
    . exact Life.setPc .refl _
  | sleep p chan hcpu =>
    right
    rw [sleep_ptable]
    split
    . next hq =>
      subst hq
      exact .single (.sleep chan (hs.running q hcpu))
    . exact .refl
  | wakeup p chan =>
    right
    rw [wakeup1_ptable]
    exact Life.wakeFor .refl _
  | forkKstack p np => exact .inr (Life.setPc (Life.setPc .refl _) _)
  | forkFail p np hcpu hpc =>
    right
    apply Life.setPc
    apply Life.modify .refl
    intro hq
    apply Trans.giveUp
    rw [hq]
    apply hs.embryo p np
    rcases hpc with hpc | hpc <;> simp [hpc, Pc.child]
  | forkCopy p np =>
    right
    apply Life.setPc
    apply Life.modify .refl
    intro _
    exact .keep rfl rfl
  | forkPublish p np ok hcpu hpc =>
    right
    apply Life.setPc
    apply Life.modify .refl
    intro hq
    apply Trans.publish
    rw [hq]
    apply hs.embryo p np
    simp [hpc, Pc.child]
  | exit p intr hcpu =>
    right
    have hother : Life k (s.exit k p).ticks (s.ptable q)
        (((s.ptable q).orphan p s.initproc).wakeFor k s.ticks (s.exitWakes p)) := by
      rw [(s.exit_frame k p).1]
      apply Life.wakeFor
      apply Life.keep .refl <;> simp
    rw [exit_ptable]
    dsimp only
    split
    . next hq =>
      apply hother.tail
      rw [(s.exit_frame k p).1]
      apply Trans.exit
      simp [hq, hs.running p hcpu]
    . exact hother

end State

end Xv6
