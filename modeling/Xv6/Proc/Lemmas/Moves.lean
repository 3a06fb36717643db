import Xv6.Proc.Lemmas.Lifecycle

/-!
What a step does to one slot, as a chain of single assignments. A `Move` keeps what the code knows about
the slot and about the step at that point, so a property of one slot needs one short case for each kind of
assignment and no second look at the code.
-/

namespace Xv6

namespace State

-- The slot that `kill`, called in this step, finds first.
def kills (s : State) (e : Event) : Option Slot :=
  match e, s.cpu with
  | .syscall (.kill pid), .run cur =>
    if (s.ptable cur).killed then none else findSlot fun p => (s.ptable p).pid = pid
  | _, _ => none

-- The slot that a failing `fork` gives back in this step.
def givesUp (s : State) (e : Event) : Option Slot :=
  match e, s.cpu with
  | .forkNext false, .run cur =>
    match (s.ptable cur).pc with
    | .forkKstack np => some np
    | .forkCopy np => some np
    | _ => none
  | _, _ => none

inductive Move (k : Accounting) (s : State) (ticks : Word) (e : Event) (p : Slot) : Proc → Proc → Prop where
  | tick {r : Proc} : e.isTimer = true → Move k s ticks e p r (r.tick k)
  | wakeup {r : Proc} : r.state = .sleeping → Move k s ticks e p r (r.wakeup k ticks)
  | setPc {r : Proc} (pc : Pc) : s.cpu = .run p →
      (∀ np, pc = .forkKstack np → (s.ptable p).pc = pc ∨ (s.ptable np).state = .unused) →
      Move k s ticks e p r { r with pc := pc }
  | forkret {r : Proc} : r.state = .embryo → Move k s ticks e p r { r with pc := .user }
  | fault {r : Proc} : e = .fault → s.cpu = .run p → Move k s ticks e p r { r with killed := true }
  | kill {r : Proc} : s.kills e = some p → Move k s ticks e p r { r with killed := true }
  | alloc {r : Proc} : e = .syscall .fork → r.state = .unused →
      Move k s ticks e p r (r.alloc k ticks s.nextpid)
  | giveUp {r : Proc} : s.givesUp e = some p → r.state = .embryo →
      Move k s ticks e p r { r with state := .unused }
  | setParent {r : Proc} (cur : Slot) : s.cpu = .run cur → cur ≠ p → r.state = .embryo →
      Move k s ticks e p r { r with parent := some cur }
  | publish {r : Proc} : r.state = .embryo → Move k s ticks e p r { r with state := .runnable }
  | dispatch {r : Proc} : e = .schedule → s.cpu = .scan p.val → r.state = .runnable →
      Move k s ticks e p r (r.dispatch k ticks).resume
  | yield {r : Proc} : s.cpu = .run p → r.state = .running → Move k s ticks e p r (r.yield k ticks)
  | sleep {r : Proc} (chan : Chan) : s.cpu = .run p → r.state = .running →
      (chan.isObject = true ∨
        chan = .proc p ∧ ∀ c, (s.ptable c).parent = some p → (s.ptable c).state ≠ .zombie) →
      Move k s ticks e p r (r.sleep k ticks chan)
  | exit {r : Proc} : e = .exitNext → s.cpu = .run p → s.initproc ≠ some p → r.state = .running →
      Move k s ticks e p r (r.exit k ticks)
  | orphan {r : Proc} (cur : Slot) : e = .exitNext → s.cpu = .run cur →
      Move k s ticks e p r (r.orphan cur s.initproc)
  | reap {r : Proc} (two : Bool) (cur : Slot) : s.cpu = .run cur → Scans s cur e two →
      r.state = .zombie → r.parent = some cur → Move k s ticks e p r (r.reap k two)

abbrev Moves (k : Accounting) (s : State) (ticks : Word) (e : Event) (p : Slot) :=
  Relation.ReflTransGen (Move k s ticks e p)

variable {k : Accounting} {s s' t : State} {ticks : Word} {e : Event} {o : Output} {p : Slot}

namespace Moves

theorem wakeFor {r r' : Proc} (h : Moves k s ticks e p r r') (f : Chan → Bool)
    : Moves k s ticks e p r (r'.wakeFor k ticks f) := by
  rcases Proc.wakeFor_cases k ticks f r' with ⟨hs, -, heq⟩ | ⟨-, heq⟩
  . rw [heq]
    exact h.tail (.wakeup hs)
  . rw [heq]
    exact h

theorem modify {r : Proc} {q : Slot} {f : Proc → Proc} (h : Moves k s ticks e p r (t.ptable p))
    (hf : p = q → Move k s ticks e p (t.ptable p) (f (t.ptable p)))
    : Moves k s ticks e p r ((t.modify q f).ptable p) := by
  rw [modify_ptable]
  split
  . next hq => exact h.tail (hf hq)
  . exact h

-- The current process moves on to a place outside `allocproc`.
theorem setPc {r : Proc} {q : Slot} {pc : Pc} (h : Moves k s ticks e p r (t.ptable p))
    (hcpu : s.cpu = .run q) (hpc : ∀ np, pc = .forkKstack np → (s.ptable q).pc = pc)
    : Moves k s ticks e p r ((t.setPc q pc).ptable p) := by
  apply h.modify
  intro hp
  subst hp
  exact .setPc pc hcpu fun np hnp => .inl (hpc np hnp)

theorem handler {h : State} (hh : Handler k s e h) : Moves k s h.ticks e p (s.ptable p) (h.ptable p) := by
  cases hh with
  | timer yields =>
    rw [tick_ptable]
    exact Moves.wakeFor (.single (.tick rfl)) _
  | intr chan =>
    rw [wakeup1_ptable]
    exact Moves.wakeFor .refl _

end Moves

theorem step_moves (hs : s.Wf) (h : s.step k e = some (s', o)) (p : Slot)
    : Moves k s s'.ticks e p (s.ptable p) (s'.ptable p) := by
  have hembryo : ∀ {q np : Slot}, (s.ptable q).pc.child = some np → p = np → (s.ptable p).state = .embryo := by
    intro q np hchild hp
    rw [hp]
    exact hs.embryo q np hchild
  cases step_cases h with
  | scanStart | scanEnd | scanSkip | exitInit => exact .refl
  | dispatch q hcpu hq =>
    rw [dispatch_ptable]
    split
    . next hp =>
      subst hp
      exact .single (.dispatch rfl hcpu hq)
    . exact .refl
  | trapIdle _ _ hh => exact .handler hh
  | trapStay _ _ _ hh => exact .handler hh
  | trapExit q _ _ hh hcpu => exact (Moves.handler hh).setPc hcpu (by simp)
  | trapYield q pc hcpu hon hexit hrunning hpc =>
    have hmoved : Moves k s (s.ticks + 1) (.timer true) p (s.ptable p) (((s.tick k).setPc q pc).ptable p) := by
      apply (Moves.handler (.timer true)).setPc hcpu
      intro np hnp
      rw [hnp] at hpc
      split at hpc
      . simp at hpc
      . rw [hnp, hpc]
        simp [Proc.tick]
    apply hmoved.modify
    intro hp
    subst hp
    exact .yield hcpu (by simpa using hrunning)
  | fault q hcpu hpc =>
    refine Moves.setPc (Moves.modify .refl ?_) hcpu (by simp)
    intro hp
    subst hp
    exact .fault rfl hcpu
  | sysKill q pid hcpu hpc hkilled =>
    refine Moves.setPc ?_ hcpu (by simp)
    rcases s.kill_cases k pid with ⟨r, hr, hkill⟩ | ⟨-, hkill⟩
    . rw [hkill, modify_ptable]
      split
      . next hp =>
        subst hp
        have hmark : Moves k s s.ticks (.syscall (.kill pid)) p (s.ptable p)
            { s.ptable p with killed := true } :=
          .single (.kill (by simp [kills, hcpu, hkilled, hr]))
        unfold Proc.kill
        split
        . next hsleep => exact hmark.tail (.wakeup hsleep)
        . exact hmark
      . exact .refl
    . rw [hkill]
  | sysFork q np hcpu hpc hkilled hnp =>
    have halloc : Moves k s s.ticks (.syscall .fork) p (s.ptable p)
        ((s.modify np (.alloc k s.ticks s.nextpid)).ptable p) := by
      apply Moves.modify .refl
      intro hp
      exact .alloc rfl (hp ▸ hnp)
    have hmove : Moves k s s.ticks (.syscall .fork) p (s.ptable p)
        (((s.modify np (.alloc k s.ticks s.nextpid)).setPc q (.forkKstack np)).ptable p) := by
      apply halloc.modify
      intro hp
      subst hp
      refine .setPc _ hcpu ?_
      intro c hc
      rw [Pc.forkKstack.injEq] at hc
      exact .inr (hc ▸ hnp)
    exact hmove
  | sysKilled q call hcpu => exact Moves.setPc .refl hcpu (by simp)
  | sysForkFull q hcpu => exact Moves.setPc .refl hcpu (by simp)
  | sysExit q hcpu => exact Moves.setPc .refl hcpu (by simp)
  | sysOther q hcpu => exact Moves.setPc .refl hcpu (by simp)
  | done q hcpu => exact Moves.setPc .refl hcpu (by simp)
  | waitFail q _ two hcpu => exact Moves.setPc .refl hcpu (by simp)
  | ret q hcpu =>
    refine Moves.setPc .refl hcpu ?_
    intro np hnp
    split at hnp <;> simp at hnp
  | reap q c _ two hcpu hscan hparent hzombie =>
    refine Moves.setPc (Moves.modify .refl ?_) hcpu (by simp)
    intro hp
    subst hp
    exact .reap two q hcpu hscan hzombie hparent
  | waitSleep q _ two hcpu hscan hnone =>
    refine Moves.modify (Moves.setPc .refl hcpu (by simp)) ?_
    intro hp
    subst hp
    exact .sleep _ hcpu (by simpa using hs.running p hcpu) (.inr ⟨rfl, hnone⟩)
  | sleep q chan hcpu hpc hchan =>
    refine Moves.modify .refl ?_
    intro hp
    subst hp
    exact .sleep chan hcpu (hs.running p hcpu) (.inl hchan)
  | wakeup q chan hcpu =>
    rw [wakeup1_ptable]
    exact Moves.wakeFor .refl _
  | forkKstack q np hcpu hpc =>
    refine Moves.setPc (Moves.modify .refl ?_) hcpu (by simp)
    intro hp
    exact .forkret (hembryo (q := q) (by simp [hpc, Pc.child]) hp)
  | forkFail q np hcpu hpc =>
    refine Moves.setPc (Moves.modify .refl ?_) hcpu (by simp)
    intro hp
    subst hp
    refine .giveUp ?_ (hembryo (q := q) ?_ rfl)
    . rcases hpc with hpc | hpc <;> simp [givesUp, hcpu, hpc]
    . rcases hpc with hpc | hpc <;> simp [hpc, Pc.child]
  | forkCopy q np hcpu hpc =>
    refine Moves.setPc (Moves.modify .refl ?_) hcpu (by simp)
    intro hp
    have hstate := hembryo (q := q) (by simp [hpc, Pc.child]) hp
    refine .setParent q hcpu ?_ hstate
    intro hq
    simp [← hq, hs.running q hcpu] at hstate
  | forkPublish q np ok hcpu hpc =>
    refine Moves.setPc (Moves.modify .refl ?_) hcpu (by simp)
    intro hp
    exact .publish (hembryo (q := q) (by simp [hpc, Pc.child]) hp)
  | exit q intr hcpu hpc hinit =>
    rw [(s.exit_frame k q).1]
    have hother : Moves k s s.ticks .exitNext p (s.ptable p)
        (((s.ptable p).orphan q s.initproc).wakeFor k s.ticks (s.exitWakes q)) :=
      Moves.wakeFor (.single (.orphan q rfl hcpu)) _
    rw [exit_ptable]
    dsimp only
    split
    . next hp =>
      subst hp
      apply hother.tail
      refine .exit rfl hcpu hinit ?_
      simp [hs.running p hcpu]
    . exact hother

end State

end Xv6
