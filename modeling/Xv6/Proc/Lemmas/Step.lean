import Xv6.Proc.Impl.Step

/-!
What a step of the kernel can do, once and for all: `Step` lists the cases with the guards that the code
checks, `step_cases` reads them off `State.step`.
-/

namespace Xv6

namespace State

inductive Handler (k : Accounting) (s : State) : Event → State → Prop where
  | timer (yields : Bool) : Handler k s (.timer yields) (s.tick k)
  | intr (chan : Chan) : Handler k s (.intr chan) (s.wakeup1 k chan)

-- The events on which `wait` (`wait2` if `two`) of the current process scans the table.
inductive Scans (s : State) (p : Slot) : Event → Bool → Prop where
  | wait : (s.ptable p).pc = .user → (s.ptable p).killed = false → Scans s p (.syscall .wait) false
  | wait2 : (s.ptable p).pc = .user → (s.ptable p).killed = false → Scans s p (.syscall .wait2) true
  | again (two : Bool) : (s.ptable p).pc = .wait two → Scans s p .waitNext two

inductive Step (k : Accounting) (s : State) : Event → Output → State → Prop where
  | scanStart : s.cpu = .idle → Step k s .schedule .none { s with cpu := .scan 0 }
  | scanEnd (i : Nat) : s.cpu = .scan i → ¬ i < NPROC → Step k s .schedule .none { s with cpu := .idle }
  | scanSkip (p : Slot) : s.cpu = .scan p.val → (s.ptable p).state ≠ .runnable →
      Step k s .schedule .none { s with cpu := .scan (p.val + 1) }
  | dispatch (p : Slot) : s.cpu = .scan p.val → (s.ptable p).state = .runnable →
      Step k s .schedule .none (s.dispatch k p Proc.resume)
  | trapIdle (e : Event) (h : State) : Handler k s e h → s.cpu = .idle → Step k s e .none h
  | trapExit (p : Slot) (e : Event) (h : State) : Handler k s e h → s.cpu = .run p →
      (s.ptable p).pc.intrOn = true → h.forcedExit p = true → Step k s e .none (h.setPc p (.exit false))
  | trapYield (p : Slot) (pc : Pc) : s.cpu = .run p → (s.ptable p).pc.intrOn = true →
      (s.tick k).forcedExit p = false → ((s.tick k).ptable p).state = .running →
      pc = (if ((s.tick k).ptable p).pc = .user then .yielded else ((s.tick k).ptable p).pc) →
      Step k s (.timer true) .none (((s.tick k).setPc p pc).yield k p)
  | trapStay (p : Slot) (e : Event) (h : State) : Handler k s e h → s.cpu = .run p →
      (s.ptable p).pc.intrOn = true → h.forcedExit p = false →
      (e = .timer true → (h.ptable p).state ≠ .running) → Step k s e .none h
  | fault (p : Slot) : s.cpu = .run p → (s.ptable p).pc = .user →
      Step k s .fault .none ((s.modify p fun p => { p with killed := true }).setPc p (.exit false))
  | sysKilled (p : Slot) (call : Call) : s.cpu = .run p → (s.ptable p).pc = .user →
      (s.ptable p).killed = true → Step k s (.syscall call) .none (s.setPc p (.exit true))
  | sysKill (p : Slot) (pid : Word) : s.cpu = .run p → (s.ptable p).pc = .user →
      (s.ptable p).killed = false →
      Step k s (.syscall (.kill pid)) (.ret (s.kill k pid).2) ((s.kill k pid).1.setPc p .ret)
  | sysFork (p np : Slot) : s.cpu = .run p → (s.ptable p).pc = .user → (s.ptable p).killed = false →
      (s.ptable np).state = .unused →
      Step k s (.syscall .fork) .none
        ({ s.modify np (.alloc k s.ticks s.nextpid) with nextpid := s.nextpid + 1 }.setPc p (.forkKstack np))
  | sysForkFull (p : Slot) : s.cpu = .run p → (s.ptable p).pc = .user → (s.ptable p).killed = false →
      Step k s (.syscall .fork) (.ret (-1)) (s.setPc p .ret)
  | sysExit (p : Slot) : s.cpu = .run p → (s.ptable p).pc = .user → (s.ptable p).killed = false →
      Step k s (.syscall .exit) .none (s.setPc p (.exit true))
  | sysOther (p : Slot) : s.cpu = .run p → (s.ptable p).pc = .user → (s.ptable p).killed = false →
      Step k s (.syscall .other) .none (s.setPc p .sys)
  | reap (p c : Slot) (e : Event) (two : Bool) : s.cpu = .run p → Scans s p e two →
      (s.ptable c).parent = some p → (s.ptable c).state = .zombie →
      Step k s e
        (if two then .times (s.ptable c).pid (s.ptable c).wtime (s.ptable c).rutime
          else .child (s.ptable c).pid)
        ((s.modify c (.reap k two)).setPc p .ret)
  | waitFail (p : Slot) (e : Event) (two : Bool) : s.cpu = .run p → Scans s p e two →
      (s.havekids p = false ∨ (s.ptable p).killed = true) →
      Step k s e (.ret (-1)) (s.setPc p .ret)
  | waitSleep (p : Slot) (e : Event) (two : Bool) : s.cpu = .run p → Scans s p e two →
      (∀ c, (s.ptable c).parent = some p → (s.ptable c).state ≠ .zombie) →
      Step k s e .none ((s.setPc p (.wait two)).sleep k p (.proc p))
  | sleep (p : Slot) (chan : Chan) : s.cpu = .run p →
      ((s.ptable p).pc = .sys ∨ ∃ intr, (s.ptable p).pc = .exit intr) → chan.isObject = true →
      Step k s (.sleep chan) .none (s.sleep k p chan)
  | wakeup (p : Slot) (chan : Chan) : s.cpu = .run p →
      ((s.ptable p).pc = .sys ∨ ∃ intr, (s.ptable p).pc = .exit intr) →
      Step k s (.wakeup chan) .none (s.wakeup1 k chan)
  | done (p : Slot) : s.cpu = .run p → (s.ptable p).pc = .sys → Step k s .done .none (s.setPc p .ret)
  | forkKstack (p np : Slot) : s.cpu = .run p → (s.ptable p).pc = .forkKstack np →
      Step k s (.forkNext true) .none ((s.setPc np .user).setPc p (.forkCopy np))
  | forkFail (p np : Slot) : s.cpu = .run p →
      ((s.ptable p).pc = .forkKstack np ∨ (s.ptable p).pc = .forkCopy np) →
      Step k s (.forkNext false) (.ret (-1))
        ((s.modify np fun c => { c with state := .unused }).setPc p .ret)
  | forkCopy (p np : Slot) : s.cpu = .run p → (s.ptable p).pc = .forkCopy np →
      Step k s (.forkNext true) .none
        ((s.modify np fun c => { c with parent := some p }).setPc p (.forkPublish np))
  | forkPublish (p np : Slot) (ok : Bool) : s.cpu = .run p → (s.ptable p).pc = .forkPublish np →
      Step k s (.forkNext ok) (.ret (s.ptable np).pid)
        ((s.modify np fun c => { c with state := .runnable }).setPc p .ret)
  | ret (p : Slot) : s.cpu = .run p → (s.ptable p).pc = .ret →
      Step k s .ret .none (s.setPc p (if (s.ptable p).killed then .exit true else .user))
  | exitInit (p : Slot) (intr : Bool) : s.cpu = .run p → (s.ptable p).pc = .exit intr →
      s.initproc = some p → Step k s .exitNext (.panic "init exiting") { s with cpu := .halted }
  | exit (p : Slot) (intr : Bool) : s.cpu = .run p → (s.ptable p).pc = .exit intr →
      s.initproc ≠ some p → Step k s .exitNext .none (s.exit k p)

variable {k : Accounting} {s s' : State} {e : Event} {o : Output}

theorem intrEnd_cases {h : State} {yields : Bool} (hh : Handler k s e h) (hcpu : h.cpu = s.cpu)
    (hon : s.intrOn = true) (he : yields = true ↔ e = .timer true)
    : Step k s e .none (h.intrEnd k yields) := by
  unfold intrEnd
  split
  . next p hp =>
    have hrun : s.cpu = .run p := by rw [← hcpu, hp]
    have hpc : (s.ptable p).pc.intrOn = true := by
      simpa [intrOn, hrun] using hon
    unfold trapEnd
    split
    . next hexit => exact .trapExit p e h hh hrun hpc hexit
    . next hexit =>
      simp only [Bool.not_eq_true] at hexit
      split
      . next hyield =>
        have he := he.mp hyield.2
        subst he
        cases hh
        exact .trapYield p _ hrun hpc hexit hyield.1 rfl
      . next hyield =>
        apply Step.trapStay p e h hh hrun hpc hexit
        intro heq hrunning
        exact hyield ⟨hrunning, he.mpr heq⟩
  . next hp =>
    apply Step.trapIdle e h hh
    unfold intrOn at hon
    split at hon
    . assumption
    . next p hrun => exact absurd (hcpu.trans hrun) (hp p)
    . simp at hon

theorem schedule_cases (h : s.schedule k = some s') : Step k s .schedule .none s' := by
  unfold schedule at h
  split at h
  . next hcpu =>
    simp only [Option.some.injEq] at h
    subst h
    exact .scanStart hcpu
  . next i hcpu =>
    split at h
    . next hi =>
      split at h
      . next hrunnable =>
        simp only [Option.some.injEq] at h
        subst h
        exact .dispatch ⟨i, hi⟩ hcpu hrunnable
      . next hrunnable =>
        simp only [Option.some.injEq] at h
        subst h
        exact .scanSkip ⟨i, hi⟩ hcpu hrunnable
    . next hi =>
      simp only [Option.some.injEq] at h
      subst h
      exact .scanEnd i hcpu hi
  . simp at h

theorem waitScan_cases {p : Slot} {two : Bool} (hcpu : s.cpu = .run p) (hscan : Scans s p e two)
    : Step k s e (s.waitScan k p two).2 (s.waitScan k p two).1 := by
  unfold waitScan
  split
  . next c hc =>
    have hchild := findSlot_eq_some hc
    simp only [Bool.decide_and, Bool.and_eq_true, decide_eq_true_eq] at hchild
    exact .reap p c e two hcpu hscan hchild.1 hchild.2
  . next hnone =>
    split
    . next hfail =>
      apply Step.waitFail p e two hcpu hscan
      simpa using hfail
    . apply Step.waitSleep p e two hcpu hscan
      intro c hparent hzombie
      have := findSlot_eq_none hnone c
      simp [hparent, hzombie] at this

theorem syscall_cases {p : Slot} (call : Call) (hcpu : s.cpu = .run p)
    (hpc : (s.ptable p).pc = .user)
    : Step k s (.syscall call) (s.syscall k p call).2 (s.syscall k p call).1 := by
  unfold syscall
  split
  . next hkilled => exact .sysKilled p call hcpu hpc hkilled
  . next hkilled =>
    simp only [Bool.not_eq_true] at hkilled
    cases call with
    | kill pid => exact .sysKill p pid hcpu hpc hkilled
    | fork =>
      dsimp only
      unfold allocproc
      split
      . next heq =>
        split at heq
        . simp at heq
        . next np hnp =>
          simp only [Option.some.injEq, Prod.mk.injEq] at heq
          obtain ⟨rfl, rfl⟩ := heq
          apply Step.sysFork p np hcpu hpc hkilled
          simpa using findSlot_eq_some hnp
      . exact .sysForkFull p hcpu hpc hkilled
    | wait => exact waitScan_cases hcpu (.wait hpc hkilled)
    | wait2 => exact waitScan_cases hcpu (.wait2 hpc hkilled)
    | exit => exact .sysExit p hcpu hpc hkilled
    | other => exact .sysOther p hcpu hpc hkilled

theorem forkNext_cases {p : Slot} {ok : Bool} (hcpu : s.cpu = .run p)
    (h : s.forkNext p ok = some (s', o))
    : Step k s (.forkNext ok) o s' := by
  unfold forkNext at h
  split at h
  . next np hpc =>
    cases ok with
    | true =>
      simp only [↓reduceIte, Option.some.injEq, Prod.mk.injEq] at h
      obtain ⟨rfl, rfl⟩ := h
      exact .forkKstack p np hcpu hpc
    | false =>
      simp only [Bool.false_eq_true, ↓reduceIte, Option.some.injEq, Prod.mk.injEq] at h
      obtain ⟨rfl, rfl⟩ := h
      exact .forkFail p np hcpu (.inl hpc)
  . next np hpc =>
    cases ok with
    | true =>
      simp only [↓reduceIte, Option.some.injEq, Prod.mk.injEq] at h
      obtain ⟨rfl, rfl⟩ := h
      exact .forkCopy p np hcpu hpc
    | false =>
      simp only [Bool.false_eq_true, ↓reduceIte, Option.some.injEq, Prod.mk.injEq] at h
      obtain ⟨rfl, rfl⟩ := h
      exact .forkFail p np hcpu (.inr hpc)
  . next np hpc =>
    simp only [Option.some.injEq, Prod.mk.injEq] at h
    obtain ⟨rfl, rfl⟩ := h
    exact .forkPublish p np ok hcpu hpc
  . simp at h

theorem procStep_cases {p : Slot} (hcpu : s.cpu = .run p) (h : s.procStep k p e = some (s', o))
    : Step k s e o s' := by
  unfold procStep at h
  split at h
  . next hpc =>
    simp only [Option.some.injEq, Prod.mk.injEq] at h
    obtain ⟨rfl, rfl⟩ := h
    exact .fault p hcpu hpc
  . next call hpc =>
    simp only [Option.some.injEq] at h
    have := syscall_cases (k := k) call hcpu hpc
    rwa [h] at this
  . next chan hpc =>
    split at h
    . next hchan =>
      simp only [Option.some.injEq, Prod.mk.injEq] at h
      obtain ⟨rfl, rfl⟩ := h
      exact .sleep p chan hcpu (.inl hpc) hchan
    . simp at h
  . next chan intr hpc =>
    split at h
    . next hchan =>
      simp only [Option.some.injEq, Prod.mk.injEq] at h
      obtain ⟨rfl, rfl⟩ := h
      exact .sleep p chan hcpu (.inr ⟨intr, hpc⟩) hchan
    . simp at h
  . next chan hpc =>
    simp only [Option.some.injEq, Prod.mk.injEq] at h
    obtain ⟨rfl, rfl⟩ := h
    exact .wakeup p chan hcpu (.inl hpc)
  . next chan intr hpc =>
    simp only [Option.some.injEq, Prod.mk.injEq] at h
    obtain ⟨rfl, rfl⟩ := h
    exact .wakeup p chan hcpu (.inr ⟨intr, hpc⟩)
  . next hpc =>
    simp only [Option.some.injEq, Prod.mk.injEq] at h
    obtain ⟨rfl, rfl⟩ := h
    exact .done p hcpu hpc
  . exact forkNext_cases hcpu h
  . next two hpc =>
    simp only [Option.some.injEq] at h
    have := waitScan_cases (k := k) hcpu (.again two hpc)
    rwa [h] at this
  . next hpc =>
    simp only [Option.some.injEq, Prod.mk.injEq] at h
    obtain ⟨rfl, rfl⟩ := h
    exact .ret p hcpu hpc
  . next intr hpc =>
    split at h
    . next hinit =>
      simp only [Option.some.injEq, Prod.mk.injEq] at h
      obtain ⟨rfl, rfl⟩ := h
      exact .exitInit p intr hcpu hpc hinit
    . next hinit =>
      simp only [Option.some.injEq, Prod.mk.injEq] at h
      obtain ⟨rfl, rfl⟩ := h
      exact .exit p intr hcpu hpc hinit
  . simp at h

theorem step_cases (h : s.step k e = some (s', o)) : Step k s e o s' := by
  unfold step at h
  split at h
  . cases hs : s.schedule k with
    | none => simp [hs] at h
    | some t =>
      simp only [hs, Option.map_some, Option.some.injEq, Prod.mk.injEq] at h
      obtain ⟨rfl, rfl⟩ := h
      exact schedule_cases hs
  . next yields =>
    split at h
    . next hon =>
      simp only [Option.some.injEq, Prod.mk.injEq] at h
      obtain ⟨rfl, rfl⟩ := h
      apply intrEnd_cases (.timer yields) rfl hon
      simp
    . simp at h
  . next chan =>
    split at h
    . next hon =>
      simp only [Option.some.injEq, Prod.mk.injEq] at h
      obtain ⟨rfl, rfl⟩ := h
      apply intrEnd_cases (.intr chan) rfl hon
      simp
    . simp at h
  . split at h
    . next p hcpu => exact procStep_cases hcpu h
    . simp at h

end State

end Xv6
