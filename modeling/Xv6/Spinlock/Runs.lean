import Xv6.Spinlock.Switch

/-!
What holds in every run.
-/

namespace Xv6.Spinlock

variable {κ ι L : Type} [DecidableEq κ] [DecidableEq ι] [DecidableEq L]
variable {cpu : Cpu ι L} {s t : State κ ι L} {c c' : κ} {lk ptable : L} {p : ι} {R : L → L → Prop} {f : Caller}
variable {e : Event κ ι L} {msg : String}

section

variable (h : Inv R ptable s)

include h

-- `holding` has said that the lock may be given back.
theorem inv_giveBack (hpc : (s.cpu c).pc = .holding .release lk) (hmem : lk ∈ s.held c)
    (hproc : cpu.proc = (s.cpu c).proc)
    (hdeep : (Local.of cpu (s.thread (s.current c))).Deep 0)
    : Inv R ptable ((s.setThread (s.current c)
        { s.thread (s.current c) with held := (s.thread (s.current c)).held.erase lk }).setPc c cpu (.clearCpu lk)) := by
  have hnodup := hdeep.nodup
  have hbusy : (s.cpu c).pc.busy = none := by
    rw [hpc]
    rfl
  have hmem' : lk ∈ (s.thread (s.current c)).held := hmem
  have herase : ∀ x, x ∈ (s.thread (s.current c)).held.erase lk ∨ x = lk ↔ x ∈ s.held c := by
    intro x
    change _ ↔ x ∈ (s.thread (s.current c)).held
    by_cases hx : x = lk
    . rw [hx]
      exact ⟨fun _ => hmem', fun _ => .inr rfl⟩
    . rw [List.mem_erase_of_ne hx]
      exact ⟨fun hor => hor.resolve_right hx, .inl⟩
  change Inv R ptable (s.put c { cpu with pc := .clearCpu lk }
    { s.thread (s.current c) with held := (s.thread (s.current c)).held.erase lk })
  apply h.put
  . exact hproc
  . intro x heq
    cases heq
  . rw [hpc]
    intro heq
    cases heq
  . refine ⟨⟨?_, hdeep.eflags, hdeep.flag, hnodup.erase lk⟩, ?_, fun _ heq => (by cases heq)⟩
    . have hncli : cpu.ncli = (s.thread (s.current c)).held.length + 0 := hdeep.ncli
      have hpos := List.length_pos_of_mem hmem'
      change cpu.ncli = ((s.thread (s.current c)).held.erase lk).length + 1
      rw [List.length_erase_of_mem hmem']
      omega
    . rintro x heq
      cases heq
      exact hnodup.not_mem_erase
  . intro x
    rw [Local.owns_iff (l := s.loc c) hbusy]
    refine Iff.trans ?_ (herase x)
    exact or_congr Iff.rfl ⟨fun heq => (Option.some.inj heq).symm, fun heq => by rw [heq]; rfl⟩
  . intro x
    rw [Local.signs_iff (l := s.loc c) (Pc.ne_clearCpu hbusy x)]
    refine Iff.trans ?_ (herase x)
    exact or_congr Iff.rfl ⟨fun heq => (Pc.clearCpu.inj heq).symm, fun heq => congrArg Pc.clearCpu heq.symm⟩

omit [DecidableEq κ] [DecidableEq ι] [DecidableEq L] in
theorem Inv.popcli {n : Nat} (hpc : (s.cpu c).pc.depth = n + 1)
    : ∃ cpu, (s.cpu c).popcli = .ok cpu ∧ (Local.of cpu (s.thread (s.current c))).Deep n ∧
        cpu.proc = (s.cpu c).proc := by
  have hdeep := h.deep c
  rw [hpc] at hdeep
  obtain ⟨cpu, hpop, hdeep', hproc, -, -⟩ := hdeep.popcli
  exact ⟨cpu, hpop, hdeep', hproc⟩

theorem inv_next (hs : s.next c = some t) (ht : t.panic = none) : Inv R ptable t := by
  unfold State.next at hs
  dsimp only at hs
  cases hpc : (s.cpu c).pc with
  | code =>
    rw [hpc] at hs
    cases hs
  | holding f lk =>
    have hbusy : (s.cpu c).pc.busy = none := by
      rw [hpc]
      rfl
    have hsigned : (s.lock lk).cpu = some c ↔ lk ∈ s.held c := h.signed (Pc.ne_clearCpu hbusy)
    rw [hpc, Option.some.injEq] at hs
    cases f with
    | acquire =>
      obtain ⟨cpu, hpop, hdeep, hproc⟩ := h.popcli (n := 1) (by rw [hpc]; rfl)
      rw [hpop] at hs
      by_cases hmem : lk ∈ s.held c
      . rw [decide_eq_true (hsigned.mpr hmem)] at hs
        rw [← hs] at ht
        cases ht
      . rw [decide_eq_false (fun heq => hmem (hsigned.mp heq))] at hs
        have heq : t = s.put c { cpu with pc := .spin lk } (s.thread (s.current c)) := by
          rw [← hs, ← State.setPc_eq]
          rfl
        rw [heq]
        have hnext : ({ cpu with pc := .spin lk } : Cpu ι L).proc = (s.cpu c).proc := hproc
        refine h.quiet hnext (fun _ heq => by cases heq) ?_ (hdeep.setPc _) rfl rfl hbusy rfl ?_
        . rw [hpc]
          intro heq
          cases heq
        . intro x heq
          cases heq
          apply (h.locks.good c).order lk
          change (s.cpu c).pc.wants = some lk
          rw [hpc]
          rfl
    | release =>
      obtain ⟨cpu, hpop, hdeep, hproc⟩ := h.popcli (n := 0) (by rw [hpc]; rfl)
      rw [hpop] at hs
      by_cases hmem : lk ∈ s.held c
      . rw [decide_eq_true (hsigned.mpr hmem)] at hs
        rw [← hs]
        exact inv_giveBack h hpc hmem hproc hdeep
      . rw [decide_eq_false (fun heq => hmem (hsigned.mp heq))] at hs
        rw [← hs] at ht
        cases ht
    | sched =>
      obtain ⟨cpu, hpop, hdeep, hproc⟩ := h.popcli (n := 0) (by rw [hpc]; rfl)
      obtain ⟨rfl, hmem, hsome⟩ := h.placed.sched lk c hpc
      obtain ⟨p, hp⟩ := Option.ne_none_iff_exists'.mp hsome
      rw [hp] at hproc
      have hoff : cpu.eflags = false := by
        apply hdeep.eflags
        have hncli : cpu.ncli = (s.held c).length + 0 := hdeep.ncli
        have hpos := List.length_pos_of_mem hmem
        change 0 < cpu.ncli
        omega
      rw [hpop, decide_eq_true (hsigned.mpr hmem)] at hs
      change s.swtch c cpu = t at hs
      unfold State.swtch Cpu.mycpu at hs
      rw [hoff, if_neg Bool.false_ne_true, hproc] at hs
      dsimp only [State.orPanic] at hs
      split at hs
      . rw [← hs] at ht
        cases ht
      . next hone =>
        split at hs
        . rw [← hs] at ht
          cases ht
        . next hstate =>
          rw [if_neg Bool.false_ne_true] at hs
          have hleave := inv_leave h hp hpc hproc hdeep (not_not.mp hone) hstate
          rw [hoff] at hleave
          rw [← hs]
          exact hleave
  | spin lk =>
    rw [hpc] at hs
    dsimp only at hs
    split at hs
    . cases hs
      exact h
    . next hfree =>
      cases hs
      exact inv_spin h hpc hfree
  | setCpu lk =>
    have hdeep := h.deep c
    rw [hpc] at hdeep
    rw [hpc, hdeep.mycpu] at hs
    cases hs
    exact inv_setCpu h hpc
  | clearCpu lk =>
    rw [hpc] at hs
    cases hs
    exact inv_clearCpu h hpc
  | clearLocked lk =>
    obtain ⟨cpu, hpop, -, -⟩ := h.popcli (n := 0) (by rw [hpc]; rfl)
    rw [hpc, hpop] at hs
    cases hs
    exact inv_clearLocked h hpc hpop

omit [DecidableEq L] in
-- Interrupts go on only where nothing is held.
theorem inv_trap {k : Kthread L} {b : Bool} (hfree : s.free c) (hheld : k.held = s.held c)
    (hflag : k.flag = (s.thread (s.current c)).flag) (hb : b = true → s.held c = [])
    : Inv R ptable (s.put c { s.cpu c with eflags := b } k) := by
  have hdeep := h.deep c
  rw [hfree.2] at hdeep
  have hbusy : (s.cpu c).pc.busy = none := by
    rw [hfree.2]
    rfl
  have hsame : ({ s.cpu c with eflags := b } : Cpu ι L).proc = (s.cpu c).proc := rfl
  have hncli : (s.cpu c).ncli = (s.held c).length + 0 := hdeep.ncli
  refine h.quiet (n := 0) hsame ?_ ?_ ⟨?_, ?_, ?_, ?_⟩ ?_ hbusy hbusy hheld ?_
  . change ∀ lk, (s.cpu c).pc ≠ _
    rw [hfree.2]
    intro x heq
    cases heq
  . rw [hfree.2]
    intro heq
    cases heq
  . change (s.cpu c).ncli = k.held.length + 0
    rw [hheld]
    exact hncli
  . intro hpos
    change 0 < (s.cpu c).ncli at hpos
    change b = false
    cases b with
    | false => rfl
    | true =>
      rw [hb rfl] at hncli
      rw [hncli] at hpos
      exact absurd hpos (Nat.lt_irrefl 0)
  . intro hpos x hx
    change k.flag = some x at hx
    rw [hflag] at hx
    exact hdeep.flag hpos x hx
  . change k.held.Nodup
    rw [hheld]
    exact hdeep.nodup
  . change (s.cpu c).pc.depth = 0
    rw [hfree.2]
    rfl
  . intro x heq
    change (s.cpu c).pc.wants = some x at heq
    rw [hfree.2] at heq
    cases heq

-- What no event but `acquire` has to do for the order of the locks.
def Event.Ordered (R : L → L → Prop) (s : State κ ι L) : Event κ ι L → Prop
  | .acquire c lk => ∀ x ∈ s.held c, R x lk
  | _ => True

theorem inv_event (horder : e.Ordered R s) (hs : s.event ptable e = some t) (ht : t.panic = none) : Inv R ptable t := by
  cases e with
  | acquire c lk =>
    unfold State.event at hs
    dsimp only at hs
    split at hs
    . next hfree =>
      cases hs
      exact inv_acquire h hfree.2 horder ht
    . cases hs
  | release c lk =>
    unfold State.event at hs
    dsimp only at hs
    split at hs
    . next hfree =>
      cases hs
      exact inv_release h hfree.2 ht
    . cases hs
  | sched c state =>
    unfold State.event at hs
    dsimp only at hs
    split at hs
    . cases hs
    . next p hp =>
      split at hs
      . next hcond =>
        cases hs
        exact inv_sched h hcond.1 hp hcond.2
      . cases hs
  | step c =>
    unfold State.event at hs
    dsimp only at hs
    split at hs
    . exact inv_next h hs ht
    . cases hs
  | intr c =>
    unfold State.event at hs
    dsimp only at hs
    split at hs
    . next hcond =>
      cases hs
      exact inv_trap h hcond.1 rfl rfl fun heq => (by cases heq)
    . cases hs
  | iret c =>
    unfold State.event at hs
    dsimp only at hs
    split at hs
    . next hcond =>
      cases hs
      exact inv_trap h hcond.1 rfl rfl fun _ => hcond.2.1
    . cases hs
  | sti c =>
    unfold State.event at hs
    dsimp only at hs
    split at hs
    . next hcond =>
      cases hs
      rw [State.setCpu_eq]
      exact inv_trap h hcond.1 rfl rfl fun _ => hcond.2.1
    . cases hs
  | dispatch c p =>
    unfold State.event at hs
    dsimp only at hs
    split at hs
    . next hcond =>
      cases hs
      exact (inv_dispatch h hcond.1 hcond.2.1 hcond.2.2.1 hcond.2.2.2.1 hcond.2.2.2.2).1
    . cases hs
  | alloc c p =>
    unfold State.event at hs
    dsimp only at hs
    split at hs
    . next hcond =>
      cases hs
      exact inv_alloc h hcond.2
    . cases hs
  | ready c p =>
    unfold State.event at hs
    dsimp only at hs
    split at hs
    . next hcond =>
      cases hs
      apply inv_ready h (h.off_of_state (.inr hcond.2))
      rw [hcond.2]
      intro heq
      cases heq
    . cases hs
  | discard c p =>
    unfold State.event at hs
    dsimp only at hs
    split at hs
    . next hcond =>
      cases hs
      exact inv_setProc h (h.off_of_state (.inr hcond.2)) (.inl rfl)
    . cases hs
  | wakeup c p =>
    unfold State.event at hs
    dsimp only at hs
    split at hs
    . next hcond =>
      cases hs
      apply inv_ready h
      . apply h.off_of_locked hcond.1
        rw [hcond.2]
        intro heq
        cases heq
      . rw [hcond.2]
        intro heq
        cases heq
    . cases hs
  | reap c p =>
    unfold State.event at hs
    dsimp only at hs
    split at hs
    . next hcond =>
      cases hs
      apply inv_setProc h _ (.inl rfl)
      apply h.off_of_locked hcond.1
      rw [hcond.2]
      intro heq
      cases heq
    . cases hs

end

end Xv6.Spinlock
