import Mathlib.Data.Option.Basic
import Xv6.Proc.Accounting

/-!
The two lab 6 kernels side by side. They go through the same process states, because no decision of the
process table code reads a counter. What they report through `wait2` differs by the ticks that arrived
while the child was still an embryo.
-/

namespace Xv6

structure Proc.Agree (r r' : Proc) : Prop where
  state : r.state = r'.state
  pid : r.pid = r'.pid
  parent : r.parent = r'.parent
  chan : r.chan = r'.chan
  killed : r.killed = r'.killed
  pc : r.pc = r'.pc

namespace State

structure Agree (s t : State) : Prop where
  table : ∀ p, (s.ptable p).Agree (t.ptable p)
  nextpid : s.nextpid = t.nextpid
  ticks : s.ticks = t.ticks
  initproc : s.initproc = t.initproc
  cpu : s.cpu = t.cpu

variable {k j : Accounting} {s t : State}

theorem Agree.modify (h : Agree s t) {p : Slot} {f g : Proc → Proc}
    (hf : (f (s.ptable p)).Agree (g (t.ptable p)))
    : Agree (s.modify p f) (t.modify p g) where
  table q := by
    by_cases hq : q = p
    . subst hq
      simpa using hf
    . simpa [hq] using h.table q
  nextpid := h.nextpid
  ticks := h.ticks
  initproc := h.initproc
  cpu := h.cpu

theorem Agree.setPc (h : Agree s t) (p : Slot) (pc : Pc) : Agree (s.setPc p pc) (t.setPc p pc) := by
  apply h.modify
  have := h.table p
  exact ⟨this.state, this.pid, this.parent, this.chan, this.killed, rfl⟩

theorem Agree.setCpu (h : Agree s t) (c : Cpu) : Agree { s with cpu := c } { t with cpu := c } :=
  ⟨h.table, h.nextpid, h.ticks, h.initproc, rfl⟩

theorem wakeFor_agree {r r' : Proc} (h : r.Agree r') (ticks : Word) (f : Chan → Bool)
    : (r.wakeFor k ticks f).Agree (r'.wakeFor j ticks f) := by
  unfold Proc.wakeFor
  rw [h.state, h.chan]
  split
  . exact ⟨rfl, h.pid, h.parent, h.chan, h.killed, h.pc⟩
  . exact h

theorem Agree.wakeup1 (h : Agree s t) (chan : Chan)
    : Agree (s.wakeup1 k chan) (t.wakeup1 j chan) where
  table q := by
    rw [wakeup1_ptable, wakeup1_ptable, h.ticks]
    exact wakeFor_agree (h.table q) _ _
  nextpid := h.nextpid
  ticks := h.ticks
  initproc := h.initproc
  cpu := h.cpu

theorem Agree.tick (h : Agree s t) : Agree (s.tick k) (t.tick j) where
  table q := by
    rw [tick_ptable, tick_ptable, h.ticks]
    apply wakeFor_agree
    have := h.table q
    exact ⟨this.state, this.pid, this.parent, this.chan, this.killed, this.pc⟩
  nextpid := h.nextpid
  ticks := by rw [tick_ticks, tick_ticks, h.ticks]
  initproc := h.initproc
  cpu := h.cpu

theorem Agree.yield (h : Agree s t) (p : Slot) : Agree (s.yield k p) (t.yield j p) := by
  apply Agree.setCpu
  apply h.modify
  have := h.table p
  exact ⟨rfl, this.pid, this.parent, this.chan, this.killed, this.pc⟩

theorem Agree.sleep (h : Agree s t) (p : Slot) (chan : Chan)
    : Agree (s.sleep k p chan) (t.sleep j p chan) := by
  apply Agree.setCpu
  apply h.modify
  have := h.table p
  exact ⟨rfl, this.pid, this.parent, rfl, this.killed, this.pc⟩

theorem Agree.dispatch (h : Agree s t) (p : Slot)
    : Agree (s.dispatch k p Proc.resume) (t.dispatch j p Proc.resume) := by
  apply Agree.setCpu
  apply h.modify
  have := h.table p
  unfold Proc.resume Proc.dispatch
  dsimp only
  rw [this.pc]
  split
  . exact ⟨rfl, this.pid, this.parent, rfl, this.killed, by rw [this.killed]⟩
  . exact ⟨rfl, this.pid, this.parent, rfl, this.killed, rfl⟩

theorem Agree.exitWakes (h : Agree s t) (cur : Slot) : s.exitWakes cur = t.exitWakes cur := by
  funext c
  unfold State.exitWakes
  simp only [(h.table _).parent, (h.table _).state, h.initproc]

theorem Agree.exit (h : Agree s t) (cur : Slot) : Agree (s.exit k cur) (t.exit j cur) := by
  obtain ⟨hticks, hinit, hcpu, hpid⟩ := s.exit_frame k cur
  obtain ⟨hticks', hinit', hcpu', hpid'⟩ := t.exit_frame j cur
  constructor
  . intro q
    have hq : ((s.ptable q).orphan cur s.initproc).Agree ((t.ptable q).orphan cur t.initproc) := by
      have hq := h.table q
      constructor <;> simp only [Proc.orphan_state, Proc.orphan_pid, Proc.orphan_parent,
        Proc.orphan_chan, Proc.orphan_killed, Proc.orphan_pc, hq.state, hq.pid, hq.parent, hq.chan,
        hq.killed, hq.pc, h.initproc]
    have hw := wakeFor_agree (k := k) (j := j) hq t.ticks (t.exitWakes cur)
    rw [exit_ptable, exit_ptable, h.exitWakes cur, h.ticks]
    dsimp only
    split
    . exact ⟨rfl, hw.pid, hw.parent, hw.chan, hw.killed, hw.pc⟩
    . exact hw
  . rw [hpid, hpid', h.nextpid]
  . rw [hticks, hticks', h.ticks]
  . rw [hinit, hinit', h.initproc]
  . rw [hcpu, hcpu']

theorem findSlot_congr {f g : Slot → Bool} (h : ∀ p, f p = g p) : findSlot f = findSlot g := by
  rw [funext h]

theorem Agree.kill (h : Agree s t) (pid : Word)
    : Agree (s.kill k pid).1 (t.kill j pid).1 ∧ (s.kill k pid).2 = (t.kill j pid).2 := by
  have hfind : findSlot (fun p => (s.ptable p).pid = pid) = findSlot (fun p => (t.ptable p).pid = pid) := by
    apply findSlot_congr
    intro p
    rw [(h.table p).pid]
  rcases s.kill_cases k pid with ⟨p, hp, hs⟩ | ⟨hp, hs⟩
  . rcases t.kill_cases j pid with ⟨q, hq, ht⟩ | ⟨hq, ht⟩
    . rw [hfind, hq, Option.some.injEq] at hp
      subst hp
      rw [hs, ht]
      refine ⟨h.modify ?_, rfl⟩
      have := h.table q
      unfold Proc.kill
      rw [this.state]
      split
      . exact ⟨rfl, this.pid, this.parent, this.chan, rfl, this.pc⟩
      . exact ⟨rfl, this.pid, this.parent, this.chan, rfl, this.pc⟩
    . simp [hfind, hq] at hp
  . rcases t.kill_cases j pid with ⟨q, hq, ht⟩ | ⟨hq, ht⟩
    . simp [hfind, hq] at hp
    . rw [hs, ht]
      exact ⟨h, rfl⟩

-- The results of one event in the two kernels, up to what `wait2` stores.
def erase : Output → Output
  | .times pid _ _ => .times pid 0 0
  | o => o

inductive AgreeStep : Option (State × Output) → Option (State × Output) → Prop where
  | none : AgreeStep none none
  | some {s t : State} {o o' : Output} : Agree s t → erase o = erase o' → AgreeStep (some (s, o)) (some (t, o'))

theorem Agree.waitScan (h : Agree s t) (p : Slot) (two : Bool)
    : AgreeStep (some (s.waitScan k p two)) (some (t.waitScan j p two)) := by
  have hfind : s.findZombie p = t.findZombie p := by
    apply findSlot_congr
    intro c
    rw [(h.table c).parent, (h.table c).state]
  have hkids : s.havekids p = t.havekids p := by
    unfold State.havekids
    congr 1
    apply findSlot_congr
    intro c
    rw [(h.table c).parent]
  unfold State.waitScan
  rw [hfind]
  split
  . next c hc =>
    have hchild := h.table c
    apply AgreeStep.some
    . apply Agree.setPc
      apply h.modify
      exact ⟨rfl, rfl, rfl, hchild.chan, rfl, hchild.pc⟩
    . cases two <;> simp [erase, hchild.pid]
  . rw [hkids, (h.table p).killed]
    split
    . exact .some (h.setPc _ _) rfl
    . exact .some ((h.setPc _ _).sleep _ _) rfl

theorem Agree.syscall (h : Agree s t) (p : Slot) (call : Call)
    : AgreeStep (some (s.syscall k p call)) (some (t.syscall j p call)) := by
  unfold State.syscall
  rw [(h.table p).killed]
  split
  . exact .some (h.setPc _ _) rfl
  . cases call with
    | kill pid =>
      obtain ⟨hs, hval⟩ := h.kill (k := k) (j := j) pid
      exact .some (hs.setPc _ _) (congrArg (fun val => erase (.ret val)) hval)
    | fork =>
      have hfind : findSlot (fun p => (s.ptable p).state = .unused)
          = findSlot (fun p => (t.ptable p).state = .unused) := by
        apply findSlot_congr
        intro c
        rw [(h.table c).state]
      dsimp only
      unfold State.allocproc
      rw [hfind]
      cases findSlot (fun p => (t.ptable p).state = .unused) with
      | none => exact .some (h.setPc _ _) rfl
      | some np =>
        apply AgreeStep.some _ rfl
        apply Agree.setPc
        have hnp := h.table np
        have hm : Agree (s.modify np (.alloc k s.ticks s.nextpid)) (t.modify np (.alloc j t.ticks t.nextpid)) := by
          apply h.modify
          exact ⟨rfl, h.nextpid, hnp.parent, hnp.chan, hnp.killed, hnp.pc⟩
        exact ⟨hm.table, by rw [h.nextpid], hm.ticks, hm.initproc, hm.cpu⟩
    | wait => exact h.waitScan p false
    | wait2 => exact h.waitScan p true
    | exit => exact .some (h.setPc _ _) rfl
    | other => exact .some (h.setPc _ _) rfl

theorem Agree.forkNext (h : Agree s t) (p : Slot) (ok : Bool)
    : AgreeStep (s.forkNext p ok) (t.forkNext p ok) := by
  unfold State.forkNext
  rw [(h.table p).pc]
  split
  . next np _ =>
    have hnp := h.table np
    split
    . exact .some ((h.setPc _ _).setPc _ _) rfl
    . refine .some (Agree.setPc (h.modify ?_) _ _) rfl
      exact ⟨rfl, hnp.pid, hnp.parent, hnp.chan, hnp.killed, hnp.pc⟩
  . next np _ =>
    have hnp := h.table np
    split
    . refine .some (Agree.setPc (h.modify ?_) _ _) rfl
      exact ⟨hnp.state, hnp.pid, rfl, hnp.chan, hnp.killed, hnp.pc⟩
    . refine .some (Agree.setPc (h.modify ?_) _ _) rfl
      exact ⟨rfl, hnp.pid, hnp.parent, hnp.chan, hnp.killed, hnp.pc⟩
  . next np _ =>
    have hnp := h.table np
    refine .some (Agree.setPc (h.modify ?_) _ _) (by rw [hnp.pid])
    exact ⟨rfl, hnp.pid, hnp.parent, hnp.chan, hnp.killed, hnp.pc⟩
  . exact .none

theorem Agree.procStep (h : Agree s t) (p : Slot) (e : Event)
    : AgreeStep (s.procStep k p e) (t.procStep j p e) := by
  have hp := h.table p
  unfold State.procStep
  rw [hp.pc, hp.killed]
  split
  . refine .some (Agree.setPc (h.modify ?_) _ _) rfl
    exact ⟨hp.state, hp.pid, hp.parent, hp.chan, rfl, hp.pc⟩
  . exact h.syscall _ _
  . split
    . exact .some (h.sleep _ _) rfl
    . exact .none
  . split
    . exact .some (h.sleep _ _) rfl
    . exact .none
  . exact .some (h.wakeup1 _) rfl
  . exact .some (h.wakeup1 _) rfl
  . exact .some (h.setPc _ _) rfl
  . exact h.forkNext _ _
  . exact h.waitScan _ _
  . exact .some (h.setPc _ _) rfl
  . by_cases hinit : t.initproc = some p
    . rw [if_pos hinit, if_pos (h.initproc.trans hinit)]
      exact .some (h.setCpu _) rfl
    . rw [if_neg hinit, if_neg fun hs => hinit (h.initproc.symm.trans hs)]
      exact .some (h.exit _) rfl
  . exact .none

theorem Agree.intrEnd (h : Agree s t) (yields : Bool)
    : Agree (s.intrEnd k yields) (t.intrEnd j yields) := by
  unfold State.intrEnd
  rw [h.cpu]
  split
  . next p _ =>
    have hp := h.table p
    have hexit : s.forcedExit p = t.forcedExit p := by
      unfold forcedExit
      rw [hp.killed, hp.pc]
    unfold trapEnd
    rw [hexit, hp.state, hp.pc]
    split
    . exact h.setPc _ _
    . split
      . exact (h.setPc _ _).yield _
      . exact h
  . exact h

theorem Agree.intrOn (h : Agree s t) : s.intrOn = t.intrOn := by
  unfold State.intrOn
  rw [h.cpu]
  split
  . rfl
  . rw [(h.table _).pc]
  . rfl

theorem Agree.step (h : Agree s t) (e : Event) : AgreeStep (s.step k e) (t.step j e) := by
  unfold State.step
  split
  . unfold State.schedule
    rw [h.cpu]
    split
    . exact .some (h.setCpu _) rfl
    . split
      . rw [(h.table _).state]
        split
        . exact .some (h.dispatch _) rfl
        . exact .some (h.setCpu _) rfl
      . exact .some (h.setCpu _) rfl
    . exact .none
  . rw [h.intrOn]
    split
    . exact .some (h.tick.intrEnd _) rfl
    . exact .none
  . rw [h.intrOn]
    split
    . exact .some ((h.wakeup1 _).intrEnd _) rfl
    . exact .none
  . rw [h.cpu]
    split
    . exact h.procStep _ _
    . exact .none

theorem boot_agree : Agree (boot k) (boot j) where
  table p := by
    rw [boot_ptable, boot_ptable]
    split
    . exact ⟨rfl, rfl, rfl, rfl, rfl, rfl⟩
    . exact ⟨rfl, rfl, rfl, rfl, rfl, rfl⟩
  nextpid := by cases k <;> cases j <;> rfl
  ticks := by cases k <;> cases j <;> rfl
  initproc := by cases k <;> cases j <;> rfl
  cpu := by rw [boot_cpu, boot_cpu]

theorem Agree.clock {s' t' : State} (h : Agree s t) (h' : Agree s' t') (e : Event) (c : Slot → Clock)
    : clock s e s' c = clock t e t' c := by
  funext p
  unfold State.clock
  rw [(h.table p).state, (h'.table p).state]

-- One history for both kernels.
def clock2 (x : State × State) (e : Event) (x' : State × State) (c : Slot → Clock) : Slot → Clock :=
  clock x.1 e x'.1 c

structure Paired (x : (State × State) × (Slot → Clock)) : Prop where
  agree : Agree x.1.1 x.1.2
  snapshot : Timed .snapshot (x.1.1, x.2)
  perTick : Timed .perTick (x.1.2, x.2)

theorem boot_paired : Paired ((boot .snapshot, boot .perTick), fun _ => .zero) :=
  ⟨boot_agree, boot_timed, boot_timed⟩

theorem step_paired {x x' : (State × State) × (Slot → Clock)} {e : Event} {o : Output × Output}
    (hx : Paired x)
    (hstep : Machine.watch (Machine.both (step .snapshot) (step .perTick)) clock2 x e = some (x', o))
    : Paired x' ∧ erase o.1 = erase o.2 := by
  obtain ⟨hboth, hclock⟩ := Machine.watch_eq_some hstep
  obtain ⟨hs, ht⟩ := Machine.both_eq_some hboth
  have hagree := hx.agree.step (k := .snapshot) (j := .perTick) e
  rw [hs, ht] at hagree
  cases hagree with
  | some hagree ho =>
    refine ⟨⟨hagree, ?_, ?_⟩, ho⟩
    . rw [hclock]
      exact step_timed hx.snapshot (Machine.watch_of_step clock x.2 hs)
    . have hclock' : x'.2 = State.clock x.1.2 e x'.1.2 x.2 := by
        rw [hclock, ← hx.agree.clock hagree]
        rfl
      rw [hclock']
      exact step_timed hx.perTick (Machine.watch_of_step clock x.2 ht)

theorem run_isSome_of_agree (h : Agree s t) (es : List Event)
    : (Machine.run (step k) s es).isSome = (Machine.run (step j) t es).isSome := by
  apply Machine.run_isSome_of_lockstep (R := Agree) _ h
  intro s t e h
  have hstep := h.step (k := k) (j := j) e
  generalize s.step k e = rs at hstep ⊢
  generalize t.step j e = rt at hstep ⊢
  cases hstep with
  | none => exact .inl ⟨rfl, rfl⟩
  | some h' ho => exact .inr ⟨_, _, _, _, rfl, rfl, h'⟩

theorem run_isSome_of_both (h : Agree s t) (es : List Event)
    : (Machine.run (Machine.both (step k) (step j)) (s, t) es).isSome
        =
      (Machine.run (step k) s es).isSome := by
  apply Machine.run_isSome_of_lockstep (R := fun x s => x.1 = s ∧ Agree x.1 x.2) _ ⟨rfl, h⟩
  rintro ⟨s, t⟩ _ e ⟨rfl, h⟩
  have hstep := h.step (k := k) (j := j) e
  unfold Machine.both
  generalize s.step k e = rs at hstep ⊢
  generalize t.step j e = rt at hstep ⊢
  cases hstep with
  | none => exact .inl ⟨rfl, rfl⟩
  | some h' ho => exact .inr ⟨_, _, _, _, rfl, rfl, rfl, h'⟩

theorem wtime_eq_iff (m n : Nat)
    : (BitVec.ofNat 32 (m + n) = BitVec.ofNat 32 n) ↔ m % 2 ^ 32 = 0 := by
  rw [BitVec.ofNat_add]
  rw [show BitVec.ofNat 32 m + BitVec.ofNat 32 n = BitVec.ofNat 32 n ↔ BitVec.ofNat 32 m = 0 by grind]
  rw [← BitVec.toNat_inj]
  simp

/--
Every trace of events is a trace of both kernels, and up to the times they return the same. The times
that `wait2` stores for a child agree exactly if no tick has found this child as an embryo.
-/
theorem wait2_agrees_iff_no_embryo_tick (es : List Event)
    : let pair := Machine.both (step .snapshot) (step .perTick)
      let start := (boot .snapshot, boot .perTick)
      (Machine.run pair start es).isSome = (Machine.run (step .snapshot) (boot .snapshot) es).isSome ∧
      (Machine.run pair start es).isSome = (Machine.run (step .perTick) (boot .perTick) es).isSome ∧
      Machine.Along (Machine.watch pair clock2)
        (fun x _ o x' => erase o.1 = erase o.2 ∧
          ∀ pid wtime rutime wtime' rutime',
            o = (.times pid wtime rutime, .times pid wtime' rutime') →
            rutime = rutime' ∧
            ∃ p c, x.1.1.cpu = .run p ∧ (x.1.1.ptable c).parent = some p ∧
              (x.1.1.ptable c).state = .zombie ∧ (x'.1.1.ptable c).state = .unused ∧
              pid = (x.1.1.ptable c).pid ∧ (wtime = wtime' ↔ (x.2 c).embryo % 2 ^ 32 = 0))
        (start, fun _ => .zero) es := by
  dsimp only
  have hpair := run_isSome_of_both (boot_agree (k := .snapshot) (j := .perTick)) es
    (k := .snapshot) (j := .perTick)
  refine ⟨hpair, ?_, ?_⟩
  . rw [hpair]
    exact run_isSome_of_agree boot_agree es
  . apply Machine.along_of_invariant (I := Paired) _ boot_paired (Machine.along_true _ _)
    intro x e o x' hx hstep _
    obtain ⟨hx', herase⟩ := step_paired hx hstep
    refine ⟨⟨herase, ?_⟩, hx'⟩
    intro pid wtime rutime wtime' rutime' ho
    obtain ⟨hs, ht⟩ := Machine.both_eq_some (Machine.watch_eq_some hstep).1
    rw [ho] at hs ht
    obtain ⟨p, c, hcpu, hparent, hzombie, hreap, hother, hpid, hwtime, hrutime⟩ := times_cases hs rfl
    obtain ⟨-, d, -, -, hzombie', hreap', -, -, hwtime', hrutime'⟩ := times_cases ht rfl
    -- both kernels free the same slot, since a step of the first one frees no second one
    have hcd : d = c := by
      by_contra hne
      have := hother d hne
      rw [(hx.agree.table d).state, (hx'.agree.table d).state, hzombie', hreap'] at this
      simp at this
    subst hcd
    have hw := (hx.snapshot.counted d).zombie_wtime hzombie
    have hw' := (hx.perTick.counted d).zombie_wtime hzombie'
    have hr := (hx.snapshot.counted d).zombie_rutime hzombie
    have hr' := (hx.perTick.counted d).zombie_rutime hzombie'
    refine ⟨by rw [hrutime, hrutime', hr, hr'], p, d, hcpu, hparent, hzombie, hreap, hpid, ?_⟩
    rw [hwtime, hwtime', hw, hw']
    exact wtime_eq_iff _ _

-- The timer ticks while the child of `init` has a slot but no kernel stack yet.
def embryoTick : List Event :=
  [.schedule, .schedule, .done, .ret, .syscall .fork, .timer true] ++ List.replicate 66 .schedule ++
    [.forkNext true, .forkNext true, .forkNext true, .ret, .syscall .wait2, .schedule, .syscall .exit,
      .exitNext] ++ List.replicate 65 .schedule ++ [.waitNext]

theorem wait2_disagrees_on_embryoTick
    : (Machine.outputs (kstep .snapshot) (boot .snapshot) embryoTick).getLast? = some (.times 2 1 0) ∧
      (Machine.outputs (kstep .perTick) (boot .perTick) embryoTick).getLast? = some (.times 2 0 0) ∧
      (Machine.run (kstep .snapshot) (boot .snapshot) embryoTick).isSome ∧
      (Machine.run (kstep .perTick) (boot .perTick) embryoTick).isSome := by
  decide +kernel

end State

end Xv6
