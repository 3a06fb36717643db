import Xv6.Proc.Preempt
import Xv6.Proc.Wait

/-!
The same test in the kernel that counts every tick. Here `rutime` is current when `trap` reads it, and the
test looks at the parity of all ticks that the process has run, so what is left of a time slice that ends in
`sleep` is there again in the next one.
-/

namespace Xv6

-- The history of a process: `rutime` at its last forced yield, and whether `rutime` has stayed below `2 ^ 31`.
structure Forced where
  last : Option Word
  below : Bool

-- `rutime` at the last forced yield, or at the start.
def Forced.base (h : Forced) : Nat :=
  match h.last with
  | none => 0
  | some r => r.toNat

namespace State

variable {k : Accounting} {s s' : State} {e : Event} {o : Output} {p : Slot}

-- The step in which `trap` calls `yield()` for `p`.
def forced (s : State) (e : Event) (s' : State) (p : Slot) : Bool :=
  e.isTimer ∧ s.cpu = .run p ∧ (s'.ptable p).state = .runnable

def forcings (s : State) (e : Event) (s' : State) (h : Slot → Forced) (p : Slot) : Forced where
  last :=
    if s.claimed s' p then none
    else if s.forced e s' p then some (s'.ptable p).rutime
    else (h p).last
  below := (s.claimed s' p || (h p).below) && (s'.ptable p).rutime.toNat < 2 ^ 31

theorem moves_pid {ticks : Word} {r r' : Proc} (h : Moves k s ticks e p r r') (hr : r.state ≠ .unused)
    : (e = .syscall .fork → r'.state ≠ .unused) ∧ (r'.state ≠ .unused → r'.pid = r.pid) ∧
      (r.state ≠ .embryo → r'.state ≠ .embryo) := by
  induction h with
  | refl => exact ⟨fun _ => hr, fun _ => rfl, id⟩
  | tail _ hmove ih =>
    obtain ⟨hfork, hpid, hembryo⟩ := ih
    cases hmove with
    | alloc he hst => exact absurd hst (hfork he)
    | giveUp hgive hst =>
      refine ⟨?_, by simp, by simp⟩
      rintro rfl
      simp [givesUp] at hgive
    | reap two cur hcpu hscan hst =>
      refine ⟨?_, by simp [Proc.reap], by simp [Proc.reap]⟩
      rintro rfl
      cases hscan
    | setParent cur hcpu hne hst | forkret hst =>
      exact ⟨by simp [hst], fun _ => hpid (by simp [hst]), fun h => hembryo h⟩
    | publish hst => exact ⟨by simp, fun _ => hpid (by simp [hst]), by simp⟩
    | dispatch _ _ hst =>
      exact ⟨by simp [Proc.dispatch], fun _ => by simpa [Proc.dispatch] using hpid (by simp [hst]),
        by simp [Proc.dispatch]⟩
    | wakeup hst => exact ⟨by simp [Proc.wakeup], fun _ => hpid (by simp [hst]), by simp [Proc.wakeup]⟩
    | yield _ hst => exact ⟨by simp [Proc.yield], fun _ => hpid (by simp [hst]), by simp [Proc.yield]⟩
    | sleep _ _ hst => exact ⟨by simp [Proc.sleep], fun _ => hpid (by simp [hst]), by simp [Proc.sleep]⟩
    | exit _ _ _ hst => exact ⟨by simp [Proc.exit], fun _ => hpid (by simp [hst]), by simp [Proc.exit]⟩
    | orphan cur => exact ⟨by simpa using hfork, by simpa using hpid, by simpa using hembryo⟩
    | tick | setPc | fault | kill => exact ⟨hfork, hpid, hembryo⟩

-- An `exit` that `trap` has forced is never left again, also over sleeps.
theorem step_forcedExit (hs : s.Wf) (h : s.step k e = some (s', o)) (hpc : (s.ptable p).pc = .exit false)
    (hp : (s.ptable p).state ≠ .unused ∧ (s.ptable p).state ≠ .embryo)
    : (s'.ptable p).pc = .exit false := by
  have hset : ∀ {q : Slot} {pc : Pc} {t : State}, (t.ptable p).pc = .exit false → (s.ptable q).pc ≠ .exit false →
      ((t.setPc q pc).ptable p).pc = .exit false := by
    intro q pc t ht hq
    rw [setPc_ptable, if_neg]
    . exact ht
    . rintro rfl
      exact hq hpc
  have hscan : ∀ {q : Slot} {two : Bool}, Scans s q e two → (s.ptable q).pc ≠ .exit false := by
    intro q two hscan
    cases hscan <;> simp_all
  have hhandler : ∀ {t : State}, Handler k s e t → (t.ptable p).pc = .exit false := by
    intro t hh
    cases hh <;> simpa [Proc.tick] using hpc
  cases step_cases h with
  | scanStart | scanEnd | scanSkip | exitInit => exact hpc
  | dispatch q =>
    rw [dispatch_ptable]
    split
    . simp [Proc.resume, Proc.dispatch, hpc]
    . exact hpc
  | trapIdle _ _ hh | trapStay _ _ _ hh => exact hhandler hh
  | trapExit q _ t hh =>
    rw [setPc_ptable]
    split
    . rfl
    . exact hhandler hh
  | trapYield q pc hcpu hon =>
    have hq : p ≠ q := by
      rintro rfl
      simp [hpc, Pc.intrOn] at hon
    simpa [hq, Proc.tick] using hpc
  | sysKill q pid hcpu hq =>
    apply hset _ (by simp [hq])
    rcases s.kill_cases k pid with ⟨r, -, hkill⟩ | ⟨-, hkill⟩ <;> rw [hkill]
    . rw [modify_ptable]
      split
      . unfold Proc.kill
        split <;> exact hpc
      . exact hpc
    . exact hpc
  | fault q hcpu hq =>
    apply hset _ (by simp [hq])
    rw [modify_ptable]
    split <;> exact hpc
  | sysFork q np hcpu hq _ hnp =>
    apply hset _ (by simp [hq])
    have : p ≠ np := by
      rintro rfl
      exact hp.1 hnp
    simpa [this] using hpc
  | sysKilled _ _ _ hq | sysForkFull _ _ hq | sysExit _ _ hq | sysOther _ _ hq | done _ _ hq | ret _ _ hq =>
    exact hset hpc (by simp [hq])
  | waitFail _ _ _ _ hq => exact hset hpc (hscan hq)
  | reap q c _ two _ hq =>
    apply hset _ (hscan hq)
    rw [modify_ptable]
    split <;> exact hpc
  | waitSleep q _ two _ hq =>
    have : p ≠ q := by
      rintro rfl
      exact hscan hq hpc
    simpa [this] using hpc
  | sleep q chan =>
    rw [sleep_ptable]
    split <;> exact hpc
  | wakeup q chan => simpa using hpc
  | forkKstack q np hcpu hq =>
    have hembryo := hs.embryo q np (by rw [hq]; rfl)
    apply hset _ (by simp [hq])
    rw [setPc_ptable, if_neg]
    . exact hpc
    . rintro rfl
      exact hp.2 hembryo
  | forkFail q np hcpu hq =>
    apply hset
    . rw [modify_ptable]
      split <;> exact hpc
    . rcases hq with hq | hq <;> simp [hq]
  | forkCopy q np hcpu hq | forkPublish q np _ hcpu hq =>
    apply hset _ (by simp [hq])
    rw [modify_ptable]
    split <;> exact hpc
  | exit q =>
    rw [exit_ptable]
    dsimp only
    split <;> simpa [Proc.exit] using hpc

theorem life_rutime {ticks : Word} {r r' : Proc} (h : Life .perTick ticks r r') : r'.rutime = r.rutime := by
  induction h with
  | refl => rfl
  | tail _ ht ih =>
    rw [← ih]
    cases ht with
    | keep _ hc => rw [hc]
    | reap two => cases two <;> rfl
    | _ => rfl

theorem step_rutime (hs : s.Wf) (h : s.step .perTick e = some (s', o)) (hp : s.claimed s' p = false)
    : (s'.ptable p).rutime = (s.ptable p).rutime + if e.isTimer ∧ s.cpu = .run p then 1 else 0 := by
  rcases step_life hs h p with ⟨hu, -, pid, halloc⟩ | hlife
  . simp [claimed, hu, halloc, Proc.alloc] at hp
  . rw [life_rutime hlife]
    unfold ticked
    cases he : e.isTimer with
    | false => simp
    | true =>
      simp only [↓reduceIte, true_and, Proc.tick, Accounting.onTick]
      by_cases hcpu : s.cpu = .run p
      . rw [if_pos hcpu, hs.running p hcpu]
      . rw [if_neg hcpu]
        have : (s.ptable p).state ≠ .running := fun hr => hcpu (hs.cpu_eq h hr)
        cases hst : (s.ptable p).state <;> simp_all

/--
The ticks since the last forced yield are fewer than the quantum `n`. Only a process that `trap` has sent to
`exit` in place of `yield` can have used it up.
-/
structure Pace (n : Nat) (h : Forced) (r : Proc) : Prop where
  dvd : h.base % n = 0
  le : h.base ≤ r.rutime.toNat
  room : r.rutime.toNat < h.base + n ∨
    (r.rutime.toNat = h.base + n ∧ r.pc = .exit false ∧ r.state ≠ .embryo)

structure Paced (x : State × (Slot → Forced)) : Prop where
  wf : x.1.Wf
  below : ∀ p, (x.2 p).below = true → (x.1.ptable p).rutime.toNat < 2 ^ 31
  pace : ∀ p, (x.1.ptable p).state ≠ .unused → (x.2 p).below = true →
    Pace (x.1.sliceBound p) (x.2 p) (x.1.ptable p)

theorem Pace.start {n : Nat} {h : Forced} {r : Proc} (hn : 1 ≤ n) (hlast : h.last = none) (hr : r.rutime = 0)
    : Pace n h r := by
  have hbase : h.base = 0 := by
    unfold Forced.base
    rw [hlast]
  have hru : r.rutime.toNat = 0 := by
    rw [hr]
    rfl
  refine ⟨by simp [hbase], by omega, .inl ?_⟩
  omega

theorem Pace.keep {n : Nat} {h h' : Forced} {r r' : Proc} (hpace : Pace n h r) (hlast : h'.last = h.last)
    (hru : r'.rutime = r.rutime) (hpc : r.pc = .exit false → r.state ≠ .embryo → r'.pc = .exit false ∧ r'.state ≠ .embryo)
    : Pace n h' r' := by
  have hbase : h'.base = h.base := by
    unfold Forced.base
    rw [hlast]
  refine ⟨hbase ▸ hpace.dvd, ?_, ?_⟩
  . rw [hbase, hru]
    exact hpace.le
  . rw [hbase, hru]
    rcases hpace.room with h | ⟨h, hpc', hst⟩
    . exact .inl h
    . exact .inr ⟨h, hpc hpc' hst⟩

theorem yieldTest_eq_true_iff {r : Word} (hr : (s.ptable p).rutime = r + 1) (hlt : r.toNat < 2 ^ 31)
    : yieldTest (s.ptable p) = true ↔ s.odd p ∨ (r.toNat + 1) % 2 = 0 := by
  have htoNat : (r + 1).toNat = r.toNat + 1 := by
    rw [BitVec.toNat_add]
    show (r.toNat + 1) % 2 ^ 32 = _
    omega
  have hne : r + 1 ≠ 0 := by
    intro h
    rw [h] at htoNat
    simp at htoNat
  rw [yieldTest_iff, hr, htoNat, and_iff_left hne]

theorem timer_pace {yields : Bool} {h : Slot → Forced} (hs : s.Wf) (hcpu : s.cpu = .run p)
    (hstep : s.kstep .perTick (.timer yields) = some (s', o)) (hpace : Pace (s.sliceBound p) (h p) (s.ptable p))
    (hclaimed : s.claimed s' p = false) (hru : (s'.ptable p).rutime = (s.ptable p).rutime + 1)
    (hlt : (s.ptable p).rutime.toNat < 2 ^ 31)
    : Pace (s.sliceBound p) (s.forcings (.timer yields) s' h p) (s'.ptable p) ∧
      (s.forced (.timer yields) s' p = true →
        (s'.ptable p).rutime.toNat = (h p).base + s.sliceBound p) := by
  obtain ⟨hon, hcases⟩ := timer_cases hs hcpu hstep
  have htick : ((s.tick .perTick).ptable p).rutime = (s.ptable p).rutime + 1 := by
    simp [Proc.tick, Accounting.onTick, hs.running p hcpu]
  have hodd : (s.tick .perTick).odd p ↔ s.odd p := by
    simp [odd, Proc.tick]
  have hroom : (s.ptable p).rutime.toNat < (h p).base + s.sliceBound p := by
    rcases hpace.room with hroom | ⟨-, hpc, -⟩
    . exact hroom
    . simp [hpc, Pc.intrOn] at hon
  have hnat : (s'.ptable p).rutime.toNat = (s.ptable p).rutime.toNat + 1 := by
    rw [hru, BitVec.toNat_add]
    show ((s.ptable p).rutime.toNat + 1) % 2 ^ 32 = _
    omega
  have htest := (yieldTest_eq_true_iff (s := s.tick .perTick) htick hlt).trans (or_congr_left hodd)
  have hdvd := hpace.dvd
  have hle := hpace.le
  -- the test says that the quantum is used up
  have hfull : yieldTest ((s.tick .perTick).ptable p) = true ↔
      (s.ptable p).rutime.toNat + 1 = (h p).base + s.sliceBound p := by
    rw [htest]
    unfold sliceBound at *
    split at hroom
    . next hodd =>
      rw [if_pos hodd]
      simp only [hodd, true_or, true_iff]
      omega
    . next hodd =>
      rw [if_neg hodd] at hdvd ⊢
      simp only [hodd, false_or]
      omega
  rcases hcases with ⟨-, hst, hpc⟩ | ⟨-, hyield, hst⟩ | ⟨-, hyield, hst⟩
  . have hforced : s.forced (.timer yields) s' p = false := by
      simp [forced, hst]
    have hlast : (s.forcings (.timer yields) s' h p).base = (h p).base := by
      simp [forcings, Forced.base, hclaimed, hforced]
    refine ⟨⟨hlast ▸ hdvd, by omega, ?_⟩, by simp [hforced]⟩
    rcases Nat.lt_or_ge (s'.ptable p).rutime.toNat ((h p).base + s.sliceBound p) with hlt | hge
    . exact .inl (hlast ▸ hlt)
    . exact .inr ⟨by omega, hpc, by simp [hst]⟩
  . have hforced : s.forced (.timer yields) s' p = true := by
      simp [forced, hst, hcpu, Event.isTimer]
    have hlast : (s.forcings (.timer yields) s' h p).base = (s'.ptable p).rutime.toNat := by
      simp [forcings, Forced.base, hclaimed, hforced]
    have heq := hfull.mp hyield
    have hone : 1 ≤ s.sliceBound p := one_le_sliceBound
    refine ⟨⟨?_, by omega, .inl (by omega)⟩, fun _ => by omega⟩
    rw [hlast, hnat, heq, Nat.add_mod_right]
    exact hdvd
  . have hforced : s.forced (.timer yields) s' p = false := by
      simp [forced, hst]
    have hlast : (s.forcings (.timer yields) s' h p).base = (h p).base := by
      simp [forcings, Forced.base, hclaimed, hforced]
    have hne := mt hfull.mpr (by rw [hyield]; exact Bool.false_ne_true)
    exact ⟨⟨hlast ▸ hdvd, by omega, .inl (by omega)⟩, by simp [hforced]⟩

theorem step_paced {x x' : State × (Slot → Forced)} (hx : Paced x)
    (hstep : Machine.watch (kstep .perTick) forcings x e = some (x', o))
    : Paced x' ∧ ∀ p, x.1.forced e x'.1 p = true → (x'.2 p).below = true →
        (x'.1.ptable p).rutime.toNat = (x.2 p).base + x.1.sliceBound p := by
  obtain ⟨hk, hhist⟩ := Machine.watch_eq_some hstep
  have hs := (kstep_eq_some hk).1
  have hwf := hx.wf
  have hstart : ∀ p, x.1.claimed x'.1 p = true → Pace (x'.1.sliceBound p) (x'.2 p) (x'.1.ptable p) := by
    intro p hp
    apply Pace.start one_le_sliceBound
    . rw [hhist]
      simp [forcings, hp]
    . simp only [claimed, decide_eq_true_eq] at hp
      rcases step_life hwf hs p with ⟨-, -, pid, halloc⟩ | hlife
      . rw [halloc]
        rfl
      . have : (x.1.ticked .perTick e p).state = .unused := by
          unfold ticked
          split <;> exact hp.1
        simp [hlife.unused this] at hp
  have hold : ∀ p, (x'.1.ptable p).state ≠ .unused → (x'.2 p).below = true → x.1.claimed x'.1 p = false →
      Pace (x'.1.sliceBound p) (x'.2 p) (x'.1.ptable p) ∧ (x.1.forced e x'.1 p = true →
        (x'.1.ptable p).rutime.toNat = (x.2 p).base + x.1.sliceBound p) := by
    intro p hp' hbelow hclaimed
    have hp : (x.1.ptable p).state ≠ .unused := by
      intro hu
      simp [claimed_of_step hwf hs hu hp'] at hclaimed
    have hbelow0 : (x.2 p).below = true := by
      rw [hhist] at hbelow
      simp only [forcings, hclaimed, Bool.false_or, Bool.and_eq_true] at hbelow
      exact hbelow.1
    obtain ⟨-, hpid, hembryo⟩ := moves_pid (step_moves hwf hs p) hp
    have hbound : x'.1.sliceBound p = x.1.sliceBound p := by
      have hodd : x'.1.odd p ↔ x.1.odd p := by
        unfold odd
        rw [hpid hp']
      exact if_congr hodd rfl rfl
    have hru := step_rutime hwf hs hclaimed
    rw [hbound]
    by_cases htimer : e.isTimer = true ∧ x.1.cpu = .run p
    . obtain ⟨htimer, hcpu⟩ := htimer
      cases e with
      | timer yields =>
        rw [if_pos ⟨rfl, hcpu⟩] at hru
        have := timer_pace hwf hcpu hk (hx.pace p hp hbelow0) hclaimed hru (hx.below p hbelow0)
        rw [hhist]
        exact this
      | _ => simp [Event.isTimer] at htimer
    . have hforced : x.1.forced e x'.1 p = false := by
        simp only [forced, decide_eq_false_iff_not]
        rintro ⟨h1, h2, -⟩
        exact htimer ⟨h1, h2⟩
      rw [if_neg htimer] at hru
      replace hru := hru.trans (BitVec.add_zero _)
      refine ⟨(hx.pace p hp hbelow0).keep ?_ hru ?_, by simp [hforced]⟩
      . rw [hhist]
        simp [forcings, hclaimed, hforced]
      . intro hpc hst
        exact ⟨step_forcedExit hwf hs hpc ⟨hp, hst⟩, hembryo hst⟩
  refine ⟨⟨step_wf hwf hs, ?_, ?_⟩, ?_⟩
  . intro p hp
    rw [hhist] at hp
    simp only [forcings, Bool.and_eq_true, decide_eq_true_eq] at hp
    exact hp.2
  . intro p hp hbelow
    cases hclaimed : x.1.claimed x'.1 p with
    | true => exact hstart p hclaimed
    | false => exact (hold p hp hbelow hclaimed).1
  . intro p hforced hbelow
    have hst := hforced
    simp only [forced, decide_eq_true_eq] at hst
    refine (hold p (by simp [hst.2.2]) hbelow ?_).2 hforced
    simp [claimed, hst.2.2]

/--
Between two forced yields of a process its `rutime` grows by exactly 1 if its pid is odd and by exactly 2 if it
is even, and the first one comes at 1 or 2.
-/
theorem forced_yields_at_quantum (es : List Event)
    : Machine.Along (Machine.watch (kstep .perTick) forcings)
        (fun x e _ x' => ∀ p, x.1.forced e x'.1 p = true → (x'.2 p).below = true →
          match (x.2 p).last with
          | none => (x'.1.ptable p).rutime.toNat = if (x.1.ptable p).pid.toNat % 2 = 1 then 1 else 2
          | some r =>
            (x'.1.ptable p).rutime.toNat = r.toNat + if (x.1.ptable p).pid.toNat % 2 = 1 then 1 else 2)
        (boot .perTick, fun _ => { last := none, below := true }) es := by
  apply Machine.along_of_invariant (I := Paced) _ _ (Machine.along_true _ _)
  . intro x e o x' hx hstep _
    obtain ⟨hx', hrule⟩ := step_paced hx hstep
    refine ⟨?_, hx'⟩
    intro p hforced hbelow
    have hru := hrule p hforced hbelow
    have hbound : x.1.sliceBound p = if (x.1.ptable p).pid.toNat % 2 = 1 then 1 else 2 :=
      if_congr Iff.rfl rfl rfl
    rw [hbound] at hru
    unfold Forced.base at hru
    split
    . next hlast =>
      rw [hlast, Nat.zero_add] at hru
      exact hru
    . next r hlast =>
      rw [hlast] at hru
      exact hru
  . refine ⟨boot_wf, ?_, ?_⟩
    . intro p _
      dsimp only
      rw [boot_ptable]
      split <;> exact by decide
    . intro p _ _
      apply Pace.start one_le_sliceBound rfl
      dsimp only
      rw [boot_ptable]
      split <;> rfl

end State

end Xv6
