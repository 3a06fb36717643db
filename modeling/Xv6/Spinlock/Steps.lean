import Xv6.Spinlock.Invariant

/-!
`pushcli`, `popcli` and what the CPUs do to the locks.
-/

namespace Xv6.Spinlock

variable {κ ι L : Type}
variable {cpu cpu' : Cpu ι L} {k : Kthread L} {n : Nat} {s t : State κ ι L} {c c' : κ} {lk ptable : L} {p : ι}
variable {R : L → L → Prop}

-- The thread after `pushcli`.
def Kthread.push (k : Kthread L) (cpu : Cpu ι L) : Kthread L :=
  { k with flag := if cpu.ncli = 0 then some cpu.eflags else k.flag }

theorem Local.Deep.pushcli (h : (Local.of cpu k).Deep n) : (Local.of cpu.pushcli (k.push cpu)).Deep (n + 1) := by
  obtain ⟨hncli, heflags, hflag, hnodup⟩ := h
  refine ⟨?_, fun _ => rfl, ?_, hnodup⟩
  . change cpu.ncli + 1 = k.held.length + (n + 1)
    change cpu.ncli = k.held.length + n at hncli
    omega
  . intro _ b hb
    change (if cpu.ncli = 0 then some cpu.eflags else k.flag) = some b at hb
    change (if cpu.ncli = 0 then cpu.eflags else cpu.intena) = b
    split at hb
    . next hzero =>
      rw [if_pos hzero]
      exact Option.some.inj hb
    . next hpos =>
      rw [if_neg hpos]
      exact hflag (Nat.pos_of_ne_zero hpos) b hb

-- `popcli` never panics, and with the last one interrupts are as they were.
theorem Local.Deep.popcli (h : (Local.of cpu k).Deep (n + 1))
    : ∃ cpu' : Cpu ι L, cpu.popcli = .ok cpu' ∧ (Local.of cpu' k).Deep n ∧ cpu'.proc = cpu.proc ∧ cpu'.pc = cpu.pc ∧
        (cpu'.ncli = 0 → ∀ b, k.flag = some b → cpu'.eflags = b) := by
  obtain ⟨hncli, heflags, hflag, hnodup⟩ := h
  change cpu.ncli = k.held.length + (n + 1) at hncli
  have hpos : 0 < cpu.ncli := by omega
  have hoff : cpu.eflags = false := heflags hpos
  refine ⟨{ cpu with ncli := cpu.ncli - 1, eflags := decide (cpu.ncli = 1) && cpu.intena }, ?_, ⟨?_, ?_, ?_, hnodup⟩, rfl,
    rfl, ?_⟩
  . unfold Cpu.popcli
    rw [hoff, if_neg Bool.false_ne_true, if_neg (by omega)]
  . change cpu.ncli - 1 = k.held.length + n
    omega
  . intro hlt
    change 0 < cpu.ncli - 1 at hlt
    have hne : cpu.ncli ≠ 1 := by omega
    change (decide (cpu.ncli = 1) && cpu.intena) = false
    rw [decide_eq_false hne, Bool.false_and]
  . exact fun _ b hb => hflag hpos b hb
  . intro hzero b hb
    change cpu.ncli - 1 = 0 at hzero
    have hone : cpu.ncli = 1 := by omega
    change (decide (cpu.ncli = 1) && cpu.intena) = b
    rw [decide_eq_true hone, Bool.true_and]
    exact hflag hpos b hb

theorem Local.Deep.mycpu (h : (Local.of cpu k).Deep (n + 1)) : cpu.mycpu = .ok () := by
  have hncli : cpu.ncli = k.held.length + (n + 1) := h.ncli
  have hoff : cpu.eflags = false := h.eflags (by change 0 < cpu.ncli; omega)
  unfold Cpu.mycpu
  rw [hoff, if_neg Bool.false_ne_true]

namespace State

theorem current_inj (hsingle : ∀ p c c', (s.cpu c).proc = some p → (s.cpu c').proc = some p → c = c')
    (h : s.current c' = s.current c)
    : c' = c := by
  unfold current at h
  cases hc : (s.cpu c).proc with
  | none =>
    cases hc' : (s.cpu c').proc with
    | none =>
      rw [hc, hc'] at h
      exact Thread.scheduler.inj h
    | some p =>
      rw [hc, hc'] at h
      cases h
  | some p =>
    cases hc' : (s.cpu c').proc with
    | none =>
      rw [hc, hc'] at h
      cases h
    | some p' =>
      rw [hc, hc'] at h
      cases h
      exact hsingle p c' c hc' hc

variable [DecidableEq κ]

theorem current_setCpu (hproc : cpu.proc = (s.cpu c).proc) (c' : κ) : (s.setCpu c cpu).current c' = s.current c' := by
  unfold current setCpu
  dsimp only
  by_cases hc : c' = c
  . subst hc
    rw [Function.update_self, hproc]
  . rw [Function.update_of_ne hc]

variable [DecidableEq ι]

-- The thread that runs and its CPU change.
def put (s : State κ ι L) (c : κ) (cpu : Cpu ι L) (k : Kthread L) : State κ ι L :=
  (s.setThread (s.current c) k).setCpu c cpu

theorem setCpu_eq (s : State κ ι L) (c : κ) (cpu : Cpu ι L)
    : s.setCpu c cpu = s.put c cpu (s.thread (s.current c)) := by
  unfold put setThread
  rw [Function.update_eq_self]

theorem setPc_eq (s : State κ ι L) (c : κ) (cpu : Cpu ι L) (pc : Pc L)
    : s.setPc c cpu pc = s.put c { cpu with pc := pc } (s.thread (s.current c)) :=
  s.setCpu_eq c _

theorem pushcli_eq (s : State κ ι L) (c : κ)
    : s.pushcli c = s.put c (s.cpu c).pushcli ((s.thread (s.current c)).push (s.cpu c)) := by
  unfold pushcli
  split
  . next hzero =>
    unfold put Kthread.push
    rw [if_pos hzero]
    rfl
  . next hpos =>
    unfold Kthread.push
    rw [if_neg hpos, setCpu_eq]

theorem current_put (hproc : cpu.proc = (s.cpu c).proc) (c' : κ) : (s.put c cpu k).current c' = s.current c' :=
  current_setCpu hproc c'

theorem put_put (hproc : cpu.proc = (s.cpu c).proc) (k' : Kthread L)
    : (s.put c cpu k).put c cpu' k' = s.put c cpu' k' := by
  have hcurrent := current_put (k := k) hproc c
  unfold put at hcurrent ⊢
  rw [hcurrent]
  unfold setThread setCpu
  dsimp only
  rw [Function.update_idem, Function.update_idem]

theorem thread_put (hproc : cpu.proc = (s.cpu c).proc) : (s.put c cpu k).thread ((s.put c cpu k).current c) = k := by
  rw [current_put hproc]
  exact Function.update_self ..

theorem cpu_put : (s.put c cpu k).cpu c = cpu :=
  Function.update_self ..

theorem loc_put (hsingle : ∀ p c c', (s.cpu c).proc = some p → (s.cpu c').proc = some p → c = c')
    (hproc : cpu.proc = (s.cpu c).proc)
    : (s.put c cpu k).loc = Function.update s.loc c (.of cpu k) := by
  funext c'
  by_cases hc : c' = c
  . subst hc
    rw [Function.update_self]
    unfold loc
    rw [thread_put hproc, cpu_put]
  . rw [Function.update_of_ne hc]
    unfold loc
    rw [current_put hproc]
    congr 1
    . exact Function.update_of_ne hc ..
    . exact Function.update_of_ne (fun heq => hc (current_inj hsingle heq)) ..

end State

variable [DecidableEq κ] [DecidableEq ι]

-- The thread that runs goes on, and it does not come to `sched` or out of it.
theorem Placed.put (h : Placed ptable s) (hproc : cpu.proc = (s.cpu c).proc)
    (hpc : ∀ lk, cpu.pc ≠ .holding .sched lk) (hpc' : (s.cpu c).pc ≠ .holding .sched ptable)
    : Placed ptable (s.put c cpu k) := by
  have hcpu : ∀ c', (s.put c cpu k).cpu c' = if c' = c then cpu else s.cpu c' := by
    intro c'
    exact Function.update_apply ..
  have hprocs : ∀ c', ((s.put c cpu k).cpu c').proc = (s.cpu c').proc := by
    intro c'
    rw [hcpu]
    split
    . next hc => rw [hc, hproc]
    . rfl
  have hthread : ∀ x, x ≠ s.current c → (s.put c cpu k).thread x = s.thread x :=
    fun x hx => Function.update_of_ne hx ..
  constructor
  . intro p c1 c2 h1 h2
    rw [hprocs] at h1 h2
    exact h.single p c1 c2 h1 h2
  . intro p c' hp
    rw [hprocs] at hp
    rw [hthread]
    . exact h.off p c' hp
    . intro heq
      unfold State.current at heq
      split at heq
      . next hnone =>
        cases heq
        rw [hnone] at hp
        cases hp
      . cases heq
  . intro lk c' hlk
    rw [hcpu] at hlk
    split at hlk
    . exact absurd hlk (hpc lk)
    . next hc =>
      obtain ⟨heq, hmem, hsome⟩ := h.sched lk c' hlk
      refine ⟨heq, ?_, by rwa [hprocs]⟩
      unfold State.held
      rw [State.current_put hproc, hthread]
      . exact hmem
      . exact fun heq => hc (State.current_inj h.single heq)
  . intro p c' hp
    rw [hprocs] at hp
    obtain ⟨hcontext, hstate⟩ := h.running p c' hp
    refine ⟨hcontext, ?_⟩
    rcases hstate with ⟨hrun, hno⟩ | ⟨hholding, hleave⟩
    . rw [hcpu]
      split
      . exact .inl ⟨hrun, hpc ptable⟩
      . exact .inl ⟨hrun, hno⟩
    . rw [hcpu]
      split
      . next hc => exact absurd (hc ▸ hholding) hpc'
      . exact .inr ⟨hholding, hleave⟩
  . intro p hp
    have hoff : ∀ c, (s.cpu c).proc ≠ some p := by
      intro c' hc'
      exact hp c' (by rwa [hprocs])
    rw [hthread]
    . exact h.saved p hoff
    . intro heq
      unfold State.current at heq
      split at heq
      . cases heq
      . next p' hp' =>
        cases heq
        exact hoff c hp'

omit [DecidableEq κ] [DecidableEq ι] in
theorem Placed.setLock [DecidableEq L] (h : Placed ptable s) (v : Lock κ) : Placed ptable (s.setLock lk v) :=
  ⟨h.single, h.off, h.sched, h.running, h.saved⟩

section

variable (h : Inv R ptable s) (hproc : cpu.proc = (s.cpu c).proc) (hpc : ∀ lk, cpu.pc ≠ .holding .sched lk)
variable (hpc' : (s.cpu c).pc ≠ .holding .sched ptable) (hgood : (Local.of cpu k).Good R)

include h hproc hpc hpc' hgood

theorem Inv.put (howns : ∀ x, (Local.of cpu k).Owns x ↔ (s.loc c).Owns x)
    (hsigns : ∀ x, (Local.of cpu k).Signs x ↔ (s.loc c).Signs x)
    : Inv R ptable (s.put c cpu k) := by
  refine ⟨?_, h.placed.put hproc hpc hpc'⟩
  rw [State.loc_put h.placed.single hproc]
  exact h.locks.keep hgood howns hsigns

theorem Inv.putLock [DecidableEq L] {v : Lock κ}
    (hother : ∀ x ≠ lk, ((Local.of cpu k).Owns x ↔ (s.loc c).Owns x) ∧ ((Local.of cpu k).Signs x ↔ (s.loc c).Signs x))
    (hlocked : v.locked = true ↔ (Local.of cpu k).Owns lk ∨ ∃ c', c' ≠ c ∧ (s.loc c').Owns lk)
    (hunique : (Local.of cpu k).Owns lk → ∀ c' ≠ c, ¬ (s.loc c').Owns lk)
    (hcpu : (v.cpu = some c ↔ (Local.of cpu k).Signs lk) ∧ ∀ c' ≠ c, v.cpu = some c' ↔ (s.loc c').Signs lk)
    : Inv R ptable ((s.setLock lk v).put c cpu k) := by
  refine ⟨?_, (h.placed.setLock v).put hproc hpc hpc'⟩
  have hloc : ((s.setLock lk v).put c cpu k).loc = Function.update s.loc c (.of cpu k) :=
    State.loc_put (s := s.setLock lk v) h.placed.single hproc
  rw [hloc]
  exact h.locks.update hgood hother hlocked hunique hcpu

end

end Xv6.Spinlock
