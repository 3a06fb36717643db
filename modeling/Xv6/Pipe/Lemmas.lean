import Xv6.Pipe.Impl

/-!
What a step of the pipe can do, and who holds the two locks.
-/

namespace Xv6.Pipe

-- The places where the code holds `p->lock`.
def Pc.holds : Pc → Bool
  | .loop _ _ => true
  | .copy _ _ _ => true
  | .notify _ _ => true
  | .finish _ _ _ => true
  | .sleepAcquire _ _ => true
  | .sleepRelease _ _ => true
  | _ => false

-- The places where it holds `ptable.lock` from one step to the next.
def Pc.holdsTable : Pc → Bool
  | .sleepRelease _ _ => true
  | .sleepSwitch _ _ => true
  | _ => false

def Pc.wakeup1 (chan : Chan) : Pc → Pc
  | .asleep c i => if c.chan = some chan then .acquire c i else .asleep c i
  | pc => pc

def Pc.kill : Pc → Pc
  | .asleep c i => .acquire c i
  | pc => pc

@[simp]
theorem Pc.wakeup1_holds (chan : Chan) (pc : Pc) : (pc.wakeup1 chan).holds = pc.holds := by
  unfold wakeup1
  split
  . split <;> rfl
  . rfl

@[simp]
theorem Pc.wakeup1_holdsTable (chan : Chan) (pc : Pc) : (pc.wakeup1 chan).holdsTable = pc.holdsTable := by
  unfold wakeup1
  split
  . split <;> rfl
  . rfl

@[simp]
theorem Pc.kill_holds (pc : Pc) : pc.kill.holds = pc.holds := by
  cases pc <;> rfl

@[simp]
theorem Pc.kill_holdsTable (pc : Pc) : pc.kill.holdsTable = pc.holdsTable := by
  cases pc <;> rfl

namespace State

variable {ι : Type} {s s' : State ι} {e : Event ι} {o : Output} {p q : ι}

@[simp]
theorem wakeup1_pc (chan : Chan) : (s.wakeup1 chan).pc q = (s.pc q).wakeup1 chan := rfl

structure Locks (s : State ι) : Prop where
  lock : ∀ p, s.lock = some p ↔ (s.pc p).holds = true
  ptable : ∀ p, (s.pc p).holdsTable = true → s.ptable = some p

theorem Locks.eq_of_holds (h : s.Locks) (hp : (s.pc p).holds = true) (hq : (s.pc q).holds = true) : p = q := by
  have hp := (h.lock p).mpr hp
  rw [(h.lock q).mpr hq, Option.some.injEq] at hp
  exact hp.symm

theorem Locks.not_holdsTable (h : s.Locks) (hfree : s.ptable = none) (p : ι) : (s.pc p).holdsTable = false := by
  by_contra hp
  rw [Bool.not_eq_false] at hp
  simp [h.ptable p hp] at hfree

variable [DecidableEq ι]

@[simp]
theorem setPc_pc (pc : Pc) : (s.setPc p pc).pc q = if q = p then pc else s.pc q := rfl

@[simp]
theorem leave_pc : (s.leave p).pc q = if q = p then .idle else s.pc q := rfl

@[simp]
theorem kill_pc : (s.kill p).pc q = if q = p then (s.pc q).kill else s.pc q := by
  unfold kill Pc.kill
  rfl

-- The process `p` goes from `a` to `b` and changes the locks accordingly.
theorem Locks.move {a b : Pc} (h : s.Locks) (ha : s.pc p = a) (hb : s'.pc p = b)
    (hpc : ∀ q, q ≠ p → (s'.pc q).holds = (s.pc q).holds ∧ (s'.pc q).holdsTable = (s.pc q).holdsTable)
    (hlock : s'.lock = if b.holds then some p else if a.holds then none else s.lock)
    (hfree : b.holds = true → a.holds = true ∨ s.lock = none)
    (htable : s'.ptable = if b.holdsTable then some p else if a.holdsTable then none else s.ptable)
    (hfreetable : b.holdsTable = true → a.holdsTable = true ∨ s.ptable = none)
    : s'.Locks := by
  have hlockp := h.lock p
  rw [ha] at hlockp
  constructor
  . intro q
    by_cases hq : q = p
    . subst hq
      rw [hlock, hb]
      split
      . next hholds => simp [hholds]
      . next hholds =>
        split
        . simp [hholds]
        . next hold => simp [hholds, hlockp, hold]
    . rw [(hpc q hq).1, ← h.lock q, hlock]
      split
      . next hholds =>
        rcases hfree hholds with hold | hold
        . simp [hlockp.mpr hold]
        . simp [hold, Ne.symm hq]
      . split
        . next hold => simp [hlockp.mpr hold, Ne.symm hq]
        . rfl
  . intro q hholds
    by_cases hq : q = p
    . subst hq
      rw [hb] at hholds
      rw [htable, if_pos hholds]
    . rw [(hpc q hq).2] at hholds
      have hq' := h.ptable q hholds
      have hne : a.holdsTable = false := by
        by_contra hold
        rw [Bool.not_eq_false, ← ha] at hold
        rw [h.ptable p hold, Option.some.injEq] at hq'
        exact hq hq'.symm
      rw [htable, hne]
      split
      . next hnew =>
        rcases hfreetable hnew with hold | hold
        . simp [hne] at hold
        . simp [hold] at hq'
      . exact hq'

theorem setPc_others (pc : Pc) (q : ι) (hq : q ≠ p)
    : ((s.setPc p pc).pc q).holds = (s.pc q).holds ∧ ((s.setPc p pc).pc q).holdsTable = (s.pc q).holdsTable := by
  simp [hq]

variable [Fintype ι]

inductive Step (s : State ι) : Event ι → Output → State ι → Prop where
  | call (p : ι) (c : Call) : s.pc p = .idle → s.allowed c = true →
      Step s (.call p c) .none (s.setPc p (.acquire c 0))
  | kill (p : ι) : s.ptable = none → Step s (.kill p) .none (s.kill p)
  | acquire (p : ι) (c : Call) (i : Nat) : s.pc p = .acquire c i → s.lock = none →
      Step s (.step p) .none { s.setPc p (.loop c i) with lock := some p }
  | writeEnd (p : ι) (addr : List UInt8) (i : Nat) : s.pc p = .loop (.write addr) i → addr[i]? = none →
      Step s (.step p) .none (s.setPc p (.finish (.write addr) addr.length []))
  | giveUp (p : ι) (addr : List UInt8) (i : Nat) (b : UInt8) : s.pc p = .loop (.write addr) i →
      addr[i]? = some b → s.pipe.full = true → (s.pipe.readopen = false ∨ s.killed p = true) →
      Step s (.step p) (.ret (.write addr) (-1) []) (s.leave p)
  | block (p : ι) (addr : List UInt8) (i : Nat) (b : UInt8) : s.pc p = .loop (.write addr) i →
      addr[i]? = some b → s.pipe.full = true → s.pipe.readopen = true →
      Step s (.step p) .none (s.setPc p (.notify (.write addr) i))
  | put (p : ι) (addr : List UInt8) (i : Nat) (b : UInt8) : s.pc p = .loop (.write addr) i →
      addr[i]? = some b → s.pipe.full = false →
      Step s (.step p) .none ((s.setPipe (s.pipe.put b)).setPc p (.loop (.write addr) (i + 1)))
  | readGiveUp (p : ι) (n i : Nat) : s.pc p = .loop (.read n) i → s.pipe.empty = true →
      s.pipe.writeopen = true → s.killed p = true → Step s (.step p) (.ret (.read n) (-1) []) (s.leave p)
  | readBlock (p : ι) (n i : Nat) : s.pc p = .loop (.read n) i → s.pipe.empty = true →
      s.pipe.writeopen = true → Step s (.step p) .none (s.setPc p (.sleepAcquire (.read n) 0))
  | readCopy (p : ι) (n i : Nat) : s.pc p = .loop (.read n) i →
      ¬ (s.pipe.empty = true ∧ s.pipe.writeopen = true) → Step s (.step p) .none (s.setPc p (.copy n 0 []))
  | take (p : ι) (n i : Nat) (addr : List UInt8) : s.pc p = .copy n i addr → i < n → s.pipe.empty = false →
      Step s (.step p) .none ((s.setPipe s.pipe.drop).setPc p (.copy n (i + 1) (addr ++ [s.pipe.front])))
  | copyEnd (p : ι) (n i : Nat) (addr : List UInt8) : s.pc p = .copy n i addr → ¬ (i < n ∧ s.pipe.empty = false) →
      Step s (.step p) .none (s.setPc p (.finish (.read n) i addr))
  | close (p : ι) (w : Bool) (i : Nat) : s.pc p = .loop (.close w) i →
      Step s (.step p) .none ((s.setPipe (s.pipe.close w)).setPc p (.finish (.close w) 0 []))
  | notify (p : ι) (c : Call) (i : Nat) : s.pc p = .notify c i → s.ptable = none →
      Step s (.step p) .none ((s.wakeup1 .nread).setPc p (.sleepAcquire c i))
  | finish (p : ι) (c : Call) (r : Int) (addr : List UInt8) : s.pc p = .finish c r addr → s.ptable = none →
      Step s (.step p) (.ret c r addr) ((s.wakeup1 c.wakes).leave p)
  | sleepAcquire (p : ι) (c : Call) (i : Nat) : s.pc p = .sleepAcquire c i → s.ptable = none →
      Step s (.step p) .none { s.setPc p (.sleepRelease c i) with ptable := some p }
  | sleepRelease (p : ι) (c : Call) (i : Nat) : s.pc p = .sleepRelease c i →
      Step s (.step p) .none { s.setPc p (.sleepSwitch c i) with lock := none }
  | sleepSwitch (p : ι) (c : Call) (i : Nat) : s.pc p = .sleepSwitch c i →
      Step s (.step p) .none { s.setPc p (.asleep c i) with ptable := none }

theorem pipewrite_cases {addr : List UInt8} {i : Nat} (hp : s.pc p = .loop (.write addr) i)
    : Step s (.step p) (s.pipewrite p addr i).2 (s.pipewrite p addr i).1 := by
  unfold pipewrite
  split
  . next hi => exact .writeEnd p addr i hp hi
  . next b hi =>
    split
    . next hfull =>
      split
      . next hfail => exact .giveUp p addr i b hp hi hfull (by simpa using hfail)
      . next hfail =>
        simp only [not_or, not_not] at hfail
        exact .block p addr i b hp hi hfull hfail.1
    . next hfull => exact .put p addr i b hp hi (by simpa using hfull)

theorem piperead_cases {n i : Nat} (hp : s.pc p = .loop (.read n) i)
    : Step s (.step p) (s.piperead p n).2 (s.piperead p n).1 := by
  unfold piperead
  split
  . next hwait =>
    split
    . next hkilled => exact .readGiveUp p n i hp hwait.1 hwait.2 hkilled
    . exact .readBlock p n i hp hwait.1 hwait.2
  . next hwait => exact .readCopy p n i hp hwait

theorem pipecopy_cases {n i : Nat} {addr : List UInt8} (hp : s.pc p = .copy n i addr)
    : Step s (.step p) (s.pipecopy p n i addr).2 (s.pipecopy p n i addr).1 := by
  unfold pipecopy
  split
  . next h => exact .take p n i addr hp h.1 (by simpa using h.2)
  . next h => exact .copyEnd p n i addr hp (by simpa using h)

theorem next_cases (h : s.next p = some (s', o)) : Step s (.step p) o s' := by
  unfold next at h
  split at h
  . simp at h
  . next c i hp =>
    split at h
    . next hlock =>
      simp only [Option.some.injEq, Prod.mk.injEq] at h
      obtain ⟨rfl, rfl⟩ := h
      exact .acquire p c i hp hlock
    . simp at h
  . next addr i hp =>
    have := pipewrite_cases hp
    rwa [Option.some.inj h] at this
  . next n i hp =>
    have := piperead_cases hp
    rwa [Option.some.inj h] at this
  . next w i hp =>
    simp only [Option.some.injEq, pipeclose, Prod.mk.injEq] at h
    obtain ⟨rfl, rfl⟩ := h
    exact .close p w i hp
  . next n i addr hp =>
    have := pipecopy_cases hp
    rwa [Option.some.inj h] at this
  . next c i hp =>
    split at h
    . next htable =>
      simp only [Option.some.injEq, Prod.mk.injEq] at h
      obtain ⟨rfl, rfl⟩ := h
      exact .notify p c i hp htable
    . simp at h
  . next c r addr hp =>
    split at h
    . next htable =>
      simp only [Option.some.injEq, Prod.mk.injEq] at h
      obtain ⟨rfl, rfl⟩ := h
      exact .finish p c r addr hp htable
    . simp at h
  . next c i hp =>
    split at h
    . next htable =>
      simp only [Option.some.injEq, Prod.mk.injEq] at h
      obtain ⟨rfl, rfl⟩ := h
      exact .sleepAcquire p c i hp htable
    . simp at h
  . next c i hp =>
    simp only [Option.some.injEq, Prod.mk.injEq] at h
    obtain ⟨rfl, rfl⟩ := h
    exact .sleepRelease p c i hp
  . next c i hp =>
    simp only [Option.some.injEq, Prod.mk.injEq] at h
    obtain ⟨rfl, rfl⟩ := h
    exact .sleepSwitch p c i hp
  . simp at h

theorem step_cases (h : step s e = some (s', o)) : Step s e o s' := by
  unfold step at h
  split at h
  . next p c =>
    split at h
    . next hp =>
      simp only [Option.some.injEq, Prod.mk.injEq] at h
      obtain ⟨rfl, rfl⟩ := h
      exact .call p c hp.1 hp.2
    . simp at h
  . exact next_cases h
  . next p =>
    split at h
    . next htable =>
      simp only [Option.some.injEq, Prod.mk.injEq] at h
      obtain ⟨rfl, rfl⟩ := h
      exact .kill p htable
    . simp at h

theorem step_locks (h : s.Locks) (hstep : step s e = some (s', o)) : s'.Locks := by
  cases step_cases hstep with
  | call p c hp => exact h.move hp (if_pos rfl) (setPc_others _) rfl nofun rfl nofun
  | kill p htable =>
    constructor
    . intro q
      rw [kill_pc]
      split
      . rw [Pc.kill_holds]
        exact h.lock q
      . exact h.lock q
    . intro q
      rw [kill_pc]
      split
      . rw [Pc.kill_holdsTable]
        exact h.ptable q
      . exact h.ptable q
  | acquire p c i hp hlock => exact h.move hp (if_pos rfl) (setPc_others _) rfl (fun _ => .inr hlock) rfl nofun
  | writeEnd p addr i hp | block p addr i b hp =>
    exact h.move hp (if_pos rfl) (setPc_others _) ((h.lock p).mpr (by rw [hp]; rfl)) (fun _ => .inl rfl) rfl nofun
  | put p addr i b hp =>
    exact h.move hp (if_pos rfl) (setPc_others _) ((h.lock p).mpr (by rw [hp]; rfl)) (fun _ => .inl rfl) rfl nofun
  | readBlock p n i hp | readCopy p n i hp | take p n i addr hp | copyEnd p n i addr hp | close p w i hp =>
    exact h.move hp (if_pos rfl) (setPc_others _) ((h.lock p).mpr (by rw [hp]; rfl)) (fun _ => .inl rfl) rfl nofun
  | giveUp p addr i b hp => exact h.move hp (if_pos rfl) (setPc_others _) rfl nofun rfl nofun
  | readGiveUp p n i hp => exact h.move hp (if_pos rfl) (setPc_others _) rfl nofun rfl nofun
  | notify p c i hp =>
    refine h.move hp (if_pos rfl) ?_ ((h.lock p).mpr (by rw [hp]; rfl)) (fun _ => .inl rfl) rfl nofun
    intro q hq
    simp [hq]
  | finish p c r addr hp =>
    refine h.move hp (if_pos rfl) ?_ rfl nofun rfl nofun
    intro q hq
    simp [hq]
  | sleepAcquire p c i hp htable =>
    exact h.move hp (if_pos rfl) (setPc_others _) ((h.lock p).mpr (by rw [hp]; rfl)) (fun _ => .inl rfl) rfl
      (fun _ => .inr htable)
  | sleepRelease p c i hp =>
    exact h.move hp (if_pos rfl) (setPc_others _) rfl nofun (h.ptable p (by rw [hp]; rfl)) (fun _ => .inl rfl)
  | sleepSwitch p c i hp => exact h.move hp (if_pos rfl) (setPc_others _) rfl nofun rfl nofun

omit [DecidableEq ι] [Fintype ι] in
theorem init_locks (data : Fin PIPESIZE → UInt8) : (init (ι := ι) data).Locks := by
  constructor <;> simp [init, Pc.holds, Pc.holdsTable]

end State

end Xv6.Pipe
