import Mathlib.Data.List.Nodup
import Xv6.Spinlock.Impl

/-!
What the locks, the CPUs and the processes have to do with each other between two events. `Locks` is about the locks and
the interrupts and sees of each CPU only its registers and the thread that runs on it; `Placed` is about the processes
that run and those that do not.
-/

namespace Xv6.Spinlock

variable {κ ι L : Type} [DecidableEq κ] [DecidableEq L]

-- A CPU and the thread that runs on it.
structure Local (L : Type) where
  ncli : Nat
  intena : Bool
  eflags : Bool
  pc : Pc L
  held : List L
  flag : Option Bool

def Pc.busy : Pc L → Option L
  | .setCpu lk | .clearCpu lk | .clearLocked lk => some lk
  | _ => none

-- The lock that the CPU is about to take.
def Pc.wants : Pc L → Option L
  | .holding .acquire lk | .spin lk => some lk
  | _ => none

-- How often the functions that the CPU is in have called `pushcli`, beside the locks that are held.
def Pc.depth : Pc L → Nat
  | .code => 0
  | .holding .acquire _ => 2
  | _ => 1

namespace Local

def of (cpu : Cpu ι L) (k : Kthread L) : Local L :=
  ⟨cpu.ncli, cpu.intena, cpu.eflags, cpu.pc, k.held, k.flag⟩

variable {l : Local L} {k : Nat} {lk : L}

-- Who has made `lk->locked` 1, and whose `lk->cpu` is.
def Owns (l : Local L) (lk : L) : Prop :=
  lk ∈ l.held ∨ l.pc.busy = some lk

def Signs (l : Local L) (lk : L) : Prop :=
  lk ∈ l.held ∨ l.pc = .clearCpu lk

structure Deep (l : Local L) (k : Nat) : Prop where
  ncli : l.ncli = l.held.length + k
  eflags : 0 < l.ncli → l.eflags = false
  flag : 0 < l.ncli → ∀ b, l.flag = some b → l.intena = b
  nodup : l.held.Nodup

-- `R` says which locks may be held when another one is acquired.
structure Good (R : L → L → Prop) (l : Local L) : Prop where
  deep : l.Deep l.pc.depth
  fresh : ∀ lk, l.pc.busy = some lk → lk ∉ l.held
  order : ∀ lk, l.pc.wants = some lk → ∀ x ∈ l.held, R x lk

end Local

structure Locks (R : L → L → Prop) (loc : κ → Local L) (lock : L → Lock κ) : Prop where
  good : ∀ c, (loc c).Good R
  locked : ∀ lk, (lock lk).locked = true ↔ ∃ c, (loc c).Owns lk
  unique : ∀ lk c c', (loc c).Owns lk → (loc c').Owns lk → c = c'
  cpu : ∀ lk c, (lock lk).cpu = some c ↔ (loc c).Signs lk

namespace Locks

variable {R : L → L → Prop} {loc : κ → Local L} {lock : L → Lock κ} {c : κ} {l : Local L} {lk : L} {v : Lock κ}

theorem update (h : Locks R loc lock) (hgood : l.Good R)
    (hother : ∀ x ≠ lk, (l.Owns x ↔ (loc c).Owns x) ∧ (l.Signs x ↔ (loc c).Signs x))
    (hlocked : v.locked = true ↔ l.Owns lk ∨ ∃ c', c' ≠ c ∧ (loc c').Owns lk)
    (hunique : l.Owns lk → ∀ c' ≠ c, ¬ (loc c').Owns lk)
    (hcpu : (v.cpu = some c ↔ l.Signs lk) ∧ ∀ c' ≠ c, v.cpu = some c' ↔ (loc c').Signs lk)
    : Locks R (Function.update loc c l) (Function.update lock lk v) := by
  have howns : ∀ x c', x ≠ lk → ((Function.update loc c l c').Owns x ↔ (loc c').Owns x) := by
    intro x c' hx
    by_cases hc : c' = c
    . rw [hc, Function.update_self]
      exact (hother x hx).1
    . rw [Function.update_of_ne hc]
  constructor
  . intro c'
    by_cases hc : c' = c
    . rw [hc, Function.update_self]
      exact hgood
    . rw [Function.update_of_ne hc]
      exact h.good c'
  . intro x
    by_cases hx : x = lk
    . subst hx
      rw [Function.update_self, hlocked]
      constructor
      . rintro (how | ⟨c', hc, how⟩)
        . exact ⟨c, by rwa [Function.update_self]⟩
        . exact ⟨c', by rwa [Function.update_of_ne hc]⟩
      . rintro ⟨c', how⟩
        by_cases hc : c' = c
        . rw [hc, Function.update_self] at how
          exact .inl how
        . rw [Function.update_of_ne hc] at how
          exact .inr ⟨c', hc, how⟩
    . rw [Function.update_of_ne hx, h.locked]
      exact exists_congr fun c' => (howns x c' hx).symm
  . intro x c1 c2 h1 h2
    by_cases hx : x = lk
    . subst hx
      by_cases hc1 : c1 = c
      . by_cases hc2 : c2 = c
        . rw [hc1, hc2]
        . rw [hc1, Function.update_self] at h1
          rw [Function.update_of_ne hc2] at h2
          exact absurd h2 (hunique h1 c2 hc2)
      . rw [Function.update_of_ne hc1] at h1
        by_cases hc2 : c2 = c
        . rw [hc2, Function.update_self] at h2
          exact absurd h1 (hunique h2 c1 hc1)
        . rw [Function.update_of_ne hc2] at h2
          exact h.unique x c1 c2 h1 h2
    . exact h.unique x c1 c2 ((howns x c1 hx).mp h1) ((howns x c2 hx).mp h2)
  . intro x c'
    by_cases hx : x = lk
    . subst hx
      rw [Function.update_self]
      by_cases hc : c' = c
      . rw [hc, Function.update_self]
        exact hcpu.1
      . rw [Function.update_of_ne hc]
        exact hcpu.2 c' hc
    . rw [Function.update_of_ne hx, h.cpu]
      by_cases hc : c' = c
      . rw [hc, Function.update_self]
        exact (hother x hx).2.symm
      . rw [Function.update_of_ne hc]

-- The CPU does nothing to the locks.
omit [DecidableEq L] in
theorem keep (h : Locks R loc lock) (hgood : l.Good R) (howns : ∀ x, l.Owns x ↔ (loc c).Owns x)
    (hsigns : ∀ x, l.Signs x ↔ (loc c).Signs x)
    : Locks R (Function.update loc c l) lock := by
  have hthere : ∀ x c', (Function.update loc c l c').Owns x ↔ (loc c').Owns x := by
    intro x c'
    by_cases hc : c' = c
    . rw [hc, Function.update_self]
      exact howns x
    . rw [Function.update_of_ne hc]
  constructor
  . intro c'
    by_cases hc : c' = c
    . rw [hc, Function.update_self]
      exact hgood
    . rw [Function.update_of_ne hc]
      exact h.good c'
  . intro x
    rw [h.locked]
    exact exists_congr fun c' => (hthere x c').symm
  . intro x c1 c2 h1 h2
    exact h.unique x c1 c2 ((hthere x c1).mp h1) ((hthere x c2).mp h2)
  . intro x c'
    rw [h.cpu]
    by_cases hc : c' = c
    . rw [hc, Function.update_self]
      exact (hsigns x).symm
    . rw [Function.update_of_ne hc]

end Locks

namespace State

variable (s : State κ ι L)

def loc (c : κ) : Local L :=
  .of (s.cpu c) (s.thread (s.current c))

end State

-- Where `swtch` finds the process again, and how interrupts were.
def Context.Saves : Option Context → Option Bool → Prop
  | none, _ => False
  | some .forkret, flag => flag = none
  | some (.sched intena), flag => ∀ b, flag = some b → intena = b

def Leaving (state : ProcState) : Prop :=
  state = .runnable ∨ state = .sleeping ∨ state = .zombie

structure Placed (ptable : L) (s : State κ ι L) : Prop where
  single : ∀ p c c', (s.cpu c).proc = some p → (s.cpu c').proc = some p → c = c'
  off : ∀ p c, (s.cpu c).proc = some p → s.thread (.scheduler c) = ⟨[ptable], 0, none⟩
  sched : ∀ lk c, (s.cpu c).pc = .holding .sched lk → lk = ptable ∧ ptable ∈ s.held c ∧ (s.cpu c).proc ≠ none
  running : ∀ p c, (s.cpu c).proc = some p → (s.proc p).context = none ∧
    (((s.proc p).state = .running ∧ (s.cpu c).pc ≠ .holding .sched ptable) ∨
      ((s.cpu c).pc = .holding .sched ptable ∧ Leaving (s.proc p).state))
  saved : ∀ p, (∀ c, (s.cpu c).proc ≠ some p) → (s.proc p).state = .unused ∨
    ((s.proc p).state ≠ .running ∧ (s.thread (.proc p)).held = [ptable] ∧
      Context.Saves (s.proc p).context (s.thread (.proc p)).flag)

structure Inv (R : L → L → Prop) (ptable : L) (s : State κ ι L) : Prop where
  locks : Locks R s.loc s.lock
  placed : Placed ptable s

end Xv6.Spinlock
