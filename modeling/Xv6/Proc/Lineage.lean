import Xv6.Proc.Wait

/-!
Who is in the table. `param.h` sets `NCPU` to 1, so there is one running process at most, no pid is in use
twice, and from every process the parent links lead to `initproc`.
-/

namespace Xv6

namespace ProcState

-- The states in which a process can still call `wait`.
def alive : ProcState → Bool
  | .sleeping => true
  | .runnable => true
  | .running => true
  | _ => false

def pastEmbryo : ProcState → Bool
  | .unused => false
  | .embryo => false
  | _ => true

end ProcState

namespace State

variable {k : Accounting} {s s' t : State} {e : Event} {o : Output} {p q np : Slot}

-- `c->proc`. Only the first process gets to `panic`, and it does not leave the CPU there.
def proc (s : State) : Option Slot :=
  match s.cpu with
  | .run p => some p
  | .halted => s.initproc
  | _ => none

-- Following `parent` from `p` ends at `initproc`.
inductive Descends (s : State) : Slot → Prop where
  | init {p : Slot} : s.initproc = some p → Descends s p
  | child {p q : Slot} : (s.ptable p).parent = some q → Descends s q → Descends s p

structure Consistent (s : State) : Prop where
  running : ∀ p, (s.ptable p).state = .running → s.proc = some p
  pid_inj : ∀ p q, (s.ptable p).state ≠ .unused → (s.ptable q).state ≠ .unused →
    (s.ptable p).pid = (s.ptable q).pid → p = q
  pid_lt : ∀ p, (s.ptable p).state ≠ .unused → (s.ptable p).pid.toNat < s.nextpid.toNat
  parent : ∀ p, (s.ptable p).state.pastEmbryo = true → s.initproc ≠ some p →
    ∃ q, (s.ptable p).parent = some q ∧ (s.ptable q).state ≠ .unused ∧ (s.ptable q).state ≠ .zombie
  descends : ∀ p, (s.ptable p).state.pastEmbryo = true → Descends s p

-- How many processes `allocproc` has created.
def created (s : State) (_ : Event) (s' : State) (n : Nat) : Nat :=
  if (findSlot (s.claimed s')).isSome then n + 1 else n

/--
The invariant, `n` is the number of processes created so far. A parent is older than its children, which is
why the parent links cannot form a circle.
-/
structure Lineage (s : State) (n : Nat) : Prop where
  family : s.Family
  halted : s.cpu = .halted → ∀ p, (s.ptable p).state = .running → s.initproc = some p
  next : s.nextpid.toNat = n + 1
  pid_inj : ∀ p q, (s.ptable p).state ≠ .unused → (s.ptable q).state ≠ .unused →
    (s.ptable p).pid = (s.ptable q).pid → p = q
  pid_lt : ∀ p, (s.ptable p).state ≠ .unused → (s.ptable p).pid.toNat < s.nextpid.toNat
  older : ∀ p np, (s.ptable p).pc.child = some np → (s.ptable p).pid.toNat < (s.ptable np).pid.toNat
  publish : ∀ p np, (s.ptable p).pc = .forkPublish np → (s.ptable np).parent = some p
  first : ∀ p q, s.initproc = some p → q ≠ p → (s.ptable q).state ≠ .unused →
    (s.ptable p).pid.toNat < (s.ptable q).pid.toNat
  parent : ∀ p, (s.ptable p).state.pastEmbryo = true → s.initproc ≠ some p →
    ∃ q, (s.ptable p).parent = some q ∧ (s.ptable q).state.alive = true ∧
      (s.ptable q).pid.toNat < (s.ptable p).pid.toNat
  init : ∃ p, s.initproc = some p

-- What a step can do to the table as far as the invariant is concerned.
structure Keeps (s s' : State) : Prop where
  init : s'.initproc = s.initproc
  pids : ∀ p, (s'.ptable p).state ≠ .unused →
    ((s.ptable p).state ≠ .unused ∧ (s'.ptable p).pid = (s.ptable p).pid) ∨
    (s.claimed s' p = true ∧ (s'.ptable p).pid = s.nextpid)
  next : (s'.nextpid = s.nextpid ∧ ∀ p, s.claimed s' p = false) ∨
    (s'.nextpid = s.nextpid + 1 ∧ ∃ np, ∀ p, s.claimed s' p = true ↔ p = np)
  older : ∀ p np, (s'.ptable p).pc.child = some np →
    (s'.ptable p).pid = (s.ptable p).pid ∧ (s.ptable p).state ≠ .unused ∧
    ((s.ptable p).pc.child = some np ∧ (s'.ptable np).pid = (s.ptable np).pid ∨ s.claimed s' np = true)
  publish : ∀ p np, (s'.ptable p).pc = .forkPublish np →
    (s'.ptable np).parent = some p ∨
    (s.ptable p).pc = .forkPublish np ∧ (s'.ptable np).parent = (s.ptable np).parent
  parent : ∀ p, (s'.ptable p).state.pastEmbryo = true →
    ((s.ptable p).state.pastEmbryo = true ∧
      ((s'.ptable p).parent = (s.ptable p).parent ∨ (s'.ptable p).parent = s.initproc)) ∨
    ∃ q, (s.ptable q).pc = .forkPublish p ∧ (s.ptable q).state = .running ∧
      (s'.ptable p).parent = (s.ptable p).parent
  alive : ∀ q, (s.ptable q).state.alive = true → (s'.ptable q).state.alive = true ∨
    ∀ p, (s'.ptable p).parent ≠ some q

structure Same (r r' : Proc) : Prop where
  pid : r'.pid = r.pid
  parent : r'.parent = r.parent
  unused : r'.state = .unused ↔ r.state = .unused
  embryo : r'.state = .embryo ↔ r.state = .embryo
  alive : r'.state.alive = r.state.alive
  child : ∀ np, r'.pc.child = some np → r.pc.child = some np
  publish : ∀ np, r'.pc = .forkPublish np → r.pc = .forkPublish np

namespace Same

theorem refl (r : Proc) : Same r r :=
  ⟨rfl, rfl, Iff.rfl, Iff.rfl, rfl, fun _ => id, fun _ => id⟩

theorem trans {r r' r'' : Proc} (h : Same r r') (h' : Same r' r'') : Same r r'' where
  pid := h'.pid.trans h.pid
  parent := h'.parent.trans h.parent
  unused := h'.unused.trans h.unused
  embryo := h'.embryo.trans h.embryo
  alive := h'.alive.trans h.alive
  child np hnp := h.child np (h'.child np hnp)
  publish np hnp := h.publish np (h'.publish np hnp)

theorem wakeFor (r : Proc) (ticks : Word) (f : Chan → Bool) : Same r (r.wakeFor k ticks f) := by
  rcases Proc.wakeFor_cases k ticks f r with ⟨hs, -, heq⟩ | ⟨-, heq⟩
  . rw [heq]
    constructor <;> simp [Proc.wakeup, hs, ProcState.alive]
  . rw [heq]
    exact refl r

theorem setPc {pc : Pc} (r : Proc) (hpc : pc.child = none) : Same r { r with pc := pc } := by
  refine ⟨rfl, rfl, Iff.rfl, Iff.rfl, rfl, ?_, ?_⟩
  . simp [hpc]
  . rintro np rfl
    simp [Pc.child] at hpc

theorem of_alive {r r' : Proc} (hpid : r'.pid = r.pid) (hparent : r'.parent = r.parent) (hpc : r'.pc = r.pc)
    (halive : r.state.alive = true) (halive' : r'.state.alive = true)
    : Same r r' := by
  have hout : ∀ {st : ProcState}, st.alive = true → st ≠ .unused ∧ st ≠ .embryo := by
    intro st hst
    cases st <;> simp [ProcState.alive] at hst <;> simp
  refine ⟨hpid, hparent, ?_, ?_, by rw [halive, halive'], ?_, ?_⟩
  . simp [hout halive, hout halive']
  . simp [hout halive, hout halive']
  . simp [hpc]
  . simp [hpc]

theorem pastEmbryo {r r' : Proc} (h : Same r r') : r'.state.pastEmbryo = r.state.pastEmbryo := by
  have hiff : ∀ {st : ProcState}, st.pastEmbryo = true ↔ st ≠ .unused ∧ st ≠ .embryo := by
    intro st
    cases st <;> simp [ProcState.pastEmbryo]
  rw [Bool.eq_iff_iff, hiff, hiff, ne_eq, ne_eq, h.unused, h.embryo]

theorem resume (r : Proc) : Same r r.resume := by
  refine ⟨by simp, by simp, by simp, by simp, by simp, by simp, ?_⟩
  intro np hnp
  unfold Proc.resume at hnp
  split at hnp
  . dsimp only at hnp
    split at hnp <;> simp at hnp
  . exact hnp

end Same

theorem Same.modify {f : Proc → Proc} (hf : Same (s.ptable p) (f (s.ptable p))) (q : Slot)
    : Same (s.ptable q) ((s.modify p f).ptable q) := by
  rw [modify_ptable]
  split
  . next hq =>
    rw [hq]
    exact hf
  . exact .refl _

theorem Same.handler {h : State} (hh : Handler k s e h) (q : Slot) : Same (s.ptable q) (h.ptable q) := by
  cases hh with
  | timer yields =>
    rw [tick_ptable]
    have htick : Same (s.ptable q) ((s.ptable q).tick k) :=
      ⟨rfl, rfl, Iff.rfl, Iff.rfl, rfl, fun _ => id, fun _ => id⟩
    exact htick.trans (.wakeFor _ _ _)
  | intr chan =>
    rw [wakeup1_ptable]
    exact .wakeFor _ _ _

theorem Same.kill (pid : Word) (q : Slot) : Same (s.ptable q) ((s.kill k pid).1.ptable q) := by
  rcases s.kill_cases k pid with ⟨p, -, h⟩ | ⟨-, h⟩
  . rw [h]
    apply Same.modify
    unfold Proc.kill
    split
    . next hsleep => exact .of_alive rfl rfl rfl (by rw [hsleep]; rfl) rfl
    . exact ⟨rfl, rfl, Iff.rfl, Iff.rfl, rfl, fun _ => id, fun _ => id⟩
  . rw [h]
    exact .refl _

theorem claimed_eq_false (h : (s'.ptable p).state = .embryo → (s.ptable p).state = .embryo)
    : s.claimed s' p = false := by
  simp only [claimed, decide_eq_false_iff_not, not_and]
  intro hunused hembryo
  simp [h hembryo] at hunused

theorem Keeps.of_same (hs : s.Wf) (h : ∀ p, Same (s.ptable p) (s'.ptable p)) (hnext : s'.nextpid = s.nextpid)
    (hinit : s'.initproc = s.initproc)
    : Keeps s s' where
  init := hinit
  pids p hp := .inl ⟨fun hu => hp ((h p).unused.mpr hu), (h p).pid⟩
  next := .inl ⟨hnext, fun p => claimed_eq_false (h p).embryo.mp⟩
  older p np hc := by
    have hchild := (h p).child np hc
    refine ⟨(h p).pid, ?_, .inl ⟨hchild, (h np).pid⟩⟩
    intro hu
    have := hs.child_eq_none (p := p) (by simp [hu])
    simp [this] at hchild
  publish p np hpc := .inr ⟨(h p).publish np hpc, (h np).parent⟩
  parent p hp := .inl ⟨(h p).pastEmbryo ▸ hp, .inl (h p).parent⟩
  alive q hq := .inl ((h q).alive ▸ hq)

theorem Keeps.fork (hs : s.Wf) (hp : (s.ptable p).state = .running) (hnp : (s.ptable np).state = .unused)
    : Keeps s ({ s.modify np (.alloc k s.ticks s.nextpid) with nextpid := s.nextpid + 1 }.setPc p
        (.forkKstack np)) := by
  have hne : p ≠ np := by
    intro h
    rw [h, hnp] at hp
    simp at hp
  have hnone : (s.ptable np).pc.child = none := hs.child_eq_none (by simp [hnp])
  generalize hs' : ({ s.modify np (.alloc k s.ticks s.nextpid) with nextpid := s.nextpid + 1 }.setPc p
    (.forkKstack np)) = s'
  have htab : ∀ q, s'.ptable q = if q = p then { s.ptable q with pc := .forkKstack np } else
      if q = np then (s.ptable q).alloc k s.ticks s.nextpid else s.ptable q := by
    intro q
    rw [← hs', setPc_ptable]
    dsimp only
    rw [modify_ptable]
    split
    . next hq => simp [hq, hne]
    . rfl
  have hclaimed : ∀ q, s.claimed s' q = true ↔ q = np := by
    intro q
    simp only [claimed, decide_eq_true_eq]
    constructor
    . rintro ⟨hu, hembryo⟩
      by_contra hq
      rw [htab, if_neg hq] at hembryo
      split at hembryo <;> simp [hu] at hembryo
    . rintro rfl
      refine ⟨hnp, ?_⟩
      rw [htab, if_neg hne.symm, if_pos rfl]
      rfl
  have hpid : ∀ q, q ≠ np → (s'.ptable q).pid = (s.ptable q).pid := by
    intro q hq
    rw [htab, if_neg hq]
    split <;> rfl
  have hparent : ∀ q, (s'.ptable q).parent = (s.ptable q).parent := by
    intro q
    rw [htab]
    split
    . rfl
    . split <;> rfl
  have hstate : ∀ q, q ≠ np → (s'.ptable q).state = (s.ptable q).state := by
    intro q hq
    rw [htab, if_neg hq]
    split <;> rfl
  constructor
  . rw [← hs']
    rfl
  . intro q hq
    by_cases h : q = np
    . refine .inr ⟨(hclaimed q).mpr h, ?_⟩
      rw [htab, h, if_neg hne.symm, if_pos rfl]
      rfl
    . exact .inl ⟨hstate q h ▸ hq, hpid q h⟩
  . right
    refine ⟨?_, np, hclaimed⟩
    rw [← hs']
    rfl
  . intro q c hc
    by_cases hq : q = p
    . subst hq
      refine ⟨hpid q hne, by simp [hp], .inr ?_⟩
      rw [htab, if_pos rfl] at hc
      rw [hclaimed]
      exact (Option.some.inj hc).symm
    . have hqnp : q ≠ np := by
        rintro rfl
        simp [htab, hq, Proc.alloc, hnone] at hc
      rw [htab, if_neg hq, if_neg hqnp] at hc
      have hcnp : c ≠ np := by
        rintro rfl
        simp [hs.embryo q c hc] at hnp
      refine ⟨hpid q hqnp, ?_, .inl ⟨hc, hpid c hcnp⟩⟩
      intro hu
      simp [hs.child_eq_none (p := q) (by simp [hu])] at hc
  . intro q c hc
    right
    refine ⟨?_, hparent c⟩
    rw [htab] at hc
    split at hc
    . simp at hc
    . split at hc
      . next hq =>
        rw [hq] at hc ⊢
        exact hc
      . exact hc
  . intro q hq
    have hqnp : q ≠ np := by
      rintro rfl
      simp [htab, hne.symm, Proc.alloc, ProcState.pastEmbryo] at hq
    exact .inl ⟨hstate q hqnp ▸ hq, .inl (hparent q)⟩
  . intro q hq
    have hqnp : q ≠ np := by
      rintro rfl
      simp [hnp, ProcState.alive] at hq
    exact .inl (hstate q hqnp ▸ hq)

-- The current process changes an embryo of its own or a zombie, and goes on elsewhere.
theorem Keeps.modify (hs : s.Wf) {c : Slot} {f : Proc → Proc} {pc : Pc} (hp : (s.ptable p).state = .running)
    (hc : (s.ptable c).state = .embryo ∨ (s.ptable c).state = .zombie)
    (hother : ∀ q, q ≠ p → (s.ptable q).pc.child ≠ some c)
    (hfpid : (f (s.ptable c)).state ≠ .unused → (f (s.ptable c)).pid = (s.ptable c).pid)
    (hfpc : (f (s.ptable c)).pc = (s.ptable c).pc)
    (hfembryo : (f (s.ptable c)).state = .embryo → (s.ptable c).state = .embryo)
    (hpc : pc.child = none ∨ (pc = .forkPublish c ∧ (s.ptable p).pc.child = some c ∧
      (f (s.ptable c)).parent = some p ∧ (f (s.ptable c)).state = .embryo))
    (hpast : (f (s.ptable c)).state.pastEmbryo = true →
      (s.ptable p).pc = .forkPublish c ∧ (f (s.ptable c)).parent = (s.ptable c).parent)
    : Keeps s ((s.modify c f).setPc p pc) := by
  have hne : p ≠ c := by
    rintro rfl
    simp [hp] at hc
  have hnone : (s.ptable c).pc.child = none := by
    apply hs.child_eq_none
    rcases hc with hc | hc <;> simp [hc]
  generalize hs' : (s.modify c f).setPc p pc = s'
  have htabc : s'.ptable c = f (s.ptable c) := by
    rw [← hs', setPc_ptable, if_neg hne.symm, modify_ptable, if_pos rfl]
  have htabp : s'.ptable p = { s.ptable p with pc := pc } := by
    rw [← hs', setPc_ptable, if_pos rfl, modify_ptable, if_neg hne]
  have htab : ∀ q, q ≠ p → q ≠ c → s'.ptable q = s.ptable q := by
    intro q hqp hqc
    rw [← hs', setPc_ptable, if_neg hqp, modify_ptable, if_neg hqc]
  have hsame : ∀ q, q ≠ c → (s'.ptable q).state = (s.ptable q).state ∧ (s'.ptable q).pid = (s.ptable q).pid ∧
      (s'.ptable q).parent = (s.ptable q).parent := by
    intro q hqc
    by_cases hqp : q = p
    . rw [hqp, htabp]
      exact ⟨rfl, rfl, rfl⟩
    . rw [htab q hqp hqc]
      exact ⟨rfl, rfl, rfl⟩
  constructor
  . rw [← hs']
    rfl
  . intro q hq
    left
    by_cases hqc : q = c
    . subst hqc
      rw [htabc] at hq ⊢
      refine ⟨?_, hfpid hq⟩
      rcases hc with hc | hc <;> simp [hc]
    . exact ⟨(hsame q hqc).1 ▸ hq, (hsame q hqc).2.1⟩
  . refine .inl ⟨by rw [← hs']; rfl, ?_⟩
    intro q
    apply claimed_eq_false
    by_cases hqc : q = c
    . rw [hqc, htabc]
      exact hfembryo
    . rw [(hsame q hqc).1]
      exact id
  . intro q d hd
    have hqc : q ≠ c := by
      rintro rfl
      simp [htabc, hfpc, hnone] at hd
    have hqchild : (s.ptable q).pc.child = some d ∧ (s'.ptable d).pid = (s.ptable d).pid := by
      by_cases hqp : q = p
      . subst hqp
        rw [htabp] at hd
        rcases hpc with hpc | ⟨rfl, hchild, -, hembryo⟩
        . simp [hpc] at hd
        . simp only [Pc.child, Option.some.injEq] at hd
          subst hd
          rw [htabc]
          exact ⟨hchild, hfpid (by simp [hembryo])⟩
      . rw [htab q hqp hqc] at hd
        refine ⟨hd, (hsame d ?_).2.1⟩
        rintro rfl
        exact hother q hqp hd
    refine ⟨(hsame q hqc).2.1, ?_, .inl hqchild⟩
    intro hu
    have := hqchild.1
    simp [hs.child_eq_none (p := q) (by simp [hu])] at this
  . intro q d hd
    by_cases hqp : q = p
    . subst hqp
      rw [htabp] at hd
      rcases hpc with hpc | ⟨rfl, -, hparent, -⟩
      . simp only at hd
        simp [hd, Pc.child] at hpc
      . simp only [Pc.forkPublish.injEq] at hd
        subst hd
        rw [htabc]
        exact .inl hparent
    . have hqc : q ≠ c := by
        rintro rfl
        rw [htabc, hfpc] at hd
        simp [hd, Pc.child] at hnone
      rw [htab q hqp hqc] at hd
      refine .inr ⟨hd, (hsame d ?_).2.2⟩
      rintro rfl
      exact hother q hqp (by rw [hd]; rfl)
  . intro q hq
    by_cases hqc : q = c
    . subst hqc
      rw [htabc] at hq ⊢
      exact .inr ⟨p, (hpast hq).1, hp, (hpast hq).2⟩
    . exact .inl ⟨(hsame q hqc).1 ▸ hq, .inl (hsame q hqc).2.2⟩
  . intro q hq
    have hqc : q ≠ c := by
      rintro rfl
      rcases hc with hc | hc <;> simp [hc, ProcState.alive] at hq
    exact .inl ((hsame q hqc).1 ▸ hq)

theorem Keeps.exit (hs : s.Wf) (hpublish : ∀ q np, (s.ptable q).pc = .forkPublish np → (s.ptable np).parent = some q)
    {intr : Bool} (hp : (s.ptable p).state = .running) (hpc : (s.ptable p).pc = .exit intr)
    (hinit : s.initproc ≠ some p)
    : Keeps s (s.exit k p) := by
  have hpid : ∀ q, ((s.exit k p).ptable q).pid = (s.ptable q).pid := by
    intro q
    rw [exit_ptable]
    dsimp only
    split <;> simp [Proc.exit]
  have hqpc : ∀ q, ((s.exit k p).ptable q).pc = (s.ptable q).pc := by
    intro q
    rw [exit_ptable]
    dsimp only
    split <;> simp [Proc.exit]
  have hparent : ∀ q, ((s.exit k p).ptable q).parent
      = if (s.ptable q).parent = some p then s.initproc else (s.ptable q).parent := by
    intro q
    rw [exit_ptable]
    dsimp only
    split <;> simp [Proc.exit, Proc.orphan_parent]
  have hsame : ∀ q, q ≠ p → Same { s.ptable q with parent := none } { (s.exit k p).ptable q with parent := none } := by
    intro q hq
    rw [exit_ptable]
    dsimp only
    rw [if_neg hq]
    have hwake := Same.wakeFor (k := k) ((s.ptable q).orphan p s.initproc) s.ticks (s.exitWakes p)
    exact ⟨by simp, rfl, by simp, by simp, by simpa using hwake.alive, by simp, by simp⟩
  constructor
  . exact (s.exit_frame k p).2.1
  . intro q hq
    left
    refine ⟨?_, hpid q⟩
    by_cases hqp : q = p
    . simp [hqp, hp]
    . intro hu
      exact hq ((hsame q hqp).unused.mpr hu)
  . refine .inl ⟨(s.exit_frame k p).2.2.2, ?_⟩
    intro q
    apply claimed_eq_false
    by_cases hqp : q = p
    . rw [hqp, exit_ptable]
      simp [Proc.exit]
    . exact (hsame q hqp).embryo.mp
  . intro q c hc
    rw [hqpc] at hc
    refine ⟨hpid q, ?_, .inl ⟨hc, hpid c⟩⟩
    intro hu
    simp [hs.child_eq_none (p := q) (by simp [hu])] at hc
  . intro q c hc
    rw [hqpc] at hc
    left
    rw [hparent, hpublish q c hc, if_neg]
    rw [Option.some.injEq]
    rintro rfl
    simp [hpc] at hc
  . intro q hq
    left
    constructor
    . by_cases hqp : q = p
      . rw [hqp, hp]
        rfl
      . exact (hsame q hqp).pastEmbryo ▸ hq
    . rw [hparent]
      split
      . exact .inr rfl
      . exact .inl rfl
  . intro q hq
    by_cases hqp : q = p
    . right
      intro c
      rw [hparent, hqp]
      split
      . exact hinit
      . next h => exact h
    . exact .inl ((hsame q hqp).alive ▸ hq)

theorem step_keeps (hs : s.Wf) (hpublish : ∀ q np, (s.ptable q).pc = .forkPublish np → (s.ptable np).parent = some q)
    (h : s.step k e = some (s', o))
    : Keeps s s' := by
  have hpc : ∀ {p : Slot} {pc : Pc}, pc.child = none → Keeps s (s.setPc p pc) :=
    fun h => .of_same hs (.modify (.setPc _ h)) rfl rfl
  have howner : ∀ {p np : Slot}, (s.ptable p).pc.child = some np → ∀ q, q ≠ p → (s.ptable q).pc.child ≠ some np := by
    intro p np hp q hq hchild
    exact hq (hs.owner q p np hchild hp)
  cases step_cases h with
  | scanStart | scanEnd | scanSkip | exitInit => exact .of_same hs (fun q => .refl _) rfl rfl
  | dispatch p hcpu hp =>
    refine Keeps.of_same hs ?_ rfl rfl
    intro q
    rw [dispatch_ptable]
    split
    . next hq =>
      subst hq
      have hrun : Same (s.ptable q) ((s.ptable q).dispatch k s.ticks) :=
        .of_alive rfl rfl rfl (by rw [hp]; rfl) rfl
      exact hrun.trans (.resume _)
    . exact .refl _
  | trapIdle _ _ hh | trapStay _ _ _ hh => exact .of_same hs (.handler hh) (by cases hh <;> rfl) (by cases hh <;> rfl)
  | trapExit p _ t hh =>
    refine Keeps.of_same hs ?_ (by cases hh <;> rfl) (by cases hh <;> rfl)
    intro q
    exact (Same.handler hh q).trans (.modify (.setPc _ rfl) q)
  | trapYield p pc hcpu hon hexit hstate hpc =>
    refine Keeps.of_same hs ?_ rfl rfl
    intro q
    have hset : Same ((s.tick k).ptable q) (((s.tick k).setPc p pc).ptable q) := by
      apply Same.modify
      rw [hpc]
      split
      . exact .setPc _ rfl
      . exact .refl _
    refine ((Same.handler (.timer true) q).trans hset).trans (.modify (.of_alive rfl rfl rfl ?_ rfl) q)
    rw [setPc_ptable, if_pos rfl, hstate]
    rfl
  | fault p hcpu =>
    refine Keeps.of_same hs ?_ rfl rfl
    intro q
    refine Same.trans (.modify ?_ q) (.modify (.setPc _ rfl) q)
    exact ⟨rfl, rfl, Iff.rfl, Iff.rfl, rfl, fun _ => id, fun _ => id⟩
  | sysKill p pid =>
    have hframe : (s.kill k pid).1.nextpid = s.nextpid ∧ (s.kill k pid).1.initproc = s.initproc := by
      rcases s.kill_cases k pid with ⟨p, -, h⟩ | ⟨-, h⟩ <;> rw [h] <;> exact ⟨rfl, rfl⟩
    refine Keeps.of_same hs ?_ hframe.1 hframe.2
    intro q
    exact (Same.kill pid q).trans (.modify (.setPc _ rfl) q)
  | sysFork p np hcpu _ _ hnp => exact .fork hs (hs.running p hcpu) hnp
  | sysKilled | sysForkFull | sysExit | sysOther | waitFail | done => exact hpc rfl
  | ret p =>
    apply hpc
    split <;> rfl
  | reap p c _ two hcpu hscan hparent hzombie =>
    apply Keeps.modify hs (hs.running p hcpu) (.inr hzombie)
    . intro q _ hq
      simp [hs.embryo q c hq] at hzombie
    . simp [Proc.reap]
    . rfl
    . simp [Proc.reap]
    . exact .inl rfl
    . simp [Proc.reap, ProcState.pastEmbryo]
  | waitSleep p _ two hcpu =>
    refine Keeps.of_same hs ?_ rfl rfl
    intro q
    refine Same.trans (.modify (.setPc _ rfl) q) (.modify (.of_alive rfl rfl rfl ?_ rfl) q)
    rw [modify_ptable, if_pos rfl]
    dsimp only
    rw [hs.running p hcpu]
    rfl
  | sleep p chan hcpu =>
    refine Keeps.of_same hs ?_ rfl rfl
    exact .modify (.of_alive rfl rfl rfl (by rw [hs.running p hcpu]; rfl) rfl)
  | wakeup p chan =>
    refine Keeps.of_same hs ?_ rfl rfl
    intro q
    rw [wakeup1_ptable]
    exact .wakeFor _ _ _
  | forkKstack p np hcpu hp =>
    have hchild : (s.ptable p).pc.child = some np := by rw [hp]; rfl
    refine Keeps.of_same hs ?_ rfl rfl
    intro q
    have huser : Same (s.ptable q) ((s.setPc np .user).ptable q) := .modify (.setPc _ rfl) q
    refine huser.trans (.modify ?_ q)
    have hne : p ≠ np := by
      rintro rfl
      have := hs.running p hcpu
      simp [hs.embryo p p hchild] at this
    rw [setPc_ptable, if_neg hne]
    refine ⟨rfl, rfl, Iff.rfl, Iff.rfl, rfl, ?_, ?_⟩
    . intro c hc
      rw [hchild]
      exact hc
    . simp
  | forkFail p np hcpu hp =>
    have hchild : (s.ptable p).pc.child = some np := by
      rcases hp with hp | hp <;> rw [hp] <;> rfl
    apply Keeps.modify hs (hs.running p hcpu) (.inl (hs.embryo p np hchild)) (howner hchild)
    . simp
    . rfl
    . simp
    . exact .inl rfl
    . simp [ProcState.pastEmbryo]
  | forkCopy p np hcpu hp =>
    have hchild : (s.ptable p).pc.child = some np := by rw [hp]; rfl
    have hembryo := hs.embryo p np hchild
    apply Keeps.modify hs (hs.running p hcpu) (.inl hembryo) (howner hchild)
    . simp
    . rfl
    . simp
    . exact .inr ⟨rfl, hchild, rfl, hembryo⟩
    . simp [hembryo, ProcState.pastEmbryo]
  | forkPublish p np ok hcpu hp =>
    have hchild : (s.ptable p).pc.child = some np := by rw [hp]; rfl
    apply Keeps.modify hs (hs.running p hcpu) (.inl (hs.embryo p np hchild)) (howner hchild)
    . simp
    . rfl
    . simp
    . exact .inl rfl
    . exact fun _ => ⟨hp, rfl⟩
  | exit p intr hcpu hp hinit => exact .exit hs hpublish (hs.running p hcpu) hp hinit

theorem alive_of_init (hs : s.Family) (hp : s.initproc = some p) : (s.ptable p).state.alive = true := by
  rcases (hs.rooted p).state hp with h | h | h <;> rw [h] <;> rfl

theorem ne_unused_of_alive {st : ProcState} (h : st.alive = true) : st ≠ .unused := by
  rintro rfl
  simp [ProcState.alive] at h

theorem Keeps.created (h : Keeps s s') (e : Event) (n : Nat)
    : (s'.nextpid = s.nextpid ∧ s.created e s' n = n ∧ ∀ p, s.claimed s' p = false) ∨
      (s'.nextpid = s.nextpid + 1 ∧ s.created e s' n = n + 1 ∧ ∃ np, ∀ p, s.claimed s' p = true ↔ p = np) := by
  unfold State.created
  rcases h.next with ⟨hnext, hnone⟩ | ⟨hnext, np, hnp⟩
  . left
    refine ⟨hnext, ?_, hnone⟩
    rw [if_neg]
    intro hsome
    obtain ⟨p, hp⟩ := Option.isSome_iff_exists.mp hsome
    have := findSlot_eq_some hp
    simp [hnone p] at this
  . right
    refine ⟨hnext, ?_, np, hnp⟩
    rw [if_pos]
    by_contra hnone
    rw [Bool.not_eq_true, Option.isSome_eq_false_iff, Option.isNone_iff_eq_none] at hnone
    have := findSlot_eq_none hnone np
    rw [(hnp np).mpr rfl] at this
    simp at this

theorem Lineage.keeps {n n' : Nat} (h : Lineage s n) (hk : Keeps s s') (hn : s.created e s' n = n') (hn' : n' < 2 ^ 31)
    (hfamily : s'.Family)
    (hhalted : s'.cpu = .halted → ∀ p, (s'.ptable p).state = .running → s'.initproc = some p)
    : Lineage s' n' := by
  have hclaim : ∀ p, s.claimed s' p = true → (s.ptable p).state = .unused ∧ (s'.ptable p).pid = s.nextpid ∧
      s'.nextpid.toNat = s.nextpid.toNat + 1 := by
    intro p hp
    have hp' := hp
    simp only [claimed, decide_eq_true_eq] at hp'
    refine ⟨hp'.1, ?_, ?_⟩
    . rcases hk.pids p (by simp [hp'.2]) with ⟨hu, -⟩ | ⟨-, hpid⟩
      . exact absurd hp'.1 hu
      . exact hpid
    . rcases hk.created e n with ⟨-, -, hnone⟩ | ⟨hnext, hcount, -⟩
      . simp [hnone p] at hp
      . have := h.next
        rw [hnext, BitVec.toNat_add]
        show (s.nextpid.toNat + 1) % 2 ^ 32 = _
        omega
  have hnext : s'.nextpid.toNat = n' + 1 ∧ s.nextpid.toNat ≤ s'.nextpid.toNat := by
    have := h.next
    rcases hk.created e n with ⟨hnext, hcount, -⟩ | ⟨hnext, hcount, np, hnp⟩
    . rw [hnext]
      omega
    . have := (hclaim np ((hnp np).mpr rfl)).2.2
      omega
  have hpid : ∀ p, (s.ptable p).state.alive = true → (s'.ptable p).state ≠ .unused →
      (s'.ptable p).pid = (s.ptable p).pid := by
    intro p hp hp'
    rcases hk.pids p hp' with ⟨-, hpid⟩ | ⟨hclaimed, -⟩
    . exact hpid
    . exact absurd (hclaim p hclaimed).1 (ne_unused_of_alive hp)
  have hfirst : ∀ p q, s'.initproc = some p → q ≠ p → (s'.ptable q).state ≠ .unused →
      (s'.ptable p).pid.toNat < (s'.ptable q).pid.toNat := by
    intro p q hp hq hstate
    have hp' := hp
    rw [hk.init] at hp'
    have halive := alive_of_init h.family hp'
    rw [hpid p halive (ne_unused_of_alive (alive_of_init hfamily hp))]
    rcases hk.pids q hstate with ⟨hu, hqpid⟩ | ⟨-, hqpid⟩
    . rw [hqpid]
      exact h.first p q hp' hq hu
    . rw [hqpid]
      exact h.pid_lt p (ne_unused_of_alive halive)
  refine ⟨hfamily, hhalted, hnext.1, ?_, ?_, ?_, ?_, hfirst, ?_, ?_⟩
  . intro p q hp hq heq
    rcases hk.pids p hp with ⟨hup, hp'⟩ | ⟨hclp, hp'⟩
    . rcases hk.pids q hq with ⟨huq, hq'⟩ | ⟨hclq, hq'⟩
      . exact h.pid_inj p q hup huq (by rw [← hp', heq, hq'])
      . have := h.pid_lt p hup
        rw [← hp', heq, hq'] at this
        omega
    . rcases hk.pids q hq with ⟨huq, hq'⟩ | ⟨hclq, hq'⟩
      . have := h.pid_lt q huq
        rw [← hq', ← heq, hp'] at this
        omega
      . rcases hk.next with ⟨-, hnone⟩ | ⟨-, np, hnp⟩
        . simp [hnone p] at hclp
        . rw [(hnp p).mp hclp, (hnp q).mp hclq]
  . intro p hp
    rcases hk.pids p hp with ⟨hup, hp'⟩ | ⟨hclp, hp'⟩
    . have := h.pid_lt p hup
      rw [hp']
      omega
    . have := (hclaim p hclp).2.2
      rw [hp']
      omega
  . intro p np hchild
    obtain ⟨hp, hu, ⟨hold, hnp⟩ | hcl⟩ := hk.older p np hchild
    . rw [hp, hnp]
      exact h.older p np hold
    . rw [hp, (hclaim np hcl).2.1]
      exact h.pid_lt p hu
  . intro p np hpc
    rcases hk.publish p np hpc with hparent | ⟨hold, hparent⟩
    . exact hparent
    . rw [hparent]
      exact h.publish p np hold
  . intro p hp hinit
    have hup : (s'.ptable p).state ≠ .unused := by
      intro hu
      simp [hu, ProcState.pastEmbryo] at hp
    rcases hk.parent p hp with ⟨hpast, hparent | hparent⟩ | ⟨q, hpc, hrunning, hparent⟩
    . obtain ⟨q, hq, halive, hlt⟩ := h.parent p hpast (hk.init ▸ hinit)
      have halive' : (s'.ptable q).state.alive = true := by
        rcases hk.alive q halive with h | h
        . exact h
        . exact absurd (hparent.trans hq) (h p)
      refine ⟨q, hparent.trans hq, halive', ?_⟩
      rw [hpid q halive (ne_unused_of_alive halive')]
      rcases hk.pids p hup with ⟨-, hp'⟩ | ⟨hclp, -⟩
      . rwa [hp']
      . simp [(hclaim p hclp).1, ProcState.pastEmbryo] at hpast
    . obtain ⟨q, hq⟩ := h.init
      rw [← hk.init] at hq
      refine ⟨q, by rw [hparent, ← hk.init, hq], alive_of_init hfamily hq, hfirst q p hq ?_ hup⟩
      rintro rfl
      exact hinit hq
    . have halive : (s.ptable q).state.alive = true := by
        rw [hrunning]
        rfl
      have hq := hparent.trans (h.publish q p hpc)
      have halive' : (s'.ptable q).state.alive = true := by
        rcases hk.alive q halive with h | h
        . exact h
        . exact absurd hq (h p)
      refine ⟨q, hq, halive', ?_⟩
      have hchild : (s.ptable q).pc.child = some p := by rw [hpc]; rfl
      have hembryo := h.family.wf.embryo q p hchild
      rw [hpid q halive (ne_unused_of_alive halive')]
      rcases hk.pids p hup with ⟨-, hp'⟩ | ⟨hclp, -⟩
      . rw [hp']
        exact h.older q p hchild
      . simp [(hclaim p hclp).1] at hembryo
  . obtain ⟨p, hp⟩ := h.init
    exact ⟨p, by rw [hk.init, hp]⟩

theorem step_lineage {n : Nat} (h : Lineage s n) (hstep : s.step k e = some (s', o)) (hn : s.created e s' n < 2 ^ 31)
    : Lineage s' (s.created e s' n) := by
  apply h.keeps (step_keeps h.family.wf h.publish hstep) rfl hn (step_family h.family hstep)
  -- the CPU halts in the `exit` of the first process only
  intro hcpu p hp
  cases step_cases hstep with
  | exitInit q intr hrun _ hinit =>
    rcases h.family.wf.current p hp with hp | hp
    . rw [hrun, Cpu.run.injEq] at hp
      rw [← hp]
      exact hinit
    . simp [hrun] at hp
  | exit => simp [exit_frame] at hcpu
  | trapIdle _ _ hh hidle => cases hh <;> simp [hidle] at hcpu
  | trapExit _ _ _ hh hrun => cases hh <;> simp [hrun] at hcpu
  | trapStay _ _ _ hh hrun => cases hh <;> simp [hrun] at hcpu
  | sysKill q pid hrun =>
    rcases s.kill_cases k pid with ⟨_, -, hkill⟩ | ⟨-, hkill⟩ <;> simp [hkill, hrun] at hcpu
  | _ => simp_all

theorem boot_lineage : Lineage (boot k) 1 := by
  have hinit : (boot k).initproc = some 0 := by
    cases k <;> rfl
  have hstate : ∀ p, ((boot k).ptable p).state ≠ .unused → p = 0 := by
    intro p hp
    by_contra hne
    simp [boot_ptable, hne, Proc.zero] at hp
  have hnext : (boot k).nextpid = 2 := by
    cases k <;> rfl
  have hpc : ∀ p, ((boot k).ptable p).pc.child = none := by
    intro p
    rw [boot_ptable]
    split <;> rfl
  refine ⟨boot_family, ?_, ?_, ?_, ?_, ?_, ?_, ?_, ?_, ⟨0, hinit⟩⟩
  . simp [boot_cpu]
  . rw [hnext]
    rfl
  . intro p q hp hq _
    rw [hstate p hp, hstate q hq]
  . intro p hp
    rw [hstate p hp, hnext, boot_ptable, if_pos rfl]
    show (1 : Word).toNat < (2 : Word).toNat
    decide
  . intro p np hp
    simp [hpc] at hp
  . intro p np hp
    have := hpc p
    simp [hp, Pc.child] at this
  . intro p q hp hq hstateq
    rw [hinit, Option.some.injEq] at hp
    rw [← hp] at hq
    exact absurd (hstate q hstateq) hq
  . intro p hp hne
    have hp0 : p = 0 := by
      apply hstate
      intro hu
      simp [hu, ProcState.pastEmbryo] at hp
    rw [hp0, hinit] at hne
    simp at hne

theorem Lineage.descends {n : Nat} (h : Lineage s n) (p : Slot) (hp : (s.ptable p).state.pastEmbryo = true)
    : Descends s p := by
  -- parents have smaller pids
  induction hpid : (s.ptable p).pid.toNat using Nat.strong_induction_on generalizing p with
  | h m ih =>
    by_cases hinit : s.initproc = some p
    . exact .init hinit
    . obtain ⟨q, hq, halive, hlt⟩ := h.parent p hp hinit
      apply Descends.child hq
      apply ih _ (hpid ▸ hlt) q _ rfl
      cases hst : (s.ptable q).state <;> simp [hst, ProcState.alive] at halive <;> rfl

theorem Lineage.consistent {n : Nat} (h : Lineage s n) : s.Consistent := by
  refine ⟨?_, h.pid_inj, h.pid_lt, ?_, h.descends⟩
  . intro p hp
    unfold proc
    rcases h.family.wf.current p hp with hcpu | hcpu
    . rw [hcpu]
    . rw [hcpu]
      exact h.halted hcpu p hp
  . intro p hp hinit
    obtain ⟨q, hq, halive, -⟩ := h.parent p hp hinit
    refine ⟨q, hq, ne_unused_of_alive halive, ?_⟩
    intro hz
    simp [hz, ProcState.alive] at halive

/--
As long as fewer than 2 ^ 31 processes have been created, whatever order the critical sections run in, the table
is consistent in every state that the kernel reaches.
-/
theorem table_always_consistent (es : List Event)
    : Machine.Always (Machine.watch (step .snapshot) created) (fun x => x.2 < 2 ^ 31 → x.1.Consistent)
        (boot .snapshot, 1) es := by
  apply Machine.always_of_invariant (I := fun x => x.2 < 2 ^ 31 → Lineage x.1 x.2)
  . intro x e o x' hI hstep hn
    obtain ⟨hs, hcount⟩ := Machine.watch_eq_some hstep
    rw [hcount] at hn ⊢
    refine step_lineage (hI ?_) hs hn
    unfold created at hn
    split at hn <;> omega
  . intro x hI hn
    exact (hI hn).consistent
  . intro _
    exact boot_lineage

end State

end Xv6
