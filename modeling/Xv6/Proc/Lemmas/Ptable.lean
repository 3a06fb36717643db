import Mathlib.Data.List.Induction
import Xv6.Proc.Impl.Step

/-!
What the functions of `proc.c` do to one slot of the table.
-/

namespace Xv6

namespace Proc

variable (k : Accounting) (ticks : Word)

-- `wakeup1` on every channel that `f` accepts.
def wakeFor (f : Chan → Bool) (p : Proc) : Proc :=
  if p.state = .sleeping ∧ f p.chan then p.wakeup k ticks else p

def kill (p : Proc) : Proc :=
  if p.state = .sleeping then { p with killed := true }.wakeup k ticks else { p with killed := true }

def orphan (cur : Slot) (init : Option Slot) (p : Proc) : Proc :=
  if p.parent = some cur then { p with parent := init } else p

section

variable (f g : Chan → Bool) (cur : Slot) (init : Option Slot) (p : Proc)

theorem wakeFor_cases
    : (p.state = .sleeping ∧ f p.chan = true ∧ p.wakeFor k ticks f = p.wakeup k ticks) ∨
      (¬ (p.state = .sleeping ∧ f p.chan = true) ∧ p.wakeFor k ticks f = p) := by
  unfold wakeFor
  split
  . next h => exact .inl ⟨h.1, h.2, rfl⟩
  . next h => exact .inr ⟨h, rfl⟩

theorem wakeFor_wakeFor
    : (p.wakeFor k ticks f).wakeFor k ticks g = p.wakeFor k ticks fun c => f c || g c := by
  rcases wakeFor_cases k ticks f p with ⟨hs, hf, h⟩ | ⟨hf, h⟩
  . rw [h]
    simp [wakeFor, wakeup, hs, hf]
  . rw [h]
    unfold wakeFor
    by_cases hs : p.state = .sleeping
    . have : f p.chan = false := by simpa [hs] using hf
      simp [this]
    . simp [hs]

@[simp]
theorem wakeFor_false : p.wakeFor k ticks (fun _ => false) = p := by
  simp [wakeFor]

theorem orphan_wakeFor
    : (p.wakeFor k ticks f).orphan cur init = (p.orphan cur init).wakeFor k ticks f := by
  rcases wakeFor_cases k ticks f p with ⟨hs, hf, h⟩ | ⟨hf, h⟩
  . rw [h]
    unfold orphan
    split
    . next hp =>
      have hp : p.parent = some cur := hp
      simp [wakeFor, wakeup, hs, hf, hp]
    . next hp =>
      have hp : ¬ p.parent = some cur := hp
      simp [wakeFor, wakeup, hs, hf, hp]
  . rw [h]
    unfold orphan
    split <;> simp [wakeFor, hf]

@[simp]
theorem wakeFor_parent : (p.wakeFor k ticks f).parent = p.parent := by
  unfold wakeFor
  split <;> rfl

@[simp]
theorem wakeFor_killed : (p.wakeFor k ticks f).killed = p.killed := by
  unfold wakeFor
  split <;> rfl

@[simp]
theorem wakeFor_pid : (p.wakeFor k ticks f).pid = p.pid := by
  unfold wakeFor
  split <;> rfl

@[simp]
theorem wakeFor_pc : (p.wakeFor k ticks f).pc = p.pc := by
  unfold wakeFor
  split <;> rfl

@[simp]
theorem wakeFor_chan : (p.wakeFor k ticks f).chan = p.chan := by
  unfold wakeFor
  split <;> rfl

@[simp]
theorem wakeFor_rutime : (p.wakeFor k ticks f).rutime = p.rutime := by
  unfold wakeFor
  split
  . cases k <;> rfl
  . rfl

-- Waking up changes no state but `sleeping`, and only to `runnable`.
theorem wakeFor_state
    : (p.wakeFor k ticks f).state
        =
      if p.state = .sleeping ∧ f p.chan then .runnable else p.state := by
  unfold wakeFor
  split <;> rfl

@[simp]
theorem wakeFor_state_eq_iff {st : ProcState} (h1 : st ≠ .sleeping) (h2 : st ≠ .runnable)
    : (p.wakeFor k ticks f).state = st ↔ p.state = st := by
  rw [wakeFor_state]
  split
  . next h =>
    rw [h.1]
    simp [h1.symm, h2.symm]
  . rfl

@[simp]
theorem orphan_state : (p.orphan cur init).state = p.state := by
  unfold orphan
  split <;> rfl

@[simp]
theorem orphan_chan : (p.orphan cur init).chan = p.chan := by
  unfold orphan
  split <;> rfl

@[simp]
theorem orphan_pc : (p.orphan cur init).pc = p.pc := by
  unfold orphan
  split <;> rfl

@[simp]
theorem orphan_pid : (p.orphan cur init).pid = p.pid := by
  unfold orphan
  split <;> rfl

@[simp]
theorem orphan_killed : (p.orphan cur init).killed = p.killed := by
  unfold orphan
  split <;> rfl

@[simp]
theorem orphan_toCounters : (p.orphan cur init).toCounters = p.toCounters := by
  unfold orphan
  split <;> rfl

theorem orphan_parent
    : (p.orphan cur init).parent = if p.parent = some cur then init else p.parent := by
  unfold orphan
  split <;> rfl

end

@[simp]
theorem resume_state (p : Proc) : p.resume.state = p.state := by
  unfold resume
  split <;> rfl

@[simp]
theorem resume_parent (p : Proc) : p.resume.parent = p.parent := by
  unfold resume
  split <;> rfl

@[simp]
theorem resume_killed (p : Proc) : p.resume.killed = p.killed := by
  unfold resume
  split <;> rfl

@[simp]
theorem resume_pid (p : Proc) : p.resume.pid = p.pid := by
  unfold resume
  split <;> rfl

@[simp]
theorem resume_toCounters (p : Proc) : p.resume.toCounters = p.toCounters := by
  unfold resume
  split <;> rfl

end Proc

namespace State

variable (k : Accounting) (s : State)

@[simp]
theorem setPc_ptable (p q : Slot) (pc : Pc)
    : (s.setPc p pc).ptable q = if q = p then { s.ptable q with pc := pc } else s.ptable q := by
  simp [setPc]

@[simp]
theorem setPc_ticks (p : Slot) (pc : Pc) : (s.setPc p pc).ticks = s.ticks := rfl

@[simp]
theorem setPc_cpu (p : Slot) (pc : Pc) : (s.setPc p pc).cpu = s.cpu := rfl

@[simp]
theorem setPc_initproc (p : Slot) (pc : Pc) : (s.setPc p pc).initproc = s.initproc := rfl

@[simp]
theorem sched_ptable (p : Slot) : (s.sched p).ptable = s.ptable := rfl

@[simp]
theorem sched_ticks (p : Slot) : (s.sched p).ticks = s.ticks := rfl

@[simp]
theorem sched_cpu (p : Slot) : (s.sched p).cpu = .scan (p.val + 1) := rfl

@[simp]
theorem sched_initproc (p : Slot) : (s.sched p).initproc = s.initproc := rfl

@[simp]
theorem sched_nextpid (p : Slot) : (s.sched p).nextpid = s.nextpid := rfl

@[simp]
theorem wakeup1_ptable (chan : Chan) (q : Slot)
    : (s.wakeup1 k chan).ptable q = (s.ptable q).wakeFor k s.ticks (· = chan) := by
  simp [wakeup1, Proc.wakeFor]

@[simp]
theorem wakeup1_ticks (chan : Chan) : (s.wakeup1 k chan).ticks = s.ticks := rfl

@[simp]
theorem wakeup1_cpu (chan : Chan) : (s.wakeup1 k chan).cpu = s.cpu := rfl

@[simp]
theorem wakeup1_initproc (chan : Chan) : (s.wakeup1 k chan).initproc = s.initproc := rfl

@[simp]
theorem wakeup1_nextpid (chan : Chan) : (s.wakeup1 k chan).nextpid = s.nextpid := rfl

@[simp]
theorem tick_ptable (q : Slot)
    : (s.tick k).ptable q = ((s.ptable q).tick k).wakeFor k (s.ticks + 1) (· = .ticks) := by
  simp [tick]

@[simp]
theorem tick_ticks : (s.tick k).ticks = s.ticks + 1 := rfl

@[simp]
theorem tick_cpu : (s.tick k).cpu = s.cpu := rfl

@[simp]
theorem tick_initproc : (s.tick k).initproc = s.initproc := rfl

@[simp]
theorem yield_ptable (p q : Slot)
    : (s.yield k p).ptable q = if q = p then (s.ptable q).yield k s.ticks else s.ptable q := by
  simp [yield]

@[simp]
theorem yield_ticks (p : Slot) : (s.yield k p).ticks = s.ticks := rfl

@[simp]
theorem yield_cpu (p : Slot) : (s.yield k p).cpu = .scan (p.val + 1) := rfl

@[simp]
theorem sleep_ptable (p q : Slot) (chan : Chan)
    : (s.sleep k p chan).ptable q
        =
      if q = p then (s.ptable q).sleep k s.ticks chan else s.ptable q := by
  simp [sleep]

@[simp]
theorem sleep_ticks (p : Slot) (chan : Chan) : (s.sleep k p chan).ticks = s.ticks := rfl

@[simp]
theorem sleep_cpu (p : Slot) (chan : Chan) : (s.sleep k p chan).cpu = .scan (p.val + 1) := rfl

@[simp]
theorem dispatch_ptable (p q : Slot) (f : Proc → Proc)
    : (s.dispatch k p f).ptable q
        =
      if q = p then f ((s.ptable q).dispatch k s.ticks) else s.ptable q := by
  simp [dispatch]

@[simp]
theorem dispatch_ticks (p : Slot) (f : Proc → Proc) : (s.dispatch k p f).ticks = s.ticks := rfl

@[simp]
theorem dispatch_cpu (p : Slot) (f : Proc → Proc) : (s.dispatch k p f).cpu = .run p := rfl

theorem kill_cases (pid : Word)
    : (∃ p, findSlot (fun p => (s.ptable p).pid = pid) = some p ∧
        s.kill k pid = (s.modify p (.kill k s.ticks), 0)) ∨
      (findSlot (fun p => (s.ptable p).pid = pid) = none ∧ s.kill k pid = (s, -1)) := by
  unfold kill
  cases h : findSlot fun p => (s.ptable p).pid = pid with
  | none => right; simp
  | some p => left; exact ⟨p, rfl, rfl⟩

theorem adopt_ptable (cur p q : Slot)
    : (adopt k cur s p).ptable q
        =
      (if q = p then (s.ptable q).orphan cur s.initproc else s.ptable q).wakeFor k s.ticks fun c =>
        (s.ptable p).parent = some cur ∧ (s.ptable p).state = .zombie ∧ c = .ofProc s.initproc := by
  unfold adopt
  by_cases hparent : (s.ptable p).parent = some cur
  . by_cases hzombie : (s.ptable p).state = .zombie
    . simp only [hparent, ↓reduceIte, modify_ptable, hzombie, wakeup1_ptable, modify_ticks,
        modify_initproc, true_and]
      by_cases hq : q = p
      . simp [hq, hparent, Proc.orphan]
      . simp [hq]
    . simp only [hparent, ↓reduceIte, modify_ptable, hzombie, false_and, and_false, decide_false,
        Proc.wakeFor_false]
      by_cases hq : q = p
      . simp [hq, hparent, Proc.orphan]
      . simp [hq]
  . simp only [hparent, ↓reduceIte, false_and, decide_false, Proc.wakeFor_false]
    by_cases hq : q = p
    . simp [hq, hparent, Proc.orphan]
    . simp [hq]

theorem adopt_frame (cur p : Slot)
    : (adopt k cur s p).ticks = s.ticks ∧ (adopt k cur s p).initproc = s.initproc ∧
      (adopt k cur s p).cpu = s.cpu ∧ (adopt k cur s p).nextpid = s.nextpid := by
  unfold adopt
  split
  . dsimp only
    split <;> exact ⟨rfl, rfl, rfl, rfl⟩
  . exact ⟨rfl, rfl, rfl, rfl⟩

theorem foldl_adopt_frame (cur : Slot) (l : List Slot)
    : (l.foldl (adopt k cur) s).ticks = s.ticks ∧ (l.foldl (adopt k cur) s).initproc = s.initproc ∧
      (l.foldl (adopt k cur) s).cpu = s.cpu ∧ (l.foldl (adopt k cur) s).nextpid = s.nextpid := by
  induction l generalizing s with
  | nil => exact ⟨rfl, rfl, rfl, rfl⟩
  | cons p l ih =>
    obtain ⟨h1, h2, h3, h4⟩ := adopt_frame k s cur p
    obtain ⟨i1, i2, i3, i4⟩ := ih (adopt k cur s p)
    rw [List.foldl_cons]
    exact ⟨i1.trans h1, i2.trans h2, i3.trans h3, i4.trans h4⟩

-- The loop of `exit` hands over every child and wakes up `initproc` if one of them is a zombie.
theorem foldl_adopt_ptable (cur : Slot) {l : List Slot} (hl : l.Nodup) (q : Slot)
    : (l.foldl (adopt k cur) s).ptable q
        =
      (if q ∈ l then (s.ptable q).orphan cur s.initproc else s.ptable q).wakeFor k s.ticks fun c =>
        (∃ z ∈ l, (s.ptable z).parent = some cur ∧ (s.ptable z).state = .zombie) ∧
          c = .ofProc s.initproc := by
  induction l using List.reverseRecOn generalizing q with
  | nil => simp
  | append_singleton l p ih =>
    rw [List.nodup_append] at hl
    have hp : p ∉ l := fun h => hl.2.2 p h p (by simp) rfl
    obtain ⟨hticks, hinit, -, -⟩ := foldl_adopt_frame k s cur l
    rw [List.foldl_append, List.foldl_cons, List.foldl_nil, adopt_ptable, hticks, hinit,
      ih hl.1 p, ih hl.1 q]
    have htable : (if q = p then ((if q ∈ l then (s.ptable q).orphan cur s.initproc else s.ptable q)).orphan
          cur s.initproc else if q ∈ l then (s.ptable q).orphan cur s.initproc else s.ptable q)
        = if q ∈ l ++ [p] then (s.ptable q).orphan cur s.initproc else s.ptable q := by
      by_cases hq : q = p
      . simp [hq, hp]
      . simp [hq]
    rw [Proc.orphan_wakeFor, ← apply_ite (Proc.wakeFor k s.ticks _), htable, Proc.wakeFor_wakeFor]
    congr 1
    funext c
    simp only [hp, ↓reduceIte, Proc.wakeFor_parent, List.mem_append, List.mem_singleton]
    rw [Bool.eq_iff_iff]
    simp only [Bool.or_eq_true, decide_eq_true_eq]
    rw [Proc.wakeFor_state_eq_iff _ _ _ _ (by simp) (by simp)]
    constructor
    . rintro (⟨⟨z, hz, h⟩, hc⟩ | ⟨h1, h2, hc⟩)
      . exact ⟨⟨z, .inl hz, h⟩, hc⟩
      . exact ⟨⟨p, .inr rfl, h1, h2⟩, hc⟩
    . rintro ⟨⟨z, hz | rfl, h⟩, hc⟩
      . exact .inl ⟨⟨z, hz, h⟩, hc⟩
      . exact .inr ⟨h.1, h.2, hc⟩

-- The channels that `exit` wakes up: the parent's, and that of `initproc` for an abandoned zombie.
def exitWakes (s : State) (cur : Slot) (c : Chan) : Bool :=
  c = .ofProc (s.ptable cur).parent ∨
    (∃ z, (s.ptable z).parent = some cur ∧ (s.ptable z).state = .zombie) ∧ c = .ofProc s.initproc

theorem exit_ptable (cur q : Slot)
    : (s.exit k cur).ptable q
        =
      let r := ((s.ptable q).orphan cur s.initproc).wakeFor k s.ticks (s.exitWakes cur)
      if q = cur then r.exit k s.ticks else r := by
  have hframe := foldl_adopt_frame k (s.wakeup1 k (.ofProc (s.ptable cur).parent)) cur
    (List.finRange NPROC)
  have hloop : ((List.finRange NPROC).foldl (adopt k cur)
        (s.wakeup1 k (.ofProc (s.ptable cur).parent))).ptable q
      = ((s.ptable q).orphan cur s.initproc).wakeFor k s.ticks (s.exitWakes cur) := by
    rw [foldl_adopt_ptable k _ cur (List.nodup_finRange NPROC)]
    simp only [List.mem_finRange, ↓reduceIte, wakeup1_ptable, wakeup1_initproc, wakeup1_ticks,
      Proc.orphan_wakeFor, Proc.wakeFor_wakeFor, Proc.wakeFor_parent, true_and]
    congr 1
    funext c
    rw [Bool.eq_iff_iff]
    simp [exitWakes, Proc.wakeFor_state_eq_iff]
  unfold exit
  simp only [sched_ptable, modify_ptable, hframe.1, hloop, wakeup1_ticks]

theorem exit_frame (cur : Slot)
    : (s.exit k cur).ticks = s.ticks ∧ (s.exit k cur).initproc = s.initproc ∧
      (s.exit k cur).cpu = .scan (cur.val + 1) ∧ (s.exit k cur).nextpid = s.nextpid := by
  have hframe := foldl_adopt_frame k (s.wakeup1 k (.ofProc (s.ptable cur).parent)) cur
    (List.finRange NPROC)
  unfold exit
  simp only [sched_ticks, sched_initproc, sched_cpu, sched_nextpid, modify_ticks, modify_initproc,
    modify_nextpid, hframe, wakeup1_ticks, wakeup1_initproc, wakeup1_nextpid, and_self]

end State

end Xv6
