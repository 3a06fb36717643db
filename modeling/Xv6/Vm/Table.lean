import Xv6.Vm.Clone
import Xv6.Vm.Impl.Table

/-!
Whether the page directories that `getmeminfo` walks are there. Next to the machine stands what `copyuvm` has allocated
for each slot and `freevm` has not freed yet. A slot that `allocproc` has claimed still has the pointer of its last owner.
-/

namespace Xv6.Vm.Table

-- The child that a process is creating.
def Pc.child : Pc → Option Slot
  | .kstack np | .copy np | .copied np | .publish np | .undo np | .unuse np => some np
  | _ => none

-- The child that has no page directory, not yet or not any more.
def Pc.pending : Pc → Option Slot
  | .kstack np | .copy np | .undo np | .unuse np => some np
  | _ => none

theorem Pc.child_of_pending {pc : Pc} {np : Slot} (h : pc.pending = some np) : pc.child = some np := by
  cases pc <;> first | exact h | cases h

-- The slot `p` is claimed, and `np->pgdir` is not the new page directory.
def State.Pending (s : State) (p : Slot) : Prop :=
  ∃ q, (s.ptable q).pc.pending = some p

-- The page directories that are allocated, and to which slot.
abbrev Dirs := Slot → Option PgDir

def note (s : State) (e : Event) (s' : State) (H : Dirs) : Dirs :=
  match e, s.cpu with
  | .forkNext, some cur =>
    match (s.ptable cur).pc with
    | .copy np => Function.update H np (s'.ptable np).pgdir
    | _ => H
  | .wait, some cur =>
    match s.findZombie cur with
    | some c => Function.update H c none
    | none => H
  | _, _ => H

def noted (L : Layout) : Machine (State × Dirs) Event Output :=
  Machine.watch (State.step L) note

def dirsOf (s : State) : Dirs :=
  fun p => (s.ptable p).pgdir

/--
The page directory of the slot is allocated to it: none of its pages is free or belongs to another slot.
-/
def Owns (a : State × Dirs) (p : Slot) : Prop :=
  ∃ d, (a.1.ptable p).pgdir = some d ∧ a.2 p = some d ∧ (∀ f ∈ d.frames, f ∉ a.1.mem.free) ∧
    ∀ q ≠ p, ∀ d', a.2 q = some d' → Disjoint d.frames d'.frames

def kstackFrames : Option Ppn → Multiset Ppn
  | none => 0
  | some p => {p}

def owned (x : Proc) (d : Option PgDir) : Multiset Ppn :=
  kstackFrames x.kstack + dirFrames d

def held (a : State × Dirs) : Multiset Ppn :=
  ∑ p, owned (a.1.ptable p) (a.2 p)

structure Inv (L : Layout) (a : State × Dirs) : Prop where
  cpu : ∀ q, a.1.cpu = some q → (a.1.ptable q).state = .running
  fork : ∀ q np, (a.1.ptable q).pc.child = some np → (a.1.ptable np).state = .embryo ∧
    ((a.1.ptable q).state = .running ∨ (a.1.ptable q).state = .runnable)
  unique : ∀ q r np, (a.1.ptable q).pc.child = some np → (a.1.ptable r).pc.child = some np → q = r
  gone : ∀ p, (a.1.ptable p).state = .unused ∨ a.1.Pending p → a.2 p = none
  live : ∀ p, (a.1.ptable p).state ≠ .unused → ¬ a.1.Pending p →
    ∃ d, d.Wf ∧ (a.1.ptable p).pgdir = some d ∧ a.2 p = some d
  sound : a.1.mem.Sound (Valid L) (held a)

section

variable {L : Layout} {s s' : State} {H : Dirs} {p q cur np : Slot} {m : Mem}

@[simp]
theorem State.modify_ptable (s : State) (p q : Slot) (f : Proc → Proc)
    : (s.modify p f).ptable q = if q = p then f (s.ptable p) else s.ptable q := by
  simp [modify, Function.update_apply]

@[simp]
theorem State.setPc_ptable (s : State) (p q : Slot) (pc : Pc)
    : (s.setPc p pc).ptable q = if q = p then { s.ptable p with pc := pc } else s.ptable q :=
  s.modify_ptable p q _

@[simp]
theorem State.setState_ptable (s : State) (p q : Slot) (state : ProcState)
    : (s.setState p state).ptable q = if q = p then { s.ptable p with state := state } else s.ptable q :=
  s.modify_ptable p q _

theorem frames_le_owned {dir : Option PgDir} {d : PgDir} (x : Proc) (h : dir = some d) : d.frames ≤ owned x dir := by
  subst h
  exact Multiset.le_add_left _ _

theorem held_eq_add (a : State × Dirs) (p : Slot)
    : held a = owned (a.1.ptable p) (a.2 p) + ∑ q ∈ Finset.univ.erase p, owned (a.1.ptable q) (a.2 q) :=
  (Finset.add_sum_erase Finset.univ (fun q => owned (a.1.ptable q) (a.2 q)) (Finset.mem_univ p)).symm

theorem Inv.sound_dir {d : PgDir} (h : Inv L (s, H)) (hp : H p = some d) : s.mem.Sound (Valid L) d.frames := by
  apply h.sound.mono
  rw [held_eq_add (s, H) p]
  exact le_trans (frames_le_owned _ hp) (Multiset.le_add_right _ _)

theorem Inv.owns (h : Inv L (s, H)) (hunused : (s.ptable p).state ≠ .unused) (hpending : ¬ s.Pending p)
    : Owns (s, H) p := by
  obtain ⟨d, -, hpgdir, hp⟩ := h.live p hunused hpending
  refine ⟨d, hpgdir, hp, fun f hf => (h.sound_dir hp).notMem_free hf, ?_⟩
  intro q hq d' hd'
  have hnodup := (Multiset.nodup_add.mp h.sound.nodup).1
  rw [held_eq_add (s, H) p, Multiset.nodup_add] at hnodup
  have hdisj := hnodup.2.2
  rw [Multiset.disjoint_left] at hdisj ⊢
  intro f hf hf'
  apply hdisj (Multiset.mem_of_le (frames_le_owned _ hp) hf)
  rw [Multiset.mem_sum]
  exact ⟨q, Finset.mem_erase.mpr ⟨hq, Finset.mem_univ q⟩, Multiset.mem_of_le (frames_le_owned _ hd') hf'⟩

theorem Inv.owns_iff (h : Inv L (s, H)) (hunused : (s.ptable p).state ≠ .unused)
    : Owns (s, H) p ↔ ¬ s.Pending p := by
  constructor
  . rintro ⟨d, -, hp, -⟩ hpending
    have := h.gone p (.inr hpending)
    rw [hp] at this
    cases this
  . exact h.owns hunused

/-!
What a step changes. Either it is about one slot `np` and the place of the current process, or no page directory, no slot
that is claimed and no place in `fork` is involved.
-/

-- The slot that the current process is about to work on is nobody else's.
structure Focus (s : State) (cur np : Slot) : Prop where
  running : s.cpu = some cur
  ne : np ≠ cur
  place : (s.ptable np).pc.child = none
  mine : (s.ptable cur).pc.child = none ∨ (s.ptable cur).pc.child = some np
  others : ∀ q ≠ cur, (s.ptable q).pc.child ≠ some np

theorem Inv.change (h : Inv L (s, H)) (hfocus : Focus s cur np) {nextpid : Word} {f : Proc → Proc} {pc : Pc}
    {dir : Option PgDir} (hpc : (f (s.ptable np)).pc = (s.ptable np).pc)
    (hchild : pc.child = none ∨ pc.child = some np ∧ (f (s.ptable np)).state = .embryo)
    (hgone : (f (s.ptable np)).state = .unused ∨ pc.pending = some np → dir = none)
    (hlive : (f (s.ptable np)).state ≠ .unused → pc.pending ≠ some np →
      ∃ d, d.Wf ∧ (f (s.ptable np)).pgdir = some d ∧ dir = some d)
    (hmem : ∀ G, s.mem.Sound (Valid L) (owned (s.ptable np) (H np) + G) →
      m.Sound (Valid L) (owned (f (s.ptable np)) dir + G))
    : Inv L (({ s with mem := m, nextpid := nextpid }.modify np f).setPc cur pc, Function.update H np dir) := by
  obtain ⟨hcur, hne, hplace, hmine, hothers⟩ := hfocus
  have hrunning := h.cpu cur hcur
  generalize hs' : ({ s with mem := m, nextpid := nextpid }.modify np f).setPc cur pc = s'
  have hmem' : s'.mem = m := by rw [← hs']; rfl
  have hcpu' : s'.cpu = s.cpu := by rw [← hs']; rfl
  have htab : ∀ p, s'.ptable p = if p = cur then { s.ptable cur with pc := pc } else if p = np then f (s.ptable np)
      else s.ptable p := by
    intro p
    rw [← hs', State.setPc_ptable, State.modify_ptable, State.modify_ptable, if_neg (Ne.symm hne)]
  have hold : ∀ q, q ≠ cur → q ≠ np → s'.ptable q = s.ptable q := by
    intro q hq hq'
    rw [htab, if_neg hq, if_neg hq']
  have hnp : s'.ptable np = f (s.ptable np) := by rw [htab, if_neg hne, if_pos rfl]
  have hself : s'.ptable cur = { s.ptable cur with pc := pc } := by rw [htab, if_pos rfl]
  have hchild' : ∀ q r, (s'.ptable q).pc.child = some r → q = cur ∧ pc.child = some np ∧ r = np ∨
      q ≠ cur ∧ q ≠ np ∧ r ≠ np ∧ (s.ptable q).pc.child = some r := by
    intro q r hq
    by_cases hqcur : q = cur
    . subst hqcur
      rw [hself] at hq
      rcases hchild with hnone | ⟨hsome, -⟩
      . rw [hnone] at hq
        cases hq
      . exact .inl ⟨rfl, hsome, Option.some.inj (hq.symm.trans hsome)⟩
    . by_cases hqnp : q = np
      . subst hqnp
        rw [hnp, hpc, hplace] at hq
        cases hq
      . rw [hold q hqcur hqnp] at hq
        refine .inr ⟨hqcur, hqnp, ?_, hq⟩
        rintro rfl
        exact hothers q hqcur hq
  have hpending : ∀ p ≠ np, s'.Pending p ↔ s.Pending p := by
    intro p hp
    constructor
    . rintro ⟨q, hq⟩
      rcases hchild' q p (Pc.child_of_pending hq) with ⟨-, -, heq⟩ | ⟨hqcur, hqnp, -, -⟩
      . exact absurd heq hp
      . rw [hold q hqcur hqnp] at hq
        exact ⟨q, hq⟩
    . rintro ⟨q, hq⟩
      have hsome := Pc.child_of_pending hq
      refine ⟨q, ?_⟩
      rw [hold q]
      . exact hq
      . rintro rfl
        rcases hmine with hnone | heq
        . rw [hnone] at hsome
          cases hsome
        . exact hp (Option.some.inj (hsome.symm.trans heq))
      . rintro rfl
        rw [hplace] at hsome
        cases hsome
  have hpending' : s'.Pending np ↔ pc.pending = some np := by
    constructor
    . rintro ⟨q, hq⟩
      rcases hchild' q np (Pc.child_of_pending hq) with ⟨rfl, -, -⟩ | ⟨-, -, hr, -⟩
      . rwa [hself] at hq
      . exact absurd rfl hr
    . intro hsome
      exact ⟨cur, by rwa [hself]⟩
  have hstate : ∀ p ≠ np, (s'.ptable p).state = (s.ptable p).state ∧ (s'.ptable p).pgdir = (s.ptable p).pgdir ∧
      (s'.ptable p).kstack = (s.ptable p).kstack := by
    intro p hp
    by_cases hpcur : p = cur
    . subst hpcur
      rw [hself]
      exact ⟨rfl, rfl, rfl⟩
    . rw [hold p hpcur hp]
      exact ⟨rfl, rfl, rfl⟩
  constructor
  case cpu =>
    intro q hq
    dsimp only at hq
    rw [hcpu', hcur] at hq
    obtain rfl := Option.some.inj hq
    rw [hself]
    exact hrunning
  case fork =>
    intro q r hq
    rcases hchild' q r hq with ⟨rfl, hsome, rfl⟩ | ⟨hqcur, hqnp, hr, hq⟩
    . rcases hchild with hnone | ⟨-, hembryo⟩
      . rw [hnone] at hsome
        cases hsome
      . dsimp only
        rw [hnp, hself]
        exact ⟨hembryo, .inl hrunning⟩
    . dsimp only
      rw [(hstate r hr).1, hold q hqcur hqnp]
      exact h.fork q r hq
  case unique =>
    intro q q' r hq hq'
    rcases hchild' q r hq with ⟨rfl, -, rfl⟩ | ⟨-, -, hr, hq⟩
    . rcases hchild' q' r hq' with ⟨rfl, -, -⟩ | ⟨-, -, hr, -⟩
      . rfl
      . exact absurd rfl hr
    . rcases hchild' q' r hq' with ⟨-, -, rfl⟩ | ⟨-, -, -, hq'⟩
      . exact absurd rfl hr
      . exact h.unique q q' r hq hq'
  case gone =>
    intro p hp
    dsimp only at hp ⊢
    by_cases heq : p = np
    . subst heq
      rw [hnp, hpending'] at hp
      rw [Function.update_self]
      exact hgone hp
    . rw [(hstate p heq).1, hpending p heq] at hp
      rw [Function.update_of_ne heq]
      exact h.gone p hp
  case live =>
    intro p hp hp'
    dsimp only at hp hp' ⊢
    by_cases heq : p = np
    . subst heq
      rw [hnp] at hp ⊢
      rw [hpending'] at hp'
      rw [Function.update_self]
      exact hlive hp hp'
    . rw [(hstate p heq).1] at hp
      rw [hpending p heq] at hp'
      rw [Function.update_of_ne heq, (hstate p heq).2.1]
      exact h.live p hp hp'
  case sound =>
    dsimp only
    rw [hmem', held_eq_add _ np]
    dsimp only
    rw [hnp, Function.update_self]
    have hrest : ∑ q ∈ Finset.univ.erase np, owned (s'.ptable q) (Function.update H np dir q)
        = ∑ q ∈ Finset.univ.erase np, owned (s.ptable q) (H q) := by
      apply Finset.sum_congr rfl
      intro q hq
      have hqnp := Finset.ne_of_mem_erase hq
      rw [Function.update_of_ne hqnp]
      unfold owned
      rw [(hstate q hqnp).2.2]
    rw [hrest]
    apply hmem
    have := h.sound
    rwa [held_eq_add _ np] at this

theorem Inv.focus_child (h : Inv L (s, H)) (hcur : s.cpu = some cur) (hchild : (s.ptable cur).pc.child = some np)
    : Focus s cur np := by
  obtain ⟨hembryo, -⟩ := h.fork cur np hchild
  have hrunning := h.cpu cur hcur
  dsimp only at hembryo hrunning
  refine ⟨hcur, ?_, ?_, .inr hchild, ?_⟩
  . rintro rfl
    simp [hembryo] at hrunning
  . by_contra hsome
    obtain ⟨r, hr⟩ := Option.ne_none_iff_exists'.mp hsome
    have := (h.fork np r hr).2
    simp [hembryo] at this
  . intro q hq hchild'
    exact hq (h.unique q cur np hchild' hchild)

theorem Inv.focus_still (h : Inv L (s, H)) (hcur : s.cpu = some cur) (hpc : (s.ptable cur).pc.child = none)
    (hstate : (s.ptable np).state = .unused ∨ (s.ptable np).state = .zombie)
    : Focus s cur np := by
  have hrunning := h.cpu cur hcur
  dsimp only at hrunning
  refine ⟨hcur, ?_, ?_, .inl hpc, ?_⟩
  . rintro rfl
    simp [hrunning] at hstate
  . by_contra hsome
    obtain ⟨r, hr⟩ := Option.ne_none_iff_exists'.mp hsome
    have := (h.fork np r hr).2
    dsimp only at this
    rcases hstate with hstate | hstate
    . simp [hstate] at this
    . simp [hstate] at this
  . intro q _ hchild
    have := (h.fork q np hchild).1
    dsimp only at this
    simp [this] at hstate

theorem Inv.not_pending (h : Inv L (s, H)) (hchild : (s.ptable cur).pc.child = some np)
    (hpc : (s.ptable cur).pc.pending ≠ some np)
    : ¬ s.Pending np := by
  rintro ⟨q, hq⟩
  have := h.unique q cur np (Pc.child_of_pending hq) hchild
  exact hpc (this ▸ hq)

/-!
The other kind of step.
-/

structure Tame (x x' : Proc) : Prop where
  pgdir : x'.pgdir = x.pgdir
  kstack : x'.kstack = x.kstack
  child : x'.pc.child = x.pc.child
  pending : x'.pc.pending = x.pc.pending
  unused : x'.state = .unused ↔ x.state = .unused
  embryo : x'.state = .embryo ↔ x.state = .embryo
  active : x.pc.child ≠ none → x.state = .running ∨ x.state = .runnable → x'.state = .running ∨ x'.state = .runnable

structure Quiet (s s' : State) : Prop where
  mem : s'.mem = s.mem
  tame : ∀ p, Tame (s.ptable p) (s'.ptable p)

theorem Tame.refl (x : Proc) : Tame x x :=
  ⟨rfl, rfl, rfl, rfl, Iff.rfl, Iff.rfl, fun _ => id⟩

theorem Tame.trans {x y z : Proc} (h : Tame x y) (h' : Tame y z) : Tame x z where
  pgdir := h'.pgdir.trans h.pgdir
  kstack := h'.kstack.trans h.kstack
  child := h'.child.trans h.child
  pending := h'.pending.trans h.pending
  unused := h'.unused.trans h.unused
  embryo := h'.embryo.trans h.embryo
  active hx hstate := h'.active (by rwa [h.child]) (h.active hx hstate)

theorem Quiet.refl (s : State) : Quiet s s :=
  ⟨rfl, fun _ => .refl _⟩

theorem Quiet.trans {s1 s2 s3 : State} (h : Quiet s1 s2) (h' : Quiet s2 s3) : Quiet s1 s3 :=
  ⟨h'.mem.trans h.mem, fun p => (h.tame p).trans (h'.tame p)⟩

theorem Quiet.modify {f : Proc → Proc} (h : Tame (s.ptable p) (f (s.ptable p))) : Quiet s (s.modify p f) := by
  refine ⟨rfl, fun q => ?_⟩
  rw [State.modify_ptable]
  split
  . next heq =>
    rw [heq]
    exact h
  . exact .refl _

theorem Quiet.setState {state : ProcState} (hunused : (s.ptable p).state ≠ .unused)
    (hembryo : (s.ptable p).state ≠ .embryo) (hnew : state ≠ .unused) (hnew' : state ≠ .embryo)
    (hactive : (s.ptable p).pc.child = none ∨ state = .running ∨ state = .runnable)
    : Quiet s (s.setState p state) := by
  apply Quiet.modify
  refine ⟨rfl, rfl, rfl, rfl, iff_of_false hnew hunused, iff_of_false hnew' hembryo, ?_⟩
  intro hchild _
  exact hactive.resolve_left hchild

theorem Inv.quiet (h : Inv L (s, H)) (hquiet : Quiet s s') (hcpu : ∀ q, s'.cpu = some q → (s'.ptable q).state = .running)
    : Inv L (s', H) := by
  have hpending : ∀ p, s'.Pending p ↔ s.Pending p := by
    intro p
    unfold State.Pending
    apply exists_congr
    intro q
    rw [(hquiet.tame q).pending]
  constructor
  case cpu => exact hcpu
  case fork =>
    intro q r hq
    dsimp only at hq ⊢
    rw [(hquiet.tame q).child] at hq
    obtain ⟨hembryo, hactive⟩ := h.fork q r hq
    exact ⟨(hquiet.tame r).embryo.mpr hembryo, (hquiet.tame q).active (by rw [hq]; exact Option.some_ne_none r) hactive⟩
  case unique =>
    intro q q' r hq hq'
    dsimp only at hq hq'
    rw [(hquiet.tame q).child] at hq
    rw [(hquiet.tame q').child] at hq'
    exact h.unique q q' r hq hq'
  case gone =>
    intro p hp
    dsimp only at hp
    rw [(hquiet.tame p).unused, hpending] at hp
    exact h.gone p hp
  case live =>
    intro p hp hp'
    dsimp only at hp hp' ⊢
    rw [ne_eq, (hquiet.tame p).unused] at hp
    rw [hpending] at hp'
    rw [(hquiet.tame p).pgdir]
    exact h.live p hp hp'
  case sound =>
    have heq : held (s', H) = held (s, H) := by
      unfold held
      apply Finset.sum_congr rfl
      intro q _
      unfold owned
      dsimp only
      rw [(hquiet.tame q).kstack]
    rw [heq]
    dsimp only
    rw [hquiet.mem]
    exact h.sound

theorem wakeup1_quiet (s : State) (chan : Option Slot) : Quiet s (s.wakeup1 chan) := by
  unfold State.wakeup1
  split
  . exact .refl s
  . apply Quiet.modify
    split
    . next hsleeping =>
      refine ⟨rfl, rfl, rfl, rfl, ?_, ?_, fun _ _ => .inr rfl⟩
      . simp [hsleeping]
      . simp [hsleeping]
    . exact .refl _

theorem adopt_quiet (s : State) (cur p : Slot) : Quiet s (s.adopt cur p) := by
  have hparent : ∀ q : Slot, Quiet s (s.modify p fun x => { x with parent := some q }) := fun q =>
    .modify ⟨rfl, rfl, rfl, rfl, Iff.rfl, Iff.rfl, fun _ => id⟩
  unfold State.adopt
  split
  . dsimp only
    split
    . exact (hparent _).trans (wakeup1_quiet _ _)
    . exact hparent _
  . exact .refl s

theorem adopt_all_quiet (s : State) (cur : Slot) (ps : List Slot) : Quiet s (ps.foldl (State.adopt cur) s) := by
  induction ps generalizing s with
  | nil => exact .refl s
  | cons p ps ih =>
    rw [List.foldl_cons]
    exact (adopt_quiet s cur p).trans (ih _)

theorem exit_inv {o : Output} (h : Inv L (s, H)) (hcur : s.cpu = some cur) (hpc : (s.ptable cur).pc = .user)
    (hstep : s.exit cur = some (s', o))
    : Inv L (s', H) := by
  unfold State.exit at hstep
  split at hstep
  . cases hstep
  . cases hstep
    have hquiet := (wakeup1_quiet s (s.ptable cur).parent).trans (adopt_all_quiet _ cur (List.finRange NPROC))
    generalize (List.finRange NPROC).foldl (State.adopt cur) (s.wakeup1 (s.ptable cur).parent) = s1 at hquiet
    have hrunning := h.cpu cur hcur
    have hchild : (s1.ptable cur).pc.child = none := by
      rw [(hquiet.tame cur).child, hpc]
      rfl
    have hrunning := h.cpu cur hcur
    dsimp only at hrunning
    have hzombie : Quiet s1 (s1.setState cur .zombie) := by
      apply Quiet.setState
      . rw [ne_eq, (hquiet.tame cur).unused]
        simp [hrunning]
      . rw [ne_eq, (hquiet.tame cur).embryo]
        simp [hrunning]
      . decide
      . decide
      . exact .inl hchild
    have hall := hquiet.trans hzombie
    exact h.quiet ⟨hall.mem, hall.tame⟩ nofun

theorem fork_inv (h : Inv L (s, H)) (hcur : s.cpu = some cur) (hpc : (s.ptable cur).pc = .user)
    : Inv L ((s.fork cur).1, H) := by
  unfold State.fork
  split
  . exact h
  . next np hfind =>
    have hunused : (s.ptable np).state = .unused := by simpa using findSlot_eq_some hfind
    have hfocus := h.focus_still hcur (by rw [hpc]; rfl) (.inl hunused)
    have hgone := h.gone np (.inl hunused)
    dsimp only at hgone ⊢
    rw [← Function.update_eq_self np H, hgone]
    show Inv L (({ s with nextpid := s.nextpid + 1 }.modify np fun x =>
      { x with state := .embryo, pid := s.nextpid }).setPc cur (.kstack np), _)
    refine h.change hfocus rfl (.inr ⟨rfl, rfl⟩) (fun _ => rfl) (fun _ hpc => absurd rfl hpc) ?_
    intro G hG
    rwa [hgone] at hG

theorem Inv.current (h : Inv L (s, H)) (hcur : s.cpu = some cur)
    : ∃ d, d.Wf ∧ (s.ptable cur).pgdir = some d ∧ H cur = some d := by
  have hrunning := h.cpu cur hcur
  dsimp only at hrunning
  apply h.live cur
  . simp [hrunning]
  . rintro ⟨q, hq⟩
    have := (h.fork q cur (Pc.child_of_pending hq)).1
    simp [hrunning] at this

theorem Inv.embryo (h : Inv L (s, H)) (hchild : (s.ptable cur).pc.child = some np) : (s.ptable np).state = .embryo :=
  (h.fork cur np hchild).1

theorem Inv.claimed (h : Inv L (s, H)) (hpc : (s.ptable cur).pc.pending = some np) : H np = none :=
  h.gone np (.inr ⟨cur, hpc⟩)

theorem Inv.copied (h : Inv L (s, H)) (hchild : (s.ptable cur).pc.child = some np)
    (hpc : (s.ptable cur).pc.pending ≠ some np)
    : ∃ d, d.Wf ∧ (s.ptable np).pgdir = some d ∧ H np = some d := by
  apply h.live np
  . dsimp only
    simp [h.embryo hchild]
  . exact h.not_pending hchild hpc

theorem forkNext_inv {o : Output} (h : Inv L (s, H)) (hcur : s.cpu = some cur)
    (hstep : s.forkNext L cur = some (s', o))
    : Inv L (s', note s .forkNext s' H) := by
  have hnote : note s .forkNext s' H = match (s.ptable cur).pc with
      | .copy np => Function.update H np (s'.ptable np).pgdir
      | _ => H := by
    unfold note
    rw [hcur]
  unfold State.forkNext at hstep
  split at hstep
  . next np hpc =>
    have hchild : (s.ptable cur).pc.child = some np := by rw [hpc]; rfl
    have hgone : H np = none := h.claimed (by rw [hpc]; rfl)
    rw [hpc] at hnote
    dsimp only at hnote
    rw [hnote, ← Function.update_eq_self np H, hgone]
    split at hstep
    . cases hstep
      refine h.change (h.focus_child hcur hchild) rfl (.inr ⟨rfl, h.embryo hchild⟩) (fun _ => rfl)
        (fun _ hpc => absurd rfl hpc) ?_
      intro G hG
      apply hG.mono
      exact Multiset.add_le_add_right (Multiset.zero_le _)
    . next kstack m hkalloc =>
      cases hstep
      refine h.change (h.focus_child hcur hchild) rfl (.inr ⟨rfl, h.embryo hchild⟩) (fun _ => rfl)
        (fun _ hpc => absurd rfl hpc) ?_
      intro G hG
      exact ((Mem.kalloc_xfer hkalloc).frame G).sound (hG.mono (Multiset.add_le_add_right (Multiset.zero_le _)))
  . next np hpc =>
    have hchild : (s.ptable cur).pc.child = some np := by rw [hpc]; rfl
    have hgone : H np = none := h.claimed (by rw [hpc]; rfl)
    rw [hpc] at hnote
    dsimp only at hnote
    rw [hnote]
    have hne := (h.focus_child hcur hchild).ne
    obtain ⟨d, hd, hpgdir, hdir⟩ := h.current hcur
    rw [hpgdir] at hstep
    dsimp only at hstep
    split at hstep
    . cases hstep
    . next m hcopy =>
      cases hstep
      obtain ⟨hx, -⟩ := copyuvm_xfer hd (h.sound_dir hdir) hcopy
      rw [State.setPc_ptable, if_neg hne, State.modify_ptable, if_pos rfl]
      refine h.change (h.focus_child hcur hchild) rfl (.inr ⟨rfl, h.embryo hchild⟩) (fun _ => rfl)
        (fun _ hpc => absurd rfl hpc) ?_
      intro G hG
      rw [hgone] at hG
      have hsound := (hx.frame (owned (s.ptable np) none + G)).sound (by rwa [zero_add])
      rwa [dirFrames, zero_add] at hsound
    . next d' m hcopy =>
      cases hstep
      obtain ⟨hx, hwf⟩ := copyuvm_xfer hd (h.sound_dir hdir) hcopy
      rw [State.setPc_ptable, if_neg hne, State.modify_ptable, if_pos rfl]
      refine h.change (h.focus_child hcur hchild) rfl (.inr ⟨rfl, h.embryo hchild⟩) ?_
        (fun _ _ => ⟨d', (hwf d' rfl).1, rfl, rfl⟩) ?_
      . rintro (hunused | hpending)
        . dsimp only at hunused
          simp [h.embryo hchild] at hunused
        . cases hpending
      . intro G hG
        rw [hgone] at hG
        have hsound := (hx.frame (owned (s.ptable np) none + G)).sound (by rwa [zero_add])
        have hsum : owned { s.ptable np with pgdir := some d' } (some d') + G
            = dirFrames (some d') + (owned (s.ptable np) none + G) := by
          unfold owned
          rw [show dirFrames none = 0 from rfl, add_zero, ← add_assoc, add_comm (dirFrames _)]
        rwa [hsum]
  . next np hpc =>
    cases hstep
    have hchild : (s.ptable cur).pc.child = some np := by rw [hpc]; rfl
    rw [hpc] at hnote
    dsimp only at hnote
    rw [hnote, ← Function.update_eq_self np H]
    obtain ⟨d, hd, hpgdir, hdir⟩ := h.copied hchild (by rw [hpc]; simp [Pc.pending])
    refine h.change (h.focus_child hcur hchild) rfl (.inr ⟨rfl, h.embryo hchild⟩) ?_
      (fun _ _ => ⟨d, hd, hpgdir, hdir⟩) (fun G hG => hG)
    rintro (hunused | hpending)
    . dsimp only at hunused
      simp [h.embryo hchild] at hunused
    . cases hpending
  . next np hpc =>
    cases hstep
    have hchild : (s.ptable cur).pc.child = some np := by rw [hpc]; rfl
    rw [hpc] at hnote
    dsimp only at hnote
    rw [hnote, ← Function.update_eq_self np H]
    obtain ⟨d, hd, hpgdir, hdir⟩ := h.copied hchild (by rw [hpc]; simp [Pc.pending])
    refine h.change (h.focus_child hcur hchild) rfl (.inl rfl) ?_
      (fun _ _ => ⟨d, hd, hpgdir, hdir⟩) (fun G hG => hG)
    rintro (hunused | hpending)
    . cases hunused
    . cases hpending
  . next np hpc =>
    have hchild : (s.ptable cur).pc.child = some np := by rw [hpc]; rfl
    have hgone : H np = none := h.claimed (by rw [hpc]; rfl)
    rw [hpc] at hnote
    dsimp only at hnote
    rw [hnote, ← Function.update_eq_self np H, hgone]
    split at hstep
    . cases hstep
    . next kstack hkstack =>
      split at hstep
      . cases hstep
      . next m hkfree =>
        cases hstep
        refine h.change (h.focus_child hcur hchild) rfl (.inr ⟨rfl, h.embryo hchild⟩) (fun _ => rfl)
          (fun _ hpc => absurd rfl hpc) ?_
        intro G hG
        unfold owned at hG
        rw [hgone, hkstack] at hG
        exact ((Mem.kfree_xfer hkfree).frame G).sound hG
  . next np hpc =>
    cases hstep
    have hchild : (s.ptable cur).pc.child = some np := by rw [hpc]; rfl
    have hgone : H np = none := h.claimed (by rw [hpc]; rfl)
    rw [hpc] at hnote
    dsimp only at hnote
    rw [hnote, ← Function.update_eq_self np H]
    exact h.change (h.focus_child hcur hchild) rfl (.inl rfl) (fun _ => hgone) (fun hne => absurd rfl hne)
      (fun G hG => hG)
  . cases hstep

theorem wait_inv {o : Output} (h : Inv L (s, H)) (hcur : s.cpu = some cur)
    (hpc : (s.ptable cur).pc = .user ∨ (s.ptable cur).pc = .wait) (hstep : s.wait L cur = some (s', o))
    : Inv L (s', note s .wait s' H) := by
  have hchild : (s.ptable cur).pc.child = none := by
    rcases hpc with hpc | hpc
    . rw [hpc]
      rfl
    . rw [hpc]
      rfl
  have hpending : (s.ptable cur).pc.pending = none := by
    rcases hpc with hpc | hpc
    . rw [hpc]
      rfl
    . rw [hpc]
      rfl
  unfold note
  rw [hcur]
  dsimp only
  unfold State.wait at hstep
  cases hfind : s.findZombie cur with
  | some c =>
    have hzombie : (s.ptable c).parent = some cur ∧ (s.ptable c).state = .zombie := by
      simpa using findSlot_eq_some hfind
    have hfocus := h.focus_still hcur hchild (.inr hzombie.2)
    rw [hfind] at hstep
    dsimp only at hstep ⊢
    split at hstep
    . next kstack d hkstack hpgdir =>
      split at hstep
      . cases hstep
      . next m1 hkfree =>
        split at hstep
        . cases hstep
        . next m2 hfreevm =>
          cases hstep
          refine h.change hfocus rfl (.inl rfl) (fun _ => rfl) (fun hne => absurd rfl hne) ?_
          intro G hG
          obtain ⟨d0, hd, hpgdir0, hdir⟩ := h.live c (by dsimp only; simp [hzombie.2]) (by
            rintro ⟨q, hq⟩
            have := h.embryo (Pc.child_of_pending hq)
            simp [hzombie.2] at this)
          obtain rfl : d = d0 := Option.some.inj (hpgdir.symm.trans hpgdir0)
          have hreap : reapProc L { sz := 0, pgdir := d, kstack := kstack, killed := false } s.mem = .ok m2 := by
            unfold reapProc
            rw [hkfree]
            exact hfreevm
          unfold owned at hG
          rw [hkstack, show H c = some d from hdir] at hG
          have hsound : s.mem.Sound (Valid L) ({kstack} + d.frames) := hG.mono (Multiset.le_add_right _ _)
          exact ((reapProc_xfer hd hsound hreap).frame G).sound hG
    . cases hstep
  | none =>
    rw [hfind] at hstep
    dsimp only at hstep ⊢
    have hplace : ∀ pc : Pc, pc.child = none → pc.pending = none → Quiet s (s.setPc cur pc) := by
      intro pc hpc hpc'
      apply Quiet.modify
      exact ⟨rfl, rfl, hpc.trans hchild.symm, hpc'.trans hpending.symm, Iff.rfl, Iff.rfl, fun _ => id⟩
    have hrunning := h.cpu cur hcur
    dsimp only at hrunning
    split at hstep
    . cases hstep
      refine h.quiet (hplace .user rfl rfl) ?_
      intro q hq
      obtain rfl : cur = q := Option.some.inj (hcur.symm.trans hq)
      rw [State.setPc_ptable, if_pos rfl]
      exact hrunning
    . cases hstep
      have hquiet : Quiet s ((s.setPc cur .wait).setState cur .sleeping) := by
        apply (hplace .wait rfl rfl).trans
        apply Quiet.setState
        . rw [State.setPc_ptable, if_pos rfl]
          simp [hrunning]
        . rw [State.setPc_ptable, if_pos rfl]
          simp [hrunning]
        . decide
        . decide
        . rw [State.setPc_ptable, if_pos rfl]
          exact .inl rfl
      exact h.quiet ⟨hquiet.mem, hquiet.tame⟩ nofun

theorem step_inv {e : Event} {o : Output} (h : Inv L (s, H)) (hstep : s.step L e = some (s', o))
    : Inv L (s', note s e s' H) := by
  unfold State.step at hstep
  split at hstep
  . next p hcpu =>
    split at hstep
    . next hrunnable =>
      cases hstep
      have hquiet : Quiet s (s.setState p .running) := by
        apply Quiet.setState
        . simp [hrunnable]
        . simp [hrunnable]
        . decide
        . decide
        . exact .inr (.inl rfl)
      refine h.quiet ⟨hquiet.mem, hquiet.tame⟩ ?_
      intro q hq
      obtain rfl := Option.some.inj hq
      show ((s.setState p .running).ptable p).state = .running
      rw [State.setState_ptable, if_pos rfl]
    . cases hstep
  . next cur hcur =>
    cases hstep
    have hrunning := h.cpu cur hcur
    dsimp only at hrunning
    have hquiet : Quiet s (s.setState cur .runnable) := by
      apply Quiet.setState
      . simp [hrunning]
      . simp [hrunning]
      . decide
      . decide
      . exact .inr (.inr rfl)
    exact h.quiet ⟨hquiet.mem, hquiet.tame⟩ nofun
  . next cur hcur =>
    split at hstep
    . next hpc =>
      have hs' : (s.fork cur).1 = s' := congrArg Prod.fst (Option.some.inj hstep)
      rw [← hs']
      exact fork_inv h hcur hpc
    . cases hstep
  . next cur hcur => exact forkNext_inv h hcur hstep
  . next cur hcur =>
    split at hstep
    . next hpc => exact exit_inv h hcur hpc hstep
    . cases hstep
  . next cur hcur =>
    split at hstep
    . next hpc => exact wait_inv h hcur hpc hstep
    . cases hstep
  . next pid cur hcur =>
    split at hstep
    . cases hstep
      exact h
    . cases hstep
  . cases hstep

theorem start_inv {init : List UInt8} {s₀ : Vm.State} (hs : m.Sound (Valid L) 0) (hboot : userinit L init m = .ok s₀)
    : Inv L (start s₀, dirsOf (start s₀)) := by
  obtain ⟨hinv, -⟩ := userinit_inv hs hboot
  have hfree : ∀ p, s₀.procs p = none → (start s₀).ptable p = .zero := by
    intro p hp
    unfold start
    dsimp only
    rw [hp]
  have hused : ∀ p x, s₀.procs p = some x → (start s₀).ptable p
      = { Proc.zero with state := .runnable, pid := 1, kstack := some x.kstack, pgdir := some x.pgdir, sz := x.sz } := by
    intro p x hp
    unfold start
    dsimp only
    rw [hp]
  have hpc : ∀ p, ((start s₀).ptable p).pc = .user := by
    intro p
    cases hp : s₀.procs p with
    | none => rw [hfree p hp]; rfl
    | some x => rw [hused p x hp]; rfl
  have hchild : ∀ p r, ((start s₀).ptable p).pc.child ≠ some r := by
    intro p r hr
    rw [hpc] at hr
    cases hr
  constructor
  case cpu => exact nofun
  case fork => exact fun q r hr => absurd hr (hchild q r)
  case unique => exact fun q q' r hr => absurd hr (hchild q r)
  case gone =>
    rintro p (hunused | ⟨q, hq⟩)
    . unfold dirsOf
      dsimp only at hunused ⊢
      cases hp : s₀.procs p with
      | none => rw [hfree p hp]; rfl
      | some x =>
        rw [hused p x hp] at hunused
        cases hunused
    . exact absurd (Pc.child_of_pending hq) (hchild q p)
  case live =>
    intro p hstate _
    dsimp only at hstate ⊢
    unfold dirsOf
    cases hp : s₀.procs p with
    | none =>
      rw [hfree p hp] at hstate
      exact absurd rfl hstate
    | some x =>
      rw [hused p x hp]
      exact ⟨x.pgdir, hinv.wf p x hp, rfl, rfl⟩
  case sound =>
    have hheld : held (start s₀, dirsOf (start s₀)) = s₀.held := by
      unfold held Vm.State.held dirsOf
      apply Finset.sum_congr rfl
      intro p _
      dsimp only
      cases hp : s₀.procs p with
      | none => rw [hfree p hp]; rfl
      | some x => rw [hused p x hp]; rfl
    rw [hheld]
    exact hinv.sound

theorem visits_step {e : Event} {ps : List Slot} (hstep : s.step L e = some (s', .visits ps))
    : ∀ p ∈ ps, (s.ptable p).state ≠ .unused := by
  unfold State.step at hstep
  split at hstep
  . split at hstep <;> cases hstep
  . cases hstep
  . unfold State.fork at hstep
    repeat' split at hstep
    all_goals cases hstep
  . unfold State.forkNext at hstep
    repeat' split at hstep
    all_goals cases hstep
  . unfold State.exit at hstep
    repeat' split at hstep
    all_goals cases hstep
  . unfold State.wait at hstep
    repeat' split at hstep
    all_goals cases hstep
  . split at hstep
    . cases hstep
      intro p hp
      unfold State.getmeminfo at hp
      split at hp
      . cases hp
      . have := (List.mem_filter.mp hp).2
        simp only [decide_eq_true_eq] at this
        exact this.2
    . cases hstep
  . cases hstep

end

/--
Whatever slots a `getmeminfo` visits in a run, their page directories are allocated to them if and only if none of them is
claimed only. A run ends with a `growproc` that shrinks a process from above `KERNBASE` and frees a page that the kernel
uses.
-/
theorem visits_owned_iff {L : Layout} {init : List UInt8} {m : Mem} {s₀ : Vm.State} (hs : m.Sound (Valid L) 0)
    (hboot : userinit L init m = .ok s₀) (es : List Event)
    : Machine.Along (noted L) (fun a _ o _ => ∀ ps, o = .visits ps →
        ((∀ p ∈ ps, Owns a p) ↔ ∀ p ∈ ps, ¬ a.1.Pending p)) (start s₀, dirsOf (start s₀)) es := by
  apply Machine.along_of_invariant (I := Inv L) (P := fun _ _ _ _ => True) _ (start_inv hs hboot) (Machine.along_true _ _)
  rintro ⟨s, H⟩ e o ⟨s', H'⟩ h hstep -
  obtain ⟨hact, hnote⟩ := Machine.watch_eq_some hstep
  refine ⟨?_, ?_⟩
  . rintro ps rfl
    have hused := visits_step hact
    exact forall₂_congr fun p hp => h.owns_iff (hused p hp)
  . dsimp only at hact hnote
    rw [hnote]
    exact step_inv h hact

theorem visits_owned_iff_boot
    : ∃ s₀, userinit Layout.small [] Mem.small = .ok s₀ ∧
        Machine.Along (noted Layout.small) (fun a _ o _ => ∀ ps, o = .visits ps →
          ((∀ p ∈ ps, Owns a p) ↔ ∀ p ∈ ps, ¬ a.1.Pending p)) (start s₀, dirsOf (start s₀))
          [.dispatch 0, .getmeminfo 0, .fork, .yield] := by
  obtain ⟨d, kstack, m, hboot, -⟩ := Mem.small_boot
  exact ⟨_, hboot, visits_owned_iff Mem.small_sound hboot _⟩

-- The first process has a child and is about to create another one, when the child calls `getmeminfo(0)`.
theorem embryo_is_visited
    : ∃ s₀, userinit Layout.small [] Mem.small = .ok s₀ ∧
        ¬ Machine.Along (noted Layout.small) (fun a _ o _ => ∀ ps, o = .visits ps → ∀ p ∈ ps, Owns a p)
          (start s₀, dirsOf (start s₀))
          [.dispatch 0, .fork, .forkNext, .forkNext, .forkNext, .forkNext, .fork, .yield, .dispatch 1, .getmeminfo 0] := by
  obtain ⟨d, kstack, m, hboot, hb, huser, hlen⟩ := Mem.small_boot
  refine ⟨_, hboot, ?_⟩
  intro hall
  have hinv := start_inv Mem.small_sound hboot
  obtain ⟨s0, hs0⟩ : ∃ s, s = start (bootState d kstack m) := ⟨_, rfl⟩
  rw [← hs0] at hall hinv
  -- the child
  obtain ⟨s1, hs1⟩ : ∃ s, s = { s0.setState 0 .running with cpu := some 0 } := ⟨_, rfl⟩
  have h1 : s0.step Layout.small (.dispatch 0) = some (s1, .none) := by
    rw [hs1, hs0]
    rfl
  obtain ⟨s2, hs2⟩ : ∃ s, s = (s1.fork 0).1 := ⟨_, rfl⟩
  have h2 : s1.step Layout.small .fork = some (s2, .none) := by
    rw [hs2, hs1, hs0]
    rfl
  have hpc2 : (s2.ptable 0).pc = .kstack 1 := by
    rw [hs2, hs1, hs0]
    rfl
  have hmem2 : s2.mem = m := by
    rw [hs2, hs1, hs0]
    rfl
  obtain ⟨k, m1, hkalloc⟩ : ∃ k m1, m.kalloc = some (k, m1) := by
    cases hk : m.kalloc with
    | none =>
      rw [Mem.kalloc_eq_none.mp hk, List.length_nil] at hlen
      omega
    | some r => exact ⟨r.1, r.2, rfl⟩
  obtain ⟨s3, hs3⟩ : ∃ s, s = ({ s2 with mem := m1 }.modify 1 fun x => { x with kstack := some k }).setPc 0 (.copy 1) :=
    ⟨_, rfl⟩
  have h3 : s2.step Layout.small .forkNext = some (s3, .none) := by
    have hcpu2 : s2.cpu = some 0 := by
      rw [hs2, hs1, hs0]
      rfl
    unfold State.step
    rw [hcpu2]
    dsimp only
    unfold State.forkNext
    rw [hpc2]
    dsimp only
    rw [hmem2, hkalloc, hs3]
  have hpc3 : (s3.ptable 0).pc = .copy 1 := by
    rw [hs3]
    rfl
  have hpgdir3 : (s3.ptable 0).pgdir = some d := by
    rw [hs3, hs2, hs1, hs0]
    rfl
  have hsz3 : (s3.ptable 0).sz = PGSIZE := by
    rw [hs3, hs2, hs1, hs0]
    rfl
  have hmem3 : s3.mem = m1 := by
    rw [hs3]
    rfl
  obtain ⟨d', m2, hcopy⟩ : ∃ d' m2, copyuvm Layout.small d PGSIZE m1 = .ok (some d', m2) := by
    have hs : m.Sound (Valid Layout.small) d.frames := (userinit_inv Mem.small_sound hboot).1.sound_pgdir (p := 0) rfl
    have hx := (Mem.kalloc_xfer hkalloc).frame d.frames
    rw [zero_add] at hx
    have hs1 := (hx.sound hs).mono (Multiset.le_add_left d.frames {k})
    have hpresent : ∀ v, v * PGSIZE < PGSIZE → (d.pte v).present = true := by
      intro v hv
      obtain rfl : v = 0 := by
        unfold PGSIZE at hv
        omega
      exact (hb.pages 0 (by decide)).mpr Nat.one_pos
    have hlen1 : m1.free.length + 1 = m.free.length := by
      rw [(kalloc_eq_some hkalloc).1, List.length_cons]
    have hcost : copyCost (npages PGSIZE) = 67 := by decide
    have hend : npages PGSIZE * PGSIZE = PGSIZE := by decide
    rcases copyuvm_cases hb.wf hs1 (reach_all hpresent) with ⟨hlt, -⟩ | ⟨-, hlt, -⟩ | ⟨-, -, d', m2, heq, -⟩
    . omega
    . omega
    . exact ⟨d', m2, heq⟩
  obtain ⟨s4, hs4⟩ : ∃ s, s = ({ s3 with mem := m2 }.modify 1 fun x => { x with pgdir := some d' }).setPc 0 (.copied 1) :=
    ⟨_, rfl⟩
  have h4 : s3.step Layout.small .forkNext = some (s4, .none) := by
    have hcpu3 : s3.cpu = some 0 := by
      rw [hs3, hs2, hs1, hs0]
      rfl
    unfold State.step
    rw [hcpu3]
    dsimp only
    unfold State.forkNext
    rw [hpc3]
    dsimp only
    rw [hpgdir3]
    dsimp only
    rw [hsz3, hmem3, hcopy, hs4]
  obtain ⟨s5, hs5⟩ : ∃ s, s = (s4.modify 1 fun x => { x with sz := PGSIZE, parent := some 0 }).setPc 0 (.publish 1) :=
    ⟨_, rfl⟩
  have h5 : s4.step Layout.small .forkNext = some (s5, .none) := by
    rw [hs5, hs4, hs3, hs2, hs1, hs0]
    rfl
  obtain ⟨s6, hs6⟩ : ∃ s, s = (s5.setState 1 .runnable).setPc 0 .user := ⟨_, rfl⟩
  have h6 : s5.step Layout.small .forkNext = some (s6, .ret 2) := by
    rw [hs6, hs5, hs4, hs3, hs2, hs1, hs0]
    rfl
  obtain ⟨s7, hs7⟩ : ∃ s, s = (s6.fork 0).1 := ⟨_, rfl⟩
  have h7 : s6.step Layout.small .fork = some (s7, .none) := by
    rw [hs7, hs6, hs5, hs4, hs3, hs2, hs1, hs0]
    rfl
  obtain ⟨s8, hs8⟩ : ∃ s, s = { s7.setState 0 .runnable with cpu := none } := ⟨_, rfl⟩
  have h8 : s7.step Layout.small .yield = some (s8, .none) := by
    rw [hs8, hs7, hs6, hs5, hs4, hs3, hs2, hs1, hs0]
    rfl
  obtain ⟨s9, hs9⟩ : ∃ s, s = { s8.setState 1 .running with cpu := some 1 } := ⟨_, rfl⟩
  have h9 : s8.step Layout.small (.dispatch 1) = some (s9, .none) := by
    rw [hs9, hs8, hs7, hs6, hs5, hs4, hs3, hs2, hs1, hs0]
    rfl
  have h10 : s9.step Layout.small (.getmeminfo 0) = some (s9, .visits [0, 1, 2]) := by
    rw [hs9, hs8, hs7, hs6, hs5, hs4, hs3, hs2, hs1, hs0]
    rfl
  unfold noted at hall
  rw [Machine.along_cons (Machine.watch_of_step note _ h1), Machine.along_cons (Machine.watch_of_step note _ h2),
    Machine.along_cons (Machine.watch_of_step note _ h3), Machine.along_cons (Machine.watch_of_step note _ h4),
    Machine.along_cons (Machine.watch_of_step note _ h5), Machine.along_cons (Machine.watch_of_step note _ h6),
    Machine.along_cons (Machine.watch_of_step note _ h7), Machine.along_cons (Machine.watch_of_step note _ h8),
    Machine.along_cons (Machine.watch_of_step note _ h9), Machine.along_cons (Machine.watch_of_step note _ h10)] at hall
  have hinv9 := step_inv (step_inv (step_inv (step_inv (step_inv (step_inv (step_inv (step_inv (step_inv hinv
    h1) h2) h3) h4) h5) h6) h7) h8) h9
  have howns := hall.2.2.2.2.2.2.2.2.2.1 [0, 1, 2] rfl 2 (by decide)
  have hembryo : (s9.ptable 2).state = .embryo := by
    rw [hs9, hs8, hs7, hs6, hs5, hs4, hs3, hs2, hs1, hs0]
    rfl
  have hpending : s9.Pending 2 := by
    refine ⟨0, ?_⟩
    rw [hs9, hs8, hs7, hs6, hs5, hs4, hs3, hs2, hs1, hs0]
    rfl
  exact (hinv9.owns_iff (by simp [hembryo])).mp howns hpending

end Xv6.Vm.Table
