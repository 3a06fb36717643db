import Xv6.File.Lemmas

/-!
The system calls on open files: whatever fails in them, they give back the references that they hold.
-/

namespace Xv6.File.State

variable {n : Nat} {s s' : State} {held : Multiset (Fin NFILE)} {f : Fin NFILE} {p np : Slot} {fd : Fin NOFILE}
  {e : Event} {o : Output}

theorem filedup_setOfile (s : State) (f : Fin NFILE) (p : Slot) (fd : Fin NOFILE) (x : Option (Fin NFILE))
    : (s.setOfile p fd x).filedup f = (s.filedup f).map fun s => s.setOfile p fd x := by
  unfold filedup
  by_cases h : (s.file f).ref < 1
  . simp [setOfile, h, Except.map]
  . simp [setOfile, setFile, h, Except.map]

theorem fileclose_setOfile (s : State) (f : Fin NFILE) (p : Slot) (fd : Fin NOFILE) (x : Option (Fin NFILE))
    : (s.setOfile p fd x).fileclose f = (s.fileclose f).map fun s => s.setOfile p fd x := by
  unfold fileclose
  by_cases h : (s.file f).ref < 1
  . simp [setOfile, h, Except.map]
  . by_cases h1 : (s.file f).ref - 1 > 0
    . simp [setOfile, setFile, h, h1, Except.map]
    . cases ht : (s.file f).type
      . simp [setOfile, setFile, h, h1, ht, Except.map]
      . simp only [setOfile, setFile, h, h1, ht, if_false, Except.map, pipeclose_eq]
        split <;> rfl
      . simp [setOfile, setFile, h, h1, ht, Except.map]

theorem argfd_eq_some {arg : Option Int} (h : s.argfd p arg = some (fd, f)) : s.ofile (p, fd) = some f := by
  unfold argfd at h
  split at h
  . simp at h
  . split at h
    . rw [Option.map_eq_some_iff] at h
      obtain ⟨g, hg, heq⟩ := h
      obtain ⟨rfl, rfl⟩ := Prod.mk.inj heq
      exact hg
    . simp at h

theorem Inv.setState (h : Inv n s held) {st : ProcState}
    (hst : st = .unused ∨ st = .zombie → ∀ fd, s.ofile (p, fd) = .none)
    : Inv n (s.setState p st) held where
  ref := h.ref
  gone q fd hq := by
    by_cases hqp : q = p
    . subst hqp
      exact hst (by simpa [State.setState] using hq) fd
    . exact h.gone q fd (by simpa [State.setState, hqp] using hq)
  none := h.none
  side := h.side
  ends := h.ends
  pages := h.pages

-- What a system call leaves behind: it does not panic, and it holds nothing any more.
def Done (n : Nat) (r : Except String (State × Output)) : Prop :=
  ∃ s' o, r = .ok (s', o) ∧ Inv n s' 0 ∧ ∀ msg, o ≠ .panic msg

theorem Done.ret (h : Inv n s 0) (r : Int) : Done n (.ok (s, .ret r)) :=
  ⟨s, .ret r, rfl, h, by simp⟩

theorem sys_dup_done (h : Inv n s 0) (hp : live (s.state p) = true) (arg : Option Int) : Done n (s.sys_dup p arg) := by
  unfold sys_dup
  split
  . exact .ret h (-1)
  . next fd f harg =>
    split
    . exact .ret h (-1)
    . next s1 fd1 halloc =>
      obtain ⟨hfree, rfl⟩ := fdalloc_eq_some halloc
      obtain ⟨s2, hdup, h2, hofile, hstate⟩ := h.filedup (h.ref_pos_of_ofile (argfd_eq_some harg))
      rw [filedup_setOfile, hdup]
      apply Done.ret
      apply h2.fillOfile
      . rw [hofile]
        exact hfree
      . left
        rw [hstate]
        exact hp

theorem sys_close_done (h : Inv n s 0) (arg : Option Int) : Done n (s.sys_close p arg) := by
  unfold sys_close
  split
  . exact .ret h (-1)
  . next fd f harg =>
    obtain ⟨s1, hclose, h1, -⟩ := (h.clearOfile (argfd_eq_some harg)).fileclose
    rw [hclose]
    exact .ret h1 0

theorem sys_open_done (h : Inv n s 0) (hp : live (s.state p) = true) (args : Option (Lookup × BitVec 32))
    : Done n (s.sys_open p args) := by
  unfold sys_open
  split
  . exact .ret h (-1)
  . split
    . exact .ret h (-1)
    . split
      . exact .ret h (-1)
      . next s1 f halloc =>
        obtain ⟨h1, htype, -, hstate⟩ := h.filealloc halloc
        have hpos := h1.ref_pos_of_held (Multiset.mem_cons_self f 0)
        split
        . obtain ⟨s2, hclose, h2, -⟩ := h1.fileclose
          rw [hclose]
          exact .ret h2 (-1)
        . next s2 fd hfd =>
          obtain ⟨hfree, rfl⟩ := fdalloc_eq_some hfd
          have h2 := h1.fillOfile hfree (.inl (hstate ▸ hp))
          apply Done.ret
          apply h2.setFile
          . exact h2.ref f
          . simp
          . intro hzero
            have : (s1.file f).ref = 0 := hzero
            omega
          . simp
          . rw [endOf_eq_none (by simp), endOf_eq_none (by simp [setOfile, htype])]

theorem pipealloc_spec (h : Inv n s 0)
    : ∃ s' r, s.pipealloc = .ok (s', r) ∧ s'.state = s.state ∧
      match r with
      | none => Inv n s' 0
      | some (rf, wf) => Inv n s' (wf ::ₘ rf ::ₘ 0) := by
  unfold pipealloc
  split
  . exact ⟨s, none, rfl, rfl, h⟩
  . next s1 f0 halloc0 =>
    obtain ⟨h1, htype0, -, hstate1⟩ := h.filealloc halloc0
    split
    . obtain ⟨s2, hclose, h2, -, hstate2⟩ := h1.fileclose
      rw [hclose]
      exact ⟨s2, none, rfl, hstate2.trans hstate1, h2⟩
    . next s2 f1 halloc1 =>
      obtain ⟨h2, htype1, hne, hstate2⟩ := h1.filealloc halloc1
      obtain ⟨hne, hf0⟩ := hne f0 (Multiset.mem_cons_self f0 0)
      split
      . rw [Multiset.cons_swap] at h2
        obtain ⟨s3, hclose0, h3, -, hstate3⟩ := h2.fileclose
        obtain ⟨s4, hclose1, h4, -, hstate4⟩ := h3.fileclose
        rw [hclose0]
        dsimp only [bind, Except.bind]
        rw [hclose1]
        exact ⟨s4, none, rfl, (hstate4.trans hstate3).trans (hstate2.trans hstate1), h4⟩
      . next a kmem hk =>
        refine ⟨_, _, rfl, ?_, ?_⟩
        . exact hstate2.trans hstate1
        . dsimp only
          apply h2.connect hne _ _ _ htype1 hk
          . simp
          . simp
          . rw [hf0, htype0]

theorem close_both {rf wf : Fin NFILE} (h : Inv n s (wf ::ₘ rf ::ₘ 0))
    : Done n (do
        let s ← s.fileclose rf
        let s ← s.fileclose wf
        return (s, .ret (-1))) := by
  rw [Multiset.cons_swap] at h
  obtain ⟨s1, hclose0, h1, -⟩ := h.fileclose
  obtain ⟨s2, hclose1, h2, -⟩ := h1.fileclose
  rw [hclose0]
  dsimp only [bind, Except.bind]
  rw [hclose1]
  exact .ret h2 (-1)

theorem sys_pipe_done (h : Inv n s 0) (hp : live (s.state p) = true) (argptr : Bool)
    : Done n (s.sys_pipe p argptr) := by
  unfold sys_pipe
  split
  . exact .ret h (-1)
  . obtain ⟨s1, r, hr, hstate, h1⟩ := pipealloc_spec h
    rw [hr]
    dsimp only [bind, Except.bind]
    cases r with
    | none => exact .ret h1 (-1)
    | some fs =>
      obtain ⟨rf, wf⟩ := fs
      dsimp only at h1 ⊢
      split
      . exact close_both h1
      . next s2 fd0 hfd0 =>
        obtain ⟨hfree0, rfl⟩ := fdalloc_eq_some hfd0
        rw [Multiset.cons_swap] at h1
        have h2 := h1.fillOfile hfree0 (.inl (hstate ▸ hp))
        split
        . apply close_both
          rw [Multiset.cons_swap]
          apply h2.clearOfile
          simp [setOfile]
        . next s3 fd1 hfd1 =>
          obtain ⟨hfree1, rfl⟩ := fdalloc_eq_some hfd1
          have hp2 : live ((s1.setOfile p fd0 (some rf)).state p) = true := hstate ▸ hp
          exact ⟨_, _, rfl, h2.fillOfile hfree1 (.inl hp2), by simp⟩

theorem forkFile_spec (h : Inv n s 0) (hnp : s.state np = .embryo) {i : Fin NOFILE} (hi : s.ofile (np, i) = none)
    : ∃ s', forkFile p np s i = .ok s' ∧ Inv n s' 0 ∧ s'.state = s.state ∧
      ∀ j, j ≠ i → s'.ofile (np, j) = s.ofile (np, j) := by
  unfold forkFile
  split
  . exact ⟨s, rfl, h, rfl, fun _ _ => rfl⟩
  . next f hf =>
    obtain ⟨s1, hdup, h1, hofile, hstate⟩ := h.filedup (h.ref_pos_of_ofile hf)
    rw [hdup]
    refine ⟨_, rfl, h1.fillOfile ?_ (.inr ?_), hstate, ?_⟩
    . rw [hofile, hi]
    . rw [hstate, hnp]
    . intro j hj
      simp [setOfile, hj, hofile]

theorem forkFile_loop (h : Inv n s 0) (hnp : s.state np = .embryo) {l : List (Fin NOFILE)} (hl : l.Nodup)
    (hempty : ∀ i ∈ l, s.ofile (np, i) = none)
    : ∃ s', l.foldlM (forkFile p np) s = .ok s' ∧ Inv n s' 0 := by
  induction l generalizing s with
  | nil => exact ⟨s, rfl, h⟩
  | cons i l ih =>
    rw [List.nodup_cons] at hl
    obtain ⟨s1, hfork, h1, hstate, hofile⟩ := forkFile_spec (p := p) h hnp (hempty i List.mem_cons_self)
    rw [List.foldlM_cons, hfork]
    apply ih h1 _ hl.2
    . intro j hj
      rw [hofile j (fun heq => hl.1 (heq ▸ hj))]
      exact hempty j (List.mem_cons_of_mem i hj)
    . rw [hstate, hnp]

theorem fork_done (h : Inv n s 0) (kstack copyuvm : Bool) : Done n (s.fork p kstack copyuvm) := by
  unfold fork
  split
  . exact .ret h (-1)
  . next np hnp =>
    have hempty : ∀ fd, s.ofile (np, fd) = none := by
      intro fd
      apply h.gone np fd
      left
      simpa using findSlot_eq_some hnp
    dsimp only
    split
    . apply Done.ret
      apply (h.setState (by simp)).setState
      intro _
      exact hempty
    . have h1 : Inv n (s.setState np .embryo) 0 := h.setState (by simp)
      obtain ⟨s2, hloop, h2⟩ := forkFile_loop (p := p) h1 (by simp [setState]) (List.nodup_finRange NOFILE)
        (fun i _ => hempty i)
      rw [hloop]
      apply Done.ret
      apply h2.setState
      simp

theorem exitFile_spec (h : Inv n s 0) (fd : Fin NOFILE)
    : ∃ s', exitFile p s fd = .ok s' ∧ Inv n s' 0 ∧ s'.ofile (p, fd) = none ∧
      ∀ i, s.ofile (p, i) = none → s'.ofile (p, i) = none := by
  unfold exitFile
  split
  . next hfd => exact ⟨s, rfl, h, hfd, fun _ => id⟩
  . next f hf =>
    obtain ⟨s1, hclose, h1, hofile, -⟩ := (h.clearOfile hf).fileclose
    rw [fileclose_setOfile] at hclose
    cases hc : s.fileclose f with
    | error msg => simp [hc, Except.map] at hclose
    | ok s2 =>
      simp only [hc, Except.map, Except.ok.injEq] at hclose
      refine ⟨s1, ?_, h1, ?_, ?_⟩
      . rw [← hclose]
        rfl
      . simp [hofile, setOfile]
      . intro i hi
        rw [hofile]
        simp only [setOfile, Function.update_apply]
        split
        . rfl
        . exact hi

theorem exitFile_loop (h : Inv n s 0) (l : List (Fin NOFILE))
    : ∃ s', l.foldlM (exitFile p) s = .ok s' ∧ Inv n s' 0 ∧
      ∀ i, i ∈ l ∨ s.ofile (p, i) = none → s'.ofile (p, i) = none := by
  induction l generalizing s with
  | nil => exact ⟨s, rfl, h, by simp⟩
  | cons fd l ih =>
    obtain ⟨s1, hexit, h1, hfd, hkeep⟩ := exitFile_spec (p := p) h fd
    obtain ⟨s2, hloop, h2, hnone⟩ := ih h1
    rw [List.foldlM_cons, hexit]
    refine ⟨s2, hloop, h2, ?_⟩
    rintro i (hi | hi)
    . rcases List.mem_cons.mp hi with rfl | hi
      . exact hnone i (.inr hfd)
      . exact hnone i (.inl hi)
    . exact hnone i (.inr (hkeep i hi))

theorem exit_done (h : Inv n s 0) (hp : p ≠ s.initproc) : Done n (s.exit p) := by
  unfold exit
  rw [if_neg hp]
  obtain ⟨s1, hloop, h1, hnone⟩ := exitFile_loop (p := p) h (List.finRange NOFILE)
  rw [hloop]
  refine ⟨_, .none, rfl, ?_, by simp⟩
  apply h1.setState
  intro _ fd
  exact hnone fd (.inl (List.mem_finRange fd))

-- The effect of `step` on the invariant, whichever system call it is.
theorem Done.returns {r : Except String (State × Output)} (hr : Done n r) (hs : (s.returns r) = (s', o))
    : Inv n s' 0 ∧ ∀ msg, o ≠ .panic msg := by
  obtain ⟨t, o', rfl, ht, ho⟩ := hr
  obtain ⟨rfl, rfl⟩ := Prod.mk.inj hs
  exact ⟨ht, ho⟩

def CanPanic (o : Output) : Prop :=
  ∀ msg, o = .panic msg → msg = "init exiting"

theorem Done.step {r : Except String (State × Output)} {c : Prop} [Decidable c] (hr : c → Done n r)
    (hs : (if c then some (s.returns r) else none) = some (s', o))
    : Inv n s' 0 ∧ CanPanic o := by
  split at hs
  . next hc =>
    have := (hr hc).returns (Option.some.inj hs)
    exact ⟨this.1, fun msg hmsg => absurd hmsg (this.2 msg)⟩
  . simp at hs

theorem step_inv (h : Inv n s 0) (hs : step s e = some (s', o)) : Inv n s' 0 ∧ CanPanic o := by
  have hquiet : CanPanic .none := by simp [CanPanic]
  unfold step at hs
  split at hs
  . simp at hs
  . split at hs
    . exact Done.step (fun hp => sys_open_done h hp _) hs
    . exact Done.step (fun hp => sys_dup_done h hp _) hs
    . exact Done.step (fun _ => sys_close_done h _) hs
    . exact Done.step (fun hp => sys_pipe_done h hp _) hs
    . exact Done.step (fun _ => fork_done h _ _) hs
    . next p =>
      by_cases hp : p = s.initproc
      . -- `exit` panics before it does anything
        split at hs
        . simp only [exit, hp, if_true, returns, Option.some.injEq, Prod.mk.injEq] at hs
          obtain ⟨rfl, rfl⟩ := hs
          exact ⟨⟨h.ref, h.gone, h.none, h.side, h.ends, h.pages⟩, by simp [CanPanic]⟩
        . simp at hs
      . exact Done.step (fun _ => exit_done h hp) hs
    . next p =>
      split at hs
      . next hp =>
        simp only [Option.some.injEq, Prod.mk.injEq] at hs
        obtain ⟨rfl, rfl⟩ := hs
        refine ⟨h.setState ?_, hquiet⟩
        intro _ fd
        exact h.gone p fd (.inr hp)
      . simp at hs
    . next p st =>
      split at hs
      . next hp =>
        simp only [Option.some.injEq, Prod.mk.injEq] at hs
        obtain ⟨rfl, rfl⟩ := hs
        refine ⟨h.setState ?_, hquiet⟩
        rintro (rfl | rfl)
        . simp [live] at hp
        . simp [live] at hp
      . simp at hs
    . rw [Option.map_eq_some_iff] at hs
      obtain ⟨⟨a, kmem⟩, hk, heq⟩ := hs
      obtain ⟨rfl, rfl⟩ := Prod.mk.inj heq
      obtain ⟨hfree, hdata⟩ := Pool.take_eq_some hk
      refine ⟨⟨h.ref, h.gone, h.none, h.side, ?_, ?_⟩, hquiet⟩
      . dsimp only
        rw [hdata]
        exact h.ends
      . rw [← h.pages, hfree]
        rw [← Multiset.cons_coe, ← Multiset.cons_coe, Multiset.add_cons, Multiset.add_cons, Multiset.cons_add]
    . next a =>
      split at hs
      . next ha =>
        simp only [Option.some.injEq, Prod.mk.injEq] at hs
        obtain ⟨rfl, rfl⟩ := hs
        refine ⟨⟨h.ref, h.gone, h.none, h.side, ?_, ?_⟩, hquiet⟩
        . apply h.ends.congr
          intro b hb
          have hba : b ≠ a := fun heq => h.notMem_pipes (.inl ha) (heq ▸ hb)
          simp [Pool.put, Pool.give, hba]
        . rw [← h.pages]
          dsimp only [Pool.give, Pool.put]
          rw [← Multiset.cons_coe, Multiset.add_cons, ← Multiset.cons_add, ← Multiset.add_cons,
            ← Multiset.coe_erase, Multiset.cons_erase (Multiset.mem_coe.mpr ha)]
      . simp at hs
    . next a x =>
      split at hs
      . next ha =>
        simp only [Option.some.injEq, Prod.mk.injEq] at hs
        obtain ⟨rfl, rfl⟩ := hs
        refine ⟨⟨h.ref, h.gone, h.none, h.side, ?_, h.pages⟩, hquiet⟩
        apply h.ends.congr
        intro b hb
        have hba : b ≠ a := fun heq => h.notMem_pipes (.inl ha) (heq ▸ hb)
        simp [Pool.put, hba]
      . simp at hs

theorem init_inv (n : Nat) : Inv n (init n) 0 where
  ref f := by
    have : (init n).refs = 0 := by
      apply Multiset.eq_zero_of_forall_notMem
      intro g hg
      rw [refs, Pool.mem_cells] at hg
      obtain ⟨x, -, hx⟩ := hg
      simp [init] at hx
    rw [this]
    rfl
  gone p fd _ := rfl
  none f _ := rfl
  side f hf := by simp [init] at hf
  ends := by
    constructor
    . intro f g x hf
      simp [ends, init, endOf] at hf
    . simp [ends, init, endOf]
    . simp [init]
  pages := by
    simp [init, Multiset.range]

/-- The file table and the pages between two system calls. -/
structure Exact (n : Nat) (s : State) : Prop where
  ref : ∀ f, (s.file f).ref =
    (Finset.univ.filter fun x : Slot × Fin NOFILE => s.state x.1 ≠ .unused ∧ s.ofile x = some f).card
  none : ∀ f, (s.file f).ref = 0 → (s.file f).type = .none
  readopen : ∀ a ∈ s.pipes, (s.kmem.data a).readopen = true ↔
    ∃ f, 0 < (s.file f).ref ∧ (s.file f).type = .pipe ∧ (s.file f).pipe = a ∧ (s.file f).readable = true
  writeopen : ∀ a ∈ s.pipes, (s.kmem.data a).writeopen = true ↔
    ∃ f, 0 < (s.file f).ref ∧ (s.file f).type = .pipe ∧ (s.file f).pipe = a ∧ (s.file f).writable = true
  -- a page is a pipe from `pipealloc` until nobody has one of its ends open
  live : ∀ a, a ∈ s.pipes ↔ ∃ f, 0 < (s.file f).ref ∧ (s.file f).type = .pipe ∧ (s.file f).pipe = a
  -- it is then on the free list, once
  pages : (s.pipes + s.other + s.kmem.free : Multiset Nat) = Multiset.range n

theorem Inv.exact (h : Inv n s 0) : s.Exact n := by
  have hpos : ∀ f, (s.file f).type = .pipe → 0 < (s.file f).ref := by
    intro f hf
    by_contra hzero
    rw [h.none f (by omega)] at hf
    simp at hf
  constructor
  . intro f
    rw [h.ref f, add_zero, refs, Pool.count_cells]
    apply congrArg Finset.card
    apply Finset.filter_congr
    intro x _
    constructor
    . intro hx
      refine ⟨?_, hx⟩
      intro hunused
      rw [h.gone x.1 x.2 (.inl hunused)] at hx
      simp at hx
    . exact fun hx => hx.2
  . exact h.none
  . intro a ha
    have := h.ends.isOpen a ha false
    simp only [File.isOpen, Bool.false_eq_true, if_false, State.ends, endOf_eq_some] at this
    rw [this]
    constructor
    . rintro ⟨f, hf, ha, hw⟩
      exact ⟨f, hpos f hf, hf, ha, by rw [h.side f hf, hw]; rfl⟩
    . rintro ⟨f, -, hf, ha, hr⟩
      rw [h.side f hf] at hr
      exact ⟨f, hf, ha, by simpa using hr⟩
  . intro a ha
    have := h.ends.isOpen a ha true
    simp only [File.isOpen, if_true, State.ends, endOf_eq_some] at this
    rw [this]
    constructor
    . rintro ⟨f, hf, ha, hw⟩
      exact ⟨f, hpos f hf, hf, ha, hw⟩
    . rintro ⟨f, -, hf, ha, hw⟩
      exact ⟨f, hf, ha, hw⟩
  . intro a
    rw [h.ends.live a]
    simp only [State.ends, endOf_eq_some]
    constructor
    . rintro ⟨f, w, hf, ha, -⟩
      exact ⟨f, hpos f hf, hf, ha⟩
    . rintro ⟨f, -, hf, ha⟩
      exact ⟨f, _, hf, ha, rfl⟩
  . exact h.pages

/--
Between any two system calls, whichever of them failed before and wherever, the reference counts are exact and a
page is a pipe as long as one of its ends is open. `filedup` and `fileclose` do not panic.
-/
theorem file_refs_exact (n : Nat) (es : List Event)
    : Machine.Always step (Exact n) (init n) es ∧
      Machine.Along step (fun _ _ o _ => CanPanic o) (init n) es := by
  constructor
  . apply Machine.always_of_invariant (I := fun s => Inv n s 0) _ _ (init_inv n)
    . intro s e o s' h hs
      exact (step_inv h hs).1
    . intro s h
      exact h.exact
  . apply Machine.along_of_invariant (I := fun s => Inv n s 0) _ (init_inv n) (Machine.along_true _ es)
    intro s e o s' h hs _
    exact ⟨(step_inv h hs).2, (step_inv h hs).1⟩

end Xv6.File.State
