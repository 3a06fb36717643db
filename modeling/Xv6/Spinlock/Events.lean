import Xv6.Spinlock.Steps

/-!
The invariant through every event that does not panic.
-/

namespace Xv6.Spinlock

variable {κ ι L : Type} [DecidableEq κ] [DecidableEq ι] [DecidableEq L]
variable {cpu : Cpu ι L} {k : Kthread L} {n : Nat} {s t : State κ ι L} {c c' : κ} {lk ptable : L} {p : ι} {f : Caller}
variable {R : L → L → Prop}

namespace Local

variable {l : Local L}

omit [DecidableEq L] in
theorem Signs.owns (h : l.Signs lk) : l.Owns lk := by
  rcases h with hmem | hpc
  . exact .inl hmem
  . right
    rw [hpc]
    rfl

omit [DecidableEq L] in
theorem owns_iff (h : l.pc.busy = none) : l.Owns lk ↔ lk ∈ l.held := by
  unfold Owns
  rw [h]
  simp

omit [DecidableEq L] in
theorem signs_iff (h : l.pc ≠ .clearCpu lk) : l.Signs lk ↔ lk ∈ l.held := by
  unfold Signs
  simp [h]

omit [DecidableEq κ] [DecidableEq ι] [DecidableEq L] in
theorem Deep.setPc (h : (Local.of cpu k).Deep n) (pc : Pc L) : (Local.of { cpu with pc := pc } k).Deep n :=
  ⟨h.ncli, h.eflags, h.flag, h.nodup⟩

omit [DecidableEq L] in
theorem Deep.good (h : l.Deep n) (hn : l.pc.depth = n) (hbusy : l.pc.busy = none)
    (horder : ∀ lk, l.pc.wants = some lk → ∀ x ∈ l.held, R x lk)
    : l.Good R := by
  refine ⟨hn ▸ h, fun lk hlk => ?_, horder⟩
  rw [hbusy] at hlk
  cases hlk

end Local

omit [DecidableEq L] in
theorem Pc.ne_clearCpu {pc : Pc L} (h : pc.busy = none) (lk : L) : pc ≠ .clearCpu lk := by
  rintro rfl
  cases h

omit [DecidableEq L] in
-- The CPU is in none of the three places where a lock is neither held nor free, and does not come to one.
theorem Inv.quiet (h : Inv R ptable s) (hproc : cpu.proc = (s.cpu c).proc) (hpc : ∀ lk, cpu.pc ≠ .holding .sched lk)
    (hpc' : (s.cpu c).pc ≠ .holding .sched ptable) (hdeep : (Local.of cpu k).Deep n) (hn : cpu.pc.depth = n)
    (hbusy : cpu.pc.busy = none) (hbusy' : (s.cpu c).pc.busy = none) (hheld : k.held = s.held c)
    (horder : ∀ lk, cpu.pc.wants = some lk → ∀ x ∈ k.held, R x lk)
    : Inv R ptable (s.put c cpu k) := by
  apply h.put hproc hpc hpc' (hdeep.good hn hbusy horder)
  . intro x
    rw [Local.owns_iff hbusy, Local.owns_iff hbusy']
    change x ∈ k.held ↔ x ∈ s.held c
    rw [hheld]
  . intro x
    rw [Local.signs_iff (Pc.ne_clearCpu hbusy x), Local.signs_iff (Pc.ne_clearCpu hbusy' x)]
    change x ∈ k.held ↔ x ∈ s.held c
    rw [hheld]

theorem State.holding_put (hproc : cpu.proc = (s.cpu c).proc) (f : Caller) (lk : L)
    : (s.put c cpu k).holding c f lk =
        if (s.lock lk).locked then s.put c { cpu.pushcli with pc := .holding f lk } (k.push cpu)
        else (s.put c cpu.pushcli (k.push cpu)).orPanic cpu.pushcli.popcli
          ((s.put c cpu.pushcli (k.push cpu)).answer c f lk false) := by
  have hpush : (s.put c cpu k).pushcli c = s.put c cpu.pushcli (k.push cpu) := by
    rw [pushcli_eq, thread_put hproc, cpu_put, put_put hproc]
  have hproc' : cpu.pushcli.proc = (s.cpu c).proc := hproc
  unfold holding
  dsimp only
  rw [hpush, setPc_eq, put_put hproc', thread_put hproc', cpu_put]
  rfl

-- The beginning of `acquire` and of `release`.
theorem Inv.holding (h : Inv R ptable s) (hcode : (s.cpu c).pc = .code) (hproc : cpu.proc = (s.cpu c).proc)
    (hheld : k.held = s.held c) (hdeep : (Local.of cpu k).Deep n) (hf : f = .acquire ∧ n = 1 ∨ f = .release ∧ n = 0)
    (horder : f = .acquire → ∀ x ∈ k.held, R x lk) (ht : ((s.put c cpu k).holding c f lk).panic = none)
    : Inv R ptable ((s.put c cpu k).holding c f lk) := by
  have hbusy' : (s.cpu c).pc.busy = none := by
    rw [hcode]
    rfl
  have hpc' : (s.cpu c).pc ≠ .holding .sched ptable := by
    rw [hcode]
    intro heq
    cases heq
  have hproc' : cpu.pushcli.proc = (s.cpu c).proc := hproc
  rw [State.holding_put hproc] at ht ⊢
  split
  . have hnext : ({ cpu.pushcli with pc := .holding f lk } : Cpu ι L).proc = (s.cpu c).proc := hproc
    refine h.quiet hnext ?_ hpc' (hdeep.pushcli.setPc _) ?_ rfl hbusy' hheld ?_
    . intro x heq
      rcases hf with ⟨rfl, -⟩ | ⟨rfl, -⟩ <;> cases heq
    . rcases hf with ⟨rfl, rfl⟩ | ⟨rfl, rfl⟩ <;> rfl
    . intro x heq
      rcases hf with ⟨rfl, -⟩ | ⟨rfl, -⟩
      . cases heq
        exact horder rfl
      . cases heq
  . next hfree =>
    obtain ⟨cpu', hpop, hdeep', hsame, -, -⟩ := hdeep.pushcli.popcli
    rw [if_neg hfree, hpop] at ht
    rw [hpop]
    rcases hf with ⟨rfl, rfl⟩ | ⟨rfl, rfl⟩
    . unfold State.orPanic State.answer
      dsimp only
      rw [State.setPc_eq, State.put_put hproc', State.thread_put hproc']
      have hnext : ({ cpu' with pc := .spin lk } : Cpu ι L).proc = (s.cpu c).proc := hsame.trans hproc
      refine h.quiet hnext (fun _ heq => (by cases heq)) hpc' (hdeep'.setPc _) rfl rfl hbusy' hheld ?_
      intro x heq
      cases heq
      exact horder rfl
    . cases ht

section

variable (h : Inv R ptable s)

include h

omit [DecidableEq κ] [DecidableEq ι] [DecidableEq L] in
theorem Inv.deep (c : κ) : (Local.of (s.cpu c) (s.thread (s.current c))).Deep (s.cpu c).pc.depth :=
  (h.locks.good c).deep

omit [DecidableEq κ] [DecidableEq ι] [DecidableEq L] in
-- `holding` says whether the thread that runs has the lock.
theorem Inv.signed (hpc : ∀ lk, (s.cpu c).pc ≠ .clearCpu lk) : (s.lock lk).cpu = some c ↔ lk ∈ s.held c := by
  rw [h.locks.cpu]
  exact Local.signs_iff (hpc lk)

theorem inv_acquire (hcode : (s.cpu c).pc = .code) (horder : ∀ x ∈ s.held c, R x lk)
    (ht : ((s.pushcli c).holding c .acquire lk).panic = none)
    : Inv R ptable ((s.pushcli c).holding c .acquire lk) := by
  have hdeep := h.deep c
  rw [hcode] at hdeep
  rw [State.pushcli_eq] at ht ⊢
  exact h.holding hcode rfl rfl hdeep.pushcli (.inl ⟨rfl, rfl⟩) (fun _ => horder) ht

theorem inv_release (hcode : (s.cpu c).pc = .code) (ht : (s.holding c .release lk).panic = none)
    : Inv R ptable (s.holding c .release lk) := by
  have hdeep := h.deep c
  rw [hcode] at hdeep
  have hself : s.put c (s.cpu c) (s.thread (s.current c)) = s := by
    unfold State.put State.setThread State.setCpu
    simp only [Function.update_eq_self]
  rw [← hself] at ht ⊢
  exact h.holding hcode rfl rfl hdeep (.inr ⟨rfl, rfl⟩) (fun heq => (by cases heq)) ht

theorem inv_spin (hpc : (s.cpu c).pc = .spin lk) (hfree : (s.lock lk).locked ≠ true)
    : Inv R ptable ((s.setLock lk { s.lock lk with locked := true }).setPc c (s.cpu c) (.setCpu lk)) := by
  have hdeep := h.deep c
  have hnobody : ∀ c', ¬ (s.loc c').Owns lk := fun c' how => hfree ((h.locks.locked lk).mpr ⟨c', how⟩)
  have hbusy : (s.cpu c).pc.busy = none := by
    rw [hpc]
    rfl
  have howns : ∀ x, (s.loc c).Owns x ↔ x ∈ s.held c := fun x => Local.owns_iff hbusy
  have hsigns : ∀ x, (s.loc c).Signs x ↔ x ∈ s.held c := fun x => Local.signs_iff (Pc.ne_clearCpu hbusy x)
  have hheld : lk ∉ s.held c := fun hmem => hnobody c ((howns lk).mpr hmem)
  rw [State.setPc_eq]
  apply h.putLock
  . rfl
  . intro x heq
    cases heq
  . rw [hpc]
    intro heq
    cases heq
  . refine ⟨?_, ?_, fun _ heq => (by cases heq)⟩
    . rw [hpc] at hdeep
      exact hdeep.setPc _
    . rintro x heq
      cases heq
      exact hheld
  . intro x hx
    constructor
    . rw [howns]
      constructor
      . rintro (hmem | heq)
        . exact hmem
        . cases heq
          exact absurd rfl hx
      . exact .inl
    . rw [hsigns]
      exact Local.signs_iff (fun heq => by cases heq)
  . exact ⟨fun _ => .inl (.inr rfl), fun _ => rfl⟩
  . exact fun _ c' _ => hnobody c'
  . constructor
    . change (s.lock lk).cpu = some c ↔ _
      rw [h.locks.cpu, hsigns]
      exact Iff.symm (Local.signs_iff fun heq => by cases heq)
    . exact fun c' _ => h.locks.cpu lk c'

theorem inv_setCpu (hpc : (s.cpu c).pc = .setCpu lk)
    : Inv R ptable (((s.setLock lk { s.lock lk with cpu := some c }).setThread (s.current c)
        { s.thread (s.current c) with held := lk :: (s.thread (s.current c)).held }).setPc c (s.cpu c) .code) := by
  have hgood := h.locks.good c
  have hdeep := h.deep c
  rw [hpc] at hdeep
  have hheld : lk ∉ s.held c := by
    apply hgood.fresh lk
    change (s.cpu c).pc.busy = some lk
    rw [hpc]
    rfl
  have howns : (s.loc c).Owns lk := by
    right
    change (s.cpu c).pc.busy = some lk
    rw [hpc]
    rfl
  have hothers : ∀ c' ≠ c, ¬ (s.loc c').Owns lk := fun c' hc how => hc (h.locks.unique lk c' c how howns)
  change Inv R ptable ((s.setLock lk { s.lock lk with cpu := some c }).put c { s.cpu c with pc := .code }
    { s.thread (s.current c) with held := lk :: (s.thread (s.current c)).held })
  apply h.putLock
  . rfl
  . intro x heq
    cases heq
  . rw [hpc]
    intro heq
    cases heq
  . refine Local.Deep.good (n := 0) ⟨?_, hdeep.eflags, hdeep.flag, ?_⟩ rfl rfl fun _ heq => (by cases heq)
    . have hncli : (s.cpu c).ncli = (s.thread (s.current c)).held.length + 1 := hdeep.ncli
      exact hncli
    . exact List.nodup_cons.mpr ⟨hheld, hdeep.nodup⟩
  . intro x hx
    have hmem : x ∈ lk :: (s.thread (s.current c)).held ↔ x ∈ s.held c := by
      rw [List.mem_cons]
      exact or_iff_right hx
    constructor
    . rw [Local.owns_iff rfl]
      refine hmem.trans ⟨.inl, ?_⟩
      rintro (hx' | heq)
      . exact hx'
      . change (s.cpu c).pc.busy = some x at heq
        rw [hpc] at heq
        cases heq
        exact absurd rfl hx
    . have hold : (s.loc c).Signs x ↔ x ∈ s.held c := by
        apply Local.signs_iff
        change (s.cpu c).pc ≠ _
        rw [hpc]
        intro heq
        cases heq
      rw [Local.signs_iff (fun heq => by cases heq), hold]
      exact hmem
  . constructor
    . exact fun _ => .inl (.inl List.mem_cons_self)
    . exact fun _ => (h.locks.locked lk).mpr ⟨c, howns⟩
  . exact fun _ => hothers
  . constructor
    . exact ⟨fun _ => .inl List.mem_cons_self, fun _ => rfl⟩
    . intro c' hc
      constructor
      . intro heq
        exact absurd (Option.some.inj heq).symm hc
      . exact fun hsign => absurd hsign.owns (hothers c' hc)

theorem inv_clearCpu (hpc : (s.cpu c).pc = .clearCpu lk)
    : Inv R ptable ((s.setLock lk { s.lock lk with cpu := none }).setPc c (s.cpu c) (.clearLocked lk)) := by
  have hgood := h.locks.good c
  have hdeep := h.deep c
  rw [hpc] at hdeep
  have hbusy : (s.loc c).pc.busy = some lk := by
    change (s.cpu c).pc.busy = some lk
    rw [hpc]
    rfl
  have hheld : lk ∉ s.held c := hgood.fresh lk hbusy
  have hothers : ∀ c' ≠ c, ¬ (s.loc c').Owns lk := fun c' hc how => hc (h.locks.unique lk c' c how (.inr hbusy))
  rw [State.setPc_eq]
  apply h.putLock
  . rfl
  . intro x heq
    cases heq
  . rw [hpc]
    intro heq
    cases heq
  . refine ⟨hdeep.setPc _, ?_, fun _ heq => (by cases heq)⟩
    rintro x heq
    cases heq
    exact hheld
  . intro x hx
    constructor
    . unfold Local.Owns
      rw [hbusy]
      exact Iff.rfl
    . have hne : (s.loc c).pc ≠ .clearCpu x := by
        change (s.cpu c).pc ≠ _
        rw [hpc]
        exact fun heq => hx (Pc.clearCpu.inj heq).symm
      rw [Local.signs_iff hne]
      exact Local.signs_iff (fun heq => by cases heq)
  . exact ⟨fun _ => .inl (.inr rfl), fun _ => (h.locks.locked lk).mpr ⟨c, .inr hbusy⟩⟩
  . exact fun _ => hothers
  . constructor
    . constructor
      . intro heq
        cases heq
      . intro hsign
        rw [Local.signs_iff (fun heq => by cases heq)] at hsign
        exact absurd hsign hheld
    . intro c' hc
      constructor
      . intro heq
        cases heq
      . exact fun hsign => absurd hsign.owns (hothers c' hc)

theorem inv_clearLocked (hpc : (s.cpu c).pc = .clearLocked lk) {cpu' : Cpu ι L} (hpop : (s.cpu c).popcli = .ok cpu')
    : Inv R ptable ((s.setLock lk { s.lock lk with locked := false }).setPc c cpu' .code) := by
  have hgood := h.locks.good c
  have hdeep := h.deep c
  rw [hpc] at hdeep
  have hbusy : (s.loc c).pc.busy = some lk := by
    change (s.cpu c).pc.busy = some lk
    rw [hpc]
    rfl
  have hne : ∀ x, (s.loc c).pc ≠ .clearCpu x := by
    intro x
    change (s.cpu c).pc ≠ _
    rw [hpc]
    exact fun heq => by cases heq
  have hheld : lk ∉ s.held c := hgood.fresh lk hbusy
  have hothers : ∀ c' ≠ c, ¬ (s.loc c').Owns lk := fun c' hc how => hc (h.locks.unique lk c' c how (.inr hbusy))
  obtain ⟨cpu1, hpop1, hdeep1, hproc1, -, -⟩ := hdeep.popcli
  rw [hpop, Except.ok.injEq] at hpop1
  subst hpop1
  rw [State.setPc_eq]
  apply h.putLock
  . exact hproc1
  . intro x heq
    cases heq
  . rw [hpc]
    intro heq
    cases heq
  . exact (hdeep1.setPc .code).good rfl rfl fun _ heq => (by cases heq)
  . intro x hx
    constructor
    . rw [Local.owns_iff rfl]
      unfold Local.Owns
      rw [hbusy]
      exact ⟨.inl, fun how => how.resolve_right fun heq => hx (Option.some.inj heq).symm⟩
    . rw [Local.signs_iff (hne x)]
      exact Local.signs_iff (fun heq => by cases heq)
  . constructor
    . intro heq
      cases heq
    . rintro (how | ⟨c', hc, how⟩)
      . rw [Local.owns_iff rfl] at how
        exact absurd how hheld
      . exact absurd how (hothers c' hc)
  . exact fun _ => hothers
  . constructor
    . change (s.lock lk).cpu = some c ↔ _
      rw [h.locks.cpu, Local.signs_iff (hne lk)]
      exact Iff.symm (Local.signs_iff fun heq => by cases heq)
    . exact fun c' _ => h.locks.cpu lk c'

end

end Xv6.Spinlock
