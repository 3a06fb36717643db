import Xv6.Vm.Lemmas.Fault

/-!
Whether a page fault gets anywhere. The handler never sets `killed`, so what it does not map is tried again
for ever.
-/

namespace Xv6.Vm

-- The fault does not come back as it was.
structure Progress (x x' : Proc) (va : Nat) : Prop where
  settled : x'.accessible va = true ∨ x'.killed = true
  changed : ¬ (x'.pgdir = x.pgdir ∧ x'.killed = x.killed)

/--
The handler allocates the page, or it frees one of a process that is killed already: out of memory, it takes
a page that is present but not accessible for the part of the allocation that has to be undone.
-/
def Served (x : Proc) (m : Mem) (va : Nat) : Prop :=
  InReach x va ∧
    (Absent x va ∧ Room x.pgdir m (va / PGSIZE) ∨ x.killed = true ∧ ¬ Absent x va ∧ m.free = [])

section

variable {L : Layout} {s s' : State} {e : Event} {o : Output} {p : Slot} {x x' : Proc} {va : Nat}

theorem accessible_of_fresh {d : PgDir} {m : Mem} (h : Fresh d m {va / PGSIZE})
    : Proc.accessible { x with pgdir := d } va = true := by
  obtain ⟨q, hpte, -⟩ := h (va / PGSIZE) rfl
  simp [Proc.accessible, hpte]

theorem pgfault_progress {m m' : Mem} (hd : x.pgdir.Wf) (hs : m.Sound (Valid L) x.pgdir.frames)
    (hsz : x.sz < 2 ^ 32) (h : pgfault L va x m = .ok (x', m'))
    : Progress x x' va ↔ Served x m va := by
  unfold Served
  cases pgfault_cases hd hs hsz va with
  | out hout heq =>
    rw [h, Except.ok.injEq, Prod.mk.injEq] at heq
    rw [heq.1]
    refine iff_of_false ?_ fun hserved => hout hserved.1
    intro hprogress
    exact hprogress.changed ⟨rfl, rfl⟩
  | served hr habsent hroom d m1 Δ heq hgrows hfresh =>
    rw [h, Except.ok.injEq, Prod.mk.injEq] at heq
    rw [heq.1]
    refine iff_of_true ⟨.inl (accessible_of_fresh hfresh), ?_⟩ ⟨hr, .inl ⟨habsent, hroom⟩⟩
    rintro ⟨hsame, -⟩
    obtain ⟨q, hpte, -⟩ := hfresh (va / PGSIZE) rfl
    unfold Absent at habsent
    rw [← hsame, hpte] at habsent
    simp at habsent
  | failed hr habsent hroom m1 heq =>
    rw [h, Except.ok.injEq, Prod.mk.injEq] at heq
    rw [heq.1]
    refine iff_of_false ?_ ?_
    . intro hprogress
      exact hprogress.changed ⟨rfl, rfl⟩
    . rintro ⟨-, ⟨-, hroom'⟩ | ⟨-, hpresent, -⟩⟩
      . exact hroom hroom'
      . exact hpresent habsent
  | dropped hr hpresent hfree m1 heq =>
    rw [h, Except.ok.injEq, Prod.mk.injEq] at heq
    rw [heq.1]
    have hclear : (x.pgdir.clear (va / PGSIZE) (va / PGSIZE + 1)).pte (va / PGSIZE) = .zero := by
      rw [PgDir.clear_pte, if_pos ⟨Nat.le_refl _, Nat.lt_succ_self _⟩]
    constructor
    . intro hprogress
      refine ⟨hr, .inr ⟨?_, hpresent, hfree⟩⟩
      rcases hprogress.settled with haccess | hkilled
      . simp [Proc.accessible, hclear, Pte.zero] at haccess
      . exact hkilled
    . rintro ⟨-, ⟨habsent, -⟩ | ⟨hkilled, -, -⟩⟩
      . exact absurd habsent hpresent
      . refine ⟨.inr hkilled, ?_⟩
        rintro ⟨hsame, -⟩
        apply hpresent
        unfold Absent
        rw [← hsame]
        dsimp only
        rw [hclear]
        rfl
  | remap hr hpresent hfree heq =>
    rw [h] at heq
    simp at heq

end

-- A fault that the handler returns from.
def Returns (s : State) (e : Event) (o : Output) (p : Slot) (va : Nat) (x : Proc) : Prop :=
  e = .pgfault p va ∧ s.procs p = some x ∧ ∀ why, o ≠ .stop why

/--
In every run from `userinit` on, a page fault that the handler returns from makes progress if and only if the
address is below `sz`, its page ends below `KERNBASE`, it is missing, and there is memory for it and its page
table; the one exception are processes that are killed already. A run ends with a `growproc` that shrinks a
process from above `KERNBASE` and frees a page that the kernel uses.
-/
theorem fault_progress_iff_served {L : Layout} {init : List UInt8} {m : Mem} {s : State}
    (hs : m.Sound (Valid L) 0) (hboot : userinit L init m = .ok s) (es : List Event)
    : Machine.Along (State.step L) (fun s e o s' => ∀ p va x, Returns s e o p va x →
        ∃ x', s'.procs p = some x' ∧ (Progress x x' va ↔ Served x s.mem va)) s es := by
  apply Machine.along_of_invariant (I := Inv L) _ (userinit_inv hs hboot).1 (Machine.along_true s es)
  intro s e o s' hI h _
  refine ⟨?_, step_inv hI h⟩
  rintro p va x ⟨rfl, hp, hret⟩
  rcases pgfault_step h hp with ⟨why, -, ho⟩ | ⟨x', m', heq, rfl, -⟩
  . exact absurd (congrArg Prod.snd ho) (hret why)
  . refine ⟨x', by rw [State.set_procs, if_pos rfl], ?_⟩
    exact pgfault_progress (hI.wf p x hp) (hI.sound_pgdir hp) (hI.sz p x hp) heq

theorem fault_progress_iff_served_boot
    : ∃ s, userinit Layout.small [] Mem.small = .ok s ∧
        Machine.Along (State.step Layout.small) (fun s e o s' => ∀ p va x, Returns s e o p va x →
          ∃ x', s'.procs p = some x' ∧ (Progress x x' va ↔ Served x s.mem va)) s
          [.mmap 0 4096, .pgfault 0 5000] := by
  obtain ⟨d, kstack, m, hboot, -⟩ := Mem.small_boot
  exact ⟨_, hboot, fault_progress_iff_served Mem.small_sound hboot _⟩

-- An access above `sz`, right after `userinit`.
theorem fault_beyond_sz_comes_back
    : ∃ s, userinit Layout.small [] Mem.small = .ok s ∧
        ¬ Machine.Along (State.step Layout.small) (fun s e o s' => ∀ p va x, Returns s e o p va x →
          ∃ x', s'.procs p = some x' ∧ Progress x x' va) s [.pgfault 0 4096] := by
  obtain ⟨d, kstack, m, hboot, -⟩ := Mem.small_boot
  refine ⟨_, hboot, ?_⟩
  intro hall
  obtain ⟨x', hx', hprogress⟩ := hall.1 0 4096 _ ⟨rfl, rfl, by simp⟩
  cases hx'
  exact hprogress.changed ⟨rfl, rfl⟩

end Xv6.Vm
