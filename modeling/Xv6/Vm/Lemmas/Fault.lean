import Xv6.Vm.Lemmas.Boot
import Xv6.Vm.Lemmas.Cost

/-!
What the handler of a page fault does, case by case.
-/

namespace Xv6.Vm

section

variable {L : Layout} {x : Proc} {m : Mem} {va : Nat}

-- One page, or two if the page table is missing as well.
def Room (d : PgDir) (m : Mem) (v : Nat) : Prop :=
  2 ≤ m.free.length ∨ (m.free ≠ [] ∧ (d.tab (v / NPTENTRIES)).isSome)

-- The handler takes the address for one of a page that it should allocate.
def InReach (x : Proc) (va : Nat) : Prop :=
  va < x.sz ∧ va / PGSIZE + 1 < UPAGES

def Absent (x : Proc) (va : Nat) : Prop :=
  (x.pgdir.pte (va / PGSIZE)).present = false

theorem pgfault_out (hsz : x.sz < 2 ^ 32) (h : ¬ InReach x va) : pgfault L va x m = .ok (x, m) := by
  unfold pgfault
  split
  . rfl
  . next hlt =>
    have hva : va < 2 ^ 32 := by omega
    dsimp only
    rw [fault_range hva]
    have hhigh : ¬ va / PGSIZE + 1 < UPAGES := fun hlow => h ⟨by omega, hlow⟩
    have halloc : ∃ r, allocuvm L x.pgdir (pgrounddown va) (uint ((va / PGSIZE + 1) * PGSIZE)) m
        = .ok (r, x.pgdir, m) := by
      unfold allocuvm
      split
      . exact ⟨0, rfl⟩
      . next hk =>
        refine ⟨pgrounddown va, ?_⟩
        rw [if_pos]
        unfold UPAGES KERNBASE at hhigh
        unfold KERNBASE at hk
        unfold pgrounddown
        unfold uint PGSIZE at *
        omega
    obtain ⟨r, heq⟩ := halloc
    rw [heq]

theorem pgfault_eq (hr : InReach x va)
    : pgfault L va x m
        =
      match allocuvm L x.pgdir (va / PGSIZE * PGSIZE) ((va / PGSIZE + 1) * PGSIZE) m with
      | .error e => .error e
      | .ok (_, d, m) => .ok ({ x with pgdir := d }, m) := by
  have hva : (va / PGSIZE + 1) * PGSIZE < 2 ^ 32 := by
    have := hr.2
    unfold UPAGES KERNBASE at this
    unfold PGSIZE at *
    omega
  have hva' : va < 2 ^ 32 := by
    unfold PGSIZE at hva
    omega
  unfold pgfault
  rw [if_neg (Nat.not_le.mpr hr.1)]
  dsimp only
  rw [fault_range hva', uint_eq_self hva]
  rfl

inductive FaultCase (L : Layout) (x : Proc) (m : Mem) (va : Nat) : Prop where
  | out (hout : ¬ InReach x va) (heq : pgfault L va x m = .ok (x, m))
  | served (hr : InReach x va) (habsent : Absent x va) (hroom : Room x.pgdir m (va / PGSIZE))
      (d : PgDir) (m' : Mem) (Δ : Multiset Ppn) (heq : pgfault L va x m = .ok ({ x with pgdir := d }, m'))
      (hgrows : Grows x.pgdir m d m' {va / PGSIZE} Δ) (hfresh : Fresh d m' {va / PGSIZE})
  | failed (hr : InReach x va) (habsent : Absent x va) (hroom : ¬ Room x.pgdir m (va / PGSIZE))
      (m' : Mem) (heq : pgfault L va x m = .ok (x, m'))
  | dropped (hr : InReach x va) (hpresent : ¬ Absent x va) (hfree : m.free = [])
      (m' : Mem) (heq : pgfault L va x m
        = .ok ({ x with pgdir := x.pgdir.clear (va / PGSIZE) (va / PGSIZE + 1) }, m'))
  | remap (hr : InReach x va) (hpresent : ¬ Absent x va) (hfree : m.free ≠ [])
      (heq : pgfault L va x m = .error (.panic "remap"))

theorem pgfault_cases (hd : x.pgdir.Wf) (hs : m.Sound (Valid L) x.pgdir.frames) (hsz : x.sz < 2 ^ 32) (va : Nat)
    : FaultCase L x m va := by
  by_cases hr : InReach x va
  . have heq := pgfault_eq (L := L) (m := m) hr
    rcases allocuvm_page_cases hd hr.2 hs with
      ⟨habsent, hroom, d, m', Δ, halloc, hgrows, hfresh⟩ | ⟨habsent, hroom, m', halloc⟩ |
      ⟨hpresent, hfree, m', halloc⟩ | ⟨hpresent, hfree, halloc⟩
    . rw [halloc] at heq
      exact .served hr habsent hroom d m' Δ heq hgrows hfresh
    . rw [halloc] at heq
      exact .failed hr habsent hroom m' heq
    . rw [halloc] at heq
      exact .dropped hr (by simp [Absent, hpresent]) hfree m' heq
    . rw [halloc] at heq
      exact .remap hr (by simp [Absent, hpresent]) hfree heq
  . exact .out hr (pgfault_out hsz hr)

theorem pgfault_step {s s' : State} {o : Output} {p : Slot} (h : s.step L (.pgfault p va) = some (s', o)) (hp : s.procs p = some x)
    : (∃ why, pgfault L va x s.mem = .error why ∧ (s', o) = s.stop why) ∨
      ∃ x' m', pgfault L va x s.mem = .ok (x', m') ∧ s' = s.set p (some x') m' ∧ o = .none := by
  unfold State.step at h
  dsimp only at h
  split at h
  . simp at h
  . rw [hp, Option.bind_some] at h
    split at h
    . next why heq =>
      exact .inl ⟨why, heq, (Option.some.inj h).symm⟩
    . next x1 m1 heq =>
      simp only [Option.some.injEq, Prod.mk.injEq] at h
      exact .inr ⟨x1, m1, heq, h.1.symm, h.2.symm⟩

end

end Xv6.Vm
