import Xv6.Vm.Impl.Report
import Xv6.Vm.Lemmas.Boot

/-!
`count_free_pages` of lab 5 and the number of pages that `kalloc` can still return. The loop counts the links and not
the pages, so it is one page short, and without a free page it has no link to start from.
-/

namespace Xv6.Vm

inductive MemEvent where
  | kalloc
  | kfree (p : Ppn)

-- A `kfree` that panics ends the run.
def memStep (L : Layout) : Machine Mem MemEvent (Option Ppn) := fun m e =>
  match e with
  | .kalloc =>
    match m.kalloc with
    | none => some (m, none)
    | some (p, m) => some (m, some p)
  | .kfree p =>
    match m.kfree L p with
    | .error _ => none
    | .ok m => some (m, none)

def kallocs : Nat → Mem → Option Mem
  | 0, m => some m
  | n + 1, m =>
    match m.kalloc with
    | none => none
    | some (_, m) => kallocs n m

-- `n` more calls of `kalloc` succeed, and the one after them fails.
def Remaining (m : Mem) (n : Nat) : Prop :=
  ∃ m', kallocs n m = some m' ∧ m'.kalloc = none

-- What `freememstat` is for: the free bytes, and a page less after every `kalloc`.
structure FreememOk (m : Mem) : Prop where
  count : ∃ n, countFreePages m = .ok n ∧ Remaining m n ∧ sysFreememstat m = .ok (.ofNat 32 (n * PGSIZE))
  drop : ∀ p m' bytes, m.kalloc = some (p, m') → sysFreememstat m = .ok bytes →
    sysFreememstat m' = .ok (bytes - .ofNat 32 PGSIZE)

section

variable {m : Mem} {n : Nat}

theorem remaining_iff : Remaining m n ↔ n = m.free.length := by
  unfold Remaining
  induction n generalizing m with
  | zero =>
    constructor
    . rintro ⟨m', hm', hnone⟩
      cases hm'
      rw [Mem.kalloc_eq_none.mp hnone]
      rfl
    . intro h
      exact ⟨m, rfl, Mem.kalloc_eq_none.mpr (List.length_eq_zero_iff.mp h.symm)⟩
  | succ n ih =>
    unfold kallocs
    cases hp : m.kalloc with
    | none => simp [Mem.kalloc_eq_none.mp hp]
    | some r =>
      obtain ⟨p, m1⟩ := r
      dsimp only
      rw [ih, (Pool.take_eq_some hp).1, List.length_cons]
      omega

theorem countFreeLoop_eq (next : List Ppn) (count : Nat) : countFreeLoop next count = count + next.length := by
  induction next generalizing count with
  | nil => rfl
  | cons p next ih =>
    unfold countFreeLoop
    rw [ih, List.length_cons]
    omega

theorem countFreePages_cases (m : Mem)
    : (Remaining m 0 ∧ countFreePages m = .error .undef) ∨
      ∃ n, Remaining m (n + 1) ∧ countFreePages m = .ok n := by
  unfold countFreePages
  split
  . next h => exact .inl ⟨remaining_iff.mpr (by simp [h]), rfl⟩
  . next p next h =>
    refine .inr ⟨next.length, remaining_iff.mpr (by simp [h]), ?_⟩
    rw [countFreeLoop_eq, Nat.zero_add]

theorem not_freememOk (m : Mem) : ¬ FreememOk m := by
  rintro ⟨⟨n, hcount, hn, -⟩, -⟩
  rcases countFreePages_cases m with ⟨-, heq⟩ | ⟨k, hk, heq⟩
  . rw [heq] at hcount
    cases hcount
  . rw [heq] at hcount
    cases hcount
    rw [remaining_iff] at hn hk
    omega

end

/--
Whatever the calls of `kalloc` and `kfree`, the count is never right: it follows a null pointer or is one short.
-/
theorem free_count_never_right (L : Layout) (m : Mem) (es : List MemEvent)
    : Machine.Always (memStep L) (fun m => ¬ FreememOk m ∧
        ((Remaining m 0 ∧ countFreePages m = .error .undef) ∨
          ∃ n, Remaining m (n + 1) ∧ countFreePages m = .ok n)) m es := by
  apply Machine.always_of_invariant (I := fun _ => True)
  . intro _ _ _ _ _ _
    trivial
  . intro m _
    exact ⟨not_freememOk m, countFreePages_cases m⟩
  . trivial

-- One free page, of which the count knows nothing, and after a `kalloc` there is not even a first link.
theorem last_page_not_counted
    : ¬ Machine.Always (memStep Layout.small) FreememOk { free := [1024], data := fun _ _ => 1 } [.kalloc] := by
  intro h
  obtain ⟨n, hcount, hn, -⟩ := h.1.count
  have hzero : n = 0 := by
    cases hcount
    rfl
  have hone : n = 1 := remaining_iff.mp hn
  omega

end Xv6.Vm
