import Mathlib.Algebra.BigOperators.Group.Finset.Basic
import Mathlib.Algebra.Order.BigOperators.Group.Finset
import Mathlib.Data.Fintype.Card

/-!
Counting the members of a crowd by their states: `total w f` is the sum of the weights of all states, so a weight that
is 0 or 1 counts the members in some of them.
-/

namespace Crowd

variable {ι α : Type} [Fintype ι] [DecidableEq ι]

def total (w : α → Nat) (f : ι → α) : Nat :=
  ∑ i, w (f i)

variable {w w' : α → Nat} {f : ι → α}

theorem total_update (w : α → Nat) (f : ι → α) (i : ι) (a : α)
    : total w (Function.update f i a) + w (f i) = total w f + w a := by
  have hrest : ∑ j ∈ Finset.univ.erase i, w (Function.update f i a j) = ∑ j ∈ Finset.univ.erase i, w (f j) := by
    apply Finset.sum_congr rfl
    intro j hj
    rw [Function.update_of_ne (Finset.ne_of_mem_erase hj)]
  unfold total
  rw [← Finset.add_sum_erase _ _ (Finset.mem_univ i), ← Finset.add_sum_erase _ (fun j => w (f j)) (Finset.mem_univ i),
    hrest, Function.update_self]
  omega

omit [DecidableEq ι] in
theorem le_total (w : α → Nat) (f : ι → α) (i : ι) : w (f i) ≤ total w f :=
  Finset.single_le_sum (f := fun j => w (f j)) (fun _ _ => Nat.zero_le _) (Finset.mem_univ i)

omit [DecidableEq ι] in
theorem total_congr (h : ∀ i, w (f i) = w' (f i)) : total w f = total w' f :=
  Finset.sum_congr rfl (fun i _ => h i)

omit [DecidableEq ι] in
theorem total_eq_of_forall {c : Nat} (h : ∀ i, w (f i) = c) : total w f = Fintype.card ι * c := by
  simp [total, h]

omit [DecidableEq ι] in
theorem total_le_card (h : ∀ a, w a ≤ 1) (f : ι → α) : total w f ≤ Fintype.card ι := by
  have := Finset.sum_le_card_nsmul Finset.univ (fun i => w (f i)) 1 (fun i _ => h (f i))
  simpa [total] using this

-- If nobody can weigh more than 1 and all weigh that much together, everybody does.
theorem eq_one_of_total (h : ∀ a, w a ≤ 1) (htotal : Fintype.card ι ≤ total w f) (i : ι) : w (f i) = 1 := by
  by_contra hne
  have hi : w (f i) = 0 := by
    have := h (f i)
    omega
  have hrest : ∑ j ∈ Finset.univ.erase i, w (f j) ≤ (Finset.univ.erase i).card • 1 :=
    Finset.sum_le_card_nsmul _ _ 1 (fun j _ => h (f j))
  rw [Finset.card_erase_of_mem (Finset.mem_univ i), Finset.card_univ, Nat.nsmul_eq_mul, Nat.mul_one] at hrest
  have hpos : 0 < Fintype.card ι := Fintype.card_pos_iff.mpr ⟨i⟩
  unfold total at htotal
  rw [← Finset.add_sum_erase _ (fun j => w (f j)) (Finset.mem_univ i)] at htotal
  omega

end Crowd
