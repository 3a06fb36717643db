import Mathlib.Data.List.Count
import Mathlib.Tactic.SplitIfs

/-!
Blocks of addresses. How many blocks cover each address is all that has to be counted to see that blocks are disjoint
and which addresses they fill.
-/

namespace Tiling

structure Block where
  start : Nat
  length : Nat
  deriving DecidableEq, Repr

variable {x a m n : Nat} {b c : Block} {bs cs rs : List Block}

def covers (x : Nat) (b : Block) : Bool :=
  b.start ≤ x ∧ x < b.start + b.length

def cover (x : Nat) (bs : List Block) : Nat :=
  bs.countP (covers x)

def Apart (b c : Block) : Prop :=
  ∀ x, ¬ (covers x b ∧ covers x c)

-- The blocks `bs` are disjoint and fill what the blocks `rs` fill.
structure Tiles (bs rs : List Block) : Prop where
  apart : bs.Pairwise Apart
  fill : ∀ x, (∃ b ∈ bs, covers x b) ↔ ∃ r ∈ rs, covers x r

theorem covers_iff : covers x b ↔ b.start ≤ x ∧ x < b.start + b.length := by
  simp [covers]

@[simp]
theorem cover_nil : cover x [] = 0 := rfl

theorem cover_cons (b : Block) (bs : List Block) : cover x (b :: bs) = cover x [b] + cover x bs := by
  simp [cover, List.countP_cons, Nat.add_comm]

theorem cover_append (bs cs : List Block) : cover x (bs ++ cs) = cover x bs + cover x cs :=
  List.countP_append

theorem cover_singleton (b : Block) : cover x [b] = if covers x b then 1 else 0 := by
  simp [cover, List.countP_cons]

theorem cover_perm (h : bs.Perm cs) : cover x bs = cover x cs :=
  h.countP_eq _

theorem cover_pos : 0 < cover x bs ↔ ∃ b ∈ bs, covers x b :=
  List.countP_pos_iff

theorem cover_split (a m n : Nat) : cover x [⟨a, m + n⟩] = cover x [⟨a, m⟩] + cover x [⟨a + m, n⟩] := by
  simp only [cover_singleton, covers_iff]
  split_ifs <;> omega

theorem cover_zero (a : Nat) : cover x [⟨a, 0⟩] = 0 := by
  rw [cover_singleton, if_neg]
  rw [covers_iff]
  dsimp only
  omega

theorem pairwise_of_cover (h : ∀ x, cover x bs ≤ 1) : bs.Pairwise Apart := by
  induction bs with
  | nil => exact .nil
  | cons b bs ih =>
    have hcons : ∀ x, cover x [b] + cover x bs ≤ 1 := by
      intro x
      rw [← cover_cons]
      exact h x
    apply List.Pairwise.cons
    . rintro c hc x ⟨hb, hcx⟩
      have hpos := cover_pos.mpr ⟨c, hc, hcx⟩
      have := hcons x
      rw [cover_singleton, if_pos hb] at this
      omega
    . apply ih
      intro x
      have := hcons x
      omega

theorem tiles_of_cover (h : ∀ x, cover x bs = cover x rs) (hrs : ∀ x, cover x rs ≤ 1) : Tiles bs rs where
  apart := by
    apply pairwise_of_cover
    intro x
    rw [h]
    exact hrs x
  fill := by
    intro x
    rw [← cover_pos, ← cover_pos, h]

theorem cover_cons_le (h : ∀ x, cover x bs ≤ 1) (hb : ∀ c ∈ bs, Apart b c) (x : Nat) : cover x (b :: bs) ≤ 1 := by
  rw [cover_cons, cover_singleton]
  split
  . next hbx =>
    have : cover x bs = 0 := by
      apply Nat.eq_zero_of_not_pos
      rw [cover_pos]
      rintro ⟨c, hc, hcx⟩
      exact hb c hc x ⟨hbx, hcx⟩
    omega
  . rw [Nat.zero_add]
    exact h x

end Tiling
