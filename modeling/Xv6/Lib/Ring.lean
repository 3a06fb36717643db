import Mathlib.Logic.Function.Basic

/-!
A queue in a ring of `cap` slots: `front` is the slot before the first item, `rear` the slot of the last one. One slot
always stays empty, so that an empty ring can be told from a full one.
-/

namespace Ring

variable {α : Type} {cap front rear : Nat}

def size (cap front rear : Nat) : Nat :=
  if front ≤ rear then rear - front else rear + cap - front

def items (cap front rear : Nat) (slots : Nat → α) : List α :=
  (List.range (size cap front rear)).map fun j => slots ((front + 1 + j) % cap)

theorem length_items (slots : Nat → α) : (items cap front rear slots).length = size cap front rear := by
  simp [items]

theorem items_self (slots : Nat → α) : items cap front front slots = [] := by
  simp [items, size]

theorem mod_eq {k : Nat} (h : k < 2 * cap) : k % cap = if k < cap then k else k - cap := by
  split
  . next hlt => exact Nat.mod_eq_of_lt hlt
  . next hge =>
    rw [Nat.mod_eq_sub_mod (by omega), Nat.mod_eq_of_lt (by omega)]

theorem next_cases {k : Nat} (h : k < cap) : (k + 1 < cap ∧ (k + 1) % cap = k + 1) ∨ (k + 1 = cap ∧ (k + 1) % cap = 0) := by
  rw [mod_eq (by omega)]
  split <;> omega

theorem size_lt (hfront : front < cap) (hrear : rear < cap) : size cap front rear < cap := by
  unfold size
  split <;> omega

theorem items_advance (hfront : front < cap) (hrear : rear < cap) (h : front ≠ rear) (slots : Nat → α)
    : items cap front rear slots = slots ((front + 1) % cap) :: items cap ((front + 1) % cap) rear slots := by
  have hnext := next_cases hfront
  generalize hk : (front + 1) % cap = next at hnext ⊢
  have hsize : size cap front rear = size cap next rear + 1 := by
    unfold size
    split <;> split <;> omega
  have hlt := size_lt hfront hrear
  unfold items
  rw [hsize, List.range_succ_eq_map, List.map_cons, List.map_map, Nat.add_zero, hk]
  congr 1
  apply List.map_congr_left
  intro j hj
  rw [List.mem_range] at hj
  dsimp only [Function.comp_apply]
  congr 1
  rw [mod_eq (by omega), mod_eq (by omega)]
  split <;> split <;> omega

theorem items_put (hfront : front < cap) (hrear : rear < cap) (h : front ≠ (rear + 1) % cap) (slots : Nat → α) (a : α)
    : items cap front ((rear + 1) % cap) (Function.update slots ((rear + 1) % cap) a)
        =
      items cap front rear slots ++ [a] := by
  have hnext := next_cases hrear
  generalize (rear + 1) % cap = next at hnext h ⊢
  have hsize : size cap front next = size cap front rear + 1 := by
    unfold size
    split <;> split <;> omega
  have hlt := size_lt hfront hrear
  have hlast : (front + 1 + size cap front rear) % cap = next := by
    rw [mod_eq (by omega)]
    unfold size
    split <;> split <;> omega
  unfold items
  rw [hsize, List.range_succ, List.map_append, List.map_singleton, hlast, Function.update_self]
  congr 1
  apply List.map_congr_left
  intro j hj
  rw [List.mem_range] at hj
  rw [Function.update_of_ne]
  rw [mod_eq (by omega)]
  unfold size at hj
  split at hj <;> split <;> omega

end Ring
