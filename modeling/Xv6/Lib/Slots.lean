import Mathlib.Logic.Function.Basic
import Mathlib.Data.List.Basic

/-!
A map that is kept in a table of `m` slots, in no particular order. The slot `j` is free if `val j = 0`, and holds the
value of `key j` otherwise.
-/

namespace Xv6

variable {κ : Type} [DecidableEq κ]

/-- The table is the map `h`, with `0` for the keys that it does not have. -/
structure Slots (m : Nat) (key : Nat → κ) (val : Nat → Nat) (h : κ → Nat) : Prop where
  sound : ∀ j < m, val j ≠ 0 → h (key j) = val j
  complete : ∀ k, h k ≠ 0 → ∃ j < m, val j ≠ 0 ∧ key j = k
  unique : ∀ i < m, ∀ j < m, val i ≠ 0 → val j ≠ 0 → key i = key j → i = j

namespace Slots

variable {m j v : Nat} {key key' : Nat → κ} {val val' : Nat → Nat} {h : κ → Nat} {k : κ}

-- The slot of a key, in the order of the table.
def find (m : Nat) (key : Nat → κ) (val : Nat → Nat) (k : κ) : Option Nat :=
  (List.range m).find? fun j => val j ≠ 0 ∧ key j = k

theorem find_eq_some (hfind : find m key val k = some j) : j < m ∧ val j ≠ 0 ∧ key j = k := by
  have hp := List.find?_some hfind
  have hmem := List.mem_range.mp (List.mem_of_find?_eq_some hfind)
  simp only [ne_eq, decide_eq_true_eq] at hp
  exact ⟨hmem, hp⟩

theorem find_eq_none (hfind : find m key val k = none) (hj : j < m) (hv : val j ≠ 0) : key j ≠ k := by
  have := List.find?_eq_none.mp hfind j (List.mem_range.mpr hj)
  simp only [ne_eq, decide_eq_true_eq, not_and] at this
  exact this hv

theorem get_of_find (hs : Slots m key val h) (hfind : find m key val k = some j) : h k = val j := by
  obtain ⟨hj, hv, rfl⟩ := find_eq_some hfind
  exact hs.sound j hj hv

theorem get_of_not_find (hs : Slots m key val h) (hfind : find m key val k = none) : h k = 0 := by
  by_contra hk
  obtain ⟨j, hj, hv, rfl⟩ := hs.complete k hk
  exact find_eq_none hfind hj hv rfl

-- The map of a table without duplicates.
def get (m : Nat) (key : Nat → κ) (val : Nat → Nat) (k : κ) : Nat :=
  match find m key val k with
  | some j => val j
  | none => 0

theorem of_unique (hu : ∀ i < m, ∀ j < m, val i ≠ 0 → val j ≠ 0 → key i = key j → i = j)
    : Slots m key val (get m key val) where
  sound j hj hv := by
    unfold get
    split
    . next i hfind =>
      obtain ⟨hi, hvi, hk⟩ := find_eq_some hfind
      rw [hu i hi j hj hvi hv hk]
    . next hfind => exact absurd rfl (find_eq_none hfind hj hv)
  complete k hk := by
    unfold get at hk
    split at hk
    . next j hfind => exact ⟨j, find_eq_some hfind⟩
    . exact absurd rfl hk
  unique := hu

-- A key that the map does not have goes to a free slot, or behind the last one.
theorem put (hs : Slots m key val h) (hj : j ≤ m) (hfree : j < m → val j = 0) (hk : h k = 0) (hv : v ≠ 0)
    (hkey : ∀ i < max m (j + 1), key' i = if i = j then k else key i)
    (hval : ∀ i < max m (j + 1), val' i = if i = j then v else val i)
    : Slots (max m (j + 1)) key' val' (Function.update h k v) := by
  have hne : ∀ i, i < max m (j + 1) → i ≠ j → i < m := by
    intro i hi hij
    omega
  have hkeys : ∀ i < m, val i ≠ 0 → key i ≠ k := by
    rintro i hi hvi rfl
    rw [hs.sound i hi hvi] at hk
    exact hvi hk
  constructor
  . intro i hi hvi
    rw [hkey i hi]
    rw [hval i hi] at hvi ⊢
    split
    . exact Function.update_self _ _ _
    . next hij =>
      rw [if_neg hij] at hvi
      rw [Function.update_of_ne (hkeys i (hne i hi hij) hvi)]
      exact hs.sound i (hne i hi hij) hvi
  . intro k' hk'
    by_cases hkk : k' = k
    . refine ⟨j, by omega, ?_, ?_⟩
      . rwa [hval j (by omega), if_pos rfl]
      . rw [hkey j (by omega), if_pos rfl, hkk]
    . rw [Function.update_of_ne hkk] at hk'
      obtain ⟨i, hi, hvi, rfl⟩ := hs.complete k' hk'
      have hij : i ≠ j := by
        rintro rfl
        exact hvi (hfree hi)
      refine ⟨i, by omega, ?_, ?_⟩
      . rwa [hval i (by omega), if_neg hij]
      . rw [hkey i (by omega), if_neg hij]
  . intro i hi i' hi' hvi hvi' hkk
    rw [hval i hi] at hvi
    rw [hval i' hi'] at hvi'
    rw [hkey i hi, hkey i' hi'] at hkk
    by_cases hij : i = j
    . by_cases hij' : i' = j
      . rw [hij, hij']
      . rw [if_pos hij, if_neg hij'] at hkk
        rw [if_neg hij'] at hvi'
        exact absurd hkk.symm (hkeys i' (hne i' hi' hij') hvi')
    . rw [if_neg hij] at hvi hkk
      by_cases hij' : i' = j
      . rw [if_pos hij'] at hkk
        exact absurd hkk (hkeys i (hne i hi hij) hvi)
      . rw [if_neg hij'] at hvi' hkk
        exact hs.unique i (hne i hi hij) i' (hne i' hi' hij') hvi hvi' hkk

theorem clear (hs : Slots m key val h) (hj : j < m) (hv : val j ≠ 0)
    (hkey : ∀ i < m, i ≠ j → key' i = key i) (hval : ∀ i < m, val' i = if i = j then 0 else val i)
    : Slots m key' val' (Function.update h (key j) 0) := by
  have hlive : ∀ i < m, val' i ≠ 0 → i ≠ j ∧ val i ≠ 0 ∧ key' i = key i := by
    intro i hi hvi
    rw [hval i hi] at hvi
    split at hvi
    . exact absurd rfl hvi
    . next hij => exact ⟨hij, hvi, hkey i hi hij⟩
  constructor
  . intro i hi hvi
    obtain ⟨hij, hvi', hki⟩ := hlive i hi hvi
    have hne : key i ≠ key j := fun heq => hij (hs.unique i hi j hj hvi' hv heq)
    rw [hki, Function.update_of_ne hne, hval i hi, if_neg hij]
    exact hs.sound i hi hvi'
  . intro k hk
    by_cases hkj : k = key j
    . rw [hkj, Function.update_self] at hk
      exact absurd rfl hk
    . rw [Function.update_of_ne hkj] at hk
      obtain ⟨i, hi, hvi, rfl⟩ := hs.complete k hk
      have hij : i ≠ j := by
        rintro rfl
        exact hkj rfl
      refine ⟨i, hi, ?_, hkey i hi hij⟩
      rwa [hval i hi, if_neg hij]
  . intro i hi i' hi' hvi hvi' hkk
    obtain ⟨hij, hvi, hki⟩ := hlive i hi hvi
    obtain ⟨hij', hvi', hki'⟩ := hlive i' hi' hvi'
    rw [hki, hki'] at hkk
    exact hs.unique i hi i' hi' hvi hvi' hkk

end Slots

end Xv6
