import Mathlib.Algebra.BigOperators.Group.Finset.Basic
import Mathlib.Algebra.Order.Group.Multiset
import Mathlib.Algebra.BigOperators.Ring.Finset
import Mathlib.Algebra.Order.BigOperators.Group.Finset

/-!
A pool of units with contents, each of them free or handed out. Who holds which units is written as a
multiset next to the pool, so `Pool.Xfer m F m' F'` reads: a piece of code that starts in `m` holding
`F` ends in `m'` holding `F'`, no unit is lost or made up, and the contents of all units that were neither
held nor free are untouched. Such statements compose (`trans`) and hold in every context (`frame`).

`cells f s` are the units that a partial map `f` refers to at the indices in `s`.
-/

structure Pool (α β : Type) where
  free : List α
  data : α → β

namespace Pool

variable {α β : Type}

def take (m : Pool α β) : Option (α × Pool α β) :=
  match m.free with
  | [] => none
  | a :: free => some (a, { m with free := free })

def give (m : Pool α β) (a : α) : Pool α β :=
  { m with free := a :: m.free }

def put [DecidableEq α] (m : Pool α β) (a : α) (b : β) : Pool α β :=
  { m with data := fun a' => if a' = a then b else m.data a' }

structure Xfer (m : Pool α β) (F : Multiset α) (m' : Pool α β) (F' : Multiset α) : Prop where
  total : F' + (m'.free : Multiset α) = F + (m.free : Multiset α)
  data : ∀ a, a ∉ F + (m.free : Multiset α) → m'.data a = m.data a

-- Nobody else holds the units in `F`, and all units in sight satisfy `P`.
structure Sound (P : α → Prop) (m : Pool α β) (F : Multiset α) : Prop where
  nodup : (F + (m.free : Multiset α)).Nodup
  valid : ∀ a ∈ F + (m.free : Multiset α), P a

theorem take_eq_some {m m' : Pool α β} {a : α} (h : m.take = some (a, m'))
    : m.free = a :: m'.free ∧ m'.data = m.data := by
  unfold take at h
  split at h
  . simp at h
  . next a' free heq =>
    simp only [Option.some.injEq, Prod.mk.injEq] at h
    obtain ⟨rfl, rfl⟩ := h
    exact ⟨heq, rfl⟩

theorem take_eq_none {m : Pool α β} : m.take = none ↔ m.free = [] := by
  unfold take
  split
  . next h => simp [h]
  . next h => simp [h]

namespace Xfer

variable {m m' m'' : Pool α β} {F F' F'' G : Multiset α}

theorem refl (m : Pool α β) (F : Multiset α) : Xfer m F m F :=
  ⟨rfl, fun _ _ => rfl⟩

theorem trans (h : Xfer m F m' F') (h' : Xfer m' F' m'' F'') : Xfer m F m'' F'' where
  total := h'.total.trans h.total
  data a ha := by
    rw [h'.data a (by rwa [h.total]), h.data a ha]

theorem frame (h : Xfer m F m' F') (G : Multiset α) : Xfer m (F + G) m' (F' + G) where
  total := by
    rw [add_right_comm, h.total, add_right_comm]
  data a ha := by
    apply h.data
    intro hmem
    apply ha
    rw [Multiset.mem_add] at hmem ⊢
    rcases hmem with hmem | hmem
    . exact .inl (Multiset.mem_add.mpr (.inl hmem))
    . exact .inr hmem

theorem frame_mem [DecidableEq α] {a : α} (h : Xfer m {a} m' {a}) (ha : a ∈ F) : Xfer m F m' F := by
  have := h.frame (F.erase a)
  rwa [Multiset.singleton_add, Multiset.cons_erase ha] at this

theorem take {a : α} (h : m.take = some (a, m')) : Xfer m 0 m' {a} where
  total := by
    rw [(take_eq_some h).1]
    simp
  data b _ := by
    rw [(take_eq_some h).2]

theorem give (m : Pool α β) (a : α) : Xfer m {a} (m.give a) 0 where
  total := by simp [Pool.give]
  data _ _ := rfl

theorem put [DecidableEq α] (m : Pool α β) (a : α) (b : β) : Xfer m {a} (m.put a b) {a} where
  total := rfl
  data c hc := by
    have : c ≠ a := by
      intro h
      simp [h] at hc
    simp [Pool.put, this]

theorem sound {P : α → Prop} (h : Xfer m F m' F') (hs : m.Sound P F) : m'.Sound P F' where
  nodup := by
    rw [h.total]
    exact hs.nodup
  valid := by
    rw [h.total]
    exact hs.valid

theorem card (h : Xfer m F m' F') : F'.card + m'.free.length = F.card + m.free.length := by
  simpa using congrArg Multiset.card h.total

end Xfer

namespace Sound

variable {P : α → Prop} {m : Pool α β} {F G : Multiset α} {a : α}

theorem mono (h : m.Sound P F) (hG : G ≤ F) : m.Sound P G where
  nodup := Multiset.nodup_of_le (add_le_add_left hG _) h.nodup
  valid a ha := h.valid a (Multiset.mem_of_le (add_le_add_left hG _) ha)

theorem notMem_free (h : m.Sound P F) (ha : a ∈ F) : a ∉ m.free := by
  intro hfree
  have := (Multiset.nodup_add.mp h.nodup).2.2
  exact Multiset.disjoint_left.mp this ha (Multiset.mem_coe.mpr hfree)

theorem notMem_of_add (h : m.Sound P (F + G)) (ha : a ∈ F) : a ∉ G + (m.free : Multiset α) := by
  have := h.nodup
  rw [add_assoc] at this
  exact Multiset.disjoint_left.mp (Multiset.nodup_add.mp this).2.2 ha

end Sound

theorem Xfer.data_eq {P : α → Prop} {m m' : Pool α β} {F F' G : Multiset α} (h : Xfer m F m' F')
    (hs : m.Sound P (G + F)) {a : α} (ha : a ∈ G)
    : m'.data a = m.data a :=
  h.data a (hs.notMem_of_add ha)

section

variable {ι : Type}

@[irreducible]
def cells (f : ι → Option α) (s : Finset ι) : Multiset α :=
  ∑ i ∈ s, ((f i).toList : Multiset α)

variable {f g : ι → Option α} {s : Finset ι} {i j : ι} {a : α}

theorem mem_cells : a ∈ cells f s ↔ ∃ i ∈ s, f i = some a := by
  unfold cells
  simp [Multiset.mem_sum]

theorem mem_cells_of (hi : i ∈ s) (h : f i = some a) : a ∈ cells f s :=
  mem_cells.mpr ⟨i, hi, h⟩

theorem cells_congr (h : ∀ i ∈ s, f i = g i) : cells f s = cells g s := by
  unfold cells
  apply Finset.sum_congr rfl
  intro i hi
  rw [h i hi]

@[simp]
theorem cells_empty : cells f ∅ = 0 := by
  unfold cells
  simp

theorem cells_mono (h : ∀ i ∈ s, ∀ a, f i = some a → g i = some a) : cells f s ≤ cells g s := by
  unfold cells
  apply Finset.sum_le_sum
  intro i hi
  cases hf : f i with
  | none => exact Multiset.zero_le _
  | some a => rw [h i hi a hf]

theorem card_cells : (cells f s).card = (s.filter fun i => (f i).isSome).card := by
  rw [cells, Multiset.card_sum, Finset.card_filter]
  apply Finset.sum_congr rfl
  intro i _
  cases f i <;> rfl

theorem count_cells [DecidableEq α] (a : α) : (cells f s).count a = (s.filter fun i => f i = some a).card := by
  rw [cells, Multiset.count_sum', Finset.card_filter]
  apply Finset.sum_congr rfl
  intro i _
  cases h : f i with
  | none => simp
  | some b =>
    by_cases hb : b = a
    . simp [hb]
    . simp [hb, Ne.symm hb]

variable [DecidableEq ι]

theorem cells_eq_add (hi : i ∈ s) : cells f s = ((f i).toList : Multiset α) + cells f (s.erase i) := by
  unfold cells
  exact (Finset.add_sum_erase s (fun i => ((f i).toList : Multiset α)) hi).symm

theorem cells_update (hi : i ∈ s) (x : Option α)
    : cells (Function.update f i x) s = (x.toList : Multiset α) + cells f (s.erase i) := by
  rw [cells_eq_add hi, Function.update_self]
  congr 1
  apply cells_congr
  intro j hj
  rw [Function.update_of_ne (Finset.ne_of_mem_erase hj)]

theorem cells_add (hi : i ∈ s) (hf : f i = none) (a : α)
    : cells (Function.update f i (some a)) s = cells f s + {a} := by
  rw [cells_update hi, cells_eq_add (f := f) hi, hf]
  simp [add_comm]

theorem cells_remove (hi : i ∈ s) (hf : f i = some a)
    : cells (Function.update f i none) s + {a} = cells f s := by
  rw [cells_update hi, cells_eq_add (f := f) hi, hf]
  simp [add_comm]

theorem eq_of_cells_nodup (h : (cells f s).Nodup) (hi : i ∈ s) (hj : j ∈ s) (hfi : f i = some a)
    (hfj : f j = some a)
    : i = j := by
  by_contra hne
  rw [cells_eq_add hi, hfi] at h
  have hmem : a ∈ cells f (s.erase i) := mem_cells.mpr ⟨j, Finset.mem_erase.mpr ⟨Ne.symm hne, hj⟩, hfj⟩
  simp [hmem] at h

end

end Pool
