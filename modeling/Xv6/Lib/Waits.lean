import Mathlib.Data.Fintype.Defs
import Mathlib.Data.Fintype.EquivFin
import Mathlib.Logic.Relation
import Mathlib.Order.WellFounded

/-!
Who waits for whom: if everybody who waits and is waited for waits for something of a higher rank, there is no circle.
-/

namespace Waits

variable {α β : Type} [Preorder β] {r : α → α → Prop}

theorem exists_free [Finite α] (rank : α → β) (hrank : ∀ a b, r a b → (∃ c, r b c) → rank a < rank b) (a : α)
    : ∃ b, Relation.ReflTransGen r a b ∧ ∀ c, ¬ r b c := by
  have hwf : WellFounded fun a b : α => rank b < rank a := by
    have : IsTrans α fun a b : α => rank b < rank a := ⟨fun _ _ _ h h' => lt_trans h' h⟩
    have : Std.Irrefl fun a b : α => rank b < rank a := ⟨fun _ h => lt_irrefl _ h⟩
    exact Finite.wellFounded_of_trans_of_irrefl _
  induction a using hwf.induction with
  | _ a ih =>
    by_cases ha : ∃ b, r a b
    . obtain ⟨b, hab⟩ := ha
      by_cases hb : ∃ c, r b c
      . obtain ⟨c, hbc, hc⟩ := ih b (hrank a b hab hb)
        exact ⟨c, .head hab hbc, hc⟩
      . exact ⟨b, .single hab, fun c hbc => hb ⟨c, hbc⟩⟩
    . exact ⟨a, .refl, fun b hab => ha ⟨b, hab⟩⟩

end Waits
