import Mathlib.Data.List.Nodup
import Mathlib.Logic.Function.Basic

/-!
Singly linked lists. `next` is the pointer of every node, and `Leads next x l` says that the pointers lead from `x` over
the nodes `l` to the end.
-/

namespace Chain

variable {β : Type}

def Leads (next : β → Option β) : Option β → List β → Prop
  | x, [] => x = none
  | x, b :: l => x = some b ∧ Leads next (next b) l

-- The last node behind `b`. It is `none` if the pointers lead over more than the given number of nodes.
def last (next : β → Option β) : Nat → β → Option β
  | 0, _ => none
  | n + 1, b =>
    match next b with
    | none => some b
    | some b' => last next n b'

variable {next next' : β → Option β} {x : Option β} {b : β} {l l' : List β}

theorem leads_none : Leads next none l ↔ l = [] := by
  cases l with
  | nil => simp [Leads]
  | cons a l => simp [Leads]

theorem leads_some : Leads next (some b) l ↔ ∃ l', l = b :: l' ∧ Leads next (next b) l' := by
  cases l with
  | nil => simp [Leads]
  | cons a l =>
    simp only [Leads, Option.some.injEq, List.cons.injEq]
    constructor
    . rintro ⟨rfl, h⟩
      exact ⟨l, ⟨rfl, rfl⟩, h⟩
    . rintro ⟨l', ⟨rfl, rfl⟩, h⟩
      exact ⟨rfl, h⟩

theorem Leads.congr (h : Leads next x l) (heq : ∀ b ∈ l, next' b = next b) : Leads next' x l := by
  induction l generalizing x with
  | nil => exact h
  | cons a l ih =>
    obtain ⟨hx, h⟩ := h
    refine ⟨hx, ?_⟩
    rw [heq a List.mem_cons_self]
    apply ih h
    intro b hb
    apply heq b (List.mem_cons_of_mem a hb)

theorem Leads.unique (h : Leads next x l) (h' : Leads next x l') : l = l' := by
  induction l generalizing x l' with
  | nil =>
    cases h
    exact (leads_none.mp h').symm
  | cons a l ih =>
    obtain ⟨rfl, h⟩ := h
    obtain ⟨l'', rfl, h''⟩ := leads_some.mp h'
    rw [ih h h'']

theorem Leads.last (h : Leads next (some b) l) {n : Nat} (hn : l.length ≤ n)
    : last next n b = l.getLast? := by
  induction l generalizing b n with
  | nil => cases h
  | cons a l ih =>
    obtain ⟨heq, h⟩ := h
    cases heq
    obtain ⟨n, rfl⟩ : ∃ m, n = m + 1 := ⟨n - 1, by simp at hn; omega⟩
    rw [Chain.last]
    split
    . next hnone =>
      rw [hnone, leads_none] at h
      rw [h]
      rfl
    . next b' hsome =>
      rw [hsome] at h
      rw [ih h (by simpa using hn)]
      obtain ⟨l', rfl, _⟩ := leads_some.mp h
      rfl

theorem Leads.append [DecidableEq β] {e : β} (h : Leads next x l) (hnodup : l.Nodup) (he : l.getLast? = some e)
    (hb : b ∉ l) (hnext : next b = none)
    : Leads (Function.update next e (some b)) x (l ++ [b]) := by
  induction l generalizing x with
  | nil => simp at he
  | cons a l ih =>
    obtain ⟨hx, h⟩ := h
    obtain ⟨ha, hl⟩ := List.nodup_cons.mp hnodup
    refine ⟨hx, ?_⟩
    cases l with
    | nil =>
      simp only [List.getLast?_singleton, Option.some.injEq] at he
      subst he
      have hne : b ≠ a := fun heq => hb (by simp [heq])
      refine ⟨Function.update_self .., ?_⟩
      change Function.update next a (some b) b = none
      rw [Function.update_of_ne hne]
      exact hnext
    | cons a' l =>
      rw [List.getLast?_cons_cons] at he
      have hne : a ≠ e := by
        rintro rfl
        exact ha (List.mem_of_getLast? he)
      rw [Function.update_of_ne hne]
      apply ih h hl he
      intro hmem
      exact hb (List.mem_cons_of_mem a hmem)

end Chain
