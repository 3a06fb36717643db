import Mathlib.Logic.Function.Iterate

/-!
Loops that follow `next` around a circular list.
-/

namespace Circuit

variable {α : Type} {next : α → α} {a b e : α} {l : List α}

-- From `a` over the nodes `l` to `e`.
def Path (next : α → α) (e : α) : α → List α → Prop
  | a, [] => next a = e
  | a, b :: l => next a = b ∧ Path next e b l

theorem Path.exists_iterate (h : Path next e a l) (hb : b ∈ a :: l) : ∃ n, next^[n] b = e := by
  induction l generalizing a b with
  | nil =>
    rw [List.mem_singleton.mp hb]
    exact ⟨1, h⟩
  | cons c l ih =>
    rcases List.mem_cons.mp hb with rfl | hb
    . obtain ⟨n, hn⟩ := ih h.2 List.mem_cons_self
      refine ⟨n + 1, ?_⟩
      rw [Function.iterate_succ_apply, h.1]
      exact hn
    . exact ih h.2 hb

theorem Path.exists_iterate_of_mem (h : Path next e a l) (hb : b ∈ a :: l) : ∃ n, next^[n] a = b := by
  induction l generalizing a with
  | nil =>
    rw [List.mem_singleton.mp hb]
    exact ⟨0, rfl⟩
  | cons c l ih =>
    rcases List.mem_cons.mp hb with rfl | hb
    . exact ⟨0, rfl⟩
    . obtain ⟨n, hn⟩ := ih h.2 hb
      refine ⟨n + 1, ?_⟩
      rw [Function.iterate_succ_apply, h.1]
      exact hn

theorem Path.reaches (h : Path next a a l) {b c : α} (hb : b ∈ a :: l) (hc : c ∈ a :: l) : ∃ n, next^[n] b = c := by
  obtain ⟨m, hm⟩ := h.exists_iterate hb
  obtain ⟨n, hn⟩ := h.exists_iterate_of_mem hc
  refine ⟨n + m, ?_⟩
  rw [Function.iterate_add_apply, hm, hn]

theorem Path.next_mem (h : Path next e a l) (hb : b ∈ a :: l) : next b = e ∨ next b ∈ l := by
  induction l generalizing a with
  | nil =>
    rw [List.mem_singleton.mp hb]
    exact .inl h
  | cons c l ih =>
    rcases List.mem_cons.mp hb with rfl | hb
    . right
      rw [h.1]
      exact List.mem_cons_self
    . rcases ih h.2 hb with heq | hmem
      . exact .inl heq
      . exact .inr (List.mem_cons_of_mem c hmem)

-- The loop that stops at the first node with `stop`, or after the given number of rounds.
def find (next : α → α) (stop : α → Bool) : Nat → α → Option α
  | 0, _ => none
  | n + 1, a => if stop a then some a else find next stop n (next a)

theorem find_eq_some {stop : α → Bool} {n : Nat} (h : find next stop n a = some b) : stop b := by
  induction n generalizing a with
  | zero => cases h
  | succ n ih =>
    rw [find] at h
    split at h
    . next hstop =>
      cases h
      exact hstop
    . exact ih h

theorem find_mem {stop : α → Bool} {n : Nat} (hnext : ∀ a ∈ l, next a ∈ l) (ha : a ∈ l) (h : find next stop n a = some b)
    : b ∈ l := by
  induction n generalizing a with
  | zero => cases h
  | succ n ih =>
    rw [find] at h
    split at h
    . cases h
      exact ha
    . exact ih (hnext a ha) h

theorem find_isSome {stop : α → Bool} {n k : Nat} (h : stop (next^[n] a)) (hk : n < k) : (find next stop k a).isSome := by
  induction k generalizing a n with
  | zero => omega
  | succ k ih =>
    rw [find]
    split
    . rfl
    . next hstop =>
      cases n with
      | zero => exact absurd h hstop
      | succ n => exact ih h (by omega)

end Circuit
