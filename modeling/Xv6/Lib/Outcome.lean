/-!
Computations that return a value or stop with an error, two of them that go in lockstep, and loops that are cut off after
a number of rounds.
-/

namespace Outcome

variable {α β γ δ ε : Type}

theorem ok_bind (a : α) (f : α → Except ε β) : (Except.ok a >>= f) = f a := rfl

theorem bind_eq_ok {x : Except ε α} {f : α → Except ε β} {b : β} (h : x >>= f = .ok b)
    : ∃ a, x = .ok a ∧ f a = .ok b := by
  cases x with
  | error e => cases h
  | ok a => exact ⟨a, rfl, h⟩

theorem bind_eq_error {x : Except ε α} {f : α → Except ε β} {e : ε} (h : x >>= f = .error e)
    : x = .error e ∨ ∃ a, x = .ok a ∧ f a = .error e := by
  cases x with
  | error e' =>
    cases h
    exact .inl rfl
  | ok a => exact .inr ⟨a, rfl, h⟩

theorem bind_ne_error {x : Except ε α} {f : α → Except ε β} {e : ε} (hx : x ≠ .error e)
    (hf : ∀ a, x = .ok a → f a ≠ .error e)
    : x >>= f ≠ .error e := by
  intro h
  rcases bind_eq_error h with herror | ⟨a, hok, herror⟩
  . exact hx herror
  . exact hf a hok herror

-- The same error or related values.
inductive Agree (R : α → β → Prop) : Except ε α → Except ε β → Prop where
  | error (e : ε) : Agree R (.error e) (.error e)
  | ok {a : α} {b : β} (h : R a b) : Agree R (.ok a) (.ok b)

theorem Agree.bind {R : α → β → Prop} {S : γ → δ → Prop} {x : Except ε α} {y : Except ε β} {f : α → Except ε γ}
    {g : β → Except ε δ} (h : Agree R x y) (hfg : ∀ a b, R a b → Agree S (f a) (g b))
    : Agree S (x >>= f) (y >>= g) := by
  cases h with
  | error e => exact .error e
  | ok h => exact hfg _ _ h

theorem Agree.mono {R S : α → β → Prop} {x : Except ε α} {y : Except ε β} (h : Agree R x y)
    (hRS : ∀ a b, R a b → S a b)
    : Agree S x y := by
  cases h with
  | error e => exact .error e
  | ok h => exact .ok (hRS _ _ h)

-- Cut off after enough rounds the computation returns `a`, and it never returns anything else.
structure Settles (f : Nat → Option α) (a : α) : Prop where
  only : ∀ n b, f n = some b → b = a
  enough : ∃ n, ∀ k, n ≤ k → f k = some a

theorem Settles.map {f : Nat → Option α} {g : Nat → Option β} {a : α} {b : β} (h : Settles f a)
    (hsome : ∀ n, f n = some a → g n = some b) (hnone : ∀ n, f n = none → g n = none)
    : Settles g b := by
  constructor
  . intro n b' hb'
    cases hn : f n with
    | none =>
      rw [hnone n hn] at hb'
      cases hb'
    | some a' =>
      rw [h.only n a' hn] at hn
      rw [hsome n hn] at hb'
      cases hb'
      rfl
  . obtain ⟨n, hn⟩ := h.enough
    exact ⟨n, fun k hk => hsome k (hn k hk)⟩

end Outcome
