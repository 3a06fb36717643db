import Xv6.Lib.Outcome

/-!
Computations that leave a trace of events behind and return a value or stop with an error. The events that come before
an error stay in the trace.
-/

structure Trace (ω ε α : Type) where
  emits : List ω
  val : Except ε α

namespace Trace

variable {ω ε α β : Type}

def stop (e : ε) : Trace ω ε α :=
  ⟨[], .error e⟩

def emit (ws : List ω) : Trace ω ε Unit :=
  ⟨ws, .ok ()⟩

def ofExcept (x : Except ε α) : Trace ω ε α :=
  ⟨[], x⟩

def bind (x : Trace ω ε α) (f : α → Trace ω ε β) : Trace ω ε β :=
  match x.val with
  | .ok a => ⟨x.emits ++ (f a).emits, (f a).val⟩
  | .error e => ⟨x.emits, .error e⟩

instance : Monad (Trace ω ε) where
  pure a := ⟨[], .ok a⟩
  bind := bind

@[simp]
theorem val_pure (a : α) : (pure a : Trace ω ε α).val = .ok a := rfl

@[simp]
theorem emits_pure (a : α) : (pure a : Trace ω ε α).emits = [] := rfl

@[simp]
theorem val_stop (e : ε) : (stop e : Trace ω ε α).val = .error e := rfl

@[simp]
theorem emits_stop (e : ε) : (stop e : Trace ω ε α).emits = [] := rfl

@[simp]
theorem val_emit (ws : List ω) : (emit ws : Trace ω ε Unit).val = .ok () := rfl

@[simp]
theorem emits_emit (ws : List ω) : (emit ws : Trace ω ε Unit).emits = ws := rfl

@[simp]
theorem val_ofExcept (x : Except ε α) : (ofExcept x : Trace ω ε α).val = x := rfl

@[simp]
theorem emits_ofExcept (x : Except ε α) : (ofExcept x : Trace ω ε α).emits = [] := rfl

theorem val_bind (x : Trace ω ε α) (f : α → Trace ω ε β)
    : (x >>= f).val = x.val >>= fun a => (f a).val := by
  change (bind x f).val = _
  unfold bind
  cases x.val <;> rfl

theorem val_bind_eq_ok {x : Trace ω ε α} {f : α → Trace ω ε β} {b : β} (h : (x >>= f).val = .ok b)
    : ∃ a, x.val = .ok a ∧ (f a).val = .ok b := by
  rw [val_bind] at h
  exact Outcome.bind_eq_ok h

theorem emits_bind {x : Trace ω ε α} {a : α} (h : x.val = .ok a) (f : α → Trace ω ε β)
    : (x >>= f).emits = x.emits ++ (f a).emits := by
  change (bind x f).emits = _
  simp only [bind, h]

theorem emits_bind_error {x : Trace ω ε α} {e : ε} (h : x.val = .error e) (f : α → Trace ω ε β)
    : (x >>= f).emits = x.emits := by
  change (bind x f).emits = _
  simp only [bind, h]

theorem pure_bind (a : α) (f : α → Trace ω ε β) : (pure a >>= f) = f a := rfl

theorem emits_bind_of_pure (x : Trace ω ε α) {f : α → Trace ω ε β} (hf : ∀ a, (f a).emits = [])
    : (x >>= f).emits = x.emits := by
  cases hval : x.val with
  | error e => exact emits_bind_error hval f
  | ok a => rw [emits_bind hval, hf, List.append_nil]

-- All events satisfy `P`.
def Emits (P : ω → Prop) (x : Trace ω ε α) : Prop :=
  ∀ w ∈ x.emits, P w

section

variable {P Q : ω → Prop}

theorem Emits.pure (a : α) : Emits P (Pure.pure a : Trace ω ε α) := by
  simp [Emits]

theorem Emits.stop (e : ε) : Emits P (stop e : Trace ω ε α) := by
  simp [Emits]

theorem Emits.emit {ws : List ω} (h : ∀ w ∈ ws, P w) : Emits P (emit ws : Trace ω ε Unit) := h

theorem Emits.mono {x : Trace ω ε α} (h : Emits P x) (hPQ : ∀ w, P w → Q w) : Emits Q x :=
  fun w hw => hPQ w (h w hw)

/-- The second computation may use what the first one returns. -/
theorem Emits.bind {x : Trace ω ε α} {f : α → Trace ω ε β} (hx : Emits P x)
    (hf : ∀ a, x.val = .ok a → Emits P (f a))
    : Emits P (x >>= f) := by
  intro w hw
  cases hval : x.val with
  | error e =>
    rw [emits_bind_error hval] at hw
    exact hx w hw
  | ok a =>
    rw [emits_bind hval, List.mem_append] at hw
    rcases hw with hw | hw
    . exact hx w hw
    . exact hf a hval w hw

/-- Behind the events of the first computation come those of the second one. -/
theorem Emits.bind_right {x : Trace ω ε α} {f : α → Trace ω ε β} (hf : ∀ a, Emits P (f a))
    : Emits (fun w => w ∈ x.emits ∨ P w) (x >>= f) :=
  Emits.bind (fun _ hw => .inl hw) fun a _ w hw => .inr (hf a w hw)

end

end Trace
