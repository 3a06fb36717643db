import Mathlib.Data.Option.Basic

/-!
Deterministic machines driven by a list of events, the properties that hold along a run, and the two
ways this development builds new machines from old ones: `watch` adds a history that the machine
itself never reads, `both` drives two machines with the same events.
-/

abbrev Machine (σ ε ω : Type) := σ → ε → Option (σ × ω)

namespace Machine

variable {σ τ ε ω ψ μ : Type}

def run (step : Machine σ ε ω) (s : σ) : List ε → Option σ
  | [] => some s
  | e :: es =>
    match step s e with
    | some (s', _) => run step s' es
    | none => none

def Along (step : Machine σ ε ω) (P : σ → ε → ω → σ → Prop) (s : σ) : List ε → Prop
  | [] => True
  | e :: es =>
    match step s e with
    | some (s', o) => P s e o s' ∧ Along step P s' es
    | none => True

instance decidableAlong (step : Machine σ ε ω) (P : σ → ε → ω → σ → Prop)
    [∀ s e o s', Decidable (P s e o s')] (s : σ) : (es : List ε) → Decidable (Along step P s es)
  | [] => .isTrue trivial
  | e :: es =>
    match h : step s e with
    | some (s', o) =>
      have := decidableAlong step P s' es
      decidable_of_iff (P s e o s' ∧ Along step P s' es) (by simp [Along, h])
    | none => .isTrue (by simp [Along, h])

@[simp]
theorem run_nil (step : Machine σ ε ω) (s : σ) : run step s [] = some s := rfl

theorem run_cons {step : Machine σ ε ω} {s s' : σ} {e : ε} {es : List ε} {o : ω}
    (h : step s e = some (s', o))
    : run step s (e :: es) = run step s' es := by
  simp [run, h]

theorem run_cons_eq_some {step : Machine σ ε ω} {s t : σ} {e : ε} {es : List ε}
    (h : run step s (e :: es) = some t)
    : ∃ s' o, step s e = some (s', o) ∧ run step s' es = some t := by
  unfold run at h
  split at h
  . next s' o hstep => exact ⟨s', o, hstep, h⟩
  . simp at h

theorem run_append {step : Machine σ ε ω} {s s' : σ} {es es' : List ε}
    (h : run step s es = some s')
    : run step s (es ++ es') = run step s' es' := by
  induction es generalizing s with
  | nil =>
    simp only [run_nil, Option.some.injEq] at h
    simp [h]
  | cons e es ih =>
    obtain ⟨s1, o, hstep, hrun⟩ := run_cons_eq_some h
    rw [List.cons_append, run_cons hstep]
    apply ih hrun

theorem along_cons {step : Machine σ ε ω} {P : σ → ε → ω → σ → Prop} {s s' : σ} {e : ε}
    {es : List ε} {o : ω} (h : step s e = some (s', o))
    : Along step P s (e :: es) ↔ P s e o s' ∧ Along step P s' es := by
  simp [Along, h]

theorem along_of_append {step : Machine σ ε ω} {P : σ → ε → ω → σ → Prop} {s : σ} {es es' : List ε}
    (h : Along step P s (es ++ es'))
    : Along step P s es := by
  induction es generalizing s with
  | nil => trivial
  | cons e es ih =>
    unfold Along
    split
    . next s' o he =>
      rw [List.cons_append, along_cons he] at h
      exact ⟨h.1, ih h.2⟩
    . trivial

theorem along_append {step : Machine σ ε ω} {P : σ → ε → ω → σ → Prop} {s t : σ} {es es' : List ε}
    (h : Along step P s es) (hrun : run step s es = some t) (h' : Along step P t es')
    : Along step P s (es ++ es') := by
  induction es generalizing s with
  | nil =>
    cases hrun
    exact h'
  | cons e es ih =>
    obtain ⟨s', o, he, hrun'⟩ := run_cons_eq_some hrun
    rw [along_cons he] at h
    rw [List.cons_append, along_cons he]
    exact ⟨h.1, ih h.2 hrun'⟩

/-- The invariant rule, for runs whose steps all satisfy a side condition. -/
theorem run_invariant {step : Machine σ ε ω} {I : σ → Prop} {P : σ → ε → ω → σ → Prop}
    (hstep : ∀ s e o s', I s → step s e = some (s', o) → P s e o s' → I s')
    {s t : σ} {es : List ε} (hs : I s) (halong : Along step P s es)
    (hrun : run step s es = some t)
    : I t := by
  induction es generalizing s with
  | nil =>
    simp only [run_nil, Option.some.injEq] at hrun
    exact hrun ▸ hs
  | cons e es ih =>
    obtain ⟨s', o, he, hrest⟩ := run_cons_eq_some hrun
    rw [along_cons he] at halong
    exact ih (hstep s e o s' hs he halong.1) halong.2 hrest

theorem along_true {step : Machine σ ε ω} (s : σ) (es : List ε)
    : Along step (fun _ _ _ _ => True) s es := by
  induction es generalizing s with
  | nil => trivial
  | cons e es ih =>
    unfold Along
    split
    . exact ⟨trivial, ih _⟩
    . trivial

theorem along_of_forall {step : Machine σ ε ω} {P : ε → Prop} (s : σ) {es : List ε} (hes : ∀ e ∈ es, P e)
    : Along step (fun _ e _ _ => P e) s es := by
  induction es generalizing s with
  | nil => trivial
  | cons e es ih =>
    unfold Along
    split
    . exact ⟨hes e List.mem_cons_self, ih _ fun e' he' => hes e' (List.mem_cons_of_mem _ he')⟩
    . trivial

theorem run_invariant' {step : Machine σ ε ω} {I : σ → Prop}
    (hstep : ∀ s e o s', I s → step s e = some (s', o) → I s')
    {s t : σ} {es : List ε} (hs : I s) (hrun : run step s es = some t)
    : I t := by
  apply run_invariant (P := fun _ _ _ _ => True) _ hs (along_true s es) hrun
  intro s e o s' hI he _
  exact hstep s e o s' hI he

/--
What one step guarantees under an invariant holds along every run. The step's own guarantee may be
used to carry the invariant on.
-/
theorem along_of_invariant {step : Machine σ ε ω} {I : σ → Prop} {P Q : σ → ε → ω → σ → Prop}
    (hstep : ∀ s e o s', I s → step s e = some (s', o) → P s e o s' → Q s e o s' ∧ I s')
    {s : σ} {es : List ε} (hs : I s) (halong : Along step P s es)
    : Along step Q s es := by
  induction es generalizing s with
  | nil => trivial
  | cons e es ih =>
    cases he : step s e with
    | none => simp [Along, he]
    | some r =>
      obtain ⟨s', o⟩ := r
      rw [along_cons he] at halong ⊢
      have h := hstep s e o s' hs he halong.1
      exact ⟨h.1, ih h.2 halong.2⟩

-- The values that the events of a run return.
def outputs (step : Machine σ ε ω) (s : σ) : List ε → List ω
  | [] => []
  | e :: es =>
    match step s e with
    | some (s', o) => o :: outputs step s' es
    | none => []

-- `I` holds of the first state of the run and of every later one.
def Always (step : Machine σ ε ω) (I : σ → Prop) (s : σ) (es : List ε) : Prop :=
  I s ∧ Along step (fun _ _ _ s' => I s') s es

theorem always_run {step : Machine σ ε ω} {I : σ → Prop} {s t : σ} {es : List ε} (h : Always step I s es)
    (hrun : run step s es = some t)
    : I t := by
  induction es generalizing s with
  | nil =>
    simp only [run_nil, Option.some.injEq] at hrun
    exact hrun ▸ h.1
  | cons e es ih =>
    obtain ⟨s', o, he, hrest⟩ := run_cons_eq_some hrun
    have halong := h.2
    rw [along_cons he] at halong
    exact ih halong hrest

def watch (step : Machine σ ε ω) (obs : σ → ε → σ → μ → μ) : Machine (σ × μ) ε ω := fun x e =>
  match step x.1 e with
  | some (s', o) => some ((s', obs x.1 e s' x.2), o)
  | none => none

theorem watch_eq_some {step : Machine σ ε ω} {obs : σ → ε → σ → μ → μ} {x x' : σ × μ} {e : ε} {o : ω}
    (h : watch step obs x e = some (x', o))
    : step x.1 e = some (x'.1, o) ∧ x'.2 = obs x.1 e x'.1 x.2 := by
  unfold watch at h
  split at h
  . next s' o' hstep =>
    simp only [Option.some.injEq, Prod.mk.injEq] at h
    obtain ⟨rfl, rfl⟩ := h
    exact ⟨hstep, rfl⟩
  . simp at h

theorem watch_of_step {step : Machine σ ε ω} (obs : σ → ε → σ → μ → μ) {s s' : σ} (m : μ) {e : ε} {o : ω}
    (h : step s e = some (s', o))
    : watch step obs (s, m) e = some ((s', obs s e s' m), o) := by
  simp [watch, h]

def both (step : Machine σ ε ω) (step' : Machine τ ε ψ) : Machine (σ × τ) ε (ω × ψ) := fun x e =>
  match step x.1 e, step' x.2 e with
  | some (s, o), some (t, o') => some ((s, t), (o, o'))
  | _, _ => none

theorem both_eq_some {step : Machine σ ε ω} {step' : Machine τ ε ψ} {x x' : σ × τ} {e : ε}
    {o : ω × ψ} (h : both step step' x e = some (x', o))
    : step x.1 e = some (x'.1, o.1) ∧ step' x.2 e = some (x'.2, o.2) := by
  unfold both at h
  split at h
  . next s o' t o'' h1 h2 =>
    simp only [Option.some.injEq, Prod.mk.injEq] at h
    obtain ⟨rfl, rfl⟩ := h
    exact ⟨h1, h2⟩
  . simp at h

theorem run_isSome_of_lockstep {step : Machine σ ε ω} {step' : Machine τ ε ψ} {R : σ → τ → Prop}
    (hstep : ∀ s t e, R s t → (step s e = none ∧ step' t e = none) ∨
      ∃ s' o t' o', step s e = some (s', o) ∧ step' t e = some (t', o') ∧ R s' t')
    {s : σ} {t : τ} (hst : R s t) (es : List ε)
    : (run step s es).isSome = (run step' t es).isSome := by
  induction es generalizing s t with
  | nil => rfl
  | cons e es ih =>
    rcases hstep s t e hst with ⟨hs, ht⟩ | ⟨s', o, t', o', hs, ht, hst'⟩
    . simp [run, hs, ht]
    . rw [run_cons hs, run_cons ht]
      exact ih hst'

theorem always_of_invariant {step : Machine σ ε ω} {I J : σ → Prop}
    (hstep : ∀ s e o s', I s → step s e = some (s', o) → I s') (hJ : ∀ s, I s → J s)
    {s : σ} {es : List ε} (hs : I s)
    : Always step J s es := by
  refine ⟨hJ s hs, ?_⟩
  apply along_of_invariant (I := I) (P := fun _ _ _ _ => True) _ hs (along_true s es)
  intro s e o s' hI he _
  have := hstep s e o s' hI he
  exact ⟨hJ s' this, this⟩

-- If the step decides whether `I` survives, the run does so too.
theorem always_iff_along {step : Machine σ ε ω} {I J : σ → Prop} {P : σ → ε → ω → σ → Prop}
    (hJ : ∀ s e o s', J s → step s e = some (s', o) → J s')
    (hstep : ∀ s e o s', J s → I s → step s e = some (s', o) → (I s' ↔ P s e o s'))
    {s : σ} {es : List ε} (hs : J s) (hI : I s)
    : Always step I s es ↔ Along step P s es := by
  unfold Always
  rw [and_iff_right hI]
  induction es generalizing s with
  | nil => exact Iff.rfl
  | cons e es ih =>
    cases he : step s e with
    | none => simp [Along, he]
    | some r =>
      obtain ⟨s', o⟩ := r
      rw [along_cons he, along_cons he, hstep s e o s' hs hI he]
      apply and_congr_right
      intro hP
      apply ih (hJ s e o s' hs he)
      rwa [hstep s e o s' hs hI he]

-- If `I` cannot be won back, it holds at the end of the runs whose steps all keep it.
theorem run_iff_along {step : Machine σ ε ω} {I J : σ → Prop} {P : σ → ε → ω → σ → Prop}
    (hJ : ∀ s e o s', J s → step s e = some (s', o) → J s')
    (hstep : ∀ s e o s', J s → step s e = some (s', o) → (I s' ↔ I s ∧ P s e o s'))
    {s t : σ} {es : List ε} (hs : J s) (hrun : run step s es = some t)
    : I t ↔ I s ∧ Along step P s es := by
  induction es generalizing s with
  | nil =>
    simp only [run_nil, Option.some.injEq] at hrun
    simp [hrun, Along]
  | cons e es ih =>
    obtain ⟨s', o, he, hrest⟩ := run_cons_eq_some hrun
    rw [ih (hJ s e o s' hs he) hrest, hstep s e o s' hs he, along_cons he, and_assoc]

-- What every step takes from a measure bounds the length of the runs.
theorem length_add_le {step : Machine σ ε ω} {J : σ → Prop} {m : σ → Nat}
    (hJ : ∀ s e o s', J s → step s e = some (s', o) → J s')
    (hstep : ∀ s e o s', J s → step s e = some (s', o) → m s' < m s)
    {s t : σ} {es : List ε} (hs : J s) (hrun : run step s es = some t)
    : es.length + m t ≤ m s := by
  induction es generalizing s with
  | nil =>
    simp only [run_nil, Option.some.injEq] at hrun
    simp [hrun]
  | cons e es ih =>
    obtain ⟨s', o, he, hrest⟩ := run_cons_eq_some hrun
    have hlt := hstep s e o s' hs he
    have := ih (hJ s e o s' hs he) hrest
    rw [List.length_cons]
    omega

-- No event is left that could happen.
def Final (step : Machine σ ε ω) (s : σ) : Prop :=
  ∀ e, step s e = none

theorem exists_final {step : Machine σ ε ω} {J : σ → Prop} {m : σ → Nat}
    (hJ : ∀ s e o s', J s → step s e = some (s', o) → J s')
    (hstep : ∀ s e o s', J s → step s e = some (s', o) → m s' < m s) {s : σ} (hs : J s)
    : ∃ es t, run step s es = some t ∧ Final step t := by
  generalize hk : m s = k
  induction k using Nat.strongRecOn generalizing s with
  | ind k ih =>
    by_cases hfinal : Final step s
    . exact ⟨[], s, rfl, hfinal⟩
    . unfold Final at hfinal
      rw [not_forall] at hfinal
      obtain ⟨e, he⟩ := hfinal
      obtain ⟨⟨s', o⟩, he⟩ := Option.ne_none_iff_exists'.mp he
      have hlt := hstep s e o s' hs he
      obtain ⟨es, t, hrun, ht⟩ := ih (m s') (by omega) (hJ s e o s' hs he) rfl
      exact ⟨e :: es, t, by rw [run_cons he, hrun], ht⟩

-- Every event of the run is one that `P` lets through.
def Admits (step : Machine σ ε ω) (P : σ → ε → Prop) (s : σ) : List ε → Prop
  | [] => True
  | e :: es => P s e ∧ ∀ s' o, step s e = some (s', o) → Admits step P s' es

-- Two machines that stay related step by step return the same values.
theorem outputs_eq_of_simulation {ε' : Type} {step : Machine σ ε ω} {step' : Machine τ ε' ω} {f : ε → ε'}
    {R : σ → τ → Prop} {P : σ → ε → Prop}
    (hstep : ∀ s t e, R s t → P s e → ∃ s' t' o, step s e = some (s', o) ∧ step' t (f e) = some (t', o) ∧ R s' t')
    {s : σ} {t : τ} (hst : R s t) {es : List ε} (hes : Admits step P s es)
    : outputs step s es = outputs step' t (es.map f) ∧ (outputs step s es).length = es.length := by
  induction es generalizing s t with
  | nil => exact ⟨rfl, rfl⟩
  | cons e es ih =>
    obtain ⟨s', t', o, hs, ht, hst'⟩ := hstep s t e hst hes.1
    have := ih hst' (hes.2 s' o hs)
    simp [outputs, hs, ht, this.1, ← this.2]

end Machine
