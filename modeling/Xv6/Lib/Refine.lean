import Xv6.Lib.Machine

/-!
Refinement between machines whose steps return lists of observations. A step of the first machine may take any number
of steps of the second one, also none, as long as both show the same. `label` and `label'` are what the environment has
chosen in an event, and the second machine has to do with the same choices.
-/

namespace Machine

variable {σ τ ε ε' ω ψ : Type}

-- What can be seen of a run.
def trace (step : Machine σ ε (List ω)) (s : σ) (es : List ε) : List ω :=
  (outputs step s es).flatten

@[simp]
theorem trace_nil (step : Machine σ ε (List ω)) (s : σ) : trace step s [] = [] := rfl

theorem trace_cons {step : Machine σ ε (List ω)} {s s' : σ} {e : ε} {es : List ε} {o : List ω}
    (h : step s e = some (s', o))
    : trace step s (e :: es) = o ++ trace step s' es := by
  simp [trace, outputs, h]

theorem trace_append {step : Machine σ ε (List ω)} {s s' : σ} {es es' : List ε} (h : run step s es = some s')
    : trace step s (es ++ es') = trace step s es ++ trace step s' es' := by
  induction es generalizing s with
  | nil =>
    simp only [run_nil, Option.some.injEq] at h
    simp [h]
  | cons e es ih =>
    obtain ⟨s1, o, hstep, hrun⟩ := run_cons_eq_some h
    rw [List.cons_append, trace_cons hstep, trace_cons hstep, ih hrun, List.append_assoc]

-- The second machine can get from `t` to a state that belongs to `s`, shows `os` on the way, and the choices are `cs`.
def Follows (step : Machine τ ε' (List ω)) (label : ε' → List ψ) (R : σ → τ → Prop) (t : τ) (os : List ω) (cs : List ψ)
    (s : σ) : Prop :=
  ∃ es t', run step t es = some t' ∧ trace step t es = os ∧ es.flatMap label = cs ∧ R s t'

section

variable {step' : Machine τ ε' (List ω)} {label' : ε' → List ψ} {R : σ → τ → Prop} {s : σ} {t t' : τ} {os : List ω}
  {cs : List ψ}

theorem Follows.stay (h : R s t) : Follows step' label' R t [] [] s :=
  ⟨[], t, rfl, rfl, rfl, h⟩

theorem Follows.move {e : ε'} (h : step' t e = some (t', os)) (hR : R s t') : Follows step' label' R t os (label' e) s :=
  ⟨[e], t', by rw [run_cons h, run_nil], by rw [trace_cons h, trace_nil, List.append_nil], List.flatMap_singleton .., hR⟩

theorem Follows.cons {e : ε'} {o : List ω} (h : step' t e = some (t', o)) (hrest : Follows step' label' R t' os cs s)
    : Follows step' label' R t (o ++ os) (label' e ++ cs) s := by
  obtain ⟨es, t'', hrun, htrace, hlabel, hR⟩ := hrest
  refine ⟨e :: es, t'', by rw [run_cons h, hrun], by rw [trace_cons h, htrace], ?_, hR⟩
  rw [List.flatMap_cons, hlabel]

end

theorem refines_of_simulation {step : Machine σ ε (List ω)} {label : ε → List ψ} {step' : Machine τ ε' (List ω)}
    {label' : ε' → List ψ} {R : σ → τ → Prop}
    (hstep : ∀ s t e s' o, R s t → step s e = some (s', o) → Follows step' label' R t o (label e) s')
    {s s' : σ} {t : τ} (hst : R s t) {es : List ε} (hrun : run step s es = some s')
    : Follows step' label' R t (trace step s es) (es.flatMap label) s' := by
  induction es generalizing s t with
  | nil =>
    simp only [run_nil, Option.some.injEq] at hrun
    exact .stay (hrun ▸ hst)
  | cons e es ih =>
    obtain ⟨s1, o, he, hrest⟩ := run_cons_eq_some hrun
    obtain ⟨es1, t1, hrun1, htrace1, hlabel1, hR⟩ := hstep s t e s1 o hst he
    obtain ⟨es2, t2, hrun2, htrace2, hlabel2, hR'⟩ := ih hR hrest
    refine ⟨es1 ++ es2, t2, ?_, ?_, ?_, hR'⟩
    . rw [run_append hrun1, hrun2]
    . rw [trace_append hrun1, htrace1, htrace2, trace_cons he]
    . rw [List.flatMap_append, hlabel1, hlabel2, List.flatMap_cons]

end Machine
