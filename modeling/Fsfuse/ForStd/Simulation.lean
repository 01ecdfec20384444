import Fsfuse.ForStd.Transition

/-!
# Forward simulation

One transition system simulates another if it can follow each of its steps, by as many steps of
its own as it takes, none included. Then it can follow whole runs; and what is known about the
steps of the run that is followed may carry over to the steps of the one that follows.
-/

namespace Transition

variable {σ τ α β : Type*} {step : σ → α → Option σ} {step' : τ → β → Option τ}

/-- The steps of a run in two parts. -/
theorem StepsMeet.append {C : σ → α → Prop} {s s' : σ} {as bs : List α}
    (has : StepsMeet step C s as) (hexec : exec step s as = some s')
    (hbs : StepsMeet step C s' bs) : StepsMeet step C s (as ++ bs) := by
  induction as generalizing s with
  | nil =>
    obtain rfl : s = s' := by simpa using hexec
    exact hbs
  | cons a as ih =>
    simp only [exec_cons, Option.bind_eq_some_iff] at hexec
    obtain ⟨s₁, h₁, h₂⟩ := hexec
    refine ⟨has.1, fun s₂ hs₂ => ?_⟩
    obtain rfl : s₁ = s₂ := by rw [h₁] at hs₂; exact Option.some.inj hs₂
    exact ih (has.2 s₁ h₁) h₂

/-- The steps of a run and one more. -/
theorem StepsMeet.of_concat {C : σ → α → Prop} {s s' : σ} {as : List α} {a : α}
    (hexec : exec step s as = some s') (h : StepsMeet step C s (as ++ [a])) : C s' a := by
  induction as generalizing s with
  | nil =>
    obtain rfl : s = s' := by simpa using hexec
    exact h.1
  | cons b as ih =>
    simp only [exec_cons, Option.bind_eq_some_iff] at hexec
    obtain ⟨s₁, h₁, h₂⟩ := hexec
    exact ih h₂ (h.2 s₁ h₁)

/-- Steps that can be followed, under a condition that carries over, make runs that can be
    followed. -/
theorem exec_simulated_of_stepsMeet {R : σ → τ → Prop} {C : σ → α → Prop} {D : τ → β → Prop}
    (hstep : ∀ s t a s', R s t → step s a = some s' →
      ∃ bs t', exec step' t bs = some t' ∧ R s' t' ∧ (C s a → StepsMeet step' D t bs))
    {s s' : σ} {t : τ} {as : List α} (hR : R s t) (hexec : exec step s as = some s') :
    ∃ bs t', exec step' t bs = some t' ∧ R s' t' ∧
      (StepsMeet step C s as → StepsMeet step' D t bs) := by
  induction as generalizing s t with
  | nil =>
    obtain rfl : s = s' := by simpa using hexec
    exact ⟨[], t, rfl, hR, fun _ => trivial⟩
  | cons a as ih =>
    simp only [exec_cons, Option.bind_eq_some_iff] at hexec
    obtain ⟨s₁, h₁, h₂⟩ := hexec
    obtain ⟨bs, t₁, hbs, hR₁, hmeet⟩ := hstep s t a s₁ hR h₁
    obtain ⟨bs', t', hbs', hR', hmeet'⟩ := ih hR₁ h₂
    refine ⟨bs ++ bs', t', ?_, hR', fun hC => (hmeet hC.1).append hbs (hmeet' (hC.2 s₁ h₁))⟩
    rw [exec_append, hbs]
    exact hbs'

/-- Steps that can be followed make runs that can be followed. -/
theorem exec_simulated {R : σ → τ → Prop}
    (hstep : ∀ s t a s', R s t → step s a = some s' →
      ∃ bs t', exec step' t bs = some t' ∧ R s' t')
    {s s' : σ} {t : τ} {as : List α} (hR : R s t) (hexec : exec step s as = some s') :
    ∃ bs t', exec step' t bs = some t' ∧ R s' t' := by
  -- nothing is asked of the steps
  have hmeet : ∀ s t a s', R s t → step s a = some s' → ∃ bs t', exec step' t bs = some t' ∧
      R s' t' ∧ (False → StepsMeet step' (fun _ _ => False) t bs) := by
    intro s t a s' hR ha
    obtain ⟨bs, t', hbs, hR'⟩ := hstep s t a s' hR ha
    exact ⟨bs, t', hbs, hR', False.elim⟩
  obtain ⟨bs, t', hbs, hR', -⟩ := exec_simulated_of_stepsMeet hmeet hR hexec
  exact ⟨bs, t', hbs, hR'⟩

/-- A system that goes into more detail takes several steps for each step of the other. If they can
    follow each other so, they get equally far. -/
theorem exec_flatMap_rel {R : σ → τ → Prop} {details : α → List β}
    (hstep : ∀ s t a, R s t → Option.Rel R (step s a) (exec step' t (details a))) {s : σ} {t : τ}
    (hR : R s t) (as : List α) :
    Option.Rel R (exec step s as) (exec step' t (as.flatMap details)) := by
  induction as generalizing s t with
  | nil => exact .some hR
  | cons a as ih =>
    rw [exec_cons, List.flatMap_cons, exec_append]
    have ha := hstep s t a hR
    generalize step s a = x at ha
    generalize exec step' t (details a) = y at ha
    cases ha with
    | some hR' => exact ih hR'
    | none => exact .none

/-- Two systems that can follow each other's steps label by label get equally far. -/
theorem exec_rel {step' : τ → α → Option τ} {R : σ → τ → Prop}
    (hstep : ∀ s t a, R s t → Option.Rel R (step s a) (step' t a)) {s : σ} {t : τ} (hR : R s t)
    (as : List α) : Option.Rel R (exec step s as) (exec step' t as) := by
  have hone : ∀ s t a, R s t → Option.Rel R (step s a) (exec step' t [a]) := by
    intro s t a hR
    simpa only [exec_cons, exec_nil, Option.bind_fun_some] using hstep s t a hR
  have has := exec_flatMap_rel hone hR as
  rwa [List.flatMap_singleton'] at has

end Transition
