import Mathlib

/-!
# Runs of a labelled transition system

A transition system is given by a partial step function `step : σ → α → Option σ`:
the labels `α` resolve every choice (which thread moves, what the environment
answers), and `none` means that the label is not enabled. `exec` performs a list
of labels.

Two rules carry the inductions over runs:

* `exec_invariant` — what every step preserves holds at the end of every run;
* `throughout_iff_stepsMeet` — when a property is kept by exactly those steps that
  meet a condition, it holds in every state of a run iff every step of the run
  meets the condition.
-/

namespace Transition

variable {σ α : Type*} {step : σ → α → Option σ}

/-- Perform the labels `as` in order, starting from `s`. -/
def exec (step : σ → α → Option σ) (s : σ) (as : List α) : Option σ :=
  as.foldlM step s

@[simp] theorem exec_nil (s : σ) : exec step s [] = some s := rfl

@[simp] theorem exec_cons (s : σ) (a : α) (as : List α) :
    exec step s (a :: as) = (step s a).bind fun s' => exec step s' as := rfl

/-- A run can be taken in two parts. -/
theorem exec_append (s : σ) (as bs : List α) :
    exec step s (as ++ bs) = (exec step s as).bind fun s' => exec step s' bs := by
  simp only [exec, List.foldlM_append]; rfl

/-- A run ending in `a` is a run up to `a` followed by one step. -/
theorem exec_concat (s : σ) (as : List α) (a : α) :
    exec step s (as ++ [a]) = (exec step s as).bind fun s' => step s' a := by
  rw [exec_append]
  cases exec step s as with
  | none => rfl
  | some s' => cases h : step s' a <;> simp [h]

/-- What every step preserves holds at the end of every run. -/
theorem exec_invariant {Inv : σ → Prop}
    (hstep : ∀ s a s', Inv s → step s a = some s' → Inv s')
    {s s' : σ} {as : List α} (h0 : Inv s) (h : exec step s as = some s') : Inv s' := by
  -- on the labels, from any state that meets the invariant
  induction as generalizing s with
  | nil => simp only [exec_nil, Option.some.injEq] at h; exact h ▸ h0
  | cons a as ih =>
    simp only [exec_cons, Option.bind_eq_some_iff] at h
    obtain ⟨s₁, h₁, h₂⟩ := h
    exact ih (hstep s a s₁ h0 h₁) h₂

/-! ### Conditions on the steps of a run -/

/-- Every step of the run from `s` along `as` meets the condition `C`, a condition on
    the state before the step and its label. -/
def StepsMeet (step : σ → α → Option σ) (C : σ → α → Prop) : σ → List α → Prop
  | _, [] => True
  | s, a :: as => C s a ∧ ∀ s', step s a = some s' → StepsMeet step C s' as

/-- The steps of a run meet a condition if the first does and the rest do. -/
theorem stepsMeet_cons_of_eq_some {C : σ → α → Prop} {s s₁ : σ} {a : α} {as : List α}
    (h₁ : step s a = some s₁) :
    StepsMeet step C s (a :: as) ↔ C s a ∧ StepsMeet step C s₁ as := by
  simp [StepsMeet, h₁]

/-- Where there is no first step only its label has to meet the condition. -/
theorem stepsMeet_cons_of_eq_none {C : σ → α → Prop} {s : σ} {a : α} {as : List α}
    (h₁ : step s a = none) : StepsMeet step C s (a :: as) ↔ C s a := by
  simp [StepsMeet, h₁]

/-- Whether a run meets a decidable condition is found by performing it. -/
instance decidableStepsMeet {C : σ → α → Prop} [∀ s, DecidablePred (C s)] :
    ∀ (s : σ) (as : List α), Decidable (StepsMeet step C s as)
  | _, [] => isTrue trivial
  | s, a :: as =>
    match h₁ : step s a with
    | some s₁ =>
      have := decidableStepsMeet (C := C) s₁ as
      decidable_of_iff _ (stepsMeet_cons_of_eq_some h₁).symm
    | none => decidable_of_iff _ (stepsMeet_cons_of_eq_none h₁).symm

/-- `P` holds in every state that the run from `s` along `as` passes through, the first
    and the last included. -/
def Throughout (step : σ → α → Option σ) (P : σ → Prop) (s : σ) (as : List α) : Prop :=
  ∀ pre s', pre <+: as → exec step s pre = some s' → P s'

/-- What holds throughout a run holds at its start. -/
theorem Throughout.head {P : σ → Prop} {s : σ} {as : List α}
    (h : Throughout step P s as) : P s :=
  h [] s (List.nil_prefix) rfl

/-- What holds throughout a run holds throughout the rest of it. -/
theorem Throughout.tail {P : σ → Prop} {s s₁ : σ} {a : α} {as : List α}
    (h : Throughout step P s (a :: as)) (h₁ : step s a = some s₁) :
    Throughout step P s₁ as := by
  intro pre s' hpre hexec
  apply h (a :: pre) s' (List.prefix_cons_inj a |>.mpr hpre)
  simp only [exec_cons, h₁, Option.bind_some, hexec]

/-- A condition weaker than one all steps of a run meet is met by all steps too. -/
theorem StepsMeet.mono {C D : σ → α → Prop} (hCD : ∀ s a, C s a → D s a)
    {s : σ} {as : List α} (h : StepsMeet step C s as) : StepsMeet step D s as := by
  induction as generalizing s with
  | nil => trivial
  | cons a as ih => exact ⟨hCD s a h.1, fun s' h' => ih (h.2 s' h')⟩

/-- The steps of a prefix of a run meet what all its steps meet. -/
theorem StepsMeet.of_prefix {C : σ → α → Prop} {s : σ} {pre as : List α}
    (hpre : pre <+: as) (h : StepsMeet step C s as) : StepsMeet step C s pre := by
  induction pre generalizing s as with
  | nil => trivial
  | cons a pre ih =>
    obtain ⟨rest, rfl⟩ := hpre
    exact ⟨h.1, fun s' h' => ih (List.prefix_append pre rest) (h.2 s' h')⟩

/-- An invariant kept by the steps that meet `C` holds at the end of every run all of
    whose steps meet `C`. -/
theorem exec_invariant_of_stepsMeet {Inv : σ → Prop} {C : σ → α → Prop}
    (hstep : ∀ s a s', Inv s → C s a → step s a = some s' → Inv s')
    {s s' : σ} {as : List α} (h0 : Inv s) (hC : StepsMeet step C s as)
    (h : exec step s as = some s') : Inv s' := by
  induction as generalizing s with
  | nil => simp only [exec_nil, Option.some.injEq] at h; exact h ▸ h0
  | cons a as ih =>
    simp only [exec_cons, Option.bind_eq_some_iff] at h
    obtain ⟨s₁, h₁, h₂⟩ := h
    exact ih (hstep s a s₁ h0 hC.1 h₁) (hC.2 s₁ h₁) h₂

/-- An invariant kept by the steps that meet `C` holds in every state of a run all of
    whose steps meet `C`. -/
theorem throughout_of_stepsMeet {Inv : σ → Prop} {C : σ → α → Prop}
    (hstep : ∀ s a s', Inv s → C s a → step s a = some s' → Inv s')
    {s : σ} {as : List α} (h0 : Inv s) (hC : StepsMeet step C s as) :
    Throughout step Inv s as :=
  fun _ _ hpre h => exec_invariant_of_stepsMeet hstep h0 (hC.of_prefix hpre) h

/-- If steps that meet `C` keep the invariant, the invariant gives `P`, and a step that
    leads from the invariant to a `P`-state has met `C`, then `P` holds throughout a run
    exactly when every step of the run meets `C`. -/
theorem throughout_iff_stepsMeet {Inv P : σ → Prop} {C : σ → α → Prop}
    (hP : ∀ s, Inv s → P s)
    (hstep : ∀ s a s', Inv s → C s a → step s a = some s' → Inv s')
    (hC : ∀ s a s', Inv s → step s a = some s' → P s' → C s a)
    {s s' : σ} {as : List α} (h0 : Inv s) (h : exec step s as = some s') :
    Throughout step P s as ↔ StepsMeet step C s as := by
  constructor
  · intro hthr
    induction as generalizing s with
    | nil => trivial
    | cons a as ih =>
      simp only [exec_cons, Option.bind_eq_some_iff] at h
      obtain ⟨s₁, h₁, h₂⟩ := h
      -- the state after the first step meets `P`, so the step has met `C`
      have hCa : C s a := hC s a s₁ h0 h₁ (hthr.tail h₁).head
      refine ⟨hCa, fun s₂ hs₂ => ?_⟩
      obtain rfl : s₁ = s₂ := by rw [h₁] at hs₂; exact Option.some.inj hs₂
      exact ih (hstep s a s₁ h0 hCa h₁) h₂ (hthr.tail h₁)
  · intro hmeet pre s₁ hpre h₁
    exact hP s₁ (throughout_of_stepsMeet hstep h0 hmeet pre s₁ hpre h₁)

/-! ### Sums over the steps of a run -/

/-- The sum of `f`, of the state before a step and its label, over the steps of a run. -/
def total (step : σ → α → Option σ) (f : σ → α → Nat) : σ → List α → Nat
  | _, [] => 0
  | s, a :: as => f s a + ((step s a).map fun s' => total step f s' as).getD 0

@[simp] theorem total_nil (f : σ → α → Nat) (s : σ) : total step f s [] = 0 := rfl

/-- A run ending in `a` adds what `f` is there. -/
theorem total_concat (f : σ → α → Nat) {s s' : σ} {as : List α}
    (h : exec step s as = some s') (a : α) :
    total step f s (as ++ [a]) = total step f s as + f s' a := by
  induction as generalizing s with
  | nil =>
    obtain rfl : s = s' := by simpa using h
    cases hstep : step s a with
    | none => simp [total, hstep]
    | some s₁ => simp [total, hstep]
  | cons b as ih =>
    simp only [exec_cons, Option.bind_eq_some_iff] at h
    obtain ⟨s₁, h₁, h₂⟩ := h
    -- the first step counts the same in both
    simp only [List.cons_append, total, h₁, Option.map_some, Option.getD_some, ih h₂]
    omega

/-- What holds of the empty run and is kept when a step is added holds of every part of a
    run that starts where the run does. -/
theorem prefix_induction {P : List α → σ → Prop} {s : σ} {as : List α} (h0 : P [] s)
    (hstep : ∀ pre t a t', pre ++ [a] <+: as → exec step s pre = some t → step t a = some t' →
      P pre t → P (pre ++ [a]) t') :
    ∀ pre t, pre <+: as → exec step s pre = some t → P pre t := by
  intro pre
  -- from the front to the back, since `P` is about what has been performed so far
  induction pre using List.reverseRecOn with
  | nil =>
    intro t _ hexec
    obtain rfl : s = t := by simpa using hexec
    exact h0
  | append_singleton pre a ih =>
    intro t' hpre hexec
    rw [exec_concat] at hexec
    obtain ⟨t, ht, ha⟩ := Option.bind_eq_some_iff.mp hexec
    exact hstep pre t a t' hpre ht ha (ih t ((List.prefix_append pre [a]).trans hpre) ht)

/-- Whether something holds before each step of a run is found by performing it. -/
theorem forall_step_iff {P : List α → α → σ → Prop} {s : σ} {as : List α} :
    (∀ i : Fin as.length, ∀ t ∈ exec step s (as.take i), P (as.take i) as[i] t) ↔
      ∀ pre a t, pre ++ [a] <+: as → exec step s pre = some t → P pre a t := by
  constructor
  · rintro h pre a t ⟨rest, rfl⟩ ht
    have hlen : pre.length < (pre ++ [a] ++ rest).length := by
      simp only [List.length_append, List.length_singleton]
      omega
    have hi := h ⟨pre.length, hlen⟩ t
    simp only [List.append_assoc, List.take_left, Fin.getElem_fin] at hi
    rw [List.getElem_append_right (Nat.le_refl _)] at hi
    simpa using hi ht
  · intro h i t ht
    refine h _ _ t ?_ ht
    rw [Fin.getElem_fin, List.take_append_getElem]
    exact List.take_prefix _ _

end Transition
