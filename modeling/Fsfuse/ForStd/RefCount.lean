import Fsfuse.ForStd.Transition

/-!
# Reference counts

Objects of a transition system with a reference count each, and owners that hold some of the
copies it counts. Steps take copies and drop them; when a step takes copies that nobody comes to
own they are leaked, and when it drops copies that nobody has owned the count is overdrawn. An
object whose count reaches 0 is gone, and a step that needs it goes wrong; so does a step that
takes so many copies at a time that they cannot be counted.

* `RefCounted.balance` — while all objects are there, each count is what the owners hold, give or
  take what has been leaked and overdrawn;
* `RefCounted.goesThrough_iff` — a run goes through with all its objects exactly if each of its
  steps can be made, and never drops all that is left of a count by the books.
-/

namespace Transition

/-- Reference counts, and the books kept about them. The laws hold in the states that meet `Inv`,
    as long as no object is gone. -/
structure RefCounted {σ α : Type*} (δ : Type*) (step : σ → α → Option σ) where
  Inv : σ → Prop
  /-- whether the environment may make the step -/
  Enabled : σ → α → Prop
  /-- whether the step goes wrong for no other reason than a count -/
  Can : σ → α → Prop
  count : σ → δ → Nat
  owners : δ → σ → Nat
  taken : δ → σ → α → Nat
  dropped : δ → σ → α → Nat
  leaked : δ → σ → α → Nat
  overdrawn : δ → σ → α → Nat
  /-- the most copies that a step takes at a time, kept or not -/
  peak : δ → σ → α → Nat
  /-- what a count cannot reach -/
  limit : Nat
  step_iff : ∀ s a, Inv s → (∀ d, count s d ≠ 0) → Enabled s a →
    ((∃ s', step s a = some s' ∧ ∀ d, count s' d ≠ 0) ↔
      Can s a ∧ ∀ d, dropped d s a < count s d ∧ count s d + peak d s a < limit)
  step_spec : ∀ s a s', Inv s → (∀ d, count s d ≠ 0) → step s a = some s' →
    (∀ d, count s' d ≠ 0) →
      Inv s' ∧ ∀ d, count s' d + dropped d s a = count s d + taken d s a ∧
        owners d s' + dropped d s a + leaked d s a = owners d s + taken d s a + overdrawn d s a

namespace RefCounted

variable {σ α δ : Type*} {step : σ → α → Option σ} (C : RefCounted δ step)

/-- No object is gone. -/
def Alive (s : σ) : Prop := ∀ d, C.count s d ≠ 0

/-- The environment keeps to what it may do for as long as nothing goes wrong. -/
def Legal (s : σ) (as : List α) : Prop :=
  ∀ pre a t, pre ++ [a] <+: as → exec step s pre = some t → C.Enabled t a

/-- Each step can be made, leaves something of what there should be of each object, and can count
    what it takes in addition. -/
def Solvent (s : σ) (as : List α) : Prop :=
  ∀ pre a t, pre ++ [a] <+: as → exec step s pre = some t → C.Can t a ∧ ∀ d,
    C.owners d s + total step (C.overdrawn d) s pre + C.dropped d t a <
        C.count s d + C.owners d t + total step (C.leaked d) s pre ∧
      C.count s d + C.owners d t + total step (C.leaked d) s pre + C.peak d t a <
        C.owners d s + total step (C.overdrawn d) s pre + C.limit

/-- The books are right at a point of a run: the count is what there was at the start, changed by
    what has come to be owned, leaked and overdrawn since. -/
def Balanced (s : σ) (pre : List α) (t : σ) : Prop :=
  ∀ d, C.count t d + C.owners d s + total step (C.overdrawn d) s pre =
    C.count s d + C.owners d t + total step (C.leaked d) s pre

variable {C} {s : σ} {as : List α}

/-- A step keeps the books right. -/
theorem Balanced.concat {pre : List α} {t t' : σ} {a : α} (hbal : C.Balanced s pre t)
    (hexec : exec step s pre = some t)
    (hspec : ∀ d, C.count t' d + C.dropped d t a = C.count t d + C.taken d t a ∧
      C.owners d t' + C.dropped d t a + C.leaked d t a =
        C.owners d t + C.taken d t a + C.overdrawn d t a) : C.Balanced s (pre ++ [a]) t' := by
  intro d
  rw [total_concat _ hexec, total_concat _ hexec]
  have heq := hbal d
  obtain ⟨hcount, howners⟩ := hspec d
  omega

/-- The books are right for as long as no object is gone. -/
theorem balance (hinv : C.Inv s) (halive : Throughout step C.Alive s as) :
    ∀ pre t, pre <+: as → exec step s pre = some t → C.Inv t ∧ C.Balanced s pre t := by
  apply prefix_induction
  · exact ⟨hinv, fun d => by simp⟩
  · intro pre t a t' hpre hexec ha ⟨hinv', hbal⟩
    have hpre' : pre <+: as := (List.prefix_append pre [a]).trans hpre
    have hexec' : exec step s (pre ++ [a]) = some t' := by
      rw [exec_concat, hexec]
      exact ha
    have hafter : C.Alive t' := halive _ t' hpre hexec'
    obtain ⟨hinv'', hspec⟩ := C.step_spec t a t' hinv' (halive pre t hpre' hexec) ha hafter
    exact ⟨hinv'', hbal.concat hexec hspec⟩

/-- What a step needs of the counts, when the books are right, is what it needs of the books. -/
theorem Balanced.step_iff {pre : List α} {t : σ} (hbal : C.Balanced s pre t) (a : α) :
    (∀ d, C.dropped d t a < C.count t d ∧ C.count t d + C.peak d t a < C.limit) ↔
      ∀ d, C.owners d s + total step (C.overdrawn d) s pre + C.dropped d t a <
          C.count s d + C.owners d t + total step (C.leaked d) s pre ∧
        C.count s d + C.owners d t + total step (C.leaked d) s pre + C.peak d t a <
          C.owners d s + total step (C.overdrawn d) s pre + C.limit := by
  refine forall_congr' fun d => ?_
  have heq := hbal d
  omega

/-- A run whose books stay solvent goes through, as far as it has been looked at. -/
theorem Solvent.exists_exec (hinv : C.Inv s) (halive : C.Alive s) (hlegal : C.Legal s as)
    (hsolvent : C.Solvent s as) :
    ∀ pre, pre <+: as → ∃ t, exec step s pre = some t ∧ C.Inv t ∧ C.Alive t ∧
      C.Balanced s pre t := by
  intro pre
  induction pre using List.reverseRecOn with
  | nil => exact fun _ => ⟨s, rfl, hinv, halive, fun d => by simp⟩
  | append_singleton pre a ih =>
    intro hpre
    have hpre' : pre <+: as := (List.prefix_append pre [a]).trans hpre
    obtain ⟨t, hexec, hinv', halive', hbal⟩ := ih hpre'
    obtain ⟨hcan, hbooks⟩ := hsolvent pre a t hpre hexec
    obtain ⟨t', ha, hafter⟩ := (C.step_iff t a hinv' halive' (hlegal pre a t hpre hexec)).mpr
      ⟨hcan, (hbal.step_iff a).mpr hbooks⟩
    obtain ⟨hinv'', hspec⟩ := C.step_spec t a t' hinv' halive' ha hafter
    refine ⟨t', ?_, hinv'', hafter, hbal.concat hexec hspec⟩
    rw [exec_concat, hexec]
    exact ha

/-- A run goes through with all its objects exactly if its books stay solvent. -/
theorem goesThrough_iff (hinv : C.Inv s) (halive : C.Alive s) (hlegal : C.Legal s as) :
    ((exec step s as).isSome ∧ Throughout step C.Alive s as) ↔ C.Solvent s as := by
  constructor
  · rintro ⟨hsome, hthrough⟩ pre a t hpre hexec
    have hpre' : pre <+: as := (List.prefix_append pre [a]).trans hpre
    obtain ⟨hinv', hbal⟩ := balance hinv hthrough pre t hpre' hexec
    -- the step has been made, as the run has gone on
    obtain ⟨t', ha⟩ : ∃ t', step t a = some t' := by
      obtain ⟨rest, rfl⟩ := hpre
      rw [exec_append, exec_concat, hexec] at hsome
      cases ha : step t a with
      | none =>
        rw [Option.bind_some, ha] at hsome
        cases hsome
      | some t' => exact ⟨t', rfl⟩
    have hafter : C.Alive t' := hthrough (pre ++ [a]) t' hpre (by rw [exec_concat, hexec]; exact ha)
    obtain ⟨hcan, hleft⟩ := (C.step_iff t a hinv' (hthrough pre t hpre' hexec)
      (hlegal pre a t hpre hexec)).mp ⟨t', ha, hafter⟩
    exact ⟨hcan, (hbal.step_iff a).mp hleft⟩
  · intro hsolvent
    have hexists := hsolvent.exists_exec hinv halive hlegal
    constructor
    · obtain ⟨t, hexec, -⟩ := hexists as List.prefix_rfl
      rw [hexec]
      rfl
    · intro pre t hpre hexec
      obtain ⟨t', hexec', -, halive', -⟩ := hexists pre hpre
      rw [hexec] at hexec'
      cases hexec'
      exact halive'

end RefCounted

end Transition
