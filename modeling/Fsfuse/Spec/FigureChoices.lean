import Fsfuse.Spec.StatsFigures

/-!
# Figures that are read or not

A span that has other attributes besides its id and its value can be read or not, as they are
ordered. `Chosen` has the figures that can come to be read so.

The callbacks are the same for all choices when nothing depends on these spans: a figure that is
not zero finds only one latest figure of the other kind, whatever was chosen before, and if it need
not be read itself, that one is zero.

* `completions_of_chosen`, `exists_chosen` — what a slot comes to where nothing depends on it;
* `settled_iff` — the callbacks are the same for all choices just when that is so slot by slot.
-/

namespace Fsfuse.Native.ParserStats

/-! ### Choices -/

/-- The figures of some slots can be read: those of spans without other attributes have to be. -/
inductive Chosen : List Slot → List (FigureKind × UInt64) → Prop
  | nil : Chosen [] []
  | read (slot : Slot) {slots : List Slot} {figures : List (FigureKind × UInt64)} :
    Chosen slots figures → Chosen (slot :: slots) ((slot.kind, slot.value) :: figures)
  | skip {slot : Slot} {slots : List Slot} {figures : List (FigureKind × UInt64)} :
    slot.sole = false → Chosen slots figures → Chosen (slot :: slots) figures

/-- Some figures can always be chosen. -/
theorem Chosen.all (slots : List Slot) : ∃ figures, Chosen slots figures := by
  induction slots with
  | nil => exact ⟨[], .nil⟩
  | cons slot slots ih =>
    obtain ⟨figures, hfigures⟩ := ih
    exact ⟨_, .read slot hfigures⟩

/-- The latest figures there can be after a slot. -/
def optionsAfter (options : FigureKind → List UInt64) (slot : Slot) : FigureKind → List UInt64 :=
  Function.update options slot.kind
    (if slot.sole then [slot.value] else slot.value :: options slot.kind)

/-- Nothing depends on whether a slot is read: if it is not zero, there is only one latest figure
    of the other kind, and that is zero unless the slot is always read. -/
def SettledAt (options : FigureKind → List UInt64) (slot : Slot) : Prop :=
  slot.value ≠ 0 →
    (∀ n ∈ options slot.kind.other, ∀ m ∈ options slot.kind.other, n = m) ∧
      (slot.sole ∨ ∀ n ∈ options slot.kind.other, n = 0)

/-- Nothing depends on whether some slots are read. `options` are the latest figures there can be
    before them. -/
def Settled (options : FigureKind → List UInt64) : List Slot → Prop
  | [] => True
  | slot :: slots => SettledAt options slot ∧ Settled (optionsAfter options slot) slots

instance (options : FigureKind → List UInt64) (slot : Slot) : Decidable (SettledAt options slot) :=
  -- over the options, not over all 64-bit numbers
  have (p : UInt64 → Prop) [DecidablePred p] :
      Decidable (∀ n ∈ options slot.kind.other, p n) := List.decidableBAll ..
  inferInstanceAs (Decidable (_ → _))

instance decidableSettled : ∀ (options : FigureKind → List UInt64) (slots : List Slot),
    Decidable (Settled options slots)
  | _, [] => isTrue trivial
  | options, slot :: slots =>
    have := decidableSettled (optionsAfter options slot) slots
    inferInstanceAs (Decidable (_ ∧ _))

/-- The latest figures are among the options. -/
def Among (latest : FigureKind → UInt64) (options : FigureKind → List UInt64) : Prop :=
  ∀ kind, latest kind ∈ options kind

/-- What a slot is called back for where nothing depends on it. -/
def settledCall (options : FigureKind → List UInt64) (slot : Slot) : List (UInt64 × UInt64) :=
  completions (fun kind => (options kind).head?.getD 0) [(slot.kind, slot.value)]

/-- Fewer figures that are not zero have fewer callbacks. -/
theorem length_completions_le {latest latest' : FigureKind → UInt64}
    (h : ∀ kind, latest kind ≠ 0 → latest' kind ≠ 0) (figures : List (FigureKind × UInt64)) :
    (completions latest figures).length ≤ (completions latest' figures).length := by
  induction figures generalizing latest latest' with
  | nil => exact Nat.le_refl _
  | cons figure figures ih =>
    obtain ⟨kind, n⟩ := figure
    have hupdate : ∀ kind', Function.update latest kind n kind' ≠ 0 →
        Function.update latest' kind n kind' ≠ 0 :=
      rel_update (R := fun _ n n' => n ≠ 0 → n' ≠ 0) h kind id
    have hrest := ih hupdate
    simp only [completions, List.length_append]
    by_cases hcalls : n ≠ 0 ∧ latest kind.other ≠ 0
    · have hcalls' : n ≠ 0 ∧ latest' kind.other ≠ 0 := ⟨hcalls.1, h _ hcalls.2⟩
      simp only [if_pos hcalls, if_pos hcalls', List.length_singleton]
      omega
    · simp only [if_neg hcalls, List.length_nil]
      omega

/-- The first option is the latest one where there is only one. -/
theorem among_head {latest : FigureKind → UInt64} {options : FigureKind → List UInt64}
    (h : Among latest options) {kind : FigureKind}
    (hsame : ∀ n ∈ options kind, ∀ m ∈ options kind, n = m) :
    (options kind).head?.getD 0 = latest kind := by
  cases hoptions : options kind with
  | nil =>
    have hmem := h kind
    rw [hoptions] at hmem
    cases hmem
  | cons n ns =>
    apply hsame
    · simp [hoptions]
    · exact h kind

/-- A slot on which nothing depends is called back for in the same way if it is read. -/
theorem completions_eq_settledCall {latest : FigureKind → UInt64}
    {options : FigureKind → List UInt64} (h : Among latest options) {slot : Slot}
    (hsettled : SettledAt options slot) :
    completions latest [(slot.kind, slot.value)] = settledCall options slot := by
  by_cases hzero : slot.value = 0
  · simp [settledCall, completions, hzero]
  · have hother := among_head h (hsettled hzero).1
    cases hkind : slot.kind <;> rw [hkind] at hother <;>
      simp_all [settledCall, completions, FigureKind.other]

/-- It is not called back for if it need not be read. -/
theorem settledCall_eq_nil {latest : FigureKind → UInt64}
    {options : FigureKind → List UInt64} (h : Among latest options) {slot : Slot}
    (hsettled : SettledAt options slot) (hsole : slot.sole = false) :
    settledCall options slot = [] := by
  rw [← completions_eq_settledCall h hsettled]
  by_cases hzero : slot.value = 0
  · simp [completions, hzero]
  · obtain hread | hother := (hsettled hzero).2
    · rw [hsole] at hread
      cases hread
    · simp [completions, hother _ (h slot.kind.other)]

/-- The figures after the first are counted from it. -/
theorem completions_cons (latest : FigureKind → UInt64) (kind : FigureKind) (n : UInt64)
    (figures : List (FigureKind × UInt64)) :
    completions latest ((kind, n) :: figures) =
      completions latest [(kind, n)] ++ completions (Function.update latest kind n) figures := by
  simp [completions]

/-- A figure that is read is among the options after its slot. -/
theorem Among.read {latest : FigureKind → UInt64} {options : FigureKind → List UInt64}
    (h : Among latest options) (slot : Slot) :
    Among (Function.update latest slot.kind slot.value) (optionsAfter options slot) := by
  apply rel_update (R := fun _ n ns => n ∈ ns) h
  split <;> simp

/-- Where a slot need not be read the latest figures are among the options without it too. -/
theorem Among.skip {latest : FigureKind → UInt64} {options : FigureKind → List UInt64}
    (h : Among latest options) {slot : Slot} (hsole : slot.sole = false) :
    Among latest (optionsAfter options slot) := by
  apply (Function.forall_update_iff options (p := fun kind ns => latest kind ∈ ns)).mpr
  constructor
  · simp [hsole, h slot.kind]
  · exact fun kind _ => h kind

/-- Whether a slot is read or not, the callbacks go on from some options after it. -/
theorem completions_of_chosen {latest : FigureKind → UInt64} {options : FigureKind → List UInt64}
    (h : Among latest options) {slot : Slot} {slots : List Slot}
    (hsettled : SettledAt options slot) {figures : List (FigureKind × UInt64)}
    (hchosen : Chosen (slot :: slots) figures) :
    ∃ latest' figures', Among latest' (optionsAfter options slot) ∧ Chosen slots figures' ∧
      completions latest figures = settledCall options slot ++ completions latest' figures' := by
  cases hchosen with
  | read _ hrest =>
    rw [completions_cons, completions_eq_settledCall h hsettled]
    exact ⟨_, _, h.read slot, hrest, rfl⟩
  | skip hsole hrest =>
    rw [settledCall_eq_nil h hsettled hsole]
    exact ⟨_, _, h.skip hsole, hrest, rfl⟩

/-- All options after it come about so. -/
theorem exists_chosen {latest' : FigureKind → UInt64} {options : FigureKind → List UInt64}
    (hne : ∀ kind, options kind ≠ []) {slot : Slot} {slots : List Slot}
    (hsettled : SettledAt options slot) (h : Among latest' (optionsAfter options slot))
    {figures' : List (FigureKind × UInt64)} (hchosen : Chosen slots figures') :
    ∃ latest figures, Among latest options ∧ Chosen (slot :: slots) figures ∧
      completions latest figures = settledCall options slot ++ completions latest' figures' := by
  have hothers : ∀ kind, kind ≠ slot.kind → latest' kind ∈ options kind := by
    intro kind hkind
    have hmem := h kind
    rwa [optionsAfter, Function.update_of_ne hkind] at hmem
  have hkind := h slot.kind
  rw [optionsAfter, Function.update_self] at hkind
  by_cases hread : latest' slot.kind = slot.value
  · -- it was read, after any figure
    obtain ⟨n, hn⟩ := List.exists_mem_of_ne_nil _ (hne slot.kind)
    have hlatest : Among (Function.update latest' slot.kind n) options :=
      (Function.forall_update_iff latest' (p := fun kind n => n ∈ options kind)).mpr ⟨hn, hothers⟩
    refine ⟨_, _, hlatest, .read slot hchosen, ?_⟩
    rw [completions_cons, completions_eq_settledCall hlatest hsettled, Function.update_idem,
      ← hread, Function.update_eq_self]
  · -- it was not
    cases hsole : slot.sole with
    | true =>
      rw [hsole] at hkind
      exact absurd (List.mem_singleton.mp hkind) hread
    | false =>
      rw [hsole] at hkind
      have hlatest : Among latest' options := by
        intro kind
        by_cases heq : kind = slot.kind
        · subst heq
          exact (List.mem_cons.mp hkind).resolve_left hread
        · exact hothers kind heq
      refine ⟨_, _, hlatest, .skip hsole hchosen, ?_⟩
      rw [settledCall_eq_nil hlatest hsettled hsole, List.nil_append]

/-- A figure completes the pair where it is not 0 and the other one is there. -/
theorem completions_of_other_ne {latest : FigureKind → UInt64} {kind : FigureKind} {n : UInt64}
    (hn : n ≠ 0) (hother : latest kind.other ≠ 0) (figures : List (FigureKind × UInt64)) :
    completions latest ((kind, n) :: figures) =
      (Function.update latest kind n .fileCount, Function.update latest kind n .totalSize) ::
        completions (Function.update latest kind n) figures := by
  simp [completions, hn, hother]

/-- What has not been called back for does not make up for it later. -/
theorem ne_cons_completions {latest latest' : FigureKind → UInt64}
    (h : ∀ kind, latest kind ≠ 0 → latest' kind ≠ 0) (figures : List (FigureKind × UInt64))
    (call : UInt64 × UInt64) :
    completions latest figures ≠ call :: completions latest' figures := by
  intro heq
  have hle := length_completions_le h figures
  rw [heq, List.length_cons] at hle
  omega

/-- Something depends on a slot that is not settled. -/
theorem settledAt_of_forall {options : FigureKind → List UInt64}
    (hne : ∀ kind, options kind ≠ []) {slot : Slot} {slots : List Slot}
    (hsame : ∀ latest latest' figures figures', Among latest options → Among latest' options →
      Chosen (slot :: slots) figures → Chosen (slot :: slots) figures' →
        completions latest figures = completions latest' figures') :
    SettledAt options slot := by
  intro hvalue
  obtain ⟨rest, hrest⟩ := Chosen.all slots
  obtain ⟨own, hown⟩ := List.exists_mem_of_ne_nil _ (hne slot.kind)
  -- any figure of the other kind, with some figure of this kind
  let beside (n : UInt64) : FigureKind → UInt64 :=
    Function.update (fun _ => own) slot.kind.other n
  have hother : ∀ n, beside n slot.kind.other = n := fun n => Function.update_self ..
  have hamong : ∀ n ∈ options slot.kind.other, Among (beside n) options := by
    intro n hn
    apply (Function.forall_update_iff _ (p := fun kind n => n ∈ options kind)).mpr
    refine ⟨hn, fun kind hkind => ?_⟩
    obtain rfl : kind = slot.kind := (slot.kind.eq_or_eq_other kind).resolve_right hkind
    exact hown
  constructor
  · -- two figures that differ show, unless one is zero, and then the callbacks are not as many
    intro n hn m hm
    by_contra hnm
    wlog hm0 : m ≠ 0 generalizing n m
    · have hn0 : n ≠ 0 := by
        intro hn0
        exact hnm (hn0.trans (not_not.mp hm0).symm)
      exact this m hm n hn (Ne.symm hnm) hn0
    have hcalls := hsame _ _ _ _ (hamong n hn) (hamong m hm) (.read slot hrest) (.read slot hrest)
    have hm' : beside m slot.kind.other ≠ 0 := by rwa [hother]
    rw [completions_of_other_ne hvalue hm'] at hcalls
    by_cases hn0 : n = 0
    · have hnone : completions (beside n) ((slot.kind, slot.value) :: rest) =
          completions (Function.update (beside n) slot.kind slot.value) rest := by
        simp [completions, hother, hn0]
      rw [hnone] at hcalls
      refine ne_cons_completions ?_ rest _ hcalls
      apply rel_update (R := fun _ n n' => n ≠ 0 → n' ≠ 0) _ slot.kind id
      apply rel_update (R := fun _ n n' => n ≠ 0 → n' ≠ 0) (fun _ => id)
      exact fun _ => hm0
    · have hn' : beside n slot.kind.other ≠ 0 := by rwa [hother]
      rw [completions_of_other_ne hvalue hn'] at hcalls
      obtain ⟨hfirst, -⟩ := List.cons.inj hcalls
      have hboth : ∀ kind, Function.update (beside n) slot.kind slot.value kind =
          Function.update (beside m) slot.kind slot.value kind := by
        intro kind
        cases kind with
        | fileCount => exact congrArg Prod.fst hfirst
        | totalSize => exact congrArg Prod.snd hfirst
      have heq := hboth slot.kind.other
      rw [Function.update_of_ne slot.kind.other_ne, Function.update_of_ne slot.kind.other_ne,
        hother, hother] at heq
      exact hnm heq
  · -- a slot that need not be read is called back for or not
    cases hsole : slot.sole with
    | true => exact .inl rfl
    | false =>
      right
      intro n hn
      by_contra hn0
      have hcalls :=
        hsame _ _ _ _ (hamong n hn) (hamong n hn) (.skip hsole hrest) (.read slot hrest)
      have hn' : beside n slot.kind.other ≠ 0 := by rwa [hother]
      rw [completions_of_other_ne hvalue hn'] at hcalls
      refine ne_cons_completions ?_ rest _ hcalls
      apply (Function.forall_update_iff _ (p := fun kind n' => beside n kind ≠ 0 → n' ≠ 0)).mpr
      exact ⟨fun _ => hvalue, fun _ _ => id⟩

/-- Nothing depends on the choices just where that is so slot by slot. -/
theorem settled_iff {options : FigureKind → List UInt64} (hne : ∀ kind, options kind ≠ [])
    (slots : List Slot) :
    Settled options slots ↔
      ∀ latest latest' figures figures', Among latest options → Among latest' options →
        Chosen slots figures → Chosen slots figures' →
          completions latest figures = completions latest' figures' := by
  induction slots generalizing options with
  | nil =>
    apply iff_of_true trivial
    rintro latest latest' figures figures' - - ⟨⟩ ⟨⟩
    rfl
  | cons slot slots ih =>
    have hne' : ∀ kind, optionsAfter options slot kind ≠ [] := by
      apply (Function.forall_update_iff options (p := fun _ ns => ns ≠ [])).mpr
      constructor
      · split <;> simp
      · exact fun kind _ => hne kind
    constructor
    · rintro ⟨hsettled, hrest⟩ latest latest' figures figures' h h' hchosen hchosen'
      obtain ⟨l, f, hl, hf, heq⟩ := completions_of_chosen h hsettled hchosen
      obtain ⟨l', f', hl', hf', heq'⟩ := completions_of_chosen h' hsettled hchosen'
      rw [heq, heq', (ih hne').mp hrest l l' f f' hl hl' hf hf']
    · intro hsame
      have hsettled := settledAt_of_forall hne hsame
      refine ⟨hsettled, (ih hne').mpr ?_⟩
      intro l l' f f' hl hl' hf hf'
      obtain ⟨latest, figures, h, hchosen, heq⟩ := exists_chosen hne hsettled hl hf
      obtain ⟨latest', figures', h', hchosen', heq'⟩ := exists_chosen hne hsettled hl' hf'
      have hboth := hsame latest latest' figures figures' h h' hchosen hchosen'
      rw [heq, heq'] at hboth
      exact List.append_cancel_left hboth

end Fsfuse.Native.ParserStats
