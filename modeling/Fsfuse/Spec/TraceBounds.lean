import Fsfuse.ForStd.Transition
import Fsfuse.Native.Trace

/-!
# Indentation in bounds

The indentation is meant to stay above zero, and the blanks that are made for it are meant to
stay in their block, with their NUL. It goes up and down by two, and is cut off at an even
number, so that a dedent never takes two from one. But as many blanks as the block is long leave
no room for the NUL: the indentation is cut off one too late.
-/

namespace Fsfuse.Native.Trace

open Transition

variable {ι α : Type} {s s' : Trace ι α}

/-- A dedent does not wrap, and what has been written lies inside its block. -/
structure Right (s : Trace ι α) : Prop where
  dedent : realTraceDedent s.traceDent ≤ s.traceDent
  inBounds : ∀ w ∈ s.written, w.index < tabMax

/-- A thread that emits finds less indentation than the block is long. -/
def EmitsBelow (s : Trace ι α) : Label ι α → Prop
  | .enter t => s.waiting t = some .emit → s.traceDent.toNat < tabMax
  | _ => True

instance (s : Trace ι α) : DecidablePred (EmitsBelow s) := fun l =>
  match l with
  | .enter _ => inferInstanceAs (Decidable (_ → _))
  | .traceOn _ | .traceOff _ | .call _ _ _ => inferInstanceAs (Decidable True)

/-! ### The block -/

/-- The loop writes a tab per round, one after the other. -/
theorem index_tabsLoop_le {rounds c : Nat} {w : TabWrite} (h : w ∈ tabsLoop rounds c) :
    w.index ≤ c + rounds := by
  induction rounds generalizing c with
  | zero => cases h
  | succ rounds ih =>
    rw [tabsLoop, List.mem_cons, List.mem_cons] at h
    obtain rfl | rfl | h := h
    · show c ≤ _
      omega
    · show c + 1 ≤ _
      omega
    · have hle := ih h
      omega

/-- The NUL behind the last blank. -/
theorem last_mem_tabsLoop (rounds c : Nat) :
    ⟨c + rounds + 1, 0⟩ ∈ tabsLoop (rounds + 1) c := by
  induction rounds generalizing c with
  | zero => exact List.mem_cons_of_mem _ List.mem_cons_self
  | succ rounds ih =>
    rw [tabsLoop]
    have hlast := ih (c + 1)
    rw [show c + 1 + rounds + 1 = c + (rounds + 1) + 1 by omega] at hlast
    exact List.mem_cons_of_mem _ (List.mem_cons_of_mem _ hlast)

/-- There are as many tabs as the indentation says, up to the most there can be. -/
theorem toNat_traceGetTabs (traceDent : UInt32) :
    (traceGetTabs traceDent).1.toNat = min traceDent.toNat tabMax := by
  have hmax : tabMax.toUInt32.toNat = tabMax := rfl
  unfold traceGetTabs
  dsimp only
  split
  · rename_i hlt
    rw [UInt32.lt_iff_toNat_lt, hmax] at hlt
    omega
  · rename_i hge
    rw [UInt32.lt_iff_toNat_lt, hmax] at hge
    rw [hmax]
    omega

/-- What `trace_get_tabs` writes is in the block exactly if there is room for the NUL. -/
theorem traceGetTabs_inBounds_iff (traceDent : UInt32) :
    (∀ w ∈ (traceGetTabs traceDent).2, w.index < tabMax) ↔ traceDent.toNat < tabMax := by
  have hdent := toNat_traceGetTabs traceDent
  have hwritten : (traceGetTabs traceDent).2 =
      ⟨0, 0⟩ :: tabsLoop (traceGetTabs traceDent).1.toNat 0 := rfl
  rw [hwritten, hdent]
  constructor
  · intro h
    by_contra hge
    rw [Nat.min_eq_right (Nat.le_of_not_lt hge)] at h
    exact absurd (h _ (List.mem_cons_of_mem _ (last_mem_tabsLoop 1023 0))) (by decide)
  · intro hlt w hw
    rw [Nat.min_eq_left (Nat.le_of_lt hlt)] at hw
    obtain rfl | hw := List.mem_cons.mp hw
    · exact Nat.zero_lt_of_lt hlt
    · have hle := index_tabsLoop_le hw
      omega

/-! ### Steps -/

/-- The indentation is even. -/
structure Inv (s : Trace ι α) : Prop where
  even : s.traceDent.toNat % 2 = 0
  inBounds : ∀ w ∈ s.written, w.index < tabMax

/-- A dedent takes two from an even number, or nothing. -/
theorem toNat_realTraceDedent {traceDent : UInt32} (h : traceDent.toNat % 2 = 0) :
    (realTraceDedent traceDent).toNat = traceDent.toNat - 2 := by
  unfold realTraceDedent
  split
  · rename_i hne
    have hpos : traceDent.toNat ≠ 0 := fun h0 => hne (UInt32.toNat_inj.mp h0)
    have hle : (2 : UInt32) ≤ traceDent := by
      rw [UInt32.le_iff_toNat_le]
      show 2 ≤ traceDent.toNat
      omega
    rw [UInt32.toNat_sub_of_le _ _ hle]
    rfl
  · rename_i h0
    rw [not_not.mp h0]
    rfl

/-- An even indentation does not wrap when it is taken back. -/
theorem realTraceDedent_le {traceDent : UInt32} (h : traceDent.toNat % 2 = 0) :
    realTraceDedent traceDent ≤ traceDent := by
  rw [UInt32.le_iff_toNat_le, toNat_realTraceDedent h]
  exact Nat.sub_le _ _

/-- By the invariant every tab is written within its array. -/
theorem Inv.right (h : Inv s) : Right s := ⟨realTraceDedent_le h.even, h.inBounds⟩

/-- A critical section keeps the indentation even, and adds what it writes. -/
theorem even_perform (h : s.traceDent.toNat % 2 = 0) (c : TraceCall) :
    (s.perform c).traceDent.toNat % 2 = 0 := by
  cases c with
  | indent =>
    show (s.traceDent + 2).toNat % 2 = 0
    rw [UInt32.toNat_add]
    show (s.traceDent.toNat + 2) % 2 ^ 32 % 2 = 0
    omega
  | dedent =>
    show (realTraceDedent s.traceDent).toNat % 2 = 0
    rw [toNat_realTraceDedent h]
    omega
  | emit =>
    show (traceGetTabs s.traceDent).1.toNat % 2 = 0
    rw [toNat_traceGetTabs]
    show min s.traceDent.toNat 1024 % 2 = 0
    omega

/-- What is written is in bounds as before, unless something is emitted where there is too much
    indentation. -/
theorem inBounds_perform_iff (h : ∀ w ∈ s.written, w.index < tabMax) (c : TraceCall) :
    (∀ w ∈ (s.perform c).written, w.index < tabMax) ↔
      (c = .emit → s.traceDent.toNat < tabMax) := by
  cases c with
  | indent => exact iff_of_true h fun heq => by cases heq
  | dedent => exact iff_of_true h fun heq => by cases heq
  | emit =>
    rw [forall_prop_of_true rfl, ← traceGetTabs_inBounds_iff]
    show (∀ w ∈ s.written ++ (traceGetTabs s.traceDent).2, w.index < tabMax) ↔ _
    rw [List.forall_mem_append]
    exact and_iff_right h

variable [DecidableEq ι] [DecidableEq α]

/-- What a thread that enters performs is what it waits to perform. -/
theorem step_enter {t : ι} (hstep : s.step (.enter t) = some s') :
    ∃ c, s.waiting t = some c ∧ s'.traceDent = (s.perform c).traceDent ∧
      s'.written = (s.perform c).written := by
  rw [step] at hstep
  cases hwaiting : s.waiting t with
  | none =>
    rw [hwaiting] at hstep
    cases hstep
  | some c =>
    rw [hwaiting] at hstep
    cases hstep
    exact ⟨c, rfl, rfl, rfl⟩

/-- Only critical sections change the indentation, and write. -/
theorem step_cases {l : Label ι α} (hstep : s.step l = some s') :
    (∃ t c, l = .enter t ∧ s.waiting t = some c ∧ s'.traceDent = (s.perform c).traceDent ∧
      s'.written = (s.perform c).written) ∨
    s'.traceDent = s.traceDent ∧ s'.written = s.written := by
  cases l with
  | traceOn area =>
    cases hstep
    exact .inr ⟨rfl, rfl⟩
  | traceOff area =>
    cases hstep
    exact .inr ⟨rfl, rfl⟩
  -- a call waits for the mutex, or is not traced
  | call t area c =>
    rw [step] at hstep
    split at hstep
    · cases hstep
    · split at hstep <;> cases hstep <;> exact .inr ⟨rfl, rfl⟩
  | enter t =>
    obtain ⟨c, hwaiting, hdent, hwritten⟩ := step_enter hstep
    exact .inl ⟨t, c, rfl, hwaiting, hdent, hwritten⟩

/-- The indentation stays even, whatever is written. -/
theorem even_step (s : Trace ι α) (l : Label ι α) (s' : Trace ι α)
    (h : s.traceDent.toNat % 2 = 0) (hstep : s.step l = some s') :
    s'.traceDent.toNat % 2 = 0 := by
  obtain ⟨t, c, -, -, hdent, -⟩ | ⟨hdent, -⟩ := step_cases hstep
  · rw [hdent]
    exact even_perform h c
  · rw [hdent]
    exact h

/-- Every step that emits less than the most there can be keeps the invariant. -/
theorem Inv.step {l : Label ι α} (h : Inv s) (hbelow : EmitsBelow s l)
    (hstep : s.step l = some s') : Inv s' where
  even := even_step s l s' h.even hstep
  inBounds := by
    obtain ⟨t, c, rfl, hwaiting, -, hwritten⟩ | ⟨-, hwritten⟩ := step_cases hstep
    · rw [hwritten]
      apply (inBounds_perform_iff h.inBounds c).mpr
      rintro rfl
      exact hbelow hwaiting
    · rw [hwritten]
      exact h.inBounds

/-- A step that leaves all writes in bounds has not emitted where there is no room. -/
theorem Inv.emitsBelow {l : Label ι α} (h : Inv s) (hstep : s.step l = some s')
    (hright : Right s') : EmitsBelow s l := by
  cases l with
  | traceOn area => trivial
  | traceOff area => trivial
  | call t area c => trivial
  | enter t =>
    intro hemit
    obtain ⟨c, hwaiting, -, hwritten⟩ := step_enter hstep
    rw [hemit] at hwaiting
    cases hwaiting
    have hinBounds := hright.inBounds
    rw [hwritten] at hinBounds
    exact (inBounds_perform_iff h.inBounds .emit).mp hinBounds rfl

omit [DecidableEq ι] [DecidableEq α] in
/-- At the start nothing is indented and nothing written. -/
theorem start_inv : Inv (start : Trace ι α) where
  even := rfl
  inBounds := fun w hw => by cases hw

/-! ### Runs -/

/-- No run wraps the indentation below zero, whatever it writes. -/
theorem exec_start_dedent {ls : List (Label ι α)} (hexec : exec step start ls = some s) :
    realTraceDedent s.traceDent ≤ s.traceDent := by
  apply realTraceDedent_le
  exact exec_invariant even_step rfl hexec

/-- Whatever threads trace, the indentation never wraps below zero; and every byte that is
    written for it lies inside its block throughout a run exactly if no thread emits where the
    indentation is as long as the block. -/
theorem exec_start_right_iff (ls : List (Label ι α)) (s : Trace ι α)
    (hexec : exec step start ls = some s) :
    Throughout step Right start ls ↔ StepsMeet step EmitsBelow start ls :=
  throughout_iff_stepsMeet (fun _ h => h.right) (fun _ _ _ h hbelow hstep => h.step hbelow hstep)
    (fun _ _ _ h hstep hright => h.emitsBelow hstep hright) start_inv hexec

/-- A thread indents and emits, while another dedents as well. -/
theorem exec_start_right_two_threads :
    Throughout step Right (start : Trace Bool Unit)
      [.traceOn (), .call true () .indent, .enter true, .call true () .emit,
        .call false () .dedent, .enter false, .enter true] := by
  have hsome : (exec step (start : Trace Bool Unit) [.traceOn (), .call true () .indent,
      .enter true, .call true () .emit, .call false () .dedent, .enter false,
      .enter true]).isSome := by decide +kernel
  obtain ⟨s, hexec⟩ := Option.isSome_iff_exists.mp hsome
  exact (exec_start_right_iff _ s hexec).mpr (by decide +kernel)

/-- A thread that indents so many times and then emits. -/
def indentsAndEmit (n : Nat) : List (Label Unit Unit) :=
  .traceOn () :: (List.replicate n [.call () () .indent, .enter ()]).flatten ++
    [.call () () .emit, .enter ()]

/-- After 512 indents the NUL of the first line is behind the block. -/
theorem exec_start_not_right_deep :
    (exec step start (indentsAndEmit 512)).isSome ∧
      ¬ Throughout step Right start (indentsAndEmit 512) := by
  have hlast : (exec step start (indentsAndEmit 512)).map
      (fun s => decide (⟨1024, 0⟩ ∈ s.written)) = some true := by decide +kernel
  obtain ⟨s, hexec, hwritten⟩ := Option.map_eq_some_iff.mp hlast
  refine ⟨by rw [hexec]; rfl, fun hthr => ?_⟩
  have hlt := (hthr _ s List.prefix_rfl hexec).inBounds _ (of_decide_eq_true hwritten)
  exact absurd hlt (by decide)

end Fsfuse.Native.Trace
