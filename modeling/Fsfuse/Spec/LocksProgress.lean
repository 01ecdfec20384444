import Fsfuse.ForStd.Simulation
import Fsfuse.Native.LocksWaiting
import Fsfuse.Spec.LocksExclusion

/-!
# No thread waits for a free lock

The system in which threads sleep on `lock_free` refines the one in which a thread that cannot
have the lock just does not move, so that exclusion carries over.

It also never forgets a sleeper: when a thread is asleep whose test would now succeed, somebody
has been woken who will get the lock. The last reader out signals only one thread, which is
enough since a reader sleeps only while somebody writes: who is asleep when the last reader
leaves wants to write.
-/

namespace Fsfuse.Native.RwLock

open Transition

variable {ι : Type} [DecidableEq ι]

/-! ### The waiting system refines the plain one -/

namespace WaitState

/-- A call that the test lets through is the writer's, asking to read. -/
def PassesNested (s : WaitState ι) : WaitLabel ι → Prop
  | .rlock t => s.toState.PassesNested (.rlock t)
  | .wlock t => s.toState.PassesNested (.wlock t)
  | _ => True

instance (s : WaitState ι) : DecidablePred (PassesNested s)
  | .rlock t => inferInstanceAs (Decidable (s.toState.PassesNested (.rlock t)))
  | .wlock t => inferInstanceAs (Decidable (s.toState.PassesNested (.wlock t)))
  | .test _ | .wakeUp _ | .runlock _ _ | .wunlock _ => inferInstanceAs (Decidable True)

variable {s s' : WaitState ι} {l : WaitLabel ι}

/-- What a reader's unlock does, besides what it signals. -/
theorem step_runlock {t : ι} {signalled : Option ι}
    (hstep : s.step (.runlock t signalled) = some s') :
    ∃ rest, s.phase t = .outside ∧ s.holds t = .read :: rest ∧
      s'.toState = s.toState.unlocked t s.lock.runlock.2 rest ∧
      (if s.lock.runlock.1 = 0 ∧ s.lock.runlock.2.readersReading = 0 then
        s.lockFree.signal signalled = some s'.lockFree else s'.lockFree = s.lockFree) := by
  simp only [step] at hstep
  split at hstep
  · rename_i rest hphase hholds
    refine ⟨rest, hphase, hholds, ?_⟩
    split at hstep
    -- the last reader signals, the others do not
    · rename_i hlast
      obtain ⟨lockFree, hsignal, rfl⟩ := Option.map_eq_some_iff.mp hstep
      rw [if_pos hlast]
      exact ⟨rfl, hsignal⟩
    · rename_i hlast
      obtain ⟨-, hstep⟩ := Option.ite_none_right_eq_some.mp hstep
      obtain rfl := Option.some.inj hstep
      rw [if_neg hlast]
      exact ⟨rfl, rfl⟩
  · cases hstep

/-- What a writer's unlock does, besides what it broadcasts. -/
theorem step_wunlock {t : ι} (hstep : s.step (.wunlock t) = some s') :
    ∃ rest, s.phase t = .outside ∧ s.holds t = .write :: rest ∧
      s'.toState = s.toState.unlocked t s.lock.wunlock.2 rest ∧
      s'.lockFree = if s.lock.wunlock.1 = 0 then s.lockFree.broadcast else s.lockFree := by
  simp only [step] at hstep
  split at hstep
  · rename_i rest hphase hholds
    obtain rfl := Option.some.inj hstep
    exact ⟨rest, hphase, hholds, rfl, rfl⟩
  · cases hstep

/-- A test of a lock function's loop: the thread has the lock, or goes to sleep. -/
theorem step_test {t : ι} (hstep : s.step (.test t) = some s') :
    t ∉ s.lockFree.asleep ∧
      ((s.phase t = .inRlock ∧ s' = s.tested t .read (s.lock.rlock t)) ∨
        (s.phase t = .inWlock ∧ s' = s.tested t .write (s.lock.wlock t))) := by
  simp only [step, Option.ite_none_left_eq_some] at hstep
  obtain ⟨hawake, hstep⟩ := hstep
  refine ⟨hawake, ?_⟩
  split at hstep
  · rename_i hphase
    exact .inl ⟨hphase, (Option.some.inj hstep).symm⟩
  · rename_i hphase
    exact .inr ⟨hphase, (Option.some.inj hstep).symm⟩
  · cases hstep

/-- A step with waiting is a step without, or none at all. -/
theorem step_followed (hstep : s.step l = some s') :
    ∃ ls, exec State.step s.toState ls = some s'.toState ∧
      (PassesNested s l → StepsMeet State.step State.PassesNested s.toState ls) := by
  cases l with
  | rlock t =>
    obtain ⟨s₁, h₁, rfl⟩ := Option.map_eq_some_iff.mp hstep
    refine ⟨[.rlock t], ?_, fun hpass => ⟨hpass, fun _ _ => trivial⟩⟩
    rw [exec_cons, h₁]
    rfl
  | wlock t =>
    obtain ⟨s₁, h₁, rfl⟩ := Option.map_eq_some_iff.mp hstep
    refine ⟨[.wlock t], ?_, fun hpass => ⟨hpass, fun _ _ => trivial⟩⟩
    rw [exec_cons, h₁]
    rfl
  | test t =>
    obtain ⟨-, ⟨hphase, rfl⟩ | ⟨hphase, rfl⟩⟩ := step_test hstep
    · cases hlock : s.lock.rlock t with
      -- asleep again: nothing has happened to the lock
      | none => exact ⟨[], rfl, fun _ => trivial⟩
      | some lock =>
        refine ⟨[.rlockSection t], ?_, fun _ => ⟨trivial, fun _ _ => trivial⟩⟩
        simp only [exec_cons, State.step, hphase, ne_eq, not_true_eq_false, if_false, hlock]
        rfl
    · cases hlock : s.lock.wlock t with
      | none => exact ⟨[], rfl, fun _ => trivial⟩
      | some lock =>
        refine ⟨[.wlockSection t], ?_, fun _ => ⟨trivial, fun _ _ => trivial⟩⟩
        simp only [exec_cons, State.step, hphase, ne_eq, not_true_eq_false, if_false, hlock]
        rfl
  | wakeUp t =>
    obtain ⟨lockFree, -, rfl⟩ := Option.map_eq_some_iff.mp hstep
    exact ⟨[], rfl, fun _ => trivial⟩
  | runlock t signalled =>
    obtain ⟨rest, hphase, hholds, hs', -⟩ := step_runlock hstep
    refine ⟨[.runlock t], ?_, fun _ => ⟨trivial, fun _ _ => trivial⟩⟩
    simp only [exec_cons, State.step, hphase, hholds, hs']
    rfl
  | wunlock t =>
    obtain ⟨rest, hphase, hholds, hs', -⟩ := step_wunlock hstep
    refine ⟨[.wunlock t], ?_, fun _ => ⟨trivial, fun _ _ => trivial⟩⟩
    simp only [exec_cons, State.step, hphase, hholds, hs']
    rfl

/-- A run with waiting, followed without. -/
theorem exec_followed {ls : List (WaitLabel ι)} (h : exec step new ls = some s) :
    ∃ ls', exec State.step State.new ls' = some s.toState ∧
      (StepsMeet step PassesNested new ls →
        StepsMeet State.step State.PassesNested State.new ls') := by
  have hstep : ∀ (s : WaitState ι) (t : State ι) l s', s.toState = t → step s l = some s' →
      ∃ ls' t', exec State.step t ls' = some t' ∧ s'.toState = t' ∧
        (PassesNested s l → StepsMeet State.step State.PassesNested t ls') := by
    rintro s _ l s' rfl hstep
    obtain ⟨ls', hexec, hpass⟩ := step_followed hstep
    exact ⟨ls', _, hexec, rfl, hpass⟩
  obtain ⟨ls', _, hexec, rfl, hpass⟩ := exec_simulated_of_stepsMeet hstep rfl h
  exact ⟨ls', hexec, hpass⟩

end WaitState

/-! ### Who holds what is counted -/

omit [DecidableEq ι] in
/-- A reader's unlock leaves the writers alone. -/
theorem runlock_writerWriting (lock : RwLock ι) :
    lock.runlock.2.writerWriting = lock.writerWriting := by
  rw [runlock]
  split
  · rfl
  · simp only
    split <;> rfl

omit [DecidableEq ι] in
/-- A reader's unlock counts one reader less. -/
theorem runlock_readersReading (lock : RwLock ι) :
    lock.runlock.2.readersReading = lock.readersReading - 1 := by
  rw [runlock]
  split
  · rename_i h0
    simp only [h0]
  · simp only
    split <;> rfl

namespace State

variable {s s' : State ι} {l : Label ι}

/-- Every read that `readers_reading` counts is held by somebody, and a write too. -/
structure Held (s : State ι) : Prop where
  reads : ∃ readers : Multiset ι, s.lock.readersReading = readers.card ∧
    ∀ t, readers.count t ≤ (s.holds t).count .read
  write : s.lock.writerWriting ≠ 0 → ∃ t, .write ∈ s.holds t

/-- At the start nobody holds anything. -/
theorem new_held : Held (new : State ι) :=
  ⟨⟨0, rfl, fun _ => Nat.zero_le _⟩, fun h => absurd rfl h⟩

/-- What is acquired on top of what is held is held. -/
theorem acquired_held {t : ι} {mode : Mode} (h : Held s) : Held (s.acquired t mode) := by
  obtain ⟨⟨readers, hcard, hcount⟩, hwrite⟩ := h
  -- nobody's reads have become fewer, and the writer still writes
  refine ⟨⟨readers, hcard, fun u => ?_⟩, fun hw => ?_⟩
  · refine (hcount u).trans ?_
    by_cases hu : u = t
    · subst hu
      simp only [acquired, Function.update_self]
      exact List.count_le_count_cons
    · simp only [acquired, Function.update_of_ne hu, le_refl]
  · obtain ⟨u, hu⟩ := hwrite hw
    refine ⟨u, ?_⟩
    by_cases hut : u = t
    · subst hut
      simp only [acquired, Function.update_self]
      exact List.mem_cons_of_mem _ hu
    · simpa only [acquired, Function.update_of_ne hut] using hu

/-- A read that is let through is held by the thread that reads. -/
theorem rlockSection_held {t : ι} {lock : RwLock ι} (h : Held s)
    (hlock : s.lock.rlock t = some lock) : Held ({ s with lock := lock }.acquired t .read) := by
  simp only [rlock, ne_eq, ite_not, Option.ite_none_right_eq_some, Option.some.injEq] at hlock
  obtain ⟨hfree, rfl⟩ := hlock
  obtain ⟨⟨readers, hcard, hcount⟩, -⟩ := h
  refine ⟨⟨t ::ₘ readers, ?_, fun u => ?_⟩, fun hw => absurd hfree hw⟩
  -- the new reader is counted with the others
  · rw [Multiset.card_cons, ← hcard]
    rfl
  · have := hcount u
    by_cases hu : u = t
    · subst hu
      simp only [acquired, Function.update_self, Multiset.count_cons_self, List.count_cons_self]
      omega
    · simpa only [acquired, Function.update_of_ne hu, Multiset.count_cons_of_ne hu] using this

/-- A write that is let through is held by the thread that writes. -/
theorem wlockSection_held {t : ι} {lock : RwLock ι}
    (hlock : s.lock.wlock t = some lock) : Held ({ s with lock := lock }.acquired t .write) := by
  simp only [wlock, Option.ite_none_left_eq_some, not_or, ne_eq, not_not,
    Option.some.injEq] at hlock
  obtain ⟨⟨hfree, hnone⟩, rfl⟩ := hlock
  refine ⟨⟨0, hnone, fun _ => by simp only [Multiset.count_zero, Nat.zero_le]⟩, fun _ => ⟨t, ?_⟩⟩
  simp only [acquired, Function.update_self]
  exact List.mem_cons_self

/-- An unlock to read counts a read out, the thread's own if that has been counted. -/
theorem runlock_held {t : ι} {rest : List Mode} (h : Held s) (hholds : s.holds t = .read :: rest) :
    Held (s.unlocked t s.lock.runlock.2 rest) := by
  obtain ⟨⟨readers, hcard, hcount⟩, hwrite⟩ := h
  have hwriter := runlock_writerWriting s.lock
  have hreaders := runlock_readersReading s.lock
  have hown : (s.holds t).count .read = rest.count .read + 1 := by
    rw [hholds, List.count_cons_self]
  refine ⟨?_, fun hw => ?_⟩
  -- some read has to go, and the others do not have more than before
  · have hothers : ∀ readers' : Multiset ι, readers' ≤ readers →
        readers'.count t ≤ rest.count .read →
        ∀ u, readers'.count u ≤ ((s.unlocked t s.lock.runlock.2 rest).holds u).count .read := by
      intro readers' hle ht u
      by_cases hu : u = t
      · subst hu
        simpa only [unlocked, Function.update_self] using ht
      · simpa only [unlocked, Function.update_of_ne hu] using
          (Multiset.count_le_of_le u hle).trans (hcount u)
    by_cases ht : t ∈ readers
    · refine ⟨readers.erase t, ?_, hothers _ (Multiset.erase_le t readers) ?_⟩
      · exact hreaders.trans (by rw [hcard, Multiset.card_erase_of_mem ht]; rfl)
      · have := hcount t
        rw [Multiset.count_erase_self]
        omega
    · have h0 : readers.count t = 0 := Multiset.count_eq_zero.mpr ht
      obtain rfl | ⟨u, hu⟩ := readers.empty_or_exists_mem
      · refine ⟨0, hreaders.trans (by rw [hcard]; rfl), hothers 0 le_rfl ?_⟩
        rw [Multiset.count_zero]
        exact Nat.zero_le _
      · refine ⟨readers.erase u, ?_, hothers _ (Multiset.erase_le u readers) ?_⟩
        · exact hreaders.trans (by rw [hcard, Multiset.card_erase_of_mem hu]; rfl)
        · have := Multiset.count_le_of_le t (Multiset.erase_le u readers)
          omega
  · obtain ⟨u, hu⟩ := hwrite (hwriter ▸ hw)
    refine ⟨u, ?_⟩
    by_cases hut : u = t
    · subst hut
      rw [hholds, List.mem_cons] at hu
      simpa only [unlocked, Function.update_self] using hu.resolve_left (by decide)
    · simpa only [unlocked, Function.update_of_ne hut] using hu

/-- A writer's unlock leaves what is counted held. -/
theorem wunlock_held {t : ι} {rest : List Mode} (h : Held s)
    (hholds : s.holds t = .write :: rest) : Held (s.unlocked t s.lock.wunlock.2 rest) := by
  obtain ⟨⟨readers, hcard, hcount⟩, -⟩ := h
  -- nobody writes any more, and the readers are those there were
  have hwriter : s.lock.wunlock.2.writerWriting = 0 := by
    rw [wunlock]
    split
    · rename_i h0
      exact h0
    · rfl
  have hreaders : s.lock.wunlock.2.readersReading = s.lock.readersReading := by
    rw [wunlock]
    split <;> rfl
  refine ⟨⟨readers, hreaders.trans hcard, fun u => (hcount u).trans ?_⟩,
    fun hw => absurd hwriter hw⟩
  by_cases hu : u = t
  · subst hu
    have hne : Mode.write ≠ .read := by decide
    simp only [unlocked, Function.update_self, hholds, List.count_cons_of_ne hne, le_refl]
  · simp only [unlocked, Function.update_of_ne hu, le_refl]

/-- Every step leaves what is counted held. -/
theorem step_held (h : Held s) (hstep : s.step l = some s') : Held s' := by
  cases l with
  | rlock t | wlock t =>
    -- a call goes inside, or is let through at once
    simp only [step, Option.ite_none_left_eq_some] at hstep
    obtain ⟨-, hstep⟩ := hstep
    split at hstep <;> obtain rfl := Option.some.inj hstep
    · exact acquired_held h
    · exact ⟨h.reads, h.write⟩
  | rlockSection t =>
    simp only [step, Option.ite_none_left_eq_some, Option.map_eq_some_iff] at hstep
    obtain ⟨-, lock, hlock, rfl⟩ := hstep
    exact rlockSection_held h hlock
  | runlock t =>
    simp only [step] at hstep
    split at hstep
    · rename_i hholds
      obtain rfl := Option.some.inj hstep
      exact runlock_held h hholds
    · cases hstep
  | wlockSection t =>
    simp only [step, Option.ite_none_left_eq_some, Option.map_eq_some_iff] at hstep
    obtain ⟨-, lock, hlock, rfl⟩ := hstep
    exact wlockSection_held hlock
  | wunlock t =>
    simp only [step] at hstep
    split at hstep
    · rename_i hholds
      obtain rfl := Option.some.inj hstep
      exact wunlock_held h hholds
    · cases hstep

end State

/-! ### The sleepers -/

namespace WaitState

variable {s s' : WaitState ι} {l : WaitLabel ι}

/-- The thread's lock function would get it the lock. -/
def Ready (s : WaitState ι) (t : ι) : Prop :=
  (s.phase t = .inRlock ∧ s.lock.writerWriting = 0) ∨
    (s.phase t = .inWlock ∧ s.lock.writerWriting = 0 ∧ s.lock.readersReading = 0)

/-- The invariant: those who wait are in a lock function, and once each; a reader sleeps only
    while somebody writes; no wake-up is lost. -/
structure Queued (s : WaitState ι) : Prop where
  nodup : s.lockFree.waiting.Nodup
  inside : ∀ t ∈ s.lockFree.waiting, s.phase t ≠ .outside
  readers : ∀ t ∈ s.lockFree.asleep, s.phase t = .inRlock → s.lock.writerWriting ≠ 0
  noneLost : s.lockFree.NoneLost s.Ready

omit [DecidableEq ι] in
/-- At the start nobody waits. -/
theorem new_queued : Queued (new : WaitState ι) where
  nodup := List.nodup_nil
  inside := fun _ h => by cases h
  readers := fun _ h => by cases h
  noneLost := fun _ h => by cases h

omit [DecidableEq ι] in
/-- Nobody can have the lock who sleeps while it is held. -/
theorem not_ready_of_held
    (hreaders : ∀ t ∈ s.lockFree.asleep, s.phase t = .inRlock → s.lock.writerWriting ≠ 0)
    (hheld : s.lock.writerWriting ≠ 0 ∨ s.lock.readersReading ≠ 0) :
    s.lockFree.NoneLost s.Ready := by
  apply CondVar.noneLost_of_not_ready
  rintro t ht (⟨hphase, hw⟩ | ⟨-, hw, hr⟩)
  · exact hreaders t ht hphase hw
  · cases hheld with
    | inl h => exact h hw
    | inr h => exact h hr

omit [DecidableEq ι] in
/-- What a thread does outside its lock function leaves the sleepers alone. -/
theorem Queued.congr (h : Queued s) (hlock : s'.lock = s.lock) (hfree : s'.lockFree = s.lockFree)
    (hphase : ∀ t ∈ s.lockFree.waiting, s'.phase t = s.phase t) : Queued s' := by
  -- who sleeps is among those waiting
  have hasleep : ∀ t ∈ s.lockFree.asleep, t ∈ s.lockFree.waiting :=
    fun t ht => List.mem_append_left _ ht
  refine ⟨hfree ▸ h.nodup, fun t ht => ?_, fun t ht hp => ?_, ?_⟩
  · rw [hfree] at ht
    rw [hphase t ht]
    exact h.inside t ht
  · rw [hfree] at ht
    rw [hlock]
    exact h.readers t ht ((hphase t (hasleep t ht)).symm.trans hp)
  · rw [hfree]
    refine h.noneLost.mono fun t ht hready => ?_
    rw [Ready, hphase t (hasleep t ht), hlock] at hready
    exact hready

omit [DecidableEq ι] in
/-- A thread that is not in a lock function does not wait. -/
theorem Queued.not_mem_of_outside {t : ι} (h : Queued s) (ht : s.phase t = .outside) :
    ∀ u ∈ s.lockFree.waiting, u ≠ t := by
  rintro u hu rfl
  exact h.inside u hu ht

/-- A thread that is outside its lock functions is not among those that wait. -/
theorem update_phase_of_outside {t : ι} {phase : Phase} (h : Queued s) (ht : s.phase t = .outside) :
    ∀ u ∈ s.lockFree.waiting, Function.update s.phase t phase u = s.phase u :=
  fun u hu => Function.update_of_ne (h.not_mem_of_outside ht u hu) _ _

/-- The head of a lock function. -/
theorem enter_queued {t : ι} {s₁ : State ι} (h : Queued s)
    (hstep : s.toState.step (.rlock t) = some s₁ ∨ s.toState.step (.wlock t) = some s₁) :
    Queued { s₁ with lockFree := s.lockFree } := by
  simp only [State.step, Option.ite_none_left_eq_some, not_not, ne_eq] at hstep
  -- entering a lock function changes the thread's own phase alone
  have hentered : s.phase t = .outside ∧ s₁.lock = s.lock ∧
      ∃ phase, s₁.phase = Function.update s.phase t phase := by
    obtain ⟨hphase, hstep⟩ | ⟨hphase, hstep⟩ := hstep
    all_goals
      refine ⟨hphase, ?_⟩
      split at hstep <;> obtain rfl := Option.some.inj hstep <;> exact ⟨rfl, _, rfl⟩
  obtain ⟨hphase, hlock, phase, hupdate⟩ := hentered
  refine h.congr hlock rfl ?_
  show ∀ u ∈ s.lockFree.waiting, s₁.phase u = s.phase u
  rw [hupdate]
  exact update_phase_of_outside h hphase

/-- A test of a lock function's loop. Whether the thread has the lock now or sleeps because
    others have it, no sleeper can have it. -/
theorem test_queued {t : ι} {mode : Mode} {lock? : Option (RwLock ι)} (h : Queued s)
    (hawake : t ∉ s.lockFree.asleep)
    (hgot : ∀ lock, lock? = some lock →
      s.lock.writerWriting = 0 ∧ (lock.writerWriting ≠ 0 ∨ lock.readersReading ≠ 0))
    (hnot : lock? = none → s.lock.writerWriting ≠ 0 ∨
      (s.phase t = .inWlock ∧ s.lock.readersReading ≠ 0)) (hphase : s.phase t ≠ .outside) :
    Queued (s.tested t mode lock?) := by
  have hleave := CondVar.waiting_leave hawake
  have hnodup : (s.lockFree.leave t).waiting.Nodup := by
    rw [hleave]
    exact h.nodup.erase t
  have hgone : t ∉ (s.lockFree.leave t).waiting := by
    rw [hleave]
    exact h.nodup.not_mem_erase
  have hmem : ∀ u ∈ (s.lockFree.leave t).waiting, u ∈ s.lockFree.waiting := by
    rw [hleave]
    exact fun u hu => List.mem_of_mem_erase hu
  cases lock? with
  | some lock =>
    obtain ⟨hfree, hheld⟩ := hgot lock rfl
    have hother : ∀ u, u ∈ (s.lockFree.leave t).waiting → u ≠ t :=
      fun u hu hut => hgone (hut ▸ hu)
    -- who sleeps wants to write, since nobody was writing
    have hreaders : ∀ u ∈ (s.tested t mode (some lock)).lockFree.asleep,
        (s.tested t mode (some lock)).phase u = .inRlock → lock.writerWriting ≠ 0 := by
      intro u hu hp
      have hut : u ≠ t := hother u (List.mem_append_left _ hu)
      rw [show (s.tested t mode (some lock)).phase u = s.phase u from
        Function.update_of_ne hut _ _] at hp
      exact absurd hfree (h.readers u hu hp)
    refine ⟨hnodup, fun u hu => ?_, hreaders, not_ready_of_held hreaders hheld⟩
    rw [show (s.tested t mode (some lock)).phase u = s.phase u from
      Function.update_of_ne (hother u hu) _ _]
    exact h.inside u (hmem u hu)
  | none =>
    have hreaders : ∀ u ∈ (s.tested t mode none).lockFree.asleep,
        s.phase u = .inRlock → s.lock.writerWriting ≠ 0 := by
      intro u hu hp
      cases hu with
      | head =>
        obtain hw | ⟨hwrite, -⟩ := hnot rfl
        · exact hw
        · rw [hwrite] at hp
          cases hp
      | tail _ hu => exact h.readers u hu hp
    refine ⟨List.nodup_cons.mpr ⟨hgone, hnodup⟩, fun u hu => ?_, hreaders,
      not_ready_of_held hreaders ?_⟩
    · cases hu with
      | head => exact hphase
      | tail _ hu => exact h.inside u (hmem u hu)
    · exact (hnot rfl).imp_right And.right

/-- A reader that leaves signals one sleeper, if it is the last: all of them want to write. -/
theorem runlock_queued {t : ι} {signalled : Option ι} (h : Queued s)
    (hstep : s.step (.runlock t signalled) = some s') : Queued s' := by
  obtain ⟨rest, -, -, hs', hsignal⟩ := step_runlock hstep
  have hphase : s'.phase = s.phase := by rw [hs']; rfl
  have hlock : s'.lock = s.lock.runlock.2 := by rw [hs']; rfl
  have hwriter : s'.lock.writerWriting = s.lock.writerWriting := by
    rw [hlock, runlock_writerWriting]
  split at hsignal
  · have hwaiting := CondVar.waiting_signal hsignal
    refine ⟨hwaiting.nodup_iff.mpr h.nodup, fun u hu => ?_, fun u hu hp => ?_,
      CondVar.noneLost_of_signal hsignal⟩
    · rw [hphase]
      exact h.inside u (hwaiting.mem_iff.mp hu)
    · rw [hwriter]
      exact h.readers u (CondVar.mem_asleep_of_signal hsignal hu) (hphase ▸ hp)
  -- the lock is as free as it was
  · rename_i hlast
    refine ⟨hsignal ▸ h.nodup, fun u hu => ?_, fun u hu hp => ?_, ?_⟩
    · rw [hphase]
      exact h.inside u (hsignal ▸ hu)
    · rw [hwriter]
      exact h.readers u (hsignal ▸ hu) (hphase ▸ hp)
    · have hsame : s'.lock.readersReading = 0 → s.lock.readersReading = 0 := by
        rw [hlock]
        intro h0
        by_contra hne
        refine hlast ⟨?_, h0⟩
        rw [runlock, if_neg hne]
        simp only
        split <;> rfl
      rw [hsignal]
      refine h.noneLost.mono fun u hu hready => ?_
      obtain ⟨hp, hw⟩ | ⟨hp, hw, hr⟩ := hready
      · exact .inl ⟨hphase ▸ hp, hwriter ▸ hw⟩
      · exact .inr ⟨hphase ▸ hp, hwriter ▸ hw, hsame hr⟩

/-- A writer's unlock wakes everybody up. -/
theorem wunlock_queued {t : ι} (h : Queued s) (hstep : s.step (.wunlock t) = some s') :
    Queued s' := by
  obtain ⟨rest, -, -, hs', hfree⟩ := step_wunlock hstep
  have hphase : s'.phase = s.phase := by rw [hs']; rfl
  have hlock : s'.lock = s.lock.wunlock.2 := by rw [hs']; rfl
  split at hfree
  -- everybody is awake
  · have hwaiting : s'.lockFree.waiting = s.lockFree.waiting := by
      rw [hfree, CondVar.waiting_broadcast]
    refine ⟨hwaiting ▸ h.nodup, fun u hu => ?_, fun u hu => ?_, ?_⟩
    · rw [hphase]
      exact h.inside u (hwaiting ▸ hu)
    · rw [hfree] at hu
      cases hu
    · rw [hfree]
      exact CondVar.noneLost_broadcast _
  -- it had not been writing: nothing has changed
  · rename_i hrc
    refine h.congr ?_ hfree fun _ _ => by rw [hphase]
    rw [hlock, wunlock]
    split
    · rfl
    · rename_i hw
      rw [wunlock, if_neg hw] at hrc
      exact absurd rfl hrc

/-- Every step keeps the invariant. -/
theorem step_queued (h : Queued s) (hstep : s.step l = some s') : Queued s' := by
  cases l with
  | rlock t =>
    obtain ⟨s₁, h₁, rfl⟩ := Option.map_eq_some_iff.mp hstep
    exact enter_queued h (.inl h₁)
  | wlock t =>
    obtain ⟨s₁, h₁, rfl⟩ := Option.map_eq_some_iff.mp hstep
    exact enter_queued h (.inr h₁)
  | test t =>
    obtain ⟨hawake, ⟨hphase, rfl⟩ | ⟨hphase, rfl⟩⟩ := step_test hstep
    -- a reader is let through while nobody writes
    · refine test_queued h hawake (fun lock hlock => ?_) (fun hlock => ?_) ?_
      · simp only [rlock, ne_eq, ite_not, Option.ite_none_right_eq_some, Option.some.injEq]
          at hlock
        obtain ⟨hfree, rfl⟩ := hlock
        exact ⟨hfree, .inr (Nat.succ_ne_zero _)⟩
      · rw [rlock, ite_eq_left_iff] at hlock
        exact .inl (by_contra fun hw => by cases hlock hw)
      · rw [hphase]
        decide
    -- a writer is let through while nobody holds the lock
    · refine test_queued h hawake (fun lock hlock => ?_) (fun hlock => ?_) ?_
      · simp only [wlock, Option.ite_none_left_eq_some, not_or, ne_eq, not_not,
          Option.some.injEq] at hlock
        obtain ⟨⟨hfree, -⟩, rfl⟩ := hlock
        exact ⟨hfree, .inl (Nat.succ_ne_zero _)⟩
      · rw [wlock, ite_eq_left_iff] at hlock
        have hheld : s.lock.writerWriting ≠ 0 ∨ s.lock.readersReading ≠ 0 :=
          by_contra fun hw => by cases hlock hw
        exact hheld.imp_right fun hr => ⟨hphase, hr⟩
      · rw [hphase]
        decide
  -- waking up moves a thread from those asleep to those awake
  | wakeUp t =>
    obtain ⟨lockFree, hwake, rfl⟩ := Option.map_eq_some_iff.mp hstep
    have hwaiting := CondVar.waiting_wake hwake
    exact ⟨hwaiting.nodup_iff.mpr h.nodup, fun u hu => h.inside u (hwaiting.mem_iff.mp hu),
      fun u hu => h.readers u (CondVar.mem_asleep_of_wake hwake hu),
      CondVar.noneLost_of_wake hwake⟩
  | runlock t signalled => exact runlock_queued h hstep
  | wunlock t => exact wunlock_queued h hstep

/-! ### Runs -/

/-- Somebody holds the lock in a way that keeps the thread from getting it. -/
def KeptOut (s : WaitState ι) (t : ι) : Prop :=
  (s.phase t = .inRlock ∧ ∃ u, .write ∈ s.holds u) ∨
    (s.phase t = .inWlock ∧ ∃ u, s.holds u ≠ [])

/-- The next test of the thread's loop gets it the lock. -/
def GetsLock (s : WaitState ι) (t : ι) : Prop :=
  ∃ mode s', s.step (.test t) = some s' ∧ s'.holds t = mode :: s.holds t

/-- A thread that is ready and awake gets the lock at its next test. -/
theorem getsLock_of_ready {t : ι} (hawake : t ∉ s.lockFree.asleep) (h : Ready s t) :
    GetsLock s t := by
  obtain ⟨hphase, hw⟩ | ⟨hphase, hw, hr⟩ := h
  · refine ⟨.read, s.tested t .read (s.lock.rlock t), ?_, ?_⟩
    · simp only [step, if_neg hawake, hphase]
    · simp only [rlock, hw, ne_eq, not_true_eq_false, if_false, tested, State.acquired,
        Function.update_self]
  · refine ⟨.write, s.tested t .write (s.lock.wlock t), ?_, ?_⟩
    · simp only [step, if_neg hawake, hphase]
    · simp only [wlock, hw, hr, ne_eq, not_true_eq_false, or_self, if_false, tested,
        State.acquired, Function.update_self]

/-- A thread is ready unless somebody keeps it out. -/
theorem ready_or_keptOut {t : ι} (h : s.toState.Held) (ht : s.phase t ≠ .outside) :
    Ready s t ∨ KeptOut s t := by
  -- as readers are counted, somebody holds the lock to read
  have hread : s.lock.readersReading ≠ 0 → ∃ u, s.holds u ≠ [] := by
    obtain ⟨readers, hcard, hcount⟩ := h.reads
    intro hr
    obtain ⟨u, hu⟩ := Multiset.card_pos_iff_exists_mem.mp (Nat.pos_of_ne_zero (hcard ▸ hr))
    refine ⟨u, fun hnil => ?_⟩
    have := hcount u
    rw [hnil, List.count_nil] at this
    exact absurd (Multiset.count_pos.mpr hu) (by omega)
  cases hphase : s.phase t with
  | outside => exact absurd hphase ht
  | inRlock =>
    by_cases hw : s.lock.writerWriting = 0
    · exact .inl (.inl ⟨hphase, hw⟩)
    · exact .inr (.inl ⟨hphase, h.write hw⟩)
  | inWlock =>
    by_cases hw : s.lock.writerWriting = 0
    · by_cases hr : s.lock.readersReading = 0
      · exact .inl (.inr ⟨hphase, hw, hr⟩)
      · exact .inr (.inr ⟨hphase, hread hr⟩)
    · obtain ⟨u, hu⟩ := h.write hw
      exact .inr (.inr ⟨hphase, u, List.ne_nil_of_mem hu⟩)

/-- In every run, whoever is in a lock function is kept out by somebody who holds the lock, or
    somebody is awake who gets it. -/
theorem exec_new_noneForgotten {ls : List (WaitLabel ι)} {t : ι}
    (h : exec step new ls = some s) (ht : s.phase t ≠ .outside) :
    KeptOut s t ∨ ∃ u, GetsLock s u := by
  have hqueued : Queued s := exec_invariant (fun _ _ _ h hs => step_queued h hs) new_queued h
  have hheld : s.toState.Held := by
    obtain ⟨ls', hexec, -⟩ := exec_followed h
    exact exec_invariant (fun _ _ _ h hs => State.step_held h hs) State.new_held hexec
  obtain hready | hkept := ready_or_keptOut hheld ht
  · refine .inr ?_
    by_cases hasleep : t ∈ s.lockFree.asleep
    -- a sleeper that could have the lock wants to write: the lock is free
    · have hfree : s.lock.writerWriting = 0 ∧ s.lock.readersReading = 0 := by
        obtain ⟨hphase, hw⟩ | ⟨-, hfree⟩ := hready
        · exact absurd hw (hqueued.readers t hasleep hphase)
        · exact hfree
      obtain ⟨u, hu⟩ := List.exists_mem_of_ne_nil _ (hqueued.noneLost t hasleep hready)
      have hawake : u ∉ s.lockFree.asleep :=
        fun hmem => (List.disjoint_of_nodup_append hqueued.nodup) hmem hu
      have huready : Ready s u := by
        cases hphase : s.phase u with
        | outside => exact absurd hphase (hqueued.inside u (List.mem_append_right _ hu))
        | inRlock => exact .inl ⟨hphase, hfree.1⟩
        | inWlock => exact .inr ⟨hphase, hfree⟩
      exact ⟨u, getsLock_of_ready hawake huready⟩
    · exact ⟨t, getsLock_of_ready hasleep hready⟩
  · exact .inl hkept

/-- A reader leaves and signals the writer that has waited for it. -/
theorem exec_new_noneForgotten_signalled :
    ∃ s : WaitState Bool, exec step new [.rlock true, .test true, .wlock false, .test false,
        .runlock true (some false)] = some s ∧
      (KeptOut s false ∨ ∃ u, GetsLock s u) := by
  have hphase : (exec step (new : WaitState Bool) [.rlock true, .test true, .wlock false,
      .test false, .runlock true (some false)]).map (fun s => s.phase false) = some .inWlock := by
    decide +kernel
  obtain ⟨s, hexec, hin⟩ := Option.map_eq_some_iff.mp hphase
  exact ⟨s, hexec, exec_new_noneForgotten hexec (hin ▸ nofun)⟩

/-- Threads that sleep and wake do with the lock what threads could that just wait, and exclude
    each other when those do. -/
theorem exec_new_refines {ls : List (WaitLabel ι)} (h : exec step new ls = some s) :
    (∃ ls', exec State.step State.new ls' = some s.toState) ∧
      (StepsMeet step PassesNested new ls → s.toState.Exclusive) := by
  obtain ⟨ls', hexec, hpass⟩ := exec_followed h
  refine ⟨⟨ls', hexec⟩, fun hmeet => ?_⟩
  have hinv : s.toState.Inv := exec_invariant_of_stepsMeet (fun _ _ _ => State.step_inv)
    State.new_inv (hpass hmeet) hexec
  exact hinv.exclusive

/-- A writer that has slept holds the lock, and another has gone to sleep. -/
theorem exec_new_refines_writer :
    ∃ s : WaitState Bool, exec step new [.rlock true, .test true, .wlock false, .test false,
        .runlock true (some false), .test false, .rlock true, .test true] = some s ∧
      (∃ ls', exec State.step State.new ls' = some s.toState) ∧ s.toState.Exclusive := by
  have hsome : (exec step (new : WaitState Bool) [.rlock true, .test true, .wlock false,
      .test false, .runlock true (some false), .test false, .rlock true, .test true]).isSome := by
    decide +kernel
  obtain ⟨s, hexec⟩ := Option.isSome_iff_exists.mp hsome
  obtain ⟨hls, hexclusive⟩ := exec_new_refines hexec
  exact ⟨s, hexec, hls, hexclusive (by decide +kernel)⟩

end WaitState

end Fsfuse.Native.RwLock
