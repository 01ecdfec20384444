import Fsfuse.ForStd.Transition
import Fsfuse.Native.Locks

/-!
# Readers-writer exclusion

The lock keeps readers and writers apart as long as the test for the "locking thread"
lets through nobody but the writer itself, asking to read. Then either one writer is
in, with nothing but nested reads above its write, or `readers_reading` counts every
read that is held.

The test asks for less than that: any thread that was the last to take the lock passes
it, also while other readers are in and after it has unlocked.
-/

namespace Fsfuse.Native.RwLock.State

open Transition

variable {ι : Type} [DecidableEq ι] {s s' : State ι}

/-- While a thread holds the lock for writing no other thread holds it at all. -/
def Exclusive (s : State ι) : Prop :=
  ∀ t u, t ≠ u → .write ∈ s.holds t → s.holds u = []

/-- A call that the test lets through is the writer's, asking to read. -/
def PassesNested (s : State ι) : Label ι → Prop
  | .rlock t => s.lock.isLockingThread t = true → .write ∈ s.holds t
  | .wlock t => s.lock.isLockingThread t = false
  | _ => True

instance (s : State ι) : DecidablePred (PassesNested s)
  | .rlock t => inferInstanceAs (Decidable (s.lock.isLockingThread t = true → .write ∈ s.holds t))
  | .wlock t => inferInstanceAs (Decidable (s.lock.isLockingThread t = false))
  | .rlockSection _ | .runlock _ | .wlockSection _ | .wunlock _ =>
    inferInstanceAs (Decidable True)

/-! ### The invariant -/

/-- The thread is the writer, with `n` reads nested in its write; nobody else is in. -/
structure Writing (s : State ι) (w : ι) (n : Nat) : Prop where
  writer : s.lock.writerWriting = 1
  readers : s.lock.readersReading = 0
  holds : s.holds w = List.replicate n .read ++ [.write]
  others : ∀ t, t ≠ w → s.holds t = []

/-- The threads of `readers` are in, once for each read they hold; nobody writes. -/
structure Reading (s : State ι) (readers : Multiset ι) : Prop where
  writer : s.lock.writerWriting = 0
  counted : s.lock.readersReading = readers.card
  holds : ∀ t, s.holds t = List.replicate (readers.count t) .read

/-- The invariant: somebody writes, or somebody or nobody reads. -/
def Inv (s : State ι) : Prop :=
  (∃ w n, Writing s w n) ∨ ∃ readers, Reading s readers

/-- At the start nobody holds anything. -/
theorem new_inv : Inv (new : State ι) :=
  .inr ⟨0, rfl, rfl, fun _ => rfl⟩

/-- While others read nobody writes. -/
theorem Reading.not_write {readers : Multiset ι} (h : Reading s readers) (t : ι) :
    .write ∉ s.holds t := by
  rw [h.holds]
  intro hmem
  cases List.eq_of_mem_replicate hmem

/-- The invariant excludes a writer beside anybody else. -/
theorem Inv.exclusive (h : Inv s) : Exclusive s := by
  intro t u htu hwrite
  obtain ⟨w, n, h⟩ | ⟨readers, h⟩ := h
  · by_cases htw : t = w
    -- the writer is in alone
    · exact h.others u fun huw => htu (htw.trans huw.symm)
    · rw [h.others t htw] at hwrite
      cases hwrite
  · exact absurd hwrite (h.not_write t)

/-! ### What each lock function does to it -/

/-- Going past the test of a lock function changes nothing yet. -/
theorem entered_inv {t : ι} {phase : Phase} (h : Inv s) : Inv (s.entered t phase) := by
  obtain ⟨w, n, h⟩ | ⟨readers, h⟩ := h
  · exact .inl ⟨w, n, h.writer, h.readers, h.holds, h.others⟩
  · exact .inr ⟨readers, h.writer, h.counted, h.holds⟩

/-- The writer asks to read, and is let through. -/
theorem nested_inv {t : ι} (h : Inv s) (hwrite : .write ∈ s.holds t) :
    Inv (s.acquired t .read) := by
  obtain ⟨w, n, h⟩ | ⟨readers, h⟩ := h
  -- who holds the lock for writing is the writer
  · obtain rfl : t = w := by
      by_contra htw
      rw [h.others t htw] at hwrite
      cases hwrite
    refine .inl ⟨t, n + 1, h.writer, h.readers, ?_, fun u hu => ?_⟩
    · simp only [acquired, Function.update_self, h.holds, List.replicate_succ, List.cons_append]
    · simp only [acquired, Function.update_of_ne hu, h.others u hu]
  · exact absurd hwrite (h.not_write t)

/-- A read that is let through keeps the invariant. -/
theorem rlockSection_inv {t : ι} {lock : RwLock ι} (h : Inv s)
    (hlock : s.lock.rlock t = some lock) : Inv ({ s with lock := lock }.acquired t .read) := by
  simp only [rlock, ne_eq, ite_not, Option.ite_none_right_eq_some, Option.some.injEq] at hlock
  obtain ⟨hfree, rfl⟩ := hlock
  obtain ⟨w, n, h⟩ | ⟨readers, h⟩ := h
  -- not while somebody writes
  · have := h.writer
    omega
  -- one more read, by a thread that may have others
  · refine .inr ⟨t ::ₘ readers, hfree, ?_, fun u => ?_⟩
    · show s.lock.readersReading + 1 = _
      rw [h.counted, Multiset.card_cons]
    · by_cases hu : u = t
      · subst hu
        simp only [acquired, Function.update_self, h.holds, Multiset.count_cons_self,
          List.replicate_succ]
      · simp only [acquired, Function.update_of_ne hu, h.holds, Multiset.count_cons_of_ne hu]

/-- A write that is let through keeps the invariant. -/
theorem wlockSection_inv {t : ι} {lock : RwLock ι} (h : Inv s)
    (hlock : s.lock.wlock t = some lock) : Inv ({ s with lock := lock }.acquired t .write) := by
  simp only [wlock, Option.ite_none_left_eq_some, not_or, ne_eq, not_not,
    Option.some.injEq] at hlock
  obtain ⟨⟨hfree, hnone⟩, rfl⟩ := hlock
  obtain ⟨w, n, h⟩ | ⟨readers, h⟩ := h
  · have := h.writer
    omega
  -- no reads are counted, so none are held
  · have hempty : readers = 0 := Multiset.card_eq_zero.mp (h.counted.symm.trans hnone)
    have hholds : ∀ u, s.holds u = [] := by
      intro u
      rw [h.holds, hempty]
      rfl
    refine .inl ⟨t, 0, ?_, hnone, ?_, fun u hu => ?_⟩
    · show s.lock.writerWriting + 1 = 1
      rw [hfree]
    · simp only [acquired, Function.update_self, hholds, List.replicate_zero, List.nil_append]
    · simp only [acquired, Function.update_of_ne hu, hholds]

/-- A read nested in a write is not counted, so its unlock fails and changes nothing;
    any other read is. -/
theorem runlock_inv {t : ι} {rest : List Mode} (h : Inv s) (hholds : s.holds t = .read :: rest) :
    Inv (s.unlocked t s.lock.runlock.2 rest) := by
  obtain ⟨w, n, h⟩ | ⟨readers, h⟩ := h
  · obtain rfl : t = w := by
      by_contra htw
      rw [h.others t htw] at hholds
      cases hholds
    rw [h.holds] at hholds
    -- the innermost lock is a read, so at least one is nested
    cases n with
    | zero => cases hholds
    | succ n =>
      obtain ⟨-, rfl⟩ := List.cons.inj hholds
      -- `readers_reading` is 0 all the time
      have hfail : s.lock.runlock.2 = s.lock := by rw [runlock, if_pos h.readers]
      rw [hfail]
      refine .inl ⟨t, n, h.writer, h.readers, ?_, fun u hu => ?_⟩
      · simp only [unlocked, Function.update_self]
        rfl
      · simp only [unlocked, Function.update_of_ne hu, h.others u hu]
  -- nobody writes: the read has been counted
  · have hcount : readers.count t ≠ 0 := by
      intro h0
      rw [h.holds, h0] at hholds
      cases hholds
    have hmem : t ∈ readers := Multiset.count_ne_zero.mp hcount
    have hcard := Multiset.card_erase_add_one hmem
    have hrest : rest = List.replicate ((readers.erase t).count t) .read := by
      rw [Multiset.count_erase_self, ← List.tail_replicate, ← h.holds, hholds, List.tail_cons]
    -- the last reader also clears the locking thread, which the invariant does not mention
    have hlock : s.lock.runlock.2.writerWriting = 0 ∧
        s.lock.runlock.2.readersReading = (readers.erase t).card := by
      have := h.counted
      have := h.writer
      rw [runlock, if_neg (by omega)]
      simp only
      split <;> simp only <;> omega
    refine .inr ⟨readers.erase t, hlock.1, hlock.2, fun u => ?_⟩
    by_cases hu : u = t
    · subst hu
      simp only [unlocked, Function.update_self, hrest]
    · simp only [unlocked, Function.update_of_ne hu, h.holds, Multiset.count_erase_of_ne hu]

/-- A writer's unlock keeps the invariant. -/
theorem wunlock_inv {t : ι} {rest : List Mode} (h : Inv s) (hholds : s.holds t = .write :: rest) :
    Inv (s.unlocked t s.lock.wunlock.2 rest) := by
  obtain ⟨w, n, h⟩ | ⟨readers, h⟩ := h
  · obtain rfl : t = w := by
      by_contra htw
      rw [h.others t htw] at hholds
      cases hholds
    rw [h.holds] at hholds
    -- the innermost lock is the write, so no read is nested
    cases n with
    | succ n => cases hholds
    | zero =>
      obtain rfl : [] = rest := (List.cons.inj hholds).2
      have hlock : s.lock.wunlock.2 =
          { s.lock with writerWriting := 0, lockingThread := none } := by
        rw [wunlock, if_neg (by rw [h.writer]; omega)]
      rw [hlock]
      refine .inr ⟨0, rfl, h.readers, fun u => ?_⟩
      by_cases hu : u = t
      · subst hu
        simp only [unlocked, Function.update_self, Multiset.count_zero, List.replicate_zero]
      · simp only [unlocked, Function.update_of_ne hu, h.others u hu, Multiset.count_zero,
          List.replicate_zero]
  · exact absurd (hholds ▸ List.mem_cons_self) (h.not_write t)

/-- A step keeps the invariant if the test lets through nobody but the writer, asking to
    read. -/
theorem step_inv {l : Label ι} (h : Inv s) (hpass : PassesNested s l)
    (hstep : s.step l = some s') : Inv s' := by
  cases l with
  | rlock t =>
    simp only [step, Option.ite_none_left_eq_some] at hstep
    obtain ⟨-, hstep⟩ := hstep
    split at hstep <;> obtain rfl := Option.some.inj hstep
    · rename_i htest
      exact nested_inv h (hpass htest)
    · exact entered_inv h
  | rlockSection t =>
    simp only [step, Option.ite_none_left_eq_some, Option.map_eq_some_iff] at hstep
    obtain ⟨-, lock, hlock, rfl⟩ := hstep
    exact rlockSection_inv h hlock
  | runlock t =>
    simp only [step] at hstep
    split at hstep
    · rename_i hholds
      obtain rfl := Option.some.inj hstep
      exact runlock_inv h hholds
    · cases hstep
  | wlock t =>
    simp only [step, Option.ite_none_left_eq_some] at hstep
    obtain ⟨-, hstep⟩ := hstep
    -- nobody is let through to write
    have htest : ¬ s.lock.isLockingThread t = true := by rw [show _ = false from hpass]; simp
    rw [if_neg htest] at hstep
    obtain rfl := Option.some.inj hstep
    exact entered_inv h
  | wlockSection t =>
    simp only [step, Option.ite_none_left_eq_some, Option.map_eq_some_iff] at hstep
    obtain ⟨-, lock, hlock, rfl⟩ := hstep
    exact wlockSection_inv h hlock
  | wunlock t =>
    simp only [step] at hstep
    split at hstep
    · rename_i hholds
      obtain rfl := Option.some.inj hstep
      exact wunlock_inv h hholds
    · cases hstep

/-! ### Runs -/

/-- In a run in which the test lets through nobody but the writer, asking to read, the
    lock excludes. -/
theorem exec_new_exclusive (ls : List (Label ι))
    (hpass : StepsMeet step PassesNested (new : State ι) ls) :
    Throughout step Exclusive (new : State ι) ls := by
  have hinv : Throughout step Inv (new : State ι) ls :=
    throughout_of_stepsMeet (fun _ _ _ => step_inv) new_inv hpass
  exact fun pre s hpre hexec => (hinv pre s hpre hexec).exclusive

/-- Two readers, then a writer that reads under its own lock. -/
theorem exec_new_exclusive_nested :
    Throughout step Exclusive (new : State Bool)
      [.rlock true, .rlockSection true, .rlock false, .rlockSection false, .runlock true,
        .runlock false, .wlock false, .wlockSection false, .rlock false, .runlock false,
        .wunlock false] :=
  exec_new_exclusive _ (by decide +kernel)

/-- Two readers overlap; the one that came last leaves and is let through to write while
    the first still reads. -/
theorem exec_new_not_exclusive :
    ¬ Throughout step Exclusive (new : State Bool)
      [.rlock true, .rlockSection true, .rlock false, .rlockSection false, .runlock false,
        .wlock false] := by
  intro hexcl
  -- what the two hold in the end
  have hlast : (exec step (new : State Bool)
      [.rlock true, .rlockSection true, .rlock false, .rlockSection false, .runlock false,
        .wlock false]).map (fun s => (s.holds false, s.holds true)) =
      some ([.write], [.read]) := by decide +kernel
  obtain ⟨s, hexec, hholds⟩ := Option.map_eq_some_iff.mp hlast
  obtain ⟨hwrite, hread⟩ := Prod.mk.inj hholds
  have hnone := hexcl _ s List.prefix_rfl hexec false true Bool.false_ne_true
    (by rw [hwrite]; exact List.mem_singleton_self _)
  rw [hread] at hnone
  cases hnone

end Fsfuse.Native.RwLock.State
