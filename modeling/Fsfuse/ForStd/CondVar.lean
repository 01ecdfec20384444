import Mathlib.Data.List.Perm.Basic

/-!
# Condition variables

The threads that wait on a condition variable: those that are asleep on it, and those that have
been woken but have not run since. A signal wakes one of the threads that are asleep, if there
are any, and it is open which; a thread may also wake up by itself.

A wake-up is lost when a thread is asleep that could go on, and nobody has been woken who would
see to it. The rules for `NoneLost` are those by which programs keep this from happening: a
thread goes to sleep only if it cannot go on, and whoever lets threads go on signals.
-/

/-- The threads that wait on a condition variable. -/
structure CondVar (ι : Type*) where
  asleep : List ι
  woken : List ι
deriving Repr, DecidableEq

namespace CondVar

variable {ι : Type*}

/-- Nobody waits. -/
def new : CondVar ι := ⟨[], []⟩

/-- A thread goes to sleep. -/
def wait (cv : CondVar ι) (t : ι) : CondVar ι := { cv with asleep := t :: cv.asleep }

/-- All threads are woken. -/
def broadcast (cv : CondVar ι) : CondVar ι := ⟨[], cv.asleep ++ cv.woken⟩

/-- The threads that wait, asleep or woken. -/
def waiting (cv : CondVar ι) : List ι := cv.asleep ++ cv.woken

/-- If a thread is asleep that is ready to go on, somebody has been woken. -/
def NoneLost (cv : CondVar ι) (ready : ι → Prop) : Prop :=
  ∀ t ∈ cv.asleep, ready t → cv.woken ≠ []

section

variable {cv : CondVar ι} {t : ι} {ready ready' : ι → Prop}

/-- Who waits is among those waiting. -/
theorem waiting_wait : (cv.wait t).waiting = t :: cv.waiting := rfl

/-- A broadcast leaves those waiting who were: they have to leave by themselves. -/
theorem waiting_broadcast : cv.broadcast.waiting = cv.waiting := rfl

/-- No wake-up is lost where nobody who sleeps is ready. -/
theorem noneLost_of_not_ready (h : ∀ t ∈ cv.asleep, ¬ ready t) : cv.NoneLost ready :=
  fun t ht hready => absurd hready (h t ht)

/-- Nothing is lost when threads become less ready. -/
theorem NoneLost.mono (h : cv.NoneLost ready) (hle : ∀ t ∈ cv.asleep, ready' t → ready t) :
    cv.NoneLost ready' :=
  fun t ht hready => h t ht (hle t ht hready)

/-- After a broadcast nobody sleeps, and no wake-up is lost. -/
theorem noneLost_broadcast (cv : CondVar ι) : cv.broadcast.NoneLost ready :=
  fun _ hu => by cases hu

end

variable [DecidableEq ι]

/-- A thread wakes up. -/
def wake (cv : CondVar ι) (t : ι) : Option (CondVar ι) :=
  if t ∈ cv.asleep then some ⟨cv.asleep.erase t, t :: cv.woken⟩ else none

/-- A signal wakes a thread, or nobody if all are awake. -/
def signal (cv : CondVar ι) : Option ι → Option (CondVar ι)
  | some t => cv.wake t
  | none => if cv.asleep = [] then some cv else none

/-- A thread runs that has been woken, or has not waited. -/
def leave (cv : CondVar ι) (t : ι) : CondVar ι := { cv with woken := cv.woken.erase t }

variable {cv cv' : CondVar ι} {t u : ι} {choice : Option ι} {ready : ι → Prop}

/-- Waking up takes a sleeping thread to those awake. -/
theorem wake_eq_some_iff :
    cv.wake t = some cv' ↔ t ∈ cv.asleep ∧ ⟨cv.asleep.erase t, t :: cv.woken⟩ = cv' := by
  rw [wake, Option.ite_none_right_eq_some, Option.some.injEq]

/-! ### Who waits -/

/-- Waking up leaves those waiting who were. -/
theorem waiting_wake (h : cv.wake t = some cv') : cv'.waiting.Perm cv.waiting := by
  obtain ⟨ht, rfl⟩ := wake_eq_some_iff.mp h
  have hmiddle : (cv.asleep.erase t ++ t :: cv.woken).Perm
      (t :: (cv.asleep.erase t ++ cv.woken)) := List.perm_middle
  exact hmiddle.trans ((List.perm_cons_erase ht).symm.append_right cv.woken)

/-- A signal leaves those waiting who were. -/
theorem waiting_signal (h : cv.signal choice = some cv') : cv'.waiting.Perm cv.waiting := by
  cases choice with
  | some t => exact waiting_wake h
  | none =>
    rw [signal, Option.ite_none_right_eq_some] at h
    obtain ⟨-, heq⟩ := h
    cases heq
    exact List.Perm.refl _

/-- Who is awake can leave, and is not waiting any longer. -/
theorem waiting_leave (ht : t ∉ cv.asleep) : (cv.leave t).waiting = cv.waiting.erase t := by
  rw [waiting, waiting, List.erase_append_right _ ht]
  rfl

/-- Nobody falls asleep at a signal. -/
theorem mem_asleep_of_wake (h : cv.wake t = some cv') (hu : u ∈ cv'.asleep) : u ∈ cv.asleep := by
  obtain ⟨-, rfl⟩ := wake_eq_some_iff.mp h
  exact List.mem_of_mem_erase hu

/-- A signal puts nobody to sleep. -/
theorem mem_asleep_of_signal (h : cv.signal choice = some cv') (hu : u ∈ cv'.asleep) :
    u ∈ cv.asleep := by
  cases choice with
  | some t => exact mem_asleep_of_wake h hu
  | none =>
    rw [signal, Option.ite_none_right_eq_some] at h
    obtain ⟨-, heq⟩ := h
    cases heq
    exact hu

/-! ### Lost wake-ups -/

/-- Who wakes up is awake, and so no wake-up is lost. -/
theorem noneLost_of_wake (h : cv.wake t = some cv') : cv'.NoneLost ready := by
  obtain ⟨-, rfl⟩ := wake_eq_some_iff.mp h
  exact fun _ _ _ => List.cons_ne_nil _ _

/-- Whatever becomes ready, a signal makes up for it. -/
theorem noneLost_of_signal (h : cv.signal choice = some cv') : cv'.NoneLost ready := by
  cases choice with
  | some t => exact noneLost_of_wake h
  | none =>
    rw [signal, Option.ite_none_right_eq_some] at h
    obtain ⟨hnil, heq⟩ := h
    cases heq
    intro u hu
    rw [hnil] at hu
    cases hu

end CondVar
