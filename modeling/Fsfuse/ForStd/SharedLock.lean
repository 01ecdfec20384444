import Mathlib

/-!
# An abstract readers-writer lock

A lock that any number of threads may hold shared, or one alone. It stands for a
correct readers-writer lock where a component relies on one.
-/

/-- The threads that hold the lock. -/
structure SharedLock (ι : Type*) where
  readers : List ι
  writer : Option ι
deriving Repr, DecidableEq

namespace SharedLock

variable {ι : Type*} [DecidableEq ι]

/-- Nobody holds the lock. -/
def free : SharedLock ι := ⟨[], none⟩

/-- Acquire the lock to read; `none` while it is not to be had. -/
def rlock (lock : SharedLock ι) (t : ι) : Option (SharedLock ι) :=
  if lock.writer = none then some { lock with readers := t :: lock.readers } else none

/-- Give up reading. -/
def runlock (lock : SharedLock ι) (t : ι) : SharedLock ι :=
  { lock with readers := lock.readers.erase t }

/-- Acquire the lock to write; `none` while it is not to be had. -/
def wlock (lock : SharedLock ι) (t : ι) : Option (SharedLock ι) :=
  if lock.writer = none ∧ lock.readers = [] then some { lock with writer := some t } else none

/-- Give up writing. -/
def wunlock (lock : SharedLock ι) : SharedLock ι := { lock with writer := none }

end SharedLock
