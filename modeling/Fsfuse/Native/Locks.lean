import Mathlib

/-!
# Readers-writer lock

`src/locks.c`. The body of each function is one critical section of the lock's own
mutex; only the test at the head of the two lock functions, which lets the "locking
thread" straight through, is made without it. The threads that use the lock form a
transition system over these steps: a call to a lock function is the test followed,
unless the test lets the thread through, by the critical section.

`State` is what the threads do with the lock: where each is, and the locks it holds,
innermost first. Calls are properly bracketed: an unlock undoes the last lock.
-/

namespace Fsfuse.Native

/-- `struct _rw_lock_t`. A zero `locking_thread` is `none`. -/
structure RwLock (ι : Type) where
  readersReading : Nat
  writerWriting : Nat
  lockingThread : Option ι
deriving Repr, DecidableEq

namespace RwLock

variable {ι : Type} [DecidableEq ι]

/-- `rw_lock_new`. -/
def new : RwLock ι := ⟨0, 0, none⟩

/-- The test at the head of `rw_lock_rlock` and `rw_lock_wlock`. -/
def isLockingThread (lock : RwLock ι) (self : ι) : Bool :=
  lock.lockingThread = some self

/-- The critical section of `rw_lock_rlock`; `none` while it waits. -/
def rlock (lock : RwLock ι) (self : ι) : Option (RwLock ι) :=
  if lock.writerWriting ≠ 0 then none
  else some { lock with
    readersReading := lock.readersReading + 1
    lockingThread := some self }

/-- `rw_lock_runlock`, with its return value. -/
def runlock (lock : RwLock ι) : Int × RwLock ι :=
  if lock.readersReading = 0 then (-1, lock)
  else
    let lock := { lock with readersReading := lock.readersReading - 1 }
    -- the last reader out forgets the locking thread, whoever that was
    if lock.readersReading = 0 then (0, { lock with lockingThread := none }) else (0, lock)

/-- The critical section of `rw_lock_wlock`; `none` while it waits. -/
def wlock (lock : RwLock ι) (self : ι) : Option (RwLock ι) :=
  if lock.writerWriting ≠ 0 ∨ lock.readersReading ≠ 0 then none
  else some { lock with
    writerWriting := lock.writerWriting + 1
    lockingThread := some self }

/-- `rw_lock_wunlock`, with its return value. -/
def wunlock (lock : RwLock ι) : Int × RwLock ι :=
  if lock.writerWriting = 0 then (-1, lock)
  else (0, { lock with writerWriting := 0, lockingThread := none })

/-! ### Threads that use the lock -/

/-- What a returned lock function has given its caller. -/
inductive Mode
  | read
  | write
deriving Repr, DecidableEq

/-- Where a thread is: outside the lock's functions, or past the test of one of them. -/
inductive Phase
  | outside
  | inRlock
  | inWlock
deriving Repr, DecidableEq

/-- A lock and the threads that use it. -/
structure State (ι : Type) where
  lock : RwLock ι
  phase : ι → Phase
  holds : ι → List Mode

/-- The step a thread takes: the test of a lock function, its critical section, or an
    unlock. -/
inductive Label (ι : Type)
  | rlock (t : ι)
  | rlockSection (t : ι)
  | runlock (t : ι)
  | wlock (t : ι)
  | wlockSection (t : ι)
  | wunlock (t : ι)
deriving Repr, DecidableEq

namespace State

/-- Nobody holds or wants the new lock. -/
def new : State ι where
  lock := .new
  phase := fun _ => .outside
  holds := fun _ => []

/-- The thread's lock function has returned. -/
def acquired (s : State ι) (t : ι) (mode : Mode) : State ι :=
  { s with
    phase := Function.update s.phase t .outside
    holds := Function.update s.holds t (mode :: s.holds t) }

/-- The thread has gone past the test of a lock function. -/
def entered (s : State ι) (t : ι) (phase : Phase) : State ι :=
  { s with phase := Function.update s.phase t phase }

/-- The thread's unlock function has returned, leaving it `rest`. -/
def unlocked (s : State ι) (t : ι) (lock : RwLock ι) (rest : List Mode) : State ι :=
  { s with lock := lock, holds := Function.update s.holds t rest }

/-- One step of one thread. -/
def step (s : State ι) : Label ι → Option (State ι)
  | .rlock t =>
    if s.phase t ≠ .outside then none
    -- the test lets the thread through, and nothing is counted
    else if s.lock.isLockingThread t then some (s.acquired t .read)
    else some (s.entered t .inRlock)
  | .rlockSection t =>
    if s.phase t ≠ .inRlock then none
    else (s.lock.rlock t).map fun lock => { s with lock := lock }.acquired t .read
  | .runlock t =>
    match s.phase t, s.holds t with
    -- the unlock functions do not know how the lock was come by
    | .outside, .read :: rest => some (s.unlocked t s.lock.runlock.2 rest)
    | _, _ => none
  | .wlock t =>
    if s.phase t ≠ .outside then none
    -- the same for a writer, even if what the thread holds is a read lock
    else if s.lock.isLockingThread t then some (s.acquired t .write)
    else some (s.entered t .inWlock)
  | .wlockSection t =>
    if s.phase t ≠ .inWlock then none
    else (s.lock.wlock t).map fun lock => { s with lock := lock }.acquired t .write
  | .wunlock t =>
    match s.phase t, s.holds t with
    | .outside, .write :: rest => some (s.unlocked t s.lock.wunlock.2 rest)
    | _, _ => none

end State

end RwLock

end Fsfuse.Native
