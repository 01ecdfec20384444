import Fsfuse.ForStd.CondVar
import Fsfuse.Native.Locks

/-!
# Waiting for the readers-writer lock

`src/locks.c` with its condition variable `lock_free`. A lock function that cannot have the
lock goes to sleep in `pthread_cond_wait`, which gives up the mutex of the lock, and tests again
when it has been woken and has the mutex back. The last reader out signals, a writer broadcasts;
a thread may also wake up by itself.
-/

namespace Fsfuse.Native.RwLock

/-- A lock, the threads that use it, and those of them that wait on `lock_free`. -/
structure WaitState (ι : Type) extends State ι where
  lockFree : CondVar ι

/-- The step a thread takes: the test at the head of a lock function, a test of its loop, a
    wake-up, or an unlock. The unlock of a reader comes with the thread that its signal wakes. -/
inductive WaitLabel (ι : Type)
  | rlock (t : ι)
  | wlock (t : ι)
  | test (t : ι)
  | wakeUp (t : ι)
  | runlock (t : ι) (signalled : Option ι)
  | wunlock (t : ι)
deriving Repr, DecidableEq

namespace WaitState

variable {ι : Type} [DecidableEq ι]

/-- Nobody holds or wants the new lock. -/
def new : WaitState ι := { State.new with lockFree := .new }

/-- The end of the loop of a lock function, or `pthread_cond_wait`. -/
def tested (s : WaitState ι) (t : ι) (mode : Mode) : Option (RwLock ι) → WaitState ι
  | some lock =>
    { { s.toState with lock := lock }.acquired t mode with lockFree := s.lockFree.leave t }
  | none => { s with lockFree := (s.lockFree.leave t).wait t }

/-- One step of one thread. -/
def step (s : WaitState ι) : WaitLabel ι → Option (WaitState ι)
  | .rlock t => (s.toState.step (.rlock t)).map fun s' => { s' with lockFree := s.lockFree }
  | .wlock t => (s.toState.step (.wlock t)).map fun s' => { s' with lockFree := s.lockFree }
  | .test t =>
    -- whoever is asleep does not have the mutex
    if t ∈ s.lockFree.asleep then none
    else match s.phase t with
      | .inRlock => some (s.tested t .read (s.lock.rlock t))
      | .inWlock => some (s.tested t .write (s.lock.wlock t))
      | .outside => none
  | .wakeUp t => (s.lockFree.wake t).map fun lockFree => { s with lockFree }
  | .runlock t signalled => match s.phase t, s.holds t with
    | .outside, .read :: rest =>
      let (rc, lock) := s.lock.runlock
      -- the last reader out signals
      if rc = 0 ∧ lock.readersReading = 0 then
        (s.lockFree.signal signalled).map fun lockFree =>
          { s.toState.unlocked t lock rest with lockFree }
      else if signalled = none then
        some { s.toState.unlocked t lock rest with lockFree := s.lockFree }
      else none
    | _, _ => none
  | .wunlock t => match s.phase t, s.holds t with
    | .outside, .write :: rest =>
      let (rc, lock) := s.lock.wunlock
      let lockFree := if rc = 0 then s.lockFree.broadcast else s.lockFree
      some { s.toState.unlocked t lock rest with lockFree }
    | _, _ => none

end WaitState

end Fsfuse.Native.RwLock
