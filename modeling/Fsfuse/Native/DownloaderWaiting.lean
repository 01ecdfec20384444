import Fsfuse.ForStd.CondVar
import Fsfuse.Native.Downloader

/-!
# Waiting for a chunk

The downloader with its condition variable `chunks_cond`, on which only its own thread ever
waits. `downloader_chunk_add` signals it with the mutex in hand; `pthread_cond_timedwait` also
returns when its time is up, or for no reason.
-/

namespace Fsfuse.Native

/-- The threads that wait on `chunks_cond`: the downloader thread or nobody. -/
structure WaitDownloader extends Downloader where
  chunksCond : CondVar Unit

namespace WaitDownloader

/-- A step of the downloader, a call of `downloader_chunk_add` with whom its signal wakes, or
    the end of the sleep in `pthread_cond_timedwait`. -/
inductive Label
  | plain (l : Downloader.Label)
  | chunkAdd (r : Request) (signalled : Option Unit)
  | wakeUp
deriving Repr, DecidableEq

/-- `downloader_new`. -/
def new (rc : Int) (mem : Memory) : WaitDownloader :=
  { Downloader.new rc mem with chunksCond := .new }

/-- The downloader after a step of its thread, asleep if that has ended in a wait. -/
def settled (chunksCond : CondVar Unit) (d : Downloader) : WaitDownloader :=
  match d.pc with
  | .waiting _ => { d with chunksCond := chunksCond.wait () }
  | _ => { d with chunksCond }

/-- One step, for a file of `size` bytes. -/
def step (size : Nat) (d : WaitDownloader) : Label → Option WaitDownloader
  | .plain (.chunkAdd _) => none
  | .plain (.getNext usec) => (d.toDownloader.step size (.getNext usec)).map (settled d.chunksCond)
  | .plain (.wake timedOut) =>
    -- the wait returns with the mutex, some time after the sleep has ended
    if () ∈ d.chunksCond.asleep then none
    else (d.toDownloader.step size (.wake timedOut)).map (settled (d.chunksCond.leave ()))
  | .plain l => (d.toDownloader.step size l).map fun d' => { d' with chunksCond := d.chunksCond }
  | .chunkAdd r signalled => do
    let d' ← d.toDownloader.step size (.chunkAdd r)
    -- an assertion that fails does so before the mutex is taken
    if d'.pc = .aborted then
      if signalled = none then some { d' with chunksCond := d.chunksCond } else none
    else (d.chunksCond.signal signalled).map fun chunksCond => { d' with chunksCond }
  | .wakeUp => (d.chunksCond.wake ()).map fun chunksCond => { d with chunksCond }

end WaitDownloader

end Fsfuse.Native
