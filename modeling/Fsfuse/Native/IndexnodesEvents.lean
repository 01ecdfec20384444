import Fsfuse.ForStd.SharedLock
import Fsfuse.Native.Indexnodes

/-!
# Concurrent indexnode events

`src/indexnodes/indexnodes.c` as its threads run it: the listener and the alarms of the
static indexnodes call `new_indexnode_event`, FUSE threads call `indexnodes_get`. Each
operation on the list is one step, and so is each operation on the lock. The search of
`new_indexnode_event` is made without the lock; what it does with its arguments before
and after the search touches nothing shared, and belongs to the same step.
-/

namespace Fsfuse.Native.IndexnodesEvents

/-- Where a thread is. -/
inductive Phase
  | idle
  /-- in `new_indexnode_event`, the indexnode found -/
  | found (in_ : Nat)
  /-- in `new_indexnode_event`, about to lock -/
  | made (new : Indexnode)
  /-- in `new_indexnode_event`, about to add -/
  | wlocked (new : Indexnode)
  /-- in `new_indexnode_event`, about to unlock -/
  | added
  /-- in `indexnodes_get`, about to replace the list -/
  | rlocked
  /-- in `indexnodes_get`, about to copy the list -/
  | replaced
  /-- in `indexnodes_get`, about to unlock and to return the copy -/
  | copied (list : List Nat)
deriving Repr, DecidableEq

/-- The indexnodes, their lock and the threads. -/
structure State (ι : Type) where
  ins : Indexnodes
  lock : SharedLock ι
  phase : ι → Phase

/-- A step of a thread. Expiry is decided by the time of the step. -/
inductive Label (ι : Type)
  | event (t : ι) (now : Int) (host port fs2protocol id : List UInt8)
  | seen (t : ι) (now : Int)
  | wlock (t : ι)
  | add (t : ι)
  | wunlock (t : ι)
  | rlock (t : ι)
  | removeExpired (t : ι) (now timeout : Int)
  | copy (t : ι)
  | runlock (t : ι)
deriving Repr, DecidableEq

variable {ι : Type} [DecidableEq ι]

/-- `indexnodes_new`. -/
def State.new : State ι where
  ins := ⟨[], []⟩
  lock := .free
  phase := fun _ => .idle

namespace State

/-- The thread moves on. -/
def goto (s : State ι) (t : ι) (phase : Phase) : State ι :=
  { s with phase := Function.update s.phase t phase }

/-- `new_indexnode_event` up to the lock, for a protocol with a version: search the list,
    and make a new indexnode if there is none. Nothing happens once the daemon has been
    stopped by a fault. -/
def event (s : State ι) (t : ι) (now : Int) (host port fs2protocol id : List UInt8) :
    Option (State ι) :=
  match Indexnodes.parseFs2protocol fs2protocol with
  | .ok (some version) =>
    -- no lock is held here, so the answer may be out of date at the next step
    match IndexnodesList.find s.ins.store s.ins.list id with
    | some in_ => some (s.goto t (.found in_))
    | none =>
      match Indexnode.indexnodeNew now host port version id with
      | .ok (some new) => some (s.goto t (.made new))
      | .ok none => some (s.goto t .idle)
      | .error _ => none
  | .ok none | .error _ => none

/-- One step of one thread. -/
def step (s : State ι) : Label ι → Option (State ι)
  | .event t now host port fs2protocol id => match s.phase t with
    | .idle => s.event t now host port fs2protocol id
    | _ => none
  | .seen t now => match s.phase t with
    | .found in_ => some ({ s with ins := s.ins.seen now in_ }.goto t .idle)
    | _ => none
  | .wlock t => match s.phase t with
    | .made new => (s.lock.wlock t).map fun lock => { s with lock := lock }.goto t (.wlocked new)
    | _ => none
  | .add t => match s.phase t with
    -- the list is not searched again under the lock
    | .wlocked new => some ({ s with ins := s.ins.addNew new }.goto t .added)
    | _ => none
  | .wunlock t => match s.phase t with
    | .added => some ({ s with lock := s.lock.wunlock }.goto t .idle)
    | _ => none
  | .rlock t => match s.phase t with
    | .idle => (s.lock.rlock t).map fun lock => { s with lock := lock }.goto t .rlocked
    | _ => none
  | .removeExpired t now timeout => match s.phase t with
    | .rlocked =>
      -- the list is replaced under a lock for reading only
      let list := IndexnodesList.removeExpired now timeout s.ins.store s.ins.list
      some ({ s with ins := { s.ins with list := list } }.goto t .replaced)
    | _ => none
  | .copy t => match s.phase t with
    | .replaced => some (s.goto t (.copied (IndexnodesList.copy s.ins.list)))
    | _ => none
  | .runlock t => match s.phase t with
    | .copied _ => some ({ s with lock := s.lock.runlock t }.goto t .idle)
    | _ => none

end State

end Fsfuse.Native.IndexnodesEvents
