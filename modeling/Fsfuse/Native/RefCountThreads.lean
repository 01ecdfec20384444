import Fsfuse.Native.CString

/-!
# References shared by threads

`src/ref_count.c` as threads run it on one object that they share, a listing, a direntry or an
indexnode, and what `listing_delete`, `direntry_delete` and `indexnode_delete` do with what
`ref_count_dec` returns: the thread that has given up the last reference frees the object. In a
`DEBUG` build each of them writes a trace in between, for which `direntry_delete` reads the inode of
the direntry.

A thread only calls the functions on an object that it has a reference to; it may also hand a
reference over to another thread, by a list or a structure that they share.
-/

namespace Fsfuse.Native

/-- `struct _ref_count_t`, in an object that has not been freed, with the holder of the lock. -/
structure RefCount (ι : Type) where
  lock : Option ι
  refCount : UInt32
deriving Repr, DecidableEq

namespace RefCount

/-- Where a thread is. -/
inductive Phase
  | idle
  /-- in `ref_count_inc`, about to increment -/
  | inc
  /-- in `ref_count_inc`, about to unlock -/
  | incremented
  /-- in `ref_count_dec`, about to decrement -/
  | dec
  /-- in `ref_count_dec`, about to unlock -/
  | decremented (count : UInt32)
  /-- back from `ref_count_dec`, about to write the trace -/
  | returned (count : UInt32)
  /-- about to free the object, if it has got 0 -/
  | traced (count : UInt32)
deriving Repr, DecidableEq

/-- The object, how many references to it each thread has, and the threads. -/
structure State (ι : Type) where
  obj : Option (RefCount ι)
  handles : ι → Nat
  phase : ι → Phase

/-- A step of a thread. -/
inductive Label (ι : Type)
  | use (t : ι)
  | handOver (t u : ι)
  | copy (t : ι)
  | increment (t : ι)
  | delete (t : ι)
  | decrement (t : ι)
  | unlock (t : ι)
  | trace (t : ι)
  | free (t : ι)
deriving Repr, DecidableEq

namespace State

variable {ι : Type} [DecidableEq ι]

/-- A thread has made an object, with `ref_count_new`. -/
def new (t : ι) : State ι where
  obj := some ⟨none, 1⟩
  handles := Function.update (fun _ => 0) t 1
  phase := fun _ => .idle

/-- The thread moves on. -/
def goto (s : State ι) (t : ι) (phase : Phase) : State ι :=
  { s with phase := Function.update s.phase t phase }

/-- An access to the object. -/
def access (s : State ι) : Except Fault (RefCount ι) := s.obj.elim (.error .useAfterFree) .ok

/-- `pthread_mutex_lock`; `none` while it waits. -/
def lock (s : State ι) (t : ι) : Option (Except Fault (State ι)) :=
  match s.obj with
  | none => some (.error .useAfterFree)
  | some obj =>
    if obj.lock = none then some (.ok { s with obj := some { obj with lock := some t } }) else none

/-- `pthread_mutex_unlock`. -/
def unlock (s : State ι) : Except Fault (State ι) := do
  let obj ← s.access
  return { s with obj := some { obj with lock := none } }

/-- The increment of `ref_count_inc`. -/
def increment (s : State ι) (t : ι) : Except Fault (State ι) := do
  let obj ← s.access
  if obj.refCount = 0 then throw .assertion
  return { s with
    obj := some { obj with refCount := obj.refCount + 1 }
    handles := Function.update s.handles t (s.handles t + 1) }

/-- The decrement of `ref_count_dec`, with the count that it will return. -/
def decrement (s : State ι) (t : ι) : Except Fault (State ι × UInt32) := do
  let obj ← s.access
  if obj.refCount = 0 then throw .assertion
  let count := obj.refCount - 1
  return ({ s with
    obj := some { obj with refCount := count }
    handles := Function.update s.handles t (s.handles t - 1) }, count)

/-- `ref_count_delete` and the free of the object. A mutex that is held must not be destroyed: its
    holder would unlock what is no longer there. -/
def free (s : State ι) : Except Fault (State ι) := do
  let obj ← s.access
  if obj.lock ≠ none then throw .useAfterFree
  return { s with obj := none }

/-- A step, for objects whose delete function reads the object for its trace, or does not; `none`
    if the thread cannot make it. -/
def apply (reads : Bool) (s : State ι) : Label ι → Option (Except Fault (State ι))
  | .use t =>
    if s.phase t = .idle ∧ s.handles t ≠ 0 then some (s.access.map fun _ => s) else none
  | .handOver t u =>
    if s.phase t = .idle ∧ s.handles t ≠ 0 then
      let handles := Function.update s.handles t (s.handles t - 1)
      some (.ok { s with handles := Function.update handles u (handles u + 1) })
    else none
  | .copy t =>
    if s.phase t = .idle ∧ s.handles t ≠ 0 then
      (s.lock t).map (Except.map (goto · t .inc))
    else none
  | .increment t => match s.phase t with
    | .inc => some ((s.increment t).map (goto · t .incremented))
    | _ => none
  | .delete t =>
    if s.phase t = .idle ∧ s.handles t ≠ 0 then
      (s.lock t).map (Except.map (goto · t .dec))
    else none
  | .decrement t => match s.phase t with
    | .dec => some ((s.decrement t).map fun (s, count) => s.goto t (.decremented count))
    | _ => none
  | .unlock t => match s.phase t with
    | .incremented => some (s.unlock.map (goto · t .idle))
    | .decremented count => some (s.unlock.map (goto · t (.returned count)))
    | _ => none
  | .trace t => match s.phase t with
    | .returned count =>
      let s' := s.goto t (.traced count)
      -- `de->inode` is an argument of the trace
      some (if reads then s.access.map fun _ => s' else .ok s')
    | _ => none
  | .free t => match s.phase t with
    | .traced count =>
      some (if count = 0 then s.free.map (goto · t .idle) else .ok (s.goto t .idle))
    | _ => none

/-- A step that does not go wrong. -/
def step (reads : Bool) (s : State ι) (l : Label ι) : Option (State ι) :=
  (s.apply reads l).bind Except.toOption

end State

end RefCount

end Fsfuse.Native
