import Fsfuse.ForStd.OwnedThreads

/-!
# The life of the indexnodes

`indexnodes_new` and `indexnodes_delete` of `src/indexnodes/indexnodes.c` with what they call:
`indexnodes_statics_manager.c`, which starts an alarm for each indexnode in the configuration,
`alarm_simple.c` and `indexnodes_listener.c`. Each alarm has a thread, which calls back when its
`select` times out, and so has the listener, which calls back for the adverts it receives; the
callbacks use the lock of the indexnodes. All of these threads are told to stop through a pipe each.

What is allocated is named, and a function is the list of its actions. What the callbacks do is
the subject of other modules; here it counts what they use. The list of the indexnodes and what is
on it are left out: `indexnodes_get` frees the list and stores another, so it has no one life.
-/

namespace Fsfuse.Native.IndexnodesLifetime

open OwnedThreads (Action Threads)

/-- What is allocated on the way. An alarm comes with its pipe, the listener with the write end of
    its own and the arguments of its thread with the read end. -/
inductive Resource
  | indexnodes
  | lock
  | staticsManager
  | protoIndexnode (i : Nat)
  | pair (i : Nat)
  | alarm (i : Nat)
  | listener
  | threadArgs
deriving Repr, DecidableEq

/-- The threads: one for each alarm, and the listener's. -/
inductive Thread
  | alarm (i : Nat)
  | listener
deriving Repr, DecidableEq

/-- What the threads use, and what they do when `select` returns. -/
def threads : Threads Resource Thread where
  uses
    -- `alarm_thread_main` calls `ping_indexnode`, and that `new_indexnode_event`
    | .alarm i => {.alarm i, .pair i, .protoIndexnode i, .staticsManager, .indexnodes, .lock}
    | .listener => {.threadArgs, .indexnodes, .lock}
  callbacks
    -- the callback on a timeout, when nothing is readable
    | .alarm _, control, work => work = if control then 0 else 1
    -- one for each of the two sockets that are readable, or neither
    | .listener, control, work => work ≤ 2 ∧ (control ∨ 0 < work)

/-- `alarm_new`. -/
def alarmNew (i : Nat) : List (Action Resource Thread) := [.alloc (.alarm i), .spawn (.alarm i)]

/-- `alarm_delete`. -/
def alarmDelete (i : Nat) : List (Action Resource Thread) :=
  [.use (.alarm i), .write (.alarm i) .stop, .join (.alarm i), .free (.alarm i)]

/-- The loop of `load_indexnodes_from_config`, from the `i`th entries on, with the alarms added so
    far. It ends with the first array that does. -/
def loadIndexnodesFromConfig (i : Nat) (alarms : List Nat) :
    List String → List String → List (Action Resource Thread) × List Nat
  | _ :: hosts, _ :: ports =>
    let actions := [.alloc (.protoIndexnode i), .alloc (.pair i)] ++ alarmNew i ++
      [.use .staticsManager]
    -- `LINKED_LIST_ADD` puts the alarm at the head
    let (rest, alarms) := loadIndexnodesFromConfig (i + 1) (i :: alarms) hosts ports
    (actions ++ rest, alarms)
  | _, _ => ([], alarms)

/-- `indexnodes_statics_manager_new`, and the alarms it leaves behind. -/
def staticsManagerNew (hosts ports : List String) : List (Action Resource Thread) × List Nat :=
  let (load, alarms) := loadIndexnodesFromConfig 0 [] hosts ports
  (.alloc .staticsManager :: load, alarms)

/-- `indexnodes_statics_manager_delete`: `LINKED_LIST_DELETE` goes from the head on. -/
def staticsManagerDelete (alarms : List Nat) : List (Action Resource Thread) :=
  .use .staticsManager :: alarms.flatMap alarmDelete ++ [.free .staticsManager]

/-- `indexnodes_listener_new`. -/
def listenerNew : List (Action Resource Thread) :=
  [.alloc .listener, .alloc .threadArgs, .use .listener, .spawn .listener]

/-- `indexnodes_listener_delete`. -/
def listenerDelete : List (Action Resource Thread) :=
  [.use .listener, .write .listener .stop, .join .listener, .use .threadArgs, .free .threadArgs,
    .free .listener]

/-- `indexnodes_new`. -/
def indexnodesNew (hosts ports : List String) : List (Action Resource Thread) × List Nat :=
  let (statics, alarms) := staticsManagerNew hosts ports
  ([.alloc .indexnodes, .alloc .lock] ++ statics ++ .use .indexnodes :: listenerNew ++
    [.use .indexnodes], alarms)

/-- `indexnodes_get`. -/
def indexnodesGet : List (Action Resource Thread) :=
  [.use .indexnodes, .use .lock, .use .lock]

/-- `indexnodes_delete`. -/
def indexnodesDelete (alarms : List Nat) : List (Action Resource Thread) :=
  .use .indexnodes :: listenerDelete ++ staticsManagerDelete alarms ++
    [.free .lock, .free .indexnodes]

/-- From `fsfuse_init` to `fsfuse_destroy`, with `gets` calls of `indexnodes_get` between them. -/
def life (hosts ports : List String) (gets : Nat) : List (Action Resource Thread) :=
  let (new, alarms) := indexnodesNew hosts ports
  new ++ (List.replicate gets indexnodesGet).flatten ++ indexnodesDelete alarms

end Fsfuse.Native.IndexnodesLifetime
