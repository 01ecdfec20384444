import Fsfuse.ForStd.SharedLock
import Fsfuse.Native.Indexnodes

/-!
# The shared list of indexnodes, object by object

`src/indexnodes/indexnodes.c` and `indexnodes_list.c` at the grain of their accesses to
list objects: reading `ins->list`, traversing a list, building one, deleting one, storing
one in `ins->list`. Lists are identified by the order in which they were made. Every
deletion is recorded, and so is every traversal of, or addition to, a list that has been
deleted.
-/

namespace Fsfuse.Native.IndexnodesLists

/-- What `new_indexnode_event` has been told, its protocol parsed. -/
structure Heard where
  host : List UInt8
  port : List UInt8
  version : List UInt8
  id : List UInt8
deriving Repr, DecidableEq

/-- Where a thread is. The first seven are in `indexnodes_get`, the others in
    `new_indexnode_event`. -/
inductive Phase
  | idle
  /-- about to read `ins->list`, to filter it -/
  | rlocked
  /-- about to traverse a list, building the filtered one -/
  | filtering (orig : Nat)
  /-- about to delete the old list -/
  | filtered (orig ret : Nat)
  /-- about to store the filtered list in `ins->list` -/
  | deleted (ret : Nat)
  /-- about to read `ins->list`, to copy it -/
  | stored
  /-- about to traverse a list, building the copy -/
  | copying (orig : Nat)
  /-- about to unlock and return the copy -/
  | copied (ret : Nat)
  /-- about to traverse a list, searching it for the indexnode -/
  | searching (list : Nat) (heard : Heard)
  /-- about to note that the indexnode has been seen -/
  | found (in_ : Nat)
  /-- about to lock -/
  | made (new : Indexnode)
  /-- about to read `ins->list`, to add to it -/
  | wlocked (new : Indexnode)
  /-- about to add to a list -/
  | adding (list : Nat) (new : Indexnode)
  /-- about to unlock -/
  | added
deriving Repr, DecidableEq

/-- `struct _indexnodes_t`, the lists ever made, and what has been done to them. -/
structure State (ι : Type) where
  /-- the indexnodes ever made -/
  store : List Indexnode
  /-- the contents of each list -/
  lists : List (List Nat)
  /-- `ins->list` -/
  list : Nat
  lock : SharedLock ι
  phase : ι → Phase
  /-- the lists deleted, once for each time -/
  deleted : List Nat
  /-- the lists used after they had been deleted, once for each time -/
  misused : List Nat

/-- A step of a thread. -/
inductive Label (ι : Type)
  | rlock (t : ι)
  | readToFilter (t : ι)
  | filter (t : ι) (now timeout : Int)
  | delete (t : ι)
  | store (t : ι)
  | readToCopy (t : ι)
  | copy (t : ι)
  | runlock (t : ι)
  | readToSearch (t : ι) (host port fs2protocol id : List UInt8)
  | search (t : ι) (now : Int)
  | seen (t : ι) (now : Int)
  | wlock (t : ι)
  | readToAdd (t : ι)
  | add (t : ι)
  | wunlock (t : ι)
deriving Repr, DecidableEq

namespace State

variable {ι : Type} [DecidableEq ι]

/-- `indexnodes_new`: one list, which is empty. -/
def new : State ι where
  store := []
  lists := [[]]
  list := 0
  lock := .free
  phase := fun _ => .idle
  deleted := []
  misused := []

/-- The thread moves on. -/
def goto (s : State ι) (t : ι) (phase : Phase) : State ι :=
  { s with phase := Function.update s.phase t phase }

/-- A traversal of, or an addition to, a list. -/
def use (s : State ι) (list : Nat) : State ι :=
  if list ∈ s.deleted then { s with misused := s.misused ++ [list] } else s

/-- The contents of a list. -/
def contents (s : State ι) (list : Nat) : List Nat := s.lists.getD list []

/-- A new list. -/
def make (s : State ι) (contents : List Nat) : State ι :=
  { s with lists := s.lists ++ [contents] }

/-- `indexnodes_list_add` of a new indexnode to a list. -/
def addTo (s : State ι) (list : Nat) (new : Indexnode) : State ι :=
  { s with
    store := s.store ++ [new]
    lists := s.lists.modify list (IndexnodesList.add · s.store.length) }

/-- `indexnodes_list_find`, and `indexnode_new` if it finds nothing. Nothing happens once
    the daemon has been stopped by a fault. -/
def search (s : State ι) (t : ι) (now : Int) (list : Nat) (heard : Heard) : Option (State ι) :=
  match IndexnodesList.find s.store (s.contents list) heard.id with
  | some in_ => some (s.goto t (.found in_))
  | none =>
    match Indexnode.indexnodeNew now heard.host heard.port heard.version heard.id with
    | .ok (some new) => some (s.goto t (.made new))
    | .ok none => some (s.goto t .idle)
    | .error _ => none

/-- One step of one thread. -/
def step (s : State ι) : Label ι → Option (State ι)
  | .rlock t => match s.phase t with
    | .idle => (s.lock.rlock t).map fun lock => { s with lock := lock }.goto t .rlocked
    | _ => none
  | .readToFilter t => match s.phase t with
    | .rlocked => some (s.goto t (.filtering s.list))
    | _ => none
  | .filter t now timeout => match s.phase t with
    | .filtering orig =>
      -- `orig` may have been deleted since it was read
      let ret := IndexnodesList.removeExpired now timeout s.store (s.contents orig)
      some (((s.use orig).make ret).goto t (.filtered orig s.lists.length))
    | _ => none
  | .delete t => match s.phase t with
    -- `orig` is deleted while `ins->list` still points to it
    | .filtered orig ret => some ({ s with deleted := s.deleted ++ [orig] }.goto t (.deleted ret))
    | _ => none
  -- only now does `ins->list` leave the list that was deleted
  | .store t => match s.phase t with
    | .deleted ret => some ({ s with list := ret }.goto t .stored)
    | _ => none
  | .readToCopy t => match s.phase t with
    -- not necessarily the list this thread has just stored
    | .stored => some (s.goto t (.copying s.list))
    | _ => none
  | .copy t => match s.phase t with
    | .copying orig =>
      let ret := IndexnodesList.copy (s.contents orig)
      some (((s.use orig).make ret).goto t (.copied s.lists.length))
    | _ => none
  | .runlock t => match s.phase t with
    | .copied _ => some ({ s with lock := s.lock.runlock t }.goto t .idle)
    | _ => none
  | .readToSearch t host port fs2protocol id => match s.phase t with
    | .idle => match Indexnodes.parseFs2protocol fs2protocol with
      | .ok (some version) => some (s.goto t (.searching s.list ⟨host, port, version, id⟩))
      | .ok none | .error _ => none
    | _ => none
  | .search t now => match s.phase t with
    -- without a lock, and on the list as it was when `ins->list` was read
    | .searching list heard => (s.use list).search t now list heard
    | _ => none
  | .seen t now => match s.phase t with
    | .found in_ =>
      some ({ s with store := s.store.modify in_ fun i => { i with lastSeen := now } }.goto t .idle)
    | _ => none
  | .wlock t => match s.phase t with
    | .made new => (s.lock.wlock t).map fun lock => { s with lock := lock }.goto t (.wlocked new)
    | _ => none
  | .readToAdd t => match s.phase t with
    | .wlocked new => some (s.goto t (.adding s.list new))
    | _ => none
  | .add t => match s.phase t with
    | .adding list new => some (((s.use list).addTo list new).goto t .added)
    | _ => none
  | .wunlock t => match s.phase t with
    | .added => some ({ s with lock := s.lock.wunlock }.goto t .idle)
    | _ => none

end State

end Fsfuse.Native.IndexnodesLists
