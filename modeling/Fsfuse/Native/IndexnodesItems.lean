import Fsfuse.ForStd.TailQueue
import Fsfuse.Native.IndexnodesListRefs

/-!
# The items of lists of indexnodes

`src/indexnodes/indexnodes_list.c` and `indexnodes_iterator.c` as they are: a list is the head of a
tail queue of `src/3rdparty/queue.h`, its items are allocated and freed one by one, and an iterator
is a pointer to an item. The client is the one of the lists by their references, which makes the
same calls.
-/

namespace Fsfuse.Native

open TailQueue (forEach forEachSafe)

/-- The lists and their `item_t`s. The data of an item is its indexnode. -/
abbrev Items := TailQueue.Memory Nat

namespace Items

/-- An access to a list. -/
def list (items : Items) (ins : Nat) : Except Fault TailQueue.Head :=
  (items.heads ins).elim (.error .useAfterFree) .ok

/-- An access to an item. -/
def item (items : Items) (item : Nat) : Except Fault (TailQueue.Elem Nat) :=
  (items.elems item).elim (.error .useAfterFree) .ok

/-- `TAILQ_NEXT`. -/
def next (items : Items) (item : Nat) : Except Fault (Option Nat) := do
  return (← items.item item).next

/-- A part of a computation that comes to an end. -/
def done {α : Type} (x : Except Fault α) : ExceptT Fault Option α := ExceptT.mk (some x)

/-- `indexnodes_list_add`. -/
def add (items : Items) (ins in_ : Nat) : Except Fault Items :=
  -- the links that `malloc` leaves are set before they are read
  let item := { data := in_, next := none, prev := .first ins }
  ((items.newElem item).insertHead ins items.elemsMade).elim (.error .useAfterFree) .ok

/-- The body of the loop of `indexnodes_list_find`. -/
def findItem (items : Items) (store : List Indexnode) (id : List UInt8) (item : Nat) :
    RefCounts × Option Nat → Except Fault (ForInStep (RefCounts × Option Nat))
  | (refs, in_) => do
    let in' := (← items.item item).data
    let _ ← refs.access in'
    if IndexnodesList.equals store in' id then
      let refs ← refs.indexnodeCopy in'
      return .done (refs, some in')
    else return .yield (refs, in_)

/-- `indexnodes_list_find`. -/
def find (items : Items) (refs : RefCounts) (store : List Indexnode) (ins : Nat) (id : List UInt8) :
    ExceptT Fault Option (RefCounts × Option Nat) := do
  let head ← done (items.list ins)
  forEach (fun _ item => items.next item) (items.findItem store id) items.elemsMade head.first
    (refs, none)

/-- The body of the loops of `indexnodes_list_copy` and `indexnodes_list_remove_expired`, which
    only differ in the items that they copy. -/
def copyItem (p : Nat → Bool) (ret item : Nat) :
    RefCounts × Items → Except Fault (ForInStep (RefCounts × Items))
  | (refs, items) => do
    let in_ := (← items.item item).data
    let _ ← refs.access in_
    if p in_ then
      let refs ← refs.indexnodeCopy in_
      let items ← items.add ret in_
      return .yield (refs, items)
    else return .yield (refs, items)

/-- `indexnodes_list_copy`, and `indexnodes_list_remove_expired` before it deletes the list. The new
    list is the last one made. -/
def copyIf (p : Nat → Bool) (items : Items) (refs : RefCounts) (orig : Nat) :
    ExceptT Fault Option (RefCounts × Items) := do
  let ret := items.headsMade
  let items : Items := items.newHead
  let head ← done (items.list orig)
  forEach (fun (_, items) item => items.next item) (copyItem p ret) items.elemsMade head.first
    (refs, items)

/-- The body of the loop of `indexnodes_list_delete`. -/
def deleteItem (item : Nat) : RefCounts × Items → Except Fault (RefCounts × Items)
  | (refs, items) => do
    let in_ := (← items.item item).data
    let refs ← refs.indexnodeDelete in_
    return (refs, items.freeElem item)

/-- `indexnodes_list_delete`. -/
def delete (items : Items) (refs : RefCounts) (ins : Nat) :
    ExceptT Fault Option (RefCounts × Items) := do
  let head ← done (items.list ins)
  let (refs, items) ← forEachSafe (fun (_, items) item => items.next item) deleteItem
    items.elemsMade head.first (refs, items)
  return (refs, items.freeHead ins)

/-- `indexnodes_list_remove_expired`. -/
def removeExpired (items : Items) (refs : RefCounts) (store : List Indexnode)
    (now timeout : Int) (orig : Nat) : ExceptT Fault Option (RefCounts × Items) := do
  let (refs, items) ← items.copyIf (RefCounts.stillValid store now timeout) refs orig
  items.delete refs orig

end Items

/-- The client, with the iterators that it has not deleted: an iterator is at an item or at the
    end, of a list that the client knows. -/
structure ItemsClient where
  store : List Indexnode
  refs : RefCounts
  items : Items
  iterators : List (Option (Nat × Option Nat))
  handles : Nat → Nat

namespace ItemsClient

open ListsClient (Label)

/-- Nothing has been made. -/
def start : ItemsClient where
  store := []
  refs _ := none
  items := .empty
  iterators := []
  handles _ := 0

/-- An iterator's `current`. -/
def current (s : ItemsClient) (iter : Nat) : Except Fault (Nat × Option Nat) :=
  (s.iterators[iter]?).join.elim (.error .useAfterFree) .ok

/-- The item an iterator is at. -/
def currentItem (s : ItemsClient) (iter : Nat) : Except Fault (Nat × TailQueue.Elem Nat) := do
  let (list, current) ← s.current iter
  let item ← current.elim (.error .nullPointer) .ok
  return (list, ← s.items.item item)

/-- The references of the client, with one more to an indexnode. -/
def take (s : ItemsClient) (in_ : Nat) : Nat → Nat :=
  Function.update s.handles in_ (s.handles in_ + 1)

/-- Its references, with one less. -/
def give (s : ItemsClient) (in_ : Nat) : Nat → Nat :=
  Function.update s.handles in_ (s.handles in_ - 1)

/-- One call. -/
def apply (s : ItemsClient) : Label → ExceptT Fault Option ItemsClient
  | .indexnodeNew new =>
    let in_ := s.store.length
    pure { s with
      store := s.store ++ [new]
      refs := Function.update s.refs in_ (some 1)
      handles := s.take in_ }
  | .indexnodeCopy in_ => do
    let refs ← Items.done (s.refs.indexnodeCopy in_)
    return { s with refs, handles := s.take in_ }
  | .indexnodeDelete in_ => do
    let refs ← Items.done (s.refs.indexnodeDelete in_)
    return { s with refs, handles := s.give in_ }
  | .indexnodeSeen in_ now => do
    let _ ← Items.done (s.refs.access in_)
    return { s with store := s.store.modify in_ fun i => { i with lastSeen := now } }
  | .new => pure { s with items := s.items.newHead }
  | .add list in_ => do
    let items ← Items.done (s.items.add list in_)
    return { s with items, handles := s.give in_ }
  | .find list id => do
    let (refs, found) ← s.items.find s.refs s.store list id
    return { s with refs, handles := found.elim s.handles s.take }
  | .copy list => do
    let (refs, items) ← s.items.copyIf (fun _ => true) s.refs list
    return { s with refs, items }
  | .removeExpired list now timeout => do
    let (refs, items) ← s.items.removeExpired s.refs s.store now timeout list
    return { s with refs, items }
  | .delete list => do
    let (refs, items) ← s.items.delete s.refs list
    return { s with refs, items }
  | .iteratorBegin list => do
    let head ← Items.done (s.items.list list)
    return { s with iterators := s.iterators ++ [some (list, head.first)] }
  | .iteratorCurrent iter => do
    let (_, item) ← Items.done (s.currentItem iter)
    let refs ← Items.done (s.refs.indexnodeCopy item.data)
    return { s with refs, handles := s.take item.data }
  | .iteratorNext iter => do
    let (list, item) ← Items.done (s.currentItem iter)
    return { s with iterators := s.iterators.set iter none ++ [some (list, item.next)] }
  | .iteratorDelete iter => do
    let _ ← Items.done (s.current iter)
    return { s with iterators := s.iterators.set iter none }

/-- What the client may call: it only uses what it has made and not deleted, hands over and gives
    back references that it has, and asks an iterator for an item only if it is not at the end. -/
def Legal (s : ItemsClient) : Label → Prop
  | .indexnodeNew _ | .new => True
  | .indexnodeCopy in_ | .indexnodeDelete in_ | .indexnodeSeen in_ _ => s.handles in_ ≠ 0
  | .add list in_ => (s.items.heads list).isSome ∧ s.handles in_ ≠ 0
  | .find list _ | .copy list | .removeExpired list _ _ | .delete list | .iteratorBegin list =>
    (s.items.heads list).isSome
  | .iteratorCurrent iter | .iteratorNext iter =>
    (s.iterators[iter]?).join.any fun (list, current) =>
      (s.items.heads list).isSome ∧ current ≠ none
  | .iteratorDelete iter => (s.iterators[iter]?).join.isSome

instance (s : ItemsClient) : DecidablePred s.Legal
  | .indexnodeNew _ | .new => isTrue trivial
  | .indexnodeCopy _ | .indexnodeDelete _ | .indexnodeSeen _ _ =>
    inferInstanceAs (Decidable (_ ≠ _))
  | .add _ _ => inferInstanceAs (Decidable (_ ∧ _))
  | .find _ _ | .copy _ | .removeExpired _ _ _ | .delete _ | .iteratorBegin _
  | .iteratorCurrent _ | .iteratorNext _ | .iteratorDelete _ =>
    inferInstanceAs (Decidable (_ = true))

/-- A call of a client that comes back without a fault. -/
def step (s : ItemsClient) (l : Label) : Option ItemsClient :=
  if s.Legal l then (s.apply l).run.bind Except.toOption else none

end ItemsClient

end Fsfuse.Native
