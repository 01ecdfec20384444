import Fsfuse.Native.Indexnodes

/-!
# References to the indexnodes on lists

`src/indexnodes/indexnodes_list.c` and `indexnodes_iterator.c` by the references they take and
drop, with `indexnode_copy` and `indexnode_delete` of `indexnode.c` and the counts of
`ref_count.c`, and a client that makes one call after the other. Lists and iterators are named
by the order in which they were made.
-/

namespace Fsfuse.Native

/-! ### Reference counts -/

/-- The counts of the indexnodes that have not been freed. -/
abbrev RefCounts := Nat → Option UInt32

namespace RefCounts

/-- An access to an indexnode. -/
def access (refs : RefCounts) (in_ : Nat) : Except Fault UInt32 :=
  (refs in_).elim (.error .useAfterFree) .ok

/-- `indexnode_copy`. -/
def indexnodeCopy (refs : RefCounts) (in_ : Nat) : Except Fault RefCounts := do
  let count ← refs.access in_
  if count = 0 then throw .assertion
  return Function.update refs in_ (some (count + 1))

/-- `indexnode_delete`. -/
def indexnodeDelete (refs : RefCounts) (in_ : Nat) : Except Fault RefCounts := do
  let count ← refs.access in_
  if count = 0 then throw .assertion
  return Function.update refs in_ (if count - 1 = 0 then none else some (count - 1))

/-! ### Lists -/

/-- `indexnodes_list_find`. -/
def listFind (refs : RefCounts) (store : List Indexnode) (id : List UInt8) :
    List Nat → Except Fault (RefCounts × Option Nat)
  | [] => .ok (refs, none)
  | in_ :: ins => do
    let _ ← refs.access in_
    if IndexnodesList.equals store in_ id then
      let refs ← refs.indexnodeCopy in_
      return (refs, some in_)
    else refs.listFind store id ins

/-- The loops of `indexnodes_list_copy` and `indexnodes_list_remove_expired`, which copy what is
    to be on the new list. -/
def listCopyIf (p : Nat → Bool) (refs : RefCounts) (orig : List Nat) :
    Except Fault (RefCounts × List Nat) :=
  orig.foldlM
    (fun (refs, ret) in_ => do
      let _ ← refs.access in_
      if p in_ then
        let refs ← refs.indexnodeCopy in_
        return (refs, IndexnodesList.add ret in_)
      else return (refs, ret))
    (refs, [])

/-- `indexnodes_list_copy`. -/
def listCopy (refs : RefCounts) (orig : List Nat) : Except Fault (RefCounts × List Nat) :=
  refs.listCopyIf (fun _ => true) orig

/-- `indexnodes_list_delete`. -/
def listDelete (refs : RefCounts) (ins : List Nat) : Except Fault RefCounts :=
  ins.foldlM indexnodeDelete refs

/-- `indexnode_still_valid`. -/
def stillValid (store : List Indexnode) (now timeout : Int) (in_ : Nat) : Bool :=
  (store[in_]?).any (Indexnode.stillValid now timeout)

/-- `indexnodes_list_remove_expired`. -/
def listRemoveExpired (refs : RefCounts) (store : List Indexnode) (now timeout : Int)
    (orig : List Nat) : Except Fault (RefCounts × List Nat) := do
  let (refs, ret) ← refs.listCopyIf (stillValid store now timeout) orig
  let refs ← refs.listDelete orig
  return (refs, ret)

end RefCounts

/-! ### A client -/

/-- The indexnodes ever made and their counts, the lists and iterators that have not been
    deleted, and how many references to each indexnode the client has. An iterator is at an item
    of a list, and has so many to go. -/
structure ListsClient where
  store : List Indexnode
  refs : RefCounts
  lists : List (Option (List Nat))
  iterators : List (Option (Nat × Nat))
  handles : Nat → Nat

namespace ListsClient

/-- The calls of a client. -/
inductive Label
  | indexnodeNew (new : Indexnode)
  | indexnodeCopy (in_ : Nat)
  | indexnodeDelete (in_ : Nat)
  | indexnodeSeen (in_ : Nat) (now : Int)
  | new
  | add (list in_ : Nat)
  | find (list : Nat) (id : List UInt8)
  | copy (list : Nat)
  | removeExpired (list : Nat) (now timeout : Int)
  | delete (list : Nat)
  | iteratorBegin (list : Nat)
  | iteratorCurrent (iter : Nat)
  | iteratorNext (iter : Nat)
  | iteratorDelete (iter : Nat)
deriving Repr, DecidableEq

/-- Nothing has been made. -/
def start : ListsClient where
  store := []
  refs _ := none
  lists := []
  iterators := []
  handles _ := 0

/-- The items of a list. -/
def items (s : ListsClient) (list : Nat) : Except Fault (List Nat) :=
  (s.lists[list]?).join.elim (.error .useAfterFree) .ok

/-- An iterator. -/
def iterator (s : ListsClient) (iter : Nat) : Except Fault (Nat × Nat) :=
  (s.iterators[iter]?).join.elim (.error .useAfterFree) .ok

/-- The item an iterator is at. Items are added before it only. -/
def currentItem (s : ListsClient) (iter : Nat) : Except Fault Nat := do
  let (list, left) ← s.iterator iter
  let ins ← s.items list
  (ins[ins.length - left]?).elim (.error .nullPointer) .ok

/-- The references of the client, with one more to an indexnode. -/
def take (s : ListsClient) (in_ : Nat) : Nat → Nat :=
  Function.update s.handles in_ (s.handles in_ + 1)

/-- Its references, with one less. -/
def give (s : ListsClient) (in_ : Nat) : Nat → Nat :=
  Function.update s.handles in_ (s.handles in_ - 1)

/-- One call. -/
def apply (s : ListsClient) : Label → Except Fault ListsClient
  | .indexnodeNew new =>
    let in_ := s.store.length
    .ok { s with
      store := s.store ++ [new]
      refs := Function.update s.refs in_ (some 1)
      handles := s.take in_ }
  | .indexnodeCopy in_ => do
    let refs ← s.refs.indexnodeCopy in_
    return { s with refs, handles := s.take in_ }
  | .indexnodeDelete in_ => do
    let refs ← s.refs.indexnodeDelete in_
    return { s with refs, handles := s.give in_ }
  | .indexnodeSeen in_ now => do
    let _ ← s.refs.access in_
    return { s with store := s.store.modify in_ fun i => { i with lastSeen := now } }
  | .new => .ok { s with lists := s.lists ++ [some []] }
  | .add list in_ => do
    -- the item gets the reference of the client
    let ins ← s.items list
    return { s with
      lists := s.lists.set list (some (IndexnodesList.add ins in_))
      handles := s.give in_ }
  | .find list id => do
    let ins ← s.items list
    let (refs, found) ← s.refs.listFind s.store id ins
    return { s with refs, handles := found.elim s.handles s.take }
  | .copy list => do
    let ins ← s.items list
    let (refs, ret) ← s.refs.listCopy ins
    return { s with refs, lists := s.lists ++ [some ret] }
  | .removeExpired list now timeout => do
    let ins ← s.items list
    let (refs, ret) ← s.refs.listRemoveExpired s.store now timeout ins
    return { s with refs, lists := s.lists.set list none ++ [some ret] }
  | .delete list => do
    let ins ← s.items list
    let refs ← s.refs.listDelete ins
    return { s with refs, lists := s.lists.set list none }
  | .iteratorBegin list => do
    let ins ← s.items list
    return { s with iterators := s.iterators ++ [some (list, ins.length)] }
  | .iteratorCurrent iter => do
    let in_ ← s.currentItem iter
    let refs ← s.refs.indexnodeCopy in_
    return { s with refs, handles := s.take in_ }
  | .iteratorNext iter => do
    let (list, left) ← s.iterator iter
    let _ ← s.currentItem iter
    return { s with iterators := s.iterators.set iter none ++ [some (list, left - 1)] }
  | .iteratorDelete iter => do
    let _ ← s.iterator iter
    return { s with iterators := s.iterators.set iter none }

/-- The client only uses what it has made and not deleted, hands over and gives back references
    that it has, and asks an iterator only for an item that is there. -/
def Legal (s : ListsClient) : Label → Prop
  | .indexnodeNew _ | .new => True
  | .indexnodeCopy in_ | .indexnodeDelete in_ | .indexnodeSeen in_ _ => s.handles in_ ≠ 0
  | .add list in_ => (s.lists[list]?).join.isSome ∧ s.handles in_ ≠ 0
  | .find list _ | .copy list | .removeExpired list _ _ | .delete list | .iteratorBegin list =>
    (s.lists[list]?).join.isSome
  | .iteratorCurrent iter | .iteratorNext iter =>
    (s.iterators[iter]?).join.any fun (list, left) =>
      (s.lists[list]?).join.isSome ∧ left ≠ 0
  | .iteratorDelete iter => (s.iterators[iter]?).join.isSome

instance (s : ListsClient) : DecidablePred s.Legal
  | .indexnodeNew _ | .new => isTrue trivial
  | .indexnodeCopy _ | .indexnodeDelete _ | .indexnodeSeen _ _ =>
    inferInstanceAs (Decidable (_ ≠ _))
  | .add _ _ => inferInstanceAs (Decidable (_ ∧ _))
  | .find _ _ | .copy _ | .removeExpired _ _ _ | .delete _ | .iteratorBegin _
  | .iteratorCurrent _ | .iteratorNext _ | .iteratorDelete _ =>
    inferInstanceAs (Decidable (_ = true))

/-- A call of a client that does not go wrong. -/
def step (s : ListsClient) (l : Label) : Option ListsClient :=
  if s.Legal l then (s.apply l).toOption else none

end ListsClient

end Fsfuse.Native
