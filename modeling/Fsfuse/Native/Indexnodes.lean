import Fsfuse.Native.CString

/-!
# Indexnodes

`src/indexnodes/proto_indexnode.c`, `indexnode.c`, `indexnodes_list.c` and the event
handler of `indexnodes.c`: how an indexnode is made from what is known of it, the lists
of indexnodes, and what happens when one has been heard of.

Indexnodes are objects shared between lists, so a list holds the positions of its
indexnodes in a store of all those ever made. Time is a parameter.
-/

namespace Fsfuse.Native

/-- `struct _indexnode_t`. -/
structure Indexnode where
  host : List UInt8
  port : List UInt8
  version : List UInt8
  id : List UInt8
  lastSeen : Int
deriving Repr, DecidableEq

namespace Indexnode

/-- `PROTO_MINIMUM`. -/
def protoMinimum : List UInt8 := ascii "0.5"

/-- `PROTO_MAXIMUM`. -/
def protoMaximum : List UInt8 := ascii "0.13"

/-- `check_version`. -/
def checkVersion (version : List UInt8) : Bool :=
  -- `||` where a range would have `&&`
  compareDottedVersion protoMinimum version < 0 || compareDottedVersion version protoMaximum < 0

/-- The assertions of `proto_indexnode_init`. -/
def protoIndexnodeInit (host port : List UInt8) : Except Fault Unit :=
  if host = [] ∨ port = [] then .error .assertion else .ok ()

/-- `indexnode_new`, at the time `now`. -/
def indexnodeNew (now : Int) (host port version id : List UInt8) :
    Except Fault (Option Indexnode) :=
  if version = [] ∨ id = [] then .error .assertion
  else if checkVersion version then do
    protoIndexnodeInit host port
    return some ⟨host, port, version, id, now⟩
  else return none

/-- `indexnode_still_valid`, with `config_indexnode_timeout`. -/
def stillValid (now timeout : Int) (in_ : Indexnode) : Bool :=
  now - in_.lastSeen < timeout

end Indexnode

/-! ### Lists of indexnodes -/

namespace IndexnodesList

/-- `indexnodes_list_add`. -/
def add (ins : List Nat) (in_ : Nat) : List Nat := in_ :: ins

/-- `indexnode_equals`, on the indexnode in a position of the store. -/
def equals (store : List Indexnode) (in_ : Nat) (id : List UInt8) : Bool :=
  (store[in_]?).any (·.id == id)

/-- `indexnodes_list_find`. -/
def find (store : List Indexnode) (ins : List Nat) (id : List UInt8) : Option Nat :=
  ins.find? (equals store · id)

/-- `indexnodes_list_copy`. -/
def copy (orig : List Nat) : List Nat := orig.foldl add []

/-- The list that `indexnodes_list_remove_expired` makes. -/
def removeExpired (now timeout : Int) (store : List Indexnode) (orig : List Nat) : List Nat :=
  orig.foldl
    (fun ret in_ =>
      if (store[in_]?).any (Indexnode.stillValid now timeout) then add ret in_ else ret)
    []

end IndexnodesList

/-! ### Hearing of an indexnode -/

/-- The list of `struct _indexnodes_t`, and the store its indexnodes are in. -/
structure Indexnodes where
  store : List Indexnode
  list : List Nat
deriving Repr, DecidableEq

namespace Indexnodes

/-- `indexnode_seen` on the indexnode in a position of the store. -/
def seen (ins : Indexnodes) (now : Int) (in_ : Nat) : Indexnodes :=
  { ins with store := ins.store.modify in_ fun i => { i with lastSeen := now } }

/-- `indexnodes_list_add` of a new indexnode. -/
def addNew (ins : Indexnodes) (new : Indexnode) : Indexnodes where
  store := ins.store ++ [new]
  list := IndexnodesList.add ins.list ins.store.length

/-- `parse_fs2protocol`: the version, or `none` where it returns 1. Its argument is freed
    in both cases. -/
def parseFs2protocol (fs2protocol : List UInt8) : Except Fault (Option (List UInt8)) :=
  match List.dropPrefix? fs2protocol (ascii "fs2protocol-") with
  | some rest =>
    -- `sscanf` has matched the prefix and must have converted the word too
    if firstWord rest = [] then .error .assertion else .ok (some (firstWord rest))
  -- the return of 1
  | none => .ok none

/-- `new_indexnode_event`, with nothing else running. When `parse_fs2protocol` has
    returned 1, what it has freed is freed again. -/
def newIndexnodeEvent (ins : Indexnodes) (now : Int) (host port fs2protocol id : List UInt8) :
    Except Fault Indexnodes := do
  match ← parseFs2protocol fs2protocol with
  | some version =>
    match IndexnodesList.find ins.store ins.list id with
    -- already known: only `last_seen` changes
    | some found => return ins.seen now found
    | none =>
      match ← Indexnode.indexnodeNew now host port version id with
      | some new => return ins.addNew new
      | none => return ins
  | none => .error .doubleFree

end Indexnodes

end Fsfuse.Native
