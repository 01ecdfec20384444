import Fsfuse.Native.Alternatives

/-!
# The references to an indexnode

`src/nativefs/direntry.c`, `listing.c` and `listing_list.c`, `src/peerstats.c` and
`src/indexnodes/indexnode.c` as far as they copy and delete an indexnode, and the listings
that refer to it.

A listing goes on under its name when it is made larger and becomes a direntry. The direntries
that are asked for their children may be others too, and have names of their own.
-/

namespace Fsfuse.Native

/-- The reference count of an indexnode, the listings that refer to it, and which direntries have
    been asked for their children. -/
structure IndexnodeRefs where
  refCount : UInt32
  heap : ListingHeap
  lookedForChildren : Nat → Bool

namespace IndexnodeRefs

/-! ### Copies -/

/-- `indexnode_copy`. -/
def indexnodeCopy (s : IndexnodeRefs) : Except Fault IndexnodeRefs :=
  return { s with refCount := ← refCountInc (some s.refCount) }

/-- `listing_list_delete`. What `listing_teardown` frees at the end are strings, so the copies of
    the indexnode stay. -/
def listingListDelete (s : IndexnodeRefs) (lis : ListingList) : Except Fault IndexnodeRefs :=
  return { s with heap := ← s.heap.listDelete lis }

/-- The copies that the listings of some entries keep. -/
def entriesCopied (s : IndexnodeRefs) (founds : List Found) : Except Fault IndexnodeRefs :=
  founds.foldlM (fun s _ => s.indexnodeCopy) s

/-! ### The children of a direntry -/

/-- The body of the loop in `direntries_from_listing_list`. -/
def direntryFromListing (lis : ListingList) (h : ListingHeap) (i : Nat) :
    Except Fault ListingHeap := do
  let (h, li) ← h.getItem lis i
  -- `inode_map_add`
  let h ← h.listingCopy li
  h.listingDelete li

/-- `direntries_from_listing_list`. -/
def direntriesFromListingList (s : IndexnodeRefs) (lis : ListingList) :
    Except Fault IndexnodeRefs :=
  return { s with heap := ← (List.range lis.length).foldlM (direntryFromListing lis) s.heap }

/-- `direntry_ensure_children`, with what `indexnode_tryget_listing` returns and the entries it
    finds. The indexnode this is given is not deleted by it. The copies that are held of the
    direntry's parents for its path have been given back by then. -/
def ensureChildren (s : IndexnodeRefs) (de : Nat) (rc : Int) (founds : List Found) :
    Except Fault (IndexnodeRefs × Nat) :=
  if s.lookedForChildren de then .ok (s, eio)
  else do
    let s ← s.indexnodeCopy
    let s ← s.entriesCopied founds
    let (heap, lis) ← founds.foldlM entryFound (s.heap, ListingList.new 0)
    let s := { s with heap }
    let looked := Function.update s.lookedForChildren de true
    if rc ≠ 0 then
      let s ← s.direntriesFromListingList lis
      let s ← s.listingListDelete lis
      return ({ s with lookedForChildren := looked }, 0)
    -- the list of listings is not deleted here
    else return ({ s with lookedForChildren := looked }, eio)

/-! ### Alternatives -/

/-- `listing_tryget_best_alternative`, with what `indexnode_tryget_alternatives` returns and the
    entries it finds. The indexnode this is given is not deleted by it either. -/
def trygetBestAlternative (debug : Bool) (s : IndexnodeRefs) (rc : Int) (founds : List Found)
    (favs blocks : Option (List (List UInt8))) (random : Nat) :
    Except Fault (IndexnodeRefs × Int × Option Nat) := do
  -- one copy for the context, and one for the call
  let s ← s.indexnodeCopy
  let s ← s.indexnodeCopy
  let s ← s.entriesCopied founds
  let (heap, best) ← bestOf debug favs blocks s.heap founds random
  return ({ s with heap }, rc, best)

/-! ### Runs -/

/-- The calls on an indexnode. -/
inductive Call
  | ensureChildren (de : Nat) (rc : Int) (founds : List Found)
  | trygetBestAlternative (rc : Int) (founds : List Found)
      (favs blocks : Option (List (List UInt8))) (random : Nat)

/-- A call that does not go wrong. -/
def step (debug : Bool) (s : IndexnodeRefs) : Call → Option IndexnodeRefs
  | .ensureChildren de rc founds => (s.ensureChildren de rc founds).toOption.map (·.1)
  | .trygetBestAlternative rc founds favs blocks random =>
    (trygetBestAlternative debug s rc founds favs blocks random).toOption.map (·.1)

/-- An indexnode that no call has been made on. -/
def new (refCount : UInt32) (lookedForChildren : Nat → Bool) : IndexnodeRefs :=
  ⟨refCount, .empty, lookedForChildren⟩

end IndexnodeRefs

end Fsfuse.Native
