import Fsfuse.Native.Alternatives
import Fsfuse.Native.Downloader
import Fsfuse.Native.InodeMap

/-!
# Direntries in memory

`direntries_from_listing_list` and `direntry_from_listing` of `src/nativefs/direntry.c`, with
the memory that a listing is given when it becomes a direntry. Here a direntry is named by the
listing it has been.
-/

namespace Fsfuse.Native

/-! ### Memory -/

/-- `sizeof(listing_t)`. -/
def sizeofListing : Nat := 72

/-- `sizeof(direntry_t)`. -/
def sizeofDirentry : Nat := 112

/-- Where `children` is in a direntry, and its size. -/
def childrenAt : Nat := 96

def sizeofChildren : Nat := 8

/-- Where `looked_for_children` is, and its size. -/
def lookedForChildrenAt : Nat := 104

def sizeofLookedForChildren : Nat := 4

/-- What there is when `realloc` returns the block of a direntry: any memory, which other parts
    of the daemon have used before. -/
structure Room where
  /-- what it returns -/
  de : Nat
  mem : Memory
  /-- the bytes that belong to anything but the block -/
  inUse : Nat → Bool

/-- `bzero`. -/
def Room.bzero (room : Room) (s n : Nat) : Except Fault Memory :=
  if (List.range n).any fun k => room.inUse (s + k) then .error .outOfBounds
  else .ok fun a => if s ≤ a ∧ a < s + n then 0 else room.mem a

/-- Where the listings are, and what `realloc` makes of them. -/
structure Allocator where
  address : Nat → Nat
  room : Nat → Room

/-! ### Direntries -/

/-- A direntry: the root, or what has been a listing. -/
inductive DirentryId
  | root
  | ofListing (li : Nat)
deriving Repr, DecidableEq

/-- `struct _direntry_t` behind its listing. The last two fields are the bytes they have. -/
structure DirentryT where
  inode : Nat
  next : Option Nat
  parent : Option DirentryId
  children : List UInt8
  lookedForChildren : List UInt8
deriving Repr, DecidableEq

/-- The listings, the direntries some of them have become, and the inode map. -/
structure DirentryHeap where
  listings : ListingHeap
  direntries : Nat → Option DirentryT
  map : InodeMap DirentryId

namespace DirentryHeap

/-- `direntry_from_listing`. -/
def direntryFromListing (s : DirentryHeap) (li : Nat) (room : Room) :
    Except Fault DirentryHeap := do
  let de := room.de
  -- the sum with a pointer to a direntry counts direntries
  let mem ← room.bzero (de + sizeofListing * sizeofDirentry) (sizeofDirentry - sizeofListing)
  let (map, inode) := s.map.inodeNextStep
  let map ← map.inodeMapAdd inode (.ofListing li)
  -- the copy in the map
  let listings ← s.listings.listingCopy li
  -- the caller writes the two links
  let direntry : DirentryT :=
    { inode, next := none, parent := none
      children := mem.read (de + childrenAt) sizeofChildren
      lookedForChildren := mem.read (de + lookedForChildrenAt) sizeofLookedForChildren }
  return { listings, map, direntries := Function.update s.direntries li (some direntry) }

/-- `de->parent = parent` and `de->next = prev`. -/
def link (s : DirentryHeap) (li : Nat) (parent : DirentryId) (prev : Option Nat) : DirentryHeap :=
  { s with
    direntries :=
      Function.update s.direntries li
        ((s.direntries li).map fun de => { de with parent := some parent, next := prev }) }

/-- The body of the loop in `direntries_from_listing_list`. -/
def addDirentry (alloc : Allocator) (lis : ListingList) (parent : DirentryId)
    (s : DirentryHeap × Option Nat) (i : Nat) : Except Fault (DirentryHeap × Option Nat) := do
  let (s, prev) := s
  let (listings, li) ← s.listings.getItem lis i
  let s ← { s with listings }.direntryFromListing li (alloc.room li)
  -- `listing_delete` goes by the old pointer
  if (alloc.room li).de ≠ alloc.address li then throw .useAfterFree
  let listings ← s.listings.listingDelete li
  return ({ s with listings }.link li parent prev, some li)

/-- `direntries_from_listing_list`, with the first of the chain. -/
def direntriesFromListingList (alloc : Allocator) (s : DirentryHeap) (lis : ListingList)
    (parent : DirentryId) : Except Fault (DirentryHeap × Option Nat) :=
  (List.range lis.length).foldlM (addDirentry alloc lis parent) (s, none)

/-- What `direntry_ensure_children` makes of the entries it is told of. -/
def childrenFromEntries (alloc : Allocator) (s : DirentryHeap) (founds : List Found)
    (parent : DirentryId) : Except Fault (DirentryHeap × Option Nat) := do
  let (listings, lis) ← founds.foldlM entryFound (s.listings, ListingList.new 0)
  direntriesFromListingList alloc { s with listings } lis parent

end DirentryHeap

end Fsfuse.Native
