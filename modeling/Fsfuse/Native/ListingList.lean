import Fsfuse.Native.Listing

/-!
# Lists of listings

`src/nativefs/listing_list.c`: arrays of listings, in which a slot may be `NULL`, and the
copies that are counted of each listing. A listing is named by how many have been made before
it.
-/

namespace Fsfuse.Native

/-- The listings that have been made. One with a count of 0 has been freed. -/
structure ListingHeap where
  made : Nat
  listings : Nat → ListingT

/-- `struct _listing_list_t`: its slots, of which there are `count`. -/
abbrev ListingList := List (Option Nat)

/-! ### Lists -/

namespace ListingList

/-- `listing_list_new`. -/
def new (count : Nat) : ListingList := List.replicate count none

/-- `listing_list_resize`. -/
def resize (lis : ListingList) (newCount : Nat) : ListingList :=
  lis.take newCount ++ List.replicate (newCount - lis.length) none

end ListingList

/-! ### Copies -/

namespace ListingHeap

/-- No listing has been made. -/
def empty : ListingHeap where
  made := 0
  listings _ :=
    { refCount := 0, name := none, hash := none, type := .file, size := 0, linkCount := 0
      href := none, client := none }

/-- The heap with another count of a listing. -/
def setRefCount (h : ListingHeap) (li refCount : Nat) : ListingHeap :=
  { h with listings := Function.update h.listings li { h.listings li with refCount } }

/-- `listing_copy`. -/
def listingCopy (h : ListingHeap) (li : Nat) : Except Fault ListingHeap :=
  if (h.listings li).refCount = 0 then .error .useAfterFree
  else .ok (h.setRefCount li ((h.listings li).refCount + 1))

/-- `listing_delete`. -/
def listingDelete (h : ListingHeap) (li : Nat) : Except Fault ListingHeap :=
  if (h.listings li).refCount = 0 then .error .useAfterFree
  else .ok (h.setRefCount li ((h.listings li).refCount - 1))

/-- A new listing. -/
def make (h : ListingHeap) (li : ListingT) : ListingHeap × Nat :=
  (⟨h.made + 1, Function.update h.listings h.made li⟩, h.made)

/-- `listing_list_set_item`. -/
def setItem (h : ListingHeap) (lis : ListingList) (item li : Nat) :
    Except Fault (ListingHeap × ListingList) := do
  let h ← h.listingCopy li
  if item < lis.length then return (h, lis.set item (some li)) else throw .outOfBounds

/-- `listing_list_get_item`. -/
def getItem (h : ListingHeap) (lis : ListingList) (item : Nat) :
    Except Fault (ListingHeap × Nat) :=
  match lis[item]? with
  | none => .error .outOfBounds
  | some none => .error .nullPointer
  | some (some li) => (h.listingCopy li).map (·, li)

/-- `listing_list_delete`. -/
def listDelete (h : ListingHeap) (lis : ListingList) : Except Fault ListingHeap :=
  lis.foldlM (fun h item => item.elim (.error .nullPointer) h.listingDelete) h

end ListingHeap

end Fsfuse.Native
