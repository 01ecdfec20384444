import Fsfuse.Native.Direntry
import Fsfuse.Native.ParserFilelist

/-!
# Listings

`src/nativefs/listing.c`: the constructor with all it stores, and `entry_found`, the
callback that the listing parser is given. The indexnode of a listing is left out here.
-/

namespace Fsfuse.Native

/-- `struct _listing_t`, with what an indexnode has told of it. -/
structure ListingT where
  refCount : Nat
  name : Option (List UInt8)
  hash : Option (List UInt8)
  type : ListingType
  size : Int
  linkCount : UInt64
  href : Option (List UInt8)
  client : Option (List UInt8)
deriving Repr, DecidableEq

namespace ListingT

/-- `listing_type_from_string`. -/
def listingTypeFromString (s : Option (List UInt8)) : Except Fault ListingType :=
  match s with
  -- `strcmp` on the `NULL` of an entry without a type
  | none => .error .nullPointer
  | some s =>
    if s = ascii "file" then .ok .file
    else if s = ascii "directory" then .ok .directory
    else .error .assertion

/-- `listing_new`. -/
def listingNew (found : Found) : Except Fault ListingT := do
  let type ← listingTypeFromString found.type
  return {
    refCount := 1, name := found.name, hash := found.hash, type := type, size := found.size
    linkCount := found.linkCount, href := found.href, client := found.client }

/-- `entry_found`: the list holds a copy of the listing. -/
def entryFound (lis : List ListingT) (found : Found) : Except Fault (List ListingT) := do
  let li ← listingNew found
  return lis ++ [{ li with refCount := li.refCount + 1 }]

/-- The listings made while a parser reads a page, with `entry_found` as its callback. -/
def listingsFound (page : List SaxCall) : Except Fault (List ListingT) :=
  (ParserFilelist.parse page).2.reduceOption.foldlM entryFound []

end ListingT

end Fsfuse.Native
