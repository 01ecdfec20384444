import Fsfuse.Native.ListingList

/-!
# The choice of a peer

`src/peerstats.c`. The favourites and the blocked clients are arrays that end at a `NULL`, or
`NULL` themselves. A build for debugging traces the lists it chooses from, and its choice.
-/

namespace Fsfuse.Native.Peerstats

/-- The lists `split_list` fills, and how far. -/
structure Lists where
  favList : ListingList
  blockList : ListingList
  normalList : ListingList
  favCount : Nat
  blockCount : Nat
  normalCount : Nat
deriving Repr, DecidableEq

/-- The search of an array for a client, one `strcmp` after the other. -/
def isIn (client : Option (List UInt8)) : List (List UInt8) → Except Fault Bool
  | [] => .ok false
  | name :: names =>
    match client with
    -- `listing_get_client` of a listing without one
    | none => .error .nullPointer
    | some client => if client = name then .ok true else isIn (some client) names

/-- The search of an array that may not be there. -/
def found (client : Option (List UInt8)) (names : Option (List (List UInt8))) :
    Except Fault Bool :=
  names.elim (.ok false) (isIn client)

/-- The searches of `split_list` for the client of a listing, and what they find for it to go
    to. -/
def place (favs blocks : Option (List (List UInt8))) (h : ListingHeap) (li : Nat) (lists : Lists) :
    Except Fault (ListingHeap × Lists) := do
  let client := (h.listings li).client
  if ← found client favs then
    let (h, favList) ← h.setItem lists.favList lists.favCount li
    return (h, { lists with favList, favCount := lists.favCount + 1 })
  else if ← found client blocks then
    let (h, blockList) ← h.setItem lists.blockList lists.blockCount li
    return (h, { lists with blockList, blockCount := lists.blockCount + 1 })
  else
    let (h, normalList) ← h.setItem lists.normalList lists.normalCount li
    return (h, { lists with normalList, normalCount := lists.normalCount + 1 })

/-- The body of the loop of `split_list`. -/
def splitItem (favs blocks : Option (List (List UInt8))) (alts : ListingList)
    (s : ListingHeap × Lists) (i : Nat) : Except Fault (ListingHeap × Lists) := do
  let (h, lists) := s
  let (h, li) ← h.getItem alts i
  let (h, lists) ← place favs blocks h li lists
  let h ← h.listingDelete li
  return (h, lists)

/-- `split_list`. -/
def splitList (favs blocks : Option (List (List UInt8))) (h : ListingHeap) (alts : ListingList) :
    Except Fault (ListingHeap × Lists) := do
  let new := ListingList.new alts.length
  let (h, lists) ←
    (List.range alts.length).foldlM (splitItem favs blocks alts) (h, ⟨new, new, new, 0, 0, 0⟩)
  if lists.favCount + lists.blockCount + lists.normalCount ≠ alts.length then throw .assertion
  return (h,
    { lists with
      favList := lists.favList.resize lists.favCount
      blockList := lists.blockList.resize lists.blockCount
      normalList := lists.normalList.resize lists.normalCount })

/-- The trace of one of the lists. -/
def traceList (h : ListingHeap) (lis : ListingList) : Except Fault ListingHeap :=
  (List.range lis.length).foldlM
    (fun h i => do
      let (h, li) ← h.getItem lis i
      if (h.listings li).client.isNone then throw .nullPointer
      h.listingDelete li)
    h

/-- The trace of the choice. -/
def traceChoice (h : ListingHeap) (ret : Option Nat) : Except Fault Unit :=
  match ret with
  | some li =>
    if (h.listings li).href.isNone ∨ (h.listings li).client.isNone then .error .nullPointer
    else .ok ()
  | none => .ok ()

/-- The traces of a build for debugging. -/
def traceLists (debug : Bool) (h : ListingHeap) (lists : Lists) : Except Fault ListingHeap := do
  if debug then
    let h ← traceList h lists.favList
    let h ← traceList h lists.normalList
    traceList h lists.blockList
  else return h

/-- The choice from the lists. -/
def choose (h : ListingHeap) (lists : Lists) (random : Nat) :
    Except Fault (ListingHeap × Option Nat) :=
  if lists.favList.length ≠ 0 then
    (h.getItem lists.favList (random % lists.favList.length)).map fun (h, li) => (h, some li)
  else if lists.normalList.length ≠ 0 then
    (h.getItem lists.normalList (random % lists.normalList.length)).map fun (h, li) => (h, some li)
  else .ok (h, none)

/-- `peerstats_chose_alternative`, with what `random` returns. -/
def choseAlternative (debug : Bool) (favs blocks : Option (List (List UInt8))) (h : ListingHeap)
    (alts : ListingList) (random : Nat) : Except Fault (ListingHeap × Option Nat) := do
  let (h, lists) ← splitList favs blocks h alts
  let h ← traceLists debug h lists
  let (h, ret) ← choose h lists random
  if debug then traceChoice h ret
  let h ← h.listDelete lists.favList
  let h ← h.listDelete lists.normalList
  let h ← h.listDelete lists.blockList
  return (h, ret)

end Fsfuse.Native.Peerstats
