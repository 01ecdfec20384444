import Fsfuse.Native.Direntry
import Fsfuse.Native.Fetcher
import Fsfuse.Native.Peerstats

/-!
# The alternatives for a file

`entry_found` of `src/nativefs/listing.c` and `direntry.c` on the lists it fills,
`listing_tryget_best_alternative`, and how `downloaderead_main` goes on with what that returns.
The fetcher calls what it finds at the parser it is given.
-/

namespace Fsfuse.Native

open Peerstats

/-- `EBUSY`. -/
def ebusy : Int := 16

/-- `entry_found`, on the list of its context. The context's `i` is how long that is. The copy of
    the indexnode is left out. -/
def entryFound (ctxt : ListingHeap × ListingList) (found : Found) :
    Except Fault (ListingHeap × ListingList) := do
  let (h, lis) := ctxt
  let (h, li) := h.make (← ListingT.listingNew found)
  let lis := lis.resize (lis.length + 1)
  h.setItem lis (lis.length - 1) li

/-- The best of some entries, in `listing_tryget_best_alternative`: they are listed, one of them is
    chosen, and the list is deleted. -/
def bestOf (debug : Bool) (favs blocks : Option (List (List UInt8))) (h : ListingHeap)
    (founds : List Found) (random : Nat) : Except Fault (ListingHeap × Option Nat) := do
  let (h, lis) ← founds.foldlM entryFound (h, ListingList.new 0)
  let (h, best) ← choseAlternative debug favs blocks h lis random
  let h ← h.listDelete lis
  return (h, best)

/-! ### The search -/

/-- The listing that alternatives are looked for: its hash, and the reference count of its
    indexnode. Both pointers may be `NULL`. -/
structure Reference where
  hash : Option (List UInt8)
  in_ : Option UInt32
deriving Repr, DecidableEq

/-- `indexnode_copy`, of the listing's indexnode. -/
def Reference.indexnodeCopy (ref : Reference) : Except Fault Reference :=
  return { ref with in_ := some (← refCountInc ref.in_) }

/-- libxml2: what a parser calls back with for the blocks it is given, which is nothing if it is
    given none. -/
structure Libxml2 where
  sax : List (List UInt8) → List SaxCall
  nothing : sax [] = []

/-- Where `entry_found` and its context are. The context is not the parser. -/
structure EntrySetting extends Fetcher.Setting where
  entryFound : Nat
  ctxt : Nat
  own : ctxt ≠ places.parser

/-- A call that the fetcher makes: `parser_filelist_consume` takes a block for the parser, and
    `entry_found` takes other arguments. -/
def consumed (d : Fetcher.Daemon) (p : Fetcher.Places) (call : Fetcher.Call (List UInt8)) :
    Except Fault (List UInt8) :=
  if call.fn = d.parserFilelistConsume ∧ call.ctxt = p.parser then .ok call.arg
  else .error .wrongArguments

/-- `listing_tryget_best_alternative`. -/
def listingTrygetBestAlternative (debug : Bool) (favs blocks : Option (List (List UInt8)))
    (xml : Libxml2) (d : Fetcher.Daemon) (answers : Fetcher.Answers) (setting : EntrySetting)
    (h : ListingHeap) (ref : Reference) (random : Nat) :
    Except Fault (ListingHeap × Reference × Int × Option Nat) := do
  -- one copy for the context, and one for the call
  let ref ← ref.indexnodeCopy
  let ref ← ref.indexnodeCopy
  -- `listing_get_hash`
  let hash ← ref.hash.elim (.error .nullPointer) .ok
  let fetched := Fetcher.trygetAlternatives d answers hash setting.entryFound setting.ctxt
    setting.places setting.mem
  let given ← fetched.calls.mapM (consumed d setting.places)
  let founds := (ParserFilelist.parse (xml.sax given)).2.reduceOption
  -- each entry gets a copy of the indexnode
  let ref ← founds.foldlM (fun ref _ => ref.indexnodeCopy) ref
  let (h, best) ← bestOf debug favs blocks h founds random
  -- the `rc` of the fetch
  return (h, ref, fetched.rc, best)

/-! ### The downloader -/

/-- How `downloaderead_main` goes on: it fetches from somewhere, or leaves its loop. -/
inductive Source
  | fetch (href : List UInt8)
  | leave (rc : Int)
deriving Repr, DecidableEq

/-- The branch of `downloaderead_main` on what `listing_tryget_best_alternative` returns and
    stores. -/
def downloadereadMain (h : ListingHeap) (ret : Int) (best : Option Nat) : Except Fault Source :=
  if ret ≠ 0 then
    -- `listing_get_href`
    match best with
    | none => .error .nullPointer
    | some li => (h.listings li).href.elim (.error .nullPointer) fun href => .ok (.fetch href)
  else .ok (.leave ebusy)

end Fsfuse.Native
