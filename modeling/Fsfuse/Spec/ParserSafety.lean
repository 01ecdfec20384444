import Fsfuse.Native.Listing
import Fsfuse.Spec.StatsCallbacks

/-!
# What malformed pages do to the parsers

Whatever a page consists of, neither of the two parsers is meant to compare a string that is
not there or to fail an assertion, and an entry without a usable type is meant to be skipped.

The stats parser looks at the id of every `<div>` before the one it waits for, also where there
is none. The listing parser itself is safe, but `listing_new` takes any type to be one
of two. As nothing is cleared between entries, an entry without a type has that
of the entry before it.

* `calls_type` — the types an entry is called back with;
* `listingsFound_eq_kept_iff` — when exactly the entries with a usable type become listings;
* `tolerates_iff` — exactly which pages both parsers tolerate.
-/

namespace Fsfuse.Native

namespace ParserFilelist

/-! ### The entries of a page -/

/-- The tag of the file list. -/
def divFilelist : XmlEvent := .tagStart (ascii "div") (some fs2FilelistNodeId)

/-- The events inside of each `<a>`; `entry` has those of an `<a>` that is already open. -/
def entriesFrom (entry : Option (List XmlEvent)) : List XmlEvent → List (List XmlEvent)
  | [] => []
  | event :: events =>
    match entry with
    | none =>
      match event with
      | .tagStart name _ =>
        if name = ascii "a" then entriesFrom (some []) events else entriesFrom none events
      | _ => entriesFrom none events
    | some entry =>
      if event = .tagEnd (ascii "a") then entry :: entriesFrom none events
      else entriesFrom (some (entry ++ [event])) events

/-- The entries of a page, each with its events: the `<a>`s after the tag of the file list. -/
def pageEntries (page : List SaxCall) : List (List XmlEvent) :=
  entriesFrom none ((ParserXml.events page).dropWhile (· ≠ divFilelist)).tail

/-- The type that an event gives. -/
def typeGiven : XmlEvent → Option (List UInt8)
  | .attr name value => if name = fs2TypeAttributeKey then some value else none
  | _ => none

/-- The type that an entry gives itself. -/
def ownType (entry : List XmlEvent) : Option (List UInt8) := (entry.filterMap typeGiven).getLast?

/-- The last type that is given is the entry's own. -/
theorem ownType_concat (entry : List XmlEvent) (event : XmlEvent) :
    ownType (entry ++ [event]) = (typeGiven event).or (ownType entry) := by
  simp only [ownType, List.filterMap_append]
  cases h : typeGiven event with
  | none => simp [h]
  | some type => simp [h]

/-! ### The types called back with -/

/-- The types that entries have: an entry without one has that of the entry before it. -/
def typesHad (type : Option (List UInt8)) : List (List XmlEvent) → List (Option (List UInt8))
  | [] => []
  | entry :: entries =>
    let type := (ownType entry).or type
    type :: typesHad type entries

/-- An attribute sets the type if it gives one. -/
theorem setAttribute_type (entry : Found) (name value : List UInt8) :
    (setAttribute entry name value).type = (typeGiven (.attr name value)).or entry.type := by
  have hgiven : typeGiven (.attr name value) =
      if name = fs2TypeAttributeKey then some value else none := rfl
  rw [hgiven, setAttribute]
  -- the keys differ
  by_cases htype : name = fs2TypeAttributeKey
  · subst htype
    have hname : fs2TypeAttributeKey ≠ fs2NameAttributeKey := by decide +kernel
    have hhash : fs2TypeAttributeKey ≠ fs2HashAttributeKey := by decide +kernel
    simp [hname, hhash]
  · rw [if_neg htype, if_neg htype]
    split_ifs <;> rfl

/-- What the callbacks of events have for types. -/
def calledTypes (parser : ParserFilelist) (events : List XmlEvent) : List (Option (List UInt8)) :=
  (parser.filelistXmlCbs events).2.reduceOption.map (·.type)

/-- The types of the calls are those of the first event's call and of the others'. -/
theorem calledTypes_cons (parser : ParserFilelist) (event : XmlEvent) (events : List XmlEvent) :
    parser.calledTypes (event :: events) =
      (parser.filelistXmlCb event).2.toList.map (·.type) ++
        (parser.filelistXmlCb event).1.calledTypes events := by
  have hcons : (parser.filelistXmlCbs (event :: events)).2 = (parser.filelistXmlCb event).2 ::
      ((parser.filelistXmlCb event).1.filelistXmlCbs events).2 := rfl
  rw [calledTypes, hcons, calledTypes]
  cases (parser.filelistXmlCb event).2 with
  | none => rfl
  | some found => rfl

/-- Past the tag of the file list, the types called back with are those that the entries
    have. -/
theorem calls_type (events : List XmlEvent) :
    (∀ parser : ParserFilelist, parser.state = .waitingForA →
      parser.calledTypes events = typesHad parser.entry.type (entriesFrom none events)) ∧
    ∀ (parser : ParserFilelist) (entry : List XmlEvent) (type : Option (List UInt8)),
      parser.state = .consumingA → parser.entry.type = (ownType entry).or type →
        parser.calledTypes events = typesHad type (entriesFrom (some entry) events) := by
  -- between entries, and within one of which some events have been read
  induction events with
  | nil => exact ⟨fun _ _ => rfl, fun _ _ _ _ _ => rfl⟩
  | cons event events ih =>
    obtain ⟨ihBetween, ihWithin⟩ := ih
    constructor
    · intro parser hstate
      rw [calledTypes_cons]
      cases event with
      | tagStart name id =>
        by_cases hname : name = ascii "a"
        -- an entry begins, without a type of its own
        · have hstep : parser.filelistXmlCb (.tagStart name id) =
              ({ parser with state := .consumingA }, none) := by
            simp [filelistXmlCb, hstate, hname]
          rw [hstep, entriesFrom, if_pos hname]
          exact ihWithin _ [] parser.entry.type rfl rfl
        · have hstep : parser.filelistXmlCb (.tagStart name id) = (parser, none) := by
            simp [filelistXmlCb, hstate, hname]
          rw [hstep, entriesFrom, if_neg hname]
          exact ihBetween parser hstate
      | _ =>
        simp only [filelistXmlCb, hstate]
        exact ihBetween parser hstate
    · intro parser entry type hstate htype
      rw [calledTypes_cons]
      -- what is neither a type nor the end of the entry
      have hpass (hstep : parser.filelistXmlCb event = (parser, none))
          (hend : event ≠ .tagEnd (ascii "a")) (hnone : typeGiven event = none) :
          (parser.filelistXmlCb event).2.toList.map (·.type) ++
              (parser.filelistXmlCb event).1.calledTypes events =
            typesHad type (entriesFrom (some entry) (event :: events)) := by
        rw [hstep, entriesFrom, if_neg hend]
        apply ihWithin parser _ type hstate
        rw [ownType_concat, hnone, Option.none_or, htype]
      cases event with
      | attr name value =>
        have hstep : parser.filelistXmlCb (.attr name value) =
            ({ parser with entry := setAttribute parser.entry name value }, none) := by
          simp [filelistXmlCb, hstate]
        rw [hstep, entriesFrom, if_neg nofun]
        refine ihWithin _ _ type hstate ?_
        rw [ownType_concat, setAttribute_type, htype, Option.or_assoc]
      | tagEnd name =>
        by_cases hname : name = ascii "a"
        -- its end: what it has for a type stays with the parser
        · subst hname
          have hstep : parser.filelistXmlCb (.tagEnd (ascii "a")) =
              ({ parser with state := .waitingForA }, some parser.entry) := by
            simp [filelistXmlCb, hstate]
          rw [hstep, entriesFrom, if_pos rfl, typesHad, ← htype]
          exact congrArg _ (ihBetween _ rfl)
        · exact hpass (by simp [filelistXmlCb, hstate, hname]) (by simpa using hname) rfl
      | tagStart name id => exact hpass (by simp [filelistXmlCb, hstate]) nofun rfl
      | text chars => exact hpass (by simp [filelistXmlCb, hstate]) nofun rfl

/-- Up to that tag nothing happens. -/
theorem calledTypes_of_waiting (parser : ParserFilelist) (events : List XmlEvent)
    (hstate : parser.state = .waitingForDivFilelist) :
    parser.calledTypes events =
      typesHad parser.entry.type (entriesFrom none (events.dropWhile (· ≠ divFilelist)).tail) := by
  induction events with
  | nil => rfl
  | cons event events ih =>
    rw [calledTypes_cons]
    by_cases hdiv : event = divFilelist
    · subst hdiv
      have hstep : parser.filelistXmlCb divFilelist =
          ({ parser with state := .waitingForA }, none) := by
        simp [filelistXmlCb, hstate, divFilelist]
      rw [hstep, List.dropWhile_cons_of_neg (by simp)]
      exact (calls_type events).1 _ rfl
    · have hstep : parser.filelistXmlCb event = (parser, none) := by
        simp only [filelistXmlCb, hstate]
        split
        · rename_i name value
          -- a tag with an id, of another name or with another id
          have hne : ¬ (name = ascii "div" ∧ value = fs2FilelistNodeId) := by
            intro h
            obtain ⟨rfl, rfl⟩ := h
            exact hdiv rfl
          rw [if_neg hne]
        · rfl
      rw [hstep, List.dropWhile_cons_of_pos (by simpa using hdiv)]
      exact ih

end ParserFilelist

namespace ListingT

open ParserFilelist

/-! ### The listings made of them -/

/-- A type that `listing_new` knows. -/
def usableType (type : Option (List UInt8)) : Option ListingType :=
  if type = some (ascii "file") then some .file
  else if type = some (ascii "directory") then some .directory
  else none

/-- The listing of an entry of a type, with the copy that the list holds. -/
def listed (found : Found) (type : ListingType) : ListingT where
  refCount := 2
  name := found.name
  hash := found.hash
  type := type
  size := found.size
  linkCount := found.linkCount
  href := found.href
  client := found.client

/-- `entry_found` goes through exactly with a usable type, and appends the listing. -/
theorem entryFound_ok_iff (lis lis' : List ListingT) (found : Found) :
    entryFound lis found = .ok lis' ↔
      ∃ type, usableType found.type = some type ∧ lis' = lis ++ [listed found type] := by
  unfold entryFound listingNew listingTypeFromString usableType listed
  cases found.type with
  | none => simp [bind, Except.bind]
  | some type =>
    by_cases hfile : type = ascii "file"
    · subst hfile
      simp [bind, Except.bind, pure, Except.pure, eq_comm]
    · by_cases hdir : type = ascii "directory"
      · subst hdir
        simp [hfile, bind, Except.bind, pure, Except.pure, eq_comm]
      · simp [hfile, hdir, bind, Except.bind]

/-- Every entry adds a listing, unless it stops the daemon. -/
theorem length_foldlM_entryFound {founds : List Found} {lis lis' : List ListingT}
    (h : founds.foldlM entryFound lis = .ok lis') : lis'.length = lis.length + founds.length := by
  induction founds generalizing lis with
  | nil =>
    obtain rfl : lis = lis' := by simpa [pure, Except.pure] using h
    rfl
  | cons found founds ih =>
    obtain ⟨lis₁, h₁, h₂⟩ := Except.bind_eq_ok_iff.mp h
    obtain ⟨type, -, rfl⟩ := (entryFound_ok_iff lis lis₁ found).mp h₁
    rw [ih h₂, List.length_append, List.length_singleton, List.length_cons, Nat.add_assoc,
      Nat.add_comm 1]

/-- What should become of entries: those with a usable type become listings, and the others are
    skipped. -/
def kept (founds : List Found) (entries : List (List XmlEvent)) : List ListingT :=
  (founds.zip entries).filterMap fun (found, entry) =>
    (usableType (ownType entry)).map (listed found)

/-- That is so exactly when there are no others. -/
theorem foldlM_entryFound_eq_kept_iff (founds : List Found) (entries : List (List XmlEvent))
    (type : Option (List UInt8)) (lis : List ListingT)
    (h : founds.map (·.type) = typesHad type entries) :
    founds.foldlM entryFound lis = .ok (lis ++ kept founds entries) ↔
      ∀ entry ∈ entries, usableType (ownType entry) ≠ none := by
  induction founds generalizing entries type lis with
  | nil =>
    cases entries with
    | nil => simp [kept, pure, Except.pure]
    | cons entry entries => cases h
  | cons found founds ih =>
    cases entries with
    | nil => cases h
    | cons entry entries =>
    simp only [List.map_cons, typesHad, List.cons.injEq] at h
    obtain ⟨htype, hrest⟩ := h
    rw [List.forall_mem_cons]
    cases husable : usableType (ownType entry) with
    | none =>
      -- an entry more than there should be, if there is anything at all
      refine iff_of_false (fun hok => ?_) (fun h => h.1 rfl)
      have hlength := length_foldlM_entryFound hok
      have hkept : (kept (found :: founds) (entry :: entries)).length ≤ founds.length := by
        simp only [kept, List.zip_cons_cons, List.filterMap_cons, husable, Option.map_none]
        exact (List.length_filterMap_le _ _).trans (by simp)
      rw [List.length_append, List.length_cons] at hlength
      omega
    | some usable =>
      -- the entry has its own type
      have hown : (ownType entry).or type = ownType entry := by
        cases hentry : ownType entry with
        | none => simp [hentry, usableType] at husable
        | some own => rfl
      rw [hown] at htype
      have hfound : entryFound lis found = .ok (lis ++ [listed found usable]) :=
        (entryFound_ok_iff _ _ _).mpr ⟨usable, htype ▸ husable, rfl⟩
      have hkept : kept (found :: founds) (entry :: entries) =
          listed found usable :: kept founds entries := by
        simp [kept, husable]
      have hcons : (found :: founds).foldlM entryFound lis =
          (entryFound lis found).bind (founds.foldlM entryFound ·) := rfl
      rw [hcons, hfound, hkept, List.append_cons]
      simpa [Except.bind] using ih entries _ (lis ++ [listed found usable]) hrest

/-- Exactly when the entries of a page with a usable type become listings, and the others
    are skipped. -/
theorem listingsFound_eq_kept_iff (page : List SaxCall) :
    listingsFound page = .ok (kept (parse page).2.reduceOption (pageEntries page)) ↔
      ∀ entry ∈ pageEntries page, usableType (ownType entry) ≠ none := by
  have htypes := calledTypes_of_waiting new (ParserXml.events page) rfl
  exact foldlM_entryFound_eq_kept_iff _ _ none [] htypes

/-! ### Both parsers -/

/-- A page is read to its end by both parsers, and what the listing parser finds are the
    listings of its entries with a usable type. -/
def Tolerates (page : List SaxCall) : Prop :=
  (∃ r, ParserStats.reading page = .ok r) ∧
    listingsFound page = .ok (kept (parse page).2.reduceOption (pageEntries page))

/-- Both parsers tolerate a page exactly when no `<div>` without an id comes before the one
    with the figures, and every entry gives itself a usable type. -/
theorem tolerates_iff (page : List SaxCall) :
    Tolerates page ↔
      ParserStats.Readable page ∧
        ∀ entry ∈ pageEntries page, usableType (ownType entry) ≠ none := by
  rw [Tolerates, ParserStats.reading_ok_iff, listingsFound_eq_kept_iff]

/-- An entry whose type is missing stops the daemon. -/
theorem not_tolerates_untyped :
    ¬ Tolerates [.startElementNs (ascii "div") [(ascii "id", ascii "fs2-filelist")],
      .startElementNs (ascii "a") [(ascii "fs2-name", ascii "x")], .endElementNs (ascii "a"),
      .endElementNs (ascii "div")] := by
  rw [Tolerates, listingsFound_eq_kept_iff]
  intro h
  obtain ⟨-, husable⟩ := h
  exact absurd husable (by decide +kernel)

example : listingsFound [.startElementNs (ascii "div") [(ascii "id", ascii "fs2-filelist")],
    .startElementNs (ascii "a") [(ascii "fs2-type", ascii "symlink")],
    .endElementNs (ascii "a")] = .error .assertion := by decide +kernel

end ListingT

end Fsfuse.Native
