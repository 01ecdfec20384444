import Fsfuse.ForStd.List
import Fsfuse.Native.ParserFilelist
import Fsfuse.Spec.FilelistEntries

/-!
# What an entry of a file list is built from

The listing parser is meant to call back with the attributes of the `<a>` it has read, and with
nothing for those it does not have.

It stores every attribute it comes across until the `</a>`, those of elements in between too, and
it never clears what it has stored. So an attribute that an `<a>` does not have is taken from
inside of it, or else from the entries before.

* `get_foldl_setAttribute` — what is stored after some attributes, field by field;
* `elements` — the attributes of each `<a>`, and those inside of it;
* `filelistXmlCbs_own_iff` — exactly when the entries are those of the `<a>`s.
-/

namespace Fsfuse.Native

/-! ### Fields -/

/-- The fields of an entry. -/
inductive Field
  | name
  | hash
  | type
  | size
  | linkCount
  | href
  | client
deriving Repr, DecidableEq

/-- What a field holds. -/
inductive FieldValue
  | text (chars : Option (List UInt8))
  | size (size : Int)
  | count (count : UInt64)
deriving Repr, DecidableEq

namespace Field

/-- The names of the attributes that a field is taken from. -/
def keys : Field → List (List UInt8)
  | name => [fs2NameAttributeKey]
  | hash => [fs2HashAttributeKey]
  | type => [fs2TypeAttributeKey]
  | size => [fs2SizeAttributeKey]
  | linkCount => [fs2LinkcountAttributeKey, fs2AlternativescountAttributeKey]
  | href => [fs2HrefAttributeKey]
  | client => [fs2ClientaliasAttributeKey]

/-- What an attribute gives a field. -/
def read (value : List UInt8) : Field → FieldValue
  | size => .size (atoll value)
  | linkCount => .count (.ofInt (atoll value))
  | _ => .text (some value)

/-- What a field holds without an attribute. -/
def absent : Field → FieldValue
  | size => .size 0
  | linkCount => .count 0
  | _ => .text none

/-- What some attributes say of a field: the last that does so counts. -/
def given (field : Field) (attributes : List (List UInt8 × List UInt8)) : Option FieldValue :=
  attributes.reverse.findSome? fun a =>
    if field.keys.contains a.1 then some (field.read a.2) else none

end Field

namespace Found

/-- A field of an entry. -/
def get (entry : Found) : Field → FieldValue
  | .name => .text entry.name
  | .hash => .text entry.hash
  | .type => .text entry.type
  | .size => .size entry.size
  | .linkCount => .count entry.linkCount
  | .href => .text entry.href
  | .client => .text entry.client

/-- Entries with the same fields are the same. -/
theorem ext_get {entry entry' : Found} (h : ∀ field, entry.get field = entry'.get field) :
    entry = entry' := by
  obtain ⟨hash, name, type, size, linkCount, href, client⟩ := entry
  obtain ⟨hash', name', type', size', linkCount', href', client'⟩ := entry'
  have hhash := h .hash
  have hname := h .name
  have htype := h .type
  have hsize := h .size
  have hlinkCount := h .linkCount
  have hhref := h .href
  have hclient := h .client
  simp only [get, FieldValue.text.injEq, FieldValue.size.injEq, FieldValue.count.injEq] at *
  simp [*]

end Found

/-- The value of the last attribute of one of some names. -/
def attributeValue (keys : List (List UInt8)) (attributes : List (List UInt8 × List UInt8)) :
    Option (List UInt8) :=
  attributes.reverse.findSome? fun a => if keys.contains a.1 then some a.2 else none

/-- The entry of an element with some attributes. -/
def Found.ofAttributes (attributes : List (List UInt8 × List UInt8)) : Found where
  hash := attributeValue [fs2HashAttributeKey] attributes
  name := attributeValue [fs2NameAttributeKey] attributes
  type := attributeValue [fs2TypeAttributeKey] attributes
  size := ((attributeValue [fs2SizeAttributeKey] attributes).map atoll).getD 0
  linkCount :=
    ((attributeValue [fs2LinkcountAttributeKey, fs2AlternativescountAttributeKey] attributes).map
      fun value => .ofInt (atoll value)).getD 0
  href := attributeValue [fs2HrefAttributeKey] attributes
  client := attributeValue [fs2ClientaliasAttributeKey] attributes

/-- What is given for a field is the last value of its attribute, read. -/
theorem Field.given_eq (field : Field) (attributes : List (List UInt8 × List UInt8)) :
    field.given attributes = (attributeValue field.keys attributes).map (field.read ·) := by
  rw [Field.given, attributeValue, List.map_findSome?]
  congr 1
  funext a
  by_cases ha : a.1 ∈ field.keys <;> simp [ha]

/-- An entry made of attributes has in each field what is given, or what the absent one has. -/
theorem Found.get_ofAttributes (attributes : List (List UInt8 × List UInt8)) (field : Field) :
    (Found.ofAttributes attributes).get field = (field.given attributes).getD field.absent := by
  rw [Field.given_eq]
  cases field <;> simp only [Found.get, Found.ofAttributes, Field.keys, Field.read, Field.absent]
  all_goals
    generalize attributeValue _ attributes = value
    cases value <;> rfl

namespace ParserFilelist

/-- An attribute is stored in the field it is for, and in no other. -/
theorem get_setAttribute (entry : Found) (name value : List UInt8) (field : Field) :
    (setAttribute entry name value).get field =
      if field.keys.contains name then field.read value else entry.get field := by
  by_cases hknown : name ∈ [fs2NameAttributeKey, fs2HashAttributeKey, fs2TypeAttributeKey,
      fs2SizeAttributeKey, fs2LinkcountAttributeKey, fs2AlternativescountAttributeKey,
      fs2HrefAttributeKey, fs2ClientaliasAttributeKey]
  · -- no two of the names are the same
    simp only [List.mem_cons, List.not_mem_nil, or_false] at hknown
    obtain rfl | rfl | rfl | rfl | rfl | rfl | rfl | rfl := hknown <;> cases field <;> rfl
  · simp only [List.mem_cons, List.not_mem_nil, or_false, not_or] at hknown
    cases field <;> simp [setAttribute, Field.keys, hknown]

/-- The entry stored after some attributes has, in each field, what the last of them for it says. -/
theorem get_foldl_setAttribute (entry : Found) (attributes : List (List UInt8 × List UInt8))
    (field : Field) :
    (attributes.foldl (fun entry a => setAttribute entry a.1 a.2) entry).get field =
      (field.given attributes).getD (entry.get field) := by
  apply List.foldl_eq_getD_findSome?_reverse (fun entry : Found => entry.get field)
  intro entry a
  rw [get_setAttribute]
  split <;> rfl

end ParserFilelist

/-! ### Elements -/

/-- What an `<a>` is read with: its own attributes, which are those right behind its start, and
    the others up to the end. -/
structure EntryElement where
  own : List (List UInt8 × List UInt8)
  nested : List (List UInt8 × List UInt8)
deriving Repr, DecidableEq

/-- Where a stream of events is: outside of any `<a>` that is read, or in one, and there still
    among its own attributes or not. -/
inductive Reading
  | outside (state : FilelistState)
  | within (element : EntryElement) (among : Bool)
deriving Repr, DecidableEq

/-- The `<a>`s whose ends call back, in order. -/
def elements : Reading → List XmlEvent → List EntryElement
  | _, [] => []
  | .outside state, event :: events =>
    match state.next event with
    | .consumingA => elements (.within ⟨[], []⟩ true) events
    | state => elements (.outside state) events
  | .within element among, event :: events =>
    match event with
    | .attr name value =>
      if among then
        elements (.within { element with own := element.own ++ [(name, value)] } true) events
      else
        elements (.within { element with nested := element.nested ++ [(name, value)] } false) events
    | .tagEnd name =>
      if name = ascii "a" then element :: elements (.outside .waitingForA) events
      else elements (.within element false) events
    | _ => elements (.within element false) events

namespace ParserFilelist

/-- The entries called back with, when `before` has been stored and some elements are read. -/
def stored (before : Found) : List EntryElement → List Found
  | [] => []
  | element :: rest =>
    let entry := (element.own ++ element.nested).foldl
      (fun entry a => setAttribute entry a.1 a.2) before
    entry :: stored entry rest

/-- The parser is where the stream is, and has stored `before` and the attributes since. -/
def ReadingAt (parser : ParserFilelist) (before : Found) : Reading → Prop
  | .outside state => parser = ⟨state, before⟩ ∧ state ≠ .consumingA
  | .within element _ =>
    parser = ⟨.consumingA,
      (element.own ++ element.nested).foldl (fun entry a => setAttribute entry a.1 a.2) before⟩

/-- Outside of any `<a>` nothing is stored. -/
theorem filelistXmlCb_outside {state : FilelistState} (hstate : state ≠ .consumingA)
    (before : Found) (event : XmlEvent) :
    (⟨state, before⟩ : ParserFilelist).filelistXmlCb event =
      (⟨state.next event, before⟩, none) := by
  -- only a start tag goes on from the two states
  cases state with
  | waitingForDivFilelist =>
    cases event with
    | tagStart name id =>
      cases id with
      | none => rfl
      | some value =>
        simp only [filelistXmlCb, FilelistState.next]
        split <;> rfl
    | _ => rfl
  | waitingForA =>
    cases event with
    | tagStart name id =>
      simp only [filelistXmlCb, FilelistState.next]
      split <;> rfl
    | _ => rfl
  | consumingA => exact absurd rfl hstate

/-- The parser calls back with what has been stored at the end of each element. -/
theorem filelistXmlCbs_stored {parser : ParserFilelist} {before : Found} {reading : Reading}
    (h : parser.ReadingAt before reading)
    (hamong : ∀ element, reading = .within element true → element.nested = [])
    (events : List XmlEvent) :
    (parser.filelistXmlCbs events).2.filterMap id = stored before (elements reading events) := by
  induction events generalizing parser before reading with
  | nil =>
    rw [elements]
    rfl
  | cons event events ih =>
    cases reading with
    | outside state =>
      obtain ⟨rfl, hstate⟩ := h
      simp only [filelistXmlCbs, filelistXmlCb_outside hstate, elements, List.filterMap_cons, id_eq]
      -- the start tag opens an entry, or leaves the parser outside
      cases hnext : state.next event with
      | consumingA => exact @ih _ _ (.within ⟨[], []⟩ true) rfl (by simp)
      | waitingForDivFilelist => exact @ih _ _ (.outside _) ⟨rfl, by simp⟩ (by simp)
      | waitingForA => exact @ih _ _ (.outside _) ⟨rfl, by simp⟩ (by simp)
    | within element among =>
      obtain rfl := h
      -- a nested tag, or text, keeps the entry open; what follows is no longer its own
      cases event with
      | tagStart name id => exact @ih _ _ (.within element false) rfl (by simp)
      | text chars => exact @ih _ _ (.within element false) rfl (by simp)
      | attr name value =>
        simp only [filelistXmlCbs, filelistXmlCb, elements, List.filterMap_cons, id_eq]
        split
        · -- nothing nested has come yet
          rename_i hown
          have hnone : element.nested = [] := hamong element (by rw [hown])
          apply @ih _ before
          · simp [ReadingAt, hnone]
          · intro element' heq
            obtain ⟨rfl, -⟩ := Reading.within.inj heq
            exact hnone
        · apply @ih _ before
          · simp [ReadingAt, ← List.append_assoc]
          · simp
      -- the end tag of the entry stores it, any other is nested
      | tagEnd name =>
        simp only [filelistXmlCbs, filelistXmlCb, elements]
        split
        · simp only [List.filterMap_cons, id_eq, stored]
          exact congrArg _ (@ih _ _ (.outside .waitingForA) ⟨rfl, by simp⟩ (by simp))
        · exact @ih _ _ (.within element false) rfl (by simp)

/-! ### Whose attributes they are -/

/-- What an element has for a field is its own: what is nested in it repeats that, or says
    nothing; and if neither says anything, the element before has not said anything either. -/
def OwnField (before : List (List UInt8 × List UInt8)) (element : EntryElement) (field : Field) :
    Prop :=
  match field.given element.nested with
  | some value => value = (field.given element.own).getD field.absent
  | none => field.given element.own ≠ none ∨ (field.given before).getD field.absent = field.absent

/-- All elements have all their fields of their own. `before` is what the element before the
    first has. -/
def OwnFields (before : List (List UInt8 × List UInt8)) : List EntryElement → Prop
  | [] => True
  | element :: rest => (∀ field, OwnField before element field) ∧ OwnFields element.own rest

/-- Attributes of a nested element count before those of its own. -/
theorem given_append (field : Field) (own nested : List (List UInt8 × List UInt8)) :
    field.given (own ++ nested) = (field.given nested).or (field.given own) := by
  rw [Field.given, List.reverse_append, List.findSome?_append]
  rfl

/-- What is stored at the end of an element is its own, if each field of it is. -/
theorem foldl_setAttribute_eq_own_iff (before : List (List UInt8 × List UInt8))
    (element : EntryElement) :
    (element.own ++ element.nested).foldl (fun entry a => setAttribute entry a.1 a.2)
        (.ofAttributes before) = .ofAttributes element.own ↔
      ∀ field, OwnField before element field := by
  -- a field is what is nested, or its own, or what was there before
  have hfield : ∀ field, ((element.own ++ element.nested).foldl
      (fun entry a => setAttribute entry a.1 a.2) (.ofAttributes before)).get field =
        (Found.ofAttributes element.own).get field ↔ OwnField before element field := by
    intro field
    rw [get_foldl_setAttribute, given_append, Found.get_ofAttributes, Found.get_ofAttributes,
      OwnField]
    cases field.given element.nested with
    | some value => rfl
    | none =>
      cases field.given element.own with
      | some value => simp
      | none => simp
  constructor
  · intro heq field
    rw [← hfield, heq]
  · intro h
    exact Found.ext_get fun field => (hfield field).mpr (h field)

/-- What is stored is each entry's own exactly if its fields are its own. -/
theorem stored_eq_own_iff (before : List (List UInt8 × List UInt8)) (elements : List EntryElement) :
    stored (.ofAttributes before) elements =
        elements.map (fun element => .ofAttributes element.own) ↔
      OwnFields before elements := by
  induction elements generalizing before with
  | nil => exact iff_of_true rfl trivial
  | cons element rest ih =>
    rw [stored, List.map_cons, List.cons.injEq, OwnFields, ← foldl_setAttribute_eq_own_iff]
    apply and_congr_right
    intro heq
    rw [heq]
    exact ih element.own

/-- The parser calls back with what each `<a>` has itself, exactly when nothing nested in it says
    otherwise and it has itself what the one before has. -/
theorem filelistXmlCbs_own_iff (events : List XmlEvent) :
    (new.filelistXmlCbs events).2.filterMap id =
        (elements (.outside .waitingForDivFilelist) events).map
          (fun element => .ofAttributes element.own) ↔
      OwnFields [] (elements (.outside .waitingForDivFilelist) events) := by
  have hnew : new.ReadingAt (.ofAttributes []) (.outside .waitingForDivFilelist) := ⟨rfl, nofun⟩
  rw [filelistXmlCbs_stored hnew nofun, stored_eq_own_iff]

/-- A directory behind a file is called back for with the file's hash. -/
theorem filelistXmlCbs_not_own_hash :
    let document : Content :=
      .element (ascii "div") [(ascii "id", ascii "fs2-filelist")]
        (.element (ascii "a") [(ascii "fs2-name", ascii "x"), (ascii "fs2-type", ascii "file"),
            (ascii "fs2-hash", ascii "c0ffee")] .nil
          (.element (ascii "a")
            [(ascii "fs2-name", ascii "y"), (ascii "fs2-type", ascii "directory")] .nil .nil)) .nil
    (new.filelistXmlCbs (ParserXml.events document.calls)).2.filterMap id ≠
      (elements (.outside .waitingForDivFilelist) (ParserXml.events document.calls)).map
        (fun element => .ofAttributes element.own) := by
  decide +kernel

end ParserFilelist

end Fsfuse.Native
