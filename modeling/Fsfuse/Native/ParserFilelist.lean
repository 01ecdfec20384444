import Fsfuse.Native.ParserXml

/-!
# The parser of file lists

`src/parser/parser_filelist.c`: a state machine over the events of the XML parser, which
calls back for every `<a>` it comes to the end of. The attributes of an entry are collected in
the parser, and nothing clears them for the next entry.
-/

namespace Fsfuse.Native

/-- `fs2_filelist_node_id`. -/
def fs2FilelistNodeId : List UInt8 := ascii "fs2-filelist"

/-- `fs2_name_attribute_key`. -/
def fs2NameAttributeKey : List UInt8 := ascii "fs2-name"

/-- `fs2_hash_attribute_key`. -/
def fs2HashAttributeKey : List UInt8 := ascii "fs2-hash"

/-- `fs2_type_attribute_key`. -/
def fs2TypeAttributeKey : List UInt8 := ascii "fs2-type"

/-- `fs2_size_attribute_key`. -/
def fs2SizeAttributeKey : List UInt8 := ascii "fs2-size"

/-- `fs2_linkcount_attribute_key`. -/
def fs2LinkcountAttributeKey : List UInt8 := ascii "fs2-linkcount"

/-- `fs2_alternativescount_attribute_key`. -/
def fs2AlternativescountAttributeKey : List UInt8 := ascii "fs2-alternativescount"

/-- `fs2_href_attribute_key`. -/
def fs2HrefAttributeKey : List UInt8 := ascii "href"

/-- `fs2_clientalias_attribute_key`. -/
def fs2ClientaliasAttributeKey : List UInt8 := ascii "fs2-clientalias"

/-- `state_t` of the filelist parser. -/
inductive FilelistState
  | waitingForDivFilelist
  | waitingForA
  | consumingA
deriving Repr, DecidableEq

/-- What `nativefs_entry_found_cb_t` is called with; an attribute that no entry has had yet
    is `NULL`. -/
structure Found where
  hash : Option (List UInt8)
  name : Option (List UInt8)
  type : Option (List UInt8)
  size : Int
  linkCount : UInt64
  href : Option (List UInt8)
  client : Option (List UInt8)
deriving Repr, DecidableEq

/-- `struct _parser_filelist_t`. -/
structure ParserFilelist where
  state : FilelistState
  /-- The attributes collected, which are those of the last entry found. -/
  entry : Found
deriving Repr, DecidableEq

namespace ParserFilelist

/-- `parser_filelist_new`. -/
def new : ParserFilelist := ⟨.waitingForDivFilelist, ⟨none, none, none, 0, 0, none, none⟩⟩

/-- What an attribute of an `<a>` is stored as. -/
def setAttribute (entry : Found) (name value : List UInt8) : Found :=
  if name = fs2NameAttributeKey then { entry with name := some value }
  else if name = fs2HashAttributeKey then { entry with hash := some value }
  else if name = fs2TypeAttributeKey then { entry with type := some value }
  else if name = fs2SizeAttributeKey then { entry with size := atoll value }
  else if name = fs2LinkcountAttributeKey ∨ name = fs2AlternativescountAttributeKey then
    { entry with linkCount := .ofInt (atoll value) }
  else if name = fs2HrefAttributeKey then { entry with href := some value }
  else if name = fs2ClientaliasAttributeKey then { entry with client := some value }
  -- the path is ignored, like what the parser does not know
  else entry

/-- `filelist_xml_cb`, with the entry it calls back with, if it does. -/
def filelistXmlCb (parser : ParserFilelist) (event : XmlEvent) : ParserFilelist × Option Found :=
  match parser.state with
  | .waitingForDivFilelist =>
    match event with
    | .tagStart name (some value) =>
      if name = ascii "div" ∧ value = fs2FilelistNodeId then
        ({ parser with state := .waitingForA }, none)
      else (parser, none)
    | _ => (parser, none)
  -- the end of the `<div>` is not waited for
  | .waitingForA =>
    match event with
    | .tagStart name _ =>
      if name = ascii "a" then ({ parser with state := .consumingA }, none) else (parser, none)
    | _ => (parser, none)
  | .consumingA =>
    match event with
    | .attr name value => ({ parser with entry := setAttribute parser.entry name value }, none)
    | .tagEnd name =>
      if name = ascii "a" then ({ parser with state := .waitingForA }, some parser.entry)
      else (parser, none)
    | _ => (parser, none)

/-- `filelist_xml_cb` for events one after the other, with what each calls back with. -/
def filelistXmlCbs (parser : ParserFilelist) : List XmlEvent → ParserFilelist × List (Option Found)
  | [] => (parser, [])
  | event :: events =>
    let (parser, called) := parser.filelistXmlCb event
    let (parser, calls) := parser.filelistXmlCbs events
    (parser, called :: calls)

/-- A parser from `parser_filelist_new` to `parser_filelist_delete`. -/
def parse (document : List SaxCall) : ParserFilelist × List (Option Found) :=
  new.filelistXmlCbs (ParserXml.events document)

end ParserFilelist

end Fsfuse.Native
