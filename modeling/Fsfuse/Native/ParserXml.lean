import Fsfuse.Native.CString

/-!
# The XML parser

`src/parser/parser_xml.c` on top of libxml2's push parser: the callbacks libxml2 makes,
and the events that are raised for them. What libxml2 calls back for a document is its
own business, so a document is any list of calls.
-/

namespace Fsfuse.Native

/-- The calls of the SAX handler. Attributes are local names with their values, and
    characters come with what follows them in libxml2's buffer. -/
inductive SaxCall
  | startElementNs (localname : List UInt8) (attributes : List (List UInt8 × List UInt8))
  | endElementNs (localname : List UInt8)
  | characters (ch : List UInt8) (after : List UInt8)
deriving Repr, DecidableEq

/-- The events of `parser_xml_event_t` with the text each is raised with. A tag starts
    with its id, or `NULL`. -/
inductive XmlEvent
  | tagStart (name : List UInt8) (id : Option (List UInt8))
  | text (chars : List UInt8)
  | tagEnd (name : List UInt8)
  | attr (name value : List UInt8)
deriving Repr, DecidableEq

namespace ParserXml

/-- The value of the last id attribute. -/
def findId (attributes : List (List UInt8 × List UInt8)) : Option (List UInt8) :=
  attributes.foldl (fun id a => if a.1 = ascii "id" then some (cString a.2) else id) none

/-- `on_start_element_ns`: the id is not raised again as an attribute. -/
def onStartElementNs (localname : List UInt8) (attributes : List (List UInt8 × List UInt8)) :
    List XmlEvent :=
  .tagStart localname (findId attributes) ::
    (attributes.filter (·.1 ≠ ascii "id")).map fun a => .attr a.1 (cString a.2)

/-- `on_end_element_ns`. -/
def onEndElementNs (localname : List UInt8) : List XmlEvent := [.tagEnd localname]

/-- `on_characters`. The test for white space does not stop at the end of the run. -/
def onCharacters (ch after : List UInt8) : List XmlEvent :=
  -- `strspn` on a run that no NUL terminates
  let white := (ch ++ after).takeWhile (· ∈ ascii " \t\n\x0d")
  if white.length ≠ ch.length then [.text (cString ch)] else []

/-- The events raised for a call. -/
def raise : SaxCall → List XmlEvent
  | .startElementNs localname attributes => onStartElementNs localname attributes
  | .endElementNs localname => onEndElementNs localname
  | .characters ch after => onCharacters ch after

/-- The events raised for a document. -/
def events (document : List SaxCall) : List XmlEvent := document.flatMap raise

end ParserXml

end Fsfuse.Native
