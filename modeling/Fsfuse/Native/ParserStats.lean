import Fsfuse.Native.ParserXml

/-!
# The parser of stats pages

`src/parser/parser_stats.c`: a state machine over the events of the XML parser, which
calls back with the file count and the total size whenever it reads one of them and
neither is zero. The callback and its context are parameters.
-/

namespace Fsfuse.Native

/-- `state_t` of the stats parser. -/
inductive StatsState
  | waitingForDivGeneral
  | waitingForSpanWithId
  | consumingFileCount
  | consumingTotalSize
deriving Repr, DecidableEq

/-- `struct _parser_stats_t`. -/
structure ParserStats where
  state : StatsState
  files : UInt64
  bytes : UInt64
deriving Repr, DecidableEq

namespace ParserStats

variable {σ : Type*} (cb : σ → UInt64 → UInt64 → Except Fault σ)

/-- `parser_stats_new`. -/
def new : ParserStats := ⟨.waitingForDivGeneral, 0, 0⟩

/-- `raise_cb_if_done`. -/
def raiseCbIfDone (parser : ParserStats) (ctxt : σ) : Except Fault σ :=
  if parser.bytes ≠ 0 ∧ parser.files ≠ 0 then cb ctxt parser.files parser.bytes else .ok ctxt

/-- `stats_xml_cb`. The id of a `<div>` is compared even if it has none. -/
def statsXmlCb (parser : ParserStats) (ctxt : σ) (event : XmlEvent) :
    Except Fault (ParserStats × σ) :=
  match parser.state with
  | .waitingForDivGeneral =>
    match event with
    | .tagStart name value =>
      if name = ascii "div" then
        match value with
        -- `strcmp` on the `NULL` of a `<div>` without an id
        | none => .error .nullPointer
        | some value =>
          if value = ascii "general" then .ok ({ parser with state := .waitingForSpanWithId }, ctxt)
          else .ok (parser, ctxt)
      else .ok (parser, ctxt)
    | _ => .ok (parser, ctxt)
  | .waitingForSpanWithId =>
    match event with
    | .tagStart name (some value) =>
      if name = ascii "span" then
        if value = ascii "file-count" then
          .ok ({ parser with state := .consumingFileCount }, ctxt)
        else if value = ascii "total-size" then
          .ok ({ parser with state := .consumingTotalSize }, ctxt)
        else .ok (parser, ctxt)
      else .ok (parser, ctxt)
    | _ => .ok (parser, ctxt)
  | .consumingFileCount =>
    match event with
    | .attr name value =>
      -- whichever of the two numbers comes second finds both, and calls back
      if name = ascii "value" then do
        let parser := { parser with files := .ofInt (atoll value) }
        let ctxt ← raiseCbIfDone cb parser ctxt
        return ({ parser with state := .waitingForSpanWithId }, ctxt)
      else .ok ({ parser with state := .waitingForSpanWithId }, ctxt)
    -- an attribute of another name, or no attribute at all, gives the value up
    | _ => .ok ({ parser with state := .waitingForSpanWithId }, ctxt)
  | .consumingTotalSize =>
    match event with
    | .attr name value =>
      if name = ascii "value" then do
        let parser := { parser with bytes := .ofInt (atoll value) }
        let ctxt ← raiseCbIfDone cb parser ctxt
        return ({ parser with state := .waitingForSpanWithId }, ctxt)
      else .ok ({ parser with state := .waitingForSpanWithId }, ctxt)
    | _ => .ok ({ parser with state := .waitingForSpanWithId }, ctxt)

/-- `stats_xml_cb` for events one after the other. -/
def statsXmlCbs (parser : ParserStats) (ctxt : σ) (events : List XmlEvent) :
    Except Fault (ParserStats × σ) :=
  events.foldlM (fun (parser, ctxt) event => statsXmlCb cb parser ctxt event) (parser, ctxt)

/-- A parser from `parser_stats_new` to `parser_stats_delete`, which flushes libxml2. -/
def parse (ctxt : σ) (document : List SaxCall) : Except Fault (ParserStats × σ) :=
  statsXmlCbs cb new ctxt (ParserXml.events document)

end ParserStats

end Fsfuse.Native
