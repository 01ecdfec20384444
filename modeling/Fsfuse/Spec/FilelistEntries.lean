import Fsfuse.Native.ParserFilelist

/-!
# Which entries a file list calls back for

The listing parser is meant to call back for each `<a>` inside the `<div>` of the file list, once
and in the order of the document, and for no other.

It does not count how deep it is, and has no state for the end of the `<div>`. So from the
moment that `<div>` opens it takes every `<a>` for an entry, and it is right as long as
none comes after the `<div>` has closed.

* `filelistXmlCbs_calls` — the callbacks of events are those of the states alone;
* `calls_events` — from the tree of a document, which events call back;
* `parse_calls_iff` — exactly when they are those of the entries.
-/

namespace Fsfuse.Native

/-! ### Documents -/

/-- What a well-formed document consists of: elements with what is between their tags,
    and characters, each followed by the rest at its level. -/
inductive Content
  | nil
  | element (localname : List UInt8) (attributes : List (List UInt8 × List UInt8))
      (children rest : Content)
  | characters (ch after : List UInt8) (rest : Content)

namespace Content

/-- The calls libxml2 makes for it. -/
def calls : Content → List SaxCall
  | nil => []
  | element localname attributes children rest =>
    .startElementNs localname attributes :: children.calls ++ .endElementNs localname :: rest.calls
  | characters ch after rest => .characters ch after :: rest.calls

/-- The element is the `<div>` of a file list. -/
def isDivFilelist (localname : List UInt8) (attributes : List (List UInt8 × List UInt8)) : Bool :=
  localname = ascii "div" ∧ ParserXml.findId attributes = some fs2FilelistNodeId

/-- There is a file list in it. -/
def hasFilelist : Content → Bool
  | nil => false
  | element localname attributes children rest =>
    isDivFilelist localname attributes || children.hasFilelist || rest.hasFilelist
  | characters _ _ rest => rest.hasFilelist

/-- No `<a>` is nested in an `<a>`; `within` says whether all of it is in one. -/
def NoNestedA (within : Bool) : Content → Prop
  | nil => True
  | element localname _ children rest =>
    (localname = ascii "a" → within = false) ∧
      children.NoNestedA (within || localname = ascii "a") ∧ rest.NoNestedA within
  | characters _ _ rest => rest.NoNestedA within

/-- Events none of which calls back. -/
def quiet (events : List XmlEvent) : List Bool := events.map fun _ => false

@[simp] theorem length_quiet (events : List XmlEvent) : (quiet events).length = events.length :=
  List.length_map ..

@[simp] theorem quiet_cons (event : XmlEvent) (events : List XmlEvent) :
    quiet (event :: events) = false :: quiet events := rfl

@[simp] theorem quiet_append (events events' : List XmlEvent) :
    quiet (events ++ events') = quiet events ++ quiet events' := List.map_append

/-- For each event of it, whether it should call back: the ends of the `<a>`s inside a file
    list should. `inside` says whether all of it is inside one. -/
def entries (inside : Bool) : Content → List Bool
  | nil => []
  | element localname attributes children rest =>
    quiet (ParserXml.onStartElementNs localname attributes) ++
      children.entries (inside || isDivFilelist localname attributes) ++
      (inside && localname = ascii "a") :: rest.entries inside
  | characters ch after rest =>
    quiet (ParserXml.onCharacters ch after) ++ rest.entries inside

/-- No `<a>` starts outside of all file lists once one has been opened; `opened` says whether
    that is so before it. -/
def NoStray (inside opened : Bool) : Content → Prop
  | nil => True
  | element localname attributes children rest =>
    (localname = ascii "a" → opened → inside) ∧
      children.NoStray (inside || isDivFilelist localname attributes)
        (opened || isDivFilelist localname attributes) ∧
      rest.NoStray inside (opened || isDivFilelist localname attributes || children.hasFilelist)
  | characters _ _ rest => rest.NoStray inside opened

instance decidableNoNestedA : ∀ (within : Bool) (c : Content), Decidable (c.NoNestedA within)
  | _, nil => isTrue trivial
  | within, element localname _ children rest =>
    have := decidableNoNestedA (within || localname = ascii "a") children
    have := decidableNoNestedA within rest
    inferInstanceAs (Decidable (_ ∧ _ ∧ _))
  | within, characters _ _ rest => decidableNoNestedA within rest

instance decidableNoStray : ∀ (inside opened : Bool) (c : Content),
    Decidable (c.NoStray inside opened)
  | _, _, nil => isTrue trivial
  | inside, opened, element localname attributes children rest =>
    have := decidableNoStray (inside || isDivFilelist localname attributes)
      (opened || isDivFilelist localname attributes) children
    have := decidableNoStray inside
      (opened || isDivFilelist localname attributes || children.hasFilelist) rest
    inferInstanceAs (Decidable (_ ∧ _ ∧ _))
  | inside, opened, characters _ _ rest => decidableNoStray inside opened rest

end Content

/-! ### States -/

namespace FilelistState

/-- The state an event leads to. -/
def next (state : FilelistState) (event : XmlEvent) : FilelistState :=
  match state, event with
  | .waitingForDivFilelist, .tagStart name (some value) =>
    if name = ascii "div" ∧ value = fs2FilelistNodeId then .waitingForA else state
  | .waitingForA, .tagStart name _ => if name = ascii "a" then .consumingA else state
  | .consumingA, .tagEnd name => if name = ascii "a" then .waitingForA else state
  | _, _ => state

/-- An event calls back. -/
def called (state : FilelistState) (event : XmlEvent) : Bool :=
  state = .consumingA ∧ event = .tagEnd (ascii "a")

/-- The state some events lead to. -/
def nexts (state : FilelistState) (events : List XmlEvent) : FilelistState :=
  events.foldl next state

/-- For each of some events, whether it calls back. -/
def calls (state : FilelistState) : List XmlEvent → List Bool
  | [] => []
  | event :: events => state.called event :: (state.next event).calls events

@[simp] theorem nexts_nil (state : FilelistState) : state.nexts [] = state := rfl

@[simp] theorem nexts_cons (state : FilelistState) (event : XmlEvent) (events : List XmlEvent) :
    state.nexts (event :: events) = (state.next event).nexts events := rfl

@[simp] theorem nexts_append (state : FilelistState) (events events' : List XmlEvent) :
    state.nexts (events ++ events') = (state.nexts events).nexts events' :=
  List.foldl_append

/-- The calls of events taken together are those of the events taken one after the other. -/
@[simp] theorem calls_append (state : FilelistState) (events events' : List XmlEvent) :
    state.calls (events ++ events') = state.calls events ++ (state.nexts events).calls events' := by
  induction events generalizing state with
  | nil => rfl
  | cons event events ih => simp [calls, ih]

end FilelistState

namespace ParserFilelist

/-- What is collected has no part in when to call back. -/
theorem filelistXmlCb_state (parser : ParserFilelist) (event : XmlEvent) :
    (parser.filelistXmlCb event).1.state = parser.state.next event ∧
      (parser.filelistXmlCb event).2.isSome = parser.state.called event := by
  obtain ⟨state, entry⟩ := parser
  cases state with
  | waitingForDivFilelist =>
    cases event with
    | tagStart name id =>
      cases id with
      | none => simp [filelistXmlCb, FilelistState.next, FilelistState.called]
      | some value =>
        simp only [filelistXmlCb, FilelistState.next, FilelistState.called]
        split <;> simp
    | _ => simp [filelistXmlCb, FilelistState.next, FilelistState.called]
  | waitingForA =>
    cases event with
    | tagStart name id =>
      simp only [filelistXmlCb, FilelistState.next, FilelistState.called]
      split <;> simp
    | _ => simp [filelistXmlCb, FilelistState.next, FilelistState.called]
  | consumingA =>
    cases event with
    | tagEnd name =>
      simp only [filelistXmlCb, FilelistState.next, FilelistState.called]
      split <;> simp_all
    | _ => simp [filelistXmlCb, FilelistState.next, FilelistState.called]

/-- The callbacks of events are those of the states alone. -/
theorem filelistXmlCbs_calls (parser : ParserFilelist) (events : List XmlEvent) :
    (parser.filelistXmlCbs events).2.map Option.isSome = parser.state.calls events := by
  induction events generalizing parser with
  | nil => rfl
  | cons event events ih =>
    obtain ⟨hnext, hcalled⟩ := filelistXmlCb_state parser event
    simp only [filelistXmlCbs, List.map_cons, FilelistState.calls, ih, hnext, hcalled]

end ParserFilelist

/-! ### Runs over documents -/

namespace Content

open ParserXml FilelistState

@[simp] theorem events_nil : ParserXml.events nil.calls = [] := rfl

/-- The events of an element are those of its start tag, of what it contains, its end tag, and
    those of what follows. -/
@[simp] theorem events_element (localname : List UInt8)
    (attributes : List (List UInt8 × List UInt8)) (children rest : Content) :
    ParserXml.events (element localname attributes children rest).calls =
      onStartElementNs localname attributes ++ ParserXml.events children.calls ++
        .tagEnd localname :: ParserXml.events rest.calls := by
  simp [calls, ParserXml.events, ParserXml.raise, onEndElementNs]

@[simp] theorem events_characters (ch after : List UInt8) (rest : Content) :
    ParserXml.events (characters ch after rest).calls =
      onCharacters ch after ++ ParserXml.events rest.calls := rfl

/-- Events of which none leaves the state or calls back. -/
theorem passes {state : FilelistState} {events : List XmlEvent}
    (h : ∀ event ∈ events, state.next event = state ∧ state.called event = false) :
    state.nexts events = state ∧ state.calls events = quiet events := by
  induction events with
  | nil => exact ⟨rfl, rfl⟩
  | cons event events ih =>
    obtain ⟨hnext, hcalled⟩ := h event List.mem_cons_self
    obtain ⟨hnexts, hcalls⟩ := ih fun event' hmem => h event' (List.mem_cons_of_mem _ hmem)
    simp [FilelistState.calls, quiet, hnext, hcalled, hnexts, hcalls]

/-- The tag of an element decides, its attributes do not. -/
theorem passes_onStartElementNs (state : FilelistState) (localname : List UInt8)
    (attributes : List (List UInt8 × List UInt8)) :
    state.nexts (onStartElementNs localname attributes) =
        state.next (.tagStart localname (findId attributes)) ∧
      state.calls (onStartElementNs localname attributes) =
        quiet (onStartElementNs localname attributes) := by
  set state' := state.next (.tagStart localname (findId attributes))
  have hattributes : ∀ event ∈ (attributes.filter (·.1 ≠ ascii "id")).map fun a =>
      XmlEvent.attr a.1 (cString a.2),
      state'.next event = state' ∧ state'.called event = false := by
    intro event hmem
    obtain ⟨a, -, rfl⟩ := List.mem_map.mp hmem
    cases state' <;> exact ⟨rfl, by simp [called]⟩
  obtain ⟨hnexts, hcalls⟩ := passes hattributes
  refine ⟨hnexts, ?_⟩
  simp only [onStartElementNs, FilelistState.calls]
  exact congrArg₂ List.cons (by simp [called]) hcalls

/-- Characters do nothing. -/
theorem passes_characters (state : FilelistState) (ch after : List UInt8) :
    state.nexts (onCharacters ch after) = state ∧
      state.calls (onCharacters ch after) = quiet (onCharacters ch after) := by
  apply passes
  intro event hmem
  obtain ⟨text, rfl⟩ : ∃ text, event = .text text := by
    simp only [onCharacters] at hmem
    split at hmem
    · exact ⟨_, List.mem_singleton.mp hmem⟩
    · cases hmem
  cases state <;> exact ⟨rfl, by simp [called]⟩

/-- The state while no `<a>` is being read. -/
def waiting (opened : Bool) : FilelistState :=
  if opened then .waitingForA else .waitingForDivFilelist

/-- Outside an entry a start tag opens the list, or an entry of an open list. -/
theorem next_waiting (opened : Bool) (localname : List UInt8)
    (attributes : List (List UInt8 × List UInt8)) :
    (waiting opened).next (.tagStart localname (findId attributes)) =
      if opened ∧ localname = ascii "a" then .consumingA
      else waiting (opened || isDivFilelist localname attributes) := by
  cases opened with
  | true => simp [waiting, next]
  | false =>
    -- only the tag of the file list leads on
    rw [isDivFilelist]
    generalize findId attributes = id
    cases id with
    | none => simp [waiting, next]
    | some value =>
      by_cases h : localname = ascii "div" ∧ value = fs2FilelistNodeId <;> simp [waiting, next, h]

/-- Inside of an `<a>` that is being read. -/
theorem passes_consumingA (c : Content) (h : c.NoNestedA true) :
    FilelistState.consumingA.nexts (ParserXml.events c.calls) = .consumingA ∧
      FilelistState.consumingA.calls (ParserXml.events c.calls) =
        quiet (ParserXml.events c.calls) := by
  induction c with
  | nil => exact ⟨rfl, rfl⟩
  | element localname attributes children rest ihChildren ihRest =>
    obtain ⟨hname, hchildren, hrest⟩ := h
    have hname' : localname ≠ ascii "a" := fun h => by simpa using hname h
    obtain ⟨hnexts, hcalls⟩ := ihChildren (by simpa using hchildren)
    obtain ⟨hnexts', hcalls'⟩ := ihRest hrest
    obtain ⟨hstart, hstart'⟩ := passes_onStartElementNs .consumingA localname attributes
    -- neither its tags nor what is between them end the `<a>`
    have hstay : FilelistState.consumingA.next (.tagStart localname (findId attributes)) =
      .consumingA := rfl
    have hend : FilelistState.consumingA.next (.tagEnd localname) = .consumingA := if_neg hname'
    have hend' : FilelistState.consumingA.called (.tagEnd localname) = false := by
      simpa [called] using hname'
    simp [FilelistState.calls, hstart, hstart', hstay, hend, hend', hnexts, hcalls, hnexts',
      hcalls']
  | characters ch after rest ih =>
    obtain ⟨hchars, hchars'⟩ := passes_characters .consumingA ch after
    obtain ⟨hnexts, hcalls⟩ := ih h
    simp [hchars, hchars', hnexts, hcalls]

/-- For each event of it, whether it calls back, after a file list has been opened or before. -/
def ends (opened : Bool) : Content → List Bool
  | nil => []
  | element localname attributes children rest =>
    quiet (onStartElementNs localname attributes) ++
      children.ends (opened || isDivFilelist localname attributes) ++
      (opened && localname = ascii "a") ::
        rest.ends (opened || isDivFilelist localname attributes || children.hasFilelist)
  | characters ch after rest => quiet (onCharacters ch after) ++ rest.ends opened

/-- Inside an entry without another `<a>` no entry ends. -/
theorem ends_of_noNestedA (opened : Bool) (c : Content) (h : c.NoNestedA true) :
    c.ends opened = quiet (ParserXml.events c.calls) := by
  induction c generalizing opened with
  | nil => rfl
  | element localname attributes children rest ihChildren ihRest =>
    obtain ⟨hname, hchildren, hrest⟩ := h
    have hname' : localname ≠ ascii "a" := fun h => by simpa using hname h
    rw [ends, ihChildren _ (by simpa using hchildren), ihRest _ hrest, events_element]
    simp [hname']
  | characters ch after rest ih => simp [ends, ih _ h]

/-- Which events call back, and the state that is left. -/
theorem calls_events (within opened : Bool) (c : Content) (h : c.NoNestedA within) :
    (waiting opened).nexts (ParserXml.events c.calls) = waiting (opened || c.hasFilelist) ∧
      (waiting opened).calls (ParserXml.events c.calls) = c.ends opened := by
  induction c generalizing within opened with
  | nil => simp [FilelistState.calls, ends, hasFilelist]
  | element localname attributes children rest ihChildren ihRest =>
    obtain ⟨hname, hchildren, hrest⟩ := h
    obtain ⟨hstart, hstart'⟩ := passes_onStartElementNs (waiting opened) localname attributes
    rw [next_waiting] at hstart
    by_cases ha : opened = true ∧ localname = ascii "a"
    -- an `<a>` after the file list has been opened: it is read to its end
    · obtain ⟨rfl, rfl⟩ := ha
      have hchildren' : children.NoNestedA true := by simpa using hchildren
      obtain ⟨hinner, hinner'⟩ := passes_consumingA children hchildren'
      obtain ⟨hnexts, hcalls⟩ := ihRest within true hrest
      have hback : FilelistState.consumingA.next (.tagEnd (ascii "a")) = waiting true := rfl
      simp only [and_self, if_true] at hstart
      simp [FilelistState.calls, ends, hasFilelist, hstart, hstart', hinner, hinner', hback, called,
        hnexts, hcalls, ends_of_noNestedA true children hchildren']
    · rw [if_neg ha] at hstart
      obtain ⟨hinner, hinner'⟩ := ihChildren _
        (opened || isDivFilelist localname attributes) hchildren
      obtain ⟨hnexts, hcalls⟩ := ihRest within
        (opened || isDivFilelist localname attributes || children.hasFilelist) hrest
      -- its end is passed over
      have hend : ∀ opened, (waiting opened).next (.tagEnd localname) = waiting opened := by
        intro opened
        cases opened <;> rfl
      have hend' : ∀ opened, (waiting opened).called (.tagEnd localname) = false := by
        intro opened
        cases opened <;> simp [waiting, called]
      have hquiet : (opened && decide (localname = ascii "a")) = false := by simpa using ha
      simp only [Bool.or_assoc] at hinner hnexts hcalls
      simp [FilelistState.calls, ends, hasFilelist, hstart, hstart', hinner, hinner', hend, hend',
        hnexts, hcalls, hquiet, Bool.or_assoc]
  | characters ch after rest ih =>
    obtain ⟨hchars, hchars'⟩ := passes_characters (waiting opened) ch after
    obtain ⟨hnexts, hcalls⟩ := ih within opened h
    simp [ends, hasFilelist, hchars, hchars', hnexts, hcalls]

/-! ### Which of them should -/

/-- There is one mark for each event. -/
theorem length_ends (opened : Bool) (c : Content) :
    (c.ends opened).length = (ParserXml.events c.calls).length := by
  induction c generalizing opened with
  | nil => rfl
  | element localname attributes children rest ihChildren ihRest =>
    simp [ends, ihChildren, ihRest]
  | characters ch after rest ih => simp [ends, ih]

/-- There is one mark for each event. -/
theorem length_entries (inside : Bool) (c : Content) :
    (c.entries inside).length = (ParserXml.events c.calls).length := by
  induction c generalizing inside with
  | nil => rfl
  | element localname attributes children rest ihChildren ihRest =>
    simp [entries, ihChildren, ihRest]
  | characters ch after rest ih => simp [entries, ih]

/-- Those that call back are those that should unless an `<a>` has strayed. -/
theorem ends_eq_entries_iff (inside opened : Bool) (c : Content) (h : inside → opened) :
    c.ends opened = c.entries inside ↔ c.NoStray inside opened := by
  induction c generalizing inside opened with
  | nil => exact iff_of_true rfl trivial
  | element localname attributes children rest ihChildren ihRest =>
    have hchildren := ihChildren (inside || isDivFilelist localname attributes)
      (opened || isDivFilelist localname attributes) (by grind)
    have hrest := ihRest inside
      (opened || isDivFilelist localname attributes || children.hasFilelist) (by grind)
    -- an `<a>` that is inside comes after the opening of what it is inside of
    have hname : (opened && decide (localname = ascii "a")) =
        (inside && decide (localname = ascii "a")) ↔ (localname = ascii "a" → opened → inside) := by
      by_cases hname : localname = ascii "a"
      · cases opened <;> cases inside <;> simp_all
      · simp [hname]
    simp only [ends, entries, NoStray, List.append_assoc, List.append_cancel_left_eq]
    rw [← hname, ← hchildren, ← hrest]
    constructor
    · intro heq
      obtain ⟨hinner, houter⟩ := List.append_inj heq (by rw [length_ends, length_entries])
      exact ⟨(List.cons.inj houter).1, hinner, (List.cons.inj houter).2⟩
    · rintro ⟨hend, hinner, houter⟩
      rw [hinner, hend, houter]
  | characters ch after rest ih =>
    simp only [ends, entries, NoStray, List.append_cancel_left_eq]
    exact ih inside opened h

end Content

namespace ParserFilelist

/-- The parser calls back for the entries of the file lists, each once and in order, exactly
    when no `<a>` comes after a file list outside of all of them. -/
theorem parse_calls_iff (document : Content) (hnested : document.NoNestedA false) :
    (parse document.calls).2.map Option.isSome = document.entries false ↔
      document.NoStray false false := by
  have hcalls := (Content.calls_events false false document hnested).2
  rw [parse, filelistXmlCbs_calls, ← Content.ends_eq_entries_iff false false document (by simp)]
  exact Iff.of_eq (congrArg (· = _) hcalls)

/-- A page with two entries, of which the first has markup of its own. -/
theorem parse_calls_page :
    let document : Content :=
      .element (ascii "body") []
        (.element (ascii "div") [(ascii "id", ascii "fs2-filelist")]
          (.element (ascii "a") [(ascii "fs2-name", ascii "x")]
            (.element (ascii "b") [] (.characters (ascii "x") [] .nil) .nil)
            (.element (ascii "a") [(ascii "fs2-name", ascii "y")] .nil .nil)) .nil) .nil
    (parse document.calls).2.map Option.isSome = document.entries false := by
  intro document
  exact (parse_calls_iff document (by decide +kernel)).mpr (by decide +kernel)

/-- A link below the list is taken for an entry of it. -/
theorem parse_calls_below_list :
    let document : Content :=
      .element (ascii "body") []
        (.element (ascii "div") [(ascii "id", ascii "fs2-filelist")] .nil
          (.element (ascii "a") [(ascii "href", ascii "/")] .nil .nil)) .nil
    document.NoNestedA false ∧
      (parse document.calls).2.map Option.isSome ≠ document.entries false := by
  decide +kernel

end ParserFilelist

end Fsfuse.Native
