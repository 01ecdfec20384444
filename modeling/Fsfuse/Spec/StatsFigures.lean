import Fsfuse.Spec.StatsCallbacks

/-!
# The figures of a stats page

Once the `<div>` with the figures has opened, the parser of stats pages looks for the two kinds of
`<span>` that carry them, wherever they are. It reads such a span only if the value is the first
of its attributes besides the id (`Slot.first`), and overlooks the tag behind a span that has no
others.

It calls back for a figure that it has read if neither this one nor the latest of the other kind
is zero (`completions`).

* `callbacks_eq_completions` — the callbacks of a page are the completions of the figures that
  are read on it.
-/

namespace Fsfuse.Native.ParserStats

open ParserXml

/-! ### Figures -/

/-- The two figures. -/
inductive FigureKind
  | fileCount
  | totalSize
deriving Repr, DecidableEq

namespace FigureKind

/-- The id of the spans of a kind. -/
def id : FigureKind → List UInt8
  | fileCount => ascii "file-count"
  | totalSize => ascii "total-size"

def other : FigureKind → FigureKind
  | fileCount => totalSize
  | totalSize => fileCount

/-- The state in which the parser waits for the value. -/
def consuming : FigureKind → StatsState
  | fileCount => .consumingFileCount
  | totalSize => .consumingTotalSize

/-- The other figure is another one. -/
@[simp] theorem other_ne (kind : FigureKind) : kind.other ≠ kind := by
  cases kind <;> decide

/-- The other of the other figure is the figure. -/
@[simp] theorem other_other (kind : FigureKind) : kind.other.other = kind := by
  cases kind <;> rfl

/-- There are two figures. -/
theorem eq_or_eq_other (kind kind' : FigureKind) : kind' = kind ∨ kind' = kind.other := by
  cases kind <;> cases kind' <;> decide

end FigureKind

/-- The figure that an element is for, if it is for one. -/
def figureKind (localname : List UInt8) (attributes : List (List UInt8 × List UInt8)) :
    Option FigureKind :=
  if localname = ascii "span" then
    if findId attributes = some (FigureKind.id .fileCount) then some .fileCount
    else if findId attributes = some (FigureKind.id .totalSize) then some .totalSize
    else none
  else none

/-- A span with a value: whether that is its first attribute besides the id, and whether it is the
    only one. -/
structure Slot where
  kind : FigureKind
  value : UInt64
  first : Bool
  sole : Bool
deriving Repr, DecidableEq

/-- The attributes that are raised as such. -/
def besidesId (attributes : List (List UInt8 × List UInt8)) : List (List UInt8 × List UInt8) :=
  attributes.filter (·.1 ≠ ascii "id")

/-- The slot of a span, by its attributes besides the id. -/
def slot (kind : FigureKind) (others : List (List UInt8 × List UInt8)) : Option Slot :=
  (others.find? (·.1 = ascii "value")).map fun a =>
    { kind := kind
      value := .ofInt (atoll (cString a.2))
      first := others.head?.map (·.1) = some (ascii "value")
      sole := others.length = 1 }

/-- The slots that the parser comes across. `overlooks` says whether it is still behind a span
    without other attributes. -/
def slots (overlooks : Bool) : List SaxCall → List Slot
  | [] => []
  | .startElementNs localname attributes :: page =>
    match overlooks, figureKind localname attributes with
    | false, some kind =>
      (slot kind (besidesId attributes)).toList ++ slots (besidesId attributes = []) page
    | _, _ => slots false page
  | .endElementNs _ :: page => slots false page
  | .characters ch after :: page => slots (overlooks && onCharacters ch after = []) page

/-- The figures that are read. -/
def read (slots : List Slot) : List (FigureKind × UInt64) :=
  (slots.filter (·.first)).map fun slot => (slot.kind, slot.value)

/-- The callbacks for some figures, after those in `latest`. -/
def completions (latest : FigureKind → UInt64) : List (FigureKind × UInt64) → List (UInt64 × UInt64)
  | [] => []
  | (kind, n) :: figures =>
    let latest' := Function.update latest kind n
    (if n ≠ 0 ∧ latest kind.other ≠ 0 then [(latest' .fileCount, latest' .totalSize)] else []) ++
      completions latest' figures

/-- The latest figures after some more. -/
def latestOf (latest : FigureKind → UInt64) (figures : List (FigureKind × UInt64)) :
    FigureKind → UInt64 :=
  figures.foldl (fun latest figure => Function.update latest figure.1 figure.2) latest

/-- The `<div>` that the figures are in. -/
def isDivGeneral (localname : List UInt8) (attributes : List (List UInt8 × List UInt8)) : Bool :=
  localname = ascii "div" ∧ findId attributes = some (ascii "general")

/-- The page behind the tag of that `<div>`. -/
def behindGeneral : List SaxCall → List SaxCall
  | [] => []
  | .startElementNs localname attributes :: page =>
    if isDivGeneral localname attributes then page else behindGeneral page
  | _ :: page => behindGeneral page

/-- The figures that are read on a page. -/
def figuresRead (page : List SaxCall) : List (FigureKind × UInt64) :=
  read (slots false (behindGeneral page))

/-- Related values stay related when both are updated in the same place. -/
theorem rel_update {α β : Type*} {R : FigureKind → α → β → Prop} {f : FigureKind → α}
    {g : FigureKind → β} (h : ∀ kind, R kind (f kind) (g kind)) (kind : FigureKind) {a : α} {b : β}
    (hab : R kind a b) (kind' : FigureKind) :
    R kind' (Function.update f kind a kind') (Function.update g kind b kind') := by
  obtain rfl | hne := eq_or_ne kind' kind
  · simpa using hab
  · simpa [hne] using h kind'

/-! ### How they are read -/

/-- The parser in some state, with the latest figures. -/
def parserAt (state : StatsState) (latest : FigureKind → UInt64) : ParserStats :=
  ⟨state, latest .fileCount, latest .totalSize⟩

/-- The value of a figure. -/
theorem statsXmlCb_value (kind : FigureKind) (latest : FigureKind → UInt64) (v : List UInt8) :
    statsXmlCb record (parserAt kind.consuming latest) [] (.attr (ascii "value") v) =
      .ok (parserAt .waitingForSpanWithId (Function.update latest kind (.ofInt (atoll v))),
        completions latest [(kind, .ofInt (atoll v))]) := by
  generalize hn : UInt64.ofInt (atoll v) = n
  -- whether it calls back
  by_cases hzero : n = 0 <;> by_cases hlatest : latest kind.other = 0 <;> cases kind <;>
    simp_all [statsXmlCb, FigureKind.consuming, FigureKind.other, parserAt, raiseCbIfDone,
      completions, record, bind, Except.bind, pure, Except.pure]

/-- Anything else gives it up. -/
theorem statsXmlCb_consuming (kind : FigureKind) (latest : FigureKind → UInt64) {event : XmlEvent}
    (hevent : ∀ v, event ≠ .attr (ascii "value") v) :
    statsXmlCb record (parserAt kind.consuming latest) [] event =
      .ok (parserAt .waitingForSpanWithId latest, []) := by
  cases event with
  | attr name value =>
    have hname : name ≠ ascii "value" := by
      rintro rfl
      exact hevent value rfl
    cases kind <;> simp [statsXmlCb, FigureKind.consuming, parserAt, hname]
  | _ => cases kind <;> rfl

/-- A tag is waited for, and only the ids of spans tell. -/
theorem statsXmlCb_tagStart (latest : FigureKind → UInt64) (localname : List UInt8)
    (attributes : List (List UInt8 × List UInt8)) :
    statsXmlCb record (parserAt .waitingForSpanWithId latest) []
        (.tagStart localname (findId attributes)) =
      .ok (parserAt (((figureKind localname attributes).map FigureKind.consuming).getD
        .waitingForSpanWithId) latest, []) := by
  rw [figureKind]
  generalize findId attributes = id
  -- the three tests of the source: the name, and the two ids
  by_cases hname : localname = ascii "span"
  · cases id with
    | none => simp [statsXmlCb, parserAt, hname]
    | some id =>
      by_cases hfiles : id = ascii "file-count"
      · simp [statsXmlCb, parserAt, hname, hfiles, FigureKind.id, FigureKind.consuming]
      · by_cases hbytes : id = ascii "total-size"
        · subst hbytes
          simp [statsXmlCb, parserAt, hname, hfiles, FigureKind.id, FigureKind.consuming]
        · simp [statsXmlCb, parserAt, hname, hfiles, hbytes, FigureKind.id]
  · cases id <;> simp [statsXmlCb, parserAt, hname]

/-- Meanwhile all other events are passed over. -/
theorem statsXmlCb_waiting (latest : FigureKind → UInt64) {event : XmlEvent}
    (hevent : ∀ name id, event ≠ .tagStart name id) :
    statsXmlCb record (parserAt .waitingForSpanWithId latest) [] event =
      .ok (parserAt .waitingForSpanWithId latest, []) := by
  cases event with
  | tagStart name id => exact absurd rfl (hevent name id)
  | _ => rfl

/-- Events taken together make the calls that they make one after the other. -/
theorem statsXmlCbs_append (parser : ParserStats) (events events' : List XmlEvent) :
    statsXmlCbs record parser [] (events ++ events') =
      (statsXmlCbs record parser [] events).bind fun r =>
        (statsXmlCbs record r.1 [] events').map fun r' => (r'.1, r.2 ++ r'.2) := by
  have happend : statsXmlCbs record parser [] (events ++ events') =
      (statsXmlCbs record parser [] events).bind fun r => statsXmlCbs record r.1 r.2 events' := by
    simp only [statsXmlCbs, List.foldlM_append]
    rfl
  rw [happend]
  cases statsXmlCbs record parser [] events with
  | error _ => rfl
  | ok r => exact statsXmlCbs_record r.1 r.2 events'

/-- The attributes of an element that is not for a figure, or of which enough is known. -/
theorem statsXmlCbs_attributes (latest : FigureKind → UInt64)
    (attributes : List (List UInt8 × List UInt8)) :
    statsXmlCbs record (parserAt .waitingForSpanWithId latest) []
        (attributes.map fun a => .attr a.1 (cString a.2)) =
      .ok (parserAt .waitingForSpanWithId latest, []) := by
  induction attributes with
  | nil => rfl
  | cons a attributes ih =>
    rw [List.map_cons, statsXmlCbs_cons, statsXmlCb_waiting latest (fun _ _ h => by cases h)]
    exact ih

/-- Figures taken together complete what they complete one after the other. -/
theorem completions_append (latest : FigureKind → UInt64)
    (figures figures' : List (FigureKind × UInt64)) :
    completions latest (figures ++ figures') =
      completions latest figures ++ completions (latestOf latest figures) figures' := by
  induction figures generalizing latest with
  | nil => rfl
  | cons figure figures ih =>
    simp only [List.cons_append, completions, ih, List.append_assoc]
    rfl

/-- A figure is read from the first attribute or not at all. -/
theorem statsXmlCbs_slot (kind : FigureKind) (latest : FigureKind → UInt64)
    {others : List (List UInt8 × List UInt8)} (hne : others ≠ []) :
    statsXmlCbs record (parserAt kind.consuming latest) []
        (others.map fun a => .attr a.1 (cString a.2)) =
      .ok (parserAt .waitingForSpanWithId (latestOf latest (read (slot kind others).toList)),
        completions latest (read (slot kind others).toList)) := by
  -- only the first attribute besides the id is looked at
  cases others with
  | nil => exact absurd rfl hne
  | cons a others =>
    obtain ⟨name, value⟩ := a
    rw [List.map_cons, statsXmlCbs_cons]
    by_cases hname : name = ascii "value"
    · subst hname
      have hread : read (slot kind ((ascii "value", value) :: others)).toList =
          [(kind, .ofInt (atoll (cString value)))] := by
        simp [slot, read]
      rw [hread, statsXmlCb_value]
      simp only [Except.bind]
      rw [statsXmlCbs_record, statsXmlCbs_attributes]
      simp [Except.map, latestOf]
    · have hread : read (slot kind ((name, value) :: others)).toList = [] := by
        cases hslot : slot kind ((name, value) :: others) with
        | none => rfl
        | some s =>
          have hfirst : s.first = false := by
            simp only [slot, Option.map_eq_some_iff] at hslot
            obtain ⟨a, -, rfl⟩ := hslot
            simpa using hname
          simp [read, hfirst]
      -- any other attribute takes the parser back to waiting for a span
      have hevent : ∀ v, XmlEvent.attr name (cString value) ≠ .attr (ascii "value") v := by
        intro v heq
        cases heq
        exact hname rfl
      rw [hread, statsXmlCb_consuming kind latest hevent]
      exact statsXmlCbs_attributes latest others

/-- The parser between two calls. Behind a span without other attributes it waits for the value
    of some kind. -/
def between (overlooks : Bool) (kind : FigureKind) : StatsState :=
  if overlooks then kind.consuming else .waitingForSpanWithId

/-- A span for a figure. -/
theorem statsXmlCbs_span (latest : FigureKind → UInt64) {kind : FigureKind}
    {localname : List UInt8} {attributes : List (List UInt8 × List UInt8)}
    (hkind : figureKind localname attributes = some kind) :
    statsXmlCbs record (parserAt .waitingForSpanWithId latest) []
        (onStartElementNs localname attributes) =
      .ok (parserAt (between (besidesId attributes = []) kind)
          (latestOf latest (read (slot kind (besidesId attributes)).toList)),
        completions latest (read (slot kind (besidesId attributes)).toList)) := by
  rw [onStartElementNs, statsXmlCbs_cons, statsXmlCb_tagStart, hkind]
  by_cases hnil : besidesId attributes = []
  · have hattributes : attributes.filter (·.1 ≠ ascii "id") = [] := hnil
    rw [hnil, hattributes]
    rfl
  · have hwaits : between (besidesId attributes = []) kind = .waitingForSpanWithId := by
      simp [between, hnil]
    rw [hwaits]
    exact statsXmlCbs_slot kind latest hnil

/-- An element that is not for a figure, or that is overlooked. -/
theorem statsXmlCbs_other (latest : FigureKind → UInt64) (overlooks : Bool) (kind : FigureKind)
    {localname : List UInt8} {attributes : List (List UInt8 × List UInt8)}
    (hother : overlooks = true ∨ figureKind localname attributes = none) :
    statsXmlCbs record (parserAt (between overlooks kind) latest) []
        (onStartElementNs localname attributes) =
      .ok (parserAt .waitingForSpanWithId latest, []) := by
  -- the parser is back at waiting for a span, whether it overlooks the tag or is not meant
  have htag : statsXmlCb record (parserAt (between overlooks kind) latest) []
      (.tagStart localname (findId attributes)) =
        .ok (parserAt .waitingForSpanWithId latest, []) := by
    cases overlooks with
    | true => exact statsXmlCb_consuming kind latest nofun
    | false =>
      have hnone : figureKind localname attributes = none := by simpa using hother
      have hstart := statsXmlCb_tagStart latest localname attributes
      rw [hnone] at hstart
      exact hstart
  rw [onStartElementNs, statsXmlCbs_cons, htag]
  exact statsXmlCbs_attributes latest _

/-- An event other than the start of an element. -/
theorem statsXmlCbs_event (latest : FigureKind → UInt64) (overlooks : Bool) (kind : FigureKind)
    {event : XmlEvent} (hstart : ∀ name id, event ≠ .tagStart name id)
    (hattr : ∀ name value, event ≠ .attr name value) :
    statsXmlCbs record (parserAt (between overlooks kind) latest) [] [event] =
      .ok (parserAt .waitingForSpanWithId latest, []) := by
  have hcb : statsXmlCb record (parserAt (between overlooks kind) latest) [] event =
      .ok (parserAt .waitingForSpanWithId latest, []) := by
    cases overlooks with
    | true => exact statsXmlCb_consuming kind latest (hattr _)
    | false => exact statsXmlCb_waiting latest hstart
  rw [statsXmlCbs_cons, hcb]
  rfl

/-- Slots are read one after the other as they are read together. -/
theorem read_append (slots slots' : List Slot) :
    read (slots ++ slots') = read slots ++ read slots' := by
  simp [read]

/-- A call that has some slots read, and what comes after it. -/
theorem statsXmlCbs_call {state : StatsState} {latest : FigureKind → UInt64} {call : SaxCall}
    {page : List SaxCall} {state' : StatsState} (slots₁ : List Slot) {slots₂ : List Slot}
    (hcall : statsXmlCbs record (parserAt state latest) [] (raise call) =
      .ok (parserAt state' (latestOf latest (read slots₁)), completions latest (read slots₁)))
    (hpage : ∃ parser, statsXmlCbs record (parserAt state' (latestOf latest (read slots₁))) []
      (events page) = .ok (parser, completions (latestOf latest (read slots₁)) (read slots₂))) :
    ∃ parser, statsXmlCbs record (parserAt state latest) [] (events (call :: page)) =
      .ok (parser, completions latest (read (slots₁ ++ slots₂))) := by
  obtain ⟨parser, hpage⟩ := hpage
  have hevents : events (call :: page) = raise call ++ events page := rfl
  rw [hevents, statsXmlCbs_append, hcall, read_append, completions_append]
  simp only [Except.bind]
  rw [hpage]
  exact ⟨parser, rfl⟩

/-- Behind the tag of the `<div>` the parser calls back for what it reads. -/
theorem statsXmlCbs_slots (overlooks : Bool) (kind : FigureKind) (latest : FigureKind → UInt64)
    (page : List SaxCall) :
    ∃ parser, statsXmlCbs record (parserAt (between overlooks kind) latest) [] (events page) =
      .ok (parser, completions latest (read (slots overlooks page))) := by
  -- over the calls, from any state between two of them
  induction page generalizing overlooks kind latest with
  | nil => exact ⟨_, rfl⟩
  | cons call page ih =>
    cases call with
    | startElementNs localname attributes =>
      cases hkind : figureKind localname attributes with
      | none =>
        have hslots : slots overlooks (.startElementNs localname attributes :: page) =
            [] ++ slots false page := by
          simp only [slots, hkind, List.nil_append]
        rw [hslots]
        exact statsXmlCbs_call [] (statsXmlCbs_other latest overlooks kind (.inr hkind))
          (ih false kind latest)
      | some kind' =>
        cases overlooks with
        | true =>
          exact statsXmlCbs_call [] (statsXmlCbs_other latest true kind (.inl rfl))
            (ih false kind latest)
        | false =>
          simp only [slots, hkind]
          exact statsXmlCbs_call _ (statsXmlCbs_span latest hkind) (ih _ kind' _)
    | endElementNs localname =>
      exact statsXmlCbs_call [] (statsXmlCbs_event latest overlooks kind nofun nofun)
        (ih false kind latest)
    | characters ch after =>
      by_cases hevents : onCharacters ch after = []
      · -- white space changes nothing
        have hslots : slots overlooks (.characters ch after :: page) =
            [] ++ slots overlooks page := by
          simp [slots, hevents]
        have hcall : statsXmlCbs record (parserAt (between overlooks kind) latest) []
            (raise (.characters ch after)) =
              .ok (parserAt (between overlooks kind) latest, []) := by
          simp only [raise, hevents]
          rfl
        rw [hslots]
        exact statsXmlCbs_call [] hcall (ih overlooks kind latest)
      · have hslots : slots overlooks (.characters ch after :: page) = [] ++ slots false page := by
          simp [slots, hevents]
        have htext : onCharacters ch after = [.text (cString ch)] := by
          simp only [onCharacters, ite_eq_right_iff, reduceCtorEq, imp_false, not_not] at hevents ⊢
          simp [hevents]
        have hcall : statsXmlCbs record (parserAt (between overlooks kind) latest) []
            [.text (cString ch)] = .ok (parserAt .waitingForSpanWithId latest, []) :=
          statsXmlCbs_event latest overlooks kind nofun nofun
        rw [← htext] at hcall
        rw [hslots]
        exact statsXmlCbs_call [] hcall (ih false kind latest)

/-! ### The callbacks of a page -/

/-- The parser goes over events before the tag of the `<div>`. -/
theorem statsXmlCbs_before {before : List XmlEvent} (rest : List XmlEvent)
    (hdiv : ∀ event ∈ before, event ≠ divGeneral ∧ event ≠ .tagStart (ascii "div") none) :
    statsXmlCbs record new [] (before ++ rest) = statsXmlCbs record new [] rest := by
  induction before with
  | nil => rfl
  | cons event before ih =>
    obtain ⟨hevent, hbefore⟩ := List.forall_mem_cons.mp hdiv
    rw [List.cons_append, statsXmlCbs_cons, statsXmlCb_new [] hevent.1, if_neg hevent.2]
    exact ih hbefore

/-- The tag itself. -/
theorem statsXmlCbs_divGeneral {localname : List UInt8}
    {attributes : List (List UInt8 × List UInt8)} (hgeneral : isDivGeneral localname attributes)
    (rest : List XmlEvent) :
    statsXmlCbs record new [] (onStartElementNs localname attributes ++ rest) =
      statsXmlCbs record (parserAt .waitingForSpanWithId fun _ => 0) [] rest := by
  have htag : XmlEvent.tagStart localname (findId attributes) = divGeneral := by
    simpa [divGeneral, isDivGeneral] using hgeneral
  have hcb : statsXmlCb record new [] divGeneral =
      .ok (parserAt .waitingForSpanWithId fun _ => 0, []) := rfl
  rw [onStartElementNs, List.cons_append, statsXmlCbs_cons, htag, hcb]
  simp only [Except.bind]
  rw [statsXmlCbs_append, statsXmlCbs_attributes]
  simp only [Except.bind, List.nil_append]
  cases statsXmlCbs record (parserAt .waitingForSpanWithId fun _ => 0) [] rest <;> rfl

/-- A call starts the `<div>`, or stops the parser, or is passed over. -/
theorem call_cases (call : SaxCall) :
    (∃ localname attributes, call = .startElementNs localname attributes ∧
      isDivGeneral localname attributes) ∨
    (raise call).head? = some (.tagStart (ascii "div") none) ∨
    (∀ page, behindGeneral (call :: page) = behindGeneral page) ∧
      ∀ event ∈ raise call, event ≠ divGeneral ∧ event ≠ .tagStart (ascii "div") none := by
  cases call with
  -- a start tag is the one of the figures, one without an id, or passed over
  | startElementNs localname attributes =>
    by_cases hgeneral : isDivGeneral localname attributes
    · exact .inl ⟨localname, attributes, rfl, hgeneral⟩
    by_cases hbare : XmlEvent.tagStart localname (findId attributes) = .tagStart (ascii "div") none
    · exact .inr (.inl (congrArg some hbare))
    right; right
    constructor
    · intro page
      simp only [behindGeneral, hgeneral, Bool.false_eq_true, if_false]
    · intro event hevent
      simp only [raise, onStartElementNs, List.mem_cons, List.mem_map] at hevent
      obtain rfl | ⟨a, -, rfl⟩ := hevent
      · constructor
        · simpa [divGeneral, isDivGeneral] using hgeneral
        · exact hbare
      · exact ⟨nofun, nofun⟩
  | endElementNs localname =>
    right; right
    exact ⟨fun _ => rfl, by simp [raise, onEndElementNs, divGeneral]⟩
  | characters ch after =>
    right; right
    refine ⟨fun _ => rfl, ?_⟩
    simp only [raise, onCharacters]
    split <;> simp [divGeneral]

/-- Whether a page is readable is up to its first call, or to the others. -/
theorem readable_cons_iff (call : SaxCall) (page : List SaxCall) :
    Readable (call :: page) ↔ (raise call).head? = some divGeneral ∨
      (raise call).head? ≠ some (.tagStart (ascii "div") none) ∧ Readable page := by
  have hevents : events (call :: page) = raise call ++ events page := rfl
  rw [Readable, hevents]
  -- which of the three the first call is decides it
  obtain ⟨localname, attributes, rfl, hgeneral⟩ | hbare | ⟨-, hpassed⟩ := call_cases call
  · have hhead : (raise (.startElementNs localname attributes)).head? = some divGeneral := by
      simpa [raise, onStartElementNs, divGeneral, isDivGeneral] using hgeneral
    obtain ⟨rest, hrest⟩ := List.head?_eq_some_iff.mp hhead
    simp [hrest]
  · obtain ⟨rest, hrest⟩ := List.head?_eq_some_iff.mp hbare
    simp [hrest, divGeneral]
  · have hhead : ∀ event, (raise call).head? = some event →
        event ≠ divGeneral ∧ event ≠ .tagStart (ascii "div") none :=
      -- neither tag is among the events that are passed over
      fun event hevent => hpassed event (List.mem_of_head? hevent)
    have hnone : (raise call).head? ≠ some divGeneral := fun h => (hhead _ h).1 rfl
    have hbare : (raise call).head? ≠ some (.tagStart (ascii "div") none) :=
      fun h => (hhead _ h).2 rfl
    have hmem : .tagStart (ascii "div") none ∉ raise call := fun h => (hpassed _ h).2 rfl
    have hpos : ∀ event ∈ raise call, (decide (event ≠ divGeneral)) = true :=
      fun event hevent => by simpa using (hpassed event hevent).1
    rw [List.takeWhile_append_of_pos hpos]
    simp [hnone, hbare, hmem, Readable]

/-- A readable page calls back for what is read behind the tag. -/
theorem statsXmlCbs_figuresRead {page : List SaxCall} (hreadable : Readable page) :
    ∃ parser, statsXmlCbs record new [] (events page) =
      .ok (parser, completions (fun _ => 0) (figuresRead page)) := by
  -- until the figures' tag nothing is called back
  induction page with
  | nil => exact ⟨_, rfl⟩
  | cons call page ih =>
    have hevents : events (call :: page) = raise call ++ events page := rfl
    have hcons := (readable_cons_iff call page).mp hreadable
    rw [hevents]
    obtain ⟨localname, attributes, rfl, hgeneral⟩ | hbare | ⟨hbehind, hpassed⟩ := call_cases call
    · have hfigures : figuresRead (.startElementNs localname attributes :: page) =
          read (slots false page) := by
        simp only [figuresRead, behindGeneral, hgeneral, if_true]
      rw [raise, statsXmlCbs_divGeneral hgeneral, hfigures]
      exact statsXmlCbs_slots false .fileCount _ page
    · -- such a page is not readable
      simp [hbare, divGeneral] at hcons
    · have htail : Readable page := by
        obtain hgeneral | ⟨-, htail⟩ := hcons
        · exact absurd rfl (hpassed _ (List.mem_of_head? hgeneral)).1
        · exact htail
      have hfigures : figuresRead (call :: page) = figuresRead page := by
        simp only [figuresRead, hbehind]
      rw [statsXmlCbs_before _ hpassed, hfigures]
      exact ih htail

/-- What a readable page is called back for is the completions of the figures read on it. -/
theorem reading_of_readable {page : List SaxCall} (hreadable : Readable page) :
    (reading page).map Prod.snd = .ok (completions (fun _ => 0) (figuresRead page)) := by
  obtain ⟨parser, hreading⟩ := statsXmlCbs_figuresRead hreadable
  simp only [reading, parse, hreading, Except.map]

/-- A page that is not readable stops the parser. -/
theorem reading_of_not_readable {page : List SaxCall} (hreadable : ¬ Readable page) :
    reading page = .error .nullPointer := by
  rw [Readable, not_not] at hreadable
  rw [reading, parse]
  generalize events page = events at hreadable ⊢
  induction events with
  | nil => cases hreadable
  | cons event events ih =>
    by_cases hgeneral : event = divGeneral
    · simp [hgeneral] at hreadable
    · rw [List.takeWhile_cons_of_pos (by simpa using hgeneral), List.mem_cons] at hreadable
      rw [statsXmlCbs_cons, statsXmlCb_new [] hgeneral]
      by_cases hbare : event = .tagStart (ascii "div") none
      · rw [if_pos hbare]
        rfl
      · rw [if_neg hbare]
        exact ih (hreadable.resolve_left (Ne.symm hbare))

/-- The callbacks of a readable page are the completions of the figures read on it. -/
theorem callbacks_eq_completions {page : List SaxCall} (hreadable : Readable page) :
    callbacks page = completions (fun _ => 0) (figuresRead page) := by
  obtain ⟨parser, hreading⟩ := statsXmlCbs_figuresRead hreadable
  simp only [callbacks, reading, parse, hreading]

/-- A page that is not readable has none. -/
theorem callbacks_of_not_readable {page : List SaxCall} (hreadable : ¬ Readable page) :
    callbacks page = [] := by
  simp only [callbacks, reading_of_not_readable hreadable]

end Fsfuse.Native.ParserStats
