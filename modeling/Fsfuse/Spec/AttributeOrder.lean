import Fsfuse.Spec.EntryAttributes
import Fsfuse.Spec.FigureChoices

/-!
# The order of attributes

In what order an element has its attributes should not matter to the parsers.

It does not to the one of file lists. The one of stats pages reads a figure only if the value is
the first of the attributes besides the id, so the orders of a page come to choices of the spans
that are read, and the pages that are reported the same in any order are those on which nothing
depends on them (`Settled`).

* `chosen_of_reordered`, `exists_reordered` — the choices are those of the orders;
* `filelistXmlCbs_reordered` — a file list is read the same in any order;
* `sameInAnyOrder_iff` — exactly when both parsers make the same calls.
-/

namespace Fsfuse.Native

/-! ### Orders -/

/-- A call is another one with its attributes in some order. -/
inductive ReorderedCall : SaxCall → SaxCall → Prop
  | startElementNs (localname : List UInt8)
    {attributes attributes' : List (List UInt8 × List UInt8)} : attributes.Perm attributes' →
      ReorderedCall (.startElementNs localname attributes) (.startElementNs localname attributes')
  | endElementNs (localname : List UInt8) :
    ReorderedCall (.endElementNs localname) (.endElementNs localname)
  | characters (ch after : List UInt8) : ReorderedCall (.characters ch after) (.characters ch after)

/-- A document is another one with the attributes of its elements in some orders. -/
def Reordered : List SaxCall → List SaxCall → Prop := List.Forall₂ ReorderedCall

/-- A call is a reordered version of itself. -/
theorem ReorderedCall.refl (call : SaxCall) : ReorderedCall call call := by
  cases call with
  | startElementNs localname attributes => exact .startElementNs localname (.refl _)
  | endElementNs localname => exact .endElementNs localname
  | characters ch after => exact .characters ch after

/-- A document is a reordered version of itself. -/
theorem Reordered.refl (document : List SaxCall) : Reordered document document :=
  List.forall₂_same.mpr fun call _ => .refl call

/-- Attributes have distinct names, and there are not both of those that count links. -/
def Distinct (attributes : List (List UInt8 × List UInt8)) : Prop :=
  (attributes.map (·.1)).Nodup ∧
    ¬ (fs2LinkcountAttributeKey ∈ attributes.map (·.1) ∧
      fs2AlternativescountAttributeKey ∈ attributes.map (·.1))

instance (attributes : List (List UInt8 × List UInt8)) : Decidable (Distinct attributes) :=
  inferInstanceAs (Decidable (_ ∧ _))

/-- Attributes of which some are left out stay distinct. -/
theorem Distinct.sublist {attributes attributes' : List (List UInt8 × List UInt8)}
    (h : Distinct attributes) (hsub : (attributes'.map (·.1)).Sublist (attributes.map (·.1))) :
    Distinct attributes' :=
  ⟨h.1.sublist hsub, fun hboth => h.2 ⟨hsub.subset hboth.1, hsub.subset hboth.2⟩⟩

/-- The attributes that come with a call. -/
def SaxCall.attributes : SaxCall → List (List UInt8 × List UInt8)
  | .startElementNs _ attributes => attributes
  | _ => []

/-- The elements of a document have distinct attributes. -/
def DistinctAttributes (document : List SaxCall) : Prop :=
  ∀ call ∈ document, Distinct call.attributes

instance (document : List SaxCall) : Decidable (DistinctAttributes document) :=
  inferInstanceAs (Decidable (∀ call ∈ document, _))

/-- The attributes of the first element are distinct. -/
theorem DistinctAttributes.head {localname : List UInt8}
    {attributes : List (List UInt8 × List UInt8)} {document : List SaxCall}
    (h : DistinctAttributes (.startElementNs localname attributes :: document)) :
    Distinct attributes := h _ (List.mem_cons_self ..)

/-- The attributes of the elements after the first are distinct. -/
theorem DistinctAttributes.tail {call : SaxCall} {document : List SaxCall}
    (h : DistinctAttributes (call :: document)) : DistinctAttributes document :=
  fun call hmem => h call (List.mem_cons_of_mem _ hmem)

/-- An attribute is found in any order if its name is the only one that is looked for. -/
theorem findSome?_attribute_perm {β : Type*}
    {attributes attributes' : List (List UInt8 × List UInt8)}
    (h : attributes.Perm attributes') (hnodup : (attributes.map (·.1)).Nodup)
    (f : List UInt8 × List UInt8 → Option β)
    (hname : ∀ a ∈ attributes, ∀ b ∈ attributes, f a ≠ none → f b ≠ none → a.1 = b.1) :
    attributes.findSome? f = attributes'.findSome? f := by
  apply List.findSome?_perm h
  intro a ha b hb x y hx hy
  have heq : a.1 = b.1 := hname a ha b hb (by simp [hx]) (by simp [hy])
  obtain rfl := List.inj_on_of_nodup_map hnodup ha hb heq
  rw [hx] at hy
  exact Option.some.inj hy

/-- The `id` that is found does not depend on the order. -/
theorem findId_perm {attributes attributes' : List (List UInt8 × List UInt8)}
    (h : attributes.Perm attributes') (hnodup : (attributes.map (·.1)).Nodup) :
    ParserXml.findId attributes = ParserXml.findId attributes' := by
  -- the last `id` is found; among distinct attributes there is only one
  let read (a : List UInt8 × List UInt8) : Option (Option (List UInt8)) :=
    if a.1 = ascii "id" then some (some (cString a.2)) else none
  have hfind : ∀ attributes : List (List UInt8 × List UInt8),
      ParserXml.findId attributes = (attributes.reverse.findSome? read).getD none := by
    intro attributes
    apply List.foldl_eq_getD_findSome?_reverse (fun id : Option (List UInt8) => id) _ read
    intro id a
    by_cases ha : a.1 = ascii "id" <;> simp [read, ha]
  have hreverse : attributes.reverse.Perm attributes'.reverse :=
    (List.reverse_perm _).trans (h.trans (List.reverse_perm _).symm)
  have hnodup' : (attributes.reverse.map (·.1)).Nodup := by
    rwa [List.map_reverse, List.nodup_reverse]
  have hname : ∀ a, read a ≠ none → a.1 = ascii "id" := by
    intro a ha
    by_contra hne
    exact ha (if_neg hne)
  rw [hfind, hfind, findSome?_attribute_perm hreverse hnodup' read
    fun a _ b _ ha hb => (hname a ha).trans (hname b hb).symm]

/-- What is given for a field does not depend on the order. -/
theorem Field.given_perm {attributes attributes' : List (List UInt8 × List UInt8)}
    (h : attributes.Perm attributes') (hdistinct : Distinct attributes) (field : Field) :
    field.given attributes = field.given attributes' := by
  have hreverse : attributes.reverse.Perm attributes'.reverse :=
    (List.reverse_perm _).trans (h.trans (List.reverse_perm _).symm)
  have hnodup' : (attributes.reverse.map (·.1)).Nodup := by
    rw [List.map_reverse, List.nodup_reverse]
    exact hdistinct.1
  apply findSome?_attribute_perm hreverse hnodup'
  intro a ha b hb hfa hfb
  have hname : ∀ c : List UInt8 × List UInt8,
      (if field.keys.contains c.1 then some (field.read c.2) else none) ≠ none →
        c.1 ∈ field.keys := by
    intro c hc
    by_contra hnot
    exact hc (if_neg (by simpa using hnot))
  have hka := hname a hfa
  have hkb := hname b hfb
  have hma : a.1 ∈ attributes.map (·.1) := List.mem_map_of_mem (List.mem_reverse.mp ha)
  have hmb : b.1 ∈ attributes.map (·.1) := List.mem_map_of_mem (List.mem_reverse.mp hb)
  cases field with
  | linkCount =>
    -- the one field with two names, of which only one is there
    simp only [Field.keys, List.mem_cons, List.not_mem_nil, or_false] at hka hkb
    obtain hka | hka := hka <;> obtain hkb | hkb := hkb
    · rw [hka, hkb]
    · exact absurd ⟨hka ▸ hma, hkb ▸ hmb⟩ hdistinct.2
    · exact absurd ⟨hkb ▸ hmb, hka ▸ hma⟩ hdistinct.2
    · rw [hka, hkb]
  | _ => simp_all [Field.keys]

namespace ParserFilelist

/-! ### File lists -/

/-- Events are taken one after the other as they are taken together. -/
theorem filelistXmlCbs_append (parser : ParserFilelist) (events events' : List XmlEvent) :
    parser.filelistXmlCbs (events ++ events') =
      ((parser.filelistXmlCbs events).1.filelistXmlCbs events').map id
        ((parser.filelistXmlCbs events).2 ++ ·) := by
  induction events generalizing parser with
  | nil => rfl
  | cons event events ih =>
    simp only [List.cons_append, filelistXmlCbs, ih]
    rfl

/-- Attributes are stored, if it is in an `<a>`. -/
theorem filelistXmlCbs_attributes (parser : ParserFilelist)
    (attributes : List (List UInt8 × List UInt8)) :
    parser.filelistXmlCbs (attributes.map fun a => .attr a.1 (cString a.2)) =
      (if parser.state = .consumingA then
          ⟨.consumingA, (attributes.map fun a => (a.1, cString a.2)).foldl
            (fun entry a => setAttribute entry a.1 a.2) parser.entry⟩
        else parser,
        List.replicate attributes.length none) := by
  induction attributes generalizing parser with
  | nil =>
    obtain ⟨state, entry⟩ := parser
    cases state <;> rfl
  | cons a attributes ih =>
    obtain ⟨state, entry⟩ := parser
    simp only [List.map_cons, filelistXmlCbs, ih, List.length_cons, List.replicate_succ]
    cases state <;> simp [filelistXmlCb]

/-- What distinct attributes make of an entry does not depend on their order. -/
theorem foldl_setAttribute_perm {attributes attributes' : List (List UInt8 × List UInt8)}
    (h : attributes.Perm attributes') (hdistinct : Distinct attributes) (entry : Found) :
    attributes.foldl (fun entry a => setAttribute entry a.1 a.2) entry =
      attributes'.foldl (fun entry a => setAttribute entry a.1 a.2) entry := by
  apply Found.ext_get
  intro field
  rw [get_foldl_setAttribute, get_foldl_setAttribute, field.given_perm h hdistinct]

/-- What the parser makes of a start tag does not depend on the order of its attributes. -/
theorem filelistXmlCbs_startElementNs_perm (parser : ParserFilelist) (localname : List UInt8)
    {attributes attributes' : List (List UInt8 × List UInt8)} (h : attributes.Perm attributes')
    (hdistinct : Distinct attributes) :
    parser.filelistXmlCbs (ParserXml.onStartElementNs localname attributes) =
      parser.filelistXmlCbs (ParserXml.onStartElementNs localname attributes') := by
  have hfilter : (attributes.filter (·.1 ≠ ascii "id")).Perm
      (attributes'.filter (·.1 ≠ ascii "id")) := h.filter _
  have hdistinct' : Distinct
      ((attributes.filter (·.1 ≠ ascii "id")).map fun a => (a.1, cString a.2)) := by
    apply hdistinct.sublist
    rw [List.map_map]
    exact List.filter_sublist.map _
  simp only [ParserXml.onStartElementNs, filelistXmlCbs, findId_perm h hdistinct.1,
    filelistXmlCbs_attributes, hfilter.length_eq,
    foldl_setAttribute_perm (hfilter.map _) hdistinct']

/-- The parser of file lists does not depend on the order. -/
theorem filelistXmlCbs_reordered {document document' : List SaxCall}
    (h : Reordered document document') (hdistinct : DistinctAttributes document)
    (parser : ParserFilelist) :
    parser.filelistXmlCbs (ParserXml.events document) =
      parser.filelistXmlCbs (ParserXml.events document') := by
  induction h generalizing parser with
  | nil => rfl
  -- call by call; only start tags are reordered
  | cons hcall hrest ih =>
    have hrest' := ih hdistinct.tail
    simp only [ParserXml.events, List.flatMap_cons] at hrest' ⊢
    rw [filelistXmlCbs_append, filelistXmlCbs_append]
    cases hcall with
    | startElementNs localname hperm =>
      have hstart := filelistXmlCbs_startElementNs_perm parser localname hperm hdistinct.head
      simp only [ParserXml.raise]
      rw [hstart, hrest']
    | endElementNs localname => rw [hrest']
    | characters ch after => rw [hrest']

end ParserFilelist

namespace ParserStats

open ParserXml

/-! ### Stats pages -/

/-- The attributes besides the `id` are reordered with the others. -/
theorem besidesId_perm {attributes attributes' : List (List UInt8 × List UInt8)}
    (h : attributes.Perm attributes') : (besidesId attributes).Perm (besidesId attributes') :=
  h.filter _

/-- Whether there are attributes besides the `id` does not depend on the order. -/
theorem besidesId_eq_nil_iff {attributes attributes' : List (List UInt8 × List UInt8)}
    (h : attributes.Perm attributes') : besidesId attributes = [] ↔ besidesId attributes' = [] := by
  rw [← List.length_eq_zero_iff, (besidesId_perm h).length_eq, List.length_eq_zero_iff]

/-- The attributes besides the `id` stay distinct. -/
theorem nodup_besidesId {attributes : List (List UInt8 × List UInt8)}
    (h : (attributes.map (·.1)).Nodup) : ((besidesId attributes).map (·.1)).Nodup :=
  h.sublist (List.filter_sublist.map _)

/-- Which figure a start tag announces does not depend on the order. -/
theorem figureKind_perm (localname : List UInt8)
    {attributes attributes' : List (List UInt8 × List UInt8)} (h : attributes.Perm attributes')
    (hnodup : (attributes.map (·.1)).Nodup) :
    figureKind localname attributes = figureKind localname attributes' := by
  rw [figureKind, figureKind, findId_perm h hnodup]

/-- In another order, a span is read for the same value, unless it is read only in one of them. -/
theorem slot_perm (kind : FigureKind) {others others' : List (List UInt8 × List UInt8)}
    (h : others.Perm others') (hnodup : (others.map (·.1)).Nodup) :
    slot kind others' = (slot kind others).map fun s =>
      { s with first := others'.head?.map (·.1) = some (ascii "value") } := by
  have hname : ∀ a : List UInt8 × List UInt8,
      Option.guard (·.1 = ascii "value") a ≠ none → a.1 = ascii "value" := by
    intro a ha
    by_contra hne
    exact ha (by simp [Option.guard, hne])
  have hfind : others.find? (·.1 = ascii "value") = others'.find? (·.1 = ascii "value") := by
    rw [List.find?_eq_findSome?_guard, List.find?_eq_findSome?_guard]
    exact findSome?_attribute_perm h hnodup _
      fun a _ b _ ha hb => (hname a ha).trans (hname b hb).symm
  simp only [slot, hfind, h.length_eq, Option.map_map]
  rfl

/-- A span without other attributes is always read. -/
theorem slot_first_of_sole {kind : FigureKind} {others : List (List UInt8 × List UInt8)} {s : Slot}
    (h : slot kind others = some s) (hsole : s.sole) : s.first := by
  simp only [slot, Option.map_eq_some_iff] at h
  obtain ⟨a, ha, rfl⟩ := h
  obtain ⟨b, rfl⟩ := List.length_eq_one_iff.mp (by simpa using hsole)
  have hb := List.find?_some ha
  obtain rfl := List.mem_singleton.mp (List.mem_of_find?_eq_some ha)
  simpa using hb

/-- What is read of a span in some order is a choice. -/
theorem chosen_slot (kind : FigureKind) {others others' : List (List UInt8 × List UInt8)}
    (h : others.Perm others') (hnodup : (others.map (·.1)).Nodup) {slots : List Slot}
    {figures : List (FigureKind × UInt64)} (hchosen : Chosen slots figures) :
    Chosen ((slot kind others).toList ++ slots) (read (slot kind others').toList ++ figures) := by
  have hslot := slot_perm kind h hnodup
  cases hs : slot kind others with
  | none =>
    rw [hs] at hslot
    rw [hslot]
    exact hchosen
  | some s =>
    rw [hs, Option.map_some] at hslot
    -- with the value in front the figure is read, otherwise the slot is skipped
    by_cases hfirst : others'.head?.map (·.1) = some (ascii "value")
    · have hread : read (slot kind others').toList = [(s.kind, s.value)] := by
        simp [hslot, read, hfirst]
      rw [hread]
      exact .read s hchosen
    · have hread : read (slot kind others').toList = [] := by
        simp [hslot, read, hfirst]
      have hsole : s.sole = false := by
        by_contra hsole
        have hfirst' := slot_first_of_sole hslot (by simpa using hsole)
        exact hfirst (by simpa using hfirst')
      rw [hread]
      exact .skip hsole hchosen

/-- What is read of a page in some order is a choice. -/
theorem chosen_of_reordered {page page' : List SaxCall} (h : Reordered page page')
    (hdistinct : DistinctAttributes page) (overlooks : Bool) :
    Chosen (slots overlooks page) (read (slots overlooks page')) := by
  induction h generalizing overlooks with
  | nil => exact .nil
  | @cons call call' page page' hcall hrest ih =>
    -- the figures of the first call are chosen from its slot, if it has one
    have ih' := ih hdistinct.tail
    cases hcall with
    | @startElementNs localname attributes attributes' hperm =>
      have hnodup := hdistinct.head.1
      have hbesides := besidesId_perm hperm
      simp only [slots, ← figureKind_perm localname hperm hnodup, ← besidesId_eq_nil_iff hperm]
      split
      · rw [read_append]
        exact chosen_slot _ hbesides (nodup_besidesId hnodup) (ih' _)
      · exact ih' false
    | endElementNs localname => exact ih' false
    | characters ch after => exact ih' _

/-- Any attribute besides the id is the first in some order. -/
theorem exists_first {attributes : List (List UInt8 × List UInt8)} {a : List UInt8 × List UInt8}
    (ha : a ∈ besidesId attributes) :
    ∃ attributes', attributes.Perm attributes' ∧ (besidesId attributes').head? = some a := by
  obtain ⟨hmem, hid⟩ := List.mem_filter.mp ha
  refine ⟨a :: attributes.erase a, List.perm_cons_erase hmem, ?_⟩
  have hfilter : besidesId (a :: attributes.erase a) = a :: besidesId (attributes.erase a) :=
    List.filter_cons_of_pos hid
  rw [hfilter, List.head?_cons]

/-- A span that has others has one that is not its value. -/
theorem exists_not_value {kind : FigureKind} {others : List (List UInt8 × List UInt8)} {s : Slot}
    (hs : slot kind others = some s) (hsole : s.sole = false) (hnodup : (others.map (·.1)).Nodup) :
    ∃ a ∈ others, a.1 ≠ ascii "value" := by
  by_contra hall
  push Not at hall
  simp only [slot, Option.map_eq_some_iff] at hs
  obtain ⟨a, ha, rfl⟩ := hs
  cases others with
  | nil => cases ha
  | cons b others =>
    cases others with
    | nil => simp at hsole
    | cons c others =>
      -- no two of them have the same name
      have hsame : b.1 = c.1 := (hall b (by simp)).trans (hall c (by simp)).symm
      simp [hsame] at hnodup

/-- All choices come about in some order. -/
theorem exists_slot {kind : FigureKind} {attributes : List (List UInt8 × List UInt8)}
    (hnodup : (attributes.map (·.1)).Nodup) {slots : List Slot}
    {figures : List (FigureKind × UInt64)}
    (hchosen : Chosen ((slot kind (besidesId attributes)).toList ++ slots) figures) :
    ∃ attributes' figures', attributes.Perm attributes' ∧ Chosen slots figures' ∧
      figures = read (slot kind (besidesId attributes')).toList ++ figures' := by
  cases hs : slot kind (besidesId attributes) with
  | none =>
    rw [hs] at hchosen
    exact ⟨attributes, figures, .refl _, hchosen, by rw [hs]; rfl⟩
  | some s =>
    rw [hs] at hchosen
    -- any of the attributes can be brought to the front
    have horder : ∀ a ∈ besidesId attributes, ∃ attributes', attributes.Perm attributes' ∧
        slot kind (besidesId attributes') = some { s with first := a.1 = ascii "value" } := by
      intro a ha
      obtain ⟨attributes', hperm, hhead⟩ := exists_first ha
      refine ⟨attributes', hperm, ?_⟩
      rw [slot_perm kind (besidesId_perm hperm) (nodup_besidesId hnodup), hs, hhead]
      simp
    -- the value is, or one that is none, as the figure was chosen or not
    cases hchosen with
    | read _ hrest =>
      obtain ⟨a, ha, -⟩ := Option.map_eq_some_iff.mp hs
      have hvalue := List.find?_some ha
      obtain ⟨attributes', hperm, hslot⟩ := horder a (List.mem_of_find?_eq_some ha)
      exact ⟨attributes', _, hperm, hrest, by simp_all [read]⟩
    | skip hsole hrest =>
      obtain ⟨a, ha, hvalue⟩ := exists_not_value hs hsole (nodup_besidesId hnodup)
      obtain ⟨attributes', hperm, hslot⟩ := horder a ha
      exact ⟨attributes', figures, hperm, hrest, by simp [hslot, read, hvalue]⟩

/-- Every choice of figures is what the parser reads from some reordered version of the page. -/
theorem exists_reordered {page : List SaxCall} (hdistinct : DistinctAttributes page)
    {overlooks : Bool} {figures : List (FigureKind × UInt64)}
    (hchosen : Chosen (slots overlooks page) figures) :
    ∃ page', Reordered page page' ∧ read (slots overlooks page') = figures := by
  induction page generalizing overlooks figures with
  | nil =>
    cases hchosen
    exact ⟨[], .nil, rfl⟩
  | cons call page ih =>
    -- most calls have no slots
    have hsame : ∀ {overlooks' : Bool}, Chosen (slots overlooks' page) figures →
        (∀ page, slots overlooks (call :: page) = slots overlooks' page) →
          ∃ page', Reordered (call :: page) page' ∧ read (slots overlooks page') = figures := by
      intro overlooks' hrest hslots
      obtain ⟨page', hpage, hfigures⟩ := ih hdistinct.tail hrest
      exact ⟨call :: page', .cons (.refl call) hpage, by rw [hslots, hfigures]⟩
    cases call with
    | startElementNs localname attributes =>
      by_cases hspan : ∃ kind, overlooks = false ∧ figureKind localname attributes = some kind
      · obtain ⟨kind, rfl, hkind⟩ := hspan
        have hnodup := hdistinct.head.1
        simp only [slots, hkind] at hchosen
        obtain ⟨attributes', figures', hperm, hrest, rfl⟩ := exists_slot hnodup hchosen
        obtain ⟨page', hpage, hfigures⟩ := ih hdistinct.tail hrest
        refine ⟨_, .cons (.startElementNs localname hperm) hpage, ?_⟩
        simp only [slots, ← figureKind_perm localname hperm hnodup, hkind,
          ← besidesId_eq_nil_iff hperm, read_append, hfigures]
      · have hslots : ∀ page, slots overlooks (.startElementNs localname attributes :: page) =
            slots false page := by
          intro page
          cases overlooks with
          | true => rfl
          | false =>
            cases hkind : figureKind localname attributes with
            | none => simp only [slots, hkind]
            | some kind => exact absurd ⟨kind, rfl, hkind⟩ hspan
        rw [hslots] at hchosen
        exact hsame hchosen hslots
    | endElementNs localname => exact hsame hchosen fun _ => rfl
    | characters ch after => exact hsame hchosen fun _ => rfl

/-- Whether a start tag is that of the general figures does not depend on the order. -/
theorem isDivGeneral_perm (localname : List UInt8)
    {attributes attributes' : List (List UInt8 × List UInt8)} (h : attributes.Perm attributes')
    (hnodup : (attributes.map (·.1)).Nodup) :
    isDivGeneral localname attributes = isDivGeneral localname attributes' := by
  rw [isDivGeneral, isDivGeneral, findId_perm h hnodup]

/-- What is behind the general figures is an end of the page. -/
theorem behindGeneral_suffix (page : List SaxCall) : behindGeneral page <:+ page := by
  induction page with
  | nil => exact List.suffix_rfl
  | cons call page ih =>
    cases call with
    | startElementNs localname attributes =>
      simp only [behindGeneral]
      split
      · exact List.suffix_cons _ page
      · exact ih.trans (List.suffix_cons _ page)
    | endElementNs localname => exact ih.trans (List.suffix_cons _ page)
    | characters ch after => exact ih.trans (List.suffix_cons _ page)

/-- What is behind the general figures has distinct attributes, as the page has. -/
theorem distinctAttributes_behindGeneral {page : List SaxCall} (h : DistinctAttributes page) :
    DistinctAttributes (behindGeneral page) :=
  fun call hmem => h call ((behindGeneral_suffix page).mem hmem)

/-- The order does not matter for where the figures are. -/
theorem reordered_behindGeneral {page page' : List SaxCall} (h : Reordered page page')
    (hdistinct : DistinctAttributes page) :
    Reordered (behindGeneral page) (behindGeneral page') := by
  induction h with
  | nil => exact .nil
  | @cons call call' page page' hcall hrest ih =>
    have ih' := ih hdistinct.tail
    cases hcall with
    | @startElementNs localname attributes attributes' hperm =>
      have hnodup := hdistinct.head.1
      simp only [behindGeneral, ← isDivGeneral_perm localname hperm hnodup]
      split
      · exact hrest
      · exact ih'
    | endElementNs localname => exact ih'
    | characters ch after => exact ih'

/-- Any order of what is behind it is part of one of the whole page. -/
theorem exists_reordered_behindGeneral {page behind : List SaxCall}
    (h : Reordered (behindGeneral page) behind) :
    ∃ page', Reordered page page' ∧ behindGeneral page' = behind := by
  induction page with
  | nil =>
    cases h
    exact ⟨[], .nil, rfl⟩
  | cons call page ih =>
    -- what comes before the figures is left as it is
    cases call with
    | startElementNs localname attributes =>
      simp only [behindGeneral] at h
      split at h
      · rename_i hgeneral
        exact ⟨_, .cons (.refl _) h, by simp only [behindGeneral, hgeneral, if_true]⟩
      · rename_i hgeneral
        obtain ⟨page', hpage, hbehind⟩ := ih h
        exact ⟨_, .cons (.refl _) hpage, by simp only [behindGeneral, hgeneral]; exact hbehind⟩
    | endElementNs localname =>
      obtain ⟨page', hpage, hbehind⟩ := ih h
      exact ⟨_, .cons (.refl _) hpage, hbehind⟩
    | characters ch after =>
      obtain ⟨page', hpage, hbehind⟩ := ih h
      exact ⟨_, .cons (.refl _) hpage, hbehind⟩

/-- Whether a `<div>` without an id comes before the figures does not depend on the order. -/
theorem readable_reordered {page page' : List SaxCall} (h : Reordered page page')
    (hdistinct : DistinctAttributes page) : Readable page ↔ Readable page' := by
  induction h with
  | nil => rfl
  | @cons call call' page page' hcall hrest ih =>
    have ih' := ih hdistinct.tail
    have hhead : (raise call).head? = (raise call').head? := by
      cases hcall with
      | @startElementNs localname attributes attributes' hperm =>
        have hnodup := hdistinct.head.1
        simp only [raise, onStartElementNs, findId_perm hperm hnodup, List.head?_cons]
      | endElementNs localname => rfl
      | characters ch after => rfl
    rw [readable_cons_iff, readable_cons_iff, hhead, ih']

/-- The stats callbacks are the same in any order just when nothing depends on the spans that can
    be read or not. -/
theorem reading_reordered_iff {document : List SaxCall} (hdistinct : DistinctAttributes document)
    (hreadable : Readable document) :
    (∀ document', Reordered document document' →
      (reading document').map Prod.snd = (reading document).map Prod.snd) ↔
      Settled (fun _ => [0]) (slots false (behindGeneral document)) := by
  have hdistinct' := distinctAttributes_behindGeneral hdistinct
  have hreading : ∀ document', Reordered document document' →
      (reading document').map Prod.snd =
        .ok (completions (fun _ => 0) (read (slots false (behindGeneral document')))) :=
    fun document' h => reading_of_readable ((readable_reordered h hdistinct).mp hreadable)
  rw [settled_iff fun _ => List.cons_ne_nil _ _]
  constructor
  · intro hsame latest latest' figures figures' h h' hchosen hchosen'
    -- at the start there are no figures
    have hzero : ∀ latest : FigureKind → UInt64, Among latest (fun _ => [0]) →
        latest = fun _ => 0 := by
      intro latest h
      funext kind
      exact List.mem_singleton.mp (h kind)
    -- every choice of figures is that of some reordered page
    have hfirst : ∀ figures, Chosen (slots false (behindGeneral document)) figures →
        (reading document).map Prod.snd = .ok (completions (fun _ => 0) figures) := by
      intro figures hchosen
      obtain ⟨behind, hbehind, rfl⟩ := exists_reordered hdistinct' hchosen
      obtain ⟨document', hdocument, rfl⟩ := exists_reordered_behindGeneral hbehind
      rw [← hsame document' hdocument, hreading document' hdocument]
    have heq := (hfirst figures hchosen).symm.trans (hfirst figures' hchosen')
    rw [hzero latest h, hzero latest' h']
    exact Except.ok.inj heq
  · intro hsame document' h
    have hbehind := reordered_behindGeneral h hdistinct
    have hamong : Among (fun _ => 0) (fun _ => [0]) := fun _ => List.mem_singleton_self 0
    rw [hreading document' h, hreading document (.refl document)]
    congr 1
    exact hsame _ _ _ _ hamong hamong (chosen_of_reordered hbehind hdistinct' false)
      (chosen_of_reordered (.refl _) hdistinct' false)

end ParserStats

/-- Both parsers make the same calls whatever order the attributes of a document are in. -/
def SameInAnyOrder (document : List SaxCall) : Prop :=
  ∀ document', Reordered document document' →
    (ParserStats.reading document').map Prod.snd = (ParserStats.reading document).map Prod.snd ∧
      (ParserFilelist.parse document').2.filterMap id =
        (ParserFilelist.parse document).2.filterMap id

/-- The calls are the same in any order exactly when the stats parser does not get to the figures,
    or nothing depends on those spans that it can read or not. The calls for a file list always
    are. -/
theorem sameInAnyOrder_iff (document : List SaxCall) (hdistinct : DistinctAttributes document) :
    (SameInAnyOrder document ↔
      (ParserStats.Readable document →
        ParserStats.Settled (fun _ => [0])
          (ParserStats.slots false (ParserStats.behindGeneral document)))) ∧
    ∀ document', Reordered document document' →
      (ParserFilelist.parse document').2.filterMap id =
        (ParserFilelist.parse document).2.filterMap id := by
  have hfilelist : ∀ document', Reordered document document' →
      (ParserFilelist.parse document').2.filterMap id =
        (ParserFilelist.parse document).2.filterMap id := by
    intro document' h
    have hparse : ParserFilelist.parse document = ParserFilelist.parse document' :=
      ParserFilelist.filelistXmlCbs_reordered h hdistinct _
    rw [hparse]
  -- the file lists never differ; the figures differ only where the page can be read
  refine ⟨?_, hfilelist⟩
  constructor
  · intro h hreadable
    exact (ParserStats.reading_reordered_iff hdistinct hreadable).mp fun document' hdocument =>
      (h document' hdocument).1
  · intro hsettled document' h
    refine ⟨?_, hfilelist document' h⟩
    by_cases hreadable : ParserStats.Readable document
    · exact (ParserStats.reading_reordered_iff hdistinct hreadable).mpr (hsettled hreadable)
        document' h
    · have hreadable' := (ParserStats.readable_reordered h hdistinct).not.mp hreadable
      rw [ParserStats.reading_of_not_readable hreadable,
        ParserStats.reading_of_not_readable hreadable']

/-- A span with only a value besides its id can have them either way round. -/
theorem sameInAnyOrder_only_values :
    SameInAnyOrder [.startElementNs (ascii "div") [(ascii "id", ascii "general")],
      .startElementNs (ascii "span") [(ascii "id", ascii "file-count"), (ascii "value", ascii "3")],
      .startElementNs (ascii "span")
        [(ascii "id", ascii "total-size"), (ascii "value", ascii "640")]] :=
  (sameInAnyOrder_iff _ (by decide +kernel)).1.mpr fun _ => by decide +kernel

/-- A class in front of a value hides it. -/
theorem not_sameInAnyOrder_class :
    let document : List SaxCall := [.startElementNs (ascii "div") [(ascii "id", ascii "general")],
      .startElementNs (ascii "span")
        [(ascii "id", ascii "file-count"), (ascii "value", ascii "3"), (ascii "class", ascii "n")],
      .startElementNs (ascii "span")
        [(ascii "id", ascii "total-size"), (ascii "value", ascii "640")]]
    DistinctAttributes document ∧ ¬ SameInAnyOrder document := by
  intro document
  refine ⟨by decide +kernel, fun h => ?_⟩
  have hsame := (h [.startElementNs (ascii "div") [(ascii "id", ascii "general")],
    .startElementNs (ascii "span")
      [(ascii "id", ascii "file-count"), (ascii "class", ascii "n"), (ascii "value", ascii "3")],
    .startElementNs (ascii "span") [(ascii "id", ascii "total-size"), (ascii "value", ascii "640")]]
    (.cons (.refl _) (.cons (.startElementNs _ (.cons _ (.swap ..))) (Reordered.refl _)))).1
  revert hsame
  decide +kernel

end Fsfuse.Native
