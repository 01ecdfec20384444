import Fsfuse.Native.ParserStats

/-!
# The callbacks of a stats page

The parser of stats pages calls back whenever a page gives one of its two figures and neither of
them is zero, and looks at the id of every `<div>` before the one with the figures, also where
there is none. What it does to a context is made up of the callbacks, so a callback that keeps a
record has them all.

* `statsXmlCb_eq` — an event acts on a context by the callbacks that are recorded for it;
* `reading_ok_iff` — exactly which pages the parser gets through.
-/

namespace Fsfuse.Native

namespace ParserStats

variable {σ : Type*} {cb : σ → UInt64 → UInt64 → Except Fault σ}

/-- A callback that keeps a record of how it was called. -/
def record (calls : List (UInt64 × UInt64)) (files bytes : UInt64) :
    Except Fault (List (UInt64 × UInt64)) := .ok (calls ++ [(files, bytes)])

/-- Making recorded calls. -/
def replay (cb : σ → UInt64 → UInt64 → Except Fault σ) (ctxt : σ)
    (calls : List (UInt64 × UInt64)) : Except Fault σ :=
  calls.foldlM (fun ctxt call => cb ctxt call.1 call.2) ctxt

/-- A callback that records its calls appends them. -/
theorem replay_record (calls calls' : List (UInt64 × UInt64)) :
    replay record calls calls' = .ok (calls ++ calls') := by
  induction calls' generalizing calls with
  | nil => simp [replay, pure, Except.pure]
  | cons call calls' ih =>
    have hcons : replay record calls (call :: calls') =
        replay record (calls ++ [call]) calls' := rfl
    rw [hcons, ih, List.append_assoc, List.singleton_append]

/-- The callback is raised with what the parser has, or not at all. -/
theorem raiseCbIfDone_eq (parser : ParserStats) (ctxt : σ) :
    raiseCbIfDone cb parser ctxt =
      (raiseCbIfDone record parser []).bind (replay cb ctxt) := by
  simp only [raiseCbIfDone]
  -- one callback or none
  split
  · simp [record, replay, Except.bind]
  · rfl

/-- An event acts on the context by the callbacks that are recorded for it. -/
theorem statsXmlCb_eq (parser : ParserStats) (ctxt : σ) (event : XmlEvent) :
    statsXmlCb cb parser ctxt event =
      (statsXmlCb record parser [] event).bind fun r =>
        (replay cb ctxt r.2).bind fun ctxt => .ok (r.1, ctxt) := by
  -- most events only change the state, or not even that
  have hnone : ∀ parser : ParserStats, (.ok (parser, ctxt) : Except Fault (ParserStats × σ)) =
      (replay cb ctxt []).bind fun ctxt => .ok (parser, ctxt) := fun _ => rfl
  -- the two figures may call back
  have hcount : ∀ parser parser' : ParserStats,
      (raiseCbIfDone cb parser ctxt >>= fun ctxt => pure (parser', ctxt)) =
        (raiseCbIfDone record parser [] >>= fun calls => pure (parser', calls)).bind fun r =>
          (replay cb ctxt r.2).bind fun ctxt => .ok (r.1, ctxt) := by
    intro parser parser'
    rw [raiseCbIfDone_eq]
    cases raiseCbIfDone record parser [] <;> rfl
  cases hstate : parser.state with
  | waitingForDivGeneral =>
    simp only [statsXmlCb, hstate]
    split
    · split
      · split
        · rfl
        · split <;> exact hnone _
      · exact hnone _
    · exact hnone _
  | waitingForSpanWithId =>
    simp only [statsXmlCb, hstate]
    split
    · split
      · split
        · exact hnone _
        · split <;> exact hnone _
      · exact hnone _
    · exact hnone _
  | consumingFileCount =>
    simp only [statsXmlCb, hstate]
    split
    · split
      · exact hcount _ _
      · exact hnone _
    · exact hnone _
  | consumingTotalSize =>
    simp only [statsXmlCb, hstate]
    split
    · split
      · exact hcount _ _
      · exact hnone _
    · exact hnone _

/-- Events are taken one after the other. -/
theorem statsXmlCbs_cons (parser : ParserStats) (ctxt : σ) (event : XmlEvent)
    (events : List XmlEvent) :
    statsXmlCbs cb parser ctxt (event :: events) =
      (statsXmlCb cb parser ctxt event).bind fun r => statsXmlCbs cb r.1 r.2 events := rfl

/-- A record goes on from where it was. -/
theorem statsXmlCbs_record (parser : ParserStats) (calls : List (UInt64 × UInt64))
    (events : List XmlEvent) :
    statsXmlCbs record parser calls events =
      (statsXmlCbs record parser [] events).map fun r => (r.1, calls ++ r.2) := by
  induction events generalizing parser calls with
  | nil => simp [statsXmlCbs, pure, Except.pure, Except.map]
  | cons event events ih =>
    rw [statsXmlCbs_cons, statsXmlCbs_cons, statsXmlCb_eq]
    cases hcb : statsXmlCb record parser [] event with
    | error _ => rfl
    | ok r =>
      simp only [Except.bind, replay_record]
      -- what is recorded for the event stands between the two
      rw [ih r.1 (calls ++ r.2), ih r.1 r.2]
      cases statsXmlCbs record r.1 [] events with
      | error _ => rfl
      | ok r' => simp [Except.map]

/-! ### What a page says -/

/-- What reading a page comes to: the parser at its end, and its callbacks. -/
def reading (page : List SaxCall) : Except Fault (ParserStats × List (UInt64 × UInt64)) :=
  parse record [] page

/-- The tag that the figures of a page are in. -/
def divGeneral : XmlEvent := .tagStart (ascii "div") (some (ascii "general"))

/-- A page has no `<div>` without an id before the one with its figures. -/
def Readable (page : List SaxCall) : Prop :=
  .tagStart (ascii "div") none ∉ (ParserXml.events page).takeWhile (· ≠ divGeneral)

instance (page : List SaxCall) : Decidable (Readable page) :=
  inferInstanceAs (Decidable (_ ∉ _))

/-- Past that tag nothing stops the parser. -/
theorem statsXmlCb_record_ok {parser : ParserStats} (calls : List (UInt64 × UInt64))
    (event : XmlEvent) (hstate : parser.state ≠ .waitingForDivGeneral) :
    ∃ r, statsXmlCb record parser calls event = .ok r ∧ r.1.state ≠ .waitingForDivGeneral := by
  -- a record never fails
  have hcount : ∀ parser : ParserStats, ∃ calls',
      raiseCbIfDone record parser calls = .ok calls' := by
    intro parser
    simp only [raiseCbIfDone]
    split
    · exact ⟨_, rfl⟩
    · exact ⟨_, rfl⟩
  cases hs : parser.state with
  | waitingForDivGeneral => exact absurd hs hstate
  | waitingForSpanWithId =>
    simp only [statsXmlCb, hs]
    split
    · split
      · split
        · exact ⟨_, rfl, nofun⟩
        · split
          · exact ⟨_, rfl, nofun⟩
          · exact ⟨_, rfl, hstate⟩
      · exact ⟨_, rfl, hstate⟩
    · exact ⟨_, rfl, hstate⟩
  | consumingFileCount =>
    simp only [statsXmlCb, hs]
    split
    · split
      · obtain ⟨calls', hcalls'⟩ := hcount _
        rw [hcalls']
        exact ⟨_, rfl, nofun⟩
      · exact ⟨_, rfl, nofun⟩
    · exact ⟨_, rfl, nofun⟩
  | consumingTotalSize =>
    simp only [statsXmlCb, hs]
    split
    · split
      · obtain ⟨calls', hcalls'⟩ := hcount _
        rw [hcalls']
        exact ⟨_, rfl, nofun⟩
      · exact ⟨_, rfl, nofun⟩
    · exact ⟨_, rfl, nofun⟩

/-- A parser that has seen its figures' tag does not fail any more. -/
theorem statsXmlCbs_record_ok {parser : ParserStats} (calls : List (UInt64 × UInt64))
    (events : List XmlEvent) (hstate : parser.state ≠ .waitingForDivGeneral) :
    ∃ r, statsXmlCbs record parser calls events = .ok r := by
  -- on the events; no state leads back to waiting for the tag
  induction events generalizing parser calls with
  | nil => exact ⟨_, rfl⟩
  | cons event events ih =>
    obtain ⟨r, hr, hstate'⟩ := statsXmlCb_record_ok calls event hstate
    rw [statsXmlCbs_cons, hr]
    exact ih r.2 hstate'

/-- Before it, an event is passed over, or stops the parser. -/
theorem statsXmlCb_new (calls : List (UInt64 × UInt64)) {event : XmlEvent}
    (hgeneral : event ≠ divGeneral) :
    statsXmlCb record new calls event =
      if event = .tagStart (ascii "div") none then .error .nullPointer else .ok (new, calls) := by
  simp only [statsXmlCb, new]
  -- before the figures' tag only a `<div>` is looked at, and it is to have an id
  cases event with
  | tagStart name id =>
    by_cases hname : name = ascii "div"
    · subst hname
      cases id with
      | none => simp
      | some id =>
        have hid : id ≠ ascii "general" := by
          intro heq
          subst heq
          exact hgeneral rfl
        simp [hid]
    · simp [hname]
  | text _ => rfl
  | tagEnd _ => rfl
  | attr _ _ => rfl

/-- A page stops the parser just when a `<div>` without an id comes before its figures. -/
theorem reading_ok_iff (page : List SaxCall) :
    (∃ r, reading page = .ok r) ↔ Readable page := by
  simp only [reading, parse, Readable]
  -- up to the tag the parser stays as it is made, so the induction is on the events alone
  induction ParserXml.events page with
  | nil => exact iff_of_true ⟨_, rfl⟩ (List.not_mem_nil)
  | cons event events ih =>
    rw [statsXmlCbs_cons]
    -- the tag itself, a `<div>` without an id, or an event passed over
    by_cases hgeneral : event = divGeneral
    · subst hgeneral
      refine iff_of_true (statsXmlCbs_record_ok _ _ ?_) (by simp)
      exact nofun
    · rw [statsXmlCb_new [] hgeneral, List.takeWhile_cons_of_pos (by simpa using hgeneral)]
      by_cases hbare : event = .tagStart (ascii "div") none
      · simp [hbare, Except.bind]
      · simp only [hbare, if_false, Except.bind, List.mem_cons, not_or]
        exact ih.trans (iff_and_self.mpr fun _ => Ne.symm hbare)

/-- The callbacks of a page. -/
def callbacks (page : List SaxCall) : List (UInt64 × UInt64) :=
  match reading page with
  | .ok (_, calls) => calls
  | .error _ => []

example : reading [.startElementNs (ascii "div") [(ascii "id", ascii "general")],
    .startElementNs (ascii "span") [(ascii "id", ascii "file-count"), (ascii "value", ascii "3")],
    .startElementNs (ascii "span")
      [(ascii "id", ascii "total-size"), (ascii "value", ascii "640")]] =
      .ok (⟨.waitingForSpanWithId, 3, 640⟩, [(3, 640)]) := by decide +kernel

end ParserStats

end Fsfuse.Native
