import Fsfuse.Spec.FetcherCallbacks

/-!
# What a success means

A fetch of a page is meant to return 0 only if the parser has consumed the whole response,
accepting every block of it.

`process_curl_response` returns 0 as well for a transfer that a callback stopped, and for one
that the peer closed early: the downloader needs that, but the listing, the alternatives and
the statistics are fetched in the same way. And what is called is not the parser's function.
-/

namespace Fsfuse.Native.Fetcher

/-! ### What is meant -/

/-- The parser was given the whole body, and it accepted every block of it. -/
structure Consumed (consume parser : Nat) (r : Response) (f : Fetched (List UInt8)) : Prop where
  whole : (f.calls.map Call.arg).flatten = r.body
  accepted : ∀ call ∈ f.calls, call.fn = consume ∧ call.ctxt = parser ∧ call.rc = 0

/-- A success is one of consuming the response. -/
def SuccessConsumes (consume parser : Nat) (r : Response) (f : Fetched (List UInt8)) : Prop :=
  f.rc = 0 → Consumed consume parser r f

variable (fns : Functions (List UInt8)) (consume parser : Nat)

/-- A block that is not empty is rejected by what is called. -/
def Rejected : List (List UInt8) → Memory → Prop
  | [], _ => False
  | block :: blocks, mem =>
    let called := fns (mem parser) (mem (parser + wordSize)) block mem
    if called.1 ≠ 0 ∧ block.length ≠ 0 then True else Rejected blocks called.2

/-- At every block the first two words of the parser are its function and the parser itself,
    and the function accepts the block. -/
def Accepted : List (List UInt8) → Memory → Prop
  | [], _ => True
  | block :: blocks, mem =>
    let called := fns consume parser block mem
    mem parser = consume ∧ mem (parser + wordSize) = parser ∧ called.1 = 0 ∧
      Accepted blocks called.2

/-- What makes every success one of consuming the response: no block is rejected, the peer does
    not close early, and a response that is a success is accepted block by block. -/
structure Sound (r : Response) (mem : Memory) : Prop where
  notRejected : ¬ Rejected fns parser r.blocks mem
  notCut : r.ending ≠ CurlRc.partialFile
  accepted : (r.ending = CurlRc.ok 200 ∨ r.ending = CurlRc.ok 206) →
    Accepted fns consume parser r.blocks mem

/-! ### The calls -/

section Calls

variable (ending : Ending) (blocks : List (List UInt8)) (mem : Memory)

/-- The calls made on the blocks of a body, and whether libcurl was told to stop. -/
abbrev madeBody : List (Call (List UInt8)) × Bool :=
  made fns parser some List.length ending blocks mem

/-- The fetch is stopped exactly if a callback rejects a block. -/
theorem madeBody_snd_iff : (madeBody fns parser ending blocks mem).2 = true ↔
    Rejected fns parser blocks mem := by
  induction blocks generalizing mem with
  | nil => simp [Rejected]
  | cons block blocks ih =>
    rw [madeBody, made_cons_some fns parser some rfl]
    simp only [Rejected]
    split
    · simp
    · exact ih _

/-- A block that is rejected has been called for. -/
theorem exists_rejected (h : Rejected fns parser blocks mem) :
    ∃ call ∈ (madeBody fns parser ending blocks mem).1, call.rc ≠ 0 := by
  induction blocks generalizing mem with
  | nil => cases h
  | cons block blocks ih =>
    rw [madeBody, made_cons_some fns parser some rfl]
    simp only [Rejected] at h
    dsimp only
    split
    · rename_i hstop
      exact ⟨_, List.mem_singleton_self _, hstop.1⟩
    · rename_i hstop
      rw [if_neg hstop] at h
      obtain ⟨call, hcall, hrc⟩ := ih _ h
      exact ⟨call, List.mem_cons_of_mem _ hcall, hrc⟩

/-- If none is, all that is delivered has been called for. -/
theorem flatten_args_madeBody (h : ¬ Rejected fns parser blocks mem) :
    ((madeBody fns parser ending blocks mem).1.map Call.arg).flatten = blocks.flatten := by
  induction blocks generalizing mem with
  | nil => simp
  | cons block blocks ih =>
    rw [madeBody, made_cons_some fns parser some rfl]
    simp only [Rejected] at h
    split at h
    · exact absurd trivial h
    · rename_i hstop
      dsimp only
      rw [if_neg hstop, List.map_cons, List.flatten_cons, ih _ h, List.flatten_cons]

/-- All calls are the parser's, with its context, exactly if all blocks are accepted. -/
theorem madeBody_accepted_iff :
    (∀ call ∈ (madeBody fns parser ending blocks mem).1,
        call.fn = consume ∧ call.ctxt = parser ∧ call.rc = 0) ↔
      Accepted fns consume parser blocks mem := by
  induction blocks generalizing mem with
  | nil => simp [Accepted]
  | cons block blocks ih =>
    rw [madeBody, made_cons_some fns parser some rfl]
    simp only [Accepted]
    by_cases hwords : mem parser = consume ∧ mem (parser + wordSize) = parser
    · obtain ⟨hfn, hctxt⟩ := hwords
      rw [hfn, hctxt]
      by_cases hrc : (fns consume parser block mem).1 = 0
      · simp [hrc, ih]
      · -- the first call is one that rejects its block
        split <;> simp [hrc]
    · have hleft : ¬ (mem parser = consume ∧ mem (parser + wordSize) = parser ∧
          (fns consume parser block mem).1 = 0 ∧
          Accepted fns consume parser blocks (fns consume parser block mem).2) :=
        fun h => hwords ⟨h.1, h.2.1⟩
      -- the first call is not the parser's, or not with its context
      rw [iff_false_right hleft]
      intro hall
      split at hall
      · exact hwords ⟨(hall _ List.mem_cons_self).1, (hall _ List.mem_cons_self).2.1⟩
      · exact hwords ⟨(hall _ List.mem_cons_self).1, (hall _ List.mem_cons_self).2.1⟩

end Calls

/-! ### The result -/

/-- libcurl ends a transfer in its way, if no callback stops it. -/
theorem perform_fst_eq {α β : Type} (length : β → Nat)
    (cb : β → Memory → Nat × List (Call α) × Memory) (ending : Ending) (blocks : List β)
    (mem : Memory) (h : (perform length cb ending blocks mem).1 ≠ .writeError) :
    (perform length cb ending blocks mem).1 = ending := by
  induction blocks generalizing mem with
  | nil => rfl
  | cons block blocks ih =>
    rcases hcb : cb block mem with ⟨taken, calls, mem'⟩
    simp only [perform, hcb] at h ⊢
    by_cases htaken : taken ≠ length block
    · rw [if_pos htaken] at h
      exact absurd rfl h
    · rw [if_neg htaken] at h ⊢
      exact ih mem' h

/-- 200 and 206 are the codes without an error. -/
theorem http2errno_eq_zero_iff (httpCode : Nat) :
    http2errno httpCode = 0 ↔ httpCode = 200 ∨ httpCode = 206 := by
  unfold http2errno
  split <;> simp_all [eio, enoent, ebusy]

/-- A transfer that no callback stops is taken for a success if it ends in one, or early. -/
theorem processCurlResponse_ending_eq_zero_iff (r : Response) :
    processCurlResponse r.ending = 0 ↔
      r.ending = CurlRc.partialFile ∨ r.ending = CurlRc.ok 200 ∨ r.ending = CurlRc.ok 206 := by
  have hfailed := r.failed
  have hstopped := r.ending.2
  generalize r.ending.1 = rc at *
  cases rc with
  | ok httpCode => simp [processCurlResponse, http2errno_eq_zero_iff]
  | httpReturnedError httpCode =>
    have hcode := hfailed httpCode rfl
    simp only [processCurlResponse, http2errno_eq_zero_iff]
    simp
    omega
  | writeError => exact absurd rfl hstopped
  | partialFile => simp [processCurlResponse]
  | couldntConnect => simp [processCurlResponse, enoent]
  | other => simp [processCurlResponse, eio]

/-! ### Success -/

section Fetch

variable (r : Response) (wrapper : Nat) (mem : Memory)

/-- The memory at the first block: the wrapper's context has been stored. -/
abbrev atFirst : Memory := mem.store wrapper [consume, parser]

/-- A fetch that a block stops succeeds. -/
theorem fetchBody_rc_of_rejected
    (h : Rejected fns parser r.blocks (atFirst consume parser wrapper mem)) :
    (fetcherFetchBody fns consume parser r.blocks r.ending wrapper mem).rc = 0 := by
  rw [← madeBody_snd_iff fns parser r.ending] at h
  have hcurl : (fetcherFetchBody fns consume parser r.blocks r.ending wrapper mem).curlRc =
      .writeError := beq_iff_eq.mp h
  show processCurlResponse
    (fetcherFetchBody fns consume parser r.blocks r.ending wrapper mem).curlRc = 0
  rw [hcurl, processCurlResponse]

/-- Any other succeeds if its response ends in a success, or early. -/
theorem fetchBody_rc_iff
    (h : ¬ Rejected fns parser r.blocks (atFirst consume parser wrapper mem)) :
    (fetcherFetchBody fns consume parser r.blocks r.ending wrapper mem).rc = 0 ↔
      r.ending = CurlRc.partialFile ∨ r.ending = CurlRc.ok 200 ∨ r.ending = CurlRc.ok 206 := by
  rw [← madeBody_snd_iff fns parser r.ending] at h
  have hcurl : (fetcherFetchBody fns consume parser r.blocks r.ending wrapper mem).curlRc =
      r.ending := perform_fst_eq _ _ _ _ _ fun hstop => h (beq_iff_eq.mpr hstop)
  rw [← processCurlResponse_ending_eq_zero_iff, ← hcurl]
  rfl

/-- A fetch into a parser succeeds only by consuming the response exactly if it is sound. -/
theorem fetchBody_successConsumes_iff :
    SuccessConsumes consume parser r
        (fetcherFetchBody fns consume parser r.blocks r.ending wrapper mem) ↔
      Sound fns consume parser r (atFirst consume parser wrapper mem) := by
  by_cases hrejected : Rejected fns parser r.blocks (atFirst consume parser wrapper mem)
  · -- the call that rejected its block is among those of a success
    have hnot : ¬ SuccessConsumes consume parser r
        (fetcherFetchBody fns consume parser r.blocks r.ending wrapper mem) := by
      intro hsuccess
      have hconsumed := hsuccess
        (fetchBody_rc_of_rejected fns consume parser r wrapper mem hrejected)
      obtain ⟨call, hcall, hrc⟩ := exists_rejected fns parser r.ending r.blocks _ hrejected
      exact hrc (hconsumed.accepted call hcall).2.2
    exact iff_of_false hnot fun h => h.notRejected hrejected
  · have hwhole := flatten_args_madeBody fns parser r.ending r.blocks _ hrejected
    have haccepted := madeBody_accepted_iff fns consume parser r.ending r.blocks
      (atFirst consume parser wrapper mem)
    rw [SuccessConsumes, fetchBody_rc_iff fns consume parser r wrapper mem hrejected]
    constructor
    · intro hsuccess
      refine ⟨hrejected, ?_, ?_⟩
      · intro hcut
        -- a fetch that was cut short would be a success with a part of the page
        exact r.cut hcut (hwhole.symm.trans (hsuccess (.inl hcut)).whole)
      · intro hstatus
        exact haccepted.mp (hsuccess (.inr hstatus)).accepted
    · rintro hsound (hcut | hstatus)
      · exact absurd hcut hsound.notCut
      -- with 200 and 206 all of the page has come
      · have hbody : r.blocks.flatten = r.body := hstatus.elim (r.whole 200) (r.whole 206)
        exact ⟨hwhole.trans hbody, haccepted.mpr (hsound.accepted hstatus)⟩

end Fetch

/-- The listing, the alternatives and the statistics are each consumed whenever their fetch
    succeeds exactly if the fetch is sound. -/
theorem tryget_successConsumes_iff (d : Daemon) (answers : Answers) (path hash : List UInt8)
    (entryCb entryCtxt statsCb statsCtxt : Nat) (p : Places) (mem : Memory) :
    (SuccessConsumes d.parserFilelistConsume p.parser (answers (ascii "browse") path)
        (trygetListing d answers path entryCb entryCtxt p mem) ↔
      Sound d.functions d.parserFilelistConsume p.parser (answers (ascii "browse") path)
        (atFirst d.parserFilelistConsume p.parser p.wrapper
          (parserFilelistNew p entryCb entryCtxt mem))) ∧
    (SuccessConsumes d.parserFilelistConsume p.parser (answers (ascii "alternatives") hash)
        (trygetAlternatives d answers hash entryCb entryCtxt p mem) ↔
      Sound d.functions d.parserFilelistConsume p.parser (answers (ascii "alternatives") hash)
        (atFirst d.parserFilelistConsume p.parser p.wrapper
          (parserFilelistNew p entryCb entryCtxt mem))) ∧
    (SuccessConsumes d.parserStatsConsume p.parser (answers (ascii "stats") [])
        (trygetStats d answers statsCb statsCtxt p mem) ↔
      Sound d.functions d.parserStatsConsume p.parser (answers (ascii "stats") [])
        (atFirst d.parserStatsConsume p.parser p.wrapper
          (parserStatsNew p statsCb statsCtxt mem))) := by
  refine ⟨?_, ?_, ?_⟩
  · exact fetchBody_successConsumes_iff d.functions d.parserFilelistConsume p.parser _ p.wrapper _
  · exact fetchBody_successConsumes_iff d.functions d.parserFilelistConsume p.parser _ p.wrapper _
  · exact fetchBody_successConsumes_iff d.functions d.parserStatsConsume p.parser _ p.wrapper _

/-- A page of three bytes of which one arrives before the peer closes. -/
def cutPage : Response where
  body := [60, 97, 62]
  blocks := [[60]]
  ending := ⟨.partialFile, by decide⟩
  delivered := ⟨[97, 62], rfl⟩
  whole := by simp
  cut := by simp
  failed := by simp

/-- The listing of a page that is cut is a success. -/
theorem trygetListing_cutPage_not_successConsumes :
    ¬ SuccessConsumes 3 100 cutPage
      (trygetListing ⟨fun _ _ _ mem => (0, mem), 3, 4⟩ (fun _ _ => cutPage) [] 1 2 ⟨100, 200, 300⟩
        fun _ => 0) := by
  intro hsuccess
  exact absurd (hsuccess (by decide)).whole (by decide)

end Fsfuse.Native.Fetcher
