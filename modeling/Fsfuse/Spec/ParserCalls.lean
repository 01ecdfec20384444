import Fsfuse.Spec.FetcherSuccess

/-!
# The calls that a page comes to

A page is fetched for a parser, which is to be given it block by block. The wrapper takes the parser
for its own context, and the first two words of a parser are the callback it has been given and that
callback's context. So it is these that are called with the blocks.

* `trygetStats_calls`, `trygetAlternatives_calls_eq_nil_iff` — what is called in the real fetcher.
-/

namespace Fsfuse.Native.Fetcher

/-! ### Words -/

/-- What lies before the words that are stored stays. -/
theorem Memory.store_of_lt {a addr : Nat} (h : a < addr) (mem : Memory) (words : List Nat) :
    mem.store addr words a = mem a := by
  induction words generalizing mem addr with
  | nil => rfl
  | cons word words ih =>
    rw [Memory.store, ih (Nat.lt_add_right wordSize h), Function.update_of_ne (Nat.ne_of_lt h)]

/-- The first two of them can be read back. -/
theorem Memory.store_words (mem : Memory) (addr word word' : Nat) (words : List Nat) :
    mem.store addr (word :: word' :: words) addr = word ∧
      mem.store addr (word :: word' :: words) (addr + wordSize) = word' := by
  have hlt : addr < addr + wordSize := by simp [wordSize]
  have hlt' : addr < addr + wordSize + wordSize := Nat.lt_add_right wordSize hlt
  constructor
  · rw [Memory.store, Memory.store, Memory.store_of_lt hlt',
      Function.update_of_ne (Nat.ne_of_lt hlt),
      Function.update_self]
  · rw [Memory.store, Memory.store, Memory.store_of_lt (by simp [wordSize]), Function.update_self]

/-- The wrapper's context is stored elsewhere. -/
theorem Setting.store_wrapper (s : Setting) (mem : Memory) (bodyCb bodyCbCtxt : Nat) :
    mem.store s.places.wrapper [bodyCb, bodyCbCtxt] s.places.parser = mem s.places.parser ∧
      mem.store s.places.wrapper [bodyCb, bodyCbCtxt] (s.places.parser + wordSize) =
        mem (s.places.parser + wordSize) := by
  have h00 : s.places.parser ≠ s.places.wrapper := s.apart 0 (by decide) 0 (by decide)
  have h01 : s.places.parser ≠ s.places.wrapper + wordSize := s.apart 0 (by decide) 1 (by decide)
  have h10 : s.places.parser + wordSize ≠ s.places.wrapper := s.apart 1 (by decide) 0 (by decide)
  have h11 : s.places.parser + wordSize ≠ s.places.wrapper + wordSize :=
    s.apart 1 (by decide) 1 (by decide)
  simp only [Memory.store, Function.update_of_ne h00, Function.update_of_ne h01,
    Function.update_of_ne h10, Function.update_of_ne h11, and_self]

/-! ### Responses -/

/-- The response has arrived, with a status of success. -/
def Response.Succeeded (r : Response) : Prop :=
  r.ending = CurlRc.ok 200 ∨ r.ending = CurlRc.ok 206

instance (r : Response) : Decidable r.Succeeded :=
  inferInstanceAs (Decidable (_ ∨ _))

/-- A page that arrives in one block. -/
def Response.arrived (page : List UInt8) : Response where
  body := page
  blocks := [page]
  ending := ⟨.ok 200, by decide⟩
  delivered := by simp
  whole _ _ := by simp
  cut := by simp
  failed := by simp

/-! ### Calls -/

/-- A daemon whose functions do nothing, and return 0. -/
def Daemon.idle : Daemon where
  functions _ _ _ mem := (0, mem)
  parserFilelistConsume := 1
  parserStatsConsume := 2

/-- The calls of a callback on some blocks: up to one that returns something else than 0 on a block
    that is not empty. -/
def heard (fns : Functions (List UInt8)) (cb ctxt : Nat) :
    List (List UInt8) → Memory → List (Call (List UInt8))
  | [], _ => []
  | block :: blocks, mem =>
    let (rc, mem) := fns cb ctxt block mem
    ⟨cb, ctxt, block, rc⟩ :: if rc ≠ 0 ∧ block ≠ [] then [] else heard fns cb ctxt blocks mem

/-- All of them are of the callback, with its context. -/
theorem of_mem_heard {fns : Functions (List UInt8)} {cb ctxt : Nat} {blocks : List (List UInt8)}
    {mem : Memory} {call : Call (List UInt8)} (h : call ∈ heard fns cb ctxt blocks mem) :
    call.fn = cb ∧ call.ctxt = ctxt := by
  induction blocks generalizing mem with
  | nil => cases h
  | cons block blocks ih =>
    obtain rfl | h := List.mem_cons.mp h
    · exact ⟨rfl, rfl⟩
    · split at h
      · cases h
      · exact ih h

variable (fns : Functions (List UInt8)) (cb ctxt parser : Nat) (ending : Ending)

/-- What stands at the parser is called, for as long as it leaves that alone. -/
theorem made_eq_heard
    (hkeeps : ∀ arg mem, (fns cb ctxt arg mem).2 parser = mem parser ∧
      (fns cb ctxt arg mem).2 (parser + wordSize) = mem (parser + wordSize))
    (blocks : List (List UInt8)) {mem : Memory}
    (hwords : mem parser = cb ∧ mem (parser + wordSize) = ctxt) :
    (made fns parser some List.length ending blocks mem).1 = heard fns cb ctxt blocks mem := by
  -- block by block: the callback leaves its own address and context in place
  induction blocks generalizing mem with
  | nil =>
    rw [made_nil]
    rfl
  | cons block blocks ih =>
    obtain ⟨hcb, hctxt⟩ := hwords
    obtain ⟨hfirst, hsecond⟩ := hkeeps block mem
    rw [made_cons_some fns parser some rfl, hcb, hctxt, heard]
    simp only [ne_eq, List.length_eq_zero_iff]
    split
    · rfl
    · rw [ih ⟨hfirst.trans hcb, hsecond.trans hctxt⟩]

/-- Nothing is called only if nothing is delivered. -/
theorem made_eq_nil_iff (blocks : List (List UInt8)) (mem : Memory) :
    (made fns parser some List.length ending blocks mem).1 = [] ↔ blocks = [] := by
  cases blocks with
  | nil => simp
  | cons block blocks =>
    rw [made_cons_some fns parser some rfl]
    dsimp only
    split <;> simp

/-- The first call is of what stands at the parser. -/
theorem head_made {blocks : List (List UInt8)} {mem : Memory} {call : Call (List UInt8)}
    (h : call ∈ (made fns parser some List.length ending blocks mem).1.head?) :
    -- the first call is made with what the parser starts with
    call.fn = mem parser ∧ call.ctxt = mem (parser + wordSize) := by
  cases blocks with
  | nil =>
    rw [made_nil] at h
    cases h
  | cons block blocks =>
    rw [made_cons_some fns parser some rfl] at h
    dsimp only at h
    split at h <;>
    · cases h
      exact ⟨rfl, rfl⟩

/-! ### Pages -/

section Pages

variable (d : Daemon) (answers : Answers)

/-- The blocks of a page of stats are given to the callback for the figures. -/
theorem trygetStats_calls {cb ctxt : Nat} (r : Registration d cb ctxt) :
    (trygetStats d answers cb ctxt r.places r.mem).calls =
      heard d.functions cb ctxt (answers (ascii "stats") []).blocks
        ((parserStatsNew r.places cb ctxt r.mem).store r.places.wrapper
          [d.parserStatsConsume, r.places.parser]) := by
  refine made_eq_heard d.functions cb ctxt r.places.parser _ (fun arg mem => ?_) _ ?_
  · exact ⟨r.keeps arg mem 0 (by decide), r.keeps arg mem 1 (by decide)⟩
  · obtain ⟨hfirst, hsecond⟩ := r.store_wrapper (parserStatsNew r.places cb ctxt r.mem)
      d.parserStatsConsume r.places.parser
    obtain ⟨hcb, hctxt⟩ := Memory.store_words r.mem r.places.parser cb ctxt [r.places.xml, 0, 0, 0]
    exact ⟨hfirst.trans hcb, hsecond.trans hctxt⟩

/-- A page of alternatives calls nothing only if nothing of it is delivered. -/
theorem trygetAlternatives_calls_eq_nil_iff (hash : List UInt8) (cb ctxt : Nat) (p : Places)
    (mem : Memory) :
    (trygetAlternatives d answers hash cb ctxt p mem).calls = [] ↔
      (answers (ascii "alternatives") hash).blocks = [] :=
  made_eq_nil_iff d.functions p.parser _ _ _

/-- What it calls first is the callback for the entries. -/
theorem head_trygetAlternatives (hash : List UInt8) (cb ctxt : Nat) (s : Setting)
    {call : Call (List UInt8)}
    (h : call ∈ (trygetAlternatives d answers hash cb ctxt s.places s.mem).calls.head?) :
    call.fn = cb ∧ call.ctxt = ctxt := by
  obtain ⟨hfn, hctxt⟩ := head_made d.functions s.places.parser _ h
  obtain ⟨hfirst, hsecond⟩ := s.store_wrapper (parserFilelistNew s.places cb ctxt s.mem)
    d.parserFilelistConsume s.places.parser
  obtain ⟨hcb, hcbCtxt⟩ := Memory.store_words s.mem s.places.parser cb ctxt
    [s.places.xml, 0, 0, 0, 0, 0, 0, 0, 0]
  exact ⟨hfn.trans (hfirst.trans hcb), hctxt.trans (hsecond.trans hcbCtxt)⟩

/-- Where nothing is delivered, the transfer ends as it does. -/
theorem trygetAlternatives_rc_of_nil {hash : List UInt8}
    (h : (answers (ascii "alternatives") hash).blocks = []) (cb ctxt : Nat) (p : Places)
    (mem : Memory) :
    (trygetAlternatives d answers hash cb ctxt p mem).rc =
      processCurlResponse (answers (ascii "alternatives") hash).ending := by
  rw [trygetAlternatives, fetcherFetchBody, h]
  rfl

end Pages

end Fsfuse.Native.Fetcher
