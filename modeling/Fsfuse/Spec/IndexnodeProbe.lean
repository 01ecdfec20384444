import Fsfuse.Native.ProtoIndexnode
import Fsfuse.Spec.HeaderLines

/-!
# The outcome of a probe

A probe of an indexnode is meant to be judged by the response alone: it succeeds if the
request does and the response has a version and an id, and these are what it finds.

What the headers say is kept in a block that is not initialised, and never gets there: libcurl
is given that block for the context of the fetcher's wrapper, which takes its first word for
the callback, and the keys that `header_cb` waits for have a colon, which no key has. So what
was in the block decides.
-/

namespace Fsfuse.Native.Fetcher

variable (p : ProbePlaces) (others : Functions (List UInt8 × List UInt8))

/-! ### What is meant -/

/-- The value of the last header with a name, if there is one. -/
def headerValue (name : List UInt8) (lines : List HeaderLine) : Option (List UInt8) :=
  lines.reverse.findSome? fun line =>
    match parseHeaderLine line.1 with
    | some (key, value) => if equalIgnoringCase key name then some value else none
    | none => none

/-- The request has succeeded. -/
def Succeeded (ending : Ending) : Prop :=
  ∃ httpCode, ending.1 = .ok httpCode ∧ http2errno httpCode = 0

/-- A string at an address. -/
def Memory.HasString (mem : Memory) (addr : Nat) (s : List UInt8) : Prop :=
  (∀ i c, s[i]? = some c → mem.byte (addr + i) = c.toNat) ∧ mem.byte (addr + s.length) = 0

/-- The outcome is the response's: success if and only if the request has succeeded and there
    are a version and an id, and these then. -/
def AsResponded (lines : List HeaderLine) (ending : Ending) (outcome : Except Fault Info) : Prop :=
  ∃ info, outcome = .ok info ∧
    (info.ok = true ↔ Succeeded ending ∧
      (∃ protocol ≠ [], headerValue (ascii "fs2-version") lines = some protocol) ∧
      ∃ id ≠ [], headerValue (ascii "fs2-indexnode-uid") lines = some id) ∧
    (info.ok = true → ∀ protocol id, headerValue (ascii "fs2-version") lines = some protocol →
      headerValue (ascii "fs2-indexnode-uid") lines = some id →
      info.mem.HasString info.protocol protocol ∧ info.mem.HasString info.id id)

/-- Whatever is in memory, the outcome is the response's, and so the same. -/
def ProbedRight (lines : List HeaderLine) (ending : Ending) : Prop :=
  (∀ mem, AsResponded lines ending (protoIndexnodeGetInfo p others lines ending mem)) ∧
    ∀ mem mem', (protoIndexnodeGetInfo p others lines ending mem).map Info.ok =
      (protoIndexnodeGetInfo p others lines ending mem').map Info.ok

/-! ### What is done -/

/-- The memory in which the wrapper has been stored. -/
def ProbePlaces.stored (mem : Memory) : Memory := mem.store p.wrapper [p.headerCbAt, p.info]

/-- Storing the wrapper leaves the block alone. -/
theorem stored_info (mem : Memory) {addr : Nat} (haddr : addr = p.info ∨ addr = p.info + wordSize) :
    p.stored mem addr = mem addr := by
  have hdisjoint := p.disjoint
  have hword : wordSize = 8 := rfl
  rw [ProbePlaces.stored, Memory.store, Memory.store, Memory.store, Function.update_of_ne,
    Function.update_of_ne] <;> omega

/-- What libcurl and the wrapper make of the header lines. -/
def ProbePlaces.performed (lines : List HeaderLine) (ending : Ending) (mem : Memory) :
    CurlRc × List (Call (List UInt8 × List UInt8)) × Memory :=
  perform (·.1.length) (headerCbWrapper (p.functions others) p.info) ending lines mem

/-- The parts of a probe. -/
theorem protoIndexnodeGetInfo_eq (lines : List HeaderLine) (ending : Ending) (mem : Memory) :
    protoIndexnodeGetInfo p others lines ending mem =
      let performed := p.performed others lines ending (p.stored mem)
      if performed.2.1.any (·.fn = 0) then .error .nullPointer
      else
        let mem := performed.2.2
        let protocol := mem p.info
        let id := mem (p.info + wordSize)
        .ok
          { ok := processCurlResponse performed.1 = 0 ∧ (protocol ≠ 0 ∧ mem.byte protocol ≠ 0) ∧
              (id ≠ 0 ∧ mem.byte id ≠ 0)
            protocol, id, mem } := by
  rw [protoIndexnodeGetInfo, fetcherFetchHeaders, if_neg p.headerCbAt_ne_zero]
  dsimp only [bind, Except.bind, Fetched.of, headersMemory, ProbePlaces.performed,
    ProbePlaces.stored]
  split <;> rfl

variable {p others} {line : HeaderLine} {lines : List HeaderLine} {ending : Ending} {mem : Memory}

/-- A line without a colon is passed over. -/
theorem performed_cons_of_notMem (hline : 58 ∉ line.1) :
    p.performed others (line :: lines) ending mem = p.performed others lines ending mem := by
  have hnone : keyAndValue line.1 = none := if_neg hline
  rw [ProbePlaces.performed, perform, headerCbWrapper, hnone, cbWrapper]
  dsimp only
  rw [if_neg (not_not.mpr rfl)]
  rfl

/-- At the first line with one, what is in the block is called. -/
theorem performed_cons_of_mem (hline : 58 ∈ line.1) :
    (p.performed others (line :: lines) ending mem).2.1.head?.map (·.fn) =
      some (mem p.info) := by
  have hsome : ∃ kv, keyAndValue line.1 = some kv := ⟨_, if_pos hline⟩
  obtain ⟨kv, hkv⟩ := hsome
  rw [ProbePlaces.performed, perform, headerCbWrapper, hkv, cbWrapper]
  dsimp only
  -- whether libcurl goes on or not
  split
  · split <;> rfl
  · split <;> rfl

/-- Without any colon nothing is called. -/
theorem performed_of_no_colon (h : ∀ line ∈ lines, 58 ∉ line.1) :
    p.performed others lines ending mem = (ending.1, [], mem) := by
  induction lines with
  | nil => rfl
  | cons line lines ih =>
    obtain ⟨hline, hlines⟩ := List.forall_mem_cons.mp h
    rw [performed_cons_of_notMem hline, ih hlines]

/-- With one, what is in the block is called first. -/
theorem performed_of_colon (h : ∃ line ∈ lines, 58 ∈ line.1) :
    (p.performed others lines ending mem).2.1.head?.map (·.fn) = some (mem p.info) := by
  induction lines with
  | nil =>
    obtain ⟨_, hline, _⟩ := h
    cases hline
  | cons line lines ih =>
    by_cases hline : 58 ∈ line.1
    · exact performed_cons_of_mem hline
    · rw [performed_cons_of_notMem hline]
      obtain ⟨line', hmem, hcolon⟩ := h
      obtain rfl | hmem := List.mem_cons.mp hmem
      · exact absurd hcolon hline
      · exact ih ⟨line', hmem, hcolon⟩

/-- With `NULL` in the block a header line stops the daemon. -/
theorem getInfo_of_colon (h : ∃ line ∈ lines, 58 ∈ line.1) (hnull : mem p.info = 0) :
    protoIndexnodeGetInfo p others lines ending mem = .error .nullPointer := by
  have hcall : (p.performed others lines ending (p.stored mem)).2.1.head?.map (·.fn) =
      some (p.stored mem p.info) :=
    performed_of_colon h
  rw [stored_info p mem (.inl rfl), hnull, Option.map_eq_some_iff] at hcall
  obtain ⟨call, hhead, hfn⟩ := hcall
  have hany : (p.performed others lines ending (p.stored mem)).2.1.any (·.fn = 0) :=
    List.any_eq_true.mpr ⟨call, List.mem_of_mem_head? hhead, decide_eq_true hfn⟩
  rw [protoIndexnodeGetInfo_eq]
  dsimp only
  rw [if_pos hany]

/-- Without header lines the outcome is what was in memory. -/
theorem getInfo_of_no_colon (h : ∀ line ∈ lines, 58 ∉ line.1) :
    protoIndexnodeGetInfo p others lines ending mem =
      let mem := p.stored mem
      let protocol := mem p.info
      let id := mem (p.info + wordSize)
      .ok
        { ok := processCurlResponse ending.1 = 0 ∧ (protocol ≠ 0 ∧ mem.byte protocol ≠ 0) ∧
            (id ≠ 0 ∧ mem.byte id ≠ 0)
          protocol, id, mem } := by
  rw [protoIndexnodeGetInfo_eq, performed_of_no_colon h]
  rfl

/-- There is no header without a colon. -/
theorem headerValue_of_no_colon (h : ∀ line ∈ lines, 58 ∉ line.1) (name : List UInt8) :
    headerValue name lines = none := by
  rw [headerValue, List.findSome?_eq_none_iff]
  intro line hline
  have hnone : parseHeaderLine line.1 = none := by
    rw [Option.eq_none_iff_forall_ne_some]
    intro parsed hparsed
    obtain ⟨-, heq⟩ := parseHeaderLine_eq_some_iff.mp hparsed
    apply h line (List.mem_reverse.mp hline)
    rw [heq, headerLine]
    simp
  rw [hnone]

/-- A request that has succeeded is one the fetcher makes 0 of. -/
theorem Succeeded.processCurlResponse (h : Succeeded ending) :
    processCurlResponse ending.1 = 0 := by
  obtain ⟨httpCode, hending, hcode⟩ := h
  rw [hending]
  exact hcode

/-! ### When it is as meant -/

variable (p others) in
/-- Memory in which the block holds two pointers to a byte. -/
def ProbePlaces.stale : Memory :=
  -- the byte lies behind the block and the wrapper
  let addr := p.info + p.wrapper + 2 * wordSize
  Function.update (Function.update (Function.update (fun _ => 0) addr 1) p.info addr)
    (p.info + wordSize) addr

/-- Storing the wrapper leaves the two pointers and the byte as they are. -/
theorem stored_stale :
    p.stored p.stale p.info = p.info + p.wrapper + 2 * wordSize ∧
      p.stored p.stale (p.info + wordSize) = p.info + p.wrapper + 2 * wordSize ∧
        (p.stored p.stale).byte (p.info + p.wrapper + 2 * wordSize) = 1 := by
  have hword : wordSize = 8 := rfl
  refine ⟨?_, ?_, ?_⟩
  · rw [stored_info p _ (.inl rfl), ProbePlaces.stale, Function.update_of_ne (by omega),
      Function.update_self]
  · rw [stored_info p _ (.inr rfl), ProbePlaces.stale, Function.update_self]
  · rw [Memory.byte, ProbePlaces.stored, Memory.store, Memory.store, Memory.store,
      Function.update_of_ne (by omega), Function.update_of_ne (by omega), ProbePlaces.stale,
      Function.update_of_ne (by omega), Function.update_of_ne (by omega), Function.update_self]

variable (p others) in
/-- A probe depends only on the response exactly if the request fails and no header line has
    come with a colon. -/
theorem probedRight_iff (lines : List HeaderLine) (ending : Ending) :
    ProbedRight p others lines ending ↔
      processCurlResponse ending.1 ≠ 0 ∧ ∀ line ∈ lines, 58 ∉ line.1 := by
  constructor
  · intro h
    obtain ⟨hresponded, -⟩ := h
    have hcolon : ∀ line ∈ lines, 58 ∉ line.1 := by
      by_contra hnot
      simp only [not_forall, not_not] at hnot
      obtain ⟨line, hline, hmem⟩ := hnot
      obtain ⟨info, hinfo, -⟩ := hresponded fun _ => 0
      rw [getInfo_of_colon ⟨line, hline, hmem⟩ rfl] at hinfo
      cases hinfo
    refine ⟨fun hrc => ?_, hcolon⟩
    obtain ⟨info, hinfo, hok, -⟩ := hresponded p.stale
    rw [getInfo_of_no_colon hcolon] at hinfo
    obtain ⟨hprotocol, hid, hbyte⟩ := stored_stale (p := p)
    have hne : p.info + p.wrapper + 2 * wordSize ≠ 0 :=
      Nat.ne_of_gt (Nat.add_pos_right _ (by decide))
    have htrue : info.ok = true := by
      rw [← Except.ok.inj hinfo]
      simp only [hprotocol, hid, hbyte, hrc]
      exact decide_eq_true ⟨trivial, ⟨hne, Nat.one_ne_zero⟩, hne, Nat.one_ne_zero⟩
    -- but there is no version in the response
    obtain ⟨-, ⟨protocol, -, hvalue⟩, -⟩ := hok.mp htrue
    rw [headerValue_of_no_colon hcolon] at hvalue
    cases hvalue
  · intro h
    obtain ⟨hrc, hcolon⟩ := h
    have hfalse : ∀ mem, ∃ info, protoIndexnodeGetInfo p others lines ending mem = .ok info ∧
        info.ok = false := by
      intro mem
      refine ⟨_, getInfo_of_no_colon hcolon, ?_⟩
      simp [hrc]
    constructor
    · intro mem
      obtain ⟨info, hinfo, hok⟩ := hfalse mem
      refine ⟨info, hinfo, ?_, fun htrue => absurd htrue (by simp [hok])⟩
      exact iff_of_false (by simp [hok]) fun hsucceeded =>
        hrc hsucceeded.1.processCurlResponse
    · intro mem mem'
      obtain ⟨info, hinfo, hok⟩ := hfalse mem
      obtain ⟨info', hinfo', hok'⟩ := hfalse mem'
      rw [hinfo, hinfo']
      exact congrArg Except.ok (hok.trans hok'.symm)

/-- A response without headers is taken for that of an indexnode if the block happens to hold
    pointers to strings. -/
theorem not_probedRight_no_headers :
    ¬ ProbedRight ⟨1, 100, 200, fun _ => 300, by decide, by decide⟩ (fun _ _ _ mem => (0, mem))
      [⟨ascii "HTTP/1.1 200 OK\r\n", by decide⟩, ⟨ascii "\r\n", by decide⟩]
      ⟨.ok 200, by decide⟩ := by
  intro h
  have hsame := h.2 (fun _ => 0)
    (Function.update (Function.update (Function.update (fun _ => 0) 400 65) 100 400) 108 400)
  rw [getInfo_of_no_colon (by decide), getInfo_of_no_colon (by decide)] at hsame
  exact absurd hsame (by decide)

end Fsfuse.Native.Fetcher
