import Fsfuse.Native.CString

/-!
# The fetcher

`src/fetcher.c`, and the three functions of `src/indexnodes/indexnode.c` that fetch a page
into a parser. Functions and contexts are addresses, and memory is read by the word. What a
function does is any change of memory, so a call through a wrong address is a call like
another. A transfer is what libcurl makes of it: the blocks it delivers as long as its
callback takes them whole, and how it ends then.
-/

namespace Fsfuse.Native.Fetcher

/-! ### Memory and functions -/

/-- The word at each address. -/
abbrev Memory := Nat → Nat

/-- The size of a pointer. -/
def wordSize : Nat := 8

/-- Memory with words stored one after the other. -/
def Memory.store (mem : Memory) (addr : Nat) : List Nat → Memory
  | [] => mem
  | word :: words => store (Function.update mem addr word) (addr + wordSize) words

/-- What the functions do with a context and an argument, with what they return. -/
abbrev Functions (α : Type) := (fn ctxt : Nat) → (arg : α) → Memory → Int × Memory

/-- A call that was made. -/
structure Call (α : Type) where
  fn : Nat
  ctxt : Nat
  arg : α
  rc : Int
deriving Repr, DecidableEq

/-! ### libcurl -/

/-- The codes of libcurl that are told apart, with the status of the response. -/
inductive CurlRc
  | ok (httpCode : Nat)
  | httpReturnedError (httpCode : Nat)
  | writeError
  | partialFile
  | couldntConnect
  | other
deriving Repr, DecidableEq

/-- How a transfer ends that no callback stops. -/
abbrev Ending := { rc : CurlRc // rc ≠ .writeError }

/-- `curl_easy_perform`, with a callback that says how much it has taken. -/
def perform {α β : Type} (length : β → Nat) (cb : β → Memory → Nat × List (Call α) × Memory)
    (ending : Ending) : List β → Memory → CurlRc × List (Call α) × Memory
  | [], mem => (ending, [], mem)
  | block :: blocks, mem =>
    let (taken, calls, mem) := cb block mem
    if taken ≠ length block then (.writeError, calls, mem)
    else
      let (rc, calls', mem) := perform length cb ending blocks mem
      (rc, calls ++ calls', mem)

/-- A header line comes with its line end. -/
abbrev HeaderLine := { line : List UInt8 // line.getLast? = some 10 }

/-! ### Results -/

def eio : Int := 5

def enoent : Int := 2

def ebusy : Int := 16

/-- `http2errno`. -/
def http2errno : Nat → Int
  | 200 | 206 => 0
  | 404 => enoent
  | 503 => ebusy
  | _ => eio

/-- `process_curl_response`. -/
def processCurlResponse : CurlRc → Int
  | .ok httpCode | .httpReturnedError httpCode => http2errno httpCode
  -- taken for a seek or a timeout of the downloader
  | .writeError => 0
  | .partialFile => 0
  | .couldntConnect => enoent
  | .other => eio

/-! ### Callbacks -/

/-- The key and the value of a header line, if it has a colon. The value begins with the
    colon, and ends where a line end of two bytes would begin. -/
def keyAndValue (line : List UInt8) : Option (List UInt8 × List UInt8) :=
  let key := line.takeWhile (· ≠ 58)
  if 58 ∈ line then
    some (cString key, cString ((line.drop key.length).take (line.length - key.length - 2)))
  else none

/-- `key_len` and `value_len` of a header line, if it has a colon. The second is unsigned. -/
def headerLengths (line : List UInt8) : Option (Nat × Nat) :=
  if 58 ∈ line then
    let keyLen := (line.takeWhile (· ≠ 58)).length
    let valueLen :=
      if keyLen + 2 ≤ line.length then line.length - keyLen - 2
      else 2 ^ 64 - (keyLen + 2 - line.length)
    some (keyLen, valueLen)
  else none

/-- The copies of the key and the value that `header_cb_wrapper` makes of any line. -/
def splitHeader (line : List UInt8) : Except Fault (Option (List UInt8 × List UInt8)) :=
  match headerLengths line with
  | none => .ok none
  | some (keyLen, valueLen) =>
    -- `strncpy` fills as many bytes as it is told, whatever it copies from
    if keyLen + valueLen ≤ line.length then
      .ok (some (cString (line.take keyLen), cString ((line.drop keyLen).take valueLen)))
    else .error .outOfBounds

/-- A wrapper calls what it finds at its context, which it takes for a wrapper's. -/
def cbWrapper {α : Type} (fns : Functions α) (length : Nat) (arg : Option α) (ctxt : Nat)
    (mem : Memory) : Nat × List (Call α) × Memory :=
  match arg with
  | none => (length, [], mem)
  | some arg =>
    let fn := mem ctxt
    let cbCtxt := mem (ctxt + wordSize)
    let (rc, mem) := fns fn cbCtxt arg mem
    (if rc ≠ 0 then 0 else length, [⟨fn, cbCtxt, arg, rc⟩], mem)

/-- `header_cb_wrapper`: only a line with a colon is passed on. -/
def headerCbWrapper (fns : Functions (List UInt8 × List UInt8)) (ctxt : Nat) (header : HeaderLine)
    (mem : Memory) : Nat × List (Call (List UInt8 × List UInt8)) × Memory :=
  cbWrapper fns header.1.length (keyAndValue header.1) ctxt mem

/-- `body_cb_wrapper`. -/
def bodyCbWrapper (fns : Functions (List UInt8)) (ctxt : Nat) (data : List UInt8)
    (mem : Memory) : Nat × List (Call (List UInt8)) × Memory :=
  cbWrapper fns data.length (some data) ctxt mem

/-! ### Fetching -/

/-- What comes of a fetch: what it returns, what libcurl did, and the calls made. -/
structure Fetched (α : Type) where
  rc : Int
  curlRc : CurlRc
  calls : List (Call α)

/-- What is made of what libcurl did. -/
def Fetched.of {α : Type} (performed : CurlRc × List (Call α) × Memory) : Fetched α where
  rc := processCurlResponse performed.1
  curlRc := performed.1
  calls := performed.2.1

/-- `fetcher_fetch_headers`, with the wrapper's context at `wrapper`. libcurl is not given
    that context, but the caller's own. -/
def fetcherFetchHeaders (fns : Functions (List UInt8 × List UInt8)) (headerCb headerCbCtxt : Nat)
    (lines : List HeaderLine) (ending : Ending) (wrapper : Nat) (mem : Memory) :
    Except Fault (Fetched (List UInt8 × List UInt8)) :=
  if headerCb = 0 then .error .assertion
  else
    let mem := mem.store wrapper [headerCb, headerCbCtxt]
    .ok (.of (perform (·.1.length) (headerCbWrapper fns headerCbCtxt) ending lines mem))

/-- The memory that `fetcher_fetch_headers` leaves. -/
def headersMemory (fns : Functions (List UInt8 × List UInt8)) (headerCb headerCbCtxt : Nat)
    (lines : List HeaderLine) (ending : Ending) (wrapper : Nat) (mem : Memory) : Memory :=
  let mem := mem.store wrapper [headerCb, headerCbCtxt]
  (perform (·.1.length) (headerCbWrapper fns headerCbCtxt) ending lines mem).2.2

/-- `fetcher_fetch_body`, which does the same with the context. -/
def fetcherFetchBody (fns : Functions (List UInt8)) (bodyCb bodyCbCtxt : Nat)
    (blocks : List (List UInt8)) (ending : Ending) (wrapper : Nat) (mem : Memory) :
    Fetched (List UInt8) :=
  let mem := mem.store wrapper [bodyCb, bodyCbCtxt]
  .of (perform List.length (bodyCbWrapper fns bodyCbCtxt) ending blocks mem)

/-! ### Fetching a page -/

/-- A response: its body, and how far the transfer of it came. -/
structure Response where
  body : List UInt8
  blocks : List (List UInt8)
  ending : Ending
  /-- What is delivered is the beginning of the body. -/
  delivered : blocks.flatten <+: body
  /-- All of it is, if the transfer ends well. -/
  whole : ∀ httpCode, ending = CurlRc.ok httpCode → blocks.flatten = body
  /-- Not all of it is, if the peer closes early. -/
  cut : ending = CurlRc.partialFile → blocks.flatten ≠ body
  /-- libcurl takes for errors what HTTP does. -/
  failed : ∀ httpCode, ending = CurlRc.httpReturnedError httpCode → 400 ≤ httpCode

/-- The functions of the daemon, and where two of them are. -/
structure Daemon where
  functions : Functions (List UInt8)
  parserFilelistConsume : Nat
  parserStatsConsume : Nat

/-- Where the allocations of a fetch come to lie. -/
structure Places where
  parser : Nat
  xml : Nat
  wrapper : Nat

/-- `parser_filelist_new`: the callback, its context and the XML parser, in front of the state
    and what is known of an entry. -/
def parserFilelistNew (p : Places) (cb ctxt : Nat) (mem : Memory) : Memory :=
  mem.store p.parser [cb, ctxt, p.xml, 0, 0, 0, 0, 0, 0, 0, 0]

/-- `parser_stats_new`: the same, in front of the state and the two figures. -/
def parserStatsNew (p : Places) (cb ctxt : Nat) (mem : Memory) : Memory :=
  mem.store p.parser [cb, ctxt, p.xml, 0, 0, 0]

/-- What an indexnode answers to a command and its argument. -/
abbrev Answers := (command arg : List UInt8) → Response

/-- `indexnode_tryget_listing`. -/
def trygetListing (d : Daemon) (answers : Answers) (path : List UInt8) (entryCb entryCtxt : Nat)
    (p : Places) (mem : Memory) : Fetched (List UInt8) :=
  let r := answers (ascii "browse") path
  fetcherFetchBody d.functions d.parserFilelistConsume p.parser r.blocks r.ending p.wrapper
    (parserFilelistNew p entryCb entryCtxt mem)

/-- `indexnode_tryget_alternatives`. -/
def trygetAlternatives (d : Daemon) (answers : Answers) (hash : List UInt8)
    (entryCb entryCtxt : Nat) (p : Places) (mem : Memory) : Fetched (List UInt8) :=
  let r := answers (ascii "alternatives") hash
  fetcherFetchBody d.functions d.parserFilelistConsume p.parser r.blocks r.ending p.wrapper
    (parserFilelistNew p entryCb entryCtxt mem)

/-- `indexnode_tryget_stats`. -/
def trygetStats (d : Daemon) (answers : Answers) (statsCb statsCtxt : Nat) (p : Places)
    (mem : Memory) : Fetched (List UInt8) :=
  let r := answers (ascii "stats") []
  fetcherFetchBody d.functions d.parserStatsConsume p.parser r.blocks r.ending p.wrapper
    (parserStatsNew p statsCb statsCtxt mem)

/-! ### What a parser is given -/

/-- The memory that the fetch of a page works on, in which the parser and the wrapper's context are
    apart. -/
structure Setting where
  places : Places
  mem : Memory
  apart : ∀ i < 2, ∀ j < 2, places.parser + wordSize * i ≠ places.wrapper + wordSize * j

/-- A setting in which a callback leaves alone what the parser keeps of it and of its context. -/
structure Registration (d : Daemon) (cb ctxt : Nat) extends Setting where
  keeps : ∀ arg mem, ∀ i < 2,
    (d.functions cb ctxt arg mem).2 (places.parser + wordSize * i) =
      mem (places.parser + wordSize * i)

end Fsfuse.Native.Fetcher
