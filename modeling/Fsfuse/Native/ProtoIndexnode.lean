import Fsfuse.Native.Fetcher

/-!
# Probing an indexnode

`proto_indexnode_get_info` of `src/indexnodes/proto_indexnode.c`, with the callback it gives
the fetcher and the two header keys of `src/fs2_constants.c`. The block it allocates for what
it is told is not initialised.
-/

namespace Fsfuse.Native.Fetcher

/-- `fs2_version_header_key`. Requests are written with it, so it has the colon. -/
def fs2VersionHeaderKey : List UInt8 := ascii "fs2-version: "

/-- `fs2_indexnode_uid_header_key`. -/
def fs2IndexnodeUidHeaderKey : List UInt8 := ascii "fs2-indexnode-uid: "

/-- `tolower`. -/
def toLower (c : UInt8) : UInt8 := if 65 ≤ c ∧ c ≤ 90 then c + 32 else c

/-- `!strcasecmp`. -/
def equalIgnoringCase (s t : List UInt8) : Bool := s.map toLower == t.map toLower

/-- Where the functions and blocks of a probe lie. -/
structure ProbePlaces where
  /-- the address of `header_cb` -/
  headerCbAt : Nat
  /-- the `indexnode_info_t`: its two words are `protocol` and `id` -/
  info : Nat
  /-- the context of the fetcher's wrapper -/
  wrapper : Nat
  /-- where the fetcher copies a value to -/
  value : List UInt8 → Nat
  headerCbAt_ne_zero : headerCbAt ≠ 0
  /-- Two blocks do not overlap. -/
  disjoint : info + 2 * wordSize ≤ wrapper ∨ wrapper + 2 * wordSize ≤ info

/-- `header_cb`. -/
def headerCb (value : List UInt8 → Nat) (info : Nat) (arg : List UInt8 × List UInt8)
    (mem : Memory) : Int × Memory :=
  if equalIgnoringCase arg.1 fs2VersionHeaderKey then
    (0, Function.update mem info (value arg.2))
  else if equalIgnoringCase arg.1 fs2IndexnodeUidHeaderKey then
    (0, Function.update mem (info + wordSize) (value arg.2))
  else (0, mem)

/-- The functions of the daemon, `header_cb` among them. -/
def ProbePlaces.functions (p : ProbePlaces) (others : Functions (List UInt8 × List UInt8)) :
    Functions (List UInt8 × List UInt8) :=
  fun fn => if fn = p.headerCbAt then headerCb p.value else others fn

/-- The byte at an address, the lowest of the word there. -/
def Memory.byte (mem : Memory) (addr : Nat) : Nat := mem addr % 256

/-- What `proto_indexnode_get_info` returns, and what it stores at its arguments. -/
structure Info where
  ok : Bool
  protocol : Nat
  id : Nat
  mem : Memory

/-- `proto_indexnode_get_info`, with what libcurl makes of the response. -/
def protoIndexnodeGetInfo (p : ProbePlaces) (others : Functions (List UInt8 × List UInt8))
    (lines : List HeaderLine) (ending : Ending) (mem : Memory) : Except Fault Info := do
  let fetched ←
    fetcherFetchHeaders (p.functions others) p.headerCbAt p.info lines ending p.wrapper mem
  -- a call through `NULL`
  if fetched.calls.any (·.fn = 0) then throw .nullPointer
  let mem := headersMemory (p.functions others) p.headerCbAt p.info lines ending p.wrapper mem
  let protocol := mem p.info
  let id := mem (p.info + wordSize)
  return {
    ok := fetched.rc = 0 ∧ (protocol ≠ 0 ∧ mem.byte protocol ≠ 0) ∧ (id ≠ 0 ∧ mem.byte id ≠ 0)
    protocol, id, mem }

end Fsfuse.Native.Fetcher
