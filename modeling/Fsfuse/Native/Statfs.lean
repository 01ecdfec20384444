import Fsfuse.Native.Fetcher

/-!
# statfs

`src/fuse_methods/statfs.c`: the stats of all indexnodes are fetched one after the other,
and the callback that finds it is the last replies and frees the context. The fetcher calls what
it finds at the parser of a page, and that is the callback.
-/

namespace Fsfuse.Native

/-- What `fuse_reply_statfs` is called with. -/
structure Statvfs where
  fBsize : UInt64
  fFrsize : UInt64
  fBlocks : UInt64
  fFiles : UInt64
  fFlag : UInt64
  fNamemax : UInt64
deriving Repr, DecidableEq

/-- `stats_ctxt_t`. -/
structure StatsCtxt where
  stvfs : Statvfs
  bytesTotal : UInt64
  cbsRemaining : UInt32
deriving Repr, DecidableEq

/-- The memory a `statfs` works on: its context until that is freed, and the replies made. -/
structure StatfsRequest where
  ctxt : Option StatsCtxt
  replies : List Statvfs
deriving Repr, DecidableEq

namespace Statfs

/-- `FSFUSE_BLKSIZE`. -/
def fsfuseBlksize : UInt64 := 512

/-- The context as `fsfuse_statfs` fills it in, before it counts the indexnodes. The flags
    are `ST_RDONLY | ST_NOSUID`. -/
def newCtxt : StatsCtxt where
  stvfs :=
    { fBsize := fsfuseBlksize, fFrsize := fsfuseBlksize, fBlocks := 0, fFiles := 0
      fFlag := 1 ||| 2, fNamemax := 2 ^ 64 - 1 }
  bytesTotal := 0
  cbsRemaining := 0

/-- `stats_cb`. -/
def statsCb (req : StatfsRequest) (files bytes : UInt64) : Except Fault StatfsRequest :=
  match req.ctxt with
  -- a callback after the last one
  | none => .error .useAfterFree
  | some stats =>
    let stats :=
      { stvfs := { stats.stvfs with fFiles := stats.stvfs.fFiles + files }
        bytesTotal := stats.bytesTotal + bytes
        cbsRemaining := stats.cbsRemaining - 1 }
    -- the count is unsigned, and is tested after it has been decremented
    if stats.cbsRemaining = 0 then
      let stvfs := { stats.stvfs with fBlocks := stats.bytesTotal / stats.stvfs.fBsize }
      .ok { ctxt := none, replies := req.replies ++ [stvfs] }
    else .ok { req with ctxt := some stats }

/-! ### The fetches -/

/-- An indexnode of the list, at the fetch of its stats: what it answers, how memory lies then, and
    the addresses that libcurl delivers the blocks at. The callback is at `cb`, the context at
    `ctxt`. -/
structure Asked (d : Fetcher.Daemon) (cb ctxt : Nat) extends Fetcher.Registration d cb ctxt where
  answers : Fetcher.Answers
  address : Nat → UInt64

variable {d : Fetcher.Daemon} {cb ctxt : Nat}

/-- A call that the fetcher makes with a block: `stats_cb` takes the block's address for the files,
    and its length for the bytes. -/
def called (in_ : Asked d cb ctxt) (req : StatfsRequest)
    (call : Fetcher.Call (List UInt8) × Nat) : Except Fault StatfsRequest :=
  if call.1.fn = cb ∧ call.1.ctxt = ctxt then
    statsCb req (in_.address call.2) (.ofNat call.1.arg.length)
  else .error .wrongArguments

/-- `indexnode_tryget_stats`. What the fetch returns is not looked at, and the parser has been given
    nothing that it could flush when it is deleted. -/
def indexnodeTrygetStats (req : StatfsRequest) (in_ : Asked d cb ctxt) :
    Except Fault StatfsRequest :=
  (Fetcher.trygetStats d in_.answers cb ctxt in_.places in_.mem).calls.zipIdx.foldlM
    (called in_) req

/-- The first loop of `fsfuse_statfs`. -/
def countIndexnodes (stats : StatsCtxt) (list : List (Asked d cb ctxt)) : StatsCtxt :=
  list.foldl (fun stats _ => { stats with cbsRemaining := stats.cbsRemaining + 1 }) stats

/-- `fsfuse_statfs`, on the list of indexnodes it gets. -/
def fsfuseStatfs (list : List (Asked d cb ctxt)) : Except Fault StatfsRequest :=
  list.foldlM indexnodeTrygetStats ⟨some (countIndexnodes newCtxt list), []⟩

end Statfs

end Fsfuse.Native
