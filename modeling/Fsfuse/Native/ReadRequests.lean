import Fsfuse.Native.OpenFile

/-!
# Reads of an open file

`src/fuse_methods/read.c` with the downloader it hands its requests to. `fsfuse_read` allocates
a context and a buffer; `chunk_done`, which the downloader's thread runs for each answer, replies
to FUSE and frees both. It also gives up a copy of the file's direntry, which nobody has taken for
it. Others may copy and delete the direntry meanwhile.

Contexts are identified by the order in which they were allocated. The buffer is wherever the
environment puts it; nothing here depends on buffers being apart.
-/

namespace Fsfuse.Native

/-- `read_context_t`, less the direntry, which is that of the open file. -/
structure ReadContext where
  req : Nat
  size : Nat
  buf : Nat
deriving Repr, DecidableEq

/-- What FUSE is answered: `fuse_reply_buf` or `fuse_reply_err`. -/
inductive Reply
  | buf (data : List UInt8)
  | err (rc : Int)
deriving Repr, DecidableEq

/-- A read FUSE has asked for. -/
structure ReadCall where
  req : Nat
  size : Nat
  off : Nat
deriving Repr, DecidableEq

/-- The downloader of an open file; the reference count of its direntry, `none` once that is freed;
    the contexts of the reads, `none` once freed; what FUSE has asked for, and the requests it has
    been replied to, with the context of each. -/
structure ReadRequests where
  downloader : Downloader
  direntry : Option UInt32
  contexts : List (Option ReadContext)
  asked : List ReadCall
  replies : List (Nat × Nat × Reply)

namespace ReadRequests

/-- A FUSE read with the address of its buffer, a step of the downloader's thread, or what others
    make of the direntry. -/
inductive Label
  | read (req size off buf : Nat)
  | thread (l : Downloader.Label)
  | others (direntry : Option UInt32)
deriving Repr, DecidableEq

/-- The file has been opened. -/
def new (direntry : Option UInt32) (rc : Int) (mem : Memory) : ReadRequests :=
  ⟨.new rc mem, direntry, [], [], []⟩

/-- `fsfuse_read`. The size of the file is read from the direntry. -/
def fsfuseRead (fileSize : Nat) (s : ReadRequests) (req size off buf : Nat) :
    Option ReadRequests := do
  let _ ← s.direntry
  let readCtxt := ⟨req, OpenFile.readSize fileSize off size, buf⟩
  let r := OpenFile.readRequest fileSize size off buf s.contexts.length
  let downloader ← s.downloader.step fileSize (.chunkAdd r)
  return { s with
    downloader
    contexts := s.contexts ++ [some readCtxt]
    asked := s.asked ++ [⟨req, size, off⟩] }

/-- `direntry_delete`, of the file's direntry; `none` if it has been freed, or has no copies. -/
def direntryDelete (s : ReadRequests) : Option ReadRequests := do
  let refc ← (refCountDec s.direntry).toOption
  return { s with direntry := if refc = 0 then none else some refc }

/-- `chunk_done`; `none` if what it uses has been freed. The size reported is compared with the
    one asked for only to trace a difference. -/
def chunkDone (s : ReadRequests) (sig : Signal) : Option ReadRequests := do
  let ctxt ← s.contexts[sig.ctxt]?.join
  let reply := if sig.rc = 0 then .buf (sig.mem.read ctxt.buf sig.size) else .err sig.rc
  { s with
    contexts := s.contexts.set sig.ctxt none
    replies := s.replies ++ [(sig.ctxt, ctxt.req, reply)] }.direntryDelete

/-- The thread looks at the direntry: a search for a source begins with it, and a DEBUG build has
    its name in traces, at the start of the thread and when a wait ends without a timeout. -/
def usesDirentry (debug : Bool) (d : Downloader) : Downloader.Label → Bool
  | .chooseSource _ => true
  | .loopHead => debug && d.firstTime
  | .gotNext => debug && match d.pc with
    | .returning _ timedOut _ => !timedOut
    | _ => false
  | _ => false

/-- `thread_delete` deletes the direntry once its assertion has passed. -/
def dropsDirentry (d : Downloader) (l : Downloader.Label) : Prop :=
  l = .threadDelete ∧ d.currentChunk = none

instance (d : Downloader) (l : Downloader.Label) : Decidable (dropsDirentry d l) :=
  inferInstanceAs (Decidable (_ ∧ _))

/-- One step, on a file of `fileSize` bytes. -/
def step (debug : Bool) (fileSize : Nat) (s : ReadRequests) : Label → Option ReadRequests
  | .read req size off buf => s.fsfuseRead fileSize req size off buf
  | .thread l => do
    let d ← OpenFile.threadStep fileSize s.downloader l
    if usesDirentry debug s.downloader l ∧ s.direntry = none then none
    else
      -- the callbacks of the chunks that the step has answered
      let s' ← (d.signals.drop s.downloader.signals.length).foldlM chunkDone
        { s with downloader := d }
      if dropsDirentry s.downloader l then s'.direntryDelete else return s'
  | .others direntry => if s.direntry = none then none else some { s with direntry }

end ReadRequests

end Fsfuse.Native
