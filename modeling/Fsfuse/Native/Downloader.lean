import Fsfuse.Native.BinaryHeap

/-!
# Downloader

`src/downloader/downloader.c`: one thread per open file, serving the chunks that the
read handlers queue on it. The downloader is a transition system. A label is one step
of the downloader thread, or a `downloader_chunk_add` by any other thread; the
sections executed under `chunks_mutex` are single steps, and so are the stretches of
thread-local code between them. What the thread cannot decide itself (the clock, the
outcome of a wait, what the fetcher delivers) is in the label.

Chunks are `calloc`ed by `downloader_chunk_add` and identified by the order in which
they were added. A chunk's fields change only while it is the current chunk, so the
queue and `currentChunk` hold chunks rather than pointers to them; `freed` records
which have been given to `chunk_delete`.
-/

namespace Fsfuse.Native

/-- The memory holding the requesters' buffers, by address. -/
abbrev Memory := Nat → UInt8

/-- `memcpy(dst, src, len)`. -/
def memcpy (mem : Memory) (dst : Nat) (src : List UInt8) (len : Nat) : Memory := fun a =>
  if dst ≤ a ∧ a < dst + len then src.getD (a - dst) 0 else mem a

/-- The `len` bytes from `a` on. -/
def Memory.read (mem : Memory) (a : Nat) (len : Nat) : List UInt8 :=
  (List.range len).map fun i => mem (a + i)

/-- The arguments of a call of `downloader_chunk_add`; `ctxt` stands for the callback
    together with its context. -/
structure Request where
  start : Nat
  end_ : Nat
  buf : Nat
  ctxt : Nat
deriving Repr, DecidableEq

/-- `chunk_t`. -/
structure Chunk where
  id : Nat
  start : Nat
  end_ : Nat
  bytesUsed : Nat
  buf : Nat
  ctxt : Nat
deriving Repr, DecidableEq

/-- `buf_t`. The data pointer is the data still ahead of it. -/
structure Buf where
  start : Nat
  end_ : Nat
  data : List UInt8
deriving Repr, DecidableEq

/-- A call of `signal_read_thread`, with the memory its callback reads. -/
structure Signal where
  id : Nat
  ctxt : Nat
  rc : Int
  size : Nat
  mem : Memory

/-- Where `chunk_get_next` was called from. -/
inductive Site
  /-- the head of the loop of `downloaderead_main` -/
  | main
  /-- the entry of `buf_consumer`, with the block it was given -/
  | bufferStart (data : List UInt8)
  /-- the end-of-chunk branch of `buf_consumer` -/
  | endOfChunk (buf : Buf)
deriving Repr, DecidableEq

/-- Where the downloader thread is. -/
inductive Pc
  /-- the head of the loop of `downloaderead_main` -/
  | loopHead
  /-- about to call `listing_tryget_best_alternative` -/
  | chooseSource
  /-- in `fetcher_fetch_body`, between two blocks -/
  | fetching
  /-- in `fetcher_fetch_body`, `buf_consumer` having returned non-zero -/
  | stopped
  /-- the head of the loop of `buf_consumer` -/
  | consuming (buf : Buf)
  /-- in `chunk_get_next`, about to lock the mutex -/
  | getNext (site : Site)
  /-- in `pthread_cond_timedwait` -/
  | waiting (site : Site)
  /-- in `chunk_get_next`, the mutex unlocked again: did the last wait time out, and what
      was popped -/
  | returning (site : Site) (timedOut : Bool) (chunk : Option Chunk)
  /-- past the loop, about to lock the mutex -/
  | leaving
  /-- about to call `thread_delete` -/
  | left
  /-- after `thread_delete` -/
  | deleted
  /-- an assertion has failed -/
  | aborted
deriving Repr, DecidableEq

/-- `struct _downloader_t`, the locals of `downloaderead_main`, and what the thread and
    its callers leave behind: the position of the current transfer in the file, the
    memory, the requests made, the chunks freed and the callbacks run. -/
structure Downloader where
  chunks : BinaryHeap Chunk
  downloadOffset : Nat
  currentChunk : Option Chunk
  seek : Bool
  timedOut : Bool
  pc : Pc
  rc : Int
  firstTime : Bool
  position : Nat
  mem : Memory
  added : List Request
  freed : List Nat
  signals : List Signal

namespace Downloader

/-- `downloader_new`. `rc` is the indeterminate value of the uninitialised local. -/
def new (rc : Int) (mem : Memory) : Downloader where
  chunks := .new
  downloadOffset := 0
  currentChunk := none
  seek := false
  timedOut := false
  pc := .loopHead
  rc := rc
  firstTime := true
  position := 0
  mem := mem
  added := []
  freed := []
  signals := []

/-- The downloader thread is running. -/
def Running (d : Downloader) : Prop := d.pc ≠ .deleted ∧ d.pc ≠ .aborted

instance (d : Downloader) : Decidable d.Running := inferInstanceAs (Decidable (_ ∧ _))

/-- A failed `assert`. -/
def abort (d : Downloader) : Downloader := { d with pc := .aborted }

/-- Conversion of an `off_t` to the heap's `int` key: the low 32 bits, signed. -/
def offToInt (off : Nat) : Int := (off : Int).bmod (2 ^ 32)

/-- `chunk_new`. -/
def chunkNew (id : Nat) (r : Request) : Chunk where
  id := id
  start := r.start
  end_ := r.end_
  bytesUsed := 0
  buf := r.buf
  ctxt := r.ctxt

/-- `downloader_chunk_add`, for a file of `size` bytes. -/
def chunkAdd (size : Nat) (d : Downloader) (r : Request) : Option Downloader :=
  -- the three assertions on the range
  if r.start ≤ r.end_ ∧ r.start ≤ size ∧ r.end_ ≤ size then do
    let c := chunkNew d.added.length r
    let chunks ← d.chunks.add (offToInt c.start) c
    return { d with chunks := chunks, added := d.added ++ [r] }
  else some d.abort

/-- `signal_read_thread`. -/
def signalReadThread (d : Downloader) (c : Chunk) (rc : Int) (size : Nat) : Downloader :=
  { d with signals := d.signals ++ [⟨c.id, c.ctxt, rc, size, d.mem⟩] }

/-- `chunk_delete`. -/
def chunkDelete (d : Downloader) (c : Chunk) : Downloader :=
  { d with freed := d.freed ++ [c.id] }

/-! ### chunk_get_next -/

/-- `struct timeval`. -/
structure Timeval where
  sec : Int
  usec : Nat
deriving Repr, DecidableEq

/-- `struct timespec`. -/
structure Timespec where
  sec : Int
  nsec : Nat
deriving Repr, DecidableEq

/-- `ts.tv_nsec` of the deadline, from `tv.tv_usec`. -/
def deadlineNsec (usec : Nat) : Nat := (usec + 1) * 1000

/-- The deadline `ts`, from the time `tv` and `config_timeout_chunk`. -/
def deadline (tv : Timeval) (timeout : Int) : Timespec :=
  ⟨tv.sec + timeout, deadlineNsec tv.usec⟩

/-- The critical section of `chunk_get_next` up to the first wait or the unlock. The
    wait fails with `EINVAL`, and the assertion below it with that, when the deadline's
    nanoseconds make up a second. -/
def chunkGetNext (d : Downloader) (site : Site) (usec : Nat) : Option Downloader := do
  match ← d.chunks.trypop with
  | (some (_, c), chunks) =>
    return { d with chunks := chunks, pc := .returning site false (some c) }
  | (none, chunks) =>
    -- `tv_nsec` is set from the microseconds without a carry into `tv_sec`
    if deadlineNsec usec < 10 ^ 9 then
      return { d with chunks := chunks, pc := .waiting site }
    else
      return { d with chunks := chunks, pc := .aborted }

/-- From the return of `pthread_cond_timedwait`, which holds the mutex again, to the
    next wait or the unlock. The heap is tried once more even after a timeout. -/
def chunkGetNextWake (d : Downloader) (site : Site) (timedOut : Bool) : Option Downloader := do
  match ← d.chunks.trypop with
  -- the heap is popped before the outcome of the wait is looked at
  | (some (_, c), chunks) =>
    return { d with chunks := chunks, pc := .returning site timedOut (some c) }
  | (none, chunks) =>
    if timedOut then
      return { d with chunks := chunks, pc := .returning site true none }
    else
      return { d with chunks := chunks, pc := .waiting site }

/-- The value `chunk_get_next` returns: a timeout makes it `NULL`, whatever was popped. -/
def chunkGetNextResult (timedOut : Bool) (chunk : Option Chunk) : Option Chunk :=
  if timedOut then none else chunk

/-! ### buf_consumer -/

/-- `buf_consumer` up to its loop. -/
def bufConsumer (d : Downloader) (data : List UInt8) : Downloader :=
  match d.currentChunk with
  | none => { d with pc := .getNext (.bufferStart data) }
  -- a chunk in hand from the block before, or from the head of the loop
  | some _ =>
    { d with pc := .consuming ⟨d.downloadOffset, d.downloadOffset + data.length, data⟩ }

/-- `buf_consumer` bails out because no chunk came. -/
def bailTimedOut (d : Downloader) : Downloader :=
  { d with currentChunk := none, timedOut := true, pc := .stopped }

/-- One round of the loop of `buf_consumer`, with `chunk` the current chunk. -/
def bufConsumerRound (d : Downloader) (chunk : Chunk) (buf : Buf) : Downloader :=
  if chunk.start = buf.start then
    -- as much as both the block and the chunk have room for
    let copyLen := min (buf.end_ - buf.start) (chunk.end_ - chunk.start)
    let mem := memcpy d.mem chunk.buf buf.data copyLen
    let chunk := { chunk with
      bytesUsed := chunk.bytesUsed + copyLen
      start := chunk.start + copyLen
      buf := chunk.buf + copyLen }
    let buf := { buf with start := buf.start + copyLen, data := buf.data.drop copyLen }
    let d := { d with mem := mem, currentChunk := some chunk }
    -- both end here: the chunk is answered, and the next block will ask for another
    if buf.start = buf.end_ ∧ chunk.start = chunk.end_ then
      let d := (d.signalReadThread chunk 0 chunk.bytesUsed).chunkDelete chunk
      { d with currentChunk := none, downloadOffset := buf.end_, pc := .fetching }
    -- the end of the block: the chunk stays in hand for the next one
    else if buf.start = buf.end_ then
      { d with downloadOffset := buf.end_, pc := .fetching }
    else if chunk.start = chunk.end_ then
      -- `current_chunk` dangles until `chunk_get_next` has returned
      let d := (d.signalReadThread chunk 0 chunk.bytesUsed).chunkDelete chunk
      { d with pc := .getNext (.endOfChunk buf) }
    else
      { d with pc := .consuming buf }
  else
    -- the chunk starts elsewhere: bail out, so that the loop head seeks to it
    { d with seek := true, pc := .stopped }

/-! ### downloaderead_main -/

/-- The debugging checks at the head of the loop, and whether a chunk is in hand. -/
def loopHead (d : Downloader) : Downloader :=
  if d.seek ∧ d.currentChunk = none ∨ d.firstTime ∧ d.currentChunk ≠ none then
    d.abort
  else
    -- `seek` has served its purpose once its assertion has passed
    let d := { d with seek := false, firstTime := false }
    match d.currentChunk with
    | none => { d with pc := .getNext .main }
    | some c => { d with downloadOffset := c.start, pc := .chooseSource }

/-- The range asked of the fetcher: none for a chunk that starts the file. -/
def range (c : Chunk) : Option Nat := if c.start ≠ 0 then some c.start else none

/-- `EBUSY`. -/
def ebusy : Int := 16

/-- The outcome of `listing_tryget_best_alternative`; a transfer starts where its range
    does. -/
def chooseSource (d : Downloader) (found : Bool) : Downloader :=
  if found then
    { d with position := (d.currentChunk.bind range).getD 0, pc := .fetching }
  else
    { d with rc := ebusy, pc := .leaving }

/-- The return of `fetcher_fetch_body`, and the test of the loop. -/
def fetched (d : Downloader) (rc : Int) : Downloader :=
  { d with rc := rc, pc := if rc = 0 then .loopHead else .leaving }

/-- The return of `chunk_get_next` to its caller. -/
def gotNext (d : Downloader) (site : Site) (chunk : Option Chunk) : Downloader :=
  match site, chunk with
  -- no chunk came in time: the thread is done
  | .main, none => { d with currentChunk := none, pc := .leaving }
  | .main, some c =>
    { d with currentChunk := some c, downloadOffset := c.start, pc := .chooseSource }
  | .bufferStart _, none => d.bailTimedOut
  | .bufferStart data, some c => { d with currentChunk := some c }.bufConsumer data
  | .endOfChunk _, none => d.bailTimedOut
  | .endOfChunk buf, some c => { d with currentChunk := some c, pc := .consuming buf }

/-- `chunks_empty`, for at most `rounds` rounds. -/
def chunksEmpty (rounds : Nat) (d : Downloader) (rc : Int) : Option Downloader := do
  match ← d.chunks.trypop with
  | (none, _) => return d
  | (some (_, c), chunks) =>
    match rounds with
    | 0 => none
    | rounds + 1 =>
      chunksEmpty rounds (({ d with chunks := chunks }.signalReadThread c rc 0).chunkDelete c) rc

/-- The critical section after the loop. -/
def finish (d : Downloader) : Option Downloader :=
  if d.rc = 0 then
    match d.currentChunk with
    -- after a clean end nothing may be left, neither in hand nor queued
    | some _ => some d.abort
    | none => do
      match ← d.chunks.trypop with
      | (some _, chunks) => return { d with chunks := chunks, pc := .aborted }
      | (none, _) => return { d with pc := .left }
  else
    match d.currentChunk with
    -- after an error the chunk in hand is answered with it, and so are those queued
    | some c => do
      let d := { (d.signalReadThread c d.rc 0).chunkDelete c with currentChunk := none }
      let d ← chunksEmpty d.chunks.used d d.rc
      return { d with pc := .left }
    | none => some { d with pc := .left }

/-- `thread_delete`, with the assertion of `binary_heap_delete`. -/
def threadDelete (d : Downloader) : Downloader :=
  if d.currentChunk = none ∧ d.chunks.deletable then { d with pc := .deleted } else d.abort

/-! ### The transition system -/

/-- A step of the downloader thread, or a `downloader_chunk_add`. -/
inductive Label
  | chunkAdd (r : Request)
  | loopHead
  | getNext (usec : Nat)
  | wake (timedOut : Bool)
  | gotNext
  | chooseSource (found : Bool)
  | block (data : List UInt8)
  | consume
  | fetched (rc : Int)
  | finish
  | threadDelete
deriving Repr, DecidableEq

/-- One step, for a file of `size` bytes. Nothing is defined to happen once the
    downloader is deleted or the daemon has aborted. -/
def step (size : Nat) (d : Downloader) : Label → Option Downloader
  | .chunkAdd r => if d.Running then d.chunkAdd size r else none
  | .loopHead => match d.pc with
    | .loopHead => some d.loopHead
    | _ => none
  | .getNext usec => match d.pc with
    | .getNext site => d.chunkGetNext site usec
    | _ => none
  | .wake timedOut => match d.pc with
    | .waiting site => d.chunkGetNextWake site timedOut
    | _ => none
  | .gotNext => match d.pc with
    | .returning site timedOut chunk => some (d.gotNext site (chunkGetNextResult timedOut chunk))
    | _ => none
  | .chooseSource found => match d.pc with
    | .chooseSource => some (d.chooseSource found)
    | _ => none
  | .block data => match d.pc with
    | .fetching => some ({ d with position := d.position + data.length }.bufConsumer data)
    | _ => none
  | .consume => match d.pc, d.currentChunk with
    | .consuming buf, some chunk => some (d.bufConsumerRound chunk buf)
    | _, _ => none
  | .fetched rc => match d.pc with
    | .fetching => some (d.fetched rc)
    | .stopped => some (d.fetched rc)
    | _ => none
  | .finish => match d.pc with
    | .leaving => d.finish
    | _ => none
  | .threadDelete => match d.pc with
    | .left => some d.threadDelete
    | _ => none

/-! ### What each step takes and does -/

section Steps

variable {size : Nat} {d d' : Downloader}

/-- When `downloader_chunk_add` is called, and what it does. -/
theorem step_chunkAdd {r : Request} :
    d.step size (.chunkAdd r) = some d' ↔ d.Running ∧ d.chunkAdd size r = some d' := by
  simp only [step, Option.ite_none_right_eq_some]

/-- When the head of the loop is reached, and what it does. -/
theorem step_loopHead :
    d.step size .loopHead = some d' ↔ d.pc = .loopHead ∧ d.loopHead = d' := by
  simp only [step]; split <;> simp_all

/-- When `chunk_get_next` is entered, and what it does. -/
theorem step_getNext {usec : Nat} :
    d.step size (.getNext usec) = some d' ↔
      ∃ site, d.pc = .getNext site ∧ d.chunkGetNext site usec = some d' := by
  simp only [step]; split <;> simp_all

/-- When its wait returns, and what happens then. -/
theorem step_wake {timedOut : Bool} :
    d.step size (.wake timedOut) = some d' ↔
      ∃ site, d.pc = .waiting site ∧ d.chunkGetNextWake site timedOut = some d' := by
  simp only [step]; split <;> simp_all

/-- When `chunk_get_next` returns, and where to. -/
theorem step_gotNext :
    d.step size .gotNext = some d' ↔ ∃ site timedOut chunk,
      d.pc = .returning site timedOut chunk ∧
        d.gotNext site (chunkGetNextResult timedOut chunk) = d' := by
  constructor
  · intro h
    simp only [step] at h
    split at h <;> simp only [Option.some.injEq, reduceCtorEq] at h
    exact ⟨_, _, _, ‹_›, h⟩
  · rintro ⟨site, timedOut, chunk, hpc, rfl⟩
    simp only [step, hpc]

/-- When a source is chosen, and what follows. -/
theorem step_chooseSource {found : Bool} :
    d.step size (.chooseSource found) = some d' ↔
      d.pc = .chooseSource ∧ d.chooseSource found = d' := by
  simp only [step]; split <;> simp_all

/-- When the fetcher delivers a block, and what `buf_consumer` makes of it. -/
theorem step_block {data : List UInt8} :
    d.step size (.block data) = some d' ↔
      d.pc = .fetching ∧ { d with position := d.position + data.length }.bufConsumer data = d' := by
  simp only [step]; split <;> simp_all

/-- When a round of `buf_consumer` runs, and what it does. -/
theorem step_consume :
    d.step size .consume = some d' ↔ ∃ buf chunk,
      d.pc = .consuming buf ∧ d.currentChunk = some chunk ∧ d.bufConsumerRound chunk buf = d' := by
  simp only [step]; split <;> simp_all

/-- When a fetch ends, and what follows. -/
theorem step_fetched {rc : Int} :
    d.step size (.fetched rc) = some d' ↔
      (d.pc = .fetching ∨ d.pc = .stopped) ∧ d.fetched rc = d' := by
  simp only [step]; split <;> simp_all

/-- When the thread's loop has been left, and what follows. -/
theorem step_finish :
    d.step size .finish = some d' ↔ d.pc = .leaving ∧ d.finish = some d' := by
  simp only [step]; split <;> simp_all

/-- When the thread is deleted, and what that does. -/
theorem step_threadDelete :
    d.step size .threadDelete = some d' ↔ d.pc = .left ∧ d.threadDelete = d' := by
  simp only [step]; split <;> simp_all

end Steps

end Downloader

end Fsfuse.Native
