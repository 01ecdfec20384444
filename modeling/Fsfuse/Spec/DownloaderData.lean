import Fsfuse.Spec.DownloaderQueue

/-!
# Downloaded data is right and complete

Whatever the interleaving of requests, waits, timeouts, blocks and transfers cut
short, a chunk that is signalled without an error carries exactly the bytes of the
file that were requested.

The invariant `Inv` ties the moving fields of the current chunk (`start`, `buf`,
`bytesUsed`) to the request it came from, and the block in hand to the position of
the transfer in the file. A queued chunk is still as `chunk_new` made it: only the
current chunk is ever half filled, and it stays current until it is signalled.
-/

namespace Fsfuse.Native.Downloader

open Transition

variable {file : List UInt8} {added added' : List Request} {mem : Memory} {c : Chunk}
  {d d' : Downloader}

/-! ### Memory and file ranges -/

/-- Copying right behind a range that has been read extends what is read. -/
theorem read_memcpy (mem : Memory) (a n : Nat) (src : List UInt8) {len : Nat}
    (hlen : len ≤ src.length) :
    (memcpy mem (a + n) src len).read a (n + len) = mem.read a n ++ src.take len := by
  -- the copy starts behind what was read before
  have hold : ∀ i ∈ List.range n, memcpy mem (a + n) src len (a + i) = mem (a + i) := by
    intro i hi
    rw [List.mem_range] at hi
    rw [memcpy, if_neg (by omega)]
  -- and puts the source there
  have hnew : (List.range len).map (fun i => memcpy mem (a + n) src len (a + (n + i))) =
      src.take len := by
    apply List.ext_getElem (by simp [hlen])
    intro i h₁ _
    simp only [List.length_map, List.length_range] at h₁
    rw [List.getElem_map, List.getElem_range, List.getElem_take, memcpy, if_pos (by omega),
      show a + (n + i) - (a + n) = i by omega, List.getD_eq_getElem?_getD,
      List.getElem?_eq_getElem (by omega), Option.getD_some]
  rw [Memory.read, Memory.read, List.range_add, List.map_append, List.map_congr_left hold,
    List.map_map, ← hnew]
  rfl

/-- Adjacent ranges of a file join. -/
theorem extract_append (file : List UInt8) {a b e : Nat} (hab : a ≤ b) (hbe : b ≤ e) :
    file.extract a b ++ file.extract b e = file.extract a e := by
  simp only [List.extract_eq_take_drop]
  rw [show e - a = (b - a) + (e - b) by omega, List.take_add, List.drop_drop,
    show a + (b - a) = b by omega]

/-- `data` is what the file holds from `start` up to `stop`. -/
def Block (file : List UInt8) (start stop : Nat) (data : List UInt8) : Prop :=
  start + data.length = stop ∧ data <+: file.drop start

/-- The beginning of a block is the file from where the block starts. -/
theorem Block.take {start stop len : Nat} {data : List UInt8} (h : Block file start stop data)
    (hlen : len ≤ data.length) : data.take len = file.extract start (start + len) := by
  obtain ⟨rest, hrest⟩ := h.2
  rw [List.extract_eq_take_drop, ← hrest, Nat.add_sub_cancel_left,
    List.take_append_of_le_length hlen]

/-- What is left of a block starts further on in the file. -/
theorem Block.drop {start stop : Nat} {data : List UInt8} (h : Block file start stop data)
    {n : Nat} (hn : n ≤ data.length) : Block file (start + n) stop (data.drop n) := by
  refine ⟨by rw [List.length_drop]; have := h.1; omega, ?_⟩
  rw [← List.drop_drop]
  exact h.2.drop n

/-! ### What a chunk owes its request -/

/-- The chunk is as `chunk_new` made it, for a request with a proper range. -/
def Fresh (added : List Request) (c : Chunk) : Prop :=
  ∃ r, added[c.id]? = some r ∧ c = chunkNew c.id r ∧ r.start ≤ r.end_

/-- The chunk has its first `bytesUsed` bytes in its requester's buffer and its moving
    fields just behind them. -/
structure FilledFor (file : List UInt8) (mem : Memory) (c : Chunk) (r : Request) : Prop where
  start : c.start = r.start + c.bytesUsed
  buf : c.buf = r.buf + c.bytesUsed
  end_ : c.end_ = r.end_
  le : c.start ≤ c.end_
  data : mem.read r.buf c.bytesUsed = file.extract r.start c.start

/-- The chunk is filled for the request it came from. -/
def Filled (file : List UInt8) (added : List Request) (mem : Memory) (c : Chunk) : Prop :=
  ∃ r, added[c.id]? = some r ∧ FilledFor file mem c r

/-- The signal reports the whole of its request, and its callback finds the requested
    bytes in the buffer. -/
def Delivered (file : List UInt8) (added : List Request) (sig : Signal) : Prop :=
  ∃ r, added[sig.id]? = some r ∧ sig.size = r.end_ - r.start ∧
    sig.mem.read r.buf (r.end_ - r.start) = file.extract r.start r.end_

/-- The requests made so far stay. -/
theorem getElem?_mono {i : Nat} {r : Request} (h : added <+: added') (hr : added[i]? = some r) :
    added'[i]? = some r := by
  obtain ⟨rest, rfl⟩ := h
  exact List.getElem?_append_left (List.getElem?_eq_some_iff.mp hr).1 ▸ hr

/-- A chunk that nothing was copied for stays one when requests are made. -/
theorem Fresh.mono (h : added <+: added') (hf : Fresh added c) : Fresh added' c := by
  obtain ⟨r, hr, hc⟩ := hf
  exact ⟨r, getElem?_mono h hr, hc⟩

/-- A chunk that is filled stays so when requests are made. -/
theorem Filled.mono (h : added <+: added') (hf : Filled file added mem c) :
    Filled file added' mem c := by
  obtain ⟨r, hr, hc⟩ := hf
  exact ⟨r, getElem?_mono h hr, hc⟩

/-- What was delivered stays so when requests are made. -/
theorem Delivered.mono {sig : Signal} (h : added <+: added') (hd : Delivered file added sig) :
    Delivered file added' sig := by
  obtain ⟨r, hr, hc⟩ := hd
  exact ⟨r, getElem?_mono h hr, hc⟩

/-- A chunk just popped has none of its bytes yet. -/
theorem Fresh.filled (hf : Fresh added c) (mem : Memory) : Filled file added mem c := by
  obtain ⟨r, hr, hc, hle⟩ := hf
  rw [hc]
  exact ⟨r, hr, rfl, rfl, rfl, hle, by simp [chunkNew, Memory.read]⟩

/-- A chunk whose `start` has reached its `end_` holds the whole request. -/
theorem Filled.delivered (hf : Filled file added mem c) (hend : c.start = c.end_) (rc : Int) :
    Delivered file added ⟨c.id, c.ctxt, rc, c.bytesUsed, mem⟩ := by
  obtain ⟨r, hr, h⟩ := hf
  -- `start` has moved by `bytesUsed`, from the start of the request to its end
  have hsize : c.bytesUsed = r.end_ - r.start := by have := h.start; have := h.end_; omega
  refine ⟨r, hr, hsize, ?_⟩
  have hdata := h.data
  rw [hend, h.end_] at hdata
  exact hsize ▸ hdata

/-- Copying from a block that starts where the chunk does keeps the chunk filled. -/
theorem Filled.copy {data : List UInt8} {stop len : Nat} (hf : Filled file added mem c)
    (hb : Block file c.start stop data) (hlen : len ≤ data.length)
    (hend : c.start + len ≤ c.end_) :
    Filled file added (memcpy mem c.buf data len)
      { c with bytesUsed := c.bytesUsed + len, start := c.start + len, buf := c.buf + len } := by
  obtain ⟨r, hr, h⟩ := hf
  refine ⟨r, hr, ?_, ?_, h.end_, hend, ?_⟩
  · show c.start + len = r.start + (c.bytesUsed + len); rw [h.start]; omega
  · show c.buf + len = r.buf + (c.bytesUsed + len); rw [h.buf]; omega
  -- `buf` is where the bytes so far end, so the copy extends them
  · show (memcpy mem c.buf data len).read r.buf (c.bytesUsed + len) = _
    rw [h.buf, read_memcpy _ _ _ _ hlen, h.data, hb.take hlen]
    exact extract_append file (by rw [h.start]; exact Nat.le_add_right _ _) (Nat.le_add_right _ _)

/-! ### The invariant -/

/-- The current chunk, if there is one, is filled for its request. -/
def CurrentFilled (file : List UInt8) (d : Downloader) : Prop :=
  ∀ c ∈ d.currentChunk, Filled file d.added d.mem c

/-- The block `buf_consumer` holds while it is in `chunk_get_next`. -/
def SiteInv (file : List UInt8) (d : Downloader) : Site → Prop
  | .main => True
  | .bufferStart data => Block file d.downloadOffset d.position data
  | .endOfChunk buf => Block file buf.start d.position buf.data ∧ buf.end_ = d.position

/-- What holds at each place the thread can be. Inside `chunk_get_next` nothing is said
    of the current chunk: it is `NULL` or dangling there, and is overwritten on return. -/
def PcInv (file : List UInt8) (d : Downloader) : Pc → Prop
  | .loopHead | .stopped | .leaving | .left => CurrentFilled file d
  | .chooseSource =>
    CurrentFilled file d ∧ ∃ c, d.currentChunk = some c ∧ d.downloadOffset = c.start
  | .fetching => CurrentFilled file d ∧ d.downloadOffset = d.position
  | .consuming buf => CurrentFilled file d ∧
      Block file buf.start d.position buf.data ∧ buf.end_ = d.position
  | .getNext site | .waiting site => SiteInv file d site
  | .returning site _ chunk => SiteInv file d site ∧ ∀ c ∈ chunk, Fresh d.added c
  | .deleted | .aborted => True

/-- The invariant of the downloader. -/
structure Inv (file : List UInt8) (d : Downloader) : Prop where
  queued : ∀ x ∈ d.chunks.entries, Fresh d.added x.value
  signals : ∀ sig ∈ d.signals, sig.rc = 0 → Delivered file d.added sig
  pc : PcInv file d d.pc

/-- Nothing is queued, current or signalled at the start. -/
theorem new_inv (file : List UInt8) (rc : Int) (mem : Memory) : Inv file (new rc mem) where
  queued := by intro x hx; simp [new] at hx
  signals := by intro sig hs; simp [new] at hs
  pc := by intro c hc; simp [new] at hc

/-- What the fetcher is trusted with: a block continues the file from where the transfer
    has got to. -/
def FetcherServes (file : List UInt8) (d : Downloader) : Label → Prop
  | .block data => data <+: file.drop d.position
  | _ => True

instance (file : List UInt8) (d : Downloader) : DecidablePred (FetcherServes file d)
  | .block data => inferInstanceAs (Decidable (data <+: file.drop d.position))
  | .chunkAdd _ | .loopHead | .getNext _ | .wake _ | .gotNext | .chooseSource _ | .consume
  | .fetched _ | .finish | .threadDelete => inferInstanceAs (Decidable True)

/-! ### Every step keeps the invariant -/

/-- What holds on the way into `chunk_get_next` depends on the offset and the position alone. -/
theorem SiteInv.congr {site : Site} (h : SiteInv file d site)
    (ho : d'.downloadOffset = d.downloadOffset) (hp : d'.position = d.position) :
    SiteInv file d' site := by
  cases site <;> simp only [SiteInv, ho, hp] at h ⊢ <;> exact h

/-- A failed assertion keeps the invariant. -/
theorem Inv.abort (h : Inv file d) : Inv file d.abort := ⟨h.queued, h.signals, trivial⟩

/-- `downloader_chunk_add` queues a chunk that nothing was copied for. -/
theorem chunkAdd_inv {size : Nat} {r : Request} (h : Inv file d)
    (hstep : d.chunkAdd size r = some d') : Inv file d' := by
  obtain ⟨hrange, chunks, hadd, rfl⟩ | rfl := chunkAdd_cases hstep
  · have hpre : d.added <+: d.added ++ [r] := List.prefix_append _ _
    refine ⟨fun x hx => ?_, fun sig hs hrc => (h.signals sig hs hrc).mono hpre, ?_⟩
    · obtain ⟨-, hperm, -⟩ := BinaryHeap.add_spec hadd
      -- the new chunk is fresh for the new request, the others are for theirs
      rcases List.mem_cons.mp (hperm.mem_iff.mp hx) with rfl | hx
      · exact ⟨r, by simp [chunkNew], rfl, hrange.1⟩
      · exact (h.queued x hx).mono hpre
    · have hcur : CurrentFilled file d →
          CurrentFilled file { d with chunks := chunks, added := d.added ++ [r] } :=
        fun hc c hcc => (hc c hcc).mono hpre
      have hp := h.pc
      show PcInv file _ d.pc
      -- wherever the thread is, what holds there goes on to hold
      cases hpc : d.pc <;> simp only [hpc, PcInv] at hp ⊢
      case chooseSource => exact ⟨hcur hp.1, hp.2⟩
      case fetching => exact ⟨hcur hp.1, hp.2⟩
      case consuming buf => exact ⟨hcur hp.1, hp.2⟩
      case getNext site => exact hp.congr rfl rfl
      case waiting site => exact hp.congr rfl rfl
      case returning site t chunk =>
        exact ⟨hp.1.congr rfl rfl, fun c hc => (hp.2 c hc).mono hpre⟩
      all_goals exact hcur hp
  · exact h.abort

/-- The current chunk taken from the heap is fresh, and what stays behind was queued. -/
theorem popped_inv {site : Site} {timedOut : Bool} {key : Int} {chunks : BinaryHeap Chunk}
    (h : Inv file d) (hsite : SiteInv file d site)
    (hpop : d.chunks.trypop = some (some (key, c), chunks)) :
    Inv file { d with chunks := chunks, pc := .returning site timedOut (some c) } := by
  have hperm := BinaryHeap.trypop_some hpop
  refine ⟨fun x hx => h.queued x ?_, h.signals, hsite.congr rfl rfl, fun c' hc' => ?_⟩
  · exact hperm.mem_iff.mpr (List.mem_cons_of_mem _ hx)
  · obtain rfl := Option.mem_some.mp hc'
    exact h.queued ⟨key, c⟩ (hperm.mem_iff.mpr List.mem_cons_self)

/-- `chunk_get_next` takes off the heap a chunk that nothing was copied for. -/
theorem chunkGetNext_inv {site : Site} {usec : Nat} (h : Inv file d)
    (hsite : SiteInv file d site) (hstep : d.chunkGetNext site usec = some d') :
    Inv file d' := by
  obtain ⟨key, c, chunks, hpop, rfl⟩ | ⟨-, ⟨-, rfl⟩ | ⟨-, rfl⟩⟩ := chunkGetNext_cases hstep
  -- a chunk at once
  · exact popped_inv h hsite hpop
  -- a wait, or the failed assertion on a deadline that is none
  · exact ⟨h.queued, h.signals, hsite.congr rfl rfl⟩
  · exact ⟨h.queued, h.signals, trivial⟩

/-- When the wait returns, what is taken off the heap is such a chunk too. -/
theorem chunkGetNextWake_inv {site : Site} {timedOut : Bool} (h : Inv file d)
    (hsite : SiteInv file d site) (hstep : d.chunkGetNextWake site timedOut = some d') :
    Inv file d' := by
  obtain ⟨key, c, chunks, hpop, rfl⟩ | ⟨-, ⟨-, rfl⟩ | ⟨-, rfl⟩⟩ := chunkGetNextWake_cases hstep
  -- a chunk, whether or not the wait has timed out
  · exact popped_inv h hsite hpop
  · exact ⟨h.queued, h.signals, hsite.congr rfl rfl, by simp⟩
  · exact ⟨h.queued, h.signals, hsite.congr rfl rfl⟩

/-- The head of the loop keeps what is delivered right. -/
theorem loopHead_inv (h : Inv file d) (hcur : CurrentFilled file d) : Inv file d.loopHead := by
  rw [loopHead]
  split
  · exact h.abort
  · simp only
    split
    · exact ⟨h.queued, h.signals, trivial⟩
    · rename_i c hc
      -- the chunk left over from the last transfer: `download_offset` goes to its start
      exact ⟨h.queued, h.signals, hcur, c, hc, rfl⟩

/-- A transfer starts at the current chunk, which is where `download_offset` stands. -/
theorem chooseSource_inv {found : Bool} (h : Inv file d) (hp : PcInv file d .chooseSource) :
    Inv file (d.chooseSource found) := by
  obtain ⟨hcur, c, hc, hoff⟩ := hp
  rw [chooseSource]
  split
  · refine ⟨h.queued, h.signals, hcur, ?_⟩
    show d.downloadOffset = (d.currentChunk.bind range).getD 0
    -- no range is asked for when the chunk starts the file, and then the offset is 0
    rw [hoff, hc, Option.bind_some, range]
    split
    · rfl
    · rename_i h0; simpa using h0
  · exact ⟨h.queued, h.signals, hcur⟩

/-- The end of a fetch keeps what is delivered right. -/
theorem fetched_inv {rc : Int} (h : Inv file d) (hcur : CurrentFilled file d) :
    Inv file (d.fetched rc) := by
  refine ⟨h.queued, h.signals, ?_⟩
  show PcInv file _ (if rc = 0 then Pc.loopHead else Pc.leaving)
  split <;> exact hcur

/-- A block that continues the file is in step with the transfer when the loop of
    `buf_consumer` starts, and also if it has to wait for a chunk first. -/
theorem bufConsumer_inv {data : List UInt8}
    (hq : ∀ x ∈ d.chunks.entries, Fresh d.added x.value)
    (hs : ∀ sig ∈ d.signals, sig.rc = 0 → Delivered file d.added sig)
    (hcur : CurrentFilled file d) (hb : Block file d.downloadOffset d.position data) :
    Inv file (d.bufConsumer data) := by
  rw [bufConsumer]
  split
  · exact ⟨hq, hs, hb⟩
  · exact ⟨hq, hs, hcur, hb, hb.1⟩

/-- The bail-out of `chunk_get_next` changes nothing of what is delivered. -/
theorem bailTimedOut_inv (h : Inv file d) : Inv file d.bailTimedOut :=
  ⟨h.queued, h.signals, by intro c hc; simp [bailTimedOut] at hc⟩

/-- The chunk that `chunk_get_next` returns is the current one, and nothing was copied for it. -/
theorem gotNext_inv {site : Site} {chunk : Option Chunk} (h : Inv file d)
    (hsite : SiteInv file d site) (hfresh : ∀ c ∈ chunk, Fresh d.added c) :
    Inv file (d.gotNext site chunk) := by
  -- a fresh chunk is filled with nothing
  have hnew : ∀ c ∈ chunk, CurrentFilled file { d with currentChunk := some c } := by
    intro c hc c' hc'
    obtain rfl := Option.mem_some.mp hc'
    exact (hfresh _ hc).filled d.mem
  cases site with
  | main =>
    cases chunk with
    | none => exact ⟨h.queued, h.signals, by intro c hc; simp [gotNext] at hc⟩
    | some c => exact ⟨h.queued, h.signals, hnew c rfl, c, rfl, rfl⟩
  | bufferStart data =>
    cases chunk with
    | none => exact bailTimedOut_inv h
    | some c => exact ⟨h.queued, h.signals, hnew c rfl, hsite, hsite.1⟩
  | endOfChunk buf =>
    cases chunk with
    | none => exact bailTimedOut_inv h
    | some c => exact ⟨h.queued, h.signals, hnew c rfl, hsite⟩

/-- The log stays in order when a signal that keeps its promise is appended. -/
theorem signals_append {sigs : List Signal} {sig : Signal}
    (hs : ∀ s ∈ sigs, s.rc = 0 → Delivered file added s)
    (hsig : sig.rc = 0 → Delivered file added sig) :
    ∀ s ∈ sigs ++ [sig], s.rc = 0 → Delivered file added s := by
  intro s hmem hrc
  rcases List.mem_append.mp hmem with hmem | hmem
  · exact hs s hmem hrc
  · obtain rfl := List.mem_singleton.mp hmem
    exact hsig hrc

/-- One round of the loop of `buf_consumer`. -/
theorem bufConsumerRound_inv {buf : Buf} (h : Inv file d) (hc : Filled file d.added d.mem c)
    (hcur : d.currentChunk = some c) (hb : Block file buf.start d.position buf.data)
    (hend : buf.end_ = d.position) : Inv file (d.bufConsumerRound c buf) := by
  simp only [bufConsumerRound]
  split
  · rename_i hmeet
    -- the copy is within the block and within the chunk
    generalize hlen : min (buf.end_ - buf.start) (c.end_ - c.start) = len
    have hle : c.start ≤ c.end_ := by obtain ⟨_, _, hf⟩ := hc; exact hf.le
    have hdata : len ≤ buf.data.length := by have := hb.1; omega
    -- the chunk and the block after the copy
    have hc' := hc.copy (hmeet ▸ hb) hdata (by omega)
    have hb' := hb.drop hdata
    split
    · rename_i hdone
      -- chunk and block end together: the chunk is signalled
      exact ⟨h.queued, signals_append h.signals fun _ => hc'.delivered hdone.2 0,
        by intro c' hc'; simp at hc', hend⟩
    · split
      -- the block ends, the chunk goes on
      · refine ⟨h.queued, h.signals, ?_, hend⟩
        intro c' hcc'
        obtain rfl := Option.mem_some.mp hcc'
        exact hc'
      · split
        · rename_i hdone
          -- the chunk ends and is signalled, the block goes on
          exact ⟨h.queued, signals_append h.signals fun _ => hc'.delivered hdone 0, hb', hend⟩
        · refine ⟨h.queued, h.signals, ?_, hb', hend⟩
          intro c' hcc'
          obtain rfl := Option.mem_some.mp hcc'
          exact hc'
  · refine ⟨h.queued, h.signals, ?_⟩
    intro c' hcc'
    -- nothing has been copied
    obtain rfl : c = c' := Option.some.inj (hcur ▸ hcc')
    exact hc

/-- Emptying the queue with an error signals nothing without one. -/
theorem chunksEmpty_inv {rounds : Nat} {rc : Int} (hstep : d.chunksEmpty rounds rc = some d')
    (hrc : rc ≠ 0) (hq : ∀ x ∈ d.chunks.entries, Fresh d.added x.value)
    (hs : ∀ sig ∈ d.signals, sig.rc = 0 → Delivered file d.added sig) :
    (∀ x ∈ d'.chunks.entries, Fresh d'.added x.value) ∧
      (∀ sig ∈ d'.signals, sig.rc = 0 → Delivered file d'.added sig) ∧
      d'.currentChunk = d.currentChunk := by
  -- on the rounds; each adds a signal that carries the error
  induction rounds generalizing d with
  | zero =>
    obtain ⟨-, rfl⟩ | ⟨key, c, chunks, rounds', -, hrounds, -⟩ := chunksEmpty_cases hstep
    · exact ⟨hq, hs, rfl⟩
    · cases hrounds
  | succ rounds ih =>
    obtain ⟨-, rfl⟩ | ⟨key, c, chunks, rounds', hpop, hrounds, hrest⟩ := chunksEmpty_cases hstep
    · exact ⟨hq, hs, rfl⟩
    · obtain rfl := Nat.succ.inj hrounds
      have hperm := BinaryHeap.trypop_some hpop
      have hspec := ih hrest (fun x hx => hq x (hperm.mem_iff.mpr (List.mem_cons_of_mem _ hx)))
        (signals_append hs fun h0 => absurd h0 hrc)
      exact hspec

/-- The end of the thread signals errors only. -/
theorem finish_inv (h : Inv file d) (hstep : d.finish = some d') : Inv file d' := by
  -- nothing is said of the current chunk where there is none
  have hnone : d.currentChunk = none → CurrentFilled file d := by
    intro hnone c hc
    rw [hnone] at hc
    cases hc
  obtain ⟨-, ⟨-, rfl⟩ | ⟨hcur, ⟨e, chunks, hpop, rfl⟩ | ⟨-, rfl⟩⟩⟩ |
    ⟨hrc, ⟨hcur, rfl⟩ | ⟨c, d₁, -, hempty, rfl⟩⟩ := finish_cases hstep
  -- after a clean end the queue must be empty
  · exact h.abort
  · refine ⟨fun x hx => h.queued x ?_, h.signals, trivial⟩
    exact (BinaryHeap.trypop_some hpop).mem_iff.mpr (List.mem_cons_of_mem _ hx)
  · exact ⟨h.queued, h.signals, hnone hcur⟩
  -- after an error the current chunk and all that are queued are signalled with it
  · exact ⟨h.queued, h.signals, hnone hcur⟩
  · obtain ⟨hq, hs, hcur⟩ := chunksEmpty_inv hempty hrc h.queued
      (signals_append h.signals fun h0 => absurd h0 hrc)
    refine ⟨hq, hs, ?_⟩
    intro c' hc'
    simp [hcur, answerCurrent] at hc'

/-- Deleting the thread signals an error only. -/
theorem threadDelete_inv (h : Inv file d) : Inv file d.threadDelete := by
  rw [threadDelete]
  split
  · exact ⟨h.queued, h.signals, trivial⟩
  · exact h.abort

/-- Every step keeps the invariant, given that blocks continue the file. -/
theorem step_inv {size : Nat} {l : Label} (h : Inv file d) (hserve : FetcherServes file d l)
    (hstep : d.step size l = some d') : Inv file d' := by
  have hp := h.pc
  cases l with
  | chunkAdd r => exact chunkAdd_inv h (step_chunkAdd.mp hstep).2
  | loopHead =>
    obtain ⟨hpc, rfl⟩ := step_loopHead.mp hstep
    rw [hpc] at hp
    exact loopHead_inv h hp
  | getNext usec =>
    obtain ⟨site, hpc, hnext⟩ := step_getNext.mp hstep
    rw [hpc] at hp
    exact chunkGetNext_inv h hp hnext
  | wake timedOut =>
    obtain ⟨site, hpc, hwake⟩ := step_wake.mp hstep
    rw [hpc] at hp
    exact chunkGetNextWake_inv h hp hwake
  | gotNext =>
    obtain ⟨site, timedOut, chunk, hpc, rfl⟩ := step_gotNext.mp hstep
    rw [hpc] at hp
    -- a timeout makes the result `NULL`, of which nothing is asked
    refine gotNext_inv h hp.1 fun c hc => hp.2 c ?_
    rw [chunkGetNextResult] at hc
    split at hc
    · cases hc
    · exact hc
  | chooseSource found =>
    obtain ⟨hpc, rfl⟩ := step_chooseSource.mp hstep
    rw [hpc] at hp
    exact chooseSource_inv h hp
  | block data =>
    obtain ⟨hpc, rfl⟩ := step_block.mp hstep
    rw [hpc] at hp
    -- `download_offset` and the transfer move on together
    refine bufConsumer_inv h.queued h.signals hp.1 ⟨?_, ?_⟩
    · show d.downloadOffset + data.length = d.position + data.length
      rw [hp.2]
    · rw [show d.downloadOffset = d.position from hp.2]
      exact hserve
  | consume =>
    obtain ⟨buf, c, hpc, hc, rfl⟩ := step_consume.mp hstep
    rw [hpc] at hp
    exact bufConsumerRound_inv h (hp.1 c hc) hc hp.2.1 hp.2.2
  | fetched rc =>
    obtain ⟨hpc | hpc, rfl⟩ := step_fetched.mp hstep
    · rw [hpc] at hp
      exact fetched_inv h hp.1
    · rw [hpc] at hp
      exact fetched_inv h hp
  | finish =>
    obtain ⟨-, hfinish⟩ := step_finish.mp hstep
    exact finish_inv h hfinish
  | threadDelete =>
    obtain ⟨-, rfl⟩ := step_threadDelete.mp hstep
    exact threadDelete_inv h

/-! ### Runs -/

/-- In every run of a downloader whose fetcher serves the file, whatever is signalled
    without an error has been delivered: the size reported is the size requested, and the
    requester's buffer holds the requested bytes of the file. -/
theorem exec_new_delivered (file : List UInt8) (rc : Int) (mem : Memory) (ls : List Label)
    (d : Downloader) (hexec : exec (step file.length) (new rc mem) ls = some d)
    (hserve : StepsMeet (step file.length) (FetcherServes file) (new rc mem) ls) :
    ∀ sig ∈ d.signals, sig.rc = 0 → Delivered file d.added sig :=
  (exec_invariant_of_stepsMeet (fun _ _ _ => step_inv) (new_inv file rc mem) hserve hexec).signals

/-- Two reads of one file, the later range asked for first: the first transfer is cut
    short by the seek, and the second chunk is filled from two blocks. -/
theorem exec_new_delivered_seek :
    let file : List UInt8 := [1, 2, 3, 4, 5, 6]
    let ls : List Label :=
      [.chunkAdd ⟨2, 4, 100, 0⟩, .loopHead, .getNext 0, .gotNext, .chooseSource true,
        .chunkAdd ⟨0, 2, 200, 1⟩, .block [3, 4, 5], .consume, .getNext 0, .gotNext, .consume,
        .fetched 0, .loopHead, .chooseSource true, .block [1], .consume, .block [], .consume,
        .block [2], .consume]
    ∃ d, exec (step file.length) (new 7 fun _ => 0) ls = some d ∧
      d.signals.map (fun sig => (sig.id, sig.rc, sig.size)) = [(0, 0, 2), (1, 0, 2)] ∧
      ∀ sig ∈ d.signals, sig.rc = 0 → Delivered file d.added sig := by
  intro file ls
  -- the run is performed once, and its log read off
  have hlog : (exec (step file.length) (new 7 fun _ => 0) ls).map
      (fun d => d.signals.map fun sig => (sig.id, sig.rc, sig.size)) =
      some [(0, 0, 2), (1, 0, 2)] := by decide +kernel
  obtain ⟨d, hd, hsignals⟩ := Option.map_eq_some_iff.mp hlog
  exact ⟨d, hd, hsignals, exec_new_delivered file 7 _ ls d hd (by decide +kernel)⟩

end Fsfuse.Native.Downloader
