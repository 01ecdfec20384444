import Fsfuse.Spec.DownloaderQueue

/-!
# The moves of a running downloader

A step of a downloader either is one of the moves below, or leaves the loop for good: the
assertions that can fail, and all that comes behind the loop (`step_move`, `left_step`).

Facts about whole iterations of the loop go by the moves, which say what they do to the queue,
the chunk in hand and the signals, rather than by the code.
-/

namespace Fsfuse.Native.Downloader

open Transition

variable {size : Nat} {d d' : Downloader}

/-- The loop has been left, or the daemon has aborted. -/
def Left : Pc → Prop
  | .leaving | .left | .deleted | .aborted => True
  | _ => False

/-- `n` bytes more of the chunk have been copied. -/
def copied (c : Chunk) (n : Nat) : Chunk :=
  { c with bytesUsed := c.bytesUsed + n, start := c.start + n, buf := c.buf + n }

/-- How many bytes `buf_consumer` copies in a round. -/
def copyLen (c : Chunk) (buf : Buf) : Nat := min (buf.end_ - buf.start) (c.end_ - c.start)

/-- The steps of `chunk_get_next` under the lock. -/
def TriesPop : Label → Prop
  | .getNext _ | .wake _ => True
  | _ => False

/-- The steps that stay in the loop. -/
inductive Move (d : Downloader) : Label → Downloader → Prop
  | added (r : Request) (chunks : BinaryHeap Chunk) :
    Move d (.chunkAdd r) { d with chunks := chunks, added := d.added ++ [r] }
  /-- no chunk is in hand at the head of the loop -/
  | head (hpc : d.pc = .loopHead) (hcurrent : d.currentChunk = none) :
    Move d .loopHead { d with seek := false, firstTime := false, pc := .getNext .main }
  /-- one is -/
  | headInHand (c : Chunk) (hpc : d.pc = .loopHead) (hcurrent : d.currentChunk = some c) :
    Move d .loopHead
      { d with seek := false, firstTime := false, downloadOffset := c.start, pc := .chooseSource }
  | popped (l : Label) (hl : TriesPop l) (site : Site) (timedOut : Bool) (key : Int) (c : Chunk)
    (chunks : BinaryHeap Chunk) (hpc : d.pc = .getNext site ∨ d.pc = .waiting site)
    (hpop : d.chunks.trypop = some (some (key, c), chunks)) :
    Move d l { d with chunks := chunks, pc := .returning site timedOut (some c) }
  | waits (l : Label) (hl : TriesPop l) (site : Site)
    (hpc : d.pc = .getNext site ∨ d.pc = .waiting site) : Move d l { d with pc := .waiting site }
  | timesOut (l : Label) (hl : TriesPop l) (site : Site)
    (hpc : d.pc = .getNext site ∨ d.pc = .waiting site) :
    Move d l { d with pc := .returning site true none }
  /-- `buf_consumer` has got no chunk -/
  | bailed (site : Site) (timedOut : Bool) (chunk : Option Chunk)
    (hpc : d.pc = .returning site timedOut chunk) (hsite : site ≠ .main) :
    Move d .gotNext d.bailTimedOut
  | gotMain (timedOut : Bool) (c : Chunk) (hpc : d.pc = .returning .main timedOut (some c)) :
    Move d .gotNext
      { d with currentChunk := some c, downloadOffset := c.start, pc := .chooseSource }
  | gotStart (data : List UInt8) (timedOut : Bool) (c : Chunk)
    (hpc : d.pc = .returning (.bufferStart data) timedOut (some c)) :
    Move d .gotNext
      { d with currentChunk := some c,
               pc := .consuming ⟨d.downloadOffset, d.downloadOffset + data.length, data⟩ }
  | gotEnd (buf : Buf) (timedOut : Bool) (c : Chunk)
    (hpc : d.pc = .returning (.endOfChunk buf) timedOut (some c)) :
    Move d .gotNext { d with currentChunk := some c, pc := .consuming buf }
  | source (position : Nat) (hpc : d.pc = .chooseSource) :
    Move d (.chooseSource true) { d with position := position, pc := .fetching }
  | block (data : List UInt8) (position : Nat) (hpc : d.pc = .fetching)
    (hcurrent : d.currentChunk = none) :
    Move d (.block data) { d with position := position, pc := .getNext (.bufferStart data) }
  | blockInHand (data : List UInt8) (position : Nat) (c : Chunk) (hpc : d.pc = .fetching)
    (hcurrent : d.currentChunk = some c) :
    Move d (.block data)
      { d with position := position,
               pc := .consuming ⟨d.downloadOffset, d.downloadOffset + data.length, data⟩ }
  | stops (buf : Buf) (c : Chunk) (hpc : d.pc = .consuming buf) (hcurrent : d.currentChunk = some c)
    (hstart : c.start ≠ buf.start) :
    Move d .consume { d with seek := true, pc := .stopped }
  /-- the chunk has room left -/
  | copies (buf : Buf) (c : Chunk) (mem : Memory) (offset : Nat) (pc : Pc)
    (hpc : d.pc = .consuming buf) (hcurrent : d.currentChunk = some c)
    (hstart : c.start = buf.start) (hend : c.start + copyLen c buf ≠ c.end_)
    (hnext : pc = .fetching ∧ offset = buf.end_ ∧ buf.start + copyLen c buf = buf.end_ ∨
      ∃ data, pc = .consuming ⟨buf.start + copyLen c buf, buf.end_, data⟩ ∧
        offset = d.downloadOffset ∧ buf.start + copyLen c buf ≠ buf.end_) :
    Move d .consume { d with
      mem := mem, currentChunk := some (copied c (copyLen c buf)), downloadOffset := offset,
      pc := pc }
  /-- the chunk is complete, and answered -/
  | answers (buf : Buf) (c : Chunk) (d' : Downloader) (sig : Signal) (hpc : d.pc = .consuming buf)
    (hcurrent : d.currentChunk = some c) (hstart : c.start = buf.start)
    (hend : c.start + copyLen c buf = c.end_) (hchunks : d'.chunks = d.chunks)
    (hsignals : d'.signals = d.signals ++ [sig])
    (hnext : d'.pc = .fetching ∧ d'.currentChunk = none ∨
      ∃ buf, d'.pc = .getNext (.endOfChunk buf)) :
    Move d .consume d'
  | fetched (hpc : d.pc = .fetching ∨ d.pc = .stopped) :
    Move d (.fetched 0) { d with rc := 0, pc := .loopHead }

/-! ### Every step is a move or leaves -/

/-- The head of the loop leaves the loop or makes a move. -/
theorem loopHead_move (hpc : d.pc = .loopHead) :
    Left d.loopHead.pc ∨ Move d .loopHead d.loopHead := by
  rw [loopHead]
  split
  · exact .inl trivial
  · right
    simp only
    split
    · rename_i hcurrent
      exact .head hpc hcurrent
    · rename_i c hcurrent
      exact .headInHand c hpc hcurrent

/-- The return of `chunk_get_next` leaves the loop or makes a move. -/
theorem gotNext_move {site : Site} {timedOut : Bool} {chunk : Option Chunk}
    (hpc : d.pc = .returning site timedOut chunk) :
    Left (d.gotNext site (chunkGetNextResult timedOut chunk)).pc ∨
      Move d .gotNext (d.gotNext site (chunkGetNextResult timedOut chunk)) := by
  cases hresult : chunkGetNextResult timedOut chunk with
  | none =>
    cases site with
    | main => exact .inl trivial
    | bufferStart data => exact .inr (.bailed _ timedOut chunk hpc nofun)
    | endOfChunk buf => exact .inr (.bailed _ timedOut chunk hpc nofun)
  | some c =>
    -- what is returned has been popped
    obtain rfl : chunk = some c := by
      rw [chunkGetNextResult] at hresult
      split at hresult
      · cases hresult
      · exact hresult
    cases site with
    | main => exact .inr (.gotMain timedOut c hpc)
    | bufferStart data => exact .inr (.gotStart data timedOut c hpc)
    | endOfChunk buf => exact .inr (.gotEnd buf timedOut c hpc)

/-- A block from the fetcher makes a move. -/
theorem bufConsumer_move (data : List UInt8) (hpc : d.pc = .fetching) :
    Move d (.block data) ({ d with position := d.position + data.length }.bufConsumer data) := by
  rw [bufConsumer]
  split
  · rename_i hcurrent
    exact .block data _ hpc hcurrent
  · rename_i c hcurrent
    exact .blockInHand data _ c hpc hcurrent

/-- A round of `buf_consumer` makes a move. -/
theorem bufConsumerRound_move {buf : Buf} {c : Chunk} (hpc : d.pc = .consuming buf)
    (hcurrent : d.currentChunk = some c) : Move d .consume (d.bufConsumerRound c buf) := by
  simp only [bufConsumerRound]
  split
  · rename_i hstart
    split
    · rename_i hend
      exact .answers buf c _ _ hpc hcurrent hstart hend.2 rfl rfl (.inl ⟨rfl, rfl⟩)
    · rename_i hend
      split
      · rename_i hbuf
        exact .copies buf c _ _ _ hpc hcurrent hstart (fun hc => hend ⟨hbuf, hc⟩)
          (.inl ⟨rfl, rfl, hbuf⟩)
      · rename_i hbuf
        split
        · rename_i hc
          exact .answers buf c _ _ hpc hcurrent hstart hc rfl rfl (.inr ⟨_, rfl⟩)
        · rename_i hc
          exact .copies buf c _ _ _ hpc hcurrent hstart hc (.inr ⟨_, rfl, rfl, hbuf⟩)
  · rename_i hstart
    exact .stops buf c hpc hcurrent hstart

/-- Every step leaves the loop or makes a move. -/
theorem step_move {l : Label} (hstep : d.step size l = some d') : Left d'.pc ∨ Move d l d' := by
  cases l with
  | chunkAdd r =>
    obtain ⟨-, chunks, -, rfl⟩ | rfl := chunkAdd_cases (step_chunkAdd.mp hstep).2
    · exact .inr (.added r chunks)
    · exact .inl trivial
  | loopHead =>
    obtain ⟨hpc, rfl⟩ := step_loopHead.mp hstep
    exact loopHead_move hpc
  | getNext usec =>
    obtain ⟨site, hpc, hnext⟩ := step_getNext.mp hstep
    obtain ⟨key, c, chunks, hpop, rfl⟩ | ⟨-, ⟨-, rfl⟩ | ⟨-, rfl⟩⟩ := chunkGetNext_cases hnext
    · exact .inr (.popped (.getNext usec) trivial site _ key c chunks (.inl hpc) hpop)
    · exact .inr (.waits (.getNext usec) trivial site (.inl hpc))
    · exact .inl trivial
  | wake timedOut =>
    obtain ⟨site, hpc, hwake⟩ := step_wake.mp hstep
    obtain ⟨key, c, chunks, hpop, rfl⟩ | ⟨-, ⟨-, rfl⟩ | ⟨-, rfl⟩⟩ := chunkGetNextWake_cases hwake
    · exact .inr (.popped (.wake timedOut) trivial site _ key c chunks (.inr hpc) hpop)
    · exact .inr (.timesOut (.wake timedOut) trivial site (.inr hpc))
    · exact .inr (.waits (.wake timedOut) trivial site (.inr hpc))
  | gotNext =>
    obtain ⟨site, timedOut, chunk, hpc, rfl⟩ := step_gotNext.mp hstep
    exact gotNext_move hpc
  | chooseSource found =>
    obtain ⟨hpc, rfl⟩ := step_chooseSource.mp hstep
    cases found with
    | true => exact .inr (.source _ hpc)
    | false => exact .inl trivial
  | block data =>
    obtain ⟨hpc, rfl⟩ := step_block.mp hstep
    exact .inr (bufConsumer_move data hpc)
  | consume =>
    obtain ⟨buf, c, hpc, hcurrent, rfl⟩ := step_consume.mp hstep
    exact .inr (bufConsumerRound_move hpc hcurrent)
  | fetched rc =>
    obtain ⟨hpc, rfl⟩ := step_fetched.mp hstep
    by_cases hrc : rc = 0
    · subst hrc
      exact .inr (.fetched hpc)
    · rw [fetched, if_neg hrc]
      exact .inl trivial
  | finish =>
    obtain ⟨-, hfinish⟩ := step_finish.mp hstep
    obtain ⟨-, ⟨-, rfl⟩ | ⟨-, ⟨e, chunks, -, rfl⟩ | ⟨-, rfl⟩⟩⟩ |
      ⟨-, ⟨-, rfl⟩ | ⟨c, d₁, -, -, rfl⟩⟩ := finish_cases hfinish <;> exact .inl trivial
  | threadDelete =>
    obtain ⟨-, rfl⟩ := step_threadDelete.mp hstep
    rw [threadDelete]
    split <;> exact .inl trivial

/-- There is no way back into the loop. -/
theorem left_step {l : Label} (hleft : Left d.pc) (hstep : d.step size l = some d') :
    Left d'.pc := by
  rcases step_move hstep with h | hmove
  · exact h
  · -- only an add is possible
    cases hmove with
    | added r chunks => exact hleft
    | popped _ _ _ _ _ _ _ hpc => rcases hpc with hpc | hpc <;> simp [Left, hpc] at hleft
    | waits _ _ _ hpc => rcases hpc with hpc | hpc <;> simp [Left, hpc] at hleft
    | timesOut _ _ _ hpc => rcases hpc with hpc | hpc <;> simp [Left, hpc] at hleft
    | fetched hpc => rcases hpc with hpc | hpc <;> simp [Left, hpc] at hleft
    | _ => simp_all [Left]

/-- A thread that has left its loop does not come back. -/
theorem left_exec {ls : List Label} (hleft : Left d.pc) (hexec : exec (step size) d ls = some d') :
    Left d'.pc :=
  exec_invariant (fun _ _ _ => left_step) hleft hexec

/-- What the moves of some steps preserve holds at the end of a run of such steps that has not
    left the loop. -/
theorem exec_move_invariant {P : Label → Prop} {I : Downloader → Prop}
    (hmove : ∀ d l d', P l → I d → Move d l d' → I d') {ls : List Label}
    (hls : ∀ l ∈ ls, P l) (h0 : I d) (hexec : exec (step size) d ls = some d')
    (hin : ¬ Left d'.pc) : I d' := by
  induction ls generalizing d with
  | nil =>
    obtain rfl : d = d' := by simpa using hexec
    exact h0
  | cons l ls ih =>
    rw [List.forall_mem_cons] at hls
    rw [exec_cons, Option.bind_eq_some_iff] at hexec
    obtain ⟨d₁, hstep, hrest⟩ := hexec
    rcases step_move hstep with hleft | h
    · exact absurd (left_exec hleft hrest) hin
    · exact ih hls.2 (hmove d l d₁ hls.1 h0 h) hrest

end Fsfuse.Native.Downloader
