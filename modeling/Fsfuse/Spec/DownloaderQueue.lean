import Fsfuse.ForStd.Transition
import Fsfuse.Native.Downloader
import Fsfuse.Spec.BinaryHeapCorrect

/-!
# The queue of a downloader

The steps of a downloader get at its heap by `downloader_chunk_add`, which adds a chunk
under its start, and by pops. What the two preserve holds of the queue in every run
(`step_chunks`): the heap is a valid one, its keys are the starts of its chunks as far as an
`int` can hold them, and no chunk ends before it starts.
-/

namespace Fsfuse.Native.Downloader

open Transition

variable {size : Nat} {d d' : Downloader}

/-! ### The steps that leave the queue alone -/

@[simp] theorem chunks_loopHead (d : Downloader) : d.loopHead.chunks = d.chunks := by
  rw [loopHead]
  split
  · rfl
  · simp only
    split <;> rfl

@[simp] theorem chunks_chooseSource (d : Downloader) (found : Bool) :
    (d.chooseSource found).chunks = d.chunks := by
  rw [chooseSource]
  split <;> rfl

@[simp] theorem chunks_fetched (d : Downloader) (rc : Int) : (d.fetched rc).chunks = d.chunks := rfl

@[simp] theorem chunks_bufConsumer (d : Downloader) (data : List UInt8) :
    (d.bufConsumer data).chunks = d.chunks := by
  rw [bufConsumer]
  split <;> rfl

/-- A round of `buf_consumer` leaves the heap alone. -/
@[simp] theorem chunks_bufConsumerRound (d : Downloader) (c : Chunk) (buf : Buf) :
    (d.bufConsumerRound c buf).chunks = d.chunks := by
  simp only [bufConsumerRound]
  split
  · split
    · rfl
    · split
      · rfl
      · split <;> rfl
  · rfl

@[simp] theorem chunks_gotNext (d : Downloader) (site : Site) (chunk : Option Chunk) :
    (d.gotNext site chunk).chunks = d.chunks := by
  cases site <;> cases chunk <;> simp [gotNext, bailTimedOut]

@[simp] theorem chunks_threadDelete (d : Downloader) : d.threadDelete.chunks = d.chunks := by
  rw [threadDelete]
  split <;> rfl

/-! ### The steps that do not -/

/-- What an add returns with: the chunk is in the queue, or the assertion on its range has
    failed. -/
theorem chunkAdd_cases {r : Request} (h : d.chunkAdd size r = some d') :
    (r.start ≤ r.end_ ∧ r.start ≤ size ∧ r.end_ ≤ size) ∧
        (∃ chunks, d.chunks.add (offToInt r.start) (chunkNew d.added.length r) = some chunks ∧
          d' = { d with chunks := chunks, added := d.added ++ [r] }) ∨
      d' = d.abort := by
  rw [chunkAdd] at h
  split at h
  · rename_i hrange
    simp only [Option.bind_eq_bind, Option.bind_eq_some_iff, Option.pure_def,
      Option.some.injEq] at h
    obtain ⟨chunks, hadd, rfl⟩ := h
    exact .inl ⟨hrange, chunks, hadd, rfl⟩
  · exact .inr (Option.some.inj h).symm

/-- What `chunk_get_next` does before its first wait. -/
theorem chunkGetNext_cases {site : Site} {usec : Nat} (h : d.chunkGetNext site usec = some d') :
    (∃ key c chunks, d.chunks.trypop = some (some (key, c), chunks) ∧
        d' = { d with chunks := chunks, pc := .returning site false (some c) }) ∨
      d.chunks.used = 0 ∧
        (deadlineNsec usec < 10 ^ 9 ∧ d' = { d with pc := .waiting site } ∨
          ¬ deadlineNsec usec < 10 ^ 9 ∧ d' = { d with pc := .aborted }) := by
  simp only [chunkGetNext, Option.bind_eq_bind, Option.bind_eq_some_iff] at h
  obtain ⟨⟨r, chunks⟩, hpop, h⟩ := h
  cases r with
  | some e => exact .inl ⟨e.1, e.2, chunks, hpop, (Option.some.inj h).symm⟩
  | none =>
    obtain ⟨hempty, rfl⟩ := BinaryHeap.trypop_none hpop
    simp only at h
    split at h
    · exact .inr ⟨hempty, .inl ⟨‹_›, (Option.some.inj h).symm⟩⟩
    · exact .inr ⟨hempty, .inr ⟨‹_›, (Option.some.inj h).symm⟩⟩

/-- What it does after a wait. -/
theorem chunkGetNextWake_cases {site : Site} {timedOut : Bool}
    (h : d.chunkGetNextWake site timedOut = some d') :
    (∃ key c chunks, d.chunks.trypop = some (some (key, c), chunks) ∧
        d' = { d with chunks := chunks, pc := .returning site timedOut (some c) }) ∨
      d.chunks.used = 0 ∧
        (timedOut = true ∧ d' = { d with pc := .returning site true none } ∨
          timedOut = false ∧ d' = { d with pc := .waiting site }) := by
  simp only [chunkGetNextWake, Option.bind_eq_bind, Option.bind_eq_some_iff] at h
  obtain ⟨⟨r, chunks⟩, hpop, h⟩ := h
  cases r with
  | some e => exact .inl ⟨e.1, e.2, chunks, hpop, (Option.some.inj h).symm⟩
  | none =>
    obtain ⟨hempty, rfl⟩ := BinaryHeap.trypop_none hpop
    cases timedOut with
    | true => exact .inr ⟨hempty, .inl ⟨rfl, (Option.some.inj h).symm⟩⟩
    | false => exact .inr ⟨hempty, .inr ⟨rfl, (Option.some.inj h).symm⟩⟩

/-- One round of `chunks_empty`, or its end. -/
theorem chunksEmpty_cases {rounds : Nat} {rc : Int} (h : d.chunksEmpty rounds rc = some d') :
    d.chunks.used = 0 ∧ d' = d ∨
      ∃ key c chunks rounds', d.chunks.trypop = some (some (key, c), chunks) ∧
        rounds = rounds' + 1 ∧
        chunksEmpty rounds'
          (({ d with chunks := chunks }.signalReadThread c rc 0).chunkDelete c) rc = some d' := by
  rw [chunksEmpty] at h
  simp only [Option.bind_eq_bind, Option.bind_eq_some_iff] at h
  obtain ⟨⟨r, chunks⟩, hpop, h⟩ := h
  cases r with
  | none =>
    obtain ⟨hempty, -⟩ := BinaryHeap.trypop_none hpop
    exact .inl ⟨hempty, (Option.some.inj h).symm⟩
  | some e =>
    cases rounds with
    | zero => cases h
    | succ rounds' => exact .inr ⟨e.1, e.2, chunks, rounds', hpop, rfl, h⟩

/-- The chunk in hand is answered with the error that has ended the loop. -/
def answerCurrent (d : Downloader) (c : Chunk) : Downloader :=
  { (d.signalReadThread c d.rc 0).chunkDelete c with currentChunk := none }

/-- What the critical section after the loop comes to. -/
theorem finish_cases (h : d.finish = some d') :
    d.rc = 0 ∧ (d.currentChunk ≠ none ∧ d' = d.abort ∨
        d.currentChunk = none ∧
          ((∃ e chunks, d.chunks.trypop = some (some e, chunks) ∧
              d' = { d with chunks := chunks, pc := .aborted }) ∨
            d.chunks.used = 0 ∧ d' = { d with pc := .left })) ∨
      d.rc ≠ 0 ∧ (d.currentChunk = none ∧ d' = { d with pc := .left } ∨
        ∃ c d₁, d.currentChunk = some c ∧
          chunksEmpty d.chunks.used (d.answerCurrent c) d.rc = some d₁ ∧
          d' = { d₁ with pc := .left }) := by
  rw [finish] at h
  split at h
  · rename_i hrc
    refine .inl ⟨hrc, ?_⟩
    split at h
    · rename_i c hc
      exact .inl ⟨by simp [hc], (Option.some.inj h).symm⟩
    · rename_i hc
      simp only [Option.bind_eq_bind, Option.bind_eq_some_iff] at h
      obtain ⟨⟨r, chunks⟩, hpop, h⟩ := h
      cases r with
      | some e => exact .inr ⟨hc, .inl ⟨e, chunks, hpop, (Option.some.inj h).symm⟩⟩
      | none =>
        have hempty := (BinaryHeap.trypop_none hpop).1
        exact .inr ⟨hc, .inr ⟨hempty, (Option.some.inj h).symm⟩⟩
  · rename_i hrc
    refine .inr ⟨hrc, ?_⟩
    split at h
    · rename_i c hc
      simp only [Option.bind_eq_bind, Option.bind_eq_some_iff, Option.pure_def,
        Option.some.injEq] at h
      obtain ⟨d₁, hempty, rfl⟩ := h
      exact .inr ⟨c, d₁, hc, hempty, rfl⟩
    · rename_i hc
      exact .inl ⟨hc, (Option.some.inj h).symm⟩

/-- Nothing runs after the end. -/
theorem running_of_step {l : Label} (hstep : d.step size l = some d') : d.Running := by
  by_contra hrun
  have hpc : d.pc = .deleted ∨ d.pc = .aborted := by
    rw [Running, not_and_or, not_not, not_not] at hrun
    exact hrun
  cases l with
  | chunkAdd r => exact hrun (step_chunkAdd.mp hstep).1
  | loopHead | getNext _ | wake _ | gotNext | chooseSource _ | block _ | consume | fetched _
  | finish | threadDelete => obtain hpc | hpc := hpc <;> simp [step, hpc] at hstep

/-! ### The queue in every run -/

section Rule

variable {P : BinaryHeap Chunk → Prop}

/-- What pops preserve, `chunks_empty` does. -/
theorem chunksEmpty_chunks
    (hpop : ∀ chunks r chunks', P chunks → chunks.trypop = some (r, chunks') → P chunks')
    {rounds : Nat} {rc : Int} (h : d.chunksEmpty rounds rc = some d') (hP : P d.chunks) :
    P d'.chunks := by
  induction rounds generalizing d with
  | zero =>
    obtain ⟨-, rfl⟩ | ⟨key, c, chunks, rounds', -, hrounds, -⟩ := chunksEmpty_cases h
    · exact hP
    · cases hrounds
  | succ rounds ih =>
    obtain ⟨-, rfl⟩ | ⟨key, c, chunks, rounds', hc, hrounds, hrest⟩ := chunksEmpty_cases h
    · exact hP
    · obtain rfl := Nat.succ.inj hrounds
      exact ih hrest (hpop _ _ _ hP hc)

/-- What pops preserve, the critical section after the loop does. -/
theorem finish_chunks
    (hpop : ∀ chunks r chunks', P chunks → chunks.trypop = some (r, chunks') → P chunks')
    (h : d.finish = some d') (hP : P d.chunks) : P d'.chunks := by
  obtain ⟨-, ⟨-, rfl⟩ | ⟨-, ⟨e, chunks, hc, rfl⟩ | ⟨-, rfl⟩⟩⟩ |
    ⟨-, ⟨-, rfl⟩ | ⟨c, d₁, -, hempty, rfl⟩⟩ := finish_cases h
  · exact hP
  · exact hpop _ _ _ hP hc
  · exact hP
  · exact hP
  · have hP₁ : P d₁.chunks := chunksEmpty_chunks hpop hempty hP
    exact hP₁

/-- What adds and pops preserve, every step does. -/
theorem step_chunks
    (hadd : ∀ chunks chunks' id r, P chunks → r.start ≤ r.end_ →
      chunks.add (offToInt r.start) (chunkNew id r) = some chunks' → P chunks')
    (hpop : ∀ chunks r chunks', P chunks → chunks.trypop = some (r, chunks') → P chunks')
    {l : Label} (hP : P d.chunks) (hstep : d.step size l = some d') : P d'.chunks := by
  cases l with
  | chunkAdd r =>
    obtain ⟨hrange, chunks, hc, rfl⟩ | rfl := chunkAdd_cases (step_chunkAdd.mp hstep).2
    · exact hadd _ _ _ _ hP hrange.1 hc
    · exact hP
  | getNext usec =>
    obtain ⟨site, -, hnext⟩ := step_getNext.mp hstep
    obtain ⟨key, c, chunks, hc, rfl⟩ | ⟨-, ⟨-, rfl⟩ | ⟨-, rfl⟩⟩ := chunkGetNext_cases hnext
    · exact hpop _ _ _ hP hc
    · exact hP
    · exact hP
  | wake timedOut =>
    obtain ⟨site, -, hwake⟩ := step_wake.mp hstep
    obtain ⟨key, c, chunks, hc, rfl⟩ | ⟨-, ⟨-, rfl⟩ | ⟨-, rfl⟩⟩ := chunkGetNextWake_cases hwake
    · exact hpop _ _ _ hP hc
    · exact hP
    · exact hP
  | finish => exact finish_chunks hpop (step_finish.mp hstep).2 hP
  -- the others leave it as it is
  | loopHead => obtain ⟨-, rfl⟩ := step_loopHead.mp hstep; simpa using hP
  | gotNext => obtain ⟨site, timedOut, chunk, -, rfl⟩ := step_gotNext.mp hstep; simpa using hP
  | chooseSource found => obtain ⟨-, rfl⟩ := step_chooseSource.mp hstep; simpa using hP
  | block data => obtain ⟨-, rfl⟩ := step_block.mp hstep; simpa using hP
  | consume => obtain ⟨buf, c, -, -, rfl⟩ := step_consume.mp hstep; simpa using hP
  | fetched rc => obtain ⟨-, rfl⟩ := step_fetched.mp hstep; simpa using hP
  | threadDelete => obtain ⟨-, rfl⟩ := step_threadDelete.mp hstep; simpa using hP

end Rule

/-- The queue of a downloader. -/
structure Queue (chunks : BinaryHeap Chunk) : Prop where
  valid : chunks.Valid
  keys : ∀ x ∈ chunks.entries, x.key = offToInt x.value.start
  ranges : ∀ x ∈ chunks.entries, x.value.start ≤ x.value.end_

/-- A new heap is a queue without chunks. -/
theorem new_queue : Queue .new where
  valid := BinaryHeap.new_valid
  keys := by simp
  ranges := by simp

/-- A chunk whose range is one can be queued. -/
theorem Queue.add {chunks chunks' : BinaryHeap Chunk} {id : Nat} {r : Request} (h : Queue chunks)
    (hrange : r.start ≤ r.end_)
    (hadd : chunks.add (offToInt r.start) (chunkNew id r) = some chunks') : Queue chunks' := by
  obtain ⟨-, hperm, hvalid⟩ := BinaryHeap.add_spec hadd
  -- the new chunk and the others
  have hmem : ∀ x ∈ chunks'.entries, x = ⟨offToInt r.start, chunkNew id r⟩ ∨ x ∈ chunks.entries :=
    fun x hx => List.mem_cons.mp (hperm.mem_iff.mp hx)
  refine ⟨hvalid h.valid, fun x hx => ?_, fun x hx => ?_⟩
  · rcases hmem x hx with rfl | hx
    · simp only [chunkNew]
    · exact h.keys x hx
  · rcases hmem x hx with rfl | hx
    · exact hrange
    · exact h.ranges x hx

/-- What is popped leaves a queue behind. -/
theorem Queue.trypop {chunks chunks' : BinaryHeap Chunk} {r : Option (Int × Chunk)}
    (h : Queue chunks) (hpop : chunks.trypop = some (r, chunks')) : Queue chunks' := by
  cases r with
  | none => exact (BinaryHeap.trypop_none hpop).2 ▸ h
  | some e =>
    have hperm := BinaryHeap.trypop_some hpop
    have hsub : ∀ x ∈ chunks'.entries, x ∈ chunks.entries :=
      fun x hx => hperm.mem_iff.mpr (List.mem_cons_of_mem _ hx)
    have hpos : 0 < chunks.used := by
      by_contra hzero
      rw [BinaryHeap.trypop_empty (by omega)] at hpop
      simp at hpop
    obtain ⟨-, x, -, -, hvalid⟩ := BinaryHeap.trypop_spec hpop hpos
    exact ⟨(hvalid h.valid).1, fun x hx => h.keys x (hsub x hx),
      fun x hx => h.ranges x (hsub x hx)⟩

/-- Every step leaves a queue behind. -/
theorem step_queue {l : Label} (h : Queue d.chunks) (hstep : d.step size l = some d') :
    Queue d'.chunks :=
  step_chunks (fun _ _ _ _ => Queue.add) (fun _ _ _ => Queue.trypop) h hstep

/-- The queue is one in every state that is reached. -/
theorem exec_new_queue {rc : Int} {mem : Memory} {ls : List Label}
    (hexec : exec (step size) (new rc mem) ls = some d) : Queue d.chunks :=
  exec_invariant (fun _ _ _ => step_queue) new_queue hexec

end Fsfuse.Native.Downloader
