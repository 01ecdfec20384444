import Fsfuse.Spec.DownloaderRequests

/-!
# No request is answered twice, in any run

A wait that times out over a non-empty queue loses the chunk it pops. The accounts are kept for
such runs too, by a downloader that has already answered whatever gets lost: what a downloader
does next does not depend on what it has answered.
-/

namespace Fsfuse.Native.Downloader

open Transition

variable {size : Nat} {d d' : Downloader}

/-- The downloader after the answers `sigs`, which it has not given. -/
def after (sigs : List Signal) (d : Downloader) : Downloader :=
  { d with signals := sigs ++ d.signals, freed := sigs.map (·.id) ++ d.freed }

section Steps

variable (sigs : List Signal) (d)

/-- The head of the loop does the same after other answers. -/
theorem loopHead_after : (d.after sigs).loopHead = d.loopHead.after sigs := by
  by_cases h : d.seek ∧ d.currentChunk = none ∨ d.firstTime ∧ d.currentChunk ≠ none
  · rw [loopHead, loopHead, if_pos h]
    exact if_pos h
  · rw [loopHead, loopHead, if_neg h]
    refine (if_neg h).trans ?_
    cases hc : d.currentChunk with
    | none => simp only [after, hc]
    | some c => simp only [after, hc]

/-- The choice of a source does the same after other answers. -/
theorem chooseSource_after (found : Bool) :
    (d.after sigs).chooseSource found = (d.chooseSource found).after sigs := by
  simp only [chooseSource, after]
  split <;> rfl

/-- The return of `chunk_get_next` does the same after other answers. -/
theorem gotNext_after (site : Site) (chunk : Option Chunk) :
    (d.after sigs).gotNext site chunk = (d.gotNext site chunk).after sigs := by
  cases site <;> cases chunk <;> rfl

/-- The first half of `buf_consumer` does the same after other answers. -/
theorem bufConsumer_after (data : List UInt8) :
    (d.after sigs).bufConsumer data = (d.bufConsumer data).after sigs := by
  simp only [bufConsumer, after]
  split <;> rfl

/-- Another answer comes after those before it. -/
theorem answer_after (c : Chunk) (rc : Int) (n : Nat) :
    ((d.after sigs).signalReadThread c rc n).chunkDelete c =
      ((d.signalReadThread c rc n).chunkDelete c).after sigs := by
  simp only [signalReadThread, chunkDelete, after, List.append_assoc]

/-- A round of `buf_consumer` does the same after other answers. -/
theorem bufConsumerRound_after (c : Chunk) (buf : Buf) :
    (d.after sigs).bufConsumerRound c buf = (d.bufConsumerRound c buf).after sigs := by
  simp only [bufConsumerRound, signalReadThread, chunkDelete, after, List.append_assoc]
  split
  · split
    · rfl
    · split
      · rfl
      · split <;> rfl
  · rfl

/-- Deleting the thread does the same after other answers. -/
theorem threadDelete_after : (d.after sigs).threadDelete = d.threadDelete.after sigs := by
  by_cases h : d.currentChunk = none ∧ d.chunks.deletable
  · rw [threadDelete, threadDelete, if_pos h]
    exact if_pos h
  · rw [threadDelete, threadDelete, if_neg h]
    exact if_neg h

variable {d}

/-- `downloader_chunk_add` does the same after other answers. -/
theorem chunkAdd_after {r : Request} (h : d.chunkAdd size r = some d') :
    (d.after sigs).chunkAdd size r = some (d'.after sigs) := by
  by_cases hrange : r.start ≤ r.end_ ∧ r.start ≤ size ∧ r.end_ ≤ size
  · rw [chunkAdd, if_pos hrange] at h ⊢
    simp only [Option.bind_eq_bind, Option.bind_eq_some_iff, Option.pure_def,
      Option.some.injEq] at h ⊢
    obtain ⟨chunks, hadd, rfl⟩ := h
    exact ⟨chunks, hadd, rfl⟩
  · rw [chunkAdd, if_neg hrange] at h ⊢
    obtain rfl := Option.some.inj h
    rfl

/-- `chunk_get_next` does the same after other answers. -/
theorem chunkGetNext_after {site : Site} {usec : Nat} (h : d.chunkGetNext site usec = some d') :
    (d.after sigs).chunkGetNext site usec = some (d'.after sigs) := by
  simp only [chunkGetNext, Option.bind_eq_bind, Option.bind_eq_some_iff] at h ⊢
  obtain ⟨⟨r, chunks⟩, hpop, h⟩ := h
  refine ⟨(r, chunks), hpop, ?_⟩
  -- what is popped does not depend on the answers
  cases r with
  | some e =>
    obtain rfl := Option.some.inj h
    rfl
  | none =>
    simp only at h ⊢
    split at h <;> rename_i hnsec <;> obtain rfl := Option.some.inj h
    · exact if_pos hnsec
    · exact if_neg hnsec

/-- The return of the wait does the same after other answers. -/
theorem chunkGetNextWake_after {site : Site} {timedOut : Bool}
    (h : d.chunkGetNextWake site timedOut = some d') :
    (d.after sigs).chunkGetNextWake site timedOut = some (d'.after sigs) := by
  simp only [chunkGetNextWake, Option.bind_eq_bind, Option.bind_eq_some_iff] at h ⊢
  obtain ⟨⟨r, chunks⟩, hpop, h⟩ := h
  refine ⟨(r, chunks), hpop, ?_⟩
  cases r with
  | some e =>
    obtain rfl := Option.some.inj h
    rfl
  | none =>
    cases timedOut <;> obtain rfl := Option.some.inj h <;> rfl

/-- `chunks_empty` does the same after other answers. -/
theorem chunksEmpty_after {rounds : Nat} {rc : Int} (h : d.chunksEmpty rounds rc = some d') :
    (d.after sigs).chunksEmpty rounds rc = some (d'.after sigs) := by
  -- one chunk of the queue after the other
  induction rounds generalizing d with
  | zero =>
    unfold chunksEmpty at h ⊢
    simp only [Option.bind_eq_bind, Option.bind_eq_some_iff] at h ⊢
    obtain ⟨⟨r, chunks⟩, hpop, h⟩ := h
    refine ⟨(r, chunks), hpop, ?_⟩
    cases r with
    | some e => cases h
    | none =>
      obtain rfl := Option.some.inj h
      rfl
  | succ rounds ih =>
    unfold chunksEmpty at h ⊢
    simp only [Option.bind_eq_bind, Option.bind_eq_some_iff] at h ⊢
    obtain ⟨⟨r, chunks⟩, hpop, h⟩ := h
    refine ⟨(r, chunks), hpop, ?_⟩
    cases r with
    | some e =>
      have hrest := ih h
      rw [← answer_after] at hrest
      exact hrest
    | none =>
      obtain rfl := Option.some.inj h
      rfl

/-- The end of the thread does the same after other answers. -/
theorem finish_after (h : d.finish = some d') : (d.after sigs).finish = some (d'.after sigs) := by
  by_cases hrc : d.rc = 0
  · rw [finish, if_pos hrc] at h
    refine (if_pos hrc).trans ?_
    -- with an `rc` of 0 nothing is answered: the assertions have to hold
    cases hc : d.currentChunk with
    | some c =>
      rw [hc] at h
      obtain rfl := Option.some.inj h
      simp only [after, hc, abort]
    | none =>
      rw [hc] at h
      simp only [Option.bind_eq_bind, Option.bind_eq_some_iff] at h
      obtain ⟨⟨r, chunks⟩, hpop, h⟩ := h
      simp only [after, hc, hpop, Option.bind_eq_bind, Option.bind_some]
      cases r with
      | some e =>
        obtain rfl := Option.some.inj h
        rfl
      | none =>
        obtain rfl := Option.some.inj h
        rfl
  · rw [finish, if_neg hrc] at h
    refine (if_neg hrc).trans ?_
    cases hc : d.currentChunk with
    | some c =>
      rw [hc] at h
      simp only [Option.bind_eq_bind, Option.bind_eq_some_iff, Option.pure_def,
        Option.some.injEq] at h
      obtain ⟨d₁, hempty, rfl⟩ := h
      -- the current chunk is answered first, and then the queue
      have hempty' := chunksEmpty_after sigs hempty
      have hanswer : { ((d.after sigs).signalReadThread c d.rc 0).chunkDelete c with
          currentChunk := none } = after sigs
            { (d.signalReadThread c d.rc 0).chunkDelete c with currentChunk := none } := by
        rw [answer_after]
        rfl
      rw [← hanswer] at hempty'
      rw [show (d.after sigs).currentChunk = some c from hc]
      simp only [Option.bind_eq_bind, Option.bind_eq_some_iff, Option.pure_def, Option.some.injEq]
      exact ⟨d₁.after sigs, hempty', rfl⟩
    | none =>
      rw [hc] at h
      obtain rfl := Option.some.inj h
      simp only [after, hc]

/-- What a downloader has answered makes no difference to its steps. -/
theorem step_after {l : Label} (h : d.step size l = some d') :
    (d.after sigs).step size l = some (d'.after sigs) := by
  cases l with
  | chunkAdd r =>
    obtain ⟨hrun, hadd⟩ := step_chunkAdd.mp h
    exact step_chunkAdd.mpr ⟨hrun, chunkAdd_after sigs hadd⟩
  | loopHead =>
    obtain ⟨hpc, rfl⟩ := step_loopHead.mp h
    exact step_loopHead.mpr ⟨hpc, loopHead_after d sigs⟩
  | getNext usec =>
    obtain ⟨site, hpc, hnext⟩ := step_getNext.mp h
    exact step_getNext.mpr ⟨site, hpc, chunkGetNext_after sigs hnext⟩
  | wake timedOut =>
    obtain ⟨site, hpc, hwake⟩ := step_wake.mp h
    exact step_wake.mpr ⟨site, hpc, chunkGetNextWake_after sigs hwake⟩
  | gotNext =>
    obtain ⟨site, timedOut, chunk, hpc, rfl⟩ := step_gotNext.mp h
    exact step_gotNext.mpr ⟨site, timedOut, chunk, hpc, gotNext_after d sigs site _⟩
  | chooseSource found =>
    obtain ⟨hpc, rfl⟩ := step_chooseSource.mp h
    exact step_chooseSource.mpr ⟨hpc, chooseSource_after d sigs found⟩
  | block data =>
    obtain ⟨hpc, rfl⟩ := step_block.mp h
    exact step_block.mpr
      ⟨hpc, bufConsumer_after { d with position := d.position + data.length } sigs data⟩
  | consume =>
    obtain ⟨buf, c, hpc, hc, rfl⟩ := step_consume.mp h
    exact step_consume.mpr ⟨buf, c, hpc, hc, bufConsumerRound_after d sigs c buf⟩
  | fetched rc =>
    obtain ⟨hpc, rfl⟩ := step_fetched.mp h
    exact step_fetched.mpr ⟨hpc, rfl⟩
  | finish =>
    obtain ⟨hpc, hfinish⟩ := step_finish.mp h
    exact step_finish.mpr ⟨hpc, finish_after sigs hfinish⟩
  | threadDelete =>
    obtain ⟨hpc, rfl⟩ := step_threadDelete.mp h
    exact step_threadDelete.mpr ⟨hpc, threadDelete_after d sigs⟩

end Steps

/-! ### Lost chunks count as answered -/

/-- The other answers are among those given. -/
theorem answered_after (sigs : List Signal) (d : Downloader) :
    (d.after sigs).answered = sigs.map (·.id) ++ d.answered := List.map_append

/-- A wait that times out over a non-empty queue loses the chunk it pops, and no other. -/
theorem lost_conserved {sigs : List Signal} {site : Site} {key : Int} {c : Chunk}
    {chunks : BinaryHeap Chunk} (h : Conserved (d.after sigs)) (hpc : d.pc = .waiting site)
    (hpop : d.chunks.trypop = some (some (key, c), chunks)) :
    Conserved (after (⟨c.id, c.ctxt, 0, 0, d.mem⟩ :: sigs)
      { d with chunks := chunks, pc := .returning site true (some c) }) := by
  have hrun : d.Running := by simp [Running, hpc]
  have hheld : (d.after sigs).held = none := h.heldAt hpc
  -- nothing is in hand, whatever else is freed
  have hheld' : held (after (⟨c.id, c.ctxt, 0, 0, d.mem⟩ :: sigs)
      { d with chunks := chunks, pc := .returning site true (some c) }) = none := by
    rw [held, Option.filter_eq_none_iff] at hheld ⊢
    intro id hid hfreed
    simp only [after, List.map_cons, List.cons_append, List.mem_cons, not_or,
      decide_eq_true_eq] at hfreed
    exact hheld id hid (decide_eq_true hfreed.2)
  have hfreed : sigs.map (·.id) ++ d.freed = sigs.map (·.id) ++ d.answered :=
    h.freed.trans (answered_after sigs d)
  refine h.move hrun rfl (fun i => ?_) ?_ hheld'
  · have hin : inFlight (d.after sigs).pc = none := by
      show inFlight d.pc = none
      rw [hpc]
      rfl
    have hqueue : (d.after sigs).queue.count i = _ := count_queue_of_trypop hpop i
    -- the chunk goes from the queue to the answers
    have hmoved : (c.id :: (sigs.map (·.id) ++ d.answered)).count i =
        [c.id].count i + (sigs.map (·.id) ++ d.answered).count i := by
      rw [← List.count_append, List.singleton_append]
    rw [count_places, count_places, hheld, hheld', hin, hqueue, answered_after, answered_after]
    show (chunks.entries.map (·.value.id)).count i + 0 + 0 +
      (c.id :: (sigs.map (·.id) ++ d.answered)).count i = _
    rw [hmoved]
    simp only [Option.toList_none, List.count_nil]
    omega
  · rw [answered_after]
    exact congrArg (c.id :: ·) hfreed

/-- In every run, all chunks are somewhere once, if those lost in a timeout are taken for
    answered. -/
theorem exec_new_conserved {rc : Int} {mem : Memory} {ls : List Label}
    (hexec : exec (step size) (new rc mem) ls = some d) : ∃ sigs, Conserved (d.after sigs) := by
  -- an answer for the chunk that a timeout has lost is added, and it is accounted for again
  have hkept : ∀ (d : Downloader) l d', (∃ sigs, Conserved (d.after sigs)) →
      d.step size l = some d' → ∃ sigs, Conserved (d'.after sigs) := by
    rintro d l d' ⟨sigs, h⟩ hstep
    by_cases hidle : TimesOutIdle d l
    · exact ⟨sigs, step_conserved h hidle (step_after sigs hstep)⟩
    · cases l with
      | wake timedOut =>
        cases timedOut with
        | true =>
          obtain ⟨site, hpc, hwake⟩ := step_wake.mp hstep
          obtain ⟨key, c, chunks, hpop, rfl⟩ | ⟨hempty, -⟩ := chunkGetNextWake_cases hwake
          · exact ⟨_, lost_conserved h hpc hpop⟩
          · exact absurd hempty hidle
        | false => exact absurd trivial hidle
      | _ => exact absurd trivial hidle
  have hnew : ∃ sigs, Conserved ((new rc mem).after sigs) := ⟨[], new_conserved rc mem⟩
  exact exec_invariant hkept hnew hexec
end Fsfuse.Native.Downloader
