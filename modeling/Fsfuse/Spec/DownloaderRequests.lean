import Fsfuse.Spec.DownloaderQueue

/-!
# No request is lost or answered twice

A chunk is queued, or held, or in flight from the heap to `current_chunk`, or
answered. The invariant `Conserved` counts the occurrences of each chunk in these
places. One step loses a chunk: a wait that reports a timeout while the queue is not
empty, since `chunk_get_next` pops the heap once more and then returns `NULL`.
-/

namespace Fsfuse.Native.Downloader

open Transition

variable {size : Nat} {c : Chunk} {d d' : Downloader}

/-! ### Where a chunk can be -/

/-- The chunks in the heap. -/
def queue (d : Downloader) : List Nat := d.chunks.entries.map (·.value.id)

/-- The current chunk, unless the pointer to it dangles. -/
def held (d : Downloader) : Option Nat := (d.currentChunk.map (·.id)).filter (· ∉ d.freed)

/-- The chunk popped by `chunk_get_next` that its return will make the current one. -/
def inFlight : Pc → Option Nat
  | .returning _ timedOut chunk => (chunkGetNextResult timedOut chunk).map (·.id)
  | _ => none

/-- The chunks whose callback has been run, once for each time. -/
def answered (d : Downloader) : List Nat := d.signals.map (·.id)

/-- All the places of all the chunks. -/
def places (d : Downloader) : List Nat :=
  d.queue ++ d.held.toList ++ (inFlight d.pc).toList ++ d.answered

/-- While the downloader runs each chunk ever added is in exactly one place, and no
    chunk is answered twice. -/
structure Accounted (d : Downloader) : Prop where
  once : d.Running → ∀ i < d.added.length, d.places.count i = 1
  answered : d.answered.Nodup

/-- No wait reports a timeout while a chunk is queued. -/
def TimesOutIdle (d : Downloader) : Label → Prop
  | .wake true => d.chunks.used = 0
  | _ => True

instance (d : Downloader) : DecidablePred (TimesOutIdle d)
  | .wake true => inferInstanceAs (Decidable (d.chunks.used = 0))
  | .wake false | .chunkAdd _ | .loopHead | .getNext _ | .gotNext | .chooseSource _ | .block _
  | .consume | .fetched _ | .finish | .threadDelete => inferInstanceAs (Decidable True)

/-- A chunk is counted in the queue, in the thread's hands, on its way out, and among the
    answered. -/
theorem count_places (d : Downloader) (i : Nat) :
    d.places.count i = d.queue.count i + d.held.toList.count i +
      (inFlight d.pc).toList.count i + d.answered.count i := by
  simp only [places, List.count_append]

/-- A pop takes one chunk out of the queue. -/
theorem count_queue_of_trypop {key : Int} {chunks : BinaryHeap Chunk}
    (h : d.chunks.trypop = some (some (key, c), chunks)) (i : Nat) :
    d.queue.count i = [c.id].count i + (chunks.entries.map (·.value.id)).count i := by
  rw [queue, ((BinaryHeap.trypop_some h).map _).count_eq i, ← List.count_append]
  rfl

/-! ### The invariant -/

/-- Inside `chunk_get_next` no chunk is held; elsewhere the current chunk is. -/
def HeldInv (d : Downloader) : Pc → Prop
  | .getNext _ | .waiting _ | .returning _ _ _ => d.held = none
  | .loopHead | .chooseSource | .fetching | .stopped | .consuming _ | .leaving | .left =>
    d.held = d.currentChunk.map (·.id)
  | .deleted | .aborted => True

/-- The invariant: exactly the chunks added are somewhere, each of them once. -/
structure Conserved (d : Downloader) : Prop where
  freed : d.freed = d.answered
  held : HeldInv d d.pc
  once : d.Running → ∀ i, d.places.count i = if i < d.added.length then 1 else 0
  answered : d.answered.Nodup

/-- At a program counter the thread has the chunk that it is to have there. -/
theorem Conserved.heldAt {pc : Pc} (h : Conserved d) (hpc : d.pc = pc) : HeldInv d pc := by
  rw [← hpc]
  exact h.held

/-- By the invariant every chunk is accounted for. -/
theorem Conserved.accounted (h : Conserved d) : Accounted d where
  once hrun i hi := by rw [h.once hrun, if_pos hi]
  answered := h.answered

/-- A new downloader has no chunks anywhere. -/
theorem new_conserved (rc : Int) (mem : Memory) : Conserved (new rc mem) where
  freed := rfl
  held := rfl
  once := fun _ _ => rfl
  answered := List.nodup_nil

/-- A chunk that is somewhere else has not been freed. -/
theorem Conserved.not_freed {i : Nat} (h : Conserved d) (hrun : d.Running)
    (hi : d.answered.count i < d.places.count i) : i ∉ d.freed := by
  have honce := h.once hrun i
  rw [h.freed, ← List.count_eq_zero]
  split at honce <;> omega

/-- A step of the running downloader that moves chunks from place to place. -/
theorem Conserved.move (h : Conserved d) (hrun : d.Running) (hadded : d'.added = d.added)
    (hcount : ∀ i, d'.places.count i = d.places.count i) (hfreed : d'.freed = d'.answered)
    (hheld : HeldInv d' d'.pc) : Conserved d' := by
  have honce : ∀ i, d'.places.count i = if i < d'.added.length then 1 else 0 := by
    intro i
    rw [hcount, hadded, h.once hrun]
  -- a chunk in one place only is answered at most once
  refine ⟨hfreed, hheld, fun _ => honce, List.nodup_iff_count_le_one.mpr fun i => ?_⟩
  have hi := honce i
  rw [count_places] at hi
  split at hi <;> omega

/-- A step of the running downloader that moves no chunk. -/
theorem Conserved.stay (h : Conserved d) (hrun : d.Running) (hadded : d'.added = d.added)
    (hchunks : d'.chunks = d.chunks) (hcur : d'.held = d.held) (hfreed : d'.freed = d.freed)
    (hsignals : d'.signals = d.signals) (hpc : inFlight d'.pc = inFlight d.pc)
    (hheld : HeldInv d' d'.pc) : Conserved d' := by
  have hanswered : d'.answered = d.answered := by
    rw [Downloader.answered, hsignals, Downloader.answered]
  refine h.move hrun hadded (fun i => ?_) (by rw [hfreed, hanswered, h.freed]) hheld
  rw [count_places, count_places, queue, hchunks, hcur, hpc, hanswered, queue]

/-- The end of the downloader, or of the daemon, keeps the answers as they are. -/
theorem Conserved.halt (h : Conserved d) (hfreed : d'.freed = d.freed)
    (hsignals : d'.signals = d.signals) (hpc : ¬ d'.Running) : Conserved d' := by
  have hanswered : d'.answered = d.answered := by
    rw [Downloader.answered, hsignals, Downloader.answered]
  refine ⟨by rw [hfreed, hanswered, h.freed], ?_, fun hrun => absurd hrun hpc,
    by rw [hanswered]; exact h.answered⟩
  -- nothing is held that could be asked for
  cases hd : d'.pc <;> first | trivial | exact absurd (by simp [Running, hd]) hpc

/-- Below `n + 1` are `n` and what is below `n`. -/
private theorem count_lt_succ (i n : Nat) :
    [n].count i + (if i < n then 1 else 0) = if i < n + 1 then 1 else 0 := by
  rw [List.count_singleton]
  simp only [beq_iff_eq]
  split_ifs <;> omega

/-- `downloader_chunk_add` puts the new chunk into the queue. -/
theorem chunkAdd_conserved {r : Request} (h : Conserved d) (hrun : d.Running)
    (hstep : d.chunkAdd size r = some d') : Conserved d' := by
  obtain ⟨-, chunks, hadd, rfl⟩ | rfl := chunkAdd_cases hstep
  · refine ⟨h.freed, ?_, fun _ i => ?_, h.answered⟩
    · have hheld := h.held
      show HeldInv _ d.pc
      cases hpc : d.pc <;> rw [hpc] at hheld <;> exact hheld
    · obtain ⟨-, hperm, -⟩ := BinaryHeap.add_spec hadd
      -- the new chunk has the number of those added before it
      have hqueue : (chunks.entries.map (·.value.id)).count i =
          [d.added.length].count i + d.queue.count i := by
        rw [(hperm.map _).count_eq i, ← List.count_append]
        rfl
      have honce := h.once hrun i
      rw [count_places] at honce ⊢
      rw [List.length_append, List.length_singleton, ← count_lt_succ, ← honce,
        ← Nat.add_assoc, ← Nat.add_assoc, ← Nat.add_assoc, ← hqueue]
      rfl
  · exact h.halt rfl rfl fun hr => hr.2 rfl

/-- What `chunk_get_next` pops is in flight to `current_chunk`. -/
theorem popped_conserved {site : Site} {key : Int} {chunks : BinaryHeap Chunk}
    (h : Conserved d) (hrun : d.Running) (hheld : d.held = none) (hpc : inFlight d.pc = none)
    (hpop : d.chunks.trypop = some (some (key, c), chunks)) :
    Conserved { d with chunks := chunks, pc := .returning site false (some c) } := by
  refine h.move hrun rfl (fun i => ?_) h.freed hheld
  rw [count_places, count_places, count_queue_of_trypop hpop, hpc]
  show (chunks.entries.map (·.value.id)).count i + d.held.toList.count i + [c.id].count i +
    d.answered.count i = _
  -- what leaves the queue goes into flight
  simp only [hheld, Option.toList_none, List.count_nil]
  omega

/-- `chunk_get_next` takes a chunk from the queue, or starts to wait. -/
theorem chunkGetNext_conserved {site : Site} {usec : Nat} (h : Conserved d)
    (hpc : d.pc = .getNext site) (hstep : d.chunkGetNext site usec = some d') :
    Conserved d' := by
  have hrun : d.Running := by simp [Running, hpc]
  have hin : inFlight d.pc = none := by rw [hpc]; rfl
  have hheld := h.heldAt hpc
  obtain ⟨key, c, chunks, hpop, rfl⟩ | ⟨-, ⟨-, rfl⟩ | ⟨-, rfl⟩⟩ := chunkGetNext_cases hstep
  · exact popped_conserved h hrun hheld hin hpop
  · exact h.stay hrun rfl rfl rfl rfl rfl hin.symm hheld
  · exact h.halt rfl rfl fun hr => hr.2 rfl

/-- When the wait returns a chunk is taken from the queue, unless it has timed out with one in
    it. -/
theorem chunkGetNextWake_conserved {site : Site} {timedOut : Bool} (h : Conserved d)
    (hpc : d.pc = .waiting site) (hidle : TimesOutIdle d (.wake timedOut))
    (hstep : d.chunkGetNextWake site timedOut = some d') : Conserved d' := by
  have hrun : d.Running := by simp [Running, hpc]
  have hin : inFlight d.pc = none := by rw [hpc]; rfl
  have hheld := h.heldAt hpc
  obtain ⟨key, c, chunks, hpop, rfl⟩ | ⟨-, ⟨-, rfl⟩ | ⟨-, rfl⟩⟩ := chunkGetNextWake_cases hstep
  · cases timedOut with
    | false => exact popped_conserved h hrun hheld hin hpop
    -- a timeout finds the queue empty, so nothing has been popped
    | true => simp [BinaryHeap.trypop_empty hidle] at hpop
  · exact h.stay hrun rfl rfl rfl rfl rfl hin.symm hheld
  · exact h.stay hrun rfl rfl rfl rfl rfl hin.symm hheld

/-- A timeout reported while a chunk is queued takes that chunk out of all places. -/
theorem chunkGetNextWake_lost {site : Site} (h : Conserved d) (hpc : d.pc = .waiting site)
    (hstep : d.chunkGetNextWake site true = some d') (hacc : Accounted d') :
    d.chunks.used = 0 := by
  have hrun : d.Running := by simp [Running, hpc]
  obtain ⟨key, c, chunks, hpop, rfl⟩ | ⟨hempty, -⟩ := chunkGetNextWake_cases hstep
  · -- the chunk popped was in the queue and nowhere else
    have hbefore := h.once hrun c.id
    rw [count_places, count_queue_of_trypop hpop, List.count_singleton_self] at hbefore
    have hlt : c.id < d.added.length := by
      by_contra hge
      rw [if_neg hge] at hbefore
      omega
    -- now it is in no place: its flight ends in `NULL`
    have hafter := hacc.once (by simp [Running]) c.id hlt
    rw [count_places] at hafter
    change (chunks.entries.map (·.value.id)).count c.id + d.held.toList.count c.id + 0 +
      d.answered.count c.id = 1 at hafter
    rw [if_pos hlt] at hbefore
    omega
  · exact hempty

/-! ### The steps of the thread -/

/-- The head of the loop loses no chunk. -/
theorem loopHead_conserved (h : Conserved d) (hpc : d.pc = .loopHead) :
    Conserved d.loopHead := by
  have hrun : d.Running := by simp [Running, hpc]
  have hin : inFlight d.pc = none := by rw [hpc]; rfl
  have hheld := h.heldAt hpc
  rw [loopHead]
  split
  · exact h.halt rfl rfl fun hr => hr.2 rfl
  · simp only
    split <;> rename_i hcur
    -- no chunk in hand, and none held while `chunk_get_next` looks for one
    · refine h.stay hrun rfl rfl rfl rfl rfl hin.symm ?_
      show d.held = none
      rw [hheld, hcur]
      rfl
    · exact h.stay hrun rfl rfl rfl rfl rfl hin.symm hheld

/-- The choice of a source loses no chunk. -/
theorem chooseSource_conserved {found : Bool} (h : Conserved d) (hpc : d.pc = .chooseSource) :
    Conserved (d.chooseSource found) := by
  have hrun : d.Running := by simp [Running, hpc]
  have hin : inFlight d.pc = none := by rw [hpc]; rfl
  have hheld := h.heldAt hpc
  rw [chooseSource]
  split
  · exact h.stay hrun rfl rfl rfl rfl rfl hin.symm hheld
  · exact h.stay hrun rfl rfl rfl rfl rfl hin.symm hheld

/-- The end of a fetch loses no chunk. -/
theorem fetched_conserved {rc : Int} (h : Conserved d) (hpc : d.pc = .fetching ∨ d.pc = .stopped) :
    Conserved (d.fetched rc) := by
  have hrun : d.Running := by rcases hpc with hpc | hpc <;> simp [Running, hpc]
  have hheld : d.held = d.currentChunk.map (·.id) := by
    have hheld := h.held
    rcases hpc with hpc | hpc <;> rw [hpc] at hheld <;> exact hheld
  refine h.stay hrun rfl rfl rfl rfl rfl ?_ ?_
  · rw [fetched]
    rcases hpc with hpc | hpc <;> rw [hpc] <;> split <;> rfl
  · show HeldInv _ (if rc = 0 then Pc.loopHead else Pc.leaving)
    split <;> exact hheld

/-- A block from the fetcher loses no chunk. -/
theorem bufConsumer_conserved {data : List UInt8} {n : Nat} (h : Conserved d)
    (hpc : d.pc = .fetching) : Conserved ({ d with position := n }.bufConsumer data) := by
  have hrun : d.Running := by simp [Running, hpc]
  have hin : inFlight d.pc = none := by rw [hpc]; rfl
  have hheld := h.heldAt hpc
  rw [bufConsumer]
  split <;> rename_i hcur
  · refine h.stay hrun rfl rfl rfl rfl rfl hin.symm ?_
    show d.held = none
    rw [hheld, show d.currentChunk = none from hcur]
    rfl
  · exact h.stay hrun rfl rfl rfl rfl rfl hin.symm hheld

/-- A chunk in flight has not been freed. -/
theorem Conserved.filter_inFlight {id : Nat} (h : Conserved d) (hrun : d.Running)
    (hid : inFlight d.pc = some id) : (some id).filter (· ∉ d.freed) = some id := by
  -- it is in flight, so it is not also answered
  have hfree : id ∉ d.freed := by
    apply h.not_freed hrun
    rw [count_places, hid, Option.toList_some, List.count_singleton_self]
    omega
  simp [hfree]

/-- The chunk returned by `chunk_get_next`, if any, becomes the current one. -/
theorem got_conserved {site : Site} {timedOut : Bool} {chunk : Option Chunk} (h : Conserved d)
    (hpc : d.pc = .returning site timedOut chunk) (hadded : d'.added = d.added)
    (hchunks : d'.chunks = d.chunks) (hfreed : d'.freed = d.freed)
    (hsignals : d'.signals = d.signals)
    (hcur : d'.currentChunk = chunkGetNextResult timedOut chunk) (hin : inFlight d'.pc = none)
    (hheld : d'.held = d'.currentChunk.map (·.id) → HeldInv d' d'.pc) : Conserved d' := by
  have hrun : d.Running := by simp [Running, hpc]
  have hflight : inFlight d.pc = d'.currentChunk.map (·.id) := by rw [hpc, hcur]; rfl
  have hnone : d.held = none := h.heldAt hpc
  -- `current_chunk` was dangling or `NULL`, and is now what has been in flight
  have hheld' : d'.held = d'.currentChunk.map (·.id) := by
    rw [Downloader.held, hfreed]
    cases hc : d'.currentChunk.map (·.id) with
    | none => rfl
    | some id => exact h.filter_inFlight hrun (hflight.trans hc)
  have hanswered : d'.answered = d.answered := by
    rw [Downloader.answered, hsignals, Downloader.answered]
  -- the chunk moves from flight into hand
  refine h.move hrun hadded (fun i => ?_) (by rw [hfreed, hanswered, h.freed]) (hheld hheld')
  rw [count_places, count_places, queue, hchunks, hheld', hin, hanswered, hnone, hflight, queue]
  simp only [Option.toList_none, List.count_nil]
  omega

/-- What `chunk_get_next` returns is the chunk it has popped, if it has. -/
theorem gotNext_conserved {site : Site} {timedOut : Bool} {chunk : Option Chunk}
    (h : Conserved d) (hpc : d.pc = .returning site timedOut chunk) :
    Conserved (d.gotNext site (chunkGetNextResult timedOut chunk)) := by
  cases hres : chunkGetNextResult timedOut chunk with
  | none =>
    cases site <;>
      exact got_conserved h hpc rfl rfl rfl rfl hres.symm rfl id
  | some c =>
    cases site <;>
      exact got_conserved h hpc rfl rfl rfl rfl hres.symm rfl id

/-- Running the callback of the held chunk and freeing it. -/
theorem answer_conserved (h : Conserved d) (hrun : d.Running) (hheld : d.held = some c.id)
    (hpc : inFlight d.pc = none) (hadded : d'.added = d.added) (hchunks : d'.chunks = d.chunks)
    (hfreed : d'.freed = d.freed ++ [c.id]) (hanswered : d'.answered = d.answered ++ [c.id])
    (hnone : d'.held = none) (hpc' : inFlight d'.pc = none) (hheld' : HeldInv d' d'.pc) :
    Conserved d' := by
  -- the chunk moves from hand to the answers
  refine h.move hrun hadded (fun i => ?_) (by rw [hfreed, hanswered, h.freed]) hheld'
  rw [count_places, count_places, queue, hchunks, hheld, hpc, hanswered, hnone, hpc', queue,
    List.count_append]
  simp only [Option.toList_none, Option.toList_some, List.count_nil]
  omega

/-- A round of `buf_consumer` answers the chunk that is full, and goes to the next. -/
theorem bufConsumerRound_conserved {buf : Buf} (h : Conserved d) (hpc : d.pc = .consuming buf)
    (hcur : d.currentChunk = some c) : Conserved (d.bufConsumerRound c buf) := by
  have hrun : d.Running := by simp [Running, hpc]
  have hin : inFlight d.pc = none := by rw [hpc]; rfl
  have hheld := h.heldAt hpc
  have hid : d.held = some c.id := by rw [hheld, hcur]; rfl
  -- copying moves the fields of the chunk, not the chunk
  have hlive : (some c.id).filter (· ∉ d.freed) = some c.id := by
    rw [Downloader.held, hcur] at hid
    exact hid
  simp only [bufConsumerRound]
  split
  · split
    -- the chunk ends, and so does the block
    · exact answer_conserved h hrun hid hin rfl rfl rfl List.map_append rfl rfl rfl
    · split
      · exact h.stay hrun rfl rfl (hlive.trans hid.symm) rfl rfl hin.symm hlive
      · split
        · refine answer_conserved h hrun hid hin rfl rfl rfl List.map_append ?_ rfl ?_
          -- `current_chunk` dangles: it points to the chunk just freed
          all_goals
            show (some c.id).filter (· ∉ d.freed ++ [c.id]) = none
            simp
        · exact h.stay hrun rfl rfl (hlive.trans hid.symm) rfl rfl hin.symm hlive
  · exact h.stay hrun rfl rfl rfl rfl rfl hin.symm hheld

/-- One round of `chunks_empty`: the chunk popped is answered at once. -/
theorem drain_conserved {key rc : Int} {chunks : BinaryHeap Chunk} (h : Conserved d)
    (hpc : d.pc = .leaving) (hcur : d.currentChunk = none)
    (hpop : d.chunks.trypop = some (some (key, c), chunks)) :
    Conserved (({ d with chunks := chunks }.signalReadThread c rc 0).chunkDelete c) := by
  have hrun : d.Running := by simp [Running, hpc]
  have hanswered : (({ d with chunks := chunks }.signalReadThread c rc 0).chunkDelete c).answered =
      d.answered ++ [c.id] := List.map_append
  -- no chunk is in hand any more while the queue is emptied
  have hnone : ∀ freed, held { d with freed := freed } = none := by
    intro freed
    rw [held, hcur]
    rfl
  refine h.move hrun rfl (fun i => ?_) ?_ ?_
  · rw [count_places, count_places, count_queue_of_trypop hpop, hanswered, List.count_append]
    show (chunks.entries.map (·.value.id)).count i + (held { d with freed := _ }).toList.count i +
      (inFlight d.pc).toList.count i + _ = _
    rw [hnone, hnone]
    omega
  · rw [hanswered, ← h.freed]
    rfl
  · show HeldInv _ d.pc
    rw [hpc]
    show held { d with freed := _ } = d.currentChunk.map (·.id)
    rw [hnone, hcur]
    rfl

/-- `chunks_empty` answers what it pops. -/
theorem chunksEmpty_conserved {rounds : Nat} {rc : Int}
    (hstep : d.chunksEmpty rounds rc = some d') (h : Conserved d) (hpc : d.pc = .leaving)
    (hcur : d.currentChunk = none) :
    Conserved d' ∧ d'.pc = .leaving ∧ d'.currentChunk = none := by
  -- on the rounds; each moves a chunk from the queue to the answers
  induction rounds generalizing d with
  | zero =>
    obtain ⟨-, rfl⟩ | ⟨key, c, chunks, rounds', -, hrounds, -⟩ := chunksEmpty_cases hstep
    · exact ⟨h, hpc, hcur⟩
    · cases hrounds
  | succ rounds ih =>
    obtain ⟨-, rfl⟩ | ⟨key, c, chunks, rounds', hpop, hrounds, hrest⟩ := chunksEmpty_cases hstep
    · exact ⟨h, hpc, hcur⟩
    · obtain rfl := Nat.succ.inj hrounds
      exact ih hrest (drain_conserved h hpc hcur hpop) hpc hcur

/-- The end of the thread answers all that is queued. -/
theorem finish_conserved (h : Conserved d) (hpc : d.pc = .leaving)
    (hstep : d.finish = some d') : Conserved d' := by
  have hrun : d.Running := by simp [Running, hpc]
  have hin : inFlight d.pc = none := by rw [hpc]; rfl
  have hheld := h.heldAt hpc
  obtain ⟨-, ⟨-, rfl⟩ | ⟨-, ⟨e, chunks, -, rfl⟩ | ⟨-, rfl⟩⟩⟩ |
    ⟨-, ⟨-, rfl⟩ | ⟨c, d₁, hcur, hempty, rfl⟩⟩ := finish_cases hstep
  -- a failed assertion
  · exact h.halt rfl rfl fun hr => hr.2 rfl
  · exact h.halt rfl rfl fun hr => hr.2 rfl
  -- nobody to answer
  · exact h.stay hrun rfl rfl rfl rfl rfl hin.symm hheld
  · exact h.stay hrun rfl rfl rfl rfl rfl hin.symm hheld
  · have hid : d.held = some c.id := by rw [hheld, hcur]; rfl
    -- first the chunk in hand is answered, then the queue is emptied
    have hanswer : Conserved (d.answerCurrent c) := by
      refine answer_conserved h hrun hid hin rfl rfl rfl List.map_append rfl hin ?_
      show HeldInv _ d.pc
      rw [hpc]
      rfl
    -- `chunks_empty` runs before the thread is past the critical section
    obtain ⟨h₁, hpc₁, hcur₁⟩ := chunksEmpty_conserved hempty hanswer hpc rfl
    have hrun₁ : d₁.Running := by simp [Running, hpc₁]
    have hheld₁ := h₁.heldAt hpc₁
    exact h₁.stay hrun₁ rfl rfl rfl rfl rfl (by rw [hpc₁]; rfl) hheld₁

/-- Deleting the thread loses no chunk. -/
theorem threadDelete_conserved (h : Conserved d) : Conserved d.threadDelete := by
  rw [threadDelete]
  split
  · exact h.halt rfl rfl fun hr => hr.1 rfl
  · exact h.halt rfl rfl fun hr => hr.2 rfl

/-- A step conserves the chunks unless it is a wait that times out over a non-empty queue. -/
theorem step_conserved {l : Label} (h : Conserved d) (hidle : TimesOutIdle d l)
    (hstep : d.step size l = some d') : Conserved d' := by
  cases l with
  | chunkAdd r =>
    obtain ⟨hrun, hadd⟩ := step_chunkAdd.mp hstep
    exact chunkAdd_conserved h hrun hadd
  | loopHead =>
    obtain ⟨hpc, rfl⟩ := step_loopHead.mp hstep
    exact loopHead_conserved h hpc
  | getNext usec =>
    obtain ⟨site, hpc, hnext⟩ := step_getNext.mp hstep
    exact chunkGetNext_conserved h hpc hnext
  | wake timedOut =>
    obtain ⟨site, hpc, hwake⟩ := step_wake.mp hstep
    exact chunkGetNextWake_conserved h hpc hidle hwake
  | gotNext =>
    obtain ⟨site, timedOut, chunk, hpc, rfl⟩ := step_gotNext.mp hstep
    exact gotNext_conserved h hpc
  | chooseSource found =>
    obtain ⟨hpc, rfl⟩ := step_chooseSource.mp hstep
    exact chooseSource_conserved h hpc
  | block data =>
    obtain ⟨hpc, rfl⟩ := step_block.mp hstep
    exact bufConsumer_conserved h hpc
  | consume =>
    obtain ⟨buf, c, hpc, hc, rfl⟩ := step_consume.mp hstep
    exact bufConsumerRound_conserved h hpc hc
  | fetched rc =>
    obtain ⟨hpc, rfl⟩ := step_fetched.mp hstep
    exact fetched_conserved h hpc
  | finish =>
    obtain ⟨hpc, hfinish⟩ := step_finish.mp hstep
    exact finish_conserved h hpc hfinish
  | threadDelete =>
    obtain ⟨-, rfl⟩ := step_threadDelete.mp hstep
    exact threadDelete_conserved h

/-- A step that leaves every chunk accounted for has not timed out over a non-empty queue. -/
theorem timesOutIdle_of_step {l : Label} (h : Conserved d) (hstep : d.step size l = some d')
    (hacc : Accounted d') : TimesOutIdle d l := by
  cases l with
  | wake timedOut =>
    cases timedOut with
    -- only a wait that times out can lose a chunk
    | false => trivial
    | true =>
      obtain ⟨site, hpc, hwake⟩ := step_wake.mp hstep
      exact chunkGetNextWake_lost h hpc hwake hacc
  | _ => trivial

/-! ### Runs -/

/-- Every chunk is accounted for in every state of a run exactly when no wait of the run
    reports a timeout while a chunk is queued. -/
theorem exec_new_accounted_iff (size : Nat) (rc : Int) (mem : Memory) (ls : List Label)
    (d : Downloader) (hexec : exec (step size) (new rc mem) ls = some d) :
    Throughout (step size) Accounted (new rc mem) ls ↔
      StepsMeet (step size) TimesOutIdle (new rc mem) ls :=
  throughout_iff_stepsMeet (fun _ h => h.accounted) (fun _ _ _ => step_conserved)
    (fun _ _ _ => timesOutIdle_of_step) (new_conserved rc mem) hexec

/-- A read is served and the next wait times out over the empty queue. -/
theorem exec_new_accounted_idle :
    Throughout (step 2) Accounted (new 0 fun _ => 0)
      [.loopHead, .getNext 0, .chunkAdd ⟨0, 2, 0, 0⟩, .wake false, .gotNext, .chooseSource true,
        .block [1, 2], .consume, .fetched 0, .loopHead, .getNext 0, .wake true, .gotNext] := by
  have hexec : (exec (step 2) (new 0 fun _ => 0)
      [.loopHead, .getNext 0, .chunkAdd ⟨0, 2, 0, 0⟩, .wake false, .gotNext, .chooseSource true,
        .block [1, 2], .consume, .fetched 0, .loopHead, .getNext 0, .wake true,
        .gotNext]).isSome := by decide +kernel
  obtain ⟨d, hd⟩ := Option.isSome_iff_exists.mp hexec
  exact (exec_new_accounted_iff 2 0 _ _ d hd).mpr (by decide +kernel)

/-- The request arrives after the wait has timed out and before it has the mutex back. -/
theorem exec_new_lost_in_timeout :
    ¬ Throughout (step 4) Accounted (new 0 fun _ => 0)
      [.loopHead, .getNext 0, .chunkAdd ⟨0, 4, 0, 0⟩, .wake true] := by
  intro hthr
  have hlast : (exec (step 4) (new 0 fun _ => 0)
      [.loopHead, .getNext 0, .chunkAdd ⟨0, 4, 0, 0⟩, .wake true]).map
        (fun d => (decide d.Running, d.added.length, d.places.count 0)) =
      some (true, 1, 0) := by decide +kernel
  obtain ⟨d, hd, hplaces⟩ := Option.map_eq_some_iff.mp hlast
  simp only [Prod.mk.injEq, decide_eq_true_eq] at hplaces
  obtain ⟨hrun, hlen, hcount⟩ := hplaces
  have honce := (hthr _ d List.prefix_rfl hd).once hrun 0 (by omega)
  omega

end Fsfuse.Native.Downloader
