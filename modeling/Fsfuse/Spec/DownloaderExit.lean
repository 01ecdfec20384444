import Fsfuse.Spec.DownloaderQueue

/-!
# Leaving the download loop

Behind its loop, `downloaderead_main` takes the lock for the last time, and should answer
with an error whatever is still pending, so that `thread_delete` finds no chunk in hand and
none queued.

It drains the queue only after it has answered a chunk in hand, and it trusts an `rc` of 0 to
mean that nothing is pending, although the loop is also left by a timeout.

* `chunksEmpty_spec` — what `chunks_empty` does to any queue;
* `exit_answered_iff` — when everyone is answered.
-/

namespace Fsfuse.Native.Downloader

open Transition

variable {size : Nat} {d d' : Downloader}

/-! ### What the exit path is for -/

/-- The way from the final lock through `thread_delete`, with the requests that come in
    behind the unlock. Those that come in before the lock are in the queue already. -/
def exitPath (late : List Request) : List Label :=
  .finish :: late.map .chunkAdd ++ [.threadDelete]

/-- The chunks in hand and in the queue at the final lock, and those queued behind it. -/
def pendingAtExit (d : Downloader) (late : List Request) : List Chunk :=
  d.currentChunk.toList ++ d.chunks.entries.map (·.value) ++
    late.mapIdx fun i r => chunkNew (d.added.length + i) r

/-- `thread_delete` has run to its end, and all that was pending has been signalled once, with
    an error. -/
structure AnsweredAtExit (d : Downloader) (late : List Request) (d' : Downloader) : Prop where
  deleted : d'.pc = .deleted
  currentChunk : d'.currentChunk = none
  chunks : d'.chunks.used = 0
  signals : ∃ sigs, d'.signals = d.signals ++ sigs ∧ (∀ s ∈ sigs, s.rc ≠ 0) ∧
    (sigs.map fun s => (s.id, s.ctxt)).Perm ((d.pendingAtExit late).map fun c => (c.id, c.ctxt))

/-! ### chunks_empty -/

/-- The queue of `d` has been answered with `rc`, and nothing is left of it. -/
structure Drained (d : Downloader) (rc : Int) (d' : Downloader) : Prop where
  chunks : d'.chunks.used = 0
  currentChunk : d'.currentChunk = d.currentChunk
  signals : ∃ sigs, d'.signals = d.signals ++ sigs ∧ (∀ s ∈ sigs, s.rc = rc) ∧
    (sigs.map fun s => (s.id, s.ctxt)).Perm
      ((d.chunks.entries.map (·.value)).map fun c => (c.id, c.ctxt))

/-- An empty queue is drained. -/
theorem drained_of_empty (rc : Int) (h : d.chunks.used = 0) : Drained d rc d where
  chunks := h
  currentChunk := rfl
  signals := ⟨[], by simp, by simp, by simp [BinaryHeap.entries_of_empty h]⟩

/-- What is left of the queue is drained after one of its chunks has been answered. -/
theorem Drained.cons {rc : Int} {x : Kvp Chunk} {chunks : BinaryHeap Chunk}
    (hperm : d.chunks.entries.Perm (x :: chunks.entries))
    (h : Drained (({ d with chunks := chunks }.signalReadThread x.value rc 0).chunkDelete x.value)
      rc d') : Drained d rc d' where
  chunks := h.chunks
  currentChunk := h.currentChunk
  signals := by
    obtain ⟨sigs, hsigs, hrc, hids⟩ := h.signals
    refine ⟨⟨x.value.id, x.value.ctxt, rc, 0, d.mem⟩ :: sigs, ?_, ?_, ?_⟩
    · rw [hsigs]
      simp [signalReadThread, chunkDelete]
    · simpa using hrc
    · have hmap := (hperm.map (·.value)).map fun c => (c.id, c.ctxt)
      exact (hids.cons (x.value.id, x.value.ctxt)).trans hmap.symm

/-- An empty queue is left alone. -/
theorem chunksEmpty_of_empty (rounds : Nat) (rc : Int) (h : d.chunks.used = 0) :
    d.chunksEmpty rounds rc = some d := by
  rw [chunksEmpty, BinaryHeap.trypop_empty h]
  rfl

/-- A queue of any length is drained. -/
theorem chunksEmpty_spec {rounds : Nat} (rc : Int) (hvalid : d.chunks.Valid)
    (hroom : d.chunks.used ≤ 2 ^ 30) (hrounds : d.chunks.used ≤ rounds) :
    ∃ d', d.chunksEmpty rounds rc = some d' ∧ Drained d rc d' := by
  induction rounds generalizing d with
  | zero =>
    have hzero : d.chunks.used = 0 := Nat.le_zero.mp hrounds
    exact ⟨d, chunksEmpty_of_empty 0 rc hzero, drained_of_empty rc hzero⟩
  | succ rounds ih =>
    by_cases hzero : d.chunks.used = 0
    · exact ⟨d, chunksEmpty_of_empty _ rc hzero, drained_of_empty rc hzero⟩
    · obtain ⟨r, chunks, hpop⟩ := BinaryHeap.trypop_isSome hvalid hroom
      obtain ⟨hused, x, rfl, hperm, hkeep⟩ :=
        BinaryHeap.trypop_spec hpop (Nat.pos_of_ne_zero hzero)
      -- one chunk is answered, and the others are left to the rounds that follow
      have hroom' : chunks.used ≤ 2 ^ 30 := by omega
      have hrounds' : chunks.used ≤ rounds := by omega
      obtain ⟨d', hrest, hdrained⟩ :=
        ih (d := ({ d with chunks := chunks }.signalReadThread x.value rc 0).chunkDelete x.value)
          (hkeep hvalid).1 hroom' hrounds'
      refine ⟨d', ?_, hdrained.cons hperm⟩
      rw [chunksEmpty, hpop]
      exact hrest

/-! ### Behind the unlock -/

/-- Requests that come in late are queued, if an assertion of theirs does not fail first. -/
theorem exec_late {late : List Request}
    (h : exec (step size) d (late.map .chunkAdd) = some d') :
    d'.pc = .aborted ∨
      d'.pc = d.pc ∧ d'.currentChunk = d.currentChunk ∧
        d'.chunks.used = d.chunks.used + late.length := by
  induction late generalizing d with
  | nil =>
    obtain rfl : d = d' := by simpa using h
    exact .inr ⟨rfl, rfl, rfl⟩
  | cons r late ih =>
    rw [List.map_cons, exec_cons, Option.bind_eq_some_iff] at h
    obtain ⟨d₁, hstep, hrest⟩ := h
    obtain ⟨-, hadd⟩ := step_chunkAdd.mp hstep
    rcases ih hrest with haborted | ⟨hpc, hcurrent, hused⟩
    · exact .inl haborted
    · obtain ⟨-, chunks, hchunks, rfl⟩ | rfl := chunkAdd_cases hadd
      · have hmore : chunks.used = d.chunks.used + 1 := (BinaryHeap.add_spec hchunks).1
        refine .inr ⟨hpc, hcurrent, ?_⟩
        rw [hused, hmore, List.length_cons]
        omega
      · exact .inl hpc

/-- `thread_delete` runs to its end only if nothing is left. -/
theorem threadDelete_deleted (h : d.threadDelete.pc = .deleted) :
    d.currentChunk = none ∧ d.chunks.used = 0 := by
  rw [threadDelete] at h
  split at h
  · rename_i hdeletable
    exact ⟨hdeletable.1, by simpa [BinaryHeap.deletable] using hdeletable.2⟩
  · cases h

/-- If it does, nothing was left at the unlock, and nothing has been added since. -/
theorem exec_exitPath_deleted {late : List Request}
    (h : exec (step size) d (exitPath late) = some d') (hdeleted : d'.pc = .deleted) :
    late = [] ∧ ∃ d₁, d.finish = some d₁ ∧ d₁.pc = .left ∧ d₁.currentChunk = none ∧
      d₁.chunks.used = 0 := by
  rw [exitPath, List.cons_append, exec_cons, Option.bind_eq_some_iff] at h
  obtain ⟨d₁, hfinish, h⟩ := h
  rw [exec_concat, Option.bind_eq_some_iff] at h
  obtain ⟨d₂, hlate, hdelete⟩ := h
  obtain ⟨hleft, rfl⟩ := step_threadDelete.mp hdelete
  obtain ⟨hcurrent, hempty⟩ := threadDelete_deleted hdeleted
  obtain haborted | ⟨hpc, hcurrent₁, hused⟩ := exec_late hlate
  · rw [haborted] at hleft
    cases hleft
  · have hnone : late.length = 0 := by omega
    exact ⟨List.length_eq_zero_iff.mp hnone, d₁, (step_finish.mp hfinish).2,
      hpc.symm.trans hleft, hcurrent₁.symm.trans hcurrent, by omega⟩

/-! ### Who is answered -/

/-- Nothing was pending. -/
theorem finish_of_nothing (hcurrent : d.currentChunk = none) (hempty : d.chunks.used = 0) :
    d.finish = some { d with pc := .left } := by
  rw [finish, hcurrent, BinaryHeap.trypop_empty hempty]
  split <;> rfl

/-- The chunk in hand is answered first, and then the queue. -/
theorem finish_of_error {c : Chunk} (hcurrent : d.currentChunk = some c) (hrc : d.rc ≠ 0)
    (hvalid : d.chunks.Valid) (hroom : d.chunks.used ≤ 2 ^ 30) :
    ∃ d₁, d.finish = some { d₁ with pc := .left } ∧ Drained (d.answerCurrent c) d.rc d₁ := by
  obtain ⟨d₁, hempty, hdrained⟩ := chunksEmpty_spec (d := d.answerCurrent c) d.rc hvalid hroom
    (Nat.le_refl d.chunks.used)
  have hfinish : d.finish = (chunksEmpty d.chunks.used (d.answerCurrent c) d.rc).bind
      fun d₁ => some { d₁ with pc := .left } := by
    rw [finish, if_neg hrc, hcurrent]
    rfl
  exact ⟨d₁, by rw [hfinish, hempty, Option.bind_some], hdrained⟩

/-- Nothing is pending any more at the unlock: `thread_delete` runs to its end. -/
theorem exec_exitPath_of_left {d₁ : Downloader} (hpc : d.pc = .leaving)
    (hfinish : d.finish = some d₁) (hleft : d₁.pc = .left) (hcurrent : d₁.currentChunk = none)
    (hempty : d₁.chunks.used = 0) :
    exec (step size) d (exitPath []) = some { d₁ with pc := .deleted } := by
  have hdelete : d₁.threadDelete = { d₁ with pc := .deleted } := by
    rw [threadDelete, if_pos ⟨hcurrent, by simp [BinaryHeap.deletable, hempty]⟩]
  show (d.step size .finish).bind _ = _
  rw [step_finish.mpr ⟨hpc, hfinish⟩]
  show (d₁.step size .threadDelete).bind _ = _
  rw [step_threadDelete.mpr ⟨hleft, hdelete⟩]
  rfl

/-- Everyone is answered exactly when nothing was pending at all, or an error has ended the
    loop with a chunk in hand; and when nothing comes in late. -/
theorem exit_answered_iff (size : Nat) (d : Downloader) (late : List Request)
    (hpc : d.pc = .leaving) (hvalid : d.chunks.Valid) (hroom : d.chunks.used ≤ 2 ^ 30) :
    (∃ d', exec (step size) d (exitPath late) = some d' ∧ AnsweredAtExit d late d') ↔
      late = [] ∧
        (d.currentChunk = none ∧ d.chunks.used = 0 ∨ d.currentChunk ≠ none ∧ d.rc ≠ 0) := by
  constructor
  · intro h
    obtain ⟨d', hexec, hanswered⟩ := h
    obtain ⟨hlate, d₁, hfinish, hleft, hcurrent, hempty⟩ :=
      exec_exitPath_deleted hexec hanswered.deleted
    refine ⟨hlate, ?_⟩
    obtain ⟨hrc, ⟨-, rfl⟩ | ⟨hnone, ⟨e, chunks, -, rfl⟩ | ⟨hzero, rfl⟩⟩⟩ |
      ⟨hrc, ⟨hnone, rfl⟩ | ⟨c, d₂, hc, -, rfl⟩⟩ := finish_cases hfinish
    -- a failed assertion
    · cases hleft
    · cases hleft
    -- nothing in hand
    · exact .inl ⟨hnone, hzero⟩
    · exact .inl ⟨hnone, hempty⟩
    -- an error, with a chunk in hand
    · exact .inr ⟨by simp [hc], hrc⟩
  · intro h
    obtain ⟨rfl, ⟨hcurrent, hempty⟩ | ⟨hcurrent, hrc⟩⟩ := h
    · have hfinish := finish_of_nothing hcurrent hempty
      refine ⟨_, exec_exitPath_of_left hpc hfinish rfl hcurrent hempty, rfl, hcurrent, hempty,
        [], by simp, by simp, ?_⟩
      simp [pendingAtExit, hcurrent, BinaryHeap.entries_of_empty hempty]
    · obtain ⟨c, hc⟩ := Option.ne_none_iff_exists'.mp hcurrent
      obtain ⟨d₁, hfinish, hdrained⟩ := finish_of_error hc hrc hvalid hroom
      refine ⟨_, exec_exitPath_of_left hpc hfinish rfl hdrained.currentChunk hdrained.chunks, rfl,
        hdrained.currentChunk, hdrained.chunks, ?_⟩
      obtain ⟨sigs, hsigs, hcodes, hids⟩ := hdrained.signals
      refine ⟨⟨c.id, c.ctxt, d.rc, 0, d.mem⟩ :: sigs, ?_, ?_, ?_⟩
      · show d₁.signals = _
        rw [hsigs]
        simp [answerCurrent, signalReadThread, chunkDelete]
      · rw [List.forall_mem_cons]
        exact ⟨hrc, fun s hs => hcodes s hs ▸ hrc⟩
      · simp only [pendingAtExit, hc, Option.toList_some, List.mapIdx_nil, List.append_nil]
        exact hids.cons (c.id, c.ctxt)

/-- No source has been found for the chunk in hand. -/
theorem exit_answered_busy :
    ∃ d', exec (step 4) { new ebusy (fun _ => 0) with
          pc := .leaving, currentChunk := some (chunkNew 0 ⟨0, 4, 0, 0⟩) } (exitPath []) = some d' ∧
      AnsweredAtExit { new ebusy (fun _ => 0) with
          pc := .leaving, currentChunk := some (chunkNew 0 ⟨0, 4, 0, 0⟩) } [] d' :=
  (exit_answered_iff 4 { new ebusy (fun _ => 0) with
      pc := .leaving, currentChunk := some (chunkNew 0 ⟨0, 4, 0, 0⟩) } [] rfl
    BinaryHeap.new_valid (Nat.zero_le _)).mpr ⟨rfl, .inr ⟨nofun, by decide⟩⟩

/-- A request comes in between the timeout of `chunk_get_next` and the lock. -/
theorem exit_not_answered_timeout :
    ∃ d, exec (step 4) (new 0 fun _ => 0)
        [.loopHead, .getNext 0, .wake true, .gotNext, .chunkAdd ⟨0, 4, 0, 0⟩] = some d ∧
      d.pc = .leaving ∧ d.chunks.used = 1 ∧
      ¬ ∃ d', exec (step 4) d (exitPath []) = some d' ∧ AnsweredAtExit d [] d' := by
  have hrun : (exec (step 4) (new 0 fun _ => 0)
      [.loopHead, .getNext 0, .wake true, .gotNext, .chunkAdd ⟨0, 4, 0, 0⟩]).map
        (fun d => (d.pc, d.chunks.used, d.finish.map (·.pc))) =
      some (.leaving, 1, some .aborted) := by decide +kernel
  obtain ⟨d, hexec, hd⟩ := Option.map_eq_some_iff.mp hrun
  obtain ⟨hpc, hused, hfinish⟩ : d.pc = .leaving ∧ d.chunks.used = 1 ∧
      d.finish.map (·.pc) = some .aborted := by simpa using hd
  refine ⟨d, hexec, hpc, hused, ?_⟩
  intro h
  obtain ⟨d', hexit, hanswered⟩ := h
  obtain ⟨-, d₁, hleft, hpc₁, -⟩ := exec_exitPath_deleted hexit hanswered.deleted
  -- the assertion at the exit has failed
  rw [hleft, Option.map_some, hpc₁] at hfinish
  cases hfinish

end Fsfuse.Native.Downloader
