import Fsfuse.ForStd.Transition
import Fsfuse.Native.ReadRequests
import Fsfuse.Spec.DownloaderAnswers
import Fsfuse.Spec.DownloaderData

/-!
# Every read is replied to once

`chunk_done` runs at most once for each read, finds the context that the read has allocated for it,
and replies to the request the read was made for. But each time it also gives up a copy of the
file's direntry, and so the direntry is gone after as many replies as it had copies: from there on
nothing more can be read.

* `thread_matched` — a step of the thread, with the callbacks it runs;
* `step_thread_iff` — when it finds all it uses;
* `exec_new_repliedOnce` — what holds in every run.
-/

namespace Fsfuse.Native

open Transition

/-! ### Answers go to the context of their request -/

namespace Downloader

variable {size : Nat} {d d' : Downloader} {c : Chunk}

/-- The chunk has the context of the request it was made for. -/
def From (added : List Request) (id ctxt : Nat) : Prop := ∃ r, added[id]? = some r ∧ r.ctxt = ctxt

/-- All chunks have the contexts of their requests, and so have all answers. -/
structure Addressed (d : Downloader) : Prop where
  queued : ∀ x ∈ d.chunks.entries, From d.added x.value.id x.value.ctxt
  current : ∀ c ∈ d.currentChunk, From d.added c.id c.ctxt
  popped : ∀ site timedOut c, d.pc = .returning site timedOut (some c) → From d.added c.id c.ctxt
  signals : ∀ sig ∈ d.signals, From d.added sig.id sig.ctxt

/-- What a step answers, it answers last. -/
def Answers (d d' : Downloader) : Prop :=
  Addressed d' ∧ d.signals <+: d'.signals ∧ d'.added = d.added

/-- A new downloader has no chunks to answer. -/
theorem new_addressed (rc : Int) (mem : Memory) : Addressed (new rc mem) where
  queued := by simp [new]
  current := by simp [new]
  popped := by simp [new]
  signals := by simp [new]

/-- A step that pops, adds and answers nothing. -/
theorem Addressed.stay (h : Addressed d) (hchunks : d'.chunks = d.chunks)
    (hcurrent : ∀ c ∈ d'.currentChunk, From d.added c.id c.ctxt) (hadded : d'.added = d.added)
    (hpc : ∀ site timedOut c, d'.pc = .returning site timedOut (some c) →
      From d.added c.id c.ctxt)
    (hsignals : d'.signals = d.signals) : Answers d d' := by
  refine ⟨⟨?_, ?_, ?_, ?_⟩, hsignals ▸ List.prefix_rfl, hadded⟩
  · rw [hchunks, hadded]
    exact h.queued
  · rw [hadded]
    exact hcurrent
  · rw [hadded]
    exact hpc
  · rw [hsignals, hadded]
    exact h.signals

/-- A chunk that is added is addressed by its number. -/
theorem chunkAdd_addressed {r : Request} (h : Addressed d) (hstep : d.chunkAdd size r = some d') :
    Addressed d' := by
  obtain ⟨-, chunks, hadd, rfl⟩ | rfl := chunkAdd_cases hstep
  · obtain ⟨-, hperm, -⟩ := BinaryHeap.add_spec hadd
    have hmono : ∀ {id ctxt}, From d.added id ctxt → From (d.added ++ [r]) id ctxt := by
      rintro id ctxt ⟨r', hr', hctxt⟩
      exact ⟨r', getElem?_mono (List.prefix_append _ _) hr', hctxt⟩
    refine ⟨fun x hx => ?_, fun c hc => hmono (h.current c hc),
      fun site b c hc => hmono (h.popped site b c hc), fun sig hs => hmono (h.signals sig hs)⟩
    obtain rfl | hx := List.mem_cons.mp (hperm.mem_iff.mp hx)
    -- the new chunk has the number of those added before it
    · refine ⟨r, ?_, rfl⟩
      show (d.added ++ [r])[d.added.length]? = some r
      rw [List.getElem?_append_right (Nat.le_refl _), Nat.sub_self]
      rfl
    · exact hmono (h.queued x hx)
  · exact ⟨h.queued, h.current, nofun, h.signals⟩

/-- A pop puts a chunk in flight. -/
theorem popped_answers {site : Site} {timedOut : Bool} {key : Int} {chunks : BinaryHeap Chunk}
    (h : Addressed d) (hpop : d.chunks.trypop = some (some (key, c), chunks)) :
    Answers d { d with chunks := chunks, pc := .returning site timedOut (some c) } := by
  have hperm := BinaryHeap.trypop_some hpop
  refine ⟨⟨fun x hx => ?_, h.current, ?_, h.signals⟩, List.prefix_rfl, rfl⟩
  · exact h.queued x (hperm.mem_iff.mpr (List.mem_cons_of_mem _ hx))
  · intro site' b c' hc'
    obtain ⟨-, -, hc⟩ := Pc.returning.inj hc'
    obtain rfl := Option.some.inj hc
    exact h.queued ⟨key, c⟩ (hperm.mem_iff.mpr List.mem_cons_self)

/-- The chunk is answered, whatever becomes of it. -/
theorem Addressed.answered {rc : Int} {n : Nat} {mem : Memory} (h : Addressed d)
    (hc : From d.added c.id c.ctxt) :
    ∀ sig ∈ d.signals ++ [⟨c.id, c.ctxt, rc, n, mem⟩], From d.added sig.id sig.ctxt := by
  intro sig hsig
  obtain hsig | hsig := List.mem_append.mp hsig
  · exact h.signals sig hsig
  · obtain rfl := List.mem_singleton.mp hsig
    exact hc

/-- A round of `buf_consumer` answers addressed chunks. -/
theorem bufConsumerRound_answers {buf : Buf} (h : Addressed d)
    (hcurrent : d.currentChunk = some c) : Answers d (d.bufConsumerRound c buf) := by
  have hc : From d.added c.id c.ctxt := h.current c hcurrent
  -- copying leaves the chunk its number and its context
  have hcopied : ∀ n, ∀ c' ∈ some { c with
      bytesUsed := c.bytesUsed + n, start := c.start + n, buf := c.buf + n },
      From d.added c'.id c'.ctxt := by
    intro n c' hc'
    obtain rfl := Option.some.inj hc'
    exact hc
  simp only [bufConsumerRound]
  split
  · split
    · exact ⟨⟨h.queued, by simp, fun _ _ _ => Pc.noConfusion, h.answered hc⟩,
        List.prefix_append _ _, rfl⟩
    · split
      · exact h.stay rfl (hcopied _) rfl (fun _ _ _ => Pc.noConfusion) rfl
      · split
        · exact ⟨⟨h.queued, hcopied _, fun _ _ _ => Pc.noConfusion, h.answered hc⟩,
            List.prefix_append _ _, rfl⟩
        · exact h.stay rfl (hcopied _) rfl (fun _ _ _ => Pc.noConfusion) rfl
  · exact h.stay rfl h.current rfl (fun _ _ _ => Pc.noConfusion) rfl

/-- `chunks_empty` answers addressed chunks, and leaves none. -/
theorem chunksEmpty_answers {rounds : Nat} {rc : Int} (h : Addressed d)
    (hcurrent : d.currentChunk = none) (hstep : d.chunksEmpty rounds rc = some d') :
    Answers d d' ∧ d'.currentChunk = none := by
  induction rounds generalizing d with
  | zero =>
    obtain ⟨-, rfl⟩ | ⟨_, _, _, _, -, hrounds, -⟩ := chunksEmpty_cases hstep
    · exact ⟨⟨h, List.prefix_rfl, rfl⟩, hcurrent⟩
    · cases hrounds
  -- the first chunk is answered, and then the rest of the queue
  | succ rounds ih =>
    obtain ⟨-, rfl⟩ | ⟨key, c, chunks, rounds', hpop, hrounds, hrest⟩ := chunksEmpty_cases hstep
    · exact ⟨⟨h, List.prefix_rfl, rfl⟩, hcurrent⟩
    · obtain rfl := Nat.succ.inj hrounds
      have hperm := BinaryHeap.trypop_some hpop
      have hc : From d.added c.id c.ctxt :=
        h.queued ⟨key, c⟩ (hperm.mem_iff.mpr List.mem_cons_self)
      have h₁ : Addressed (({ d with chunks := chunks }.signalReadThread c rc 0).chunkDelete c) :=
        ⟨fun x hx => h.queued x (hperm.mem_iff.mpr (List.mem_cons_of_mem _ hx)), h.current,
          h.popped, h.answered hc⟩
      obtain ⟨⟨h', hsignals, hadded⟩, hnone⟩ := ih h₁ hcurrent hrest
      exact ⟨⟨h', (List.prefix_append _ _).trans hsignals, hadded⟩, hnone⟩

/-- The end of the thread answers addressed chunks. -/
theorem finish_answers (h : Addressed d) (hstep : d.finish = some d') : Answers d d' := by
  obtain ⟨-, ⟨-, rfl⟩ | ⟨-, ⟨e, chunks, hpop, rfl⟩ | ⟨-, rfl⟩⟩⟩ |
    ⟨-, ⟨-, rfl⟩ | ⟨c, d₁, hcurrent, hempty, rfl⟩⟩ := finish_cases hstep
  · exact h.stay rfl h.current rfl nofun rfl
  · have hperm := BinaryHeap.trypop_some hpop
    exact ⟨⟨fun x hx => h.queued x (hperm.mem_iff.mpr (List.mem_cons_of_mem _ hx)), h.current,
      nofun, h.signals⟩, List.prefix_rfl, rfl⟩
  · exact h.stay rfl h.current rfl nofun rfl
  · exact h.stay rfl h.current rfl nofun rfl
  -- first the chunk in hand, then those queued
  · have h₁ : Addressed (d.answerCurrent c) :=
      ⟨h.queued, nofun, h.popped, h.answered (h.current c hcurrent)⟩
    obtain ⟨⟨h', hsignals, hadded⟩, hnone⟩ := chunksEmpty_answers h₁ rfl hempty
    exact ⟨⟨h'.queued, h'.current, nofun, h'.signals⟩,
      (List.prefix_append _ _).trans hsignals, hadded⟩

/-- Every step of the thread answers addressed chunks. -/
theorem step_answers {l : Label} (h : Addressed d) (hl : ∀ r, l ≠ .chunkAdd r)
    (hstep : d.step size l = some d') : Answers d d' := by
  cases l with
  | chunkAdd r => exact absurd rfl (hl r)
  | loopHead =>
    obtain ⟨-, rfl⟩ := step_loopHead.mp hstep
    rw [loopHead]
    split
    · exact h.stay rfl h.current rfl (fun _ _ _ hpc => by cases hpc) rfl
    · simp only
      split <;> exact h.stay rfl h.current rfl (fun _ _ _ hpc => by cases hpc) rfl
  | getNext usec =>
    obtain ⟨site, -, hnext⟩ := step_getNext.mp hstep
    obtain ⟨key, c, chunks, hpop, rfl⟩ | ⟨-, ⟨-, rfl⟩ | ⟨-, rfl⟩⟩ := chunkGetNext_cases hnext
    · exact popped_answers h hpop
    · exact h.stay rfl h.current rfl (fun _ _ _ hpc => by cases hpc) rfl
    · exact h.stay rfl h.current rfl (fun _ _ _ hpc => by cases hpc) rfl
  | wake timedOut =>
    obtain ⟨site, -, hwake⟩ := step_wake.mp hstep
    obtain ⟨key, c, chunks, hpop, rfl⟩ | ⟨-, ⟨-, rfl⟩ | ⟨-, rfl⟩⟩ := chunkGetNextWake_cases hwake
    · exact popped_answers h hpop
    · exact h.stay rfl h.current rfl (fun _ _ _ hpc => by cases hpc) rfl
    · exact h.stay rfl h.current rfl (fun _ _ _ hpc => by cases hpc) rfl
  | gotNext =>
    -- the chunk that is returned has been popped, unless the wait has timed out
    obtain ⟨site, timedOut, chunk, hpc, rfl⟩ := step_gotNext.mp hstep
    have hgot : ∀ c ∈ chunkGetNextResult timedOut chunk, From d.added c.id c.ctxt := by
      intro c hc
      rw [chunkGetNextResult] at hc
      split at hc
      · cases hc
      · exact h.popped site timedOut c (by rw [hpc, show chunk = some c from hc])
    cases hres : chunkGetNextResult timedOut chunk with
    | none =>
      cases site <;>
        exact h.stay rfl (fun _ hc => by cases hc) rfl (fun _ _ _ hpc => by cases hpc) rfl
    | some c =>
      rw [hres] at hgot
      cases site <;> exact h.stay rfl hgot rfl (fun _ _ _ hpc => by cases hpc) rfl
  | chooseSource found =>
    obtain ⟨-, rfl⟩ := step_chooseSource.mp hstep
    rw [chooseSource]
    split <;> exact h.stay rfl h.current rfl (fun _ _ _ hpc => by cases hpc) rfl
  | block data =>
    obtain ⟨-, rfl⟩ := step_block.mp hstep
    rw [bufConsumer]
    split <;> exact h.stay rfl h.current rfl (fun _ _ _ hpc => by cases hpc) rfl
  -- only here and at the end of the thread a chunk is answered
  | consume =>
    obtain ⟨buf, c, -, hcurrent, rfl⟩ := step_consume.mp hstep
    exact bufConsumerRound_answers h hcurrent
  | fetched rc =>
    obtain ⟨-, rfl⟩ := step_fetched.mp hstep
    rw [fetched]
    refine h.stay rfl h.current rfl (fun site timedOut c hpc => ?_) rfl
    simp only at hpc
    split at hpc <;> cases hpc
  | finish => exact finish_answers h (step_finish.mp hstep).2
  | threadDelete =>
    obtain ⟨-, rfl⟩ := step_threadDelete.mp hstep
    rw [threadDelete]
    split <;> exact h.stay rfl h.current rfl (fun _ _ _ hpc => by cases hpc) rfl

end Downloader

namespace ReadRequests

variable {debug : Bool} {fileSize : Nat} {s s' : ReadRequests}

/-! ### Contexts -/

/-- What the downloader has been asked for is what FUSE has asked for. -/
structure Asks (fileSize : Nat) (s : ReadRequests) (i : Nat) (r : Request) (call : ReadCall) :
    Prop where
  asked : s.asked[i]? = some call
  ctxt : r.ctxt = i
  start : r.start = call.off
  end_ : r.end_ = call.off + OpenFile.readSize fileSize call.off call.size

/-- The reply is what `chunk_done` makes of the answer. -/
def Replied (s : ReadRequests) (x : Nat × Nat × Reply) (sig : Signal) : Prop :=
  x.1 = sig.id ∧ ∃ r call, s.downloader.added[sig.id]? = some r ∧ s.asked[sig.id]? = some call ∧
    x.2.1 = call.req ∧
    x.2.2 = if sig.rc = 0 then .buf (sig.mem.read r.buf sig.size) else .err sig.rc

/-- The invariant, with the answers `done` whose callbacks have run: their contexts have been
    freed and their replies made; the other contexts are as `fsfuse_read` has left them. -/
structure Matched (fileSize : Nat) (s : ReadRequests) (done : List Signal) : Prop where
  length : s.contexts.length = s.asked.length
  added : s.downloader.Running → s.downloader.added.length = s.contexts.length
  asks : ∀ i r, s.downloader.added[i]? = some r → ∃ call, Asks fileSize s i r call ∧
    s.contexts[i]? = some (if i ∈ done.map (·.id) then none else
      some ⟨call.req, OpenFile.readSize fileSize call.off call.size, r.buf⟩)
  replies : List.Forall₂ (Replied s) s.replies done

/-- What is done to the direntry does not matter to the contexts. -/
theorem Matched.direntry {done : List Signal} (h : Matched fileSize s done)
    (direntry : Option UInt32) : Matched fileSize { s with direntry } done :=
  ⟨h.length, h.added, fun i r hr => by
    obtain ⟨call, hasks, hcontext⟩ := h.asks i r hr
    exact ⟨call, ⟨hasks.asked, hasks.ctxt, hasks.start, hasks.end_⟩, hcontext⟩, h.replies⟩

/-- `chunk_done` finds its context, once, and gives up a copy of the direntry in the end. -/
theorem Matched.chunkDone {done : List Signal} {sig : Signal} (h : Matched fileSize s done)
    (hfrom : Downloader.From s.downloader.added sig.id sig.ctxt)
    (hnew : sig.id ∉ done.map (·.id)) :
    ∃ s₁, s.chunkDone sig = s₁.direntryDelete ∧ s₁.downloader = s.downloader ∧
      s₁.direntry = s.direntry ∧ Matched fileSize s₁ (done ++ [sig]) := by
  obtain ⟨r, hr, hctxt⟩ := hfrom
  obtain ⟨call, hasks, hlive⟩ := h.asks sig.id r hr
  rw [if_neg hnew] at hlive
  have hsame : sig.ctxt = sig.id := hctxt.symm.trans hasks.ctxt
  have hlt : sig.id < s.contexts.length := (List.getElem?_eq_some_iff.mp hlive).1
  let reply : Reply := if sig.rc = 0 then .buf (sig.mem.read r.buf sig.size) else .err sig.rc
  refine ⟨{ s with
    contexts := s.contexts.set sig.id none
    replies := s.replies ++ [(sig.id, call.req, reply)] }, ?_, rfl, rfl, ?_⟩
  · simp only [ReadRequests.chunkDone, hsame, hlive, Option.join_some, Option.bind_eq_bind,
      Option.bind_some, reply]
  · refine ⟨?_, fun hrun => ?_, fun i r' hr' => ?_, ?_⟩
    · rw [List.length_set]
      exact h.length
    · rw [List.length_set]
      exact h.added hrun
    · obtain ⟨call', hasks', hcontext⟩ := h.asks i r' hr'
      refine ⟨call', ⟨hasks'.asked, hasks'.ctxt, hasks'.start, hasks'.end_⟩, ?_⟩
      rw [List.map_append, List.map_singleton]
      by_cases hi : i = sig.id
      · subst hi
        rw [if_pos (List.mem_append_right _ (List.mem_singleton_self _)),
          List.getElem?_set_self hlt]
      -- the contexts of the others stay
      · rw [List.getElem?_set_ne (Ne.symm hi), hcontext]
        congr 1
        simp only [List.mem_append, List.mem_singleton, hi, or_false]
    · refine List.rel_append (List.Forall₂.imp ?_ h.replies) (.cons ⟨rfl, ?_⟩ .nil)
      · exact fun x sig' h' => h'
      · exact ⟨r, call, hr, hasks.asked, rfl, rfl⟩

/-! ### The direntry -/

/-- The copies that there are of the direntry. -/
def held (s : ReadRequests) : Nat := (s.direntry.getD 0).toNat

/-- A copy can be given up if there is one. -/
theorem direntryDelete_isSome_iff : s.direntryDelete.isSome ↔ 0 < s.held := by
  rw [direntryDelete, held]
  cases s.direntry with
  | none => simp [refCountDec, Except.toOption]
  | some refc =>
    rw [Option.getD_some]
    by_cases hzero : refc = 0
    · simp [refCountDec, Except.toOption, hzero]
    · have hpos : 0 < refc.toNat := UInt32.pos_iff_ne_zero.mpr hzero
      simp [refCountDec, Except.toOption, hzero, hpos]

/-- Then there is one less. -/
theorem direntryDelete_eq_some (h : s.direntryDelete = some s') :
    s'.held + 1 = s.held ∧ s' = { s with direntry := s'.direntry } := by
  rw [direntryDelete] at h
  cases hdirentry : s.direntry with
  | none => simp [hdirentry, refCountDec, Except.toOption] at h
  | some refc =>
    by_cases hzero : refc = 0
    · simp [hdirentry, refCountDec, Except.toOption, hzero] at h
    · have hrefc : (refc - 1).toNat + 1 = refc.toNat := by
        have hpos : 0 < refc.toNat := UInt32.pos_iff_ne_zero.mpr hzero
        rw [UInt32.toNat_sub_of_le refc 1 hpos, UInt32.toNat_one]
        omega
      simp only [hdirentry, refCountDec, hzero, if_false, Except.toOption, Option.bind_eq_bind,
        Option.bind_some, Option.pure_def, Option.some.injEq] at h
      obtain rfl := h
      rw [held, held, hdirentry, Option.getD_some]
      refine ⟨?_, rfl⟩
      -- the last copy is given up with the direntry itself
      by_cases hlast : refc - 1 = 0
      · rw [if_pos hlast, Option.getD_none, ← hlast]
        exact hrefc
      · rw [if_neg hlast, Option.getD_some]
        exact hrefc

/-- The callbacks of several answers find what they use if there is a copy of the direntry for each
    of them. -/
theorem Matched.foldlM {done sigs : List Signal} (h : Matched fileSize s done)
    (hfrom : ∀ sig ∈ sigs, Downloader.From s.downloader.added sig.id sig.ctxt)
    (hnodup : ((done ++ sigs).map (·.id)).Nodup) :
    ((sigs.foldlM ReadRequests.chunkDone s).isSome ↔ sigs.length ≤ s.held) ∧
      ∀ s', sigs.foldlM ReadRequests.chunkDone s = some s' →
        s'.downloader = s.downloader ∧ s'.held + sigs.length = s.held ∧
          Matched fileSize s' (done ++ sigs) := by
  induction sigs generalizing s done with
  | nil =>
    refine ⟨by simp, fun s' hs' => ?_⟩
    obtain rfl := Option.some.inj hs'
    exact ⟨rfl, rfl, by rwa [List.append_nil]⟩
  | cons sig sigs ih =>
    have hnew : sig.id ∉ done.map (·.id) := by
      rw [List.map_append, List.map_cons] at hnodup
      intro hmem
      exact (List.disjoint_of_nodup_append hnodup) hmem List.mem_cons_self
    obtain ⟨s₁, h₁, hd₁, hdirentry, hm₁⟩ := h.chunkDone (hfrom sig List.mem_cons_self) hnew
    have hheld : s₁.held = s.held := by rw [held, held, hdirentry]
    rw [List.append_cons] at hnodup ⊢
    rw [List.foldlM_cons, h₁, List.length_cons]
    cases hdelete : s₁.direntryDelete with
    | none =>
      -- the direntry has been freed, or has no copies
      have hnone : ¬ 0 < s₁.held := by
        rw [← direntryDelete_isSome_iff, hdelete]
        exact Bool.false_ne_true
      refine ⟨iff_of_false Bool.false_ne_true ?_, fun s' hs' => by cases hs'⟩
      omega
    | some s₂ =>
      obtain ⟨hone, heq⟩ := direntryDelete_eq_some hdelete
      have hd₂ : s₂.downloader = s.downloader := by rw [heq, ← hd₁]
      have hm₂ : Matched fileSize s₂ (done ++ [sig]) := by
        rw [heq]
        exact hm₁.direntry _
      obtain ⟨hsome, hrest⟩ := ih hm₂ (fun sig' hsig' => by
        rw [hd₂]
        exact hfrom sig' (List.mem_cons_of_mem _ hsig')) hnodup
      refine ⟨hsome.trans (by omega), fun s' hs' => ?_⟩
      obtain ⟨hd', hheld', hm'⟩ := hrest s' hs'
      exact ⟨hd'.trans hd₂, by omega, hm'⟩

/-- A reply has been made of an answer. -/
theorem Matched.exists_replied {done : List Signal} {x : Nat × Nat × Reply}
    (h : Matched fileSize s done) (hx : x ∈ s.replies) : ∃ sig ∈ done, Replied s x sig := by
  have hreplies := h.replies
  obtain ⟨n, hn, rfl⟩ := List.getElem_of_mem hx
  have hlen := hreplies.length_eq
  exact ⟨done[n], List.getElem_mem (hlen ▸ hn), hreplies.get hn (hlen ▸ hn)⟩

/-! ### Steps -/

/-- At the start nothing has been asked or replied. -/
theorem new_matched (direntry : Option UInt32) (rc : Int) (mem : Memory) :
    Matched fileSize (new direntry rc mem) [] where
  length := rfl
  added := fun _ => rfl
  asks := fun i r h => by cases h
  replies := .nil

/-- What was asked for before a read still is. -/
theorem Matched.asks_append {done : List Signal} {call' : ReadCall} {x : Option ReadContext}
    (h : Matched fileSize s done) (hasked : s'.asked = s.asked ++ [call'])
    (hcontexts : s'.contexts = s.contexts ++ [x]) {i : Nat} {r : Request}
    (hr : s.downloader.added[i]? = some r) :
    ∃ call, Asks fileSize s' i r call ∧ s'.contexts[i]? = some (if i ∈ done.map (·.id) then none
      else some ⟨call.req, OpenFile.readSize fileSize call.off call.size, r.buf⟩) := by
  obtain ⟨call, hasks, hcontext⟩ := h.asks i r hr
  refine ⟨call, ⟨?_, hasks.ctxt, hasks.start, hasks.end_⟩, ?_⟩
  · rw [hasked, List.getElem?_append_left (List.getElem?_eq_some_iff.mp hasks.asked).1]
    exact hasks.asked
  · rw [hcontexts, List.getElem?_append_left (List.getElem?_eq_some_iff.mp hcontext).1]
    exact hcontext

/-- What was replied stays so when more is asked. -/
theorem Replied.append {call' : ReadCall} {x : Nat × Nat × Reply} {sig : Signal}
    (h : Replied s x sig) (hasked : s'.asked = s.asked ++ [call'])
    (hadded : s.downloader.added <+: s'.downloader.added) : Replied s' x sig := by
  obtain ⟨hid, r, call, hr, hcall, hreply⟩ := h
  refine ⟨hid, r, call, Downloader.getElem?_mono hadded hr, ?_, hreply⟩
  rw [hasked, List.getElem?_append_left (List.getElem?_eq_some_iff.mp hcall).1]
  exact hcall

/-- `fsfuse_read` and `downloader_chunk_add`. -/
theorem read_matched {req size off buf : Nat} (h : Matched fileSize s s.downloader.signals)
    (haddressed : Downloader.Addressed s.downloader)
    (hstep : s.step debug fileSize (.read req size off buf) = some s') :
    s.downloader.step fileSize (.chunkAdd (OpenFile.readRequest fileSize size off buf
        s.contexts.length)) = some s'.downloader ∧
      s'.held = s.held ∧ s'.replies = s.replies ∧
      Matched fileSize s' s'.downloader.signals := by
  simp only [step, fsfuseRead, Option.bind_eq_bind, Option.bind_eq_some_iff, Option.pure_def,
    Option.some.injEq] at hstep
  obtain ⟨_, -, d, hadd, rfl⟩ := hstep
  refine ⟨hadd, rfl, rfl, ?_⟩
  obtain ⟨hrun, hadd⟩ := Downloader.step_chunkAdd.mp hadd
  have hlength : (s.contexts ++
      [some (⟨req, OpenFile.readSize fileSize off size, buf⟩ : ReadContext)]).length =
      (s.asked ++ [(⟨req, size, off⟩ : ReadCall)]).length := by
    rw [List.length_append, List.length_append, h.length]
    rfl
  obtain ⟨-, chunks, -, rfl⟩ | rfl := Downloader.chunkAdd_cases hadd
  · refine ⟨hlength, fun _ => ?_, fun i r hr => ?_, ?_⟩
    · rw [List.length_append, List.length_append, h.added hrun]
      rfl
    · obtain hlt | heq := Nat.lt_or_eq_of_le
        (Nat.le_of_lt_succ (by simpa using (List.getElem?_eq_some_iff.mp hr).1))
      · rw [List.getElem?_append_left hlt] at hr
        exact h.asks_append rfl rfl hr
      -- the new request: nothing of its number has been answered
      · have hnew : i ∉ s.downloader.signals.map (·.id) := by
          rw [List.mem_map]
          rintro ⟨sig, hsig, rfl⟩
          obtain ⟨r', hr', -⟩ := haddressed.signals sig hsig
          exact absurd (List.getElem?_eq_some_iff.mp hr').1 (by omega)
        subst heq
        rw [List.getElem?_append_right (Nat.le_refl _), Nat.sub_self] at hr
        obtain rfl := Option.some.inj hr
        have hcontexts := h.added hrun
        refine ⟨⟨req, size, off⟩, ⟨?_, hcontexts.symm, rfl, rfl⟩, ?_⟩
        · show (s.asked ++ [_])[s.downloader.added.length]? = _
          rw [hcontexts, h.length, List.getElem?_append_right (Nat.le_refl _), Nat.sub_self]
          rfl
        · show (s.contexts ++ [_])[s.downloader.added.length]? = _
          rw [if_neg hnew, hcontexts, List.getElem?_append_right (Nat.le_refl _), Nat.sub_self]
          rfl
    · exact List.Forall₂.imp (fun x sig hx => hx.append rfl (List.prefix_append _ _)) h.replies
  · exact ⟨hlength, fun hrun' => absurd rfl hrun'.2, fun i r hr => h.asks_append rfl rfl hr,
      List.Forall₂.imp (fun x sig hx => hx.append rfl List.prefix_rfl) h.replies⟩

/-- The thread's own steps add no chunks. -/
theorem threadStep_eq_some {d d' : Downloader} {l : Downloader.Label}
    (h : OpenFile.threadStep fileSize d l = some d') :
    d.step fileSize l = some d' ∧ ∀ r, l ≠ .chunkAdd r := by
  cases l with
  | chunkAdd r => cases h
  | _ => exact ⟨h, fun _ => Downloader.Label.noConfusion⟩

/-- What a step of the thread uses of the direntry is there: the step may look at it, and needs a
    copy for each callback that it runs, and one if it deletes the downloader. -/
def Lasts (debug : Bool) (s : ReadRequests) (l : Downloader.Label) (d : Downloader) : Prop :=
  (usesDirentry debug s.downloader l → s.direntry ≠ none) ∧
    d.signals.length - s.downloader.signals.length +
      (if dropsDirentry s.downloader l then 1 else 0) ≤ s.held

/-- A step of the downloader's thread goes through, with the callbacks that it runs, if what they
    use of the direntry is there. -/
theorem thread_matched {l : Downloader.Label} {d : Downloader}
    (h : Matched fileSize s s.downloader.signals)
    (haddressed : Downloader.Addressed s.downloader)
    (hthread : OpenFile.threadStep fileSize s.downloader l = some d) (hnodup : d.answered.Nodup) :
    ((s.step debug fileSize (.thread l)).isSome ↔ Lasts debug s l d) ∧
      ∀ s', s.step debug fileSize (.thread l) = some s' →
        s'.downloader = d ∧ Matched fileSize s' d.signals ∧
          s'.held + (d.signals.length - s.downloader.signals.length +
            (if dropsDirentry s.downloader l then 1 else 0)) = s.held := by
  obtain ⟨hstep, hl⟩ := threadStep_eq_some hthread
  obtain ⟨haddressed', ⟨sigs, hsigs⟩, hadded⟩ := Downloader.step_answers haddressed hl hstep
  have hd : Matched fileSize { s with downloader := d } s.downloader.signals := by
    -- the chunks that were added and what was replied are as they were
    refine ⟨h.length, fun _ => ?_, fun i r hr => ?_, ?_⟩
    · rw [hadded]
      exact h.added (Downloader.running_of_step hstep)
    · obtain ⟨call, hasks, hcontext⟩ := h.asks i r (hadded ▸ hr)
      exact ⟨call, ⟨hasks.asked, hasks.ctxt, hasks.start, hasks.end_⟩, hcontext⟩
    · refine List.Forall₂.imp (fun x sig hx => ?_) h.replies
      obtain ⟨hid, r, call, hr, hcall, hreply⟩ := hx
      exact ⟨hid, r, call, hadded ▸ hr, hcall, hreply⟩
  -- every new signal is for a chunk that was added
  have hfrom : ∀ sig ∈ sigs, Downloader.From d.added sig.id sig.ctxt :=
    fun sig hsig => haddressed'.signals sig (hsigs ▸ List.mem_append_right _ hsig)
  rw [Downloader.answered, ← hsigs] at hnodup
  have hlength : d.signals.length - s.downloader.signals.length = sigs.length := by
    rw [← hsigs, List.length_append, Nat.add_sub_cancel_left]
  obtain ⟨hsome, hfold⟩ := hd.foldlM hfrom hnodup
  have hheld : ({ s with downloader := d } : ReadRequests).held = s.held := rfl
  rw [hheld] at hsome hfold
  rw [Lasts, hlength, ← hsigs]
  simp only [step, hthread, Option.bind_eq_bind, Option.bind_some]
  rw [← hsigs, List.drop_left]
  by_cases huses : usesDirentry debug s.downloader l = true ∧ s.direntry = none
  · -- it looks at what has been freed
    rw [if_pos huses]
    exact ⟨iff_of_false Bool.false_ne_true fun hlasts => hlasts.1 huses.1 huses.2,
      fun s' hs' => by cases hs'⟩
  · rw [if_neg huses]
    have hthere : usesDirentry debug s.downloader l = true → s.direntry ≠ none :=
      fun hu hn => huses ⟨hu, hn⟩
    -- each signal runs a `chunk_done`, which costs a copy
    cases hfold' : sigs.foldlM chunkDone { s with downloader := d } with
    | none =>
      have hnone : ¬ sigs.length ≤ s.held := by
        rw [← hsome, hfold']
        exact Bool.false_ne_true
      refine ⟨iff_of_false Bool.false_ne_true fun hlasts => ?_,
        fun s' hs' => by cases hs'⟩
      have := hlasts.2
      omega
    | some s₁ =>
      obtain ⟨hd₁, hheld₁, hm₁⟩ := hfold s₁ hfold'
      rw [Option.bind_some]
      by_cases hdrops : dropsDirentry s.downloader l
      -- the end of the thread costs one more
      · rw [if_pos hdrops, if_pos hdrops, direntryDelete_isSome_iff]
        refine ⟨⟨fun hpos => ⟨hthere, by omega⟩, fun hlasts => ?_⟩, fun s' hs' => ?_⟩
        · have := hlasts.2
          omega
        · obtain ⟨hone, heq⟩ := direntryDelete_eq_some hs'
          refine ⟨?_, ?_, by omega⟩
          · rw [heq]
            exact hd₁
          · rw [heq]
            exact hm₁.direntry _
      · rw [if_neg hdrops, if_neg hdrops]
        refine ⟨iff_of_true rfl ⟨hthere, by omega⟩, fun s' hs' => ?_⟩
        obtain rfl := Option.some.inj hs'
        exact ⟨hd₁, hm₁, by omega⟩

/-! ### Runs -/

/-- What holds in every run: the run of the downloader, and the contexts. -/
structure Kept (fileSize : Nat) (rc : Int) (mem : Memory) (s : ReadRequests) : Prop where
  run : ∃ ls, exec (Downloader.step fileSize) (.new rc mem) ls = some s.downloader
  addressed : Downloader.Addressed s.downloader
  matched : Matched fileSize s s.downloader.signals

/-- No chunk is answered twice. -/
theorem answered_nodup {rc : Int} {mem : Memory} {ls : List Downloader.Label} {d : Downloader}
    (h : exec (Downloader.step fileSize) (.new rc mem) ls = some d) : d.answered.Nodup := by
  obtain ⟨sigs, hconserved⟩ := Downloader.exec_new_conserved h
  have hnodup := hconserved.answered
  rw [Downloader.answered_after] at hnodup
  exact hnodup.of_append_right

/-- The run of the downloader goes on. -/
theorem exec_thread {rc : Int} {mem : Memory} {d : Downloader} {l : Downloader.Label}
    (h : Kept fileSize rc mem s) (hstep : s.downloader.step fileSize l = some d) :
    ∃ ls, exec (Downloader.step fileSize) (.new rc mem) ls = some d := by
  obtain ⟨ls, hexec⟩ := h.run
  refine ⟨ls ++ [l], ?_⟩
  rw [exec_concat, hexec]
  exact hstep

/-- A step of the thread goes through if what it uses of the direntry is there. -/
theorem Kept.thread {rc : Int} {mem : Memory} {d : Downloader} {l : Downloader.Label}
    (h : Kept fileSize rc mem s) (hthread : OpenFile.threadStep fileSize s.downloader l = some d) :
    ((s.step debug fileSize (.thread l)).isSome ↔ Lasts debug s l d) ∧
      ∀ s', s.step debug fileSize (.thread l) = some s' → Kept fileSize rc mem s' ∧
        s'.downloader = d ∧
          s'.held + (d.signals.length - s.downloader.signals.length +
            (if dropsDirentry s.downloader l then 1 else 0)) = s.held := by
  obtain ⟨hstep, hl⟩ := threadStep_eq_some hthread
  obtain ⟨ls, hexec⟩ := exec_thread h hstep
  obtain ⟨hiff, hm⟩ := thread_matched h.matched h.addressed hthread (answered_nodup hexec)
  refine ⟨hiff, fun s' hs' => ?_⟩
  obtain ⟨rfl, hm', hheld⟩ := hm s' hs'
  exact ⟨⟨⟨ls, hexec⟩, (Downloader.step_answers h.addressed hl hstep).1, hm'⟩, rfl, hheld⟩

/-- Whatever step is made keeps it so. -/
theorem step_kept {rc : Int} {mem : Memory} {l : Label} (h : Kept fileSize rc mem s)
    (hstep : s.step debug fileSize l = some s') : Kept fileSize rc mem s' := by
  cases l with
  | read req size off buf =>
    obtain ⟨hadd, -, -, hm'⟩ := read_matched h.matched h.addressed hstep
    exact ⟨exec_thread h hadd,
      Downloader.chunkAdd_addressed h.addressed (Downloader.step_chunkAdd.mp hadd).2, hm'⟩
  | thread l =>
    obtain ⟨d, hthread, -⟩ := Option.bind_eq_some_iff.mp hstep
    exact ((h.thread hthread).2 s' hstep).1
  | others direntry =>
    rw [step, Option.ite_none_left_eq_some] at hstep
    obtain rfl := Option.some.inj hstep.2
    exact ⟨h.run, h.addressed, h.matched.direntry direntry⟩

/-- It is so in every run. -/
theorem exec_new_kept {direntry : Option UInt32} {rc : Int} {mem : Memory} {ls : List Label}
    (h : exec (step debug fileSize) (new direntry rc mem) ls = some s) :
    Kept fileSize rc mem s :=
  exec_invariant (fun _ _ _ h hs => step_kept h hs)
    ⟨⟨[], rfl⟩, Downloader.new_addressed rc mem, new_matched direntry rc mem⟩ h

/-- The replies are the answers of the downloader. -/
theorem Kept.replied {rc : Int} {mem : Memory} (h : Kept fileSize rc mem s) :
    s.replies.map (·.1) = s.downloader.answered :=
  List.forall₂_eq_eq_eq ▸ List.forall₂_map_left_iff.mpr
    (List.forall₂_map_right_iff.mpr (h.matched.replies.imp fun _ _ hx => hx.1))

/-- While nobody else touches the direntry, each reply costs a copy of it. -/
theorem held_add_replies {direntry : Option UInt32} {rc : Int} {mem : Memory} {ls : List Label}
    (hothers : ∀ l ∈ ls, ∀ direntry', l ≠ .others direntry')
    (h : exec (step debug fileSize) (new direntry rc mem) ls = some s)
    (hrun : s.downloader.Running) : s.held + s.replies.length = (direntry.getD 0).toNat := by
  have hlength : ∀ {s : ReadRequests}, Kept fileSize rc mem s →
      s.replies.length = s.downloader.signals.length := fun hkept =>
    hkept.matched.replies.length_eq
  refine prefix_induction (P := fun _ s => s.downloader.Running →
    s.held + s.replies.length = (direntry.getD 0).toNat) (fun _ => rfl) ?_ ls s List.prefix_rfl
    h hrun
  intro pre s₁ l s₂ hpre hexec hstep hinv hrun₂
  have hkept := exec_new_kept hexec
  have hkept₂ := step_kept hkept hstep
  rw [hlength hkept] at hinv
  rw [hlength hkept₂]
  cases l with
  | others direntry' =>
    exact absurd rfl (hothers _ (hpre.subset (List.mem_append_right _ List.mem_cons_self)) _)
  | read req size off buf =>
    obtain ⟨hadd, hheld, hreplies, -⟩ := read_matched hkept.matched hkept.addressed hstep
    rw [← hlength hkept₂, hheld, hreplies, hlength hkept]
    exact hinv (Downloader.running_of_step hadd)
  | thread l =>
    obtain ⟨d, hthread, -⟩ := Option.bind_eq_some_iff.mp hstep
    obtain ⟨hdownloader, hl⟩ := threadStep_eq_some hthread
    obtain ⟨-, rfl, hheld⟩ := (hkept.thread hthread).2 s₂ hstep
    have hdrops : ¬ dropsDirentry s₁.downloader l := by
      rintro ⟨rfl, -⟩
      -- a downloader that has been deleted runs no more
      obtain ⟨-, hdelete⟩ := Downloader.step_threadDelete.mp hdownloader
      rw [← hdelete, Downloader.threadDelete] at hrun₂
      split at hrun₂
      · exact hrun₂.1 rfl
      · exact hrun₂.2 rfl
    rw [if_neg hdrops] at hheld
    have hprefix := (Downloader.step_answers hkept.addressed hl hdownloader).2.1.length_le
    have := hinv (Downloader.running_of_step hdownloader)
    omega

end ReadRequests

end Fsfuse.Native
