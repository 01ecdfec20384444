import Fsfuse.ForStd.Transition
import Fsfuse.Native.OpenFile
import Fsfuse.Spec.BinaryHeapCorrect

/-!
# The downloader of an open file

An open file needs its downloader until it is released, but the downloader's thread
decides for itself when to exit. It does not as long as it stays in its loop: no wait
at the head of the loop times out, a source is always found, and no transfer fails.
A pause between two reads that outlasts the timeout is enough to lose the downloader.
-/

namespace Fsfuse.Native.OpenFile

open Transition

variable {fileSize : Nat} {d d' : Downloader} {f f' : OpenFile}

/-- The downloader of an open file has not run `thread_delete`. -/
def Live : OpenFile → Prop
  | .opened d => d.pc ≠ .deleted
  | .closed | .released _ => True

/-- While the file is open, nothing happens that makes the thread leave its loop. -/
def StaysInLoop : OpenFile → Label → Prop
  | .opened d, .thread (.wake true) => d.pc ≠ .waiting .main
  | .opened _, .thread (.chooseSource found) => found = true
  | .opened _, .thread (.fetched rc) => rc = 0
  | _, _ => True

instance : ∀ f, DecidablePred (StaysInLoop f)
  | .opened d, .thread (.wake true) => inferInstanceAs (Decidable (d.pc ≠ .waiting .main))
  | .opened _, .thread (.chooseSource found) => inferInstanceAs (Decidable (found = true))
  | .opened _, .thread (.fetched rc) => inferInstanceAs (Decidable (rc = 0))
  | .opened _, .thread (.wake false) | .opened _, .thread (.chunkAdd _)
  | .opened _, .thread .loopHead | .opened _, .thread (.getNext _) | .opened _, .thread .gotNext
  | .opened _, .thread (.block _) | .opened _, .thread .consume | .opened _, .thread .finish
  | .opened _, .thread .threadDelete | .opened _, .open_ _ _ _ _ | .opened _, .read _ _ _ _
  | .opened _, .release | .closed, _ | .released _, _ => inferInstanceAs (Decidable True)

/-! ### The thread stays in its loop -/

/-- The thread is in its loop, and about to stay there. -/
def InLoop : Pc → Prop
  | .leaving | .left | .deleted => False
  | .returning .main timedOut chunk => Downloader.chunkGetNextResult timedOut chunk ≠ none
  | _ => True

/-- The invariant: while the file is open, the thread is in its loop. -/
def LoopInv : OpenFile → Prop
  | .opened d => InLoop d.pc
  | .closed | .released _ => True

/-- A thread that is in its loop has not been deleted. -/
theorem LoopInv.live (h : LoopInv f) : Live f := by
  cases f with
  | opened d =>
    intro hpc
    rw [LoopInv, hpc] at h
    exact h
  | _ => trivial

/-- `downloader_chunk_add` leaves the thread in its loop. -/
theorem chunkAdd_inLoop {r : Request} (h : InLoop d.pc)
    (hstep : d.chunkAdd fileSize r = some d') : InLoop d'.pc := by
  rw [Downloader.chunkAdd] at hstep
  split at hstep
  · simp only [Option.bind_eq_bind, Option.bind_eq_some_iff, Option.pure_def,
      Option.some.injEq] at hstep
    obtain ⟨chunks, -, rfl⟩ := hstep
    exact h
  · obtain rfl := Option.some.inj hstep
    trivial

/-- `chunk_get_next` is in the loop. -/
theorem chunkGetNext_inLoop {site : Site} {usec : Nat}
    (hstep : d.chunkGetNext site usec = some d') : InLoop d'.pc := by
  simp only [Downloader.chunkGetNext, Option.bind_eq_bind, Option.bind_eq_some_iff] at hstep
  obtain ⟨⟨r, chunks⟩, -, hstep⟩ := hstep
  cases r with
  | some _ =>
    obtain rfl := Option.some.inj hstep
    -- the wait has not even begun, so the chunk is returned
    cases site <;> simp [InLoop, Downloader.chunkGetNextResult]
  | none =>
    simp only at hstep
    split at hstep <;> obtain rfl := Option.some.inj hstep <;> trivial

/-- When the wait of the main loop has not timed out the thread stays in the loop. -/
theorem chunkGetNextWake_inLoop {site : Site} {timedOut : Bool}
    (hstay : site = .main → timedOut = false)
    (hstep : d.chunkGetNextWake site timedOut = some d') : InLoop d'.pc := by
  simp only [Downloader.chunkGetNextWake, Option.bind_eq_bind, Option.bind_eq_some_iff] at hstep
  obtain ⟨⟨r, chunks⟩, -, hstep⟩ := hstep
  cases r with
  | some _ =>
    obtain rfl := Option.some.inj hstep
    -- the loop head has not timed out, and elsewhere `NULL` does not end the loop
    cases site <;> simp_all [InLoop, Downloader.chunkGetNextResult]
  | none =>
    simp only at hstep
    split at hstep <;> obtain rfl := Option.some.inj hstep
    · cases site <;> simp_all [InLoop]
    · trivial

/-- The head of the loop is in the loop. -/
theorem loopHead_inLoop (d : Downloader) : InLoop d.loopHead.pc := by
  rw [Downloader.loopHead]
  split
  · trivial
  · simp only
    split <;> trivial

/-- `buf_consumer` is called in the loop. -/
theorem bufConsumer_inLoop (d : Downloader) (data : List UInt8) :
    InLoop (d.bufConsumer data).pc := by
  rw [Downloader.bufConsumer]
  split <;> trivial

/-- A `chunk_get_next` that returns a chunk, or to `buf_consumer`, returns into the loop. -/
theorem gotNext_inLoop {site : Site} {timedOut : Bool} {chunk : Option Chunk}
    (h : InLoop (.returning site timedOut chunk)) :
    InLoop (d.gotNext site (Downloader.chunkGetNextResult timedOut chunk)).pc := by
  cases hres : Downloader.chunkGetNextResult timedOut chunk with
  | none =>
    cases site with
    -- only the loop head leaves the loop for want of a chunk
    | main => exact absurd hres h
    | _ => trivial
  | some c => cases site <;> trivial

/-- A round of `buf_consumer` stays in the loop. -/
theorem bufConsumerRound_inLoop (d : Downloader) (c : Chunk) (buf : Buf) :
    InLoop (d.bufConsumerRound c buf).pc := by
  simp only [Downloader.bufConsumerRound]
  split
  · split
    · trivial
    · split
      · trivial
      · split <;> trivial
  · trivial

/-- A step of the thread is one of the downloader. -/
theorem step_of_threadStep {l : Downloader.Label} (h : threadStep fileSize d l = some d') :
    d.step fileSize l = some d' := by
  cases l with
  | chunkAdd r => cases h
  | _ => exact h

/-- A step of the thread that nothing drives out of its loop. -/
theorem threadStep_inLoop {l : Downloader.Label} (h : InLoop d.pc)
    (hstay : StaysInLoop (.opened d) (.thread l))
    (hthread : threadStep fileSize d l = some d') : InLoop d'.pc := by
  have hstep := step_of_threadStep hthread
  cases l with
  | chunkAdd r => cases hthread
  | loopHead =>
    obtain ⟨-, rfl⟩ := Downloader.step_loopHead.mp hstep
    exact loopHead_inLoop d
  | getNext usec =>
    obtain ⟨site, -, hnext⟩ := Downloader.step_getNext.mp hstep
    exact chunkGetNext_inLoop hnext
  | wake timedOut =>
    obtain ⟨site, hpc, hwake⟩ := Downloader.step_wake.mp hstep
    refine chunkGetNextWake_inLoop (fun hsite => ?_) hwake
    cases timedOut with
    | false => rfl
    -- a timeout at the loop head is what the condition excludes
    | true => exact absurd (hsite ▸ hpc) hstay
  | gotNext =>
    obtain ⟨site, timedOut, chunk, hpc, rfl⟩ := Downloader.step_gotNext.mp hstep
    exact gotNext_inLoop (hpc ▸ h)
  | chooseSource found =>
    obtain ⟨-, rfl⟩ := Downloader.step_chooseSource.mp hstep
    obtain rfl : found = true := hstay
    trivial
  | block data =>
    obtain ⟨-, rfl⟩ := Downloader.step_block.mp hstep
    exact bufConsumer_inLoop _ data
  | consume =>
    obtain ⟨buf, c, -, -, rfl⟩ := Downloader.step_consume.mp hstep
    exact bufConsumerRound_inLoop d c buf
  | fetched rc =>
    obtain ⟨-, rfl⟩ := Downloader.step_fetched.mp hstep
    obtain rfl : rc = 0 := hstay
    trivial
  | finish =>
    obtain ⟨hpc, -⟩ := Downloader.step_finish.mp hstep
    -- the thread is not past its loop
    rw [hpc] at h
    exact h.elim
  | threadDelete =>
    obtain ⟨hpc, -⟩ := Downloader.step_threadDelete.mp hstep
    rw [hpc] at h
    exact h.elim

/-- Every step of the open file that stays in the loop keeps the invariant. -/
theorem step_loopInv {l : Label} (h : LoopInv f) (hstay : StaysInLoop f l)
    (hstep : f.step fileSize l = some f') : LoopInv f' := by
  cases f with
  | closed =>
    cases l with
    | open_ lookup flags rc mem =>
      simp only [step] at hstep
      split at hstep <;> obtain rfl := Option.some.inj hstep <;> trivial
    | _ => cases hstep
  | opened d =>
    cases l with
    | open_ lookup flags rc mem => cases hstep
    | read size off buf ctxt =>
      obtain ⟨d', hadd, rfl⟩ := Option.map_eq_some_iff.mp hstep
      exact chunkAdd_inLoop h (Downloader.step_chunkAdd.mp hadd).2
    | release =>
      simp only [step, Option.ite_none_left_eq_some, Option.some.injEq] at hstep
      -- nothing is asked of the thread of a released file
      exact hstep.2 ▸ trivial
    | thread l =>
      obtain ⟨d', hthread, rfl⟩ := Option.map_eq_some_iff.mp hstep
      exact threadStep_inLoop h hstay hthread
  | released d =>
    cases l with
    | thread l =>
      obtain ⟨d', -, rfl⟩ := Option.map_eq_some_iff.mp hstep
      trivial
    | _ => cases hstep

/-- A step after which the thread is still in its loop has not driven it out. -/
theorem staysInLoop_of_step {l : Label} (hstep : f.step fileSize l = some f')
    (h' : LoopInv f') : StaysInLoop f l := by
  cases f with
  | opened d =>
    cases l with
    | thread l =>
      obtain ⟨d', hthread, rfl⟩ := Option.map_eq_some_iff.mp hstep
      have hthread := step_of_threadStep hthread
      cases l with
      | wake timedOut =>
        cases timedOut with
        | false => trivial
        | true =>
          obtain ⟨site, hpc, hwake⟩ := Downloader.step_wake.mp hthread
          -- at the loop head the timeout returns `NULL`, whatever was popped
          intro hmain
          obtain rfl : site = .main := Pc.waiting.inj (hpc.symm.trans hmain)
          simp only [Downloader.chunkGetNextWake, Option.bind_eq_bind,
            Option.bind_eq_some_iff] at hwake
          obtain ⟨⟨r, chunks⟩, -, hwake⟩ := hwake
          cases r <;> obtain rfl := Option.some.inj hwake <;>
            exact absurd rfl h'
      | chooseSource found =>
        obtain ⟨-, rfl⟩ := Downloader.step_chooseSource.mp hthread
        cases found with
        | true => rfl
        -- without a source the thread leaves its loop
        | false => exact h'.elim
      | fetched rc =>
        obtain ⟨-, rfl⟩ := Downloader.step_fetched.mp hthread
        show rc = 0
        -- and so it does when a transfer fails
        by_contra hrc
        rw [LoopInv, Downloader.fetched, if_neg hrc] at h'
        exact h'
      | _ => trivial
    | _ => trivial
  | _ => trivial

/-! ### Runs -/

/-- The thread stays in its loop while the file is open exactly when no step of the run
    drives it out. -/
theorem exec_closed_inLoop_iff (fileSize : Nat) (ls : List Label) (f : OpenFile)
    (hexec : exec (step fileSize) .closed ls = some f) :
    Throughout (step fileSize) LoopInv .closed ls ↔
      StepsMeet (step fileSize) StaysInLoop .closed ls :=
  throughout_iff_stepsMeet (fun _ h => h) (fun _ _ _ => step_loopInv)
    (fun _ _ _ _ => staysInLoop_of_step) trivial hexec

/-- In a run in which nothing drives the thread out of its loop while the file is open,
    the downloader outlives the open file. -/
theorem exec_closed_live (fileSize : Nat) (ls : List Label)
    (hstay : StepsMeet (step fileSize) StaysInLoop .closed ls) :
    Throughout (step fileSize) Live .closed ls := by
  have hinv : Throughout (step fileSize) LoopInv .closed ls :=
    throughout_of_stepsMeet (fun _ _ _ => step_loopInv) trivial hstay
  exact fun pre f hpre hexec => (hinv pre f hpre hexec).live

/-- A file is opened, read and released, and its downloader times out afterwards. -/
theorem exec_closed_live_released :
    Throughout (step 2) Live .closed
      [.open_ (.ok .file) 0 0 fun _ => 0, .thread .loopHead, .thread (.getNext 0),
        .read 2 0 0 0, .thread (.wake false), .thread .gotNext, .thread (.chooseSource true),
        .thread (.block [1, 2]), .thread .consume, .thread (.fetched 0), .thread .loopHead,
        .thread (.getNext 0), .release, .thread (.wake true), .thread .gotNext,
        .thread .finish, .thread .threadDelete] :=
  exec_closed_live 2 _ (by decide +kernel)

/-- What a single pause does: an open file whose downloader waits for the next read
    loses it when the wait times out. -/
theorem exec_timeout_deleted (hpc : d.pc = .waiting .main) (hidle : d.chunks.used = 0) :
    ∃ d', exec (step fileSize) (.opened d) [.thread (.wake true), .thread .gotNext,
      .thread .finish, .thread .threadDelete] = some (.opened d') ∧ d'.pc = .deleted := by
  have hpop := BinaryHeap.trypop_empty hidle
  -- with and without the error of an earlier transfer, `currentChunk` being `NULL`
  by_cases hrc : d.rc = 0
  · simp [step, threadStep, Downloader.step, Downloader.chunkGetNextWake, Downloader.finish,
      Downloader.threadDelete, Downloader.gotNext, Downloader.chunkGetNextResult,
      BinaryHeap.deletable, hpc, hpop, hidle, hrc]
  · simp [step, threadStep, Downloader.step, Downloader.chunkGetNextWake, Downloader.finish,
      Downloader.threadDelete, Downloader.gotNext, Downloader.chunkGetNextResult,
      BinaryHeap.deletable, hpc, hpop, hidle, hrc]

/-- The file is opened and nothing is read from it until the timeout. -/
theorem exec_closed_not_live :
    ¬ Throughout (step 4) Live .closed
      [.open_ (.ok .file) 0 0 fun _ => 0, .thread .loopHead, .thread (.getNext 0),
        .thread (.wake true), .thread .gotNext, .thread .finish, .thread .threadDelete] := by
  intro hlive
  -- where the first three steps lead
  let waiting : Downloader :=
    { Downloader.new 0 fun _ => 0 with pc := .waiting .main, firstTime := false }
  obtain ⟨d, hexec, hpc⟩ : ∃ d, exec (step 4) (.opened waiting) [.thread (.wake true),
      .thread .gotNext, .thread .finish, .thread .threadDelete] = some (.opened d) ∧
      d.pc = .deleted := exec_timeout_deleted rfl rfl
  exact hlive _ (.opened d) List.prefix_rfl hexec hpc

end Fsfuse.Native.OpenFile
