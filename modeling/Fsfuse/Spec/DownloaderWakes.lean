import Fsfuse.ForStd.Simulation
import Fsfuse.Native.DownloaderWaiting
import Fsfuse.Spec.DownloaderQueue

/-!
# No chunk waits on a sleeping downloader

The downloader whose thread sleeps on `chunks_cond` refines the one whose thread may return from
its wait at any time. And while it sleeps its queue is empty: a chunk that is added wakes it, and
it goes to sleep only with the mutex in hand and nothing in the queue.
-/

namespace Fsfuse.Native.WaitDownloader

open Transition

variable {size : Nat} {d d' : WaitDownloader} {l : Label}

/-! ### The steps -/

@[simp] theorem settled_toDownloader (chunksCond : CondVar Unit) (d : Downloader) :
    (settled chunksCond d).toDownloader = d := by
  rw [settled]
  split <;> rfl

/-- The steps of the thread that have nothing to do with the wait. -/
def Busy : Downloader.Label → Prop
  | .chunkAdd _ | .getNext _ | .wake _ => False
  | _ => True

/-- A step is one of the thread at work, a call of `downloader_chunk_add`, or one of
    `chunk_get_next`. -/
theorem busy_or (l : Downloader.Label) :
    Busy l ∨ (∃ r, l = .chunkAdd r) ∨ (∃ usec, l = .getNext usec) ∨
      ∃ timedOut, l = .wake timedOut := by
  cases l with
  | chunkAdd r => exact .inr (.inl ⟨r, rfl⟩)
  | getNext usec => exact .inr (.inr (.inl ⟨usec, rfl⟩))
  | wake timedOut => exact .inr (.inr (.inr ⟨timedOut, rfl⟩))
  | loopHead | gotNext | chooseSource _ | block _ | consume | fetched _ | finish
  | threadDelete => exact .inl trivial

/-- A step of the thread at work leaves the condition variable alone. -/
theorem step_plain {l : Downloader.Label} (hl : Busy l)
    (hstep : d.step size (.plain l) = some d') :
    d.toDownloader.step size l = some d'.toDownloader ∧ d'.chunksCond = d.chunksCond := by
  cases l with
  | chunkAdd _ | getNext _ | wake _ => exact hl.elim
  | loopHead | gotNext | chooseSource _ | block _ | consume | fetched _ | finish | threadDelete =>
    obtain ⟨d₁, h₁, rfl⟩ := Option.map_eq_some_iff.mp hstep
    exact ⟨h₁, rfl⟩

/-- `chunk_get_next` puts the thread to sleep if it waits. -/
theorem step_getNext {usec : Nat} (hstep : d.step size (.plain (.getNext usec)) = some d') :
    ∃ d₁, d.toDownloader.step size (.getNext usec) = some d₁ ∧ d' = settled d.chunksCond d₁ := by
  obtain ⟨d₁, h₁, rfl⟩ := Option.map_eq_some_iff.mp hstep
  exact ⟨d₁, h₁, rfl⟩

/-- The wait returns only when the thread is awake, and then it is not waiting any longer. -/
theorem step_wake {timedOut : Bool} (hstep : d.step size (.plain (.wake timedOut)) = some d') :
    () ∉ d.chunksCond.asleep ∧ ∃ d₁, d.toDownloader.step size (.wake timedOut) = some d₁ ∧
      d' = settled (d.chunksCond.leave ()) d₁ := by
  simp only [step, Option.ite_none_left_eq_some, Option.map_eq_some_iff] at hstep
  obtain ⟨hawake, d₁, h₁, rfl⟩ := hstep
  exact ⟨hawake, d₁, h₁, rfl⟩

/-- `downloader_chunk_add` queues the chunk and signals, unless its assertion fails. -/
theorem step_chunkAdd {r : Request} {signalled : Option Unit}
    (hstep : d.step size (.chunkAdd r signalled) = some d') :
    d.toDownloader.step size (.chunkAdd r) = some d'.toDownloader ∧
      (d'.pc = .aborted ∨ d.chunksCond.signal signalled = some d'.chunksCond) := by
  simp only [step, Option.bind_eq_bind, Option.bind_eq_some_iff] at hstep
  obtain ⟨d₁, h₁, hstep⟩ := hstep
  -- where the assertion fails nothing is signalled
  split at hstep
  · rename_i habort
    obtain ⟨-, hstep⟩ := Option.ite_none_right_eq_some.mp hstep
    obtain rfl := Option.some.inj hstep
    exact ⟨h₁, .inl habort⟩
  · obtain ⟨chunksCond, hsignal, rfl⟩ := Option.map_eq_some_iff.mp hstep
    exact ⟨h₁, .inr hsignal⟩

/-- A step with the condition variable is a step without, or none at all. -/
theorem step_followed (hstep : d.step size l = some d') :
    ∃ ls, exec (Downloader.step size) d.toDownloader ls = some d'.toDownloader := by
  -- each step is one of the thread that is not woken, or none
  have hone : ∀ l', d.toDownloader.step size l' = some d'.toDownloader →
      ∃ ls, exec (Downloader.step size) d.toDownloader ls = some d'.toDownloader := by
    intro l' h
    exact ⟨[l'], by rw [exec_cons, h]; rfl⟩
  cases l with
  | plain l =>
    obtain hbusy | ⟨r, rfl⟩ | ⟨usec, rfl⟩ | ⟨timedOut, rfl⟩ := busy_or l
    · exact hone _ (step_plain hbusy hstep).1
    · cases hstep
    · obtain ⟨d₁, h₁, rfl⟩ := step_getNext hstep
      exact hone _ (by rw [h₁, settled_toDownloader])
    · obtain ⟨-, d₁, h₁, rfl⟩ := step_wake hstep
      exact hone _ (by rw [h₁, settled_toDownloader])
  | chunkAdd r signalled => exact hone _ (step_chunkAdd hstep).1
  -- waking up is no step of that thread
  | wakeUp =>
    obtain ⟨chunksCond, -, rfl⟩ := Option.map_eq_some_iff.mp hstep
    exact ⟨[], rfl⟩

/-! ### The sleeper -/

/-- Who waits on `chunks_cond`. -/
def waiters : Pc → List Unit
  | .waiting _ => [()]
  | _ => []

/-- The invariant: the thread waits on `chunks_cond` exactly while it is in
    `pthread_cond_timedwait`, and not asleep while a chunk is queued. -/
def Attended (d : WaitDownloader) : Prop :=
  d.Running → d.chunksCond.waiting = waiters d.pc ∧
    d.chunksCond.NoneLost fun _ => d.chunks.used ≠ 0

/-- Who is not in the wait is not among those waiting. -/
theorem waiters_of_awake {pc : Pc} (hpc : ∀ site, pc ≠ .waiting site) : waiters pc = [] := by
  cases pc with
  | waiting site => exact absurd rfl (hpc site)
  | _ => rfl

/-- A new downloader does not sleep. -/
theorem new_attended (rc : Int) (mem : Memory) : Attended (new rc mem) :=
  fun _ => ⟨rfl, fun _ h => by cases h⟩

/-- No step of the thread but those of `chunk_get_next` begins or ends in the wait. -/
theorem waiters_of_busy {d d' : Downloader} {l : Downloader.Label} (hl : Busy l)
    (hstep : d.step size l = some d') : waiters d.pc = [] ∧ waiters d'.pc = [] := by
  -- whatever the thread does besides `chunk_get_next`, it is in no wait
  cases l with
  | chunkAdd _ | getNext _ | wake _ => exact hl.elim
  | loopHead =>
    obtain ⟨hpc, rfl⟩ := Downloader.step_loopHead.mp hstep
    refine ⟨by rw [hpc]; rfl, ?_⟩
    rw [Downloader.loopHead]
    split
    · rfl
    · simp only
      split <;> rfl
  | gotNext =>
    obtain ⟨site, timedOut, chunk, hpc, rfl⟩ := Downloader.step_gotNext.mp hstep
    refine ⟨by rw [hpc]; rfl, ?_⟩
    cases site <;> cases Downloader.chunkGetNextResult timedOut chunk <;> rfl
  | chooseSource found =>
    obtain ⟨hpc, rfl⟩ := Downloader.step_chooseSource.mp hstep
    refine ⟨by rw [hpc]; rfl, ?_⟩
    rw [Downloader.chooseSource]
    split <;> rfl
  | block data =>
    obtain ⟨hpc, rfl⟩ := Downloader.step_block.mp hstep
    refine ⟨by rw [hpc]; rfl, ?_⟩
    rw [Downloader.bufConsumer]
    split <;> rfl
  | consume =>
    obtain ⟨buf, c, hpc, -, rfl⟩ := Downloader.step_consume.mp hstep
    refine ⟨by rw [hpc]; rfl, ?_⟩
    rw [Downloader.bufConsumerRound]
    split
    · simp only
      split
      · rfl
      · split
        · rfl
        · split <;> rfl
    · rfl
  | fetched rc =>
    obtain ⟨hpc, rfl⟩ := Downloader.step_fetched.mp hstep
    refine ⟨by obtain hpc | hpc := hpc <;> rw [hpc] <;> rfl, ?_⟩
    rw [Downloader.fetched]
    simp only
    split <;> rfl
  | finish =>
    obtain ⟨hpc, hfinish⟩ := Downloader.step_finish.mp hstep
    refine ⟨by rw [hpc]; rfl, ?_⟩
    obtain ⟨-, ⟨-, rfl⟩ | ⟨-, ⟨_, _, -, rfl⟩ | ⟨-, rfl⟩⟩⟩ | ⟨-, ⟨-, rfl⟩ | ⟨_, _, -, -, rfl⟩⟩ :=
      Downloader.finish_cases hfinish
    all_goals rfl
  | threadDelete =>
    obtain ⟨hpc, rfl⟩ := Downloader.step_threadDelete.mp hstep
    refine ⟨by rw [hpc]; rfl, ?_⟩
    rw [Downloader.threadDelete]
    split <;> rfl

/-- The thread goes to sleep only if the queue is empty. -/
theorem settled_attended {chunksCond : CondVar Unit} {d : Downloader}
    (hnone : chunksCond.waiting = []) (hempty : waiters d.pc ≠ [] → d.chunks.used = 0) :
    Attended (settled chunksCond d) := by
  intro _
  -- nobody sleeps before
  have hasleep : chunksCond.asleep = [] := (List.append_eq_nil_iff.mp hnone).1
  rw [settled]
  split
  · rename_i site hpc
    rw [hpc] at hempty
    refine ⟨?_, CondVar.noneLost_of_not_ready fun _ _ hne => hne (hempty (List.cons_ne_nil _ _))⟩
    rw [hpc, CondVar.waiting_wait, hnone]
    rfl
  · rename_i hpc
    refine ⟨?_, fun u hu => ?_⟩
    · rw [waiters_of_awake hpc]
      exact hnone
    · rw [hasleep] at hu
      cases hu

/-- What `chunk_get_next` waits with is an empty queue. -/
theorem empty_of_waiters {d d' : Downloader} {l : Downloader.Label} (hl : ¬ Busy l)
    (hadd : ∀ r, l ≠ .chunkAdd r) (hstep : d.step size l = some d') (hpc : waiters d'.pc ≠ []) :
    d'.chunks.used = 0 := by
  -- the heap was empty when the thread went to wait
  obtain hbusy | ⟨r, rfl⟩ | ⟨usec, rfl⟩ | ⟨timedOut, rfl⟩ := busy_or l
  · exact absurd hbusy hl
  · exact absurd rfl (hadd r)
  · obtain ⟨site, -, hnext⟩ := Downloader.step_getNext.mp hstep
    obtain ⟨_, _, _, -, rfl⟩ | ⟨hempty, ⟨-, rfl⟩ | ⟨-, rfl⟩⟩ := Downloader.chunkGetNext_cases hnext
    · exact absurd rfl hpc
    · exact hempty
    · exact absurd rfl hpc
  · obtain ⟨site, -, hwake⟩ := Downloader.step_wake.mp hstep
    obtain ⟨_, _, _, -, rfl⟩ | ⟨hempty, ⟨-, rfl⟩ | ⟨-, rfl⟩⟩ :=
      Downloader.chunkGetNextWake_cases hwake
    · exact absurd rfl hpc
    · exact absurd rfl hpc
    · exact hempty

/-- Every step leaves no chunk to a thread that sleeps. -/
theorem step_attended (h : Attended d) (hstep : d.step size l = some d') : Attended d' := by
  cases l with
  | plain l =>
    obtain hbusy | ⟨r, rfl⟩ | ⟨usec, rfl⟩ | ⟨timedOut, rfl⟩ := busy_or l
    · obtain ⟨h₁, hcond⟩ := step_plain hbusy hstep
      obtain ⟨hbefore, hafter⟩ := waiters_of_busy hbusy h₁
      have hnone : d.chunksCond.waiting = [] := (h (Downloader.running_of_step h₁)).1.trans hbefore
      intro _
      rw [hcond, hafter]
      refine ⟨hnone, fun u hu => ?_⟩
      rw [(List.append_eq_nil_iff.mp hnone).1] at hu
      cases hu
    · cases hstep
    · obtain ⟨d₁, h₁, rfl⟩ := step_getNext hstep
      obtain ⟨site, hpc, -⟩ := Downloader.step_getNext.mp h₁
      have hnone := (h (Downloader.running_of_step h₁)).1
      rw [hpc] at hnone
      exact settled_attended hnone (empty_of_waiters id (fun _ => Downloader.Label.noConfusion) h₁)
    · obtain ⟨hawake, d₁, h₁, rfl⟩ := step_wake hstep
      obtain ⟨site, hpc, -⟩ := Downloader.step_wake.mp h₁
      have hone := (h (Downloader.running_of_step h₁)).1
      rw [hpc] at hone
      refine settled_attended ?_ (empty_of_waiters id (fun _ => Downloader.Label.noConfusion) h₁)
      rw [CondVar.waiting_leave hawake, hone]
      rfl
  | chunkAdd r signalled =>
    obtain ⟨h₁, hadd⟩ := step_chunkAdd hstep
    obtain ⟨hrun, hadded⟩ := Downloader.step_chunkAdd.mp h₁
    intro hrun'
    have hsignal := hadd.resolve_left hrun'.2
    have hpc : d'.pc = d.pc := by
      obtain ⟨-, _, -, heq⟩ | heq := Downloader.chunkAdd_cases hadded
      · rw [heq]
      · exact absurd (by rw [heq]; rfl) hrun'.2
    refine ⟨?_, CondVar.noneLost_of_signal hsignal⟩
    -- at most one waits, so whoever waits still does
    have hperm := CondVar.waiting_signal hsignal
    rw [(h hrun).1] at hperm
    rw [hpc]
    unfold waiters at hperm ⊢
    split at hperm
    · exact List.perm_singleton.mp hperm
    · exact List.perm_nil.mp hperm
  | wakeUp =>
    obtain ⟨chunksCond, hwake, rfl⟩ := Option.map_eq_some_iff.mp hstep
    intro hrun
    refine ⟨?_, CondVar.noneLost_of_wake hwake⟩
    have hperm := CondVar.waiting_wake hwake
    rw [(h hrun).1] at hperm
    show chunksCond.waiting = waiters d.pc
    unfold waiters at hperm ⊢
    split at hperm
    · exact List.perm_singleton.mp hperm
    · exact List.perm_nil.mp hperm

/-! ### Runs -/

/-- The steps of a run are steps of the downloader without the condition variable. -/
theorem exec_new_followed {rc : Int} {mem : Memory} {ls : List Label}
    (h : exec (step size) (new rc mem) ls = some d) :
    ∃ ls', exec (Downloader.step size) (Downloader.new rc mem) ls' = some d.toDownloader := by
  have hstep : ∀ (d : WaitDownloader) (t : Downloader) l d', d.toDownloader = t →
      step size d l = some d' →
      ∃ ls' t', exec (Downloader.step size) t ls' = some t' ∧ d'.toDownloader = t' := by
    rintro d _ l d' rfl hstep
    obtain ⟨ls', hexec⟩ := step_followed hstep
    exact ⟨ls', _, hexec, rfl⟩
  obtain ⟨ls', _, hexec, rfl⟩ := exec_simulated hstep rfl h
  exact ⟨ls', hexec⟩

/-- Every run is also one of the downloader without the condition variable; and while a chunk is
    queued, and no more than the heap has room for, a thread that is in its wait is awake, and takes
    a chunk as soon as it has the mutex. -/
theorem exec_new_attended {rc : Int} {mem : Memory} {ls : List Label}
    (h : exec (step size) (new rc mem) ls = some d) :
    (∃ ls', exec (Downloader.step size) (Downloader.new rc mem) ls' = some d.toDownloader) ∧
      ∀ site, d.pc = .waiting site → 0 < d.chunks.used → d.chunks.used ≤ 2 ^ 30 →
        ∀ timedOut, ∃ c d', d.step size (.plain (.wake timedOut)) = some d' ∧
          d'.pc = .returning site timedOut (some c) := by
  obtain ⟨ls', hexec⟩ := exec_new_followed h
  refine ⟨⟨ls', hexec⟩, ?_⟩
  intro site hpc hqueued hlive timedOut
  have hattended : Attended d :=
    exec_invariant (fun _ _ _ h hs => step_attended h hs) (new_attended rc mem) h
  have hrun : d.Running := by rw [Downloader.Running, hpc]; simp
  obtain ⟨hwaiting, hlost⟩ := hattended hrun
  rw [hpc] at hwaiting
  -- there is only one to wait, who has been woken if asleep
  have hawake : () ∉ d.chunksCond.asleep := by
    intro hasleep
    obtain ⟨u, hu⟩ := List.exists_mem_of_ne_nil _ (hlost () hasleep hqueued.ne')
    have hnodup : d.chunksCond.waiting.Nodup := by
      rw [hwaiting]
      exact List.nodup_singleton _
    exact (List.disjoint_of_nodup_append hnodup) hasleep hu
  have hvalid := (Downloader.exec_new_queue hexec).valid
  obtain ⟨r, chunks, hpop⟩ := BinaryHeap.trypop_isSome hvalid hlive
  obtain ⟨-, x, rfl, -⟩ := BinaryHeap.trypop_spec hpop hqueued
  have hstep : d.toDownloader.step size (.wake timedOut) = some
      { d.toDownloader with chunks := chunks, pc := .returning site timedOut (some x.value) } := by
    refine Downloader.step_wake.mpr ⟨site, hpc, ?_⟩
    simp only [Downloader.chunkGetNextWake, hpop, Option.bind_eq_bind, Option.bind_some,
      Option.pure_def]
  have hwake : d.step size (.plain (.wake timedOut)) =
      (d.toDownloader.step size (.wake timedOut)).map (settled (d.chunksCond.leave ())) :=
    if_neg hawake
  rw [hwake, hstep]
  exact ⟨x.value, _, rfl, by rw [settled_toDownloader]⟩

/-- A chunk is added while the thread sleeps. -/
theorem exec_new_attended_added :
    ∃ d, exec (step 10) (new 0 fun _ => 0) [.plain .loopHead, .plain (.getNext 0),
        .chunkAdd ⟨0, 4, 100, 0⟩ (some ())] = some d ∧
      (∃ ls', exec (Downloader.step 10) (Downloader.new 0 fun _ => 0) ls' = some d.toDownloader) ∧
      ∀ timedOut, ∃ c d', d.step 10 (.plain (.wake timedOut)) = some d' ∧
        d'.pc = .returning .main timedOut (some c) := by
  have hrun : (exec (step 10) (new 0 fun _ => 0) [.plain .loopHead, .plain (.getNext 0),
      .chunkAdd ⟨0, 4, 100, 0⟩ (some ())]).map (fun d => (d.pc, d.chunks.used)) =
      some (.waiting .main, 1) := by decide +kernel
  obtain ⟨d, hexec, hd⟩ := Option.map_eq_some_iff.mp hrun
  obtain ⟨hpc, hused⟩ := Prod.mk.inj hd
  obtain ⟨hfollowed, hattended⟩ := exec_new_attended hexec
  exact ⟨d, hexec, hfollowed, hattended .main hpc (by omega) (by omega)⟩

end Fsfuse.Native.WaitDownloader
