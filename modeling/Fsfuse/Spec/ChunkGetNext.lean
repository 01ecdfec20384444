import Fsfuse.Spec.DownloaderQueue

/-!
# What chunk_get_next returns

`chunk_get_next` should return the pending chunk that starts first, and should do so however
long it has to wait.

The heap gives it a chunk of least key, and the key of a chunk is its start cut down to an
`int`. So it returns a first chunk as long as the least of the keys belong to the least of
the starts, which they do below `2 ^ 31`.

Its deadline is in a microsecond's time and some seconds, without a carry from the one to
the other. In the last microsecond of a second that is no time, and the wait for it fails.

* `servedInOrder_iff` — the sets of starts of which the first is returned;
* `chunkGetNext_passes_iff` — the times at which the assertion in it holds.
-/

namespace Fsfuse.Native.Downloader

open Transition

variable {size : Nat} {d d' : Downloader}

/-! ### The order of chunks -/

/-- Where the pending chunks start. -/
def pending (d : Downloader) : List Nat := d.chunks.entries.map (·.value.start)

/-- A step of `chunk_get_next` after which it returns a chunk. -/
def GetsNext (size : Nat) (d : Downloader) (c : Chunk) : Prop :=
  ∃ d' site timedOut chunk,
    ((∃ usec, d.step size (.getNext usec) = some d') ∨
      ∃ timedOut, d.step size (.wake timedOut) = some d') ∧
    d'.pc = .returning site timedOut chunk ∧ chunkGetNextResult timedOut chunk = some c

/-- However the chunks of a set of starts have come to be pending, whatever the file, the
    chunk returned then is the first of them. -/
def ServedInOrder (starts : List Nat) : Prop :=
  ∀ size rc mem ls d c, exec (step size) (new rc mem) ls = some d → d.pending.Perm starts →
    GetsNext size d c → ∀ start ∈ starts, c.start ≤ start

/-- A start whose key is the least is the least. -/
def LeastKeyFirst (starts : List Nat) : Prop :=
  ∀ a ∈ starts, (∀ b ∈ starts, offToInt a ≤ offToInt b) → ∀ b ∈ starts, a ≤ b

instance (starts : List Nat) : Decidable (LeastKeyFirst starts) :=
  inferInstanceAs (Decidable (∀ a ∈ starts, _ → ∀ b ∈ starts, a ≤ b))

/-- What is returned has been popped. -/
theorem GetsNext.trypop {c : Chunk} (h : GetsNext size d c) :
    ∃ key chunks, d.chunks.trypop = some (some (key, c), chunks) := by
  obtain ⟨d', site, timedOut, chunk, hstep, hpc, hresult⟩ := h
  -- a chunk is returned only if no timeout has come in between
  obtain ⟨hnot, rfl⟩ : timedOut = false ∧ chunk = some c := by
    rw [chunkGetNextResult] at hresult
    split at hresult
    · cases hresult
    · rename_i hnot
      exact ⟨Bool.eq_false_of_not_eq_true hnot, hresult⟩
  obtain ⟨usec, hstep⟩ | ⟨timedOut, hstep⟩ := hstep
  · obtain ⟨site', -, hnext⟩ := step_getNext.mp hstep
    obtain ⟨key, c', chunks, hpop, rfl⟩ | ⟨-, ⟨-, rfl⟩ | ⟨-, rfl⟩⟩ := chunkGetNext_cases hnext
    · obtain ⟨-, -, hc⟩ : site' = site ∧ false = _ ∧ some c' = some c := by simpa using hpc
      obtain rfl := Option.some.inj hc
      exact ⟨key, chunks, hpop⟩
    · simp at hpc
    · simp at hpc
  · obtain ⟨site', -, hwake⟩ := step_wake.mp hstep
    obtain ⟨key, c', chunks, hpop, rfl⟩ | ⟨-, ⟨-, rfl⟩ | ⟨-, rfl⟩⟩ := chunkGetNextWake_cases hwake
    · obtain ⟨-, -, hc⟩ : site' = site ∧ timedOut = _ ∧ some c' = some c := by simpa using hpc
      obtain rfl := Option.some.inj hc
      exact ⟨key, chunks, hpop⟩
    · simp at hpc
    · simp at hpc

/-- In a queue a chunk of least key is popped. -/
theorem Queue.trypop_least {chunks chunks' : BinaryHeap Chunk} {key : Int} {c : Chunk}
    (h : Queue chunks) (hpop : chunks.trypop = some (some (key, c), chunks')) :
    c.start ∈ chunks.entries.map (·.value.start) ∧
      ∀ start ∈ chunks.entries.map (·.value.start), offToInt c.start ≤ offToInt start := by
  have hpos : 0 < chunks.used := by
    by_contra hzero
    rw [BinaryHeap.trypop_empty (by omega)] at hpop
    simp at hpop
  obtain ⟨-, x, hx, hperm, hvalid⟩ := BinaryHeap.trypop_spec hpop hpos
  obtain ⟨-, rfl⟩ := Prod.mk.inj (Option.some.inj hx)
  have hmem : x ∈ chunks.entries := hperm.mem_iff.mpr List.mem_cons_self
  refine ⟨List.mem_map_of_mem hmem, fun start hstart => ?_⟩
  obtain ⟨y, hy, rfl⟩ := List.mem_map.mp hstart
  rw [← h.keys x hmem, ← h.keys y hy]
  exact (hvalid h.valid).2 y hy

/-- Starts whose least keys come first are served in their order. -/
theorem LeastKeyFirst.servedInOrder {starts : List Nat} (h : LeastKeyFirst starts) :
    ServedInOrder starts := by
  intro size rc mem ls d c hexec hpending hgets
  obtain ⟨key, chunks, hpop⟩ := hgets.trypop
  obtain ⟨hmem, hleast⟩ := (exec_new_queue hexec).trypop_least hpop
  exact h c.start (hpending.mem_iff.mp hmem)
    fun b hb => hleast b (hpending.mem_iff.mpr hb)

/-! ### Chunks returned out of order -/

/-- A request for no bytes at some place. -/
def emptyAt (start : Nat) : Request := ⟨start, start, 0, 0⟩

/-- Such a request is queued. -/
theorem step_emptyAt {start : Nat} {chunks : BinaryHeap Chunk} (hrun : d.Running)
    (hfit : start ≤ size)
    (hadd : d.chunks.add (offToInt start) (chunkNew d.added.length (emptyAt start)) = some chunks) :
    d.step size (.chunkAdd (emptyAt start)) =
      some { d with chunks := chunks, added := d.added ++ [emptyAt start] } := by
  rw [step_chunkAdd, chunkAdd, if_pos ⟨Nat.le_refl _, hfit, hfit⟩]
  refine ⟨hrun, ?_⟩
  show (d.chunks.add (offToInt start) (chunkNew d.added.length (emptyAt start))).bind _ = _
  rw [hadd]
  rfl

/-- Requests queued while the thread has not started yet. The first stays the root of the
    heap if none has a lesser key. -/
theorem exec_chunkAdds {key : Int} {c : Chunk} (hpc : d.pc = .loopHead)
    (hqueue : Queue d.chunks) (hpos : 0 < d.chunks.used) (hroot : d.chunks.node 0 = some ⟨key, c⟩)
    (starts : List Nat) (hfit : ∀ start ∈ starts, start ≤ size)
    (hle : ∀ start ∈ starts, key ≤ offToInt start)
    (hroom : d.chunks.used + starts.length ≤ 2 ^ 30) :
    ∃ chunks, exec (step size) d (starts.map fun start => .chunkAdd (emptyAt start)) =
        some { d with chunks := chunks, added := d.added ++ starts.map emptyAt } ∧
      Queue chunks ∧ chunks.used = d.chunks.used + starts.length ∧
      chunks.node 0 = some ⟨key, c⟩ ∧
      (chunks.entries.map (·.value.start)).Perm (starts ++ d.pending) := by
  induction starts generalizing d with
  | nil => exact ⟨d.chunks, by simp, hqueue, rfl, hroot, .refl _⟩
  | cons start starts ih =>
    simp only [List.forall_mem_cons, List.length_cons] at hfit hle hroom
    obtain ⟨chunks, hadd⟩ : ∃ chunks, d.chunks.add (offToInt start)
        (chunkNew d.added.length (emptyAt start)) = some chunks :=
      BinaryHeap.add_isSome hqueue.valid (by omega) _ _
    obtain ⟨hused, hperm, -⟩ := BinaryHeap.add_spec hadd
    have hstep : d.step size (.chunkAdd (emptyAt start)) =
        some { d with chunks := chunks, added := d.added ++ [emptyAt start] } :=
      step_emptyAt (by simp [Running, hpc]) hfit.1 hadd
    obtain ⟨chunks', hexec, hqueue', hused', hroot', hperm'⟩ :=
      ih (d := { d with chunks := chunks, added := d.added ++ [emptyAt start] }) hpc
        (hqueue.add (r := emptyAt start) (Nat.le_refl _) hadd)
        (show 0 < chunks.used by omega) (BinaryHeap.add_root hadd hpos hroot hle.1) hfit.2 hle.2
        (show chunks.used + starts.length ≤ 2 ^ 30 by omega)
    refine ⟨chunks', ?_, hqueue', ?_, hroot', hperm'.trans ?_⟩
    · rw [List.map_cons, exec_cons, hstep, Option.bind_some, hexec]
      simp
    · rw [hused', hused, List.length_cons]
      omega
    · -- what is pending now is the new start with those from before
      have hpending :
          (pending { d with chunks := chunks, added := d.added ++ [emptyAt start] }).Perm
            (start :: d.pending) := hperm.map _
      exact (hpending.append_left starts).trans List.perm_middle

/-- The chunks of a set of starts are pending, the chosen one at the root of the heap, and the
    thread asks for the next. -/
theorem exists_root (a : Nat) (starts : List Nat)
    (hleast : ∀ start ∈ starts, offToInt a ≤ offToInt start) (hroom : starts.length < 2 ^ 30) :
    ∃ size ls d c, exec (step size) (new 0 fun _ => 0) ls = some d ∧
      d.pending.Perm (a :: starts) ∧ GetsNext size d c ∧ c.start = a := by
  -- a file that is long enough
  obtain ⟨size, hsize⟩ : ∃ size, ∀ start ∈ a :: starts, start ≤ size :=
    ⟨(a :: starts).sum, fun start hstart => List.single_le_sum (by simp) start hstart⟩
  simp only [List.forall_mem_cons] at hsize
  obtain ⟨chunks, hadd⟩ : ∃ chunks, (BinaryHeap.new : BinaryHeap Chunk).add (offToInt a)
      (chunkNew 0 (emptyAt a)) = some chunks :=
    BinaryHeap.add_isSome BinaryHeap.new_valid (by decide) _ _
  obtain ⟨hused, hperm, -⟩ := BinaryHeap.add_spec hadd
  have hroot := BinaryHeap.add_root_of_empty hadd rfl
  have hone : chunks.used = 1 := hused
  have hqueue₁ : Queue chunks := new_queue.add (r := emptyAt a) (Nat.le_refl _) hadd
  let d₁ : Downloader := { new 0 fun _ => 0 with chunks := chunks, added := [emptyAt a] }
  have hstep : (new 0 fun _ => 0).step size (.chunkAdd (emptyAt a)) = some d₁ :=
    step_emptyAt (by simp [Running, new]) hsize.1 hadd
  have hpos : 0 < d₁.chunks.used := lt_of_lt_of_eq Nat.zero_lt_one hone.symm
  have hroom₁ : d₁.chunks.used + starts.length ≤ 2 ^ 30 := by
    show chunks.used + starts.length ≤ 2 ^ 30
    omega
  obtain ⟨chunks', hexec, hqueue, hused', hroot', hperm'⟩ :=
    exec_chunkAdds (d := d₁) rfl hqueue₁ hpos hroot starts hsize.2 hleast hroom₁
  -- the thread starts, and finds a chunk at once
  let d₂ : Downloader :=
    { d₁ with chunks := chunks', added := d₁.added ++ starts.map emptyAt, firstTime := false,
              pc := .getNext .main }
  have hused₂ : chunks'.used = 1 + starts.length := by rw [hused']; exact congrArg (· + _) hone
  obtain ⟨r, chunks₂, hpop⟩ : ∃ r chunks₂, chunks'.trypop = some (r, chunks₂) :=
    BinaryHeap.trypop_isSome hqueue.valid (by omega)
  obtain rfl := BinaryHeap.trypop_root hpop (by omega) hroot'
  refine ⟨size, .chunkAdd (emptyAt a) :: starts.map (fun start => .chunkAdd (emptyAt start)) ++
    [.loopHead], d₂, chunkNew 0 (emptyAt a), ?_, ?_, ?_, rfl⟩
  · rw [List.cons_append, exec_cons, hstep, Option.bind_some, exec_append, hexec]
    rfl
  · -- nothing was pending in the new heap
    have hpending : (pending d₁).Perm [a] := hperm.map _
    exact hperm'.trans ((hpending.append_left starts).trans (List.perm_append_singleton a starts))
  · refine ⟨{ d₂ with chunks := chunks₂, pc := .returning .main false (some _) }, .main, false,
      some (chunkNew 0 (emptyAt a)), .inl ⟨0, ?_⟩, rfl, rfl⟩
    rw [step_getNext]
    exact ⟨.main, rfl, by simp [chunkGetNext, d₂, hpop]⟩

/-- Starts that are served in their order have the least keys first. -/
theorem ServedInOrder.leastKeyFirst {starts : List Nat} (hroom : starts.length ≤ 2 ^ 30)
    (h : ServedInOrder starts) : LeastKeyFirst starts := by
  intro a ha hleast b hb
  -- the chunk that starts at `a` is queued first, and is the root of the heap from then on
  have hperm := List.perm_cons_erase ha
  obtain ⟨size, ls, d, c, hexec, hpending, hgets, rfl⟩ := exists_root a (starts.erase a)
    (fun start hstart => hleast start (List.mem_of_mem_erase hstart))
    (by have := hperm.length_eq; rw [List.length_cons] at this; omega)
  exact h size 0 _ ls d c hexec (hpending.trans hperm.symm) hgets b hb

/-- The chunk returned is always a first one of the pending chunks if the least keys of their
    starts are those of the least starts, and, as long as the heap has room for them, only
    then. -/
theorem servedInOrder_iff (starts : List Nat) :
    (LeastKeyFirst starts → ServedInOrder starts) ∧
      (starts.length ≤ 2 ^ 30 → ServedInOrder starts → LeastKeyFirst starts) :=
  ⟨LeastKeyFirst.servedInOrder, ServedInOrder.leastKeyFirst⟩

/-- Two reads on both sides of 2 GiB. -/
theorem not_servedInOrder_above : ¬ ServedInOrder [0, 2 ^ 31] := by
  intro h
  exact absurd (h.leastKeyFirst (by decide)) (by decide +kernel)

/-! ### Waiting -/

/-- The steps that are `chunk_get_next`'s own. -/
def IsGetNext : Label → Prop
  | .getNext _ | .wake _ => True
  | _ => False

/-- What can happen while it waits: others add chunks, and it wakes up. -/
def IsAddOrWake : Label → Prop
  | .chunkAdd _ | .wake _ => True
  | _ => False

/-- No step that `chunk_get_next` takes in a run fails an assertion. -/
def GetNextPasses (size : Nat) (d : Downloader) (ls : List Label) : Prop :=
  ∀ pre l s s', pre ++ [l] <+: ls → exec (step size) d pre = some s → s.step size l = some s' →
    IsGetNext l → s'.pc ≠ .aborted

/-- After a wait there is nothing left to fail. -/
theorem chunkGetNextWake_ne_aborted {site : Site} {timedOut : Bool}
    (h : d.chunkGetNextWake site timedOut = some d') : d'.pc ≠ .aborted := by
  obtain ⟨key, c, chunks, -, rfl⟩ | ⟨-, ⟨-, rfl⟩ | ⟨-, rfl⟩⟩ := chunkGetNextWake_cases h
  · exact nofun
  · exact nofun
  · exact nofun

/-- Before it, the deadline may be none. -/
theorem chunkGetNext_ne_aborted_iff {site : Site} {usec : Nat}
    (h : d.chunkGetNext site usec = some d') :
    d'.pc ≠ .aborted ↔ usec < 999999 ∨ 0 < d.chunks.used := by
  obtain ⟨key, c, chunks, hpop, rfl⟩ | ⟨hempty, ⟨hdeadline, rfl⟩ | ⟨hdeadline, rfl⟩⟩ :=
    chunkGetNext_cases h
  · refine iff_of_true nofun (.inr ?_)
    by_contra hzero
    rw [BinaryHeap.trypop_empty (by omega)] at hpop
    simp at hpop
  · rw [deadlineNsec] at hdeadline
    exact iff_of_true nofun (.inl (by omega))
  · rw [deadlineNsec] at hdeadline
    exact iff_of_false (fun hpc => hpc rfl) (by omega)

/-- A call of `chunk_get_next` cannot fail its assertion, whatever happens while it waits,
    exactly when it is not made with nothing pending in the last microsecond of a second.
    Its deadline is a time just before that microsecond. -/
theorem chunkGetNext_passes_iff (size : Nat) (d : Downloader) (site : Site)
    (hpc : d.pc = .getNext site) (tv : Timeval) (timeout : Int) :
    ((∀ ls, (∀ l ∈ ls, IsAddOrWake l) → GetNextPasses size d (.getNext tv.usec :: ls)) ↔
        tv.usec < 999999 ∨ 0 < d.chunks.used) ∧
      ((deadline tv timeout).nsec < 10 ^ 9 ↔ tv.usec < 999999) := by
  constructor
  · constructor
    · intro hpasses
      by_contra hnot
      obtain ⟨husec, hempty⟩ := not_or.mp hnot
      -- nothing is pending, so the wait is tried, and fails
      have hnext : d.chunkGetNext site tv.usec = some { d with pc := .aborted } := by
        have hdeadline : ¬ deadlineNsec tv.usec < 10 ^ 9 := by rw [deadlineNsec]; omega
        rw [chunkGetNext, BinaryHeap.trypop_empty (Nat.eq_zero_of_not_pos hempty)]
        exact if_neg hdeadline
      exact hpasses [] (by simp) [] (.getNext tv.usec) d _ List.prefix_rfl rfl
        (step_getNext.mpr ⟨site, hpc, hnext⟩) trivial rfl
    · intro hcond ls hls pre l s s' hpre hexec hstep hown
      cases pre with
      | nil =>
        obtain rfl : l = .getNext tv.usec := by simpa using hpre
        obtain rfl : d = s := by simpa using hexec
        obtain ⟨site', hpc', hnext⟩ := step_getNext.mp hstep
        exact (chunkGetNext_ne_aborted_iff hnext).mpr hcond
      | cons l₀ pre =>
        -- the later steps are wake-ups
        obtain ⟨-, hpre⟩ : l₀ = _ ∧ pre ++ [l] <+: ls := by simpa using hpre
        have hl := hls l (hpre.subset (by simp))
        cases l with
        | wake timedOut =>
          obtain ⟨site', -, hwake⟩ := step_wake.mp hstep
          exact chunkGetNextWake_ne_aborted hwake
        | getNext usec => exact hl.elim
        | _ => exact hown.elim
  · show (tv.usec + 1) * 1000 < 10 ^ 9 ↔ tv.usec < 999999
    omega

/-- The thread waits for its first chunk, with a second to go. -/
theorem chunkGetNext_passes_first :
    ((∀ ls, (∀ l ∈ ls, IsAddOrWake l) →
        GetNextPasses 0 { new 0 (fun _ => 0) with pc := .getNext .main } (.getNext 0 :: ls)) ↔
      0 < 999999 ∨ 0 < (BinaryHeap.new : BinaryHeap Chunk).used) ∧
      ((deadline ⟨1700000000, 0⟩ 30).nsec < 10 ^ 9 ↔ 0 < 999999) :=
  chunkGetNext_passes_iff 0 { new 0 (fun _ => 0) with pc := .getNext .main } .main rfl
    ⟨1700000000, 0⟩ 30

/-- A thread that comes to wait for its first chunk in the last microsecond of a second. -/
theorem chunkGetNext_not_passes_last_usec :
    ∃ d, exec (step 0) (new 0 fun _ => 0) [.loopHead] = some d ∧
      ¬ GetNextPasses 0 d [.getNext 999999] ∧
      ¬ (deadline ⟨1700000000, 999999⟩ 30).nsec < 10 ^ 9 := by
  let d : Downloader := { new 0 (fun _ => 0) with firstTime := false, pc := .getNext .main }
  have hstep : d.step 0 (.getNext 999999) = some d.abort := rfl
  have hfails : ¬ GetNextPasses 0 d [.getNext 999999] := fun h =>
    h [] _ d _ List.prefix_rfl rfl hstep trivial rfl
  exact ⟨d, rfl, hfails, by decide⟩

end Fsfuse.Native.Downloader
