import Fsfuse.Native.Fetcher
import Fsfuse.Spec.DownloaderMoves

/-!
# The download loop makes progress

An iteration of the loop that ends without an error should have answered a chunk, copied a byte
into the one in hand, or taken another in hand; if each does, there is no more to fetch after
finitely many of them.

The `rc` that ends an iteration says nothing about this. An iteration that finds a chunk in hand
makes progress just when the server sends something for that chunk (`Served`). An empty
response is a success too, and is asked for again and again.

* `progress_iff_served` — which iterations make progress;
* `fetches_le_work` — how many fetches there are if all do.
-/

namespace Fsfuse.Native.Downloader

open Transition

variable {size : Nat} {d d' : Downloader}

/-! ### Iterations -/

/-- From the head of the loop to its test with an `rc` of 0. Others may add chunks
    meanwhile. -/
structure Iteration (size : Nat) (d : Downloader) (ls : List Label) (d' : Downloader) : Prop where
  head : d.pc = .loopHead
  inside : ∀ rc, Label.fetched rc ∉ ls
  run : exec (step size) d (.loopHead :: ls ++ [.fetched 0]) = some d'

/-- A chunk has been signalled, another is current, or a byte has been copied into the current
    one. -/
def Progress (d d' : Downloader) : Prop :=
  d.signals.length < d'.signals.length ∨
    d'.currentChunk.map (·.id) ≠ d.currentChunk.map (·.id) ∨
    ∃ c c', d.currentChunk = some c ∧ d'.currentChunk = some c' ∧ c.bytesUsed < c'.bytesUsed

/-- A block that has something for the chunk: a byte if the chunk wants any, and anything
    otherwise. -/
def Serves (c : Chunk) : Label → Prop
  | .block data => c.start = c.end_ ∨ data ≠ [] ∧ c.start < c.end_
  | _ => False

/-- The server serves the chunk in hand at the head of the loop, if there is one. -/
def Served (d : Downloader) (ls : List Label) : Prop := ∀ c ∈ d.currentChunk, ∃ l ∈ ls, Serves c l

/-! ### Which iterations make progress -/

/-- The thread has `current_chunk` in hand, and it does not dangle. -/
def InHand : Pc → Prop
  | .loopHead | .chooseSource | .fetching | .stopped | .consuming _ => True
  | _ => False

/-- Since the head of the loop, with `n` signals behind it and the chunk `chunk` in hand, a
    chunk has been answered, or the one in hand has got on. -/
def Touched (n : Nat) (chunk : Option Chunk) (d : Downloader) : Prop :=
  n < d.signals.length ∨
    n = d.signals.length ∧ InHand d.pc ∧ ∃ c', d.currentChunk = some c' ∧
      ∀ c ∈ chunk, c'.id = c.id ∧ c.bytesUsed < c'.bytesUsed

/-- What a chunk has got is not lost again. -/
theorem Touched.move {n : Nat} {chunk : Option Chunk} {l : Label} (h : Touched n chunk d)
    (hmove : Move d l d') : Touched n chunk d' := by
  obtain hmore | ⟨hn, hhand, c', hcurrent, hc'⟩ := h
  · left
    cases hmove with
    | answers buf c _ sig _ _ _ _ _ hsignals =>
      rw [hsignals, List.length_append]
      exact Nat.lt_add_right _ hmore
    | _ => exact hmore
  · cases hmove with
    | added r chunks => exact .inr ⟨hn, hhand, c', hcurrent, hc'⟩
    | headInHand c => exact .inr ⟨hn, trivial, c', hcurrent, hc'⟩
    | source position => exact .inr ⟨hn, trivial, c', hcurrent, hc'⟩
    | blockInHand data position c => exact .inr ⟨hn, trivial, c', hcurrent, hc'⟩
    | stops buf c => exact .inr ⟨hn, trivial, c', hcurrent, hc'⟩
    | fetched hpc => exact .inr ⟨hn, trivial, c', hcurrent, hc'⟩
    | copies buf c mem offset pc _ hc _ _ hnext =>
      obtain rfl : c' = c := Option.some.inj (hcurrent.symm.trans hc)
      have hhand' : InHand pc := by
        obtain ⟨rfl, -⟩ | ⟨data, rfl, -⟩ := hnext <;> trivial
      refine .inr ⟨hn, hhand', _, rfl, fun c₀ hc₀ => ?_⟩
      obtain ⟨hid, hbytes⟩ := hc' c₀ hc₀
      exact ⟨hid, Nat.lt_add_right _ hbytes⟩
    | answers buf c _ sig _ _ _ _ _ hsignals =>
      left
      rw [hsignals, List.length_append, hn]
      exact Nat.lt_succ_self _
    -- the others start without a chunk in hand
    | popped _ _ _ _ _ _ _ hpc => rcases hpc with hpc | hpc <;> simp [InHand, hpc] at hhand
    | waits _ _ _ hpc => rcases hpc with hpc | hpc <;> simp [InHand, hpc] at hhand
    | timesOut _ _ _ hpc => rcases hpc with hpc | hpc <;> simp [InHand, hpc] at hhand
    | _ => simp_all [InHand]

/-- The loop has found no chunk in hand, and not got one yet. -/
structure Asking (n : Nat) (d : Downloader) : Prop where
  signals : d.signals.length = n
  pc : d.pc = .getNext .main ∨ d.pc = .waiting .main ∨
    ∃ timedOut chunk, d.pc = .returning .main timedOut chunk

/-- While a chunk is asked for a step leaves it so or touches it. -/
theorem Asking.move {n : Nat} {l : Label} (h : Asking n d) (hmove : Move d l d') :
    Asking n d' ∨ Touched n none d' := by
  have hpc := h.pc
  cases hmove with
  | added r chunks => exact .inl ⟨h.signals, h.pc⟩
  | popped l _ site timedOut key c chunks hsite =>
    obtain rfl : site = .main := by
      rcases hsite with hsite | hsite <;> simpa [hsite] using hpc
    exact .inl ⟨h.signals, .inr (.inr ⟨timedOut, some c, rfl⟩)⟩
  | waits l _ site hsite =>
    obtain rfl : site = .main := by
      rcases hsite with hsite | hsite <;> simpa [hsite] using hpc
    exact .inl ⟨h.signals, .inr (.inl rfl)⟩
  | timesOut l _ site hsite =>
    obtain rfl : site = .main := by
      rcases hsite with hsite | hsite <;> simpa [hsite] using hpc
    exact .inl ⟨h.signals, .inr (.inr ⟨true, none, rfl⟩)⟩
  | gotMain timedOut c _ => exact .inr (.inr ⟨h.signals.symm, trivial, c, rfl, by simp⟩)
  | fetched hfetch => rcases hfetch with hfetch | hfetch <;> simp [hfetch] at hpc
  | _ => simp_all

/-- The chunk `c` in hand at the head of the loop is as it was then; `served` says whether a
    block has come that has something for it. -/
structure Idle (n : Nat) (c : Chunk) (served : Prop) (d : Downloader) : Prop where
  signals : d.signals.length = n
  current : d.currentChunk = some c
  offset : d.downloadOffset = c.start
  pc : d.pc = .chooseSource ∧ ¬ served ∨ d.pc = .fetching ∧ ¬ served ∨
    ∃ buf, d.pc = .consuming buf ∧ buf.start = c.start ∧ buf.start ≤ buf.end_ ∧
      (served ↔ c.start = c.end_ ∨ buf.start < buf.end_ ∧ c.start < c.end_)

/-- While a block is consumed, the chunk wants something of it just when it is served. -/
theorem Idle.consuming {n : Nat} {c c' : Chunk} {served : Prop} {buf : Buf}
    (h : Idle n c served d) (hpc : d.pc = .consuming buf) (hcurrent : d.currentChunk = some c') :
    c' = c ∧ c.start = buf.start ∧ buf.start ≤ buf.end_ ∧
      (served ↔ c.start = c.end_ ∨ 0 < copyLen c buf) := by
  obtain ⟨hpc', -⟩ | ⟨hpc', -⟩ | ⟨buf', hpc', hstart, hle, hserved⟩ := h.pc
  · rw [hpc] at hpc'
    cases hpc'
  · rw [hpc] at hpc'
    cases hpc'
  · obtain rfl : buf = buf' := by simpa [hpc] using hpc'
    have hlen : 0 < copyLen c buf ↔ buf.start < buf.end_ ∧ c.start < c.end_ := by
      rw [copyLen]
      omega
    exact ⟨Option.some.inj (hcurrent.symm.trans h.current), hstart.symm, hle, by rw [hserved, hlen]⟩

/-- A chunk gets on when it is served, and only then. -/
theorem Idle.move {n : Nat} {c : Chunk} {served : Prop} {l : Label} (h : Idle n c served d)
    (hl : ∀ rc, l ≠ .fetched rc) (hmove : Move d l d') :
    Idle n c (served ∨ Serves c l) d' ∨ Touched n (some c) d' ∧ (served ∨ Serves c l) := by
  have hpc := h.pc
  have hcurrent := h.current
  cases hmove with
  | added r chunks => exact .inl ⟨h.signals, h.current, h.offset, by simpa [Serves] using h.pc⟩
  | source position hsource =>
    have hnot : ¬ served := by simpa [hsource] using hpc
    exact .inl ⟨h.signals, h.current, h.offset, .inr (.inl ⟨rfl, by simpa [Serves] using hnot⟩)⟩
  | blockInHand data position c' hfetch hc' =>
    have hnot : ¬ served := by simpa [hfetch] using hpc
    obtain rfl : c' = c := Option.some.inj (hc'.symm.trans hcurrent)
    refine .inl ⟨h.signals, h.current, h.offset, .inr (.inr ⟨_, rfl, h.offset, ?_, ?_⟩)⟩
    · exact Nat.le_add_right _ _
    · have hlen : d.downloadOffset < d.downloadOffset + data.length ↔ data ≠ [] := by
        rw [Nat.lt_add_right_iff_pos, List.length_pos_iff]
      simp [hnot, Serves, hlen]
  | stops buf c' hbuf hc' hstart =>
    obtain ⟨rfl, hmeet, -⟩ := h.consuming hbuf hc'
    exact absurd hmeet hstart
  | copies buf c' mem offset pc hbuf hc' hstart hend hnext =>
    obtain ⟨rfl, -, hle, hserved⟩ := h.consuming hbuf hc'
    by_cases hlen : 0 < copyLen c' buf
    -- some bytes are copied
    · have hhand : InHand pc := by
        obtain ⟨rfl, -⟩ | ⟨data, rfl, -⟩ := hnext <;> trivial
      have hmore : c'.bytesUsed < c'.bytesUsed + copyLen c' buf := Nat.lt_add_of_pos_right hlen
      refine .inr ⟨.inr ⟨h.signals.symm, hhand, _, rfl, ?_⟩, .inl (hserved.mpr (.inr hlen))⟩
      intro c hc
      obtain rfl := Option.mem_some.mp hc
      exact ⟨rfl, hmore⟩
    -- none are, and the chunk is as it was
    · have hzero : copyLen c' buf = 0 := Nat.eq_zero_of_not_pos hlen
      rw [hzero, Nat.add_zero] at hend
      have hnot : ¬ (served ∨ Serves c' .consume) := by
        rw [hserved]
        simp [Serves, hend, hlen]
      rw [hzero]
      obtain ⟨rfl, hoffset, hbufEnd⟩ | ⟨data, rfl, hoffset, hbufEnd⟩ := hnext
      · refine .inl ⟨h.signals, rfl, ?_, .inr (.inl ⟨rfl, hnot⟩)⟩
        show offset = c'.start
        omega
      · refine .inl ⟨h.signals, rfl, hoffset.trans h.offset, .inr (.inr ⟨_, rfl, ?_, ?_, ?_⟩)⟩
        · show buf.start + copyLen c' buf = c'.start
          omega
        · show buf.start + copyLen c' buf ≤ buf.end_
          omega
        · rw [hzero] at hbufEnd
          rw [copyLen] at hzero
          have hwants : ¬ c'.start < c'.end_ := by omega
          simp [hnot, hend, hwants]
  | answers buf c' _ sig hbuf hc' _ hend _ hsignals =>
    obtain ⟨rfl, -, -, hserved⟩ := h.consuming hbuf hc'
    have hmore : n < d'.signals.length := by
      rw [hsignals, List.length_append, h.signals]
      exact Nat.lt_succ_self _
    have hdone : c'.start = c'.end_ ∨ 0 < copyLen c' buf := by omega
    exact .inr ⟨.inl hmore, .inl (hserved.mpr hdone)⟩
  | fetched hfetch => exact absurd rfl (hl 0)
  | popped _ _ _ _ _ _ _ hsite => rcases hsite with hsite | hsite <;> simp [hsite] at hpc
  | waits _ _ _ hsite => rcases hsite with hsite | hsite <;> simp [hsite] at hpc
  | timesOut _ _ _ hsite => rcases hsite with hsite | hsite <;> simp [hsite] at hpc
  | _ => simp_all

/-- The same for all the steps up to the end of a transfer. -/
theorem Idle.exec {n : Nat} {c : Chunk} {served : Prop} {ls : List Label} (h : Idle n c served d)
    (hls : ∀ rc, Label.fetched rc ∉ ls) (hexec : exec (step size) d ls = some d')
    (hin : ¬ Left d'.pc) :
    Idle n c (served ∨ ∃ l ∈ ls, Serves c l) d' ∨
      Touched n (some c) d' ∧ (served ∨ ∃ l ∈ ls, Serves c l) := by
  induction ls generalizing d served with
  | nil =>
    obtain rfl : d = d' := by simpa using hexec
    exact .inl (by simpa using h)
  | cons l ls ih =>
    rw [exec_cons, Option.bind_eq_some_iff] at hexec
    obtain ⟨d₁, hstep, hrest⟩ := hexec
    have hl : ∀ rc, l ≠ .fetched rc := fun rc heq => hls rc (by simp [heq])
    have hls' : ∀ rc, Label.fetched rc ∉ ls := fun rc hmem => hls rc (List.mem_cons_of_mem l hmem)
    rcases step_move hstep with hleft | hmove
    · exact absurd (left_exec hleft hrest) hin
    · simp only [List.mem_cons, exists_eq_or_imp, ← or_assoc]
      rcases h.move hl hmove with hidle | ⟨htouched, hserved⟩
      · exact ih hidle hls' hrest
      · have hend : Touched n (some c) d' := exec_move_invariant (P := fun _ => True)
          (fun _ _ _ _ => Touched.move) (fun _ _ => trivial) htouched hrest hin
        exact .inr ⟨hend, .inl hserved⟩

/-- An iteration from its head to the end of the transfer, and the test of the loop. -/
theorem Iteration.cases {ls : List Label} (h : Iteration size d ls d') :
    ∃ d₁ d₂, Move d .loopHead d₁ ∧ exec (step size) d₁ ls = some d₂ ∧ ¬ Left d₂.pc ∧
      (d₂.pc = .fetching ∨ d₂.pc = .stopped) ∧ d' = { d₂ with rc := 0, pc := .loopHead } := by
  have hrun := h.run
  rw [exec_concat, Option.bind_eq_some_iff] at hrun
  obtain ⟨d₂, hbody, hfetched⟩ := hrun
  rw [exec_cons, Option.bind_eq_some_iff] at hbody
  obtain ⟨d₁, hhead, hbody⟩ := hbody
  obtain ⟨hpc, rfl⟩ := step_fetched.mp hfetched
  have hin : ¬ Left d₂.pc := by
    rcases hpc with hpc | hpc <;> simp [hpc, Left]
  rcases step_move hhead with hleft | hmove
  · exact absurd (left_exec hleft hbody) hin
  · exact ⟨d₁, d₂, hmove, hbody, hin, hpc, rfl⟩

/-- An iteration makes progress exactly when it starts without a chunk in hand, or the server
    serves that chunk. -/
theorem Iteration.progress_iff {ls : List Label} (h : Iteration size d ls d') :
    Progress d d' ↔ Served d ls := by
  obtain ⟨d₁, d₂, hhead, hbody, hin, hpc, rfl⟩ := h.cases
  cases hhead with
  | popped _ hl => exact hl.elim
  | waits _ hl => exact hl.elim
  | timesOut _ hl => exact hl.elim
  | head _ hnone =>
    have hasking : Asking d.signals.length
        { d with seek := false, firstTime := false, pc := .getNext .main } := ⟨rfl, .inl rfl⟩
    have hmove : ∀ s l s', Asking d.signals.length s ∨ Touched d.signals.length none s →
        Move s l s' → Asking d.signals.length s' ∨ Touched d.signals.length none s' :=
      fun s l s' hs hmove => hs.elim (fun hs => hs.move hmove) fun hs => .inr (hs.move hmove)
    have hend : Asking d.signals.length d₂ ∨ Touched d.signals.length none d₂ :=
      exec_move_invariant (P := fun _ => True) (fun s l s' _ => hmove s l s') (fun _ _ => trivial)
        (.inl hasking) hbody hin
    apply iff_of_true
    · rcases hend with hasking | hmore | ⟨-, -, c', hc', -⟩
      · exfalso
        have := hasking.pc
        rcases hpc with hpc | hpc <;> simp [hpc] at this
      · exact .inl hmore
      · exact .inr (.inl (by simp [hnone, hc']))
    · intro c hc
      rw [hnone] at hc
      cases hc
  | headInHand c _ hsome =>
    have hidle : Idle d.signals.length c False { d with
        seek := false, firstTime := false, downloadOffset := c.start, pc := .chooseSource } :=
      ⟨rfl, hsome, rfl, .inl ⟨rfl, id⟩⟩
    have hserved : Served d ls ↔ False ∨ ∃ l ∈ ls, Serves c l := by
      simp [Served, hsome]
    rw [hserved]
    rcases hidle.exec h.inside hbody hin with hidle | ⟨htouched, hserves⟩
    -- nothing has happened to the chunk
    · have hnot : ¬ (False ∨ ∃ l ∈ ls, Serves c l) := by
        obtain ⟨-, hnot⟩ | ⟨-, hnot⟩ | ⟨buf, hbuf, -⟩ := hidle.pc
        · exact hnot
        · exact hnot
        · rcases hpc with hpc | hpc <;> simp [hpc] at hbuf
      apply iff_of_false _ hnot
      rintro (hmore | hother | ⟨c₁, c₂, hc₁, hc₂, hlt⟩)
      · exact absurd hidle.signals (Nat.ne_of_gt hmore)
      · exact hother (by rw [hsome, show d₂.currentChunk = some c from hidle.current])
      · obtain rfl : c = c₁ := Option.some.inj (hsome.symm.trans hc₁)
        obtain rfl : c = c₂ := Option.some.inj (hidle.current.symm.trans hc₂)
        exact Nat.lt_irrefl _ hlt
    -- it has been answered, or has got on
    · apply iff_of_true _ hserves
      obtain hmore | ⟨-, -, c', hc', hbytes⟩ := htouched
      · exact .inl hmore
      · exact .inr (.inr ⟨c, c', hsome, hc', (hbytes c rfl).2⟩)

/-! ### How much there is to do -/

/-- The bytes that a chunk still wants. -/
def remaining (c : Chunk) : Nat := c.end_ - c.start

/-- What is to be done for the chunks in the queue. -/
def queueWork (chunks : BinaryHeap Chunk) : Nat :=
  (chunks.entries.map fun x => remaining x.value + 3).sum

/-- What is to be done where the thread is: most for a chunk that has just been popped, and
    less as soon as it is in hand. -/
def threadWork (pc : Pc) (currentChunk : Option Chunk) : Nat :=
  match pc with
  | .returning _ _ (some c) => remaining c + 3
  | .loopHead | .stopped | .consuming _ => (currentChunk.map (remaining · + 2)).getD 0
  | .chooseSource | .fetching => (currentChunk.map (remaining · + 2)).getD 1
  | .getNext site | .waiting site | .returning site _ none => if site = .main then 0 else 1
  | _ => 0

/-- What is to be done as long as nobody adds anything. -/
def work (d : Downloader) : Nat := queueWork d.chunks + threadWork d.pc d.currentChunk

/-- Popping a chunk takes its work from the queue's. -/
theorem queueWork_of_trypop {chunks chunks' : BinaryHeap Chunk} {key : Int} {c : Chunk}
    (h : chunks.trypop = some (some (key, c), chunks')) :
    queueWork chunks = remaining c + 3 + queueWork chunks' := by
  have hperm := (BinaryHeap.trypop_some h).map fun x => remaining x.value + 3
  rw [queueWork, hperm.sum_eq, List.map_cons, List.sum_cons]
  rfl

/-- The steps of the downloader thread itself. -/
def IsOwn : Label → Prop
  | .chunkAdd _ => False
  | _ => True

/-- A move of the thread does some of it, or nothing has happened that could be seen. -/
theorem Move.work {l : Label} (hmove : Move d l d') (hl : IsOwn l) :
    d'.work < d.work ∨
      d'.work = d.work ∧ d'.signals = d.signals ∧ d'.currentChunk = d.currentChunk := by
  cases hmove with
  | added => exact hl.elim
  | popped l _ site timedOut key c chunks hpc hpop =>
    have hqueue := queueWork_of_trypop hpop
    have hthread : threadWork d.pc d.currentChunk = if site = .main then 0 else 1 := by
      rcases hpc with hpc | hpc <;> simp [threadWork, hpc]
    have hafter : Downloader.work
        { d with chunks := chunks, pc := .returning site timedOut (some c) } =
      queueWork chunks + (remaining c + 3) := rfl
    rw [hafter, Downloader.work, hqueue, hthread]
    by_cases hmain : site = .main
    · exact .inr ⟨by rw [if_pos hmain]; omega, rfl, rfl⟩
    · exact .inl (by rw [if_neg hmain]; omega)
  | waits l _ site hpc =>
    rcases hpc with hpc | hpc <;> exact .inr ⟨by simp [Downloader.work, threadWork, hpc], rfl, rfl⟩
  | timesOut l _ site hpc =>
    rcases hpc with hpc | hpc <;> exact .inr ⟨by simp [Downloader.work, threadWork, hpc], rfl, rfl⟩
  | bailed site timedOut chunk hpc hsite =>
    left
    cases chunk <;> simp [Downloader.work, threadWork, bailTimedOut, hpc, hsite]
  | copies buf c mem offset pc hpc hcurrent hstart hend hnext =>
    have hthread : ∀ c', threadWork pc (some c') = remaining c' + 2 := by
      obtain ⟨rfl, -⟩ | ⟨data, rfl, -⟩ := hnext <;> exact fun c' => rfl
    have hbefore : threadWork d.pc d.currentChunk = remaining c + 2 := by rw [hpc, hcurrent]; rfl
    have hcopied : remaining (copied c (copyLen c buf)) = remaining c - copyLen c buf :=
      Nat.sub_add_eq _ _ _
    have hle : copyLen c buf ≤ remaining c := Nat.min_le_right _ _
    rw [Downloader.work, Downloader.work, hbefore, hthread, hcopied]
    by_cases hzero : copyLen c buf = 0
    · right
      rw [hzero]
      exact ⟨rfl, rfl, hcurrent.symm⟩
    · exact .inl (by show queueWork d.chunks + _ < _; omega)
  | answers buf c _ sig hpc hcurrent hstart hend hchunks hsignals hnext =>
    left
    have hthread : threadWork d'.pc d'.currentChunk = 1 := by
      obtain ⟨hpc', hnone⟩ | ⟨buf', hpc'⟩ := hnext <;> simp [threadWork, *]
    have hbefore : threadWork d.pc d.currentChunk = remaining c + 2 := by rw [hpc, hcurrent]; rfl
    rw [Downloader.work, Downloader.work, hbefore, hthread, hchunks]
    omega
  | fetched hpc =>
    rcases hpc with hpc | hpc
    · cases hcurrent : d.currentChunk with
      | none => exact .inl (by simp [Downloader.work, threadWork, hpc, hcurrent])
      | some c => exact .inr ⟨by simp [Downloader.work, threadWork, hpc, hcurrent], rfl, rfl⟩
    · exact .inr ⟨by simp [Downloader.work, threadWork, hpc], rfl, rfl⟩
  | _ => simp_all [Downloader.work, threadWork]

/-- So a run of the thread that has not left the loop has done some of it, or nothing is to be
    seen of it. -/
theorem exec_work {ls : List Label} (hls : ∀ l ∈ ls, IsOwn l)
    (hexec : exec (step size) d ls = some d') (hin : ¬ Left d'.pc) :
    d'.work < d.work ∨
      d'.work = d.work ∧ d'.signals = d.signals ∧ d'.currentChunk = d.currentChunk := by
  apply exec_move_invariant (P := IsOwn) (I := fun s => s.work < d.work ∨
    s.work = d.work ∧ s.signals = d.signals ∧ s.currentChunk = d.currentChunk) _ hls
    (.inr ⟨rfl, rfl, rfl⟩) hexec hin
  rintro s l s' hl hs hmove
  rcases hmove.work hl with hless | ⟨hwork, hsignals, hcurrent⟩
  · left
    rcases hs with hs | ⟨hs, -⟩ <;> omega
  · rw [hwork, hsignals, hcurrent]
    exact hs

/-- An iteration that makes progress does some of it. -/
theorem Iteration.work_lt {ls : List Label} (h : Iteration size d ls d')
    (hls : ∀ l ∈ ls, IsOwn l) (hprogress : Progress d d') : d'.work < d.work := by
  have hown : ∀ l ∈ .loopHead :: ls ++ [.fetched 0], IsOwn l := by
    intro l hl
    obtain rfl | hl | rfl : l = .loopHead ∨ l ∈ ls ∨ l = .fetched 0 := by simpa using hl
    · trivial
    · exact hls l hl
    · trivial
  obtain ⟨d₁, d₂, -, -, -, -, hend⟩ := h.cases
  have hin : ¬ Left d'.pc := by rw [hend]; exact id
  rcases exec_work hown h.run hin with hless | ⟨-, hsignals, hcurrent⟩
  · exact hless
  · exfalso
    obtain hmore | hother | ⟨c, c', hc, hc', hlt⟩ := hprogress
    · rw [hsignals] at hmore
      exact Nat.lt_irrefl _ hmore
    · rw [hcurrent] at hother
      exact hother rfl
    · rw [hcurrent, hc] at hc'
      obtain rfl := Option.some.inj hc'
      exact Nat.lt_irrefl _ hlt

/-! ### How many fetches there are -/

/-- How often a fetch is started. -/
def fetches (ls : List Label) : Nat := ls.count (.chooseSource true)

/-- A fetch has been started, and not ended. -/
def Fetching : Pc → Prop
  | .fetching | .stopped | .consuming _ => True
  | .getNext site | .waiting site | .returning site _ _ => site ≠ .main
  | pc => Left pc

/-- Until it has ended, no other is started. -/
theorem fetching_step {l : Label} (h : Fetching d.pc) (hl : ∀ rc, l ≠ .fetched rc)
    (hstep : d.step size l = some d') : l ≠ .chooseSource true ∧ Fetching d'.pc := by
  constructor
  · intro heq
    subst heq
    rw [(step_chooseSource.mp hstep).1] at h
    exact h
  · rcases step_move hstep with hleft | hmove
    · cases hpc : d'.pc <;> simp_all [Left, Fetching]
    · cases hmove with
      | added => exact h
      | popped _ _ _ _ _ _ _ hpc => rcases hpc with hpc | hpc <;> simpa [Fetching, hpc] using h
      | waits _ _ _ hpc => rcases hpc with hpc | hpc <;> simpa [Fetching, hpc] using h
      | timesOut _ _ _ hpc => rcases hpc with hpc | hpc <;> simpa [Fetching, hpc] using h
      | copies _ _ _ _ _ _ _ _ _ hnext => obtain ⟨rfl, -⟩ | ⟨data, rfl, -⟩ := hnext <;> trivial
      | answers _ _ _ _ _ _ _ _ _ _ hnext =>
        obtain ⟨hpc, -⟩ | ⟨buf, hpc⟩ := hnext <;> simp [Fetching, hpc]
      | fetched => exact absurd rfl (hl 0)
      | _ => simp_all [Fetching, Left, bailTimedOut]

/-- While the fetcher runs no fetch is started. -/
theorem fetches_of_fetching {ls : List Label} (h : Fetching d.pc)
    (hls : ∀ rc, Label.fetched rc ∉ ls) (hexec : exec (step size) d ls = some d') :
    fetches ls = 0 := by
  induction ls generalizing d with
  | nil => rfl
  | cons l ls ih =>
    rw [exec_cons, Option.bind_eq_some_iff] at hexec
    obtain ⟨d₁, hstep, hrest⟩ := hexec
    obtain ⟨hl, h₁⟩ := fetching_step h (fun rc heq => hls rc (by simp [heq])) hstep
    rw [fetches, List.count_cons_of_ne hl]
    exact ih h₁ (fun rc hmem => hls rc (List.mem_cons_of_mem l hmem)) hrest

/-- Up to the end of the next transfer, there is one fetch at most. -/
theorem fetches_le_one {ls : List Label} (hls : ∀ rc, Label.fetched rc ∉ ls)
    (hexec : exec (step size) d ls = some d') : fetches ls ≤ 1 := by
  induction ls generalizing d with
  | nil => exact Nat.zero_le 1
  | cons l ls ih =>
    rw [exec_cons, Option.bind_eq_some_iff] at hexec
    obtain ⟨d₁, hstep, hrest⟩ := hexec
    have hls' : ∀ rc, Label.fetched rc ∉ ls := fun rc hmem => hls rc (List.mem_cons_of_mem l hmem)
    by_cases hl : l = .chooseSource true
    · subst hl
      obtain ⟨-, rfl⟩ := step_chooseSource.mp hstep
      have hzero : fetches ls = 0 :=
        fetches_of_fetching (show Fetching .fetching from trivial) hls' hrest
      rw [fetches, List.count_cons_self]
      exact Nat.le_of_eq (congrArg (· + 1) hzero)
    · rw [fetches, List.count_cons_of_ne hl]
      exact ih hls' hrest

/-- Behind the loop there is none. -/
theorem fetches_of_left {ls : List Label} (h : Left d.pc)
    (hexec : exec (step size) d ls = some d') : fetches ls = 0 := by
  induction ls generalizing d with
  | nil => rfl
  | cons l ls ih =>
    rw [exec_cons, Option.bind_eq_some_iff] at hexec
    obtain ⟨d₁, hstep, hrest⟩ := hexec
    have hl : l ≠ .chooseSource true := by
      intro heq
      subst heq
      rw [(step_chooseSource.mp hstep).1] at h
      exact h
    rw [fetches, List.count_cons_of_ne hl]
    exact ih (left_step h hstep) hrest

/-- The server serves the chunk in hand, if there is one, in every iteration of a run. -/
def EachServed (size : Nat) (d : Downloader) (ls : List Label) : Prop :=
  ∀ pre it post s s', ls = pre ++ (.loopHead :: it ++ [.fetched 0]) ++ post →
    exec (step size) d pre = some s → Iteration size s it s' → Served s it

/-- What is served in all of a run is served in the rest of it. -/
theorem EachServed.of_append {pre ls : List Label} (h : EachServed size d (pre ++ ls))
    (hexec : exec (step size) d pre = some d') : EachServed size d' ls := by
  intro pre' it post s s' hls hpre hit
  apply h (pre ++ pre') it post s s' _ _ hit
  · rw [hls]
    simp only [List.append_assoc]
  · rw [exec_append, hexec]
    exact hpre

/-- A run up to the end of its first transfer. -/
theorem split_fetched (ls : List Label) :
    (∀ rc, Label.fetched rc ∉ ls) ∨
      ∃ it rc rest, ls = it ++ .fetched rc :: rest ∧ ∀ rc, Label.fetched rc ∉ it := by
  induction ls with
  | nil => exact .inl fun rc => List.not_mem_nil
  | cons l ls ih =>
    by_cases hl : ∃ rc, l = .fetched rc
    · obtain ⟨rc, rfl⟩ := hl
      exact .inr ⟨[], rc, ls, rfl, fun rc => List.not_mem_nil⟩
    · have hne : ∀ rc, Label.fetched rc ≠ l := fun rc heq => hl ⟨rc, heq.symm⟩
      rcases ih with hnone | ⟨it, rc, rest, rfl, hit⟩
      · exact .inl fun rc hmem => hnone rc ((List.mem_cons.mp hmem).resolve_left (hne rc))
      · exact .inr ⟨l :: it, rc, rest, rfl,
          fun rc hmem => hit rc ((List.mem_cons.mp hmem).resolve_left (hne rc))⟩

/-- The thread starts at the head of the loop. -/
theorem loopHead_of_step {l : Label} (hpc : d.pc = .loopHead) (hl : IsOwn l)
    (hstep : d.step size l = some d') : l = .loopHead := by
  cases l with
  | loopHead => rfl
  | chunkAdd r => exact hl.elim
  | _ => simp [step, hpc] at hstep

/-- There is one fetch at most up to the next head of the loop, if that is reached at all. -/
theorem fetches_cases {ls : List Label} (hexec : exec (step size) d ls = some d') :
    fetches ls ≤ 1 ∨ ∃ it rest d₁, ls = it ++ [.fetched 0] ++ rest ∧
      (∀ rc, Label.fetched rc ∉ it) ∧ exec (step size) d (it ++ [.fetched 0]) = some d₁ ∧
      d₁.pc = .loopHead ∧ exec (step size) d₁ rest = some d' ∧ fetches ls ≤ fetches rest + 1 := by
  obtain hnone | ⟨it, rc, rest, rfl, hit⟩ := split_fetched ls
  · exact .inl (fetches_le_one hnone hexec)
  · rw [List.append_cons, exec_append, Option.bind_eq_some_iff] at hexec
    obtain ⟨d₁, hbody, hrest⟩ := hexec
    have hsum : fetches (it ++ .fetched rc :: rest) = fetches it + fetches rest := by
      simp [fetches]
    have hbody₀ := hbody
    rw [exec_concat, Option.bind_eq_some_iff] at hbody₀
    obtain ⟨d₀, hit₀, hfetched⟩ := hbody₀
    obtain ⟨-, hd₁⟩ := step_fetched.mp hfetched
    have hone : fetches it ≤ 1 := fetches_le_one hit hit₀
    by_cases hrc : rc = 0
    · subst hrc
      exact .inr ⟨it, rest, d₁, List.append_cons _ _ _, hit, hbody, hd₁ ▸ rfl, hrest, by omega⟩
    · -- the loop is left
      have hleft : Left d₁.pc := by
        rw [← hd₁, fetched, if_neg hrc]
        trivial
      have hzero : fetches rest = 0 := fetches_of_left hleft hrest
      exact .inl (by omega)

/-- A run that starts at the head of the loop, with every iteration served, has no more fetches
    than there is work, and one that may be under way at its end. -/
theorem fetches_le_of_loopHead {ls : List Label} (hpc : d.pc = .loopHead)
    (hls : ∀ l ∈ ls, IsOwn l) (hexec : exec (step size) d ls = some d')
    (hserved : EachServed size d ls) : fetches ls ≤ d.work + 1 := by
  -- on the length of the run, from one head of the loop to the next
  induction hn : ls.length using Nat.strong_induction_on generalizing d ls with
  | _ n ih =>
    obtain hone | ⟨it, rest, d₁, rfl, hit, hbody, hpc₁, hrest, hle⟩ := fetches_cases hexec
    · exact hone.trans (Nat.le_add_left 1 d.work)
    · rw [List.forall_mem_append, List.forall_mem_append] at hls
      obtain ⟨⟨hown, -⟩, hownRest⟩ := hls
      cases it with
      | nil =>
        -- a transfer cannot end before it has begun
        rw [List.nil_append, exec_cons, Option.bind_eq_some_iff] at hbody
        obtain ⟨d₂, hfetched, -⟩ := hbody
        obtain ⟨hpc', -⟩ := step_fetched.mp hfetched
        rcases hpc' with hpc' | hpc' <;> simp [hpc] at hpc'
      | cons l it =>
        rw [List.forall_mem_cons] at hown
        obtain rfl : l = .loopHead := by
          rw [List.cons_append, exec_cons, Option.bind_eq_some_iff] at hbody
          obtain ⟨d₂, hfirst, -⟩ := hbody
          exact loopHead_of_step hpc hown.1 hfirst
        have hiteration : Iteration size d it d₁ :=
          ⟨hpc, fun rc hmem => hit rc (List.mem_cons_of_mem _ hmem), hbody⟩
        have hprogress : Progress d d₁ :=
          hiteration.progress_iff.mpr (hserved [] it rest d d₁ rfl rfl hiteration)
        have hless : d₁.work < d.work := hiteration.work_lt hown.2 hprogress
        have hlen : rest.length < n := by
          rw [← hn]
          simp only [List.length_append, List.length_cons]
          omega
        have hih : fetches rest ≤ d₁.work + 1 :=
          ih rest.length hlen hpc₁ hownRest hrest (hserved.of_append hbody) rfl
        omega

/-- Wherever it starts, one fetch more may be under way then. -/
theorem fetches_le_work {ls : List Label} (hls : ∀ l ∈ ls, IsOwn l)
    (hexec : exec (step size) d ls = some d') (hserved : EachServed size d ls) :
    fetches ls ≤ d.work + 2 := by
  obtain hone | ⟨it, rest, d₁, rfl, -, hbody, hpc₁, hrest, hle⟩ := fetches_cases hexec
  · omega
  · rw [List.forall_mem_append] at hls
    have hin : ¬ Left d₁.pc := by rw [hpc₁]; exact id
    have hwork : d₁.work ≤ d.work := by
      rcases exec_work hls.1 hbody hin with hless | ⟨heq, -⟩
      · exact Nat.le_of_lt hless
      · exact Nat.le_of_eq heq
    have hfetches : fetches rest ≤ d₁.work + 1 :=
      fetches_le_of_loopHead hpc₁ hls.2 hrest (hserved.of_append hbody)
    omega

/-- An iteration makes progress exactly when the server serves the chunk that is in hand at its
    head, if there is one. If it does so in every iteration, and nobody adds anything, there are
    no more fetches than the work there is allows. -/
theorem progress_iff_served (size : Nat) (d : Downloader) :
    (∀ ls d', Iteration size d ls d' → (Progress d d' ↔ Served d ls)) ∧
      ∀ ls d', (∀ l ∈ ls, IsOwn l) → exec (step size) d ls = some d' → EachServed size d ls →
        fetches ls ≤ d.work + 2 :=
  ⟨fun _ _ => Iteration.progress_iff, fun _ _ => fetches_le_work⟩

/-- A transfer of half a chunk. -/
theorem progress_iff_served_half :
    ∃ d', Iteration 4 { new 0 (fun _ => 0) with
          firstTime := false, currentChunk := some (chunkNew 0 ⟨0, 4, 0, 0⟩) }
        [.chooseSource true, .block [1, 2], .consume] d' ∧
      Progress { new 0 (fun _ => 0) with
          firstTime := false, currentChunk := some (chunkNew 0 ⟨0, 4, 0, 0⟩) } d' ∧
      fetches [.loopHead, .chooseSource true, .block [1, 2], .consume, .fetched 0] ≤
        Downloader.work { new 0 (fun _ => 0) with
          firstTime := false, currentChunk := some (chunkNew 0 ⟨0, 4, 0, 0⟩) } + 2 := by
  let d : Downloader := { new 0 (fun _ => 0) with
    firstTime := false, currentChunk := some (chunkNew 0 ⟨0, 4, 0, 0⟩) }
  obtain ⟨d', hrun⟩ : ∃ d', exec (step 4) d
      [.loopHead, .chooseSource true, .block [1, 2], .consume, .fetched 0] = some d' := ⟨_, rfl⟩
  have hiteration : Iteration 4 d [.chooseSource true, .block [1, 2], .consume] d' :=
    ⟨rfl, by simp, hrun⟩
  have hserved : Served d [.chooseSource true, .block [1, 2], .consume] := by
    intro c hc
    obtain rfl : chunkNew 0 ⟨0, 4, 0, 0⟩ = c := Option.some.inj hc
    exact ⟨.block [1, 2], by simp, .inr ⟨by simp, by decide⟩⟩
  have heach : EachServed 4 d
      [.loopHead, .chooseSource true, .block [1, 2], .consume, .fetched 0] := by
    intro pre it post s s' hls hpre hit
    cases pre with
    | nil =>
      obtain rfl : d = s := by simpa using hpre
      -- the block is in there, because no transfer ends before it
      have hblock : .block [1, 2] ∈ it := by
        rcases it with _ | ⟨a, _ | ⟨b, it⟩⟩
        · simp at hls
        · simp at hls
        · simp only [List.nil_append, List.cons_append, List.cons.injEq] at hls
          simp [← hls.2.2.1]
      intro c hc
      obtain ⟨l, hl, hserves⟩ := hserved c hc
      obtain rfl : l = .block [1, 2] := by
        rcases List.mem_cons.mp hl with rfl | hl
        · exact hserves.elim
        · rcases List.mem_cons.mp hl with rfl | hl
          · rfl
          · rw [List.mem_singleton.mp hl] at hserves
            exact hserves.elim
      exact ⟨_, hblock, hserves⟩
    | cons a pre =>
      -- the run has only one head of the loop
      have hmem : Label.loopHead ∈ [.chooseSource true, .block [1, 2], .consume, .fetched 0] := by
        rw [(List.cons.inj hls).2]
        simp
      simp at hmem
  exact ⟨d', hiteration, ((progress_iff_served 4 d).1 _ d' hiteration).mpr hserved,
    (progress_iff_served 4 d).2 _ d' (by simp [IsOwn]) hrun heach⟩

/-- An empty response leaves everything as it was. -/
theorem exec_empty_response {c : Chunk} (hpc : d.pc = .loopHead) (hseek : d.seek = false)
    (hfirst : d.firstTime = false) (hrc : d.rc = 0) (hcurrent : d.currentChunk = some c)
    (hoffset : d.downloadOffset = c.start) (hposition : d.position = (range c).getD 0) :
    exec (step size) d [.loopHead, .chooseSource true, .fetched 0] = some d := by
  cases d
  simp_all [step, loopHead, chooseSource, fetched]

/-- The server answers a request of four bytes with an empty body, and without an error. There
    is no end to asking for it. -/
theorem not_progress_empty_body :
    Fetcher.processCurlResponse (.ok 200) = 0 ∧
      ∃ d, exec (step 4) (new 0 fun _ => 0) [.chunkAdd ⟨0, 4, 0, 0⟩, .loopHead, .getNext 0,
          .gotNext, .chooseSource true, .fetched 0] = some d ∧
        (∃ d', Iteration 4 d [.chooseSource true] d' ∧ ¬ Progress d d') ∧
        ∀ n, ∃ ls d', (∀ l ∈ ls, IsOwn l) ∧ exec (step 4) d ls = some d' ∧ fetches ls = n := by
  have hrun : (exec (step 4) (new 0 fun _ => 0) [.chunkAdd ⟨0, 4, 0, 0⟩, .loopHead, .getNext 0,
      .gotNext, .chooseSource true, .fetched 0]).map (fun d => ((d.pc, d.seek, d.firstTime, d.rc),
        d.currentChunk, d.downloadOffset, d.position)) =
      some ((.loopHead, false, false, 0), some (chunkNew 0 ⟨0, 4, 0, 0⟩), 0, 0) := by decide +kernel
  obtain ⟨d, hexec, hd⟩ := Option.map_eq_some_iff.mp hrun
  simp only [Prod.mk.injEq] at hd
  obtain ⟨⟨hpc, hseek, hfirst, hrc⟩, hcurrent, hoffset, hposition⟩ := hd
  have hempty : exec (step 4) d [.loopHead, .chooseSource true, .fetched 0] = some d :=
    exec_empty_response hpc hseek hfirst hrc hcurrent hoffset hposition
  refine ⟨rfl, d, hexec, ⟨d, ⟨hpc, by simp, hempty⟩, ?_⟩, fun n => ?_⟩
  · rintro (hmore | hother | ⟨c, c', hc, hc', hlt⟩)
    · exact Nat.lt_irrefl _ hmore
    · exact hother rfl
    · obtain rfl : c = c' := Option.some.inj (hc.symm.trans hc')
      exact Nat.lt_irrefl _ hlt
  · induction n with
    | zero => exact ⟨[], d, by simp, rfl, rfl⟩
    | succ n ih =>
      obtain ⟨ls, d', hls, hrest, hn⟩ := ih
      refine ⟨[.loopHead, .chooseSource true, .fetched 0] ++ ls, d', ?_, ?_, ?_⟩
      · rw [List.forall_mem_append]
        exact ⟨by simp [IsOwn], hls⟩
      · rw [exec_append, hempty]
        exact hrest
      · rw [fetches, List.count_append, ← fetches, ← fetches, hn]
        exact Nat.add_comm 1 n

end Fsfuse.Native.Downloader
