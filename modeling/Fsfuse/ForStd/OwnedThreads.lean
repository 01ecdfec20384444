import Fsfuse.ForStd.Transition

/-!
# Threads with an owner

One thread, the owner, runs a straight program: it allocates things and frees them, starts other
threads, tells them through a pipe each to stop, and waits for them to end. The others run a loop
around `select` and are done when they have read from their pipe.

A plan follows the owner's program alone: what is allocated, and which threads have been started,
told to stop, and waited for. If the program goes through its plan, whatever the threads do at
whatever time, nothing is used that is not allocated, nobody reads anything else from a pipe than
that it is to stop, and the owner never waits for ever (`exec_start_ok`, `exec_start_finishes`).
-/

namespace OwnedThreads

open Transition

variable {ρ ω : Type}

/-- What can be written to a pipe. -/
inductive ControlCode
  | notUsed
  | stop
deriving Repr, DecidableEq

/-- An action of the owner, on things `ρ` and threads `ω`. -/
inductive Action (ρ ω : Type)
  | alloc (r : ρ)
  | use (r : ρ)
  | free (r : ρ)
  | spawn (w : ω)
  | write (w : ω) (code : ControlCode)
  | join (w : ω)
deriving Repr, DecidableEq

/-- What the threads do: the things that a thread uses as long as it runs, and how many callbacks
    it may come to run after a `select`, depending on whether its pipe is readable. -/
structure Threads (ρ ω : Type) where
  uses : ω → Finset ρ
  callbacks : ω → Bool → Nat → Bool

/-- Where a thread is. -/
inductive Phase
  | absent
  | selecting
  /-- between two calls of `select`: the callbacks still to be run, and whether the pipe was
      readable -/
  | round (work : Nat) (control : Bool)
  | exited
  | joined
deriving Repr, DecidableEq

/-- The owner and its threads. -/
structure State (ρ ω : Type) where
  program : List (Action ρ ω)
  live : Finset ρ
  phase : ω → Phase
  pipe : ω → List ControlCode
  ok : Bool

/-- A step of the owner, or of one of its threads: `select` fails, or returns and leads to some
    callbacks; one of them is run; the round ends. -/
inductive Label (ω : Type)
  | owner
  | interrupted (w : ω)
  | select (w : ω) (work : Nat)
  | callback (w : ω)
  | endRound (w : ω)
deriving Repr, DecidableEq

namespace State

variable [DecidableEq ρ] [DecidableEq ω]

/-- The owner has its program before it. -/
def start (program : List (Action ρ ω)) : State ρ ω :=
  ⟨program, ∅, fun _ => .absent, fun _ => [], true⟩

/-- Something has gone wrong unless this is right. -/
def check (s : State ρ ω) (right : Prop) [Decidable right] : State ρ ω :=
  { s with ok := s.ok && decide right }

/-- There is something in the pipe of the thread. -/
def readable (s : State ρ ω) (w : ω) : Bool := !(s.pipe w).isEmpty

/-- The thread moves, and uses what it uses. -/
def move (t : Threads ρ ω) (s : State ρ ω) (w : ω) (phase : Phase) : State ρ ω :=
  { s with phase := Function.update s.phase w phase }.check (t.uses w ⊆ s.live)

/-- An action of the owner; `none` while it waits. -/
def act (s : State ρ ω) : Action ρ ω → Option (State ρ ω)
  | .alloc r => some ({ s with live := insert r s.live }.check (r ∉ s.live))
  | .use r => some (s.check (r ∈ s.live))
  | .free r => some ({ s with live := s.live.erase r }.check (r ∈ s.live))
  | .spawn w =>
    some ({ s with phase := Function.update s.phase w .selecting }.check (s.phase w = Phase.absent))
  | .write w code =>
    some ({ s with pipe := Function.update s.pipe w (s.pipe w ++ [code]) }.check
      (s.phase w ≠ Phase.absent ∧ s.phase w ≠ Phase.joined))
  | .join w => match s.phase w with
    | .exited => some { s with phase := Function.update s.phase w .joined }
    | .absent | .joined => some (s.check False)
    | .selecting | .round _ _ => none

/-- The end of a round, with what is read from the pipe if it was readable. -/
def endRound (t : Threads ρ ω) (s : State ρ ω) (w : ω) : Bool → State ρ ω
  | true => match s.pipe w with
    | .stop :: rest => { s with pipe := Function.update s.pipe w rest }.move t w .exited
    -- the assertions on what has been read
    | _ => s.check False
  | false => s.move t w .selecting

/-- One step. -/
def step (t : Threads ρ ω) (s : State ρ ω) : Label ω → Option (State ρ ω)
  | .owner => match s.program with
    | [] => none
    | a :: program => { s with program := program }.act a
  | .interrupted w => if s.phase w = .selecting then some (s.move t w .selecting) else none
  | .select w work =>
    if s.phase w = .selecting ∧ t.callbacks w (s.readable w) work then
      some (s.move t w (.round work (s.readable w)))
    else none
  | .callback w => match s.phase w with
    | .round (work + 1) control => some (s.move t w (.round work control))
    | _ => none
  | .endRound w => match s.phase w with
    | .round 0 control => some (s.endRound t w control)
    | _ => none

end State

/-! ### Plans -/

/-- What is allocated, and the threads started, told to stop and waited for so far. -/
structure Plan (ρ ω : Type) where
  live : Finset ρ
  started : Finset ω
  stopped : Finset ω
  joined : Finset ω

namespace Plan

variable [DecidableEq ρ] [DecidableEq ω]

/-- Nothing has been done yet. -/
def new : Plan ρ ω := ⟨∅, ∅, ∅, ∅⟩

/-- An action that is in order. -/
def step (t : Threads ρ ω) (p : Plan ρ ω) : Action ρ ω → Option (Plan ρ ω)
  | .alloc r => if r ∉ p.live then some { p with live := insert r p.live } else none
  | .use r => if r ∈ p.live then some p else none
  | .free r =>
    -- nobody is left who uses it
    if r ∈ p.live ∧ ∀ w ∈ p.started, w ∉ p.joined → r ∉ t.uses w then
      some { p with live := p.live.erase r }
    else none
  | .spawn w =>
    if w ∉ p.started ∧ t.uses w ⊆ p.live then some { p with started := insert w p.started }
    else none
  | .write w code =>
    if code = .stop ∧ w ∈ p.started ∧ w ∉ p.stopped then
      some { p with stopped := insert w p.stopped }
    else none
  | .join w =>
    if w ∈ p.stopped ∧ w ∉ p.joined then some { p with joined := insert w p.joined } else none

/-! ### Rules for plans -/

section Rules

variable {t : Threads ρ ω} {p : Plan ρ ω} {last : Option (Plan ρ ω)} {r : ρ} {w : ω}
  {program : List (Action ρ ω)}

/-- A plan is run one action at a time. -/
theorem exec_cons_of {p' : Plan ρ ω} {a : Action ρ ω} (h : p.step t a = some p')
    (hrest : exec (step t) p' program = last) : exec (step t) p (a :: program) = last := by
  rw [exec_cons, h]
  exact hrest

/-- What is not allocated can be. -/
theorem exec_alloc (hr : r ∉ p.live)
    (hrest : exec (step t) { p with live := insert r p.live } program = last) :
    exec (step t) p (.alloc r :: program) = last :=
  exec_cons_of (if_pos hr) hrest

/-- What is allocated can be used. -/
theorem exec_use (hr : r ∈ p.live) (hrest : exec (step t) p program = last) :
    exec (step t) p (.use r :: program) = last :=
  exec_cons_of (if_pos hr) hrest

/-- What is allocated, and used by no thread that still runs, can be freed. -/
theorem exec_free (hr : r ∈ p.live) (hfree : ∀ w ∈ p.started, w ∉ p.joined → r ∉ t.uses w)
    (hrest : exec (step t) { p with live := p.live.erase r } program = last) :
    exec (step t) p (.free r :: program) = last :=
  exec_cons_of (if_pos ⟨hr, hfree⟩) hrest

/-- A thread that has not been started can be, if what it uses is allocated. -/
theorem exec_spawn (hw : w ∉ p.started) (huses : t.uses w ⊆ p.live)
    (hrest : exec (step t) { p with started := insert w p.started } program = last) :
    exec (step t) p (.spawn w :: program) = last :=
  exec_cons_of (if_pos ⟨hw, huses⟩) hrest

/-- A thread that has been started can be told to stop, once. -/
theorem exec_write (hw : w ∈ p.started) (hstop : w ∉ p.stopped)
    (hrest : exec (step t) { p with stopped := insert w p.stopped } program = last) :
    exec (step t) p (.write w .stop :: program) = last :=
  exec_cons_of (if_pos ⟨rfl, hw, hstop⟩) hrest

/-- A thread that has been told to stop can be joined, once. -/
theorem exec_join (hw : w ∈ p.stopped) (hjoin : w ∉ p.joined)
    (hrest : exec (step t) { p with joined := insert w p.joined } program = last) :
    exec (step t) p (.join w :: program) = last :=
  exec_cons_of (if_pos ⟨hw, hjoin⟩) hrest

end Rules

end Plan

/-! ### Following a plan -/

section Follows

variable {t : Threads ρ ω} {p p' : Plan ρ ω} {w : ω}

/-- Where a thread may be, and what may be in its pipe, at a point of the plan. -/
inductive At (p : Plan ρ ω) (w : ω) : Phase → List ControlCode → Prop
  | absent (h : w ∉ p.started) : At p w .absent []
  | selecting (h : w ∈ p.started) (hstop : w ∉ p.stopped) : At p w .selecting []
  | round (work : Nat) (h : w ∈ p.started) (hstop : w ∉ p.stopped) : At p w (.round work false) []
  | selectingStopped (h : w ∈ p.stopped) (hjoin : w ∉ p.joined) : At p w .selecting [.stop]
  | roundStopped (work : Nat) (control : Bool) (h : w ∈ p.stopped) (hjoin : w ∉ p.joined) :
    At p w (.round work control) [.stop]
  | exited (h : w ∈ p.stopped) (hjoin : w ∉ p.joined) : At p w .exited []
  | joined (h : w ∈ p.joined) : At p w .joined []

/-- The plan may go on with other threads. -/
theorem At.congr {phase : Phase} {pipe : List ControlCode} (h : At p w phase pipe)
    (hstarted : w ∈ p'.started ↔ w ∈ p.started) (hstopped : w ∈ p'.stopped ↔ w ∈ p.stopped)
    (hjoined : w ∈ p'.joined ↔ w ∈ p.joined) : At p' w phase pipe := by
  cases h with
  | absent h => exact .absent (hstarted.not.mpr h)
  | selecting h hstop => exact .selecting (hstarted.mpr h) (hstopped.not.mpr hstop)
  | round work h hstop => exact .round work (hstarted.mpr h) (hstopped.not.mpr hstop)
  | selectingStopped h hjoin => exact .selectingStopped (hstopped.mpr h) (hjoined.not.mpr hjoin)
  | roundStopped work control h hjoin =>
    exact .roundStopped work control (hstopped.mpr h) (hjoined.not.mpr hjoin)
  | exited h hjoin => exact .exited (hstopped.mpr h) (hjoined.not.mpr hjoin)
  | joined h => exact .joined (hjoined.mpr h)

/-- The state is at a point of the plan: nothing has gone wrong, what is allocated is, and what
    the threads use is. -/
structure Follows (t : Threads ρ ω) (s : State ρ ω) (p : Plan ρ ω) : Prop where
  ok : s.ok = true
  live : s.live = p.live
  stopped : p.stopped ⊆ p.started
  joined : p.joined ⊆ p.stopped
  uses : ∀ w ∈ p.started, w ∉ p.joined → t.uses w ⊆ p.live
  threads : ∀ w, At p w (s.phase w) (s.pipe w)

variable {s s' : State ρ ω}

/-- At the start the state is at the beginning of the plan. -/
theorem start_follows (t : Threads ρ ω) (program : List (Action ρ ω)) :
    Follows t (.start program) .new where
  ok := rfl
  live := rfl
  stopped := Finset.Subset.refl _
  joined := Finset.Subset.refl _
  uses := fun _ h => absurd h (Finset.notMem_empty _)
  threads := fun _ => .absent (Finset.notMem_empty _)

/-- A check that holds changes nothing. -/
theorem State.check_of_right {right : Prop} [Decidable right] (h : right) : s.check right = s := by
  rw [check, decide_eq_true h, Bool.and_true]

/-- A thread that runs finds what it uses. -/
theorem Follows.uses_subset (h : Follows t s p) (hw : w ∈ p.started) (hjoin : w ∉ p.joined) :
    t.uses w ⊆ s.live := h.live ▸ h.uses w hw hjoin

/-- A thread that has not been told to stop has not been waited for. -/
theorem Follows.not_joined (h : Follows t s p) (hstop : w ∉ p.stopped) : w ∉ p.joined :=
  fun hjoin => hstop (h.joined hjoin)

variable [DecidableEq ρ] [DecidableEq ω]

/-- A thread that runs moves on. -/
theorem Follows.move {phase : Phase} (h : Follows t s p) (hw : w ∈ p.started)
    (hjoin : w ∉ p.joined) (hat : At p w phase (s.pipe w)) :
    Follows t (s.move t w phase) p := by
  rw [State.move, State.check_of_right (h.uses_subset hw hjoin)]
  refine ⟨h.ok, h.live, h.stopped, h.joined, h.uses, fun u => ?_⟩
  by_cases hu : u = w
  · subst hu
    simpa only [Function.update_self] using hat
  · simpa only [Function.update_of_ne hu] using h.threads u

/-! ### The steps of the threads -/

/-- An interrupted `select` leaves the state at its point of the plan. -/
theorem interrupted_follows (h : Follows t s p)
    (hstep : s.step t (.interrupted w) = some s') : Follows t s' p := by
  obtain ⟨hphase, heq⟩ := Option.ite_none_right_eq_some.mp hstep
  obtain rfl := Option.some.inj heq
  have hat := h.threads w
  rw [hphase] at hat
  generalize hpipe : s.pipe w = pipe at hat
  cases hat with
  | selecting hw hstop => exact h.move hw (h.not_joined hstop) (hpipe ▸ .selecting hw hstop)
  | selectingStopped hw hjoin =>
    exact h.move (h.stopped hw) hjoin (hpipe ▸ .selectingStopped hw hjoin)

/-- A `select` that returns leaves the state at its point of the plan. -/
theorem select_follows {work : Nat} (h : Follows t s p)
    (hstep : s.step t (.select w work) = some s') : Follows t s' p := by
  obtain ⟨⟨hphase, -⟩, heq⟩ := Option.ite_none_right_eq_some.mp hstep
  obtain rfl := Option.some.inj heq
  have hat := h.threads w
  rw [hphase] at hat
  generalize hpipe : s.pipe w = pipe at hat
  -- it sees what is in its pipe, which is something only if it is told to stop
  cases hat with
  | selecting hw hstop =>
    refine h.move hw (h.not_joined hstop) ?_
    rw [State.readable, hpipe]
    exact .round work hw hstop
  | selectingStopped hw hjoin =>
    refine h.move (h.stopped hw) hjoin ?_
    rw [hpipe]
    exact .roundStopped work _ hw hjoin

/-- A callback uses what the plan says is allocated. -/
theorem callback_follows (h : Follows t s p)
    (hstep : s.step t (.callback w) = some s') : Follows t s' p := by
  simp only [State.step] at hstep
  split at hstep
  · rename_i work control hphase
    obtain rfl := Option.some.inj hstep
    have hat := h.threads w
    rw [hphase] at hat
    generalize hpipe : s.pipe w = pipe at hat
    -- a callback uses what the thread may use, whether it is told to stop or not
    cases hat with
    | round _ hw hstop => exact h.move hw (h.not_joined hstop) (hpipe ▸ .round work hw hstop)
    | roundStopped _ _ hw hjoin =>
      exact h.move (h.stopped hw) hjoin (hpipe ▸ .roundStopped work control hw hjoin)
  · cases hstep

/-- The thread reads what has been written: that it is to stop. -/
theorem Follows.read (h : Follows t s p) (hw : w ∈ p.stopped) (hjoin : w ∉ p.joined) :
    Follows t ({ s with pipe := Function.update s.pipe w [] }.move t w .exited) p := by
  have huses : t.uses w ⊆ s.live := h.uses_subset (h.stopped hw) hjoin
  rw [State.move, State.check_of_right huses]
  refine ⟨h.ok, h.live, h.stopped, h.joined, h.uses, fun u => ?_⟩
  by_cases hu : u = w
  · subst hu
    simpa only [Function.update_self] using At.exited hw hjoin
  · simpa only [Function.update_of_ne hu] using h.threads u

/-- The end of a round leaves the state at its point of the plan, or the thread at its end. -/
theorem endRound_follows (h : Follows t s p)
    (hstep : s.step t (.endRound w) = some s') : Follows t s' p := by
  simp only [State.step] at hstep
  split at hstep
  · rename_i control hphase
    obtain rfl := Option.some.inj hstep
    have hat := h.threads w
    rw [hphase] at hat
    generalize hpipe : s.pipe w = pipe at hat
    cases hat with
    | round _ hw hstop => exact h.move hw (h.not_joined hstop) (hpipe ▸ .selecting hw hstop)
    | roundStopped _ _ hw hjoin =>
      cases control with
      | true =>
        simp only [State.endRound, hpipe]
        exact h.read hw hjoin
      -- `select` had returned before the pipe was written to
      | false => exact h.move (h.stopped hw) hjoin (hpipe ▸ .selectingStopped hw hjoin)
  · cases hstep

/-! ### The steps of the owner -/

omit [DecidableEq ρ] in
/-- Other threads are among those started as they were. -/
theorem mem_insert_of_ne {u : ω} {started : Finset ω} (hu : u ≠ w) :
    u ∈ insert w started ↔ u ∈ started := Finset.mem_insert.trans (or_iff_right hu)

/-- An action that is in order goes right, or waits for a thread that has been told to stop. -/
theorem act_follows {a : Action ρ ω} (h : Follows t s p) (hplan : p.step t a = some p') :
    (∃ s', s.act a = some s' ∧ Follows t s' p') ∨
      ∃ w, a = .join w ∧ w ∈ p.stopped ∧ w ∉ p.joined ∧
        (s.phase w = .selecting ∨ ∃ work control, s.phase w = .round work control) := by
  cases a with
  | alloc r =>
    obtain ⟨hr, heq⟩ := Option.ite_none_right_eq_some.mp hplan
    obtain rfl := Option.some.inj heq
    refine .inl ⟨_, rfl, ?_⟩
    rw [State.check_of_right (h.live ▸ hr)]
    exact ⟨h.ok, congrArg (insert r) h.live, h.stopped, h.joined,
      fun w hw hjoin => (h.uses w hw hjoin).trans (Finset.subset_insert r p.live),
      fun w => (h.threads w).congr Iff.rfl Iff.rfl Iff.rfl⟩
  | use r =>
    obtain ⟨hr, heq⟩ := Option.ite_none_right_eq_some.mp hplan
    obtain rfl := Option.some.inj heq
    refine .inl ⟨_, rfl, ?_⟩
    rw [State.check_of_right (h.live ▸ hr)]
    exact h
  | free r =>
    obtain ⟨⟨hr, hfree⟩, heq⟩ := Option.ite_none_right_eq_some.mp hplan
    obtain rfl := Option.some.inj heq
    refine .inl ⟨_, rfl, ?_⟩
    rw [State.check_of_right (h.live ▸ hr)]
    refine ⟨h.ok, congrArg (Finset.erase · r) h.live, h.stopped, h.joined,
      fun w hw hjoin => ?_, fun w => (h.threads w).congr Iff.rfl Iff.rfl Iff.rfl⟩
    exact Finset.subset_erase.mpr ⟨h.uses w hw hjoin, hfree w hw hjoin⟩
  | spawn w =>
    obtain ⟨⟨hw, huses⟩, heq⟩ := Option.ite_none_right_eq_some.mp hplan
    obtain rfl := Option.some.inj heq
    refine .inl ⟨_, rfl, ?_⟩
    have hstop : w ∉ p.stopped := fun hstop => hw (h.stopped hstop)
    have hat := h.threads w
    generalize hphase : s.phase w = phase at hat
    generalize hpipe : s.pipe w = pipe at hat
    cases hat with
    | absent =>
      rw [State.check_of_right rfl]
      refine ⟨h.ok, h.live, h.stopped.trans (Finset.subset_insert w p.started), h.joined,
        fun u hu hjoin => ?_, fun u => ?_⟩
      · obtain rfl | hu := Finset.mem_insert.mp hu
        · exact huses
        · exact h.uses u hu hjoin
      · by_cases hu : u = w
        · subst hu
          simp only [Function.update_self, hpipe]
          exact .selecting (Finset.mem_insert_self u p.started) hstop
        · simp only [Function.update_of_ne hu]
          exact (h.threads u).congr (mem_insert_of_ne hu) Iff.rfl Iff.rfl
    | selecting h' | round _ h' => exact absurd h' hw
    | selectingStopped h' | roundStopped _ _ h' | exited h' => exact absurd h' hstop
    | joined h' => exact absurd (h.joined h') hstop
  | write w code =>
    obtain ⟨⟨rfl, hw, hstop⟩, heq⟩ := Option.ite_none_right_eq_some.mp hplan
    obtain rfl := Option.some.inj heq
    refine .inl ⟨_, rfl, ?_⟩
    have hjoin := h.not_joined hstop
    have hat := h.threads w
    have hnew : w ∈ insert w p.stopped := Finset.mem_insert_self w p.stopped
    -- it is in its loop, with nothing in its pipe
    have hrunning : (s.phase w = .selecting ∨ ∃ work, s.phase w = .round work false) ∧
        s.pipe w = [] := by
      generalize s.phase w = phase at hat
      generalize s.pipe w = pipe at hat
      cases hat with
      | absent h' => exact absurd hw h'
      | selecting => exact ⟨.inl rfl, rfl⟩
      | round work => exact ⟨.inr ⟨work, rfl⟩, rfl⟩
      | selectingStopped h' | roundStopped _ _ h' | exited h' => exact absurd h' hstop
      | joined h' => exact absurd h' hjoin
    obtain ⟨hphase, hpipe⟩ := hrunning
    have hright : s.phase w ≠ .absent ∧ s.phase w ≠ .joined := by
      obtain h' | ⟨_, h'⟩ := hphase <;> rw [h'] <;> simp
    rw [State.check_of_right hright]
    refine ⟨h.ok, h.live, Finset.insert_subset hw h.stopped,
      h.joined.trans (Finset.subset_insert w p.stopped), h.uses, fun u => ?_⟩
    by_cases hu : u = w
    · subst hu
      simp only [Function.update_self, hpipe, List.nil_append]
      obtain h' | ⟨work, h'⟩ := hphase
      · rw [h']
        exact .selectingStopped hnew hjoin
      · rw [h']
        exact .roundStopped work false hnew hjoin
    · simp only [Function.update_of_ne hu]
      exact (h.threads u).congr Iff.rfl (mem_insert_of_ne hu) Iff.rfl
  | join w =>
    obtain ⟨⟨hstop, hjoin⟩, heq⟩ := Option.ite_none_right_eq_some.mp hplan
    obtain rfl := Option.some.inj heq
    have hat := h.threads w
    generalize hphase : s.phase w = phase at hat
    generalize hpipe : s.pipe w = pipe at hat
    cases hat with
    | absent h' => exact absurd (h.stopped hstop) h'
    | selecting _ h' | round _ _ h' => exact absurd hstop h'
    | selectingStopped => exact .inr ⟨w, rfl, hstop, hjoin, .inl hphase⟩
    | roundStopped work control => exact .inr ⟨w, rfl, hstop, hjoin, .inr ⟨work, control, hphase⟩⟩
    | exited =>
      refine .inl ⟨{ s with phase := Function.update s.phase w .joined }, ?_, ?_⟩
      · simp only [State.act, hphase]
      · refine ⟨h.ok, h.live, h.stopped, Finset.insert_subset hstop h.joined,
          fun u hu hjoin' => h.uses u hu fun hjoin => hjoin' (Finset.mem_insert_of_mem hjoin),
          fun u => ?_⟩
        by_cases hu : u = w
        · subst hu
          simp only [Function.update_self, hpipe]
          exact .joined (Finset.mem_insert_self u p.joined)
        · simp only [Function.update_of_ne hu]
          exact (h.threads u).congr Iff.rfl Iff.rfl (mem_insert_of_ne hu)
    | joined h' => exact absurd h' hjoin

/-! ### Runs -/

/-- The state is at a point of the plan from which what is left of the program leads to its
    end. -/
def Planned (t : Threads ρ ω) (last : Plan ρ ω) (s : State ρ ω) : Prop :=
  ∃ p, Follows t s p ∧ exec (Plan.step t) p s.program = some last

variable {last : Plan ρ ω} {program : List (Action ρ ω)} {ls : List (Label ω)}

/-- An action leaves the rest of the program alone. -/
theorem act_program {a : Action ρ ω} (h : s.act a = some s') : s'.program = s.program := by
  cases a with
  | alloc r | use r | free r | spawn w | write w code =>
    obtain rfl := Option.some.inj h
    rfl
  | join w =>
    -- a join that can be made changes the thread's phase, and no program
    simp only [State.act] at h
    split at h
    · obtain rfl := Option.some.inj h
      rfl
    · obtain rfl := Option.some.inj h
      rfl
    · obtain rfl := Option.some.inj h
      rfl
    · cases h
    · cases h

/-- Only the owner changes the program. -/
theorem step_program {l : Label ω} (hl : l ≠ .owner) (hstep : s.step t l = some s') :
    s'.program = s.program := by
  cases l with
  | owner => exact absurd rfl hl
  | interrupted w | select w work =>
    obtain ⟨-, heq⟩ := Option.ite_none_right_eq_some.mp hstep
    obtain rfl := Option.some.inj heq
    rfl
  | callback w =>
    simp only [State.step] at hstep
    split at hstep
    · obtain rfl := Option.some.inj hstep
      rfl
    · cases hstep
  | endRound w =>
    simp only [State.step] at hstep
    split at hstep
    · rename_i control _
      obtain rfl := Option.some.inj hstep
      cases control with
      | true =>
        simp only [State.endRound]
        split <;> rfl
      | false => rfl
    · cases hstep

/-- What the threads do does not depend on how far the owner has got. -/
theorem step_follows {l : Label ω} (hl : l ≠ .owner) (h : Follows t s p)
    (hstep : s.step t l = some s') : Follows t s' p := by
  cases l with
  | owner => exact absurd rfl hl
  | interrupted w => exact interrupted_follows h hstep
  | select w work => exact select_follows h hstep
  | callback w => exact callback_follows h hstep
  | endRound w => exact endRound_follows h hstep

/-- The owner's next action, or its wait. -/
theorem owner_follows {a : Action ρ ω} (h : Follows t s p) (hprogram : s.program = a :: program)
    (hplan : p.step t a = some p') :
    (∃ s', s.step t .owner = some s' ∧ s'.program = program ∧ Follows t s' p') ∨
      ∃ w, a = .join w ∧ w ∈ p.stopped ∧ w ∉ p.joined ∧ s.step t .owner = none ∧
        (s.phase w = .selecting ∨ ∃ work control, s.phase w = .round work control) := by
  -- the rest of the program is still to be run from the same point
  have hrest : Follows t { s with program := program } p :=
    ⟨h.ok, h.live, h.stopped, h.joined, h.uses, h.threads⟩
  have hstep : s.step t .owner = { s with program := program }.act a := by
    simp only [State.step, hprogram]
  rw [hstep]
  obtain ⟨s', hact, hs'⟩ | ⟨w, rfl, hstop, hjoin, hphase⟩ := act_follows hrest hplan
  · exact .inl ⟨s', hact, act_program hact, hs'⟩
  -- only a join has to wait, for a thread that is at work
  · refine .inr ⟨w, rfl, hstop, hjoin, ?_, hphase⟩
    have hbusy : s.phase w = .selecting ∨ ∃ work control, s.phase w = .round work control := hphase
    obtain hphase | ⟨work, control, hphase⟩ := hbusy <;> simp only [State.act, hphase]

/-- Every step leaves the state at a point from which the plan reaches its end. -/
theorem step_planned {l : Label ω} (h : Planned t last s) (hstep : s.step t l = some s') :
    Planned t last s' := by
  obtain ⟨p, hp, hlast⟩ := h
  by_cases hl : l = .owner
  · subst hl
    cases hprogram : s.program with
    | nil => simp only [State.step, hprogram, reduceCtorEq] at hstep
    | cons a program =>
      rw [hprogram, exec_cons, Option.bind_eq_some_iff] at hlast
      obtain ⟨p', hplan, hlast⟩ := hlast
      -- the owner's step is the plan's next one, or there is none
      obtain ⟨s₁, h₁, hprogram₁, hs₁⟩ | ⟨w, -, -, -, hnone, -⟩ := owner_follows hp hprogram hplan
      · obtain rfl : s₁ = s' := Option.some.inj (h₁.symm.trans hstep)
        exact ⟨p', hs₁, hprogram₁ ▸ hlast⟩
      · rw [hnone] at hstep
        cases hstep
  · exact ⟨p, step_follows hl hp hstep, step_program hl hstep ▸ hlast⟩

/-- Every state of a run is at a point from which the plan reaches its end. -/
theorem exec_start_planned (hplan : exec (Plan.step t) .new program = some last)
    (hexec : exec (State.step t) (.start program) ls = some s) : Planned t last s :=
  exec_invariant (fun _ _ _ h hs => step_planned h hs) ⟨.new, start_follows t program, hplan⟩ hexec

/-- Whatever the threads do, nothing goes wrong with a program that goes through its plan. -/
theorem exec_start_ok (hplan : exec (Plan.step t) .new program = some last)
    (hexec : exec (State.step t) (.start program) ls = some s) : s.ok = true := by
  obtain ⟨p, hp, -⟩ := exec_start_planned hplan hexec
  exact hp.ok

/-- At its end there is allocated what the plan says, and of the threads that have been waited
    for none is left. -/
theorem exec_start_done (hplan : exec (Plan.step t) .new program = some last)
    (hexec : exec (State.step t) (.start program) ls = some s) (hdone : s.program = []) :
    s.live = last.live ∧ (last.started ⊆ last.joined →
      ∀ w, s.phase w = .absent ∨ s.phase w = .joined) := by
  obtain ⟨p, hp, hlast⟩ := exec_start_planned hplan hexec
  rw [hdone] at hlast
  obtain rfl : p = last := by simpa using hlast
  refine ⟨hp.live, fun hall w => ?_⟩
  have hat := hp.threads w
  generalize s.phase w = phase at hat
  generalize s.pipe w = pipe at hat
  -- any other phase is that of a thread that has not been joined
  cases hat with
  | absent => exact .inl rfl
  | joined => exact .inr rfl
  | selecting hw hstop => exact absurd (hp.joined (hall hw)) hstop
  | round _ hw hstop => exact absurd (hp.joined (hall hw)) hstop
  | selectingStopped hstop hjoin => exact absurd (hall (hp.stopped hstop)) hjoin
  | roundStopped _ _ hstop hjoin => exact absurd (hall (hp.stopped hstop)) hjoin
  | exited hstop hjoin => exact absurd (hall (hp.stopped hstop)) hjoin

/-! ### Nobody waits for ever -/

/-- A round comes to its end, and with it the thread if its pipe was readable. -/
theorem exec_round {work : Nat} {control : Bool} (h : Follows t s p)
    (hphase : s.phase w = .round work control) :
    ∃ ls s', exec (State.step t) s ls = some s' ∧ s'.program = s.program ∧ Follows t s' p ∧
      s'.phase w = if control then .exited else .selecting := by
  induction work generalizing s with
  | zero =>
    -- the last callback has run, and the round ends
    have hstep : s.step t (.endRound w) = some (s.endRound t w control) := by
      simp only [State.step, hphase]
    have hne : Label.endRound w ≠ .owner := nofun
    refine ⟨[.endRound w], s.endRound t w control, by rw [exec_cons, hstep]; rfl,
      step_program hne hstep, endRound_follows h hstep, ?_⟩
    have hat := h.threads w
    rw [hphase] at hat
    generalize hpipe : s.pipe w = pipe at hat
    cases hat with
    | round => exact Function.update_self w _ _
    | roundStopped =>
      cases control with
      | true =>
        simp only [State.endRound, hpipe]
        exact Function.update_self w _ _
      | false => exact Function.update_self w _ _
  | succ work ih =>
    -- one callback after the other
    have hstep : s.step t (.callback w) = some (s.move t w (.round work control)) := by
      simp only [State.step, hphase]
    obtain ⟨ls, s', hexec, hprogram, hs', hend⟩ := ih (callback_follows h hstep)
      (Function.update_self w _ _)
    exact ⟨.callback w :: ls, s', by rw [exec_cons, hstep]; exact hexec, hprogram, hs', hend⟩

/-- A thread that has been told to stop can come to its end, if `select` can return when its pipe
    is readable. -/
theorem exec_exits (hreturns : ∀ w, ∃ work, t.callbacks w true work) (h : Follows t s p)
    (hstop : w ∈ p.stopped)
    (hphase : s.phase w = .selecting ∨ ∃ work control, s.phase w = .round work control) :
    ∃ ls s', exec (State.step t) s ls = some s' ∧ s'.program = s.program ∧ Follows t s' p ∧
      s'.phase w = .exited := by
  -- from `select`, which finds the pipe readable
  have hselect : ∀ s, Follows t s p → s.phase w = .selecting →
      ∃ ls s', exec (State.step t) s ls = some s' ∧ s'.program = s.program ∧ Follows t s' p ∧
        s'.phase w = .exited := by
    intro s h hphase
    have hat := h.threads w
    rw [hphase] at hat
    generalize hpipe : s.pipe w = pipe at hat
    cases hat with
    | selecting _ hnot => exact absurd hstop hnot
    | selectingStopped =>
      have hreadable : s.readable w = true := by rw [State.readable, hpipe]; rfl
      obtain ⟨work, hwork⟩ := hreturns w
      have hstep : s.step t (.select w work) = some (s.move t w (.round work true)) := by
        simp only [State.step, hphase, hreadable, hwork, and_self, if_true]
      obtain ⟨ls, s', hexec, hprogram, hs', hend⟩ := exec_round (select_follows h hstep)
        (Function.update_self w _ _)
      exact ⟨.select w work :: ls, s', by rw [exec_cons, hstep]; exact hexec, hprogram, hs', hend⟩
  obtain hphase | ⟨work, control, hphase⟩ := hphase
  · exact hselect s h hphase
  · obtain ⟨ls₁, s₁, hexec₁, hprogram₁, hs₁, hend₁⟩ := exec_round h hphase
    cases control with
    | true => exact ⟨ls₁, s₁, hexec₁, hprogram₁, hs₁, hend₁⟩
    -- the round had begun before the thread was told to stop
    | false =>
      obtain ⟨ls₂, s₂, hexec₂, hprogram₂, hs₂, hend₂⟩ := hselect s₁ hs₁ hend₁
      refine ⟨ls₁ ++ ls₂, s₂, ?_, hprogram₂.trans hprogram₁, hs₂, hend₂⟩
      rw [exec_append, hexec₁]
      exact hexec₂

/-- Wherever it has got, the program can be brought to its end. -/
theorem Planned.finishes (hreturns : ∀ w, ∃ work, t.callbacks w true work)
    (h : Planned t last s) : ∃ ls s', exec (State.step t) s ls = some s' ∧ s'.program = [] := by
  obtain ⟨p, hp, hlast⟩ := h
  generalize hprogram : s.program = program at hlast
  induction program generalizing s p with
  | nil => exact ⟨[], s, rfl, hprogram⟩
  | cons a program ih =>
    rw [exec_cons, Option.bind_eq_some_iff] at hlast
    obtain ⟨p', hplan, hlast⟩ := hlast
    -- the action itself, once it can be done
    have hact : ∀ s₁, Follows t s₁ p → s₁.program = a :: program →
        (∀ w, a = .join w → s₁.phase w = .exited) →
        ∃ ls s', exec (State.step t) s₁ ls = some s' ∧ s'.program = [] := by
      intro s₁ hs₁ hprogram₁ hexited
      obtain ⟨s₂, h₂, hprogram₂, hs₂⟩ | ⟨w, rfl, -, -, -, hphase⟩ :=
        owner_follows hs₁ hprogram₁ hplan
      · obtain ⟨ls, s', hexec, hdone⟩ := ih p' hs₂ hprogram₂ hlast
        exact ⟨.owner :: ls, s', by rw [exec_cons, h₂]; exact hexec, hdone⟩
      · rw [hexited w rfl] at hphase
        obtain hphase | ⟨_, _, hphase⟩ := hphase <;> cases hphase
    obtain ⟨s₁, h₁, hprogram₁, hs₁⟩ | ⟨w, rfl, hstop, -, -, hphase⟩ :=
      owner_follows hp hprogram hplan
    · obtain ⟨ls, s', hexec, hdone⟩ := ih p' hs₁ hprogram₁ hlast
      exact ⟨.owner :: ls, s', by rw [exec_cons, h₁]; exact hexec, hdone⟩
    · obtain ⟨ls₁, s₁, hexec₁, hprogram₁, hs₁, hend⟩ := exec_exits hreturns hp hstop hphase
      obtain ⟨ls, s', hexec, hdone⟩ := hact s₁ hs₁ (hprogram₁.trans hprogram) fun u hu => by
        obtain rfl := Action.join.inj hu
        exact hend
      refine ⟨ls₁ ++ ls, s', ?_, hdone⟩
      rw [exec_append, hexec₁]
      exact hexec

/-- The owner never waits for ever: from wherever a run has got, the program can be brought to its
    end. -/
theorem exec_start_finishes (hreturns : ∀ w, ∃ work, t.callbacks w true work)
    (hplan : exec (Plan.step t) .new program = some last)
    (hexec : exec (State.step t) (.start program) ls = some s) :
    ∃ ls' s', exec (State.step t) s ls' = some s' ∧ s'.program = [] :=
  (exec_start_planned hplan hexec).finishes hreturns

end Follows

end OwnedThreads
