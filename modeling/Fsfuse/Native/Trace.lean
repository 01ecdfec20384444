import Mathlib.Logic.Function.Basic

/-!
# Tracing

The indentation of `src/trace.c` and the functions that `TRACE_DEFINE` of `src/trace.h` makes
for an area, in a build with `DEBUG`. A call is made in two steps: the test whether the area is
active, and the critical section of `trace_mutex`, which no other thread comes between. What is
printed behind the indentation is left out; every byte that is written for it is on record, by
its index in the block it is for.
-/

namespace Fsfuse.Native

/-- `TAB_MAX`, the size of the block. -/
def tabMax : Nat := 1024

/-- A byte that is written to a block of tabs. -/
structure TabWrite where
  index : Nat
  byte : UInt8
deriving Repr, DecidableEq

/-- The loop of `trace_get_tabs`, from the index of `c` on: `sprintf` writes a blank and a NUL,
    and returns 1. -/
def tabsLoop : Nat → Nat → List TabWrite
  | 0, _ => []
  | rounds + 1, c => ⟨c, 32⟩ :: ⟨c + 1, 0⟩ :: tabsLoop rounds (c + 1)

/-- `trace_get_tabs`: what `trace_dent` is set to, and what is written to the block. -/
def traceGetTabs (traceDent : UInt32) : UInt32 × List TabWrite :=
  let traceDent := if traceDent < tabMax.toUInt32 then traceDent else tabMax.toUInt32
  (traceDent, ⟨0, 0⟩ :: tabsLoop traceDent.toNat 0)

/-- The calls that have a critical section: `real_trace_indent`, `real_trace_dedent`, and
    `real_trace` and `real_trace_np`, which both emit. -/
inductive TraceCall
  | indent
  | dedent
  | emit
deriving Repr, DecidableEq

/-- What `real_trace_dedent` makes of `trace_dent`. -/
def realTraceDedent (traceDent : UInt32) : UInt32 :=
  if traceDent ≠ 0 then traceDent - 2 else traceDent

/-- The variables of the tracing, and the threads `ι` that are past the test of an area `α`. -/
structure Trace (ι α : Type) where
  traceActive : α → Bool
  traceDent : UInt32
  waiting : ι → Option TraceCall
  written : List TabWrite

namespace Trace

variable {ι α : Type} [DecidableEq ι] [DecidableEq α]

/-- Before anything is traced. -/
def start : Trace ι α where
  traceActive := fun _ => false
  traceDent := 0
  waiting := fun _ => none
  written := []

/-- What threads do. -/
inductive Label (ι α : Type)
  /-- `trace_on` of an area -/
  | traceOn (area : α)
  /-- `trace_off` of an area -/
  | traceOff (area : α)
  /-- a thread comes to the test of an area -/
  | call (t : ι) (area : α) (c : TraceCall)
  /-- a thread that was let through has the mutex -/
  | enter (t : ι)
deriving Repr, DecidableEq

/-- The critical section of a call. -/
def perform (s : Trace ι α) : TraceCall → Trace ι α
  | .indent => { s with traceDent := s.traceDent + 2 }
  | .dedent => { s with traceDent := realTraceDedent s.traceDent }
  | .emit =>
    let (traceDent, tabs) := traceGetTabs s.traceDent
    { s with traceDent, written := s.written ++ tabs }

/-- A step of a thread. -/
def step (s : Trace ι α) : Label ι α → Option (Trace ι α)
  | .traceOn area => some { s with traceActive := Function.update s.traceActive area true }
  | .traceOff area => some { s with traceActive := Function.update s.traceActive area false }
  | .call t area c =>
    if s.waiting t ≠ none then none
    else if s.traceActive area then some { s with waiting := Function.update s.waiting t (some c) }
    else some s
  | .enter t =>
    match s.waiting t with
    | some c => some { s.perform c with waiting := Function.update s.waiting t none }
    | none => none

end Trace

end Fsfuse.Native
