/-
This file gives the runs of a machine that keeps a log, and the rule of their invariants.
-/

import Mathlib.Logic.Basic

namespace Liasse.Codes

section Runs

variable {State Log Event : Type*} (step : State → Event → State) (log : Log → State → Event → Log)
  (permits : State → Log → Event → Prop) (first : State) (empty : Log)

/-- The states and the logs that a run of permitted events reaches. -/
inductive Reached : State → Log → Prop
  | start : Reached first empty
  | next {state : State} {record : Log} {event : Event} (before : Reached state record)
      (permitted : permits state record event) : Reached (step state event) (log record state event)

/-- The state and the log after some events. The last event comes first. -/
def runOf : List Event → State × Log
  | [] => (first, empty)
  | event :: before =>
    (step (runOf before).1 event, log (runOf before).2 (runOf before).1 event)

variable {step log permits first empty}

/-- A property of the start that every permitted event keeps holds along the run. -/
theorem Reached.invariant {property : State → Log → Prop} (start : property first empty)
    (kept : ∀ state record event, property state record → permits state record event →
      property (step state event) (log record state event))
    {state : State} {record : Log} (reached : Reached step log permits first empty state record) :
    property state record := by
  induction reached with
  | start => exact start
  | next _ permitted ih => exact kept _ _ _ ih permitted

/-- A run of events that are all permitted is reached. -/
theorem reached_runOf (events : List Event)
    (permitted : ∀ event before, event :: before <:+ events →
      permits (runOf step log first empty before).1 (runOf step log first empty before).2 event) :
    Reached step log permits first empty (runOf step log first empty events).1
      (runOf step log first empty events).2 := by
  induction events with
  | nil => exact .start
  | cons event before ih =>
    exact .next (ih fun other earlier inside => permitted other earlier (inside.trans (List.suffix_cons _ _)))
      (permitted event before List.suffix_rfl)

end Runs

end Liasse.Codes
