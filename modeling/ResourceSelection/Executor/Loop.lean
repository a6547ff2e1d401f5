import ResourceSelection.Executor.Timer

/-!
# The loop behind a task on a timer

`TimerTask.rest?` tells how a task ends up. This is what gets it there, taken apart into the moves
of three parties that act in any order. A loop pauses, looks at the flag of the handle and hands the
body over for one run. A pool of threads runs what was handed over. And anyone may cancel the
handle, which sets the flag and has the loop stopped where it waits: in a pause, or for a run.

A run that was handed over takes place, also when the loop that waits for it is stopped meanwhile;
nobody looks at its outcome then. When the loop is to be stopped but is not at a wait, or passes the
wait first, it finds the flag set and leaves by itself. Whichever way it leaves by itself, the last
thing it does is to set the flag.
-/

namespace ResourceSelection

namespace TimerLoop

/-- Where the loop is. -/
inductive Stage where
  /-- It waits for a delay to pass, the first one or a later one. -/
  | pausing
  /-- It is about to begin a run, unless there is a reason not to. -/
  | deciding
  /-- It waits for a run. -/
  | awaiting
  /-- It has come to its end, and has yet to set the flag. -/
  | leaving
  | gone
deriving DecidableEq, Repr

inductive Move where
  /-- The delay has passed. -/
  | wake
  | look
  /-- The body runs once, in the pool. -/
  | run
  /-- The loop takes the outcome of the run. -/
  | resume
  | leave
  /-- The loop is stopped where it waits. -/
  | halt
  /-- The handle is cancelled. -/
  | cancel
deriving DecidableEq, Repr

end TimerLoop

/-- A task on a timer while it goes. -/
structure TimerLoop where
  stage : TimerLoop.Stage := .pausing
  /-- Whether the loop has the body to hand it over. -/
  hasBody : Bool := true
  /-- How many runs were handed over. -/
  begun : Nat := 0
  /-- How many runs took place. -/
  ended : Nat := 0
  /-- The flag of the handle. -/
  cancelled : Bool := false
  /-- Whether the loop is to be stopped where it waits. -/
  aborted : Bool := false
deriving DecidableEq, Repr

namespace TimerLoop

/-- What a move leads to, if it can be made: `body` says how the run with a given number ends. The
body comes back from a run only if it is to run again. -/
def step? (body : Nat → RunEnd) (s : TimerLoop) : Move → Option TimerLoop
  | .wake => if s.stage = .pausing then some { s with stage := .deciding } else none
  | .look =>
    if s.stage = .deciding then
      if s.hasBody && !s.cancelled then
        some { s with stage := .awaiting, hasBody := false, begun := s.begun + 1 }
      else some { s with stage := .leaving }
    else none
  | .run => if s.ended < s.begun then some { s with ended := s.ended + 1 } else none
  | .resume =>
    if s.stage = .awaiting ∧ s.ended = s.begun then
      match body s.ended with
      | .again => some { s with stage := .pausing, hasBody := true }
      | .stop => some { s with stage := .leaving }
      | .crash => some { s with stage := .leaving }
    else none
  | .leave =>
    if s.stage = .leaving then some { s with stage := .gone, cancelled := true } else none
  | .halt =>
    if s.aborted ∧ (s.stage = .pausing ∨ s.stage = .awaiting) then some { s with stage := .gone }
    else none
  | .cancel => some { s with cancelled := true, aborted := s.aborted || !s.cancelled }

/-- The loop is gone and no run is in progress. -/
def Resting (s : TimerLoop) : Prop := s.stage = .gone ∧ s.ended = s.begun

instance (s : TimerLoop) : Decidable s.Resting :=
  inferInstanceAs (Decidable (s.stage = .gone ∧ s.ended = s.begun))

end TimerLoop

end ResourceSelection
