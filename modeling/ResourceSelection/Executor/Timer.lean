import ResourceSelection.Executor.Manual

/-!
# A task on a timer

A task that runs after a delay and then again after each pause, until it stops, crashes or is
cancelled. Time itself does not appear: what can be told is how the task ends up once it is at
rest.

A cancellation that arrives during a pause ends the task there. One that arrives during a run lets
the run finish and ends the task in the pause after it, so a cancellation is given by the number of
runs that it comes after. Whatever ended the task, its handle is cancelled when it rests.
-/

namespace ResourceSelection

/-- How one run of a task ends. -/
inductive RunEnd where
  | again
  | stop
  | crash
deriving DecidableEq, Repr

/-- A task that has come to rest. -/
structure AtRest where
  /-- How often the body ran. -/
  runs : Nat
  /-- Whether the task ended by itself, before anyone cancelled it. -/
  byItself : Bool
deriving DecidableEq, Repr

namespace TimerTask

/-- How a task ends up that has run `runs` times and is pausing: `body` says how its run with a
given number ends, and `cancelAfter` after how many runs it is cancelled, if at all. There is no
answer when it is still going after `fuel` more runs. -/
def rest? (body : Nat → RunEnd) (cancelAfter : Option Nat) : Nat → Nat → Option AtRest
  | runs, fuel =>
    if cancelAfter = some runs then some ⟨runs, false⟩
    else match fuel with
      | 0 => none
      | fuel + 1 =>
        match body (runs + 1) with
        | .again => rest? body cancelAfter (runs + 1) fuel
        | .stop => some ⟨runs + 1, true⟩
        | .crash => some ⟨runs + 1, true⟩

end TimerTask

end ResourceSelection
