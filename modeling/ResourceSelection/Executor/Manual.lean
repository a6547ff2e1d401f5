/-!
# Running scheduled tasks by hand

An executor holds recurring tasks and runs each of them once when it is told to. Scheduling a task
answers a handle, by which anyone may cancel the task, also while tasks are running.

A run may itself cancel handles and schedule new tasks. New tasks wait for the next tick, and go
after those that are still scheduled. A task stays scheduled only if it asks to continue and has
not been cancelled by the time its run ends; otherwise its handle is cancelled.
-/

namespace ResourceSelection

/-- What a task wants after one run. -/
inductive Verdict where
  | again
  | stop
deriving DecidableEq, Repr

/-- The number of a scheduled task, in order of scheduling. -/
abbrev Handle := Nat

/-- Recurring tasks that run when told to. -/
structure ManualExecutor (τ : Type) where
  /-- The scheduled tasks in order, those cancelled since the last tick included. -/
  entries : List (Handle × τ) := []
  /-- Which handles are cancelled, by number. -/
  cancelled : List Bool := []

namespace ManualExecutor

variable {τ σ : Type}

/-- Whether a handle is cancelled; one that was never given out is. -/
def isCancelled (x : ManualExecutor τ) (h : Handle) : Bool := x.cancelled.getD h true

/-- Cancels a handle, for good. -/
def cancel (x : ManualExecutor τ) (h : Handle) : ManualExecutor τ :=
  { x with cancelled := x.cancelled.set h true }

/-- Schedules a task under a new handle. -/
def schedule (x : ManualExecutor τ) (task : τ) : Handle × ManualExecutor τ :=
  let h := x.cancelled.length
  (h, { entries := x.entries ++ [(h, task)], cancelled := x.cancelled ++ [false] })

/-- The number of tasks that are scheduled and not cancelled. -/
def scheduled (x : ManualExecutor τ) : Nat := x.entries.countP fun entry => !x.isCancelled entry.1

/-- Runs tasks in order, skipping those that are cancelled when their turn comes. Answers the ones
that stay scheduled, how many ran, and the executor and the rest of the world after them. -/
def runAll (run : τ → ManualExecutor τ × σ → (Verdict × τ) × ManualExecutor τ × σ) :
    List (Handle × τ) → ManualExecutor τ × σ →
      List (Handle × τ) × Nat × ManualExecutor τ × σ
  | [], world => ([], 0, world)
  | (h, task) :: rest, (x, s) =>
    if x.isCancelled h then runAll run rest (x, s)
    else
      let ((verdict, task), x, s) := run task (x, s)
      if verdict = .again ∧ !x.isCancelled h then
        let (kept, ran, world) := runAll run rest (x, s)
        ((h, task) :: kept, ran + 1, world)
      else
        let (kept, ran, world) := runAll run rest (x.cancel h, s)
        (kept, ran + 1, world)

/-- Runs every scheduled task once; answers how many ran. -/
def tick (run : τ → ManualExecutor τ × σ → (Verdict × τ) × ManualExecutor τ × σ)
    (world : ManualExecutor τ × σ) : Nat × ManualExecutor τ × σ :=
  let (x, s) := world
  let (kept, ran, x, s) := runAll run x.entries ({ x with entries := [] }, s)
  (ran, { x with entries := kept ++ x.entries }, s)

/-- The executor as it is shown to its user. -/
def describe (x : ManualExecutor τ) : String :=
  "ManualExecutor \x7b scheduled: " ++ toString x.scheduled ++ " \x7d"

end ManualExecutor

end ResourceSelection
