/-!
# Calls that may crash

A selector calls back into code that its user supplies: a policy, a listener, a probe. Such a call
may crash instead of answering. A crash is an outcome like any other here: it travels to whoever
made the call, and what had changed before it stays changed.
-/

namespace ResourceSelection

/-- How a call that runs supplied code ends. -/
inductive Outcome (α : Type) where
  /-- It came back with an answer. -/
  | done (answer : α)
  /-- Supplied code crashed, and there is no answer. -/
  | crashed
deriving DecidableEq, Repr

namespace Outcome

/-- The answer, if there is one. -/
def answer? {α : Type} : Outcome α → Option α
  | done a => some a
  | crashed => none

/-- Changes the answer, if there is one. -/
def map {α β : Type} (f : α → β) : Outcome α → Outcome β
  | done a => done (f a)
  | crashed => crashed

end Outcome

end ResourceSelection
