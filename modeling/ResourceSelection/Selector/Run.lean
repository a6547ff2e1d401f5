import ResourceSelection.Selector.Build
import ResourceSelection.Selector.Check
import ResourceSelection.Selector.Selection

/-!
# Runs of a selector

What can happen to a selector, one event after the other. Most events are calls: a selection, a
report, a check pass, calls in flight counted by hand, the end of checking. Besides calls the
executor can tick, and whoever else uses the host can leave it as they like: other selectors share
its random numbers, its memory and its executor.

A check pass takes the resources in some order, which nobody promises. A call therefore names the
order, and any list of names will do: a pass that leaves a resource out is one on which the policy
had no use for a probe of it.

The reachable systems are those that a build and any events after it lead to. An event that crashes
in supplied code leaves what had changed before the crash, and the run goes on from there.
-/

namespace ResourceSelection

/-- What callers ask of a selector. -/
inductive Call where
  /-- A selection, with or without names to leave out. -/
  | select (exclude : Option (List String))
  | report (result : CallResult) (name : String)
  | down (name : String)
  /-- A check pass in the given order. -/
  | check (order : List String)
  /-- One more call in flight, counted by hand. -/
  | acquire (name : String)
  /-- One call in flight less, counted by hand. -/
  | release (name : String)
  /-- The end of checking. -/
  | close

/-- What can happen to a selector. -/
inductive Event (ω : Type) where
  | call (c : Call)
  | tick
  /-- Others leave the host in another state. -/
  | others (host : Host ω)

/-- What a caller reports of a resource. -/
inductive Feedback where
  | report (result : CallResult) (name : String)
  | down (name : String)

namespace Feedback

/-- The resource that is reported on. -/
def name : Feedback → String
  | report _ name => name
  | down name => name

/-- The report as an event. -/
def event {ω : Type} : Feedback → Event ω
  | .report result name => .call (.report result name)
  | .down name => .call (.down name)

end Feedback

namespace System

variable {ω : Type} [Scalar ω]

/-- The system after a call. -/
def call (c : Call) (s : System ω) : System ω :=
  match c with
  | .select exclude => (s.selectWith exclude).2
  | .report result name => (s.report result name).2
  | .down name => (s.down name).2
  | .check order => (s.checkIn order).2
  | .acquire name => (s.acquire name).2
  | .release name => (s.release name).2
  | .close => s.close

/-- The system after an event. -/
def step (e : Event ω) (s : System ω) : System ω :=
  match e with
  | .call c => s.call c
  | .tick => s.tick.2
  | .others host => { s with host }

/-- The system after some events, the first one first. -/
def run (es : List (Event ω)) (s : System ω) : System ω := es.foldl (fun s e => s.step e) s

end System

/-- The systems that a builder leads to: the one it builds, and what events make of it. -/
inductive Builder.Reaches {ω : Type} [Scalar ω] (b : Builder ω) : System ω → Prop
  | built {id : Nat} {host : Host ω} {s : System ω} : b.build id host = .ok s → b.Reaches s
  | step {s : System ω} (e : Event ω) : b.Reaches s → b.Reaches (s.step e)

/-- Whether some builder leads to the system. -/
def System.Reachable {ω : Type} [Scalar ω] (s : System ω) : Prop :=
  ∃ b : Builder ω, b.Reaches s

end ResourceSelection
