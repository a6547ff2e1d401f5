import ResourceSelection.Executor.Manual
import ResourceSelection.Group
import ResourceSelection.Policy
import ResourceSelection.Probe
import ResourceSelection.Settings

/-!
# Selectors

A selector owns the state of every registered resource. Two structures lead to the states, each by
their place in the order of registration: a registry, through which callers refer to a resource by
its name, and the priority groups, from which resources are selected. A selector also counts what
happens to it and knows whether its resources are being checked.

What several selectors may share is not part of any of them. It belongs to the host: the random
numbers, what the policy and the probe have been asked, the events delivered to the listener, and
the executor on which checks are scheduled. A selector at work is a `System`, a selector with its
host, and every operation is a function on systems.

An operation that runs supplied code answers an `Outcome`, next to the system as it is afterwards.
When the code crashes, that system holds everything that had changed before the crash.
-/

namespace ResourceSelection

/-- What made a weight change. -/
inductive Cause where
  | success
  | failure
  | down
  | healthCheck
deriving DecidableEq, Repr

/-- One change of a weight, as a listener is told of it. -/
structure WeightChange (ω : Type) where
  resource : String
  oldWeight : ω
  newWeight : ω
  maxWeight : ω
  minWeight : ω
  priority : Nat
  cause : Cause

/-- A listener, by the changes that it crashes on, given those it was told of before. It is told
of every change, and a crash comes after it has been told. -/
structure Listener (ω : Type) where
  crashes : List (WeightChange ω) → WeightChange ω → Bool

/-- What has happened to a selector so far, in words of 64 bits that wrap around. -/
structure Counters where
  /-- Selections that found a resource. -/
  selections : UInt64 := 0
  /-- Selections that found none. -/
  exhausted : UInt64 := 0
  successes : UInt64 := 0
  failures : UInt64 := 0
  downs : UInt64 := 0
  probes : UInt64 := 0
  /-- Probes that answered zero, or did not answer. -/
  probeFailures : UInt64 := 0
deriving DecidableEq, Repr

/-- A selector. -/
structure Selector (ω : Type) where
  /-- The number by which its scheduled check knows it. -/
  id : Nat
  settings : Settings ω
  policy : Policy ω
  listener : Option (Listener ω)
  /-- How its resources are probed; without a probe nothing is checked. -/
  probe : Option (Probe ω)
  /-- The state of each resource. A resource is known elsewhere by its place here. -/
  states : List (Resource ω)
  /-- The place of each registered name. -/
  registry : List (String × Nat)
  /-- The groups in ascending priority, each knowing its members by their places. -/
  pools : List (GroupOf Nat ω)
  counters : Counters
  /-- The handle of its scheduled check. -/
  checker : Option Handle
  closed : Bool

/-- What selectors share. -/
structure Host (ω : Type) where
  rng : Rng
  memory : PolicyMemory := {}
  /-- How often the policy was asked whether each resource is to be probed. -/
  asked : Tally := {}
  /-- How often each resource has been probed. -/
  probed : Tally := {}
  /-- The changes that the listener was told of, the latest first. -/
  events : List (WeightChange ω) := []
  /-- The scheduled checks, each by the number of its selector. -/
  executor : ManualExecutor Nat := {}

/-- A selector at work. -/
structure System (ω : Type) where
  selector : Selector ω
  host : Host ω

namespace Selector

variable {ω : Type}

/-- The states at the given places. -/
def statesAt (states : List (Resource ω)) (places : List Nat) : List (Resource ω) :=
  places.filterMap fun place => states[place]?

/-- A group with the states of its members. -/
def groupOf (states : List (Resource ω)) (p : GroupOf Nat ω) : Group ω :=
  p.withMembers (statesAt states p.members)

/-- The groups with the states of their members, in ascending priority. -/
def groups (s : Selector ω) : List (Group ω) := s.pools.map (groupOf s.states)

/-- The resources of all groups, in ascending priority and then in order of registration. -/
def resources (s : Selector ω) : List (Resource ω) := s.groups.flatMap (·.members)

/-- The place of the resource registered under a name. -/
def place? (s : Selector ω) (name : String) : Option Nat := s.registry.lookup name

/-- The place and the state of the resource registered under a name. -/
def entry? (s : Selector ω) (name : String) : Option (Nat × Resource ω) :=
  (s.place? name).bind fun place => (s.states[place]?).map fun r => (place, r)

/-- The resource registered under a name. -/
def find? (s : Selector ω) (name : String) : Option (Resource ω) := (s.entry? name).map (·.2)

/-- The selector after a change to the state at a place. -/
def modifyAt (s : Selector ω) (place : Nat) (f : Resource ω → Resource ω) : Selector ω :=
  { s with states := s.states.modify place f }

/-- The number of priority groups. -/
def groupCount (s : Selector ω) : Nat := s.pools.length

/-- The status of one resource. -/
def statusOf (s : Selector ω) (name : String) : Option (Status ω) := (s.find? name).map (·.status)

/-- The names of the registered resources. -/
def allResources (s : Selector ω) : List String := s.resources.map (·.name)

variable [Scalar ω]

/-- The names of the resources that can be selected. -/
def availableResources (s : Selector ω) : List String :=
  (s.resources.filter (·.isAvailable)).map (·.name)

/-- The names of the resources at their minimum and below their maximum. -/
def failedResources (s : Selector ω) : List String :=
  (s.resources.filter (·.isFailed)).map (·.name)

/-- A new group of the states at the given places. -/
def poolOf (states : List (Resource ω)) (priority : Nat) (places : List Nat)
    (aliasThreshold : Nat) : GroupOf Nat ω :=
  (Group.make priority (statesAt states places) aliasThreshold).withMembers places

/-- A group with a new snapshot of its members. -/
def refreshPool (states : List (Resource ω)) (p : GroupOf Nat ω) : GroupOf Nat ω :=
  (groupOf states p).refresh.withMembers p.members

/-- The selector with a new snapshot of the first group of a priority. -/
def refreshGroup (s : Selector ω) (priority : Nat) : Selector ω :=
  match s.pools.findIdx? fun p => p.priority = priority with
  | some index => { s with pools := s.pools.modify index (refreshPool s.states) }
  | none => s

end Selector

namespace System

variable {ω : Type}

/-- The system after a change to what is counted. -/
def count (s : System ω) (f : Counters → Counters) : System ω :=
  { s with selector := { s.selector with counters := f s.selector.counters } }

/-- Whether a check of the selector is scheduled. -/
def isChecking (s : System ω) : Bool :=
  match s.selector.checker with
  | some h => !s.host.executor.isCancelled h
  | none => false

/-- The system after a change to the state at a place. -/
def modifyAt (place : Nat) (f : Resource ω → Resource ω) (s : System ω) : System ω :=
  { s with selector := s.selector.modifyAt place f }

/-- Does something with the state of a name; answers no when there is none. -/
def onState (name : String) (f : Resource ω → Bool × Resource ω) (s : System ω) :
    Bool × System ω :=
  match s.selector.entry? name with
  | some (place, r) => ((f r).1, s.modifyAt place fun r => (f r).2)
  | none => (false, s)

/-- One more call in flight for a resource; answers whether its calls are counted. -/
def acquire (name : String) (s : System ω) : Bool × System ω := s.onState name Resource.acquire

/-- One call in flight less for a resource; answers whether its calls are counted. -/
def release (name : String) (s : System ω) : Bool × System ω := s.onState name Resource.release

/-- Schedules a check, if there is a probe to check with, the selector is open and none is
scheduled already. -/
def ensureChecker (s : System ω) : System ω :=
  if s.selector.probe.isNone || s.isChecking || s.selector.closed then s
  else
    let (h, executor) := s.host.executor.schedule s.selector.id
    { selector := { s.selector with checker := some h }
      host := { s.host with executor } }

/-- Cancels the scheduled check. -/
def cancelChecker (s : System ω) : System ω :=
  match s.selector.checker with
  | some h =>
    { selector := { s.selector with checker := none }
      host := { s.host with executor := s.host.executor.cancel h } }
  | none => s

/-- Stops the checks and keeps them stopped. Selecting and reporting go on working. -/
def close (s : System ω) : System ω :=
  if s.selector.closed then s
  else cancelChecker { s with selector := { s.selector with closed := true } }

end System

end ResourceSelection
