import ResourceSelection.Selector.Basic

/-!
# Reports

A caller reports how a call went, or that a resource is down. The policy proposes a new weight, the
resource clamps it, and if the weight changed the group's snapshot is replaced and the listener is
told. Whatever the weight did, the policy is asked whether the resource needs a check, and if it does
one gets scheduled.

A report on an unknown resource is ignored, unless the settings have a weight for such resources.
Then the resource is first registered at that weight in the group of priority zero.
-/

namespace ResourceSelection

/-- How a reported call went. -/
inductive CallResult where
  | success
  | failure
deriving DecidableEq, Repr

/-- The cause that a report is for a change. -/
def CallResult.cause : CallResult → Cause
  | success => .success
  | failure => .failure

/-- The counters after a report. -/
def CallResult.count : CallResult → Counters → Counters
  | success, c => { c with successes := c.successes + 1 }
  | failure, c => { c with failures := c.failures + 1 }

namespace Selector

variable {ω : Type} [Scalar ω]

omit [Scalar ω] in
/-- The members of the first group of a priority, by place; none if there is no such group. -/
def membersOf (s : Selector ω) (priority : Nat) : List Nat :=
  match s.pools.find? fun p => p.priority = priority with
  | some p => p.members
  | none => []

/-- The selector with a newcomer in the group of priority zero, which is made if there is none. The
group that it joins starts its turns anew. -/
def register (name : String) (weight : ω) (s : Selector ω) : Selector ω :=
  let place := s.states.length
  let states := s.states ++
    [Resource.ofDeclaration name (Declaration.ofWeight weight) s.settings.countsCalls]
  let joined := poolOf states 0 (s.membersOf 0 ++ [place]) s.settings.aliasThreshold
  let others := s.pools.filter fun p => p.priority ≠ 0
  { s with
    states
    registry := (name, place) :: s.registry
    pools := (others ++ [joined]).mergeSort fun p q => p.priority ≤ q.priority }

end Selector

namespace System

variable {ω : Type} [Scalar ω]

omit [Scalar ω] in
/-- Tells the listener, if there is one; answers whether it survived. -/
def notify (change : WeightChange ω) (s : System ω) : Outcome Unit × System ω :=
  match s.selector.listener with
  | none => (.done (), s)
  | some listener =>
    let outcome := if listener.crashes s.host.events change then .crashed else .done ()
    (outcome, { s with host := { s.host with events := change :: s.host.events } })

/-- Asks the policy whether a resource with the given weight is to be probed, and remembers that it
was asked. -/
def askNeed (r : Resource ω) (weight : ω) (s : System ω) : Outcome Bool × System ω :=
  (s.selector.policy.needsCheck (r.contextAt weight) (s.host.asked.count r.name),
    { s with host := { s.host with asked := s.host.asked.bump r.name } })

/-- Schedules a check if the policy asks for one of a resource with the given weight; answers
whether the policy survived. -/
def checkIfNeeded (r : Resource ω) (weight : ω) (s : System ω) : Outcome Unit × System ω :=
  match s.askNeed r weight with
  | (.crashed, s) => (.crashed, s)
  | (.done needed, s) => (.done (), if needed then s.ensureChecker else s)

/-- Makes a weight transition known: to the snapshot of its group and to the listener if the weight
changed, and to the checker in any case. A listener that crashes keeps the checker from hearing
of it. -/
def applyChange (r : Resource ω) (old new : ω) (cause : Cause) (s : System ω) :
    Outcome Unit × System ω :=
  if Scalar.same old new then s.checkIfNeeded r new
  else
    let s := { s with selector := s.selector.refreshGroup r.priority }
    let change : WeightChange ω :=
      ⟨r.name, old, new, r.maxWeight, r.minWeight, r.priority, cause⟩
    match s.notify change with
    | (.crashed, s) => (.crashed, s)
    | (.done (), s) => s.checkIfNeeded r new

/-- Asks the policy about a call, and remembers that it was asked. -/
def askPolicy (result : CallResult) (c : Context ω) (s : System ω) : Outcome ω × System ω :=
  let (outcome, memory) := match result with
    | .success => s.selector.policy.onSuccess c s.host.memory
    | .failure => s.selector.policy.onFail c s.host.memory
  (outcome, { s with host := { s.host with memory } })

/-- Proposes a weight to the resource at a place; answers its weights before and after. -/
def propose (place : Nat) (r : Resource ω) (weight : ω) (s : System ω) : (ω × ω) × System ω :=
  ((r.propose weight).1, s.modifyAt place fun r => (r.propose weight).2)

/-- The end of a report: the call is no longer in flight, and the transition is made known. -/
def finishReport (place : Nat) (r : Resource ω) (old new : ω) (cause : Cause) (s : System ω) :
    Outcome Unit × System ω :=
  let s := if s.selector.settings.tracksCalls then s.modifyAt place fun r => r.release.2 else s
  s.applyChange r old new cause

/-- Registers an unknown resource. -/
def register (name : String) (weight : ω) (s : System ω) : System ω :=
  { s with selector := s.selector.register name weight }

/-- The place of a name, and the system in which it is registered there, if it is or can be. -/
def knowing? (name : String) (s : System ω) : Option (Nat × System ω) :=
  match s.selector.place? name with
  | some place => some (place, s)
  | none =>
    s.selector.settings.autoAddWeight.map fun weight =>
      (s.selector.states.length, s.register name weight)

/-- Reports a call to a resource. -/
def report (result : CallResult) (name : String) (s : System ω) : Outcome Unit × System ω :=
  let s := s.count result.count
  match s.knowing? name with
  | none => (.done (), s)
  | some (place, s) =>
    match s.selector.states[place]? with
    | none => (.done (), s)
    | some r =>
      match s.askPolicy result r.context with
      | (.crashed, s) => (.crashed, s)
      | (.done weight, s) =>
        let ((old, new), s) := s.propose place r weight
        s.finishReport place r old new result.cause

/-- Reports a successful call. -/
def success (name : String) (s : System ω) : Outcome Unit × System ω := s.report .success name

/-- Reports a failed call. -/
def fail (name : String) (s : System ω) : Outcome Unit × System ω := s.report .failure name

/-- Forces a resource to its minimum; an unknown one is ignored. -/
def down (name : String) (s : System ω) : Outcome Unit × System ω :=
  let s := s.count fun c => { c with downs := c.downs + 1 }
  match s.selector.entry? name with
  | none => (.done (), s)
  | some (place, r) =>
    let (old, new) := r.forceDown.1
    let s := s.modifyAt place fun r => r.forceDown.2
    s.finishReport place r old new .down

end System

end ResourceSelection
