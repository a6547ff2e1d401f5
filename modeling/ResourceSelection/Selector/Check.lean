import ResourceSelection.Selector.Report

/-!
# Checking resources

A check pass looks at every registered resource once and probes those that the policy says are to
be probed. A rate of zero counts as a failed call. A positive rate moves the weight that part of the
way to where a successful call would have taken it.

The pass isolates crashes: whatever a policy or the listener does for one resource, the pass goes
on with the next. Resources are visited in a given order, and `checkNow` takes the order in which
they are registered.
-/

namespace ResourceSelection.System

variable {ω : Type} [Scalar ω]

/-- Probes a resource, and remembers that it was probed. -/
def askProbe (probe : Probe ω) (name : String) (s : System ω) : ω × System ω :=
  let rate := (probe.reply name (s.host.probed.count name)).rate
  (rate, { s with host := { s.host with probed := s.host.probed.bump name } })

/-- What a probe of the given rate makes the policy propose. -/
def proposalFor (rate : ω) (r : Resource ω) (s : System ω) : Outcome ω × System ω :=
  if 0 < rate then
    let (target, s) := s.askPolicy .success r.context
    (target.map fun target => r.current + (target - r.current) * rate, s)
  else
    let s := s.count fun c => { c with probeFailures := c.probeFailures + 1 }
    s.askPolicy .failure r.context

/-- Probes the resource at a place, and moves its weight as the rate says. -/
def probeResource (probe : Probe ω) (name : String) (place : Nat) (r : Resource ω) (s : System ω) :
    Outcome Unit × System ω :=
  let s := s.count fun c => { c with probes := c.probes + 1 }
  let (rate, s) := s.askProbe probe name
  match s.proposalFor rate r with
  | (.crashed, s) => (.crashed, s)
  | (.done weight, s) =>
    let ((old, new), s) := s.propose place r weight
    s.applyChange r old new .healthCheck

/-- Checks one resource; answers whether it was probed. -/
def checkResource (probe : Probe ω) (name : String) (s : System ω) : Outcome Bool × System ω :=
  match s.selector.entry? name with
  | none => (.done false, s)
  | some (place, r) =>
    match s.askNeed r r.current with
    | (.crashed, s) => (.crashed, s)
    | (.done false, s) => (.done false, s)
    | (.done true, s) =>
      let (outcome, s) := s.probeResource probe name place r
      (outcome.map fun _ => true, s)

/-- Checks the resources of a list in turn; answers how many were probed without a crash. -/
def checkEach (probe : Probe ω) : List String → System ω → Nat × System ω
  | [], s => (0, s)
  | name :: rest, s =>
    let (outcome, s) := s.checkResource probe name
    let (probed, s) := checkEach probe rest s
    (if outcome = .done true then probed + 1 else probed, s)

/-- One check pass in a given order; answers how many resources were probed. -/
def checkIn (order : List String) (s : System ω) : Nat × System ω :=
  match s.selector.probe with
  | none => (0, s)
  | some probe => s.checkEach probe order

/-- One check pass. -/
def checkNow (s : System ω) : Nat × System ω := s.checkIn s.selector.allResources

/-- What a scheduled check does when its turn comes: the selector that it belongs to makes a pass.
The check of a selector that is gone stops. -/
def runCheck (id : Nat) (world : ManualExecutor Nat × System ω) :
    (Verdict × Nat) × ManualExecutor Nat × System ω :=
  let (executor, s) := world
  if id = s.selector.id then
    let (_, s) := checkNow { s with host := { s.host with executor } }
    ((.again, id), s.host.executor, s)
  else ((.stop, id), executor, s)

/-- Runs the scheduled checks once; answers how many ran. -/
def tick (s : System ω) : Nat × System ω :=
  let (ran, executor, s) := ManualExecutor.tick runCheck (s.host.executor, s)
  (ran, { s with host := { s.host with executor } })

/-- Lets the scheduled checks run again and again until the listener has been told of at least
`events` changes, at most `fuel` times; answers whether it has been. -/
def settle (events : Nat) : Nat → System ω → Bool × System ω
  | 0, s => (decide (events ≤ s.host.events.length), s)
  | fuel + 1, s =>
    if events ≤ s.host.events.length then (true, s) else settle events fuel s.tick.2

end ResourceSelection.System
