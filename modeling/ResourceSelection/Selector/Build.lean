import ResourceSelection.Ranking
import ResourceSelection.Selector.Report

/-!
# Building a selector

A builder collects what a selector is made of. Building checks the settings first and then the
resources in order of declaration, and stops at the first cause that speaks against them. Nothing
is scheduled before everything has been accepted, so a failed build leaves the host alone.

Once all is accepted, the policy is asked about one resource after the other until one needs a check.
A selector that is being built is not yet anybody's, so a policy that crashes then leaves no selector
behind, but the questions have been asked.
-/

namespace ResourceSelection

/-- What a selector is made of. -/
structure Builder (ω : Type) where
  settings : Settings ω
  /-- The declared resources in order. -/
  resources : List (String × Declaration ω)
  /-- The policy, if it is not the one that the settings describe. -/
  policy : Option (Policy ω)
  listener : Option (Listener ω)
  probe : Option (Probe ω)
  /-- Whether checks run when the caller says so, and not on the timer. -/
  runsByHand : Bool
  /-- The ranks by which the policy is asked about the resources of the selector of a number. -/
  rank : Nat → String → Nat := fun _ _ => 0

/-- What speaks against building a selector. -/
inductive BuildFault (ω : Type) where
  | settings (fault : SettingsFault ω)
  | bounds (resource : String) (fault : BoundsFault ω)
  | registeredTwice (resource : String)

/-- Why no selector was built. -/
inductive BuildFailure (ω : Type) where
  | invalid (fault : BuildFault ω)
  /-- The policy crashed, having been asked about resources as often as told. -/
  | crashed (asked : Tally)

/-- What selectors share once no selector was built. -/
def BuildFailure.leave {ω : Type} (host : Host ω) : BuildFailure ω → Host ω
  | invalid _ => host
  | crashed asked => { host with asked }

/-- Asks about some resources in turn until one needs a check; answers whether one does. -/
def System.askAny {ω : Type} [Scalar ω] : List (Resource ω) → System ω → Outcome Bool × System ω
  | [], s => (.done false, s)
  | r :: rest, s =>
    match s.askNeed r r.current with
    | (.done false, s) => askAny rest s
    | answered => answered

namespace Builder

variable {ω : Type} [Scalar ω]

/-- A builder with usual settings and nothing else. -/
def default : Builder ω where
  settings := .default
  resources := []
  policy := none
  listener := none
  probe := none
  runsByHand := false

/-- Whether all declarations are sound and no name comes twice, those in `seen` included, or the
first thing that is wrong. -/
def validateResources (seen : List String) :
    List (String × Declaration ω) → Except (BuildFault ω) Unit
  | [] => .ok ()
  | (name, d) :: rest =>
    match d.validate with
    | .error fault => .error (.bounds name fault)
    | .ok () =>
      if seen.contains name then .error (.registeredTwice name)
      else validateResources (name :: seen) rest

/-- Whether a selector can be built, or the first thing that speaks against it. -/
def validate (b : Builder ω) : Except (BuildFault ω) Unit :=
  match b.settings.validate with
  | .error fault => .error (.settings fault)
  | .ok () => validateResources [] b.resources

omit [Scalar ω] in
/-- The priorities of some resources, each once, in ascending order. -/
def priorities (resources : List (Resource ω)) : List Nat :=
  (resources.map (·.priority)).eraseDups.mergeSort

omit [Scalar ω] in
/-- The places of the resources of a priority. -/
def placesOf (resources : List (Resource ω)) (priority : Nat) : List Nat :=
  (List.range resources.length).filter fun place =>
    resources[place]?.any fun r => r.priority = priority

/-- The groups of some resources, in ascending priority. -/
def groupUp (aliasThreshold : Nat) (resources : List (Resource ω)) : List (GroupOf Nat ω) :=
  (priorities resources).map fun priority =>
    Selector.poolOf resources priority (placesOf resources priority) aliasThreshold

/-- The selector that a sound builder describes, before anything has happened to it. -/
def toSelector (b : Builder ω) (id : Nat) : Selector ω :=
  let states := b.resources.map fun (name, d) =>
    Resource.ofDeclaration name d b.settings.countsCalls
  { id
    settings := b.settings
    policy := b.policy.getD (.shipped b.settings.rule)
    listener := b.listener
    probe := b.probe
    states
    registry := (b.resources.map (·.1)).zipIdx
    pools := groupUp b.settings.aliasThreshold states
    counters := {}
    checker := none
    closed := false }

/-- The resources of a new selector, in the order in which the policy is asked about them. -/
def askingOrder (b : Builder ω) (id : Nat) : List (Resource ω) :=
  byRank (fun r => b.rank id r.name) (b.toSelector id).states

/-- Builds a selector with the given number on a host. A check is scheduled if the settings ask for
one or a resource needs one from the start. -/
def build (b : Builder ω) (id : Nat) (host : Host ω) : Except (BuildFailure ω) (System ω) :=
  match b.validate with
  | .error fault => .error (.invalid fault)
  | .ok () =>
    match System.askAny (b.askingOrder id) ⟨b.toSelector id, host⟩ with
    | (.crashed, s) => .error (.crashed s.host.asked)
    | (.done needed, s) => .ok (if b.settings.checksAtOnce || needed then s.ensureChecker else s)

end Builder

end ResourceSelection
