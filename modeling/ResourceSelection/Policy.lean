import ResourceSelection.Outcome
import ResourceSelection.Policy.Flat
import ResourceSelection.Policy.Ratio

/-!
# Weight policies

A policy says how a weight moves after a success and after a failure, and which resources are to
be probed. It proposes; the resource clamps what it is given into its bounds.

A policy is either one of the two rules or supplied by the user. A supplied policy may answer
whatever it likes, and may keep a memory of its own. All that can be seen of it from outside is
what it answers, so that is what it is here: its answer to the next question of a kind about a
resource, given how many of that kind about that resource came before. The memory of successes and
failures that policies of both sorts keep is one value, shared by every selector that uses the
policy. How often a policy was asked whether a resource is to be probed is counted apart, as it is
for the probe itself.
-/

namespace ResourceSelection

/-- A policy supplied by the user. -/
structure CustomPolicy (ω : Type) where
  /-- The weight proposed after a success, given the number of earlier successes asked about. -/
  onSuccess : Context ω → Nat → Outcome ω
  /-- The weight proposed after a failure, given the number of earlier failures asked about. -/
  onFail : Context ω → Nat → Outcome ω
  /-- Whether a resource is to be probed, given the number of earlier times that this was asked. -/
  needsCheck : Context ω → Nat → Outcome Bool

/-- How weights move. -/
inductive Policy (ω : Type) where
  | shipped (rule : Rule ω)
  | custom (policy : CustomPolicy ω)

/-- What a policy remembers between two questions. -/
structure PolicyMemory where
  /-- The successes in a row of resources still at their minimum. -/
  streaks : Tally := {}
  /-- How often a supplied policy was asked about a success of each resource. -/
  successes : Tally := {}
  /-- How often a supplied policy was asked about a failure of each resource. -/
  failures : Tally := {}
deriving DecidableEq, Repr

namespace Policy

variable {ω : Type} [Scalar ω]

/-- The weight proposed after a success, and the memory. -/
def onSuccess (p : Policy ω) (c : Context ω) (m : PolicyMemory) : Outcome ω × PolicyMemory :=
  match p with
  | shipped (.ratio r) =>
    let (weight, streaks) := r.onSuccess c m.streaks
    (.done weight, { m with streaks })
  | shipped (.flat r) => (.done (r.onSuccess c), m)
  | custom p =>
    (p.onSuccess c (m.successes.count c.resource),
      { m with successes := m.successes.bump c.resource })

/-- The weight proposed after a failure, and the memory. -/
def onFail (p : Policy ω) (c : Context ω) (m : PolicyMemory) : Outcome ω × PolicyMemory :=
  match p with
  | shipped (.ratio r) =>
    let (weight, streaks) := r.onFail c m.streaks
    (.done weight, { m with streaks })
  | shipped (.flat r) => (.done (r.onFail c), m)
  | custom p =>
    (p.onFail c (m.failures.count c.resource),
      { m with failures := m.failures.bump c.resource })

/-- Whether a resource is to be probed, after some earlier questions about it. -/
def needsCheck (p : Policy ω) (c : Context ω) (earlier : Nat) : Outcome Bool :=
  match p with
  | shipped _ => .done c.isFailed
  | custom p => p.needsCheck c earlier

end Policy

end ResourceSelection
