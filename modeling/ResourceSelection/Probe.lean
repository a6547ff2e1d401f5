import ResourceSelection.Outcome
import ResourceSelection.Scalar

/-!
# Health probes

A probe asks a resource how far it has recovered and answers a rate in `[0, 1]`: zero for a failed
call, one for a full recovery. It may also report an error, or crash, and it may answer something
that is no rate at all. `ProbeReply.rate` turns every reply into a rate.

Probes come in four shapes: a rate that may be an error, a predicate, a predicate that may be an
error, and a plain rate. As with a supplied policy, a probe is given by its replies: the next
one about a resource, given how many came before.
-/

namespace ResourceSelection

/-- What comes back from one probe. -/
inductive ProbeReply (α : Type) where
  | answer (a : α)
  | error
  | crash

/-- A probe, by what it replies about a resource after so many earlier replies about it. -/
structure Probe (ω : Type) where
  reply : String → Nat → ProbeReply ω

variable {ω : Type} [Scalar ω]

/-- The rate that a reply stands for: a finite answer brought into `[0, 1]`, and zero for
anything else. -/
def ProbeReply.rate : ProbeReply ω → ω
  | answer a => if Scalar.isFinite a then Scalar.clampUnit a else 0
  | error => 0
  | crash => 0

/-- Full recovery or none. -/
def recovery (healthy : Bool) : ω := if healthy then 1 else 0

namespace Probe

/-- A probe from a predicate. -/
def ofPredicate (f : String → Nat → Outcome Bool) : Probe ω :=
  ⟨fun name n => match f name n with
    | .done healthy => .answer (recovery healthy)
    | .crashed => .crash⟩

/-- A probe from a predicate that may report an error. -/
def ofFallible (f : String → Nat → ProbeReply Bool) : Probe ω :=
  ⟨fun name n => match f name n with
    | .answer healthy => .answer (recovery healthy)
    | .error => .error
    | .crash => .crash⟩

omit [Scalar ω] in
/-- A probe from a function that scores a resource. -/
def ofRate (f : String → Nat → Outcome ω) : Probe ω :=
  ⟨fun name n => match f name n with
    | .done rate => .answer rate
    | .crashed => .crash⟩

end Probe

end ResourceSelection
