import Mathlib.Logic.Function.Basic
import ResourceSelection.Resource

/-!
# One resource in many hands

Any number of parties move the weight of a resource at a time, and none waits for another. A party
that moves it by a transition loads the weight, works out the new one and exchanges the two on
condition that the old one still stands; otherwise it starts over from the weight that it has found
instead. To force the resource down is to swap the weight, whatever it is.

Load, exchange and swap are the steps here. What a party works out for itself, before its next
access to the weight, belongs to the access before. A schedule says whose turn it is, and whether an
exchange fails although the old weight stands, as it may.
-/

namespace ResourceSelection

/-- A call that moves the weight of a resource. -/
inductive Motion (ω : Type) where
  | update (transition : Context ω → ω)
  | forceDown

/-- One of those who share a resource. -/
structure Party (ω : Type) where
  /-- The calls that have not returned, in their order. -/
  todo : List (Motion ω)
  /-- The weight that the first of these expects to exchange. -/
  held : Option ω
  /-- The weights before and after, as the calls that have returned have answered them. -/
  answers : List (ω × ω)

/-- A resource and those who share it. -/
structure Shared (ι ω : Type) where
  resource : Resource ω
  parties : ι → Party ω

variable {ι ω : Type} [Scalar ω]

/-- The weight that a transition makes of the given one. -/
def Resource.movedFrom (r : Resource ω) (transition : Context ω → ω) (weight : ω) : ω :=
  clampWeight (transition (r.contextAt weight)) weight r.minWeight r.maxWeight

/-- A call that nothing comes between: its answer, and the resource after it. -/
def Motion.apply : Motion ω → Resource ω → (ω × ω) × Resource ω
  | update transition, r => r.propose (transition r.context)
  | forceDown, r => r.forceDown

/-- Calls one after the other, each of some party: the answers, and the resource after them. -/
def Resource.carryOut (r : Resource ω) : List (ι × Motion ω) → List (ι × (ω × ω)) × Resource ω
  | [] => ([], r)
  | (i, m) :: rest =>
      let (answer, r') := m.apply r
      let (answers, last) := r'.carryOut rest
      ((i, answer) :: answers, last)

namespace Party

omit [Scalar ω] in
/-- The party as its first call returns. -/
def finish (p : Party ω) (answer : ω × ω) : Party ω where
  todo := p.todo.tail
  held := none
  answers := p.answers ++ [answer]

/-- The party as it has found a weight. A call that would not change it returns at once. -/
def find (p : Party ω) (r : Resource ω) (transition : Context ω → ω) (weight : ω) : Party ω :=
  if Scalar.same (r.movedFrom transition weight) weight then p.finish (weight, weight)
  else { p with held := some weight }

/-- One access of the party to the resource. -/
def access (p : Party ω) (r : Resource ω) (fails : Bool) : Party ω × Resource ω :=
  match p.todo, p.held with
  | [], _ => (p, r)
  | .forceDown :: _, _ => (p.finish r.forceDown.1, r.forceDown.2)
  | .update transition :: _, none => (p.find r transition r.current, r)
  | .update transition :: _, some old =>
      if Scalar.same r.current old && !fails then
        let new := r.movedFrom transition old
        (p.finish (old, new), { r with current := new })
      else (p.find r transition r.current, r)

end Party

namespace Shared

omit [Scalar ω] in
/-- The parties before they have begun. -/
def start (r : Resource ω) (calls : ι → List (Motion ω)) : Shared ι ω where
  resource := r
  parties i := ⟨calls i, none, []⟩

variable [DecidableEq ι]

/-- The turn of one party, with whether an exchange fails for no reason. -/
def step (s : Shared ι ω) (turn : ι × Bool) : Shared ι ω :=
  let (party, resource) := (s.parties turn.1).access s.resource turn.2
  ⟨resource, Function.update s.parties turn.1 party⟩

/-- The turns of a schedule. -/
def run (s : Shared ι ω) (schedule : List (ι × Bool)) : Shared ι ω := schedule.foldl step s

omit [Scalar ω] [DecidableEq ι] in
/-- Every call has returned. -/
def Finished (s : Shared ι ω) : Prop := ∀ i, (s.parties i).todo = []

end Shared

end ResourceSelection
