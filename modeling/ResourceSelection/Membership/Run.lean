import ResourceSelection.Membership.Manager
import ResourceSelection.Selector.Run

/-!
# Runs of a manager

What can happen to a manager, one event after the other: calls on its current selector, calls on an
earlier one that somebody still holds, changes of the membership, ticks of the executor, and the end
of checking. A change that cannot be made leaves the manager as it was, and so does one in which the
policy crashes, but for what the policy was asked.
-/

namespace ResourceSelection

/-- What can happen to a manager. -/
inductive ManagerEvent (ω : Type) where
  /-- A call on the manager, which goes to its current selector. -/
  | call (c : Call)
  /-- A call on the selector of a number, which somebody still holds. -/
  | callOn (id : Nat) (c : Call)
  /-- Resources are added or redeclared, and others dropped. The members are then listed by rank. -/
  | update (add : List (String × Declaration ω)) (remove : List String)
    (rank : String → Nat := fun _ => 0)
  | updateAll (resources : List (String × Declaration ω)) (rank : String → Nat := fun _ => 0)
  | tick
  | close
  /-- Others leave the host in another state. -/
  | others (host : Host ω)

namespace Manager

variable {ω : Type} [Scalar ω]

omit [Scalar ω] in
/-- The manager after a change that may not have been possible. -/
def attempt (m : Manager ω) : Except (BuildFailure ω) (Manager ω) → Manager ω
  | .ok next => next
  | .error failure => { m with host := failure.leave m.host }

/-- The manager after an event. -/
def step (e : ManagerEvent ω) (m : Manager ω) : Manager ω :=
  match e with
  | .call c => (m.onCurrent fun s => ((), s.call c)).2
  | .callOn id c => (m.onSnapshot id fun s => ((), s.call c)).2
  | .update add remove rank => m.attempt (m.update add remove rank)
  | .updateAll resources rank => m.attempt (m.updateAll resources rank)
  | .tick => m.tick.2
  | .close => m.close
  | .others host => { m with host }

/-- The managers that can come about: those created, and what events make of them. Each time that the
members are gone through, they may be listed in another order. -/
inductive Reachable : Manager ω → Prop
  | created {template : Builder ω} {resources : List (String × Declaration ω)}
      {grouping : Option (Grouping String)} {host : Host ω} {rank : String → Nat} {m : Manager ω} :
      Manager.create template resources grouping host rank = .ok m → Reachable m
  | step {m : Manager ω} (e : ManagerEvent ω) : Reachable m → Reachable (m.step e)

end Manager

end ResourceSelection
