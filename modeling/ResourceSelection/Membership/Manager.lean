import ResourceSelection.Membership.Carry
import ResourceSelection.Membership.Grouping
import ResourceSelection.Membership.Roster
import ResourceSelection.Selector.Build
import ResourceSelection.Selector.Check
import ResourceSelection.Selector.Selection

/-!
# Managing a changing membership

A manager owns a roster of members and a selector for them. Every change of the roster builds a
new selector, closes the old one and puts the new one in its place; whoever still holds the old one
can go on using it. Members that stay take their weight with them, and the policy is one and the
same throughout, so that it keeps what it remembers about them.

Priorities come from the declarations, or from a grouping that keeps the size of every group
stable. A change that cannot be built changes nothing, though the policy may have been asked.

A manager goes through its members when it is created and at every change. In which order is not to
be known beforehand, and may be another one each time.
-/

namespace ResourceSelection

/-- Who the members are, and how they are grouped. -/
structure Membership (ω : Type) where
  roster : Roster ω
  /-- What assigns priorities in place of the declarations. -/
  grouping : Option (Grouping String)

/-- The owner of a changing set of resources. -/
structure Manager (ω : Type) where
  /-- What every selector is built from, besides the members. -/
  template : Builder ω
  membership : Membership ω
  current : Selector ω
  /-- The selectors before it, the latest first. -/
  past : List (Selector ω)
  closed : Bool
  /-- What all the selectors share. -/
  host : Host ω

namespace Membership

variable {ω : Type}

/-- Takes names out. -/
def removeAll (m : Membership ω) (names : List String) : Membership ω :=
  names.foldl (fun m name =>
    ⟨m.roster.erase name, m.grouping.map fun g => (g.remove name).2⟩) m

/-- Adds declarations, or replaces those of members. -/
def addAll (m : Membership ω) (entries : List (String × Declaration ω)) : Membership ω :=
  entries.foldl (fun m entry =>
    ⟨m.roster.put entry.1 entry.2, m.grouping.map fun g => (g.add entry.1).2⟩) m

/-- The membership with the members listed by rank. -/
def arrange (rank : String → Nat) (m : Membership ω) : Membership ω :=
  ⟨m.roster.arrange rank, m.grouping⟩

/-- The members that another roster does not have, listed by rank. -/
def dropped (m : Membership ω) (next : Roster ω) (rank : String → Nat) : List String :=
  (m.roster.arrange rank).names.filter fun name => !next.names.contains name

/-- The membership after a change, listed by rank: names are taken out, and others added or declared
again. -/
def change (m : Membership ω) (remove : List String) (entries : List (String × Declaration ω))
    (rank : String → Nat) : Membership ω :=
  ((m.removeAll remove).addAll entries).arrange rank

variable [Scalar ω]

/-- How a member is declared to the next selector: with the priority that the grouping assigns, and
starting at the weight carried over from the previous selector. -/
def declarationOf (m : Membership ω) (previous : Option (Selector ω)) (name : String)
    (d : Declaration ω) : Declaration ω :=
  let d := match m.grouping.bind (·.priorityOf name) with
    | some priority => { d with priority }
    | none => d
  match previous.bind (·.statusOf name) with
  | some status => { d with initial := some (status.carry d) }
  | none => d

/-- What the selector for the members is built from. -/
def builder (m : Membership ω) (template : Builder ω) (previous : Option (Selector ω)) : Builder ω :=
  let resources := m.roster.entries.map fun (name, d) => (name, m.declarationOf previous name d)
  { template with resources }

/-- Builds the selector for the members. -/
def build (m : Membership ω) (template : Builder ω) (previous : Option (Selector ω)) (id : Nat)
    (host : Host ω) : Except (BuildFailure ω) (System ω) :=
  (m.builder template previous).build id host

end Membership

namespace Manager

variable {ω : Type}

/-- The current selector at work. -/
def system (m : Manager ω) : System ω := ⟨m.current, m.host⟩

/-- The selector of a number at work. -/
def snapshot? (m : Manager ω) (id : Nat) : Option (System ω) :=
  ((m.current :: m.past).find? fun s => s.id = id).map fun s => ⟨s, m.host⟩

/-- The manager after one of its selectors did something. -/
def record (m : Manager ω) (s : System ω) : Manager ω :=
  let replace := fun (old : Selector ω) => if old.id = s.selector.id then s.selector else old
  { m with current := replace m.current, past := m.past.map replace, host := s.host }

/-- Does something with the current selector. -/
def onCurrent {α : Type} (f : System ω → α × System ω) (m : Manager ω) : α × Manager ω :=
  let (a, s) := f m.system
  (a, m.record s)

/-- Does something with the selector of a number. -/
def onSnapshot {α : Type} (id : Nat) (f : System ω → α × System ω) (m : Manager ω) :
    Option α × Manager ω :=
  match m.snapshot? id with
  | none => (none, m)
  | some s =>
    let (a, s) := f s
    (some a, m.record s)

/-- The size of each group, with a grouping. -/
def groupSizes (m : Manager ω) : Option (List Nat) := m.membership.grouping.map (·.groupSizes)

/-- The priority of a resource in the current selector. -/
def priorityOf (m : Manager ω) (name : String) : Option Nat :=
  (m.current.statusOf name).map (·.priority)

/-- Closes the manager: the current selector, and every selector of a later change. -/
def close (m : Manager ω) : Manager ω := ({ m with closed := true }).record m.system.close

variable [Scalar ω]

/-- A manager for the resources of a template and some more, which take precedence. -/
def create (template : Builder ω) (resources : List (String × Declaration ω))
    (grouping : Option (Grouping String)) (host : Host ω) (rank : String → Nat := fun _ => 0) :
    Except (BuildFailure ω) (Manager ω) :=
  match template.settings.validate with
  | .error fault => .error (.invalid (.settings fault))
  | .ok () =>
    let policy := template.policy.getD (.shipped template.settings.rule)
    let roster := ((Roster.ofList template.resources).putAll resources).arrange rank
    let template := { template with resources := [], policy := some policy }
    let membership : Membership ω := ⟨roster, grouping.map (·.assignInitial roster.names)⟩
    match membership.build template none 0 host with
    | .error failure => .error failure
    | .ok s => .ok ⟨template, membership, s.selector, [], false, s.host⟩

/-- Puts a built selector in the place of the current one, which is closed. Under a closed manager
the new one is closed as well. -/
def install (m : Manager ω) (membership : Membership ω) (s : System ω) : Manager ω :=
  let s := if m.closed then s.close else s
  let old := System.close (System.mk m.current s.host)
  { m with membership, current := s.selector, past := old.selector :: m.past, host := old.host }

/-- Takes members out and adds or redeclares others. -/
def apply (m : Manager ω) (add : Roster ω) (remove : List String) (rank : String → Nat) :
    Except (BuildFailure ω) (Manager ω) :=
  let next := m.membership.change remove add.entries rank
  match next.build m.template (some m.current) (m.current.id + 1) m.host with
  | .error failure => .error failure
  | .ok s => .ok (m.install next s)

/-- Adds or redeclares some resources and drops others. A name in both ends up added. -/
def update (m : Manager ω) (add : List (String × Declaration ω)) (remove : List String)
    (rank : String → Nat := fun _ => 0) : Except (BuildFailure ω) (Manager ω) :=
  m.apply (Roster.ofList add) remove.eraseDups rank

/-- Replaces all resources. -/
def updateAll (m : Manager ω) (resources : List (String × Declaration ω))
    (rank : String → Nat := fun _ => 0) : Except (BuildFailure ω) (Manager ω) :=
  let next := Roster.ofList resources
  m.apply next (m.membership.dropped next rank) rank

/-- What a scheduled check does when its turn comes: the selector that it belongs to makes a pass.
The check of a selector that is gone stops. -/
def runCheck (id : Nat) (world : ManualExecutor Nat × Manager ω) :
    (Verdict × Nat) × ManualExecutor Nat × Manager ω :=
  let (executor, m) := world
  match m.snapshot? id with
  | none => ((.stop, id), executor, m)
  | some s =>
    let (_, s) := System.checkNow { s with host := { s.host with executor } }
    ((.again, id), s.host.executor, m.record s)

/-- Runs the scheduled checks once; answers how many ran. -/
def tick (m : Manager ω) : Nat × Manager ω :=
  let (ran, executor, m) := ManualExecutor.tick runCheck (m.host.executor, m)
  (ran, { m with host := { m.host with executor } })

/-- Lets the scheduled checks run again and again until the listener has been told of at least
`events` changes, at most `fuel` times; answers whether it has been. -/
def settle (events : Nat) : Nat → Manager ω → Bool × Manager ω
  | 0, m => (decide (events ≤ m.host.events.length), m)
  | fuel + 1, m =>
    if events ≤ m.host.events.length then (true, m) else settle events fuel m.tick.2

end Manager

end ResourceSelection
