import Mathlib.Logic.Function.Basic
import ResourceSelection.Selector.Run

/-!
# Reports of many clients at a time

Clients that share a selector do not wait for each other, so what a report does is not done at once.
It moves the weight; if that made a difference it looks up the group, reads the weight of one member
after the other, and installs a snapshot of what it has read; then it tells the listener and sees to
it that a check is scheduled. Between any two of these the reports of others go on.

These are the steps here, and a schedule says which client takes the next one. Each weight is moved,
and each weight read, in a single step. A snapshot is installed whatever was installed meanwhile:
the last one stays.
-/

namespace ResourceSelection

/-- What a report has done to a weight, which is still to be made known. -/
structure Transition (ω : Type) where
  /-- The resource as the report has found it. -/
  resource : Resource ω
  old : ω
  new : ω
  cause : Cause

/-- How far a client has come with a report. -/
inductive Phase (ω : Type) where
  | idle
  /-- The weight is another one, and the snapshot of the group is to be replaced. -/
  | moved (t : Transition ω)
  /-- The members whose weights are still to be read, and the weights of those before them. -/
  | reading (t : Transition ω) (left : List Nat) (weights : List ω)
  /-- The listener and the checker are still to be told. -/
  | announcing (t : Transition ω)

instance Phase.instDecidableIdle {ω : Type} (p : Phase ω) : Decidable (p = .idle) :=
  match p with
  | .idle => isTrue rfl
  | .moved _ => isFalse nofun
  | .reading _ _ _ => isFalse nofun
  | .announcing _ => isFalse nofun

/-- A client, with the reports that it has not begun. -/
structure Client (ω : Type) where
  todo : List Feedback
  phase : Phase ω

/-- A system and its clients. -/
structure Crowd (ι ω : Type) where
  system : System ω
  clients : ι → Client ω

variable {ι ω : Type} [Scalar ω]

/-- A snapshot that says of each member the weight given for it. -/
def Group.measureAs (members : List (Resource ω)) (weights : List ω) (totalMax : ω) (uniform : Bool)
    (aliasThreshold : Nat) : Snapshot ω :=
  measure (List.zipWith (fun m weight => { m with current := weight }) members weights) totalMax
    uniform aliasThreshold

namespace Selector

/-- A group with a snapshot that says of each member the weight given for it. -/
def weighPool (states : List (Resource ω)) (weights : List ω) (p : GroupOf Nat ω) : GroupOf Nat ω :=
  { p with
    snapshot := Group.measureAs (statesAt states p.members) weights p.totalMax p.uniformMax
      p.aliasThreshold }

/-- The selector with a snapshot of the given weights in the first group of a priority. -/
def install (s : Selector ω) (priority : Nat) (weights : List ω) : Selector ω :=
  match s.pools.findIdx? fun p => p.priority = priority with
  | some index => { s with pools := s.pools.modify index (weighPool s.states weights) }
  | none => s

end Selector

namespace System

omit [Scalar ω] in
/-- The call to the resource at a place is no longer in flight, if calls are counted by reports. -/
def endCall (place : Nat) (s : System ω) : System ω :=
  if s.selector.settings.tracksCalls then s.modifyAt place fun r => r.release.2 else s

/-- The first step of a report. There is nothing to make known of a resource that is not there, or
when the policy has crashed. -/
def moveWeight (f : Feedback) (s : System ω) : Option (Transition ω) × System ω :=
  match f with
  | .report result name =>
    let s := s.count result.count
    match s.knowing? name with
    | none => (none, s)
    | some (place, s) =>
      match s.selector.states[place]? with
      | none => (none, s)
      | some r =>
        match s.askPolicy result r.context with
        | (.crashed, s) => (none, s)
        | (.done weight, s) =>
          let ((old, new), s) := s.propose place r weight
          (some ⟨r, old, new, result.cause⟩, s.endCall place)
  | .down name =>
    let s := s.count fun c => { c with downs := c.downs + 1 }
    match s.selector.entry? name with
    | none => (none, s)
    | some (place, r) =>
      let (old, new) := r.forceDown.1
      (some ⟨r, old, new, .down⟩, (s.modifyAt place fun r => r.forceDown.2).endCall place)

/-- The last step of a report: the listener is told of a weight that has changed, and the checker of
any. A listener that crashes keeps the checker from hearing of it. -/
def announce (t : Transition ω) (s : System ω) : System ω :=
  if Scalar.same t.old t.new then (s.checkIfNeeded t.resource t.new).2
  else
    match s.notify ⟨t.resource.name, t.old, t.new, t.resource.maxWeight, t.resource.minWeight,
      t.resource.priority, t.cause⟩ with
    | (.crashed, s) => s
    | (.done (), s) => (s.checkIfNeeded t.resource t.new).2

end System

/-- The next step of a client. -/
def Client.advance (c : Client ω) (s : System ω) : Client ω × System ω :=
  match c.phase with
  | .idle =>
    match c.todo with
    | [] => (c, s)
    | f :: rest =>
      match s.moveWeight f with
      | (none, s) => (⟨rest, .idle⟩, s)
      | (some t, s) => (⟨rest, if Scalar.same t.old t.new then .announcing t else .moved t⟩, s)
  | .moved t => ({ c with phase := .reading t (s.selector.membersOf t.resource.priority) [] }, s)
  | .reading t (place :: left) weights =>
      let found := (s.selector.states[place]?).toList.map (·.current)
      ({ c with phase := .reading t left (weights ++ found) }, s)
  | .reading t [] weights =>
      ({ c with phase := .announcing t },
        { s with selector := s.selector.install t.resource.priority weights })
  | .announcing t => ({ c with phase := .idle }, s.announce t)

namespace Crowd

omit [Scalar ω] in
/-- A system whose clients have something to report. -/
def start (s : System ω) (reports : ι → List Feedback) : Crowd ι ω where
  system := s
  clients i := ⟨reports i, .idle⟩

variable [DecidableEq ι]

/-- The step of one client. -/
def step (c : Crowd ι ω) (i : ι) : Crowd ι ω :=
  let (client, system) := (c.clients i).advance c.system
  ⟨system, Function.update c.clients i client⟩

/-- The steps of a schedule. -/
def run (c : Crowd ι ω) (schedule : List ι) : Crowd ι ω := schedule.foldl step c

omit [Scalar ω] [DecidableEq ι] in
/-- Every report is made, with all that it entails. -/
def Finished (c : Crowd ι ω) : Prop := ∀ i, (c.clients i).todo = [] ∧ (c.clients i).phase = .idle

/-- Whether the snapshots of a schedule are installed in the order in which they are begun. The
clients at it are given, the first to begin first. -/
def inOrder : Crowd ι ω → List ι → List ι → Bool
  | _, _, [] => true
  | c, begun, i :: rest =>
    match (c.clients i).phase with
    | .moved _ => inOrder (c.step i) (begun ++ [i]) rest
    | .reading _ [] _ => decide (begun.head? = some i) && inOrder (c.step i) begun.tail rest
    | _ => inOrder (c.step i) begun rest

end Crowd

end ResourceSelection
