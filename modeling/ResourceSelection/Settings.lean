import ResourceSelection.Policy.Rule
import ResourceSelection.Range

/-!
# Settings of a selector

What a selector is built with besides its resources, and what settings have to satisfy. Settings
are plain data and can say anything; `Settings.validate` answers the first cause that speaks
against using them.

The causes come in a fixed order. Single values out of range are reported together and first.
They are followed by the factor, which only has to be positive, since infinity is a useful value
there; by policy parameters that are no finite number, which no range check refuses; and by the
two settings that only make sense with certain values of others.
-/

namespace ResourceSelection

/-- The settings of a selector. -/
structure Settings (ω : Type) where
  /-- The name under which the selector is reported. -/
  name : String
  /-- What a group's healthy rate is multiplied with when a group is chosen. -/
  priorityFactor : ω
  /-- Whether resources with calls in flight are avoided. -/
  countsCalls : Bool
  /-- Whether the caller counts calls in flight, instead of selections and reports. -/
  countsManually : Bool
  /-- The milliseconds between two check passes. -/
  checkInterval : Nat
  /-- The milliseconds before the first check pass, as many as between two if there are none. -/
  checkDelay : Option Nat
  /-- Groups with more members than this may use an alias table. -/
  aliasThreshold : Nat
  /-- Whether checking starts at once, not only when a resource needs it. -/
  checksAtOnce : Bool
  /-- The weight at which an unknown resource is registered when a call to it is reported. -/
  autoAddWeight : Option ω
  rule : Rule ω

/-- What is wrong with settings. -/
inductive SettingsFault (ω : Type) where
  /-- Single values are out of range. -/
  | ranges (faults : List (RangeFault ω))
  | factor
  /-- A policy parameter is infinite or not a number. -/
  | parameter (field : String)
  /-- Calls are to be counted by hand, but not to be counted. -/
  | manualCounting
  | autoAddWeight
  /-- A variable of the environment cannot be read as the value it stands for. -/
  | unreadableVariable (name raw : String)

namespace Settings

variable {ω : Type} [Scalar ω]

/-- Settings under which every selector works. -/
def default : Settings ω where
  name := "failover"
  priorityFactor := 1.4
  countsCalls := false
  countsManually := false
  checkInterval := 1000
  checkDelay := none
  aliasThreshold := 10
  checksAtOnce := false
  autoAddWeight := none
  rule := .default

omit [Scalar ω] in
/-- The milliseconds before the first check pass. -/
def initialDelay (s : Settings ω) : Nat := s.checkDelay.getD s.checkInterval

omit [Scalar ω] in
/-- Whether selections and reports count the calls in flight. -/
def tracksCalls (s : Settings ω) : Bool := s.countsCalls && !s.countsManually

end Settings

namespace Rule

variable {ω : Type} [Scalar ω]

/-- The parameters out of range, in order of their names. -/
def rangeFaults (path : String) : Rule ω → List (RangeFault ω)
  | ratio r =>
    Range.between (path ++ ".down_threshold_rate") 0 1 r.downThresholdRate ++
    Range.between (path ++ ".fail_keep_rate") 0 1 r.failKeepRate ++
    Range.between (path ++ ".recover_rate") 0.000001 1 r.recoverRate ++
    Range.countBetween (path ++ ".recover_threshold") 1 1000 r.recoverThreshold ++
    Range.between (path ++ ".success_increase_rate") 0.000001 1 r.successIncreaseRate
  | flat r =>
    Range.atLeast (path ++ ".fail_decrement") 0 r.failDecrement ++
    Range.atLeast (path ++ ".success_increment") 0 r.successIncrement

omit [Scalar ω] in
/-- The parameters that are numbers of type `ω`, in order of declaration. -/
def parameters : Rule ω → List (String × ω)
  | ratio r =>
    [("fail_keep_rate", r.failKeepRate), ("success_increase_rate", r.successIncreaseRate),
      ("recover_rate", r.recoverRate), ("down_threshold_rate", r.downThresholdRate)]
  | flat r =>
    [("success_increment", r.successIncrement), ("fail_decrement", r.failDecrement)]

/-- The first parameter that is infinite or not a number. -/
def infiniteParameter? (rule : Rule ω) : Option String :=
  (rule.parameters.find? fun entry => !Scalar.isFinite entry.2).map (·.1)

end Rule

namespace Settings

variable {ω : Type} [Scalar ω]

/-- The values out of range, in order of their names. -/
def rangeFaults (s : Settings ω) : List (RangeFault ω) :=
  Range.countAtLeast "alias_sampling_threshold" 1 s.aliasThreshold ++
  Range.countBetween "check_interval_ms" 1 3600000 s.checkInterval ++
  Range.lengthBetween "name" 1 128 s.name ++
  s.rule.rangeFaults "weight_policy[0]"

/-- Whether the settings can be used, or the first thing that is wrong with them. -/
def validate (s : Settings ω) : Except (SettingsFault ω) Unit :=
  if !s.rangeFaults.isEmpty then .error (.ranges s.rangeFaults)
  else if Scalar.isNaN s.priorityFactor || decide (s.priorityFactor ≤ 0) then .error .factor
  else match s.rule.infiniteParameter? with
    | some field => .error (.parameter field)
    | none =>
      if s.countsManually && !s.countsCalls then .error .manualCounting
      else match s.autoAddWeight with
        | some weight =>
          if !Scalar.isFinite weight || decide (weight < 0) then .error .autoAddWeight else .ok ()
        | none => .ok ()

end Settings

end ResourceSelection
