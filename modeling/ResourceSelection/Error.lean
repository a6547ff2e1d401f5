import ResourceSelection.Decimal.Written
import ResourceSelection.Selector.Build
import ResourceSelection.Text.Quoted

/-!
# Errors

What can go wrong when a selector is configured, built or scheduled, and how it is worded. The
causes found while validating are values of their own; here each gets its text.

Faults of the configuration are those that its author can mend: the settings, the declarations and
the documents that they are read from.
-/

namespace ResourceSelection

/-- An error as it is shown. -/
inductive Error where
  | configuration (message : String)
  | validation (field reason : String)
  | invalidWeight (resource reason : String)
  | scheduler (message : String)
  /-- A document that cannot be read as settings. -/
  | parse
  | io (message : String)
  | internal (message : String)
deriving DecidableEq, Repr

namespace Error

/-- The error that the weights of a resource are no good. -/
def ofResource (resource reason : String) : Error := .invalidWeight (Text.quoted resource) reason

/-- The text of an error. -/
def message : Error → String
  | configuration message => "Configuration error: " ++ message
  | validation field reason => "Validation failed for field '" ++ field ++ "': " ++ reason
  | invalidWeight resource reason => "Invalid weight bounds for " ++ resource ++ ": " ++ reason
  | scheduler message => "Scheduler error: " ++ message
  | parse => "Config parse error"
  | io message => "I/O error: " ++ message
  | internal message => "Internal error: " ++ message

/-- Whether the configuration is at fault. -/
def isConfiguration : Error → Bool
  | configuration _ => true
  | validation _ _ => true
  | invalidWeight _ _ => true
  | parse => true
  | scheduler _ => false
  | io _ => false
  | internal _ => false

/-- A check was to be scheduled where no timer is running. -/
def noTimer : Error :=
  .scheduler ("no tokio runtime: there is no reactor running, " ++
    "must be called from the context of a Tokio 1.x runtime")

end Error

/-- A limit as it stands in a text. -/
def Limit.text : Limit Float → String
  | count n => toString n
  | number x => Decimal.prose x

/-- A fault as one line. -/
def RangeFault.line : RangeFault Float → String
  | lower path least => path ++ ": lower than " ++ least.text ++ "\n"
  | greater path most => path ++ ": greater than " ++ most.text ++ "\n"
  | shorter path least => path ++ ": length is lower than " ++ toString least ++ "\n"
  | longer path most => path ++ ": length is greater than " ++ toString most ++ "\n"

/-- Faults as lines. -/
def RangeFault.lines (faults : List (RangeFault Float)) : String :=
  String.join (faults.map RangeFault.line)

/-- What is wrong with a declaration, in words. -/
def BoundsFault.reason : BoundsFault Float → String
  | infinite => "weights must be finite"
  | ranges faults => RangeFault.lines faults
  | crossed maxWeight minWeight =>
    "max_weight " ++ Decimal.prose maxWeight ++ " < min_weight " ++ Decimal.prose minWeight
  | initialOutside initial minWeight maxWeight =>
    "init_weight " ++ Decimal.prose initial ++ " outside [" ++ Decimal.prose minWeight ++ ", " ++
      Decimal.prose maxWeight ++ "]"

/-- What is wrong with settings, as an error. -/
def SettingsFault.toError : SettingsFault Float → Error
  | ranges faults => .validation "config" ("Validation failed: " ++ RangeFault.lines faults)
  | factor =>
    .validation "priority_factor" "must be positive (use inf to always prefer healthy groups)"
  | parameter field => .validation field "weight policy parameters must be finite"
  | manualCounting => .validation "manual_concurrency_control" "requires concurrency_control"
  | autoAddWeight =>
    .validation "auto_add_missing_weight" "must be a finite non-negative weight"
  | unreadableVariable name raw => .validation name ("cannot parse '" ++ raw ++ "'")

/-- What speaks against building a selector, as an error. -/
def BuildFault.toError : BuildFault Float → Error
  | settings fault => fault.toError
  | bounds resource fault => .ofResource resource fault.reason
  | registeredTwice resource =>
    .validation "resources" (Text.quoted resource ++ " registered twice")

end ResourceSelection
