import ResourceSelection.Decimal.Written
import ResourceSelection.Selector.Build
import ResourceSelection.Text.Quoted

/-!
# Listings

A builder and a selector as they are shown for inspection: the name of the record, and its fields
with their values between braces. A record that does not show all it holds says so at the end.
-/

namespace ResourceSelection

namespace Listing

/-- A record with its fields; `more` says that others are left out. -/
def record (name : String) (fields : List (String × String)) (more : Bool) : String :=
  let shown := fields.map fun (field, value) => field ++ ": " ++ value
  let all := if more then shown ++ [".."] else shown
  name ++ " \x7b " ++ String.intercalate ", " all ++ " \x7d"

/-- An optional value. -/
def option (value : Option String) : String :=
  match value with
  | some text => "Some(" ++ text ++ ")"
  | none => "None"

/-- A truth value. -/
def bool (b : Bool) : String := if b then "true" else "false"

end Listing

/-- The listing of a rule. -/
def Rule.listing : Rule Float → String
  | ratio r => "Ratio(" ++ Listing.record "RatioPolicyConfig"
      [("fail_keep_rate", Decimal.listing r.failKeepRate),
        ("success_increase_rate", Decimal.listing r.successIncreaseRate),
        ("recover_rate", Decimal.listing r.recoverRate),
        ("down_threshold_rate", Decimal.listing r.downThresholdRate),
        ("recover_threshold", toString r.recoverThreshold)] false ++ ")"
  | flat r => "Flat(" ++ Listing.record "FlatPolicyConfig"
      [("success_increment", Decimal.listing r.successIncrement),
        ("fail_decrement", Decimal.listing r.failDecrement)] false ++ ")"

/-- The listing of settings. -/
def Settings.listing (s : Settings Float) : String :=
  Listing.record "FailoverConfig"
    [("name", Text.quoted s.name),
      ("priority_factor", Decimal.listing s.priorityFactor),
      ("concurrency_control", Listing.bool s.countsCalls),
      ("manual_concurrency_control", Listing.bool s.countsManually),
      ("check_interval_ms", toString s.checkInterval),
      ("check_initial_delay_ms", Listing.option (s.checkDelay.map toString)),
      ("alias_sampling_threshold", toString s.aliasThreshold),
      ("start_check_immediately", Listing.bool s.checksAtOnce),
      ("auto_add_missing_weight", Listing.option (s.autoAddWeight.map Decimal.listing)),
      ("weight_policy", s.rule.listing)] false

/-- The listing of a builder, whose checks would run on the given executor. -/
def Builder.listing (b : Builder Float) (executor : ManualExecutor Nat) : String :=
  Listing.record "SelectorBuilder"
    [("config", b.settings.listing),
      ("resources", toString b.resources.length),
      ("custom_policy", Listing.bool b.policy.isSome),
      ("listener", Listing.bool b.listener.isSome),
      ("probe", Listing.bool b.probe.isSome),
      ("executor", Listing.option (if b.runsByHand then some executor.describe else none))] false

/-- The listing of a selector at work. -/
def System.listing {ω : Type} (s : System ω) : String :=
  Listing.record "Selector"
    [("name", Text.quoted s.selector.settings.name),
      ("resources", toString s.selector.registry.length),
      ("groups", toString s.selector.groupCount),
      ("checking", Listing.bool s.isChecking),
      ("closed", Listing.bool s.selector.closed)] true

end ResourceSelection
