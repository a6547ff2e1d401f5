import ResourceSelection.Document.Record
import ResourceSelection.Resource.Declaration
import ResourceSelection.Resource.Status
import ResourceSelection.Scalar.Binary64
import ResourceSelection.Selector.Basic

/-!
# Reading records

What the documents of this library hold: settings and declarations, where a field that is not
written has its usual value, and the records that are reported, where every field must be written
except one that may be absent anyway. Reading says nothing about whether the values make sense.
-/

namespace ResourceSelection

open Document (Format Value)

/-- A whole number of 32 bits. -/
def word32? : Value → Option Nat := Value.natBelow? 0x100000000

/-- A whole number of 64 bits. -/
def word64? : Value → Option Nat := Value.natBelow? 0x10000000000000000

/-- Reads the parameters of the ratio rule. -/
def RatioRule.read? (v : Value) : Option (RatioRule Float) := do
  let usual : RatioRule Float := .default
  let fields ← v.fields? ["fail_keep_rate", "success_increase_rate", "recover_rate",
    "down_threshold_rate", "recover_threshold"]
  return {
    failKeepRate := ← fields.getD "fail_keep_rate" Value.float? usual.failKeepRate
    successIncreaseRate :=
      ← fields.getD "success_increase_rate" Value.float? usual.successIncreaseRate
    recoverRate := ← fields.getD "recover_rate" Value.float? usual.recoverRate
    downThresholdRate := ← fields.getD "down_threshold_rate" Value.float? usual.downThresholdRate
    recoverThreshold := ← fields.getD "recover_threshold" word32? usual.recoverThreshold }

/-- Reads the parameters of the flat rule. -/
def FlatRule.read? (v : Value) : Option (FlatRule Float) := do
  let usual : FlatRule Float := .default
  let fields ← v.fields? ["success_increment", "fail_decrement"]
  return {
    successIncrement := ← fields.getD "success_increment" Value.float? usual.successIncrement
    failDecrement := ← fields.getD "fail_decrement" Value.float? usual.failDecrement }

/-- Reads a rule, whose sort is its tag. -/
def Rule.read? (v : Value) : Option (Rule Float) := do
  let (sort, parameters) ← v.tagged? "type"
  if sort = "ratio" then return .ratio (← RatioRule.read? parameters)
  else if sort = "flat" then return .flat (← FlatRule.read? parameters)
  else none

/-- Reads settings. -/
def Settings.read? (v : Value) : Option (Settings Float) := do
  let usual : Settings Float := .default
  let fields ← v.fields? ["name", "priority_factor", "concurrency_control",
    "manual_concurrency_control", "check_interval_ms", "check_initial_delay_ms",
    "alias_sampling_threshold", "start_check_immediately", "auto_add_missing_weight",
    "weight_policy"]
  return {
    name := ← fields.getD "name" Value.text? usual.name
    priorityFactor := ← fields.getD "priority_factor" Value.float? usual.priorityFactor
    countsCalls := ← fields.getD "concurrency_control" Value.bool? usual.countsCalls
    countsManually := ← fields.getD "manual_concurrency_control" Value.bool? usual.countsManually
    checkInterval := ← fields.getD "check_interval_ms" word64? usual.checkInterval
    checkDelay := ← fields.getD "check_initial_delay_ms" (Value.optional? word64?) usual.checkDelay
    aliasThreshold := ← fields.getD "alias_sampling_threshold" word64? usual.aliasThreshold
    checksAtOnce := ← fields.getD "start_check_immediately" Value.bool? usual.checksAtOnce
    autoAddWeight :=
      ← fields.getD "auto_add_missing_weight" (Value.optional? Value.float?) usual.autoAddWeight
    rule := ← fields.getD "weight_policy" Rule.read? usual.rule }

/-- Reads a declaration. -/
def Declaration.read? (v : Value) : Option (Declaration Float) := do
  let usual : Declaration Float := .default
  let fields ← v.fields? ["max_weight", "min_weight", "priority", "init_weight"]
  return {
    maxWeight := ← fields.getD "max_weight" Value.float? usual.maxWeight
    minWeight := ← fields.getD "min_weight" Value.float? usual.minWeight
    priority := ← fields.getD "priority" word32? usual.priority
    initial := ← fields.getD "init_weight" (Value.optional? Value.float?) usual.initial }

/-- Reads a status. -/
def Status.read? (v : Value) : Option (Status Float) := do
  let fields ← v.allFields? ["max_weight", "min_weight", "priority", "current_weight",
    "concurrency"]
  return {
    maxWeight := ← fields.get? "max_weight" Value.float?
    minWeight := ← fields.get? "min_weight" Value.float?
    priority := ← fields.get? "priority" word32?
    current := ← fields.get? "current_weight" Value.float?
    inFlight := ← fields.getD "concurrency" (Value.optional? word32?) none }

/-- The value of a counter. -/
def counter? (v : Value) : Option UInt64 := (word64? v).map UInt64.ofNat

/-- Reads counters. -/
def Counters.read? (v : Value) : Option Counters := do
  let fields ← v.allFields? ["selections", "exhausted", "successes", "failures", "downs",
    "probes", "probe_failures"]
  return {
    selections := ← fields.get? "selections" counter?
    exhausted := ← fields.get? "exhausted" counter?
    successes := ← fields.get? "successes" counter?
    failures := ← fields.get? "failures" counter?
    downs := ← fields.get? "downs" counter?
    probes := ← fields.get? "probes" counter?
    probeFailures := ← fields.get? "probe_failures" counter? }

/-- The name of a state of health. -/
def Health.name : Health → String
  | healthy => "Healthy"
  | degraded => "Degraded"
  | down => "Down"

/-- Reads a state of health. -/
def Health.read? (format : Format) : Value → Option Health :=
  Value.choice? format ([healthy, degraded, down].map fun h => (h.name, h))

/-- The name of a cause. -/
def Cause.name : Cause → String
  | success => "Success"
  | failure => "Failure"
  | down => "Down"
  | healthCheck => "HealthCheck"

/-- Reads a cause. -/
def Cause.read? (format : Format) : Value → Option Cause :=
  Value.choice? format ([success, failure, down, healthCheck].map fun c => (c.name, c))

end ResourceSelection
