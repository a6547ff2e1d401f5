import ResourceSelection.Policy.Context
import ResourceSelection.Policy.Rule
import ResourceSelection.Tally

/-!
# The ratio rule

A failure keeps a fraction of the weight, and lets it fall to the minimum once it is small. A
success adds a fraction of the maximum. A resource at its minimum has to show a streak of
successes first: each success at the minimum is counted, and only the one that completes the
streak raises the weight. A failure ends the streak, and so does a success at the maximum.

With a threshold of one or less there is no gate, and no streak is ever kept.
-/

namespace ResourceSelection.RatioRule

variable {ω : Type} [Scalar ω]

/-- Whether a success at the minimum completes the streak that recovery asks for, and the streaks
after it. -/
def gate (r : RatioRule ω) (resource : String) (streaks : Tally) : Bool × Tally :=
  if r.recoverThreshold ≤ 1 then (true, streaks)
  else
    let streak := streaks.count resource + 1
    if streak < r.recoverThreshold then (false, streaks.set resource streak)
    else (true, streaks.clear resource)

/-- The streaks after one of them ended. -/
def endStreak (r : RatioRule ω) (resource : String) (streaks : Tally) : Tally :=
  if 1 < r.recoverThreshold then streaks.clear resource else streaks

/-- The weight after a success, and the streaks. -/
def onSuccess (r : RatioRule ω) (c : Context ω) (streaks : Tally) : ω × Tally :=
  if c.isHealthy then (c.maxWeight, r.endStreak c.resource streaks)
  else if !c.isDown then
    (Scalar.smaller (c.current + c.maxWeight * r.successIncreaseRate) c.maxWeight, streaks)
  else
    match r.gate c.resource streaks with
    | (false, streaks) => (c.current, streaks)
    | (true, streaks) =>
      (Scalar.smaller (c.current + c.maxWeight * r.recoverRate) c.maxWeight, streaks)

/-- The weight after a failure, and the streaks. -/
def onFail (r : RatioRule ω) (c : Context ω) (streaks : Tally) : ω × Tally :=
  let next := c.current * r.failKeepRate
  let weight :=
    if next < c.maxWeight * r.downThresholdRate then c.minWeight
    else Scalar.larger next c.minWeight
  (weight, r.endStreak c.resource streaks)

end ResourceSelection.RatioRule
