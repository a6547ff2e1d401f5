import ResourceSelection.Proofs.Arithmetic
import ResourceSelection.Proofs.Carrying
import ResourceSelection.Proofs.Rational

/-!
# What validation asks for

Validation looks for the first thing that is wrong. Here is what has to be right, field by field:
valid settings, valid declarations and valid builders. That nothing is found to be wrong exactly
with these is said by `Settings.validate_iff`, `Declaration.validate_iff` and `Builder.validate_iff`.

What needs an argument is that the checks leave no gap between them. A range check lets a NaN
through, since neither comparison with it holds. So the parameters of a rule are looked at twice,
for their range and for being finite, and neither check puts a parameter between its limits without
the other (`Rule.valid_iff`). Where a range has no upper end it ends at the largest finite number,
which no finite number passes.
-/

namespace ResourceSelection

open Scalar LawfulScalar

/-- Numbers that the limits of the range checks can be told from. -/
class RangedScalar (ω : Type) [Scalar ω] : Prop where
  not_largest_lt {most x : ω} : (largest : Option ω) = some most → isFinite x = true → ¬ most < x
  isNaN_one : isNaN (1 : ω) = false
  isNaN_millionth : isNaN (0.000001 : ω) = false

instance instRangedScalarFloat : RangedScalar Float where
  not_largest_lt hmost hfinite := by
    obtain rfl := Option.some.inj hmost
    exact Binary64.not_largest_lt hfinite
  isNaN_one := rfl
  isNaN_millionth := rfl

instance instRangedScalarRat : RangedScalar ℚ where
  not_largest_lt hmost := nomatch hmost
  isNaN_one := rfl
  isNaN_millionth := rfl

variable {ω : Type}

/-- A check in front of others is passed with them. -/
theorem ite_error_eq_ok {ε : Type} {c : Prop} [Decidable c] {fault : ε} {others : Except ε Unit} :
    (if c then .error fault else others) = .ok () ↔ ¬ c ∧ others = .ok () := by
  split
  · next h => simp [h]
  · next h => simp [h]

/-! ## Single ranges -/

namespace Range

variable {path : String} {least most n : Nat}

theorem countBetween_eq_nil :
    (countBetween path least most n : List (RangeFault ω)) = [] ↔ least ≤ n ∧ n ≤ most := by
  unfold countBetween
  split_ifs <;> simp <;> omega

theorem countAtLeast_eq_nil :
    (countAtLeast path least n : List (RangeFault ω)) = [] ↔ least ≤ n := by
  unfold countAtLeast
  split_ifs <;> simp <;> omega

theorem lengthBetween_eq_nil {text : String} :
    (lengthBetween path least most text : List (RangeFault ω)) = [] ↔
      least ≤ text.utf8ByteSize ∧ text.utf8ByteSize ≤ most := by
  unfold lengthBetween
  split_ifs <;> simp <;> omega

end Range

variable [Scalar ω]

/-- A finite number between two others. -/
structure Scalar.InRange (least most x : ω) : Prop where
  finite : isFinite x = true
  lower : least ≤ x
  upper : x ≤ most

namespace Range

variable [LawfulScalar ω] {path : String} {least most x : ω}

theorem between_eq_nil (hleast : isNaN least = false) (hmost : isNaN most = false)
    (hx : isNaN x = false) : between path least most x = [] ↔ least ≤ x ∧ x ≤ most := by
  unfold between
  split
  · next hlower => exact ⟨nofun, fun h => absurd hlower (not_lt_of_le h.1)⟩
  · next hlower =>
      split
      · next hupper => exact ⟨nofun, fun h => absurd hupper (not_lt_of_le h.2)⟩
      · next hupper => simp [le_of_not_lt hleast hx hlower, le_of_not_lt hx hmost hupper]

theorem atLeast_eq_nil [RangedScalar ω] (hleast : isNaN least = false) (hx : isFinite x = true) :
    atLeast path least x = [] ↔ least ≤ x := by
  unfold atLeast
  split
  · next hlower => exact ⟨nofun, fun h => absurd hlower (not_lt_of_le h)⟩
  · next hlower =>
      have hle := le_of_not_lt hleast (isNaN_of_isFinite hx) hlower
      split
      · next most hmost => simp [RangedScalar.not_largest_lt hmost hx, hle]
      · simp [hle]

end Range

/-! ## Declarations -/

/-- Finite bounds in order, neither below zero, and a finite weight between them to start at. -/
structure Declaration.Valid (d : Declaration ω) : Prop where
  finiteMax : isFinite d.maxWeight = true
  finiteMin : isFinite d.minWeight = true
  nonneg : 0 ≤ d.minWeight
  le : d.minWeight ≤ d.maxWeight
  initial : InRange d.minWeight d.maxWeight d.initialWeight

section

variable [LawfulScalar ω] [RangedScalar ω] {d : Declaration ω}

theorem Declaration.ordered_iff : d.Ordered ↔ isFinite d.maxWeight = true ∧
    isFinite d.minWeight = true ∧ 0 ≤ d.minWeight ∧ d.minWeight ≤ d.maxWeight := by
  constructor
  · intro h
    have hranges := h.ranges
    rw [rangeFaults, List.append_eq_nil_iff, Range.atLeast_eq_nil isNaN_zero h.finiteMin] at hranges
    exact ⟨h.finiteMax, h.finiteMin, hranges.2, h.le⟩
  · rintro ⟨hmax, hmin, hnonneg, hle⟩
    refine ⟨hmax, hmin, ?_, hle⟩
    rw [rangeFaults, List.append_eq_nil_iff, Range.atLeast_eq_nil isNaN_zero hmax,
      Range.atLeast_eq_nil isNaN_zero hmin]
    exact ⟨le_trans hnonneg hle, hnonneg⟩

theorem Declaration.validate_iff : d.validate = .ok () ↔ d.Valid := by
  rw [validate_eq_ok, ordered_iff]
  constructor
  · rintro ⟨⟨hmax, hmin, hnonneg, hle⟩, hfinite, hlower, hupper⟩
    exact ⟨hmax, hmin, hnonneg, hle, hfinite, hlower, hupper⟩
  · intro h
    exact ⟨⟨h.finiteMax, h.finiteMin, h.nonneg, h.le⟩, h.initial.finite, h.initial.lower,
      h.initial.upper⟩

end

/-! ## Rules -/

structure RatioRule.Valid (r : RatioRule ω) : Prop where
  failKeepRate : InRange 0 1 r.failKeepRate
  successIncreaseRate : InRange 0.000001 1 r.successIncreaseRate
  recoverRate : InRange 0.000001 1 r.recoverRate
  downThresholdRate : InRange 0 1 r.downThresholdRate
  recoverThreshold : 1 ≤ r.recoverThreshold ∧ r.recoverThreshold ≤ 1000

/-- A rate in its range is positive. -/
theorem RatioRule.Valid.increase_pos {r : RatioRule ℚ} (h : r.Valid) : 0 < r.successIncreaseRate :=
  LT.lt.trans_le (by norm_num) h.successIncreaseRate.lower

theorem RatioRule.Valid.recover_pos {r : RatioRule ℚ} (h : r.Valid) : 0 < r.recoverRate :=
  LT.lt.trans_le (by norm_num) h.recoverRate.lower

structure FlatRule.Valid (r : FlatRule ω) : Prop where
  finiteIncrement : isFinite r.successIncrement = true
  increment : 0 ≤ r.successIncrement
  finiteDecrement : isFinite r.failDecrement = true
  decrement : 0 ≤ r.failDecrement

/-- Every parameter is a finite number in its range. -/
def Rule.Valid : Rule ω → Prop
  | ratio r => r.Valid
  | flat r => r.Valid

namespace Rule

theorem infiniteParameter?_eq_none {rule : Rule ω} :
    rule.infiniteParameter? = none ↔ ∀ entry ∈ rule.parameters, isFinite entry.2 = true := by
  unfold infiniteParameter?
  simp

variable [LawfulScalar ω] [RangedScalar ω]

/-- The two checks of a rule together put every parameter in its range. -/
theorem valid_iff {rule : Rule ω} (path : String) :
    rule.rangeFaults path = [] ∧ rule.infiniteParameter? = none ↔ rule.Valid := by
  have hone : isNaN (1 : ω) = false := RangedScalar.isNaN_one
  have hleast : isNaN (0.000001 : ω) = false := RangedScalar.isNaN_millionth
  rw [infiniteParameter?_eq_none]
  cases rule with
  | ratio r =>
      simp only [parameters, List.forall_mem_cons, rangeFaults, List.append_eq_nil_iff,
        Range.countBetween_eq_nil]
      constructor
      · rintro ⟨⟨⟨⟨⟨hdown, hkeep⟩, hrecover⟩, hthreshold⟩, hincrease⟩, hk, hi, hr, hd, -⟩
        rw [Range.between_eq_nil isNaN_zero hone (isNaN_of_isFinite hd)] at hdown
        rw [Range.between_eq_nil isNaN_zero hone (isNaN_of_isFinite hk)] at hkeep
        rw [Range.between_eq_nil hleast hone (isNaN_of_isFinite hr)] at hrecover
        rw [Range.between_eq_nil hleast hone (isNaN_of_isFinite hi)] at hincrease
        exact ⟨⟨hk, hkeep.1, hkeep.2⟩, ⟨hi, hincrease.1, hincrease.2⟩,
          ⟨hr, hrecover.1, hrecover.2⟩, ⟨hd, hdown.1, hdown.2⟩, hthreshold⟩
      · rintro ⟨hkeep, hincrease, hrecover, hdown, hthreshold⟩
        rw [Range.between_eq_nil isNaN_zero hone (isNaN_of_isFinite hdown.finite),
          Range.between_eq_nil isNaN_zero hone (isNaN_of_isFinite hkeep.finite),
          Range.between_eq_nil hleast hone (isNaN_of_isFinite hrecover.finite),
          Range.between_eq_nil hleast hone (isNaN_of_isFinite hincrease.finite)]
        exact ⟨⟨⟨⟨⟨⟨hdown.lower, hdown.upper⟩, hkeep.lower, hkeep.upper⟩, hrecover.lower,
          hrecover.upper⟩, hthreshold⟩, hincrease.lower, hincrease.upper⟩, hkeep.finite,
          hincrease.finite, hrecover.finite, hdown.finite, List.forall_mem_nil _⟩
  | flat r =>
      simp only [parameters, List.forall_mem_cons, rangeFaults, List.append_eq_nil_iff]
      constructor
      · rintro ⟨⟨hdecrement, hincrement⟩, hi, hd, -⟩
        rw [Range.atLeast_eq_nil isNaN_zero hd] at hdecrement
        rw [Range.atLeast_eq_nil isNaN_zero hi] at hincrement
        exact ⟨hi, hincrement, hd, hdecrement⟩
      · rintro ⟨hi, hincrement, hd, hdecrement⟩
        rw [Range.atLeast_eq_nil isNaN_zero hd, Range.atLeast_eq_nil isNaN_zero hi]
        exact ⟨⟨hdecrement, hincrement⟩, hi, hd, List.forall_mem_nil _⟩

end Rule

/-! ## Settings and builders -/

structure Settings.Valid (s : Settings ω) : Prop where
  name : 1 ≤ s.name.utf8ByteSize ∧ s.name.utf8ByteSize ≤ 128
  checkInterval : 1 ≤ s.checkInterval ∧ s.checkInterval ≤ 3600000
  aliasThreshold : 1 ≤ s.aliasThreshold
  /-- The factor may be infinite. -/
  priorityFactor : isNaN s.priorityFactor = false ∧ 0 < s.priorityFactor
  rule : s.rule.Valid
  counting : s.countsManually = true → s.countsCalls = true
  autoAddWeight : ∀ weight ∈ s.autoAddWeight, isFinite weight = true ∧ 0 ≤ weight

/-- Valid declarations under different names. -/
structure Builder.ValidResources (resources : List (String × Declaration ω)) : Prop where
  valid : ∀ entry ∈ resources, entry.2.Valid
  nodup : (resources.map (·.1)).Nodup

/-- What a selector can be built from. -/
structure Builder.Valid (b : Builder ω) : Prop where
  settings : b.settings.Valid
  resources : ValidResources b.resources

namespace Settings

/-- Settings are accepted if none of the five checks finds anything. -/
theorem validate_eq_ok {s : Settings ω} : s.validate = .ok () ↔
    s.rangeFaults = [] ∧ (isNaN s.priorityFactor = false ∧ ¬ s.priorityFactor ≤ 0) ∧
      s.rule.infiniteParameter? = none ∧ (s.countsManually = true → s.countsCalls = true) ∧
        ∀ weight ∈ s.autoAddWeight, isFinite weight = true ∧ ¬ weight < 0 := by
  unfold validate
  rw [ite_error_eq_ok, ite_error_eq_ok]
  refine and_congr (by simp) (and_congr (by simp) ?_)
  cases s.rule.infiniteParameter? with
  | some field => simp
  | none =>
      simp only [ite_error_eq_ok, true_and]
      refine and_congr (by simp) ?_
      cases s.autoAddWeight with
      | none => simp
      | some weight => simp

variable [LawfulScalar ω] [RangedScalar ω]

theorem validate_iff {s : Settings ω} : s.validate = .ok () ↔ s.Valid := by
  have hfactor : ¬ s.priorityFactor ≤ 0 ↔ isNaN s.priorityFactor = false → 0 < s.priorityFactor := by
    rw [le_iff]
    simp [isNaN_zero]
  rw [validate_eq_ok, rangeFaults, List.append_eq_nil_iff, List.append_eq_nil_iff,
    List.append_eq_nil_iff, Range.countAtLeast_eq_nil, Range.countBetween_eq_nil,
    Range.lengthBetween_eq_nil, hfactor]
  constructor
  · rintro ⟨⟨⟨⟨halias, hinterval⟩, hname⟩, hrule⟩, ⟨hnumber, hpos⟩, hparameter, hcounting, hauto⟩
    refine ⟨hname, hinterval, halias, ⟨hnumber, hpos hnumber⟩,
      (Rule.valid_iff _).1 ⟨hrule, hparameter⟩, hcounting, fun weight h => ?_⟩
    obtain ⟨hfinite, hnonneg⟩ := hauto weight h
    exact ⟨hfinite, le_of_not_lt isNaN_zero (isNaN_of_isFinite hfinite) hnonneg⟩
  · intro h
    obtain ⟨hrule, hparameter⟩ := (Rule.valid_iff "weight_policy[0]").2 h.rule
    exact ⟨⟨⟨⟨h.aliasThreshold, h.checkInterval⟩, h.name⟩, hrule⟩,
      ⟨h.priorityFactor.1, fun _ => h.priorityFactor.2⟩, hparameter, h.counting,
      fun weight hweight => ⟨(h.autoAddWeight weight hweight).1,
        not_lt_of_le (h.autoAddWeight weight hweight).2⟩⟩

end Settings

namespace Builder

variable [LawfulScalar ω] [RangedScalar ω]

theorem validResources_iff {resources : List (String × Declaration ω)} :
    validateResources [] resources = .ok () ↔ ValidResources resources := by
  rw [validateResources_eq_ok]
  constructor
  · rintro ⟨hvalid, hnodup, -⟩
    exact ⟨fun entry hentry => Declaration.validate_iff.1 (hvalid entry hentry), hnodup⟩
  · intro h
    exact ⟨fun entry hentry => Declaration.validate_iff.2 (h.valid entry hentry), h.nodup,
      fun _ _ => List.not_mem_nil⟩

theorem validate_iff {b : Builder ω} : b.validate = .ok () ↔ b.Valid := by
  constructor
  · intro h
    exact ⟨Settings.validate_iff.1 (b.validate_settings h),
      validResources_iff.1 (validateResources_of_validate h)⟩
  · intro h
    unfold validate
    rw [Settings.validate_iff.2 h.settings]
    exact validResources_iff.2 h.resources

end Builder

end ResourceSelection
