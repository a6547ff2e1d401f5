import Mathlib.Algebra.Order.Floor.Ring
import ResourceSelection.Proofs.Requirements
import ResourceSelection.Proofs.Streaks

/-!
# Weights arrive

Under either rule a weight goes up after a success and down after a failure, if it moves at all, and
without rounding it gets where it is going: enough successes bring it to its maximum, and enough
failures to its minimum.

What a dealing can do to a weight and its streak is said once for each rule (`RatioRule.Moves`,
`FlatRule.Moves`). That a weight arrives is then a property of the moves alone, an inequality that
one more move carries on. The ratio rule has three stages on the way up: below the gate the streak
grows, the gate is passed once, and above it every success adds a part of the maximum. Neither the
streak nor the weight can be missing from the inequality (`RatioRule.Rising`). On the way down the
weight is a power of the fraction that is kept until it falls below the threshold, which takes it to
the minimum at once (`RatioRule.Falling`).

A probe is as good as a report, except that it may go only a part of the way. Under the ratio rule
that is enough to pass the gate; under the flat rule only reports are counted.
-/

namespace ResourceSelection

/-! ## Moves of a weight -/

/-- Whether a call to the resource is reported. -/
def Dealing.isReport {ω : Type} : Dealing ω → Bool
  | .report _ => true
  | _ => false

section

variable {ω : Type} [Scalar ω]

/-- A resource with the given bounds is registered, and the property holds of its weight, its streak
and its record. -/
def At (lowest highest : ω) (K : ω → Nat → List (Dealt ω) → Prop) (r? : Option (Resource ω))
    (n : Nat) (past : List (Dealt ω)) : Prop :=
  ∃ r, r? = some r ∧ r.minWeight = lowest ∧ r.maxWeight = highest ∧ K r.current n past

/-- Dealings under the policy move the weight and the streak of a resource with the given bounds in
these ways; reports and probes may differ. -/
def Policy.MovesBy (p : Policy ω) (lowest highest : ω)
    (M : Bool → Option CallResult → ω × Nat → ω × Nat → Prop) : Prop :=
  ∀ (d : Dealing ω) (s : System ω) (r : Resource ω), s.selector.policy = p → r.Within →
    0 ≤ r.minWeight → d.concerns r s = true → r.minWeight = lowest →
    r.maxWeight = highest → M d.isReport (d.result? r.name s.host)
      (r.current, s.host.memory.streaks.count r.name)
      ((d.after r s).current, (d.answer r s).2.streaks.count r.name)

namespace Policy.MovesBy

variable [LawfulScalar ω] {p : Policy ω} {lowest highest : ω}
  {M : Bool → Option CallResult → ω × Nat → ω × Nat → Prop}
  {K K' : ω → Nat → List (Dealt ω) → Prop}

/-- A property of the weight is upheld if every move keeps it. -/
theorem upholds (hM : p.MovesBy lowest highest M)
    (hK : ∀ {reported result? w n w' n' past}, M reported result? (w, n) (w', n') → 0 ≤ lowest →
      lowest ≤ w → w ≤ highest → K w n past → K w' n' (⟨result?, w, w'⟩ :: past)) :
    p.Upholds (At lowest highest K) where
  enrol _ _ h := by
    obtain ⟨r, hnone, -⟩ := h
    exact nomatch hnone
  touch {r r' n past} hkept hcurrent h := by
    obtain ⟨_, hsome, hmin, hmax, h⟩ := h
    obtain rfl := Option.some.inj hsome
    exact ⟨r', rfl, hkept.minWeight.trans hmin, hkept.maxWeight.trans hmax, hcurrent.symm ▸ h⟩
  deal d {s r past} hpolicy hwithin hnonneg hconcerns h := by
    obtain ⟨_, hsome, hmin, hmax, h⟩ := h
    obtain rfl := Option.some.inj hsome
    have hkept := d.kept_after r s
    refine ⟨d.after r s, rfl, hkept.minWeight.trans hmin, hkept.maxWeight.trans hmax, ?_⟩
    exact hK (hM d s r hpolicy hwithin hnonneg hconcerns hmin hmax) (hmin ▸ hnonneg)
      (hmin ▸ hwithin.1) (hmax ▸ hwithin.2) h

/-- A report leads from one property of the weight to another if every move of its kind does. -/
theorem leads (hM : p.MovesBy lowest highest M) {result : CallResult}
    (hK : ∀ {w n w' n' past}, M true (some result) (w, n) (w', n') → K w n past →
      K' w' n' (⟨some result, w, w'⟩ :: past)) :
    p.Leads (.report result) (At lowest highest K) (At lowest highest K') where
  unknown h := by
    obtain ⟨r, hnone, -⟩ := h
    exact nomatch hnone
  spared h := nomatch h
  deal {s r past} hpolicy hwithin hnonneg hconcerns h := by
    obtain ⟨_, hsome, hmin, hmax, h⟩ := h
    obtain rfl := Option.some.inj hsome
    have hkept := (Dealing.report result).kept_after r s
    refine ⟨_, rfl, hkept.minWeight.trans hmin, hkept.maxWeight.trans hmax, ?_⟩
    exact hK (hM (.report result) s r hpolicy hwithin hnonneg hconcerns hmin hmax) h

end Policy.MovesBy

end

variable {lowest highest : ℚ}

/-- All that the ratio rule does to a weight and its streak. -/
inductive RatioRule.Moves (rule : RatioRule ℚ) (lowest highest : ℚ) :
    Option CallResult → ℚ × Nat → ℚ × Nat → Prop
  | full {n n' : Nat} : Moves rule lowest highest (some .success) (highest, n) (highest, n')
  | climb {w : ℚ} {n : Nat} (hlow : lowest < w) (hbelow : w < highest) :
    Moves rule lowest highest (some .success) (w, n)
      (min (w + highest * rule.successIncreaseRate) highest, n)
  | wait {n : Nat} (hbelow : lowest < highest) (hshut : n + 1 < rule.recoverThreshold) :
    Moves rule lowest highest (some .success) (lowest, n) (lowest, n + 1)
  | lift {w' : ℚ} {n n' : Nat} (hbelow : lowest < highest) (hopen : rule.recoverThreshold ≤ n + 1)
    (hlifted : lowest < w') :
    Moves rule lowest highest (some .success) (lowest, n) (w', n')
  | fall {w : ℚ} {n n' : Nat} : Moves rule lowest highest (some .failure) (w, n) (lowest, n')
  | decay {w : ℚ} {n n' : Nat} (hlow : lowest ≤ w * rule.failKeepRate)
    (hkept : highest * rule.downThresholdRate ≤ w * rule.failKeepRate) :
    Moves rule lowest highest (some .failure) (w, n) (w * rule.failKeepRate, n')
  | down {w : ℚ} {n : Nat} : Moves rule lowest highest none (w, n) (lowest, n)

/-- All that the flat rule does to a weight, to which no streak matters. -/
inductive FlatRule.Moves (rule : FlatRule ℚ) (lowest highest : ℚ) :
    Bool → Option CallResult → ℚ × Nat → ℚ × Nat → Prop
  | climb {w : ℚ} {n n' : Nat} : Moves rule lowest highest true (some .success) (w, n)
      (min (w + rule.successIncrement) highest, n')
  | probed {w w' : ℚ} {n n' : Nat} (hle : w ≤ w') (hhigh : w' ≤ highest) :
    Moves rule lowest highest false (some .success) (w, n) (w', n')
  | fall {reported : Bool} {w : ℚ} {n n' : Nat} :
    Moves rule lowest highest reported (some .failure) (w, n)
      (max (w - rule.failDecrement) lowest, n')
  | down {w : ℚ} {n n' : Nat} : Moves rule lowest highest false none (w, n) (lowest, n')

/-! ## What the rules do -/

theorem clampWeight_of_mem {x previous : ℚ} (hlow : lowest ≤ x) (hhigh : x ≤ highest) :
    clampWeight x previous lowest highest = x := by
  rw [clampWeight_rat, max_eq_left hlow, min_eq_left hhigh]

section

variable {d : Dealing ℚ} {r : Resource ℚ} {s : System ℚ}

/-- Only what is at its minimum and below its maximum is probed. -/
theorem Dealing.eq_report {rule : Rule ℚ} (hpolicy : s.selector.policy = .shipped rule)
    (hconcerns : d.concerns r s = true) {result : CallResult}
    (hresult : d.result? r.name s.host = some result) (hup : ¬ r.isFailed = true) :
    d = .report result := by
  cases d with
  | down => exact nomatch hresult
  | report result' => rw [Option.some.inj hresult]
  | probe p =>
      have hneeds : s.selector.policy.needsCheck r.context (s.host.asked.count r.name) =
          .done true := of_decide_eq_true hconcerns
      rw [hpolicy] at hneeds
      exact absurd (Outcome.done.inj hneeds) hup

namespace RatioRule

variable {rule : RatioRule ℚ} {streaks : Tally}

theorem onSuccess_of_full (h : r.maxWeight ≤ r.current) : rule.onSuccess r.context streaks =
    (r.maxWeight, rule.endStreak r.name streaks) := by
  unfold onSuccess
  rw [show r.context.isHealthy = true from decide_eq_true h]
  rfl

theorem onSuccess_of_between (hlow : r.minWeight < r.current) (hbelow : r.current < r.maxWeight) :
    rule.onSuccess r.context streaks =
      (min (r.current + r.maxWeight * rule.successIncreaseRate) r.maxWeight, streaks) := by
  unfold onSuccess
  rw [show r.context.isHealthy = false from decide_eq_false (not_le.2 hbelow),
    show r.context.isDown = false from decide_eq_false (not_le.2 hlow), Scalar.smaller_rat]
  rfl

theorem onFail_fst : (rule.onFail r.context streaks).1 =
    if r.current * rule.failKeepRate < r.maxWeight * rule.downThresholdRate then r.minWeight
    else max (r.current * rule.failKeepRate) r.minWeight := by
  rw [← Scalar.larger_rat]
  rfl

/-- What a success comes to: the rule is asked, and the weight goes toward what it proposes. -/
theorem exists_rate (hpolicy : s.selector.policy = .shipped (.ratio rule))
    (hconcerns : d.concerns r s = true)
    (hresult : d.result? r.name s.host = some .success) : ∃ rate : ℚ,
      (∀ result, d = .report result → rate = 1) ∧
      (d.after r s).current = clampWeight
        (r.current + ((rule.onSuccess r.context s.host.memory.streaks).1 - r.current) * rate)
        r.current r.minWeight r.maxWeight ∧
      (d.answer r s).2.streaks.count r.name =
        (rule.onSuccess r.context s.host.memory.streaks).2.count r.name := by
  have htarget : (s.selector.policy.onResult .success r.context s.host.memory).1 =
      .done (rule.onSuccess r.context s.host.memory.streaks).1 := by
    rw [hpolicy]
    rfl
  obtain ⟨rate, -, hreport, hafter⟩ := Dealing.exists_rate hresult hconcerns htarget
  obtain ⟨scale, hanswer, -⟩ := Dealing.answer_of_success hresult
  refine ⟨rate, hreport, hafter, ?_⟩
  rw [hanswer, hpolicy]
  rfl

theorem moves_of_full (hpolicy : s.selector.policy = .shipped (.ratio rule)) (hwithin : r.Within)
    (hconcerns : d.concerns r s = true)
    (hresult : d.result? r.name s.host = some .success) (hfull : r.current = r.maxWeight) :
    rule.Moves r.minWeight r.maxWeight (some .success)
      (r.current, s.host.memory.streaks.count r.name)
      ((d.after r s).current, (d.answer r s).2.streaks.count r.name) := by
  obtain ⟨rate, -, hafter, -⟩ := exists_rate hpolicy hconcerns hresult
  rw [onSuccess_of_full hfull.ge, ← hfull, sub_self, zero_mul, add_zero,
    clampWeight_of_mem hwithin.1 (hfull ▸ le_rfl)] at hafter
  rw [hafter, hfull]
  exact .full

/-- Between the bounds a resource is not probed, so the whole step is made. -/
theorem moves_of_between (hpolicy : s.selector.policy = .shipped (.ratio rule))
    (hvalid : rule.Valid) (hwithin : r.Within) (hnonneg : 0 ≤ r.minWeight)
    (hconcerns : d.concerns r s = true)
    (hresult : d.result? r.name s.host = some .success) (hlow : r.minWeight < r.current)
    (hbelow : r.current < r.maxWeight) :
    rule.Moves r.minWeight r.maxWeight (some .success)
      (r.current, s.host.memory.streaks.count r.name)
      ((d.after r s).current, (d.answer r s).2.streaks.count r.name) := by
  have hmax : 0 ≤ r.maxWeight := hnonneg.trans (hwithin.1.trans hwithin.2)
  have hstep : 0 ≤ r.maxWeight * rule.successIncreaseRate := mul_nonneg hmax hvalid.increase_pos.le
  have hreported := Dealing.eq_report hpolicy hconcerns hresult fun hfailed =>
    absurd (Resource.isFailed_iff.1 hfailed).1 (not_le.2 hlow)
  obtain ⟨rate, hwhole, hafter, hcount⟩ := exists_rate hpolicy hconcerns hresult
  rw [onSuccess_of_between hlow hbelow] at hafter hcount
  rw [hwhole _ hreported, mul_one, add_sub_cancel, clampWeight_of_mem
    (le_min (hlow.le.trans (le_add_of_nonneg_right hstep)) (hlow.trans hbelow).le)
    (min_le_right _ _)] at hafter
  rw [hafter, hcount]
  exact .climb hlow hbelow

theorem moves_of_failed (hpolicy : s.selector.policy = .shipped (.ratio rule))
    (hvalid : rule.Valid) (hwithin : r.Within) (hnonneg : 0 ≤ r.minWeight)
    (hconcerns : d.concerns r s = true)
    (hresult : d.result? r.name s.host = some .success) (hmin : r.minWeight = r.current)
    (hbelow : r.current < r.maxWeight) :
    rule.Moves r.minWeight r.maxWeight (some .success)
      (r.current, s.host.memory.streaks.count r.name)
      ((d.after r s).current, (d.answer r s).2.streaks.count r.name) := by
  have hfailed : r.isFailed = true := Resource.isFailed_iff.2 ⟨hmin.ge, hbelow⟩
  by_cases hopen : rule.recoverThreshold ≤ s.host.memory.streaks.count r.name + 1
  · have hlifted := (lt_after_iff hpolicy hwithin hnonneg hfailed hresult hconcerns).2
      ⟨hopen, hvalid.recover_pos⟩
    rw [← hmin] at hlifted ⊢
    exact .lift (hmin ▸ hbelow) hopen hlifted
  · have hshut : s.host.memory.streaks.count r.name + 1 < rule.recoverThreshold := not_le.1 hopen
    have hgate : ¬ (rule.gate r.name s.host.memory.streaks).1 = true :=
      fun h => hopen (gate_open_iff.1 h)
    obtain ⟨rate, -, hafter, hcount⟩ := exists_rate hpolicy hconcerns hresult
    rw [onSuccess_of_failed hfailed] at hafter hcount
    rw [if_neg hgate, sub_self, zero_mul, add_zero,
      clampWeight_of_mem hwithin.1 hwithin.2] at hafter
    rw [hafter, hcount, count_gate fun hle => absurd hle (by omega), if_pos hshut, ← hmin]
    exact .wait (hmin ▸ hbelow) hshut

theorem moves_of_failure (hpolicy : s.selector.policy = .shipped (.ratio rule))
    (hvalid : rule.Valid) (hwithin : r.Within) (hnonneg : 0 ≤ r.minWeight)
    (hconcerns : d.concerns r s = true)
    (hresult : d.result? r.name s.host = some .failure) :
    rule.Moves r.minWeight r.maxWeight (some .failure)
      (r.current, s.host.memory.streaks.count r.name)
      ((d.after r s).current, (d.answer r s).2.streaks.count r.name) := by
  have hbounds : r.minWeight ≤ r.maxWeight := hwithin.1.trans hwithin.2
  have hdone : (d.answer r s).1 = .done (rule.onFail r.context s.host.memory.streaks).1 := by
    rw [Dealing.answer_of_failure hresult, hpolicy]
    rfl
  rw [Dealing.current_after hresult hconcerns hdone, onFail_fst]
  split
  · rw [clampWeight_of_mem le_rfl hbounds]
    exact .fall
  · next hkept =>
      rcases le_total (r.current * rule.failKeepRate) r.minWeight with hlow | hlow
      · rw [max_eq_right hlow, clampWeight_of_mem le_rfl hbounds]
        exact .fall
      · have hle : r.current * rule.failKeepRate ≤ r.current :=
          mul_le_of_le_one_right (hnonneg.trans hwithin.1) hvalid.failKeepRate.upper
        rw [max_eq_left hlow, clampWeight_of_mem hlow (hle.trans hwithin.2)]
        exact .decay hlow (not_lt.1 hkept)

theorem movesBy (rule : RatioRule ℚ) (hvalid : rule.Valid) (lowest highest : ℚ) :
    (Policy.shipped (.ratio rule)).MovesBy lowest highest fun _ => rule.Moves lowest highest := by
  rintro d s r hpolicy hwithin hnonneg hconcerns rfl rfl
  cases hresult : d.result? r.name s.host with
  | none =>
      rw [Dealing.current_after_of_none hresult, Dealing.memory_answer_of_none hresult]
      exact .down
  | some result =>
      cases result with
      | failure => exact moves_of_failure hpolicy hvalid hwithin hnonneg hconcerns hresult
      | success =>
          rcases hwithin.2.eq_or_lt with hfull | hbelow
          · exact moves_of_full hpolicy hwithin hconcerns hresult hfull
          · rcases hwithin.1.eq_or_lt with hmin | hlow
            · exact moves_of_failed hpolicy hvalid hwithin hnonneg hconcerns hresult hmin hbelow
            · exact moves_of_between hpolicy hvalid hwithin hnonneg hconcerns hresult hlow hbelow

end RatioRule

namespace FlatRule

variable {rule : FlatRule ℚ}

theorem le_onSuccess (hvalid : rule.Valid) (hwithin : r.Within) :
    r.current ≤ rule.onSuccess r.context := by
  unfold onSuccess
  rw [Scalar.smaller_rat]
  exact le_min (le_add_of_nonneg_right hvalid.increment) hwithin.2

theorem moves_of_success (hpolicy : s.selector.policy = .shipped (.flat rule))
    (hvalid : rule.Valid) (hwithin : r.Within) (hconcerns : d.concerns r s = true)
    (hresult : d.result? r.name s.host = some .success) :
    rule.Moves r.minWeight r.maxWeight d.isReport (some .success)
      (r.current, s.host.memory.streaks.count r.name)
      ((d.after r s).current, (d.answer r s).2.streaks.count r.name) := by
  have htarget : (s.selector.policy.onResult .success r.context s.host.memory).1 =
      .done (rule.onSuccess r.context) := by
    rw [hpolicy]
    rfl
  have hle := le_onSuccess hvalid hwithin
  obtain ⟨rate, hrate, hwhole, hafter⟩ := Dealing.exists_rate hresult hconcerns htarget
  rw [hafter]
  cases d with
  | down => exact nomatch hresult
  | report result =>
      rw [hwhole result rfl, mul_one, add_sub_cancel, clampWeight_of_mem (hwithin.1.trans hle)
        (by
          unfold onSuccess
          rw [Scalar.smaller_rat]
          exact min_le_right _ _)]
      unfold onSuccess
      rw [Scalar.smaller_rat]
      exact .climb
  | probe p =>
      rw [clampWeight_rat]
      refine .probed (le_min (le_max_of_le_left ?_) hwithin.2) (min_le_right _ _)
      exact le_add_of_nonneg_right (mul_nonneg (sub_nonneg.2 hle) hrate.le)

theorem moves_of_failure (hpolicy : s.selector.policy = .shipped (.flat rule))
    (hvalid : rule.Valid) (hwithin : r.Within) (hconcerns : d.concerns r s = true)
    (hresult : d.result? r.name s.host = some .failure) :
    rule.Moves r.minWeight r.maxWeight d.isReport (some .failure)
      (r.current, s.host.memory.streaks.count r.name)
      ((d.after r s).current, (d.answer r s).2.streaks.count r.name) := by
  have hdone : (d.answer r s).1 = .done (max (r.current - rule.failDecrement) r.minWeight) := by
    rw [Dealing.answer_of_failure hresult, hpolicy, ← Scalar.larger_rat]
    rfl
  have hle : r.current - rule.failDecrement ≤ r.maxWeight :=
    (sub_le_self _ hvalid.decrement).trans hwithin.2
  rw [Dealing.current_after hresult hconcerns hdone,
    clampWeight_of_mem (le_max_right _ _) (max_le hle (hwithin.1.trans hwithin.2))]
  exact .fall

theorem movesBy (rule : FlatRule ℚ) (hvalid : rule.Valid) (lowest highest : ℚ) :
    (Policy.shipped (.flat rule)).MovesBy lowest highest (rule.Moves lowest highest) := by
  rintro d s r hpolicy hwithin - hconcerns rfl rfl
  cases hresult : d.result? r.name s.host with
  | none =>
      rw [Dealing.current_after_of_none hresult]
      cases d with
      | down => exact .down
      | report result => exact nomatch hresult
      | probe p => exact nomatch hresult
  | some result =>
      cases result with
      | success => exact moves_of_success hpolicy hvalid hwithin hconcerns hresult
      | failure => exact moves_of_failure hpolicy hvalid hwithin hconcerns hresult

end FlatRule

end

/-! ## The right way -/

/-- No success lowered the weight and no failure raised it, and at the bound that it was going to
nothing changed. -/
structure Dealt.Straight (lowest highest : ℚ) (entry : Dealt ℚ) : Prop where
  rises : entry.result? = some .success → entry.before ≤ entry.after
  falls : entry.result? = some .failure → entry.after ≤ entry.before
  full : entry.result? = some .success → entry.before = highest → entry.after = entry.before
  empty : entry.result? = some .failure → entry.before = lowest → entry.after = entry.before

theorem Dealt.Straight.of_success {w w' : ℚ} (hle : w ≤ w') (hfull : w = highest → w' = w) :
    Dealt.Straight lowest highest ⟨some .success, w, w'⟩ :=
  ⟨fun _ => hle, nofun, fun _ => hfull, nofun⟩

theorem Dealt.Straight.of_failure {w w' : ℚ} (hle : w' ≤ w) (hempty : w = lowest → w' = w) :
    Dealt.Straight lowest highest ⟨some .failure, w, w'⟩ :=
  ⟨nofun, fun _ => hle, nofun, fun _ => hempty⟩

theorem Dealt.Straight.of_none (w w' : ℚ) : Dealt.Straight lowest highest ⟨none, w, w'⟩ :=
  ⟨nofun, nofun, nofun, nofun⟩

theorem RatioRule.Moves.straight {rule : RatioRule ℚ} {result? : Option CallResult} {w w' : ℚ}
    {n n' : Nat} (h : rule.Moves lowest highest result? (w, n) (w', n')) (hvalid : rule.Valid)
    (hnonneg : 0 ≤ lowest) (hlow : lowest ≤ w) :
    Dealt.Straight lowest highest ⟨result?, w, w'⟩ := by
  cases h with
  | full => exact .of_success le_rfl fun _ => rfl
  | climb _ hbelow =>
      have hstep : 0 ≤ highest * rule.successIncreaseRate :=
        mul_nonneg (hnonneg.trans (hlow.trans hbelow.le)) hvalid.increase_pos.le
      exact .of_success (le_min (le_add_of_nonneg_right hstep) hbelow.le)
        fun hfull => absurd hfull hbelow.ne
  | wait hbelow => exact .of_success le_rfl fun _ => rfl
  | lift hbelow _ hlifted => exact .of_success hlifted.le fun hfull => absurd hfull hbelow.ne
  | fall => exact .of_failure hlow Eq.symm
  | decay hkept =>
      have hle : w * rule.failKeepRate ≤ w :=
        mul_le_of_le_one_right (hnonneg.trans hlow) hvalid.failKeepRate.upper
      exact .of_failure hle fun hempty => le_antisymm hle (hempty.le.trans hkept)
  | down => exact .of_none _ _

theorem FlatRule.Moves.straight {rule : FlatRule ℚ} {reported : Bool} {result? : Option CallResult}
    {w w' : ℚ} {n n' : Nat} (h : rule.Moves lowest highest reported result? (w, n) (w', n'))
    (hvalid : rule.Valid) (hlow : lowest ≤ w) (hhigh : w ≤ highest) :
    Dealt.Straight lowest highest ⟨result?, w, w'⟩ := by
  cases h with
  | climb =>
      have hle : w ≤ w + rule.successIncrement := le_add_of_nonneg_right hvalid.increment
      refine .of_success (le_min hle hhigh) fun hfull => ?_
      rw [← hfull, min_eq_right hle]
  | probed hle hhigh' =>
      exact .of_success hle fun hfull => le_antisymm (hfull ▸ hhigh') hle
  | fall =>
      have hle : w - rule.failDecrement ≤ w := sub_le_self _ hvalid.decrement
      refine .of_failure (max_le hle hlow) fun hempty => ?_
      rw [← hempty, max_eq_right hle]
  | down => exact .of_none _ _

/-! ## Up and down by the ratio rule -/

namespace RatioRule

variable {rule : RatioRule ℚ} {w w' : ℚ} {n n' : Nat} {result? : Option CallResult}
  {past : List (Dealt ℚ)}

/-- As long as there are only successes: below the gate the streak has counted all of them, and
above it all but those that it took to get there have added their part. -/
def Rising (rule : RatioRule ℚ) (lowest highest w : ℚ) (n : Nat) (past : List (Dealt ℚ)) : Prop :=
  (∀ entry ∈ past, entry.result? = some .success) →
    highest ≤ w ∨
    (lowest < w ∧ highest * rule.successIncreaseRate *
      ((past.length - rule.recoverThreshold : Nat) : ℚ) ≤ w) ∨
    (w ≤ lowest ∧ past.length ≤ n ∧ past.length < rule.recoverThreshold)

theorem rising_nil (hvalid : rule.Valid) (hnonneg : 0 ≤ lowest) (hlow : lowest ≤ w) :
    rule.Rising lowest highest w n [] := by
  intro _
  rcases hlow.eq_or_lt with hmin | habove
  · exact .inr (.inr ⟨hmin.ge, Nat.zero_le n, hvalid.recoverThreshold.1⟩)
  · refine .inr (.inl ⟨habove, ?_⟩)
    rw [List.length_nil, Nat.zero_sub, Nat.cast_zero, mul_zero]
    exact hnonneg.trans hlow

theorem Rising.move (h : rule.Rising lowest highest w n past) (hvalid : rule.Valid)
    (hmove : rule.Moves lowest highest result? (w, n) (w', n')) (hnonneg : 0 ≤ lowest)
    (hhigh : lowest ≤ highest) :
    rule.Rising lowest highest w' n' (⟨result?, w, w'⟩ :: past) := by
  intro hsuccesses
  obtain ⟨hsuccess, hpast⟩ := List.forall_mem_cons.1 hsuccesses
  have h := h hpast
  rw [List.length_cons]
  cases hmove with
  | fall => exact nomatch hsuccess
  | decay => exact nomatch hsuccess
  | down => exact nomatch hsuccess
  | full => exact .inl le_rfl
  | climb hlow hbelow =>
      have hstep : 0 ≤ highest * rule.successIncreaseRate :=
        mul_nonneg (hnonneg.trans hhigh) hvalid.increase_pos.le
      obtain ⟨-, hclimbed⟩ := (h.resolve_left (not_le.2 hbelow)).resolve_right
        fun hwaiting => absurd hwaiting.1 (not_le.2 hlow)
      rcases le_total highest (w + highest * rule.successIncreaseRate) with harrived | hnot
      · exact .inl (min_eq_right harrived).ge
      · rw [min_eq_left hnot]
        refine .inr (.inl ⟨lt_add_of_lt_of_nonneg hlow hstep, ?_⟩)
        have hcount : ((past.length + 1 - rule.recoverThreshold : Nat) : ℚ) ≤
            ((past.length - rule.recoverThreshold : Nat) : ℚ) + 1 := by
          exact_mod_cast (by omega : past.length + 1 - rule.recoverThreshold ≤
            past.length - rule.recoverThreshold + 1)
        calc highest * rule.successIncreaseRate *
              ((past.length + 1 - rule.recoverThreshold : Nat) : ℚ)
            ≤ highest * rule.successIncreaseRate *
              (((past.length - rule.recoverThreshold : Nat) : ℚ) + 1) :=
              mul_le_mul_of_nonneg_left hcount hstep
          _ = highest * rule.successIncreaseRate *
              ((past.length - rule.recoverThreshold : Nat) : ℚ) +
                highest * rule.successIncreaseRate := by rw [mul_add, mul_one]
          _ ≤ w + highest * rule.successIncreaseRate := by gcongr
  | wait hbelow hshut =>
      obtain ⟨-, hcounted, -⟩ := (h.resolve_left (not_le.2 hbelow)).resolve_left
        fun hclimbed => lt_irrefl _ hclimbed.1
      exact .inr (.inr ⟨le_rfl, by omega, by omega⟩)
  | lift hbelow hopen hlifted =>
      obtain ⟨-, -, hfew⟩ := (h.resolve_left (not_le.2 hbelow)).resolve_left
        fun hclimbed => lt_irrefl _ hclimbed.1
      refine .inr (.inl ⟨hlifted, ?_⟩)
      rw [Nat.sub_eq_zero_of_le (by omega), Nat.cast_zero, mul_zero]
      exact hnonneg.trans hlifted.le

/-- After as many successes as the streak and the climb need, the weight is at its maximum. -/
theorem Rising.arrived (h : rule.Rising lowest highest w n past) (hvalid : rule.Valid)
    (hhigh : 0 ≤ highest) (hsuccesses : ∀ entry ∈ past, entry.result? = some .success)
    (henough : rule.recoverThreshold + ⌈1 / rule.successIncreaseRate⌉₊ ≤ past.length) :
    highest ≤ w := by
  rcases h hsuccesses with harrived | ⟨-, hclimbed⟩ | ⟨-, -, hfew⟩
  · exact harrived
  · have hpos := hvalid.increase_pos
    have hcount : 1 / rule.successIncreaseRate ≤
        ((past.length - rule.recoverThreshold : Nat) : ℚ) :=
      (Nat.le_ceil _).trans (by exact_mod_cast (by omega))
    rw [div_le_iff₀ hpos] at hcount
    calc highest = highest * 1 := (mul_one _).symm
      _ ≤ highest * (((past.length - rule.recoverThreshold : Nat) : ℚ) *
            rule.successIncreaseRate) := mul_le_mul_of_nonneg_left hcount hhigh
      _ = highest * rule.successIncreaseRate *
            ((past.length - rule.recoverThreshold : Nat) : ℚ) := by
          rw [mul_comm (_ : ℚ) rule.successIncreaseRate, mul_assoc]
      _ ≤ w := hclimbed
  · omega

/-- As long as there are no successes: at the minimum, or a power of the fraction that is kept, and
not below the threshold. -/
def Falling (rule : RatioRule ℚ) (lowest highest w : ℚ) (_ : Nat) (past : List (Dealt ℚ)) : Prop :=
  (∀ entry ∈ past, entry.result? ≠ some .success) →
    w ≤ lowest ∨ (w ≤ highest * rule.failKeepRate ^ past.length ∧
      (0 < past.length → highest * rule.downThresholdRate ≤ w))

theorem falling_nil (hhigh : w ≤ highest) : rule.Falling lowest highest w n [] :=
  fun _ => .inr ⟨by simpa using hhigh, nofun⟩

theorem Falling.move (h : rule.Falling lowest highest w n past) (hvalid : rule.Valid)
    (hmove : rule.Moves lowest highest result? (w, n) (w', n')) (hnonneg : 0 ≤ w) :
    rule.Falling lowest highest w' n' (⟨result?, w, w'⟩ :: past) := by
  intro hfailures
  obtain ⟨hfailure, hpast⟩ := List.forall_mem_cons.1 hfailures
  have h := h hpast
  cases hmove with
  | full => exact absurd rfl hfailure
  | climb => exact absurd rfl hfailure
  | wait => exact absurd rfl hfailure
  | lift => exact absurd rfl hfailure
  | fall => exact .inl le_rfl
  | down => exact .inl le_rfl
  | decay _ hkept =>
      rcases h with hmin | ⟨hpower, -⟩
      · exact .inl ((mul_le_of_le_one_right hnonneg hvalid.failKeepRate.upper).trans hmin)
      · refine .inr ⟨?_, fun _ => hkept⟩
        rw [List.length_cons, pow_succ, ← mul_assoc]
        exact mul_le_mul_of_nonneg_right hpower hvalid.failKeepRate.lower

/-- Once the power is below the threshold, the weight is at its minimum. -/
theorem Falling.arrived (h : rule.Falling lowest highest w n past) (hvalid : rule.Valid)
    (hnonneg : 0 ≤ lowest) (hhigh : 0 ≤ highest)
    (hfailures : ∀ entry ∈ past, entry.result? ≠ some .success) {m : Nat}
    (hpower : rule.failKeepRate ^ m < rule.downThresholdRate) (henough : m ≤ past.length) :
    w ≤ lowest := by
  rcases h hfailures with hmin | ⟨hdecayed, hkept⟩
  · exact hmin
  · have hle : rule.failKeepRate ^ past.length ≤ rule.failKeepRate ^ m :=
      pow_le_pow_of_le_one hvalid.failKeepRate.lower hvalid.failKeepRate.upper henough
    have hbelow : rule.failKeepRate ^ past.length < rule.downThresholdRate := hle.trans_lt hpower
    have hsome : 0 < past.length := by
      rw [Nat.pos_iff_ne_zero]
      intro hzero
      rw [hzero, pow_zero] at hbelow
      exact absurd hbelow (not_lt.2 hvalid.downThresholdRate.upper)
    rcases hhigh.eq_or_lt with hzero | hpos
    · rw [← hzero, zero_mul] at hdecayed
      exact hdecayed.trans hnonneg
    · exact absurd ((hkept hsome).trans hdecayed)
        (not_le.2 (mul_lt_mul_of_pos_left hbelow hpos))

end RatioRule

/-! ## Up and down by the flat rule -/

namespace FlatRule

variable {rule : FlatRule ℚ} {j : Nat} {w w' : ℚ} {n n' : Nat} {reported : Bool}
  {result? : Option CallResult} {past : List (Dealt ℚ)}

/-- As long as there are only successes, each of `j` reports has added its step. -/
def Rising (rule : FlatRule ℚ) (lowest highest : ℚ) (j : Nat) (w : ℚ) (_ : Nat)
    (past : List (Dealt ℚ)) : Prop :=
  (∀ entry ∈ past, entry.result? = some .success) →
    highest ≤ w ∨ lowest + j * rule.successIncrement ≤ w

/-- As long as there are no successes, each of `j` reports has taken its step. -/
def Falling (rule : FlatRule ℚ) (lowest highest : ℚ) (j : Nat) (w : ℚ) (_ : Nat)
    (past : List (Dealt ℚ)) : Prop :=
  (∀ entry ∈ past, entry.result? ≠ some .success) →
    w ≤ lowest ∨ w ≤ highest - j * rule.failDecrement

theorem Rising.move (h : rule.Rising lowest highest j w n past) (hvalid : rule.Valid)
    (hmove : rule.Moves lowest highest reported result? (w, n) (w', n')) (hlow : lowest ≤ w)
    (hhigh : w ≤ highest) : rule.Rising lowest highest j w' n' (⟨result?, w, w'⟩ :: past) := by
  intro hsuccesses
  obtain ⟨hsuccess, hpast⟩ := List.forall_mem_cons.1 hsuccesses
  have hle : w ≤ w' := (hmove.straight hvalid hlow hhigh).rises hsuccess
  exact (h hpast).imp (fun harrived => harrived.trans hle) fun hclimbed => hclimbed.trans hle

theorem Rising.report (h : rule.Rising lowest highest j w n past) (hvalid : rule.Valid)
    (hmove : rule.Moves lowest highest true (some .success) (w, n) (w', n')) :
    rule.Rising lowest highest (j + 1) w' n' (⟨some .success, w, w'⟩ :: past) := by
  intro hsuccesses
  cases hmove with
  | climb =>
      rcases h (List.forall_mem_cons.1 hsuccesses).2 with harrived | hclimbed
      · exact .inl (le_min (harrived.trans (le_add_of_nonneg_right hvalid.increment)) le_rfl)
      · rcases le_total highest (w + rule.successIncrement) with harrived | hnot
        · exact .inl (min_eq_right harrived).ge
        · refine .inr ?_
          rw [min_eq_left hnot, Nat.cast_add, Nat.cast_one, add_mul, one_mul, ← add_assoc]
          gcongr

theorem Falling.move (h : rule.Falling lowest highest j w n past) (hvalid : rule.Valid)
    (hmove : rule.Moves lowest highest reported result? (w, n) (w', n')) (hlow : lowest ≤ w)
    (hhigh : w ≤ highest) : rule.Falling lowest highest j w' n' (⟨result?, w, w'⟩ :: past) := by
  intro hfailures
  obtain ⟨hfailure, hpast⟩ := List.forall_mem_cons.1 hfailures
  have hstraight := hmove.straight hvalid hlow hhigh
  cases hmove with
  | climb => exact absurd rfl hfailure
  | probed => exact absurd rfl hfailure
  | down => exact .inl le_rfl
  | fall =>
      have hle := hstraight.falls rfl
      exact (h hpast).imp (fun harrived => hle.trans harrived) fun hfallen => hle.trans hfallen

theorem Falling.report (h : rule.Falling lowest highest j w n past) (hvalid : rule.Valid)
    (hmove : rule.Moves lowest highest true (some .failure) (w, n) (w', n')) :
    rule.Falling lowest highest (j + 1) w' n' (⟨some .failure, w, w'⟩ :: past) := by
  intro hfailures
  cases hmove with
  | fall =>
      rcases h (List.forall_mem_cons.1 hfailures).2 with harrived | hfallen
      · exact .inl (max_le ((sub_le_self _ hvalid.decrement).trans harrived) le_rfl)
      · rcases le_total (w - rule.failDecrement) lowest with harrived | hnot
        · exact .inl (max_eq_right harrived).le
        · refine .inr ?_
          rw [max_eq_left hnot, Nat.cast_add, Nat.cast_one, add_mul, one_mul, ← sub_sub]
          gcongr

/-- As many steps as fit between the bounds are enough. -/
theorem mul_ceil_le {distance step : ℚ} (hstep : 0 < step) (henough : ⌈distance / step⌉₊ ≤ j) :
    distance ≤ j * step :=
  (div_le_iff₀ hstep).1 ((Nat.le_ceil _).trans (by exact_mod_cast henough))

end FlatRule

/-! ## Beside a run -/

/-- All entries of the record went the right way. -/
def Directed (lowest highest : ℚ) (_ : ℚ) (_ : Nat) (past : List (Dealt ℚ)) : Prop :=
  ∀ entry ∈ past, entry.Straight lowest highest

theorem Policy.upholds_directed {rule : Rule ℚ} (hvalid : rule.Valid) :
    (Policy.shipped rule).Upholds (At lowest highest (Directed lowest highest)) := by
  cases rule with
  | ratio rule =>
      refine (rule.movesBy hvalid lowest highest).upholds ?_
      intro _ _ _ _ _ _ _ hmove hnonneg hlow _ h
      exact List.forall_mem_cons.2 ⟨hmove.straight hvalid hnonneg hlow, h⟩
  | flat rule =>
      refine (rule.movesBy hvalid lowest highest).upholds ?_
      intro _ _ _ _ _ _ _ hmove _ hlow hhigh h
      exact List.forall_mem_cons.2 ⟨hmove.straight hvalid hlow hhigh, h⟩

section

variable {b : Builder ℚ} {s : System ℚ} {name : String} {r : Resource ℚ} {p : Policy ℚ}

theorem Builder.Reaches.within_of_find? (h : b.Reaches s) (hr : s.selector.find? name = some r) :
    r.Within ∧ 0 ≤ r.minWeight := by
  obtain ⟨hmem, -⟩ := h.layout.mem_of_find? hr
  exact ⟨h.bounded.within hmem, h.bounded.nonneg hmem⟩

/-- A registered resource of a reachable system, at the start of a record. -/
theorem Builder.Reaches.upheld_at (h : b.Reaches s) (hpolicy : s.selector.policy = p)
    (hr : s.selector.find? name = some r) {K : ℚ → Nat → List (Dealt ℚ) → Prop}
    (hK : K r.current (s.host.memory.streaks.count name) []) :
    Upheld b p (At r.minWeight r.maxWeight K) name s [] :=
  ⟨h.ready, h.bounded, hpolicy, r, hr, rfl, rfl, hK⟩

/-- What changes with every report of a kind, at the end of a run. -/
theorem Builder.Reaches.at_run_counting {K : Nat → ℚ → Nat → List (Dealt ℚ) → Prop}
    {result : CallResult} (h : b.Reaches s) (hpolicy : s.selector.policy = p)
    (hr : s.selector.find? name = some r) (hp : ∀ j, p.Upholds (At r.minWeight r.maxWeight (K j)))
    (hreport : ∀ j, p.Leads (.report result) (At r.minWeight r.maxWeight (K j))
      (At r.minWeight r.maxWeight (K (j + 1))))
    (hfree : ∀ j w n n' past, K j w n past → K j w n' past)
    (hstart : K 0 r.current (s.host.memory.streaks.count name) []) (es : List (Event ℚ)) :
    At r.minWeight r.maxWeight (K (es.countP (Event.isReport result name)))
      ((s.run es).selector.find? name) ((s.run es).host.memory.streaks.count name)
      (s.record name es []) := by
  have hend := (h.upheld_at hpolicy hr hstart).run_counting
    (I := fun j => At r.minWeight r.maxWeight (K j)) hp h.valid hreport
    (fun j r? n n' past ⟨q, hq, hmin, hmax, hK⟩ => ⟨q, hq, hmin, hmax, hfree j _ n n' past hK⟩) es
  rw [Nat.zero_add] at hend
  exact hend.holds

/-- Every report of a registered resource is on record. -/
theorem Builder.Reaches.countP_isReport_le (h : b.Reaches s) (hr : s.selector.find? name = some r)
    (result : CallResult) (es : List (Event ℚ)) :
    es.countP (Event.isReport result name) ≤ (s.record name es []).length := by
  have hmoves (lowest highest : ℚ) :
      s.selector.policy.MovesBy lowest highest fun _ _ _ _ => True :=
    fun _ _ _ _ _ _ _ _ _ => trivial
  obtain ⟨_, -, -, -, hlength⟩ := h.at_run_counting (K := fun j _ _ past => j ≤ past.length) rfl hr
    (fun j => (hmoves _ _).upholds fun _ _ _ _ hle => hle.trans (Nat.le_succ _))
    (fun j => (hmoves _ _).leads fun _ hle => Nat.succ_le_succ hle)
    (fun _ _ _ _ _ hle => hle) (Nat.zero_le _) es
  exact hlength

end

/-- What holds of the weight at the end of a run, if it holds at its start and is upheld. -/
theorem Builder.Reaches.at_run {b : Builder ℚ} {s : System ℚ} {name : String} {r t : Resource ℚ}
    {p : Policy ℚ} {K : ℚ → Nat → List (Dealt ℚ) → Prop} {es : List (Event ℚ)} (h : b.Reaches s)
    (hpolicy : s.selector.policy = p) (hr : s.selector.find? name = some r)
    (ht : (s.run es).selector.find? name = some t) (hp : p.Upholds (At r.minWeight r.maxWeight K))
    (hstart : K r.current (s.host.memory.streaks.count name) [])
    (hothers : s.Undisturbed name es ∨ ∀ w n n' past, K w n past → K w n' past) :
    t.minWeight = r.minWeight ∧ t.maxWeight = r.maxWeight ∧
      K t.current ((s.run es).host.memory.streaks.count name) (s.record name es []) := by
  have hend := (h.upheld_at hpolicy hr hstart).run hp h.valid
    (hothers.imp_right fun hfree r? n n' past ⟨q, hq, hmin, hmax, hK⟩ =>
      ⟨q, hq, hmin, hmax, hfree _ n n' past hK⟩)
  obtain ⟨_, ht', hmin, hmax, hK⟩ := hend.holds
  obtain rfl := Option.some.inj (ht'.symm.trans ht)
  exact ⟨hmin, hmax, hK⟩

section

variable {b : Builder ℚ} {s : System ℚ} {name : String} {r t : Resource ℚ} {es : List (Event ℚ)}

theorem RatioRule.full_of_successes {rule : RatioRule ℚ} (h : b.Reaches s)
    (hpolicy : s.selector.policy = .shipped (.ratio rule)) (hvalid : rule.Valid)
    (hr : s.selector.find? name = some r) (ht : (s.run es).selector.find? name = some t)
    (halone : s.Undisturbed name es)
    (hsuccesses : ∀ entry ∈ s.record name es [], entry.result? = some .success)
    (henough : rule.recoverThreshold + ⌈1 / rule.successIncreaseRate⌉₊ ≤
      (s.record name es []).length) : t.current = t.maxWeight := by
  obtain ⟨⟨hlow, hhigh⟩, hnonneg⟩ := h.within_of_find? hr
  obtain ⟨-, hmax, hrising⟩ := h.at_run hpolicy hr ht
    ((rule.movesBy hvalid _ _).upholds fun hmove hnonneg hlow hhigh hrising =>
      hrising.move hvalid hmove hnonneg (hlow.trans hhigh)) (rising_nil hvalid hnonneg hlow)
    (.inl halone)
  have harrived := hrising.arrived hvalid (hnonneg.trans (hlow.trans hhigh)) hsuccesses henough
  rw [← hmax] at harrived
  exact le_antisymm ((h.run es).within_of_find? ht).1.2 harrived

theorem RatioRule.empty_of_failures {rule : RatioRule ℚ} (h : b.Reaches s)
    (hpolicy : s.selector.policy = .shipped (.ratio rule)) (hvalid : rule.Valid)
    (hr : s.selector.find? name = some r) (ht : (s.run es).selector.find? name = some t)
    (hfailures : ∀ entry ∈ s.record name es [], entry.result? ≠ some .success) {m : Nat}
    (hpower : rule.failKeepRate ^ m < rule.downThresholdRate)
    (henough : m ≤ (s.record name es []).length) : t.current = t.minWeight := by
  obtain ⟨⟨hlow, hhigh⟩, hnonneg⟩ := h.within_of_find? hr
  obtain ⟨hmin, -, hfalling⟩ := h.at_run hpolicy hr ht
    ((rule.movesBy hvalid _ _).upholds fun hmove hnonneg hlow _ hfalling =>
      hfalling.move hvalid hmove (hnonneg.trans hlow)) (falling_nil hhigh)
    (.inr fun _ _ _ _ h => h)
  have harrived := hfalling.arrived hvalid hnonneg (hnonneg.trans (hlow.trans hhigh)) hfailures
    hpower henough
  rw [← hmin] at harrived
  exact le_antisymm harrived ((h.run es).within_of_find? ht).1.1

theorem FlatRule.full_of_successes {rule : FlatRule ℚ} (h : b.Reaches s)
    (hpolicy : s.selector.policy = .shipped (.flat rule)) (hvalid : rule.Valid)
    (hr : s.selector.find? name = some r) (ht : (s.run es).selector.find? name = some t)
    (hstep : 0 < rule.successIncrement)
    (hsuccesses : ∀ entry ∈ s.record name es [], entry.result? = some .success)
    (henough : ⌈(r.maxWeight - r.minWeight) / rule.successIncrement⌉₊ ≤
      es.countP (Event.isReport .success name)) : t.current = t.maxWeight := by
  obtain ⟨⟨hlow, hhigh⟩, hnonneg⟩ := h.within_of_find? hr
  have hmoves := rule.movesBy hvalid r.minWeight r.maxWeight
  obtain ⟨_, ht', -, hmax, hrising⟩ := h.at_run_counting
    (K := rule.Rising r.minWeight r.maxWeight) hpolicy hr
    (fun j => hmoves.upholds fun hmove _ hlow hhigh hrising => hrising.move hvalid hmove hlow hhigh)
    (fun j => hmoves.leads fun hmove hrising => hrising.report hvalid hmove)
    (fun _ _ _ _ _ h => h) (fun _ => .inr (by simpa using hlow)) es
  obtain rfl := Option.some.inj (ht'.symm.trans ht)
  refine le_antisymm ((h.run es).within_of_find? ht).1.2 ?_
  rcases hrising hsuccesses with harrived | hclimbed
  · exact hmax.trans_le harrived
  · have := mul_ceil_le hstep henough
    linarith

theorem FlatRule.empty_of_failures {rule : FlatRule ℚ} (h : b.Reaches s)
    (hpolicy : s.selector.policy = .shipped (.flat rule)) (hvalid : rule.Valid)
    (hr : s.selector.find? name = some r) (ht : (s.run es).selector.find? name = some t)
    (hstep : 0 < rule.failDecrement)
    (hfailures : ∀ entry ∈ s.record name es [], entry.result? ≠ some .success)
    (henough : ⌈(r.maxWeight - r.minWeight) / rule.failDecrement⌉₊ ≤
      es.countP (Event.isReport .failure name)) : t.current = t.minWeight := by
  obtain ⟨⟨hlow, hhigh⟩, hnonneg⟩ := h.within_of_find? hr
  have hmoves := rule.movesBy hvalid r.minWeight r.maxWeight
  obtain ⟨_, ht', hmin, -, hfalling⟩ := h.at_run_counting
    (K := rule.Falling r.minWeight r.maxWeight) hpolicy hr
    (fun j => hmoves.upholds fun hmove _ hlow hhigh hfalling =>
      hfalling.move hvalid hmove hlow hhigh)
    (fun j => hmoves.leads fun hmove hfalling => hfalling.report hvalid hmove)
    (fun _ _ _ _ _ h => h) (fun _ => .inr (by simpa using hhigh)) es
  obtain rfl := Option.some.inj (ht'.symm.trans ht)
  refine le_antisymm ?_ ((h.run es).within_of_find? ht).1.1
  rcases hfalling hfailures with harrived | hfallen
  · exact harrived.trans hmin.ge
  · have := mul_ceil_le hstep henough
    linarith

end

/-- Under either rule, with parameters that validation accepts, no success lowers a weight and no
failure raises it. Enough successes in a row bring it to its maximum and enough failures in a row to
its minimum: under the ratio rule reported or probed, under the flat rule reported. -/
theorem weights_arrive {b : Builder ℚ} {s : System ℚ} (h : b.Reaches s) {settings : Settings ℚ}
    (hvalid : settings.validate = .ok ()) (hpolicy : s.selector.policy = .shipped settings.rule)
    {name : String} {r : Resource ℚ} (hr : s.selector.find? name = some r)
    (es : List (Event ℚ)) :
    (∀ result, es.countP (Event.isReport result name) ≤ (s.record name es []).length) ∧
    ∃ t, (s.run es).selector.find? name = some t ∧ t.minWeight = r.minWeight ∧
      t.maxWeight = r.maxWeight ∧
      (∀ entry ∈ s.record name es [], entry.Straight r.minWeight r.maxWeight) ∧
      (∀ rule, settings.rule = .ratio rule →
        (s.Undisturbed name es → (∀ entry ∈ s.record name es [], entry.result? = some .success) →
          rule.recoverThreshold + ⌈1 / rule.successIncreaseRate⌉₊ ≤ (s.record name es []).length →
            t.current = t.maxWeight) ∧
        ∀ m, rule.failKeepRate ^ m < rule.downThresholdRate →
          (∀ entry ∈ s.record name es [], entry.result? ≠ some .success) →
          m ≤ (s.record name es []).length → t.current = t.minWeight) ∧
      ∀ rule, settings.rule = .flat rule →
        (0 < rule.successIncrement →
          (∀ entry ∈ s.record name es [], entry.result? = some .success) →
          ⌈(r.maxWeight - r.minWeight) / rule.successIncrement⌉₊ ≤
            es.countP (Event.isReport .success name) → t.current = t.maxWeight) ∧
        (0 < rule.failDecrement →
          (∀ entry ∈ s.record name es [], entry.result? ≠ some .success) →
          ⌈(r.maxWeight - r.minWeight) / rule.failDecrement⌉₊ ≤
            es.countP (Event.isReport .failure name) → t.current = t.minWeight) := by
  have hrule := (Settings.validate_iff.1 hvalid).rule
  refine ⟨fun result => h.countP_isReport_le hr result es, ?_⟩
  have hdirected : Upheld b _ (At r.minWeight r.maxWeight (Directed r.minWeight r.maxWeight)) name
      s [] := h.upheld_at hpolicy hr nofun
  obtain ⟨t, ht, hmin, hmax, hstraight⟩ := (hdirected.run (Policy.upholds_directed hrule) h.valid
    (.inr fun _ _ _ _ h => h) : Upheld _ _ _ _ (s.run es) _).holds
  refine ⟨t, ht, hmin, hmax, hstraight, fun rule heq => ?_, fun rule heq => ?_⟩
  · rw [heq] at hpolicy hrule
    exact ⟨RatioRule.full_of_successes h hpolicy hrule hr ht,
      fun m hpower hfailures => RatioRule.empty_of_failures h hpolicy hrule hr ht hfailures hpower⟩
  · rw [heq] at hpolicy hrule
    exact ⟨FlatRule.full_of_successes h hpolicy hrule hr ht,
      FlatRule.empty_of_failures h hpolicy hrule hr ht⟩

/-- The same rule and the same bounds, with the resource at its maximum. -/
def Builder.healthyExact : Builder ℚ :=
  { Builder.patientExact with resources := [("a", ⟨100, 0, 0, none⟩)] }

theorem Builder.healthyExact_valid : Builder.healthyExact.validate = .ok () :=
  Builder.validate_of_isOk (by decide +kernel)

/-- A half is kept six times before the seventh failure takes the resource to its minimum. -/
theorem weights_arrive_healthy :
    let s : System ℚ := Builder.healthyExact.begun 0 { rng := ⟨0⟩ }
    let es : List (Event ℚ) := List.replicate 7 (.call (.report .failure "a"))
    Builder.healthyExact.Reaches s ∧ Builder.healthyExact.settings.validate = .ok () ∧
      (∃ r, s.selector.find? "a" = some r) ∧
      ∃ t, (s.run es).selector.find? "a" = some t ∧ t.current = t.minWeight := by
  intro s es
  have h : Builder.healthyExact.Reaches s :=
    .built (Builder.build_of_probe_eq_none Builder.healthyExact_valid (.of_none rfl) rfl 0 _)
  have hvalid := Builder.healthyExact.validate_settings Builder.healthyExact_valid
  obtain ⟨r, hr⟩ := h.exists_find? (by decide : "a" ∈ _)
  have hrecord : (s.record "a" es []).map (·.result?) = List.replicate 7 (some .failure) := by
    show ((Builder.healthyExact.begun 0 _).record "a" es []).map _ = _
    rw [Builder.healthyExact.begun_eq 0 _ [0] rfl (by decide)]
    decide +kernel
  have hfailures : ∀ entry ∈ s.record "a" es [], entry.result? ≠ some .success := by
    intro entry hentry hsuccess
    have hfailure := List.eq_of_mem_replicate (hrecord ▸ List.mem_map_of_mem hentry)
    exact nomatch hsuccess.symm.trans hfailure
  have hlength : (s.record "a" es []).length = 7 := by
    rw [← List.length_map (·.result?), hrecord, List.length_replicate]
  obtain ⟨-, t, ht, -, -, -, hratio, -⟩ := weights_arrive h hvalid rfl hr es
  exact ⟨h, hvalid, ⟨r, hr⟩, t, ht,
    (hratio _ rfl).2 7 (by decide +kernel) hfailures hlength.ge⟩

end ResourceSelection
