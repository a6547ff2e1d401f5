import ResourceSelection.Proofs.Recovery
import ResourceSelection.Proofs.Requirements

/-!
# Streaks belong to the minimum

The ratio rule counts the successes of a resource at its minimum, and nobody tells it when the
resource leaves the minimum or comes to it. It need not be told, because the two go together: as
long as a streak is kept the resource is at its minimum and below its maximum (`RatioRule.Keeping`).
Only the success that completes the streak raises the weight, and it ends the streak.

That is why the count can be read off the record (`atMinimum`): it is how many successes there were
at the minimum since the latest failure and the latest completed streak. A streak survives being
forced down, where the rule is not asked, and whatever happens to other resources.

Without rounding, completing the streak and rising from the minimum are the same. With rounding a
step may be lost, if the maximum is so small that a part of it is nothing.
-/

namespace ResourceSelection

open Scalar LawfulScalar

/-- Numbers on which a part of no distance at all leads nowhere. -/
class StillScalar (ω : Type) [Scalar ω] : Prop where
  not_lt_add_sub_self_mul (x rate : ω) : ¬ x < x + (x - x) * rate

instance instStillScalarFloat : StillScalar Float where
  not_lt_add_sub_self_mul := Binary64.not_lt_add_sub_self_mul

instance instStillScalarRat : StillScalar ℚ where
  not_lt_add_sub_self_mul x rate := by
    rw [sub_self, zero_mul, add_zero]
    exact LawfulScalar.lt_irrefl x

variable {ω : Type} [Scalar ω]

/-! ## Counting on the record -/

/-- The successes of a resource at its lowest weight and below its highest, since the latest failure
and since the latest of them that was the last of `k`. -/
def atMinimum (k : Nat) (lowest highest : ω) : List (Dealt ω) → Nat
  | [] => 0
  | entry :: past =>
    match entry.result? with
    | some .success =>
      if entry.before ≤ lowest ∧ entry.before < highest then
        if atMinimum k lowest highest past + 1 < k then atMinimum k lowest highest past + 1 else 0
      else atMinimum k lowest highest past
    | some .failure => 0
    | none => atMinimum k lowest highest past

theorem atMinimum_le (k : Nat) (lowest highest : ω) (past : List (Dealt ω)) :
    atMinimum k lowest highest past ≤ k - 1 := by
  induction past with
  | nil => exact Nat.zero_le _
  | cons entry rest ih =>
      unfold atMinimum
      split
      · split
        · split
          · omega
          · omega
        · exact ih
      · exact Nat.zero_le _
      · exact ih

section

variable {k : Nat} {lowest highest : ω} {entry : Dealt ω}

theorem atMinimum_success (h : entry.result? = some .success) (past : List (Dealt ω)) :
    atMinimum k lowest highest (entry :: past) =
      if entry.before ≤ lowest ∧ entry.before < highest then
        if atMinimum k lowest highest past + 1 < k then atMinimum k lowest highest past + 1 else 0
      else atMinimum k lowest highest past := by
  conv_lhs => unfold atMinimum
  rw [h]

theorem atMinimum_failure (h : entry.result? = some .failure) (past : List (Dealt ω)) :
    atMinimum k lowest highest (entry :: past) = 0 := by
  unfold atMinimum
  rw [h]

theorem atMinimum_none (h : entry.result? = none) (past : List (Dealt ω)) :
    atMinimum k lowest highest (entry :: past) = atMinimum k lowest highest past := by
  conv_lhs => unfold atMinimum
  rw [h]

end

/-! ## The rule -/

/-- Where nothing was called the resource was forced down. -/
theorem Dealing.current_after_of_none {d : Dealing ω} {r : Resource ω} {s : System ω}
    (hresult : d.result? r.name s.host = none) : (d.after r s).current = r.minWeight := by
  cases d with
  | report result => exact nomatch hresult
  | probe p => exact nomatch hresult
  | down => exact Resource.current_finished _ _

theorem Resource.isFailed_iff {r : Resource ω} :
    r.isFailed = true ↔ r.current ≤ r.minWeight ∧ r.current < r.maxWeight := by
  show (decide (r.current ≤ r.minWeight) && decide (r.current < r.maxWeight)) = true ↔ _
  rw [Bool.and_eq_true, decide_eq_true_iff, decide_eq_true_iff]

namespace RatioRule

variable {rule : RatioRule ω} {name : String} {streaks : Tally}

omit [Scalar ω] in
theorem gate_open_iff :
    (rule.gate name streaks).1 = true ↔ rule.recoverThreshold ≤ streaks.count name + 1 := by
  unfold gate
  split
  · simp
    omega
  · simp only
    split
    · simp
      omega
    · simp
      omega

omit [Scalar ω] in
theorem count_gate (hungated : rule.recoverThreshold ≤ 1 → streaks.count name = 0) :
    (rule.gate name streaks).2.count name =
      if streaks.count name + 1 < rule.recoverThreshold then streaks.count name + 1 else 0 := by
  unfold gate
  split
  · next hle => rw [hungated hle, if_neg (by omega)]
  · simp only
    split
    · exact streaks.count_set_self name _
    · exact streaks.count_clear_self name

omit [Scalar ω] in
theorem count_endStreak_of_ungated
    (hungated : rule.recoverThreshold ≤ 1 → streaks.count name = 0) :
    (rule.endStreak name streaks).count name = 0 := by
  unfold endStreak
  split
  · exact streaks.count_clear_self name
  · next hle => exact hungated (by omega)

variable [LawfulScalar ω] {r : Resource ω}

/-- At the minimum and below the maximum, the gate decides. -/
theorem onSuccess_of_failed (h : r.isFailed = true) : rule.onSuccess r.context streaks =
    (if (rule.gate r.name streaks).1 then
      smaller (r.current + r.maxWeight * rule.recoverRate) r.maxWeight else r.current,
      (rule.gate r.name streaks).2) := by
  obtain ⟨hdown, hbelow⟩ := Resource.isFailed_iff.1 h
  have hhealthy : r.context.isHealthy = false := decide_eq_false fun h => not_lt_of_le h hbelow
  have hlow : r.context.isDown = true := decide_eq_true hdown
  cases hgate : rule.gate r.name streaks with
  | mk isOpen after =>
      have hasked : rule.gate r.context.resource streaks = (isOpen, after) := hgate
      unfold onSuccess
      rw [hhealthy, hlow, hasked]
      cases isOpen with
      | false => rfl
      | true => rfl

/-- Anywhere else there is no streak to go on with. -/
theorem count_onSuccess_of_not_failed (h : ¬ r.isFailed = true) (hwithin : r.Within)
    (hzero : streaks.count r.name = 0) : (rule.onSuccess r.context streaks).2.count r.name = 0 := by
  unfold onSuccess
  split
  · exact count_endStreak_of_ungated fun _ => hzero
  · next hhealthy =>
      have hbelow : r.current < r.maxWeight := by
        by_contra hnot
        exact hhealthy (decide_eq_true
          (le_of_not_lt (isNaN_right hwithin.2) (isNaN_right hwithin.1) hnot))
      have hup : r.context.isDown = false :=
        decide_eq_false fun hdown => h (Resource.isFailed_iff.2 ⟨hdown, hbelow⟩)
      rw [hup]
      exact hzero

/-! ## The joint invariant -/

omit [LawfulScalar ω] in
/-- The streak is what there is on record, and only a resource at its minimum and below its maximum
has one. -/
structure Counted (rule : RatioRule ω) (r : Resource ω) (n : Nat) (past : List (Dealt ω)) :
    Prop where
  count : n = atMinimum rule.recoverThreshold r.minWeight r.maxWeight past
  failed : 0 < n → r.isFailed = true

omit [LawfulScalar ω] in
/-- Where no resource is registered there is nothing to count. -/
def Keeping (rule : RatioRule ω) : Option (Resource ω) → Nat → List (Dealt ω) → Prop
  | none, n, past => n = 0 ∧ past = []
  | some r, n, past => rule.Counted r n past

omit [LawfulScalar ω] in
theorem Counted.le {n : Nat} {past : List (Dealt ω)} (h : rule.Counted r n past) :
    n ≤ rule.recoverThreshold - 1 :=
  h.count.trans_le (atMinimum_le _ _ _ past)

omit [LawfulScalar ω] in
theorem Counted.eq_zero {n : Nat} {past : List (Dealt ω)} (h : rule.Counted r n past)
    (hungated : rule.recoverThreshold ≤ 1) : n = 0 := by
  have hle := h.le
  omega

namespace Keeping

omit [LawfulScalar ω]

variable {r? : Option (Resource ω)} {n : Nat} {past : List (Dealt ω)}

theorem le (h : rule.Keeping r? n past) : n ≤ rule.recoverThreshold - 1 := by
  cases r? with
  | none => exact h.1.trans_le (Nat.zero_le _)
  | some r => exact Counted.le h

theorem exists_failed (h : rule.Keeping r? n past) (hpos : 0 < n) :
    ∃ r, r? = some r ∧ r.isFailed = true := by
  cases r? with
  | none => exact absurd h.1 hpos.ne'
  | some r => exact ⟨r, rfl, Counted.failed h hpos⟩

end Keeping

variable {s : System ω} {past : List (Dealt ω)} {d : Dealing ω}

/-- Where the gate stays shut a success leaves the resource at its minimum. -/
theorem isFailed_after_of_shut [StillScalar ω] (hpolicy : s.selector.policy = .shipped (.ratio rule))
    (hwithin : r.Within) (hfailed : r.isFailed = true)
    (hresult : d.result? r.name s.host = some .success)
    (hconcerns : d.concerns r s = true)
    (hshut : s.host.memory.streaks.count r.name + 1 < rule.recoverThreshold) :
    (d.after r s).isFailed = true := by
  obtain ⟨hlow, hbelow⟩ := Resource.isFailed_iff.1 hfailed
  obtain ⟨scale, hanswer, hscale⟩ := Dealing.answer_of_success hresult
  have hkept := d.kept_after r s
  have hproposed : (rule.onSuccess r.context s.host.memory.streaks).1 = r.current := by
    rw [onSuccess_of_failed hfailed]
    exact if_neg fun hopen => by
      have := gate_open_iff.1 hopen
      omega
  have hdone : (d.answer r s).1 = .done (scale r.current) := by
    rw [hanswer, hpolicy, ← hproposed]
    rfl
  have hstill : ¬ r.current < scale r.current := by
    rcases hscale with rfl | ⟨rate, -, rfl⟩
    · exact lt_irrefl r.current
    · exact StillScalar.not_lt_add_sub_self_mul r.current rate
  have hnot : ¬ r.current < (d.after r s).current := by
    rw [Dealing.current_after hresult hconcerns hdone]
    exact not_lt_clampWeight hwithin.1 hstill
  have hle : (d.after r s).current ≤ r.current :=
    le_of_not_lt (isNaN_right (hkept.within hwithin).1) (isNaN_right hwithin.1) hnot
  rw [Resource.isFailed_iff, hkept.minWeight, hkept.maxWeight]
  exact ⟨le_trans hle hlow, Decidable.byContradiction fun hge =>
    not_lt_of_le (le_trans (le_of_not_lt (isNaN_right hwithin.2) (isNaN_left hle) hge) hle) hbelow⟩

/-- A resource that is forced down stays below its maximum. -/
theorem isFailed_after_of_none (hwithin : r.Within) (hfailed : r.isFailed = true)
    (hresult : d.result? r.name s.host = none) : (d.after r s).isFailed = true := by
  have hkept := d.kept_after r s
  obtain ⟨hlow, hbelow⟩ := Resource.isFailed_iff.1 hfailed
  rw [Resource.isFailed_iff, Dealing.current_after_of_none hresult, hkept.minWeight, hkept.maxWeight]
  refine ⟨le_refl (isNaN_left hwithin.1), Decidable.byContradiction fun hge => ?_⟩
  have hle := le_of_not_lt (isNaN_right hwithin.2) (isNaN_left hwithin.1) hge
  exact not_lt_of_le (le_trans hle hwithin.1) hbelow

/-- What a success does to the streak and to the resource. -/
theorem Counted.success [StillScalar ω] (hpolicy : s.selector.policy = .shipped (.ratio rule))
    (hwithin : r.Within) (hconcerns : d.concerns r s = true)
    (hresult : d.result? r.name s.host = some .success)
    (h : rule.Counted r (s.host.memory.streaks.count r.name) past) :
    rule.Counted (d.after r s) ((d.answer r s).2.streaks.count r.name)
      (⟨d.result? r.name s.host, r.current, (d.after r s).current⟩ :: past) := by
  have hkept := d.kept_after r s
  obtain ⟨scale, hanswer, -⟩ := Dealing.answer_of_success hresult
  have hmemory : (d.answer r s).2.streaks.count r.name =
      (rule.onSuccess r.context s.host.memory.streaks).2.count r.name := by
    rw [hanswer, hpolicy]
    rfl
  by_cases hfailed : r.isFailed = true
  · rw [onSuccess_of_failed hfailed, count_gate h.eq_zero] at hmemory
    rw [hmemory]
    constructor
    · rw [hkept.minWeight, hkept.maxWeight, atMinimum_success hresult,
        if_pos (Resource.isFailed_iff.1 hfailed), ← h.count]
    · intro hpos
      refine isFailed_after_of_shut hpolicy hwithin hfailed hresult hconcerns ?_
      by_contra hopen
      rw [if_neg hopen] at hpos
      exact Nat.lt_irrefl 0 hpos
  · have hzero : s.host.memory.streaks.count r.name = 0 :=
      Nat.eq_zero_of_not_pos fun hpos => hfailed (h.failed hpos)
    rw [hmemory, count_onSuccess_of_not_failed hfailed hwithin hzero]
    refine ⟨?_, nofun⟩
    rw [hkept.minWeight, hkept.maxWeight, atMinimum_success hresult,
      if_neg fun h => hfailed (Resource.isFailed_iff.2 h), ← h.count, hzero]

omit [LawfulScalar ω] in
theorem Counted.failure (hpolicy : s.selector.policy = .shipped (.ratio rule))
    (hresult : d.result? r.name s.host = some .failure)
    (h : rule.Counted r (s.host.memory.streaks.count r.name) past) :
    rule.Counted (d.after r s) ((d.answer r s).2.streaks.count r.name)
      (⟨d.result? r.name s.host, r.current, (d.after r s).current⟩ :: past) := by
  have hzero : (d.answer r s).2.streaks.count r.name = 0 := by
    rw [Dealing.answer_of_failure hresult, hpolicy]
    exact count_endStreak_of_ungated h.eq_zero
  rw [hzero]
  exact ⟨(atMinimum_failure hresult past).symm, nofun⟩

/-- The rule is not asked when a resource is forced down. -/
theorem Counted.down (hwithin : r.Within) (hresult : d.result? r.name s.host = none)
    (h : rule.Counted r (s.host.memory.streaks.count r.name) past) :
    rule.Counted (d.after r s) ((d.answer r s).2.streaks.count r.name)
      (⟨d.result? r.name s.host, r.current, (d.after r s).current⟩ :: past) := by
  have hkept := d.kept_after r s
  rw [Dealing.memory_answer_of_none hresult]
  refine ⟨?_, fun hpos => isFailed_after_of_none hwithin (h.failed hpos) hresult⟩
  rw [hkept.minWeight, hkept.maxWeight, atMinimum_none hresult]
  exact h.count

theorem upholds_keeping [StillScalar ω] (rule : RatioRule ω) :
    (Policy.shipped (.ratio rule)).Upholds rule.Keeping where
  enrol _ _ h := by
    obtain ⟨rfl, rfl⟩ := h
    exact ⟨rfl, nofun⟩
  touch {r r' n past} hkept hcurrent h := by
    have h : rule.Counted r n past := h
    refine ⟨?_, fun hpos => ?_⟩
    · rw [hkept.minWeight, hkept.maxWeight]
      exact h.count
    · have hfailed := h.failed hpos
      rw [Resource.isFailed_iff] at hfailed ⊢
      rw [hkept.minWeight, hkept.maxWeight, hcurrent]
      exact hfailed
  deal d {s r past} hpolicy hwithin _ hconcerns h := by
    have h : rule.Counted r (s.host.memory.streaks.count r.name) past := h
    cases hresult : d.result? r.name s.host with
    | none =>
        have hdown := h.down hwithin hresult
        rwa [hresult] at hdown
    | some result =>
        cases result with
        | success =>
            have hsuccess := h.success hpolicy hwithin hconcerns hresult
            rwa [hresult] at hsuccess
        | failure =>
            have hfailure := h.failure hpolicy hresult
            rwa [hresult] at hfailure

end RatioRule

/-! ## Without rounding -/

section

variable {d : Dealing ℚ} {r : Resource ℚ} {s : System ℚ}

/-- A success moves the weight toward what the policy proposes, all the way if it is reported. -/
theorem Dealing.exists_rate (hresult : d.result? r.name s.host = some .success)
    (hconcerns : d.concerns r s = true) {target : ℚ}
    (htarget : (s.selector.policy.onResult .success r.context s.host.memory).1 = .done target) :
    ∃ rate : ℚ, 0 < rate ∧ (∀ result, d = .report result → rate = 1) ∧
      (d.after r s).current = clampWeight (r.current + (target - r.current) * rate) r.current
        r.minWeight r.maxWeight := by
  cases d with
  | down => cases hresult
  | report result =>
      obtain rfl : result = .success := Option.some.inj hresult
      refine ⟨1, one_pos, fun _ _ => rfl, ?_⟩
      rw [mul_one, add_sub_cancel]
      exact current_after hresult hconcerns htarget
  | probe p =>
      have hpos : 0 < p.rateOf r.name s.host := by
        by_contra hzero
        simp [result?, hzero] at hresult
      refine ⟨p.rateOf r.name s.host, hpos, fun _ h => (by cases h), current_after hresult hconcerns ?_⟩
      unfold answer
      simp only [hpos, if_true, htarget]
      rfl

theorem lt_clampWeight_iff {x previous lo hi w : ℚ} (hlo : lo ≤ w) (hhi : w < hi) :
    w < clampWeight x previous lo hi ↔ w < x := by
  rw [clampWeight_rat, lt_min_iff, lt_max_iff]
  constructor
  · rintro ⟨hx | hlow, -⟩
    · exact hx
    · exact absurd hlow (not_lt.2 hlo)
  · exact fun hx => ⟨.inl hx, hhi⟩

/-- At the minimum a success raises the weight if and only if it completes the streak. -/
theorem RatioRule.lt_after_iff {rule : RatioRule ℚ}
    (hpolicy : s.selector.policy = .shipped (.ratio rule)) (hwithin : r.Within)
    (hnonneg : 0 ≤ r.minWeight) (hfailed : r.isFailed = true)
    (hresult : d.result? r.name s.host = some .success)
    (hconcerns : d.concerns r s = true) : r.current < (d.after r s).current ↔
      rule.recoverThreshold ≤ s.host.memory.streaks.count r.name + 1 ∧ 0 < rule.recoverRate := by
  obtain ⟨-, hbelow⟩ := Resource.isFailed_iff.1 hfailed
  have hmax : 0 < r.maxWeight := (hnonneg.trans hwithin.1).trans_lt hbelow
  have htarget : (s.selector.policy.onResult .success r.context s.host.memory).1 =
      .done (rule.onSuccess r.context s.host.memory.streaks).1 := by
    rw [hpolicy]
    rfl
  obtain ⟨rate, hrate, -, hafter⟩ := Dealing.exists_rate hresult hconcerns htarget
  have hscaled (target : ℚ) : r.current < r.current + (target - r.current) * rate ↔
      r.current < target := by
    rw [lt_add_iff_pos_right, mul_pos_iff_of_pos_right hrate, sub_pos]
  rw [hafter, lt_clampWeight_iff hwithin.1 hbelow, hscaled, onSuccess_of_failed hfailed,
    ← gate_open_iff]
  dsimp only
  split
  · next hopen =>
      rw [smaller_rat, lt_min_iff, lt_add_iff_pos_right, mul_pos_iff_of_pos_left hmax]
      simp [hopen, hbelow]
  · next hshut =>
      simp [hshut]

end

/-- What is true of every entry of a record, given what came before it. -/
def Throughout (E : Dealt ω → List (Dealt ω) → Prop) : List (Dealt ω) → Prop
  | [] => True
  | entry :: past => E entry past ∧ Throughout E past

omit [Scalar ω] in
theorem Throughout.of_append {E : Dealt ω → List (Dealt ω) → Prop} {later past : List (Dealt ω)}
    {entry : Dealt ω} (h : Throughout E (later ++ entry :: past)) : E entry past := by
  induction later with
  | nil => exact h.1
  | cons _ rest ih => exact ih h.2

namespace RatioRule

/-- A success at the minimum raised the weight if and only if it was the last of a streak. -/
def Raised (rule : RatioRule ℚ) (lowest highest : ℚ) (entry : Dealt ℚ) (past : List (Dealt ℚ)) :
    Prop :=
  entry.result? = some .success → entry.before ≤ lowest → entry.before < highest →
    (entry.before < entry.after ↔
      rule.recoverThreshold ≤ atMinimum rule.recoverThreshold lowest highest past + 1 ∧
        0 < rule.recoverRate)

def KeepingExactly (rule : RatioRule ℚ) (r? : Option (Resource ℚ)) (n : Nat)
    (past : List (Dealt ℚ)) : Prop :=
  rule.Keeping r? n past ∧
    ∀ r, r? = some r → Throughout (rule.Raised r.minWeight r.maxWeight) past

theorem upholds_keepingExactly (rule : RatioRule ℚ) :
    (Policy.shipped (.ratio rule)).Upholds rule.KeepingExactly where
  enrol {r n past} hwithin hnonneg h := by
    refine ⟨(upholds_keeping rule).enrol hwithin hnonneg h.1, fun _ _ => ?_⟩
    rw [h.1.2]
    trivial
  touch {r r' n past} hkept hcurrent h := by
    refine ⟨(upholds_keeping rule).touch hkept hcurrent h.1, fun _ h' => ?_⟩
    obtain rfl := Option.some.inj h'
    rw [hkept.minWeight, hkept.maxWeight]
    exact h.2 r rfl
  deal d {s r past} hpolicy hwithin hnonneg hconcerns h := by
    refine ⟨(upholds_keeping rule).deal d hpolicy hwithin hnonneg hconcerns h.1, fun _ h' => ?_⟩
    obtain rfl := Option.some.inj h'
    have hkept := d.kept_after r s
    rw [hkept.minWeight, hkept.maxWeight]
    refine ⟨fun hresult hlow hbelow => ?_, h.2 r rfl⟩
    have hcounted : rule.Counted r _ past := h.1
    rw [← hcounted.count]
    exact lt_after_iff hpolicy hwithin hnonneg (Resource.isFailed_iff.2 ⟨hlow, hbelow⟩) hresult
      hconcerns

end RatioRule

/-- The settings do not allow a rule that adds nothing to a resource at its minimum. -/
theorem Builder.recoverRate_pos_of_build {b : Builder ℚ} {id : Nat} {host : Host ℚ} {s : System ℚ}
    {rule : RatioRule ℚ} (h : b.build id host = .ok s)
    (hpolicy : s.selector.policy = .shipped (.ratio rule)) (hsettings : b.policy = none) :
    0 < rule.recoverRate := by
  have hreaches : b.Reaches s := .built h
  have hvalid : b.settings.rule.Valid :=
    (Settings.validate_iff.1 (b.validate_settings hreaches.valid)).rule
  have hshipped : Policy.shipped b.settings.rule = .shipped (.ratio rule) := by
    rw [← hpolicy, (calm_of_build h).policy]
    show _ = b.policy.getD _
    rw [hsettings]
    rfl
  rw [Policy.shipped.inj hshipped] at hvalid
  exact hvalid.recover_pos

/-! ## Calls on other resources -/

/-- Whether a call can be a dealing with a resource. -/
def Call.DealsWith (name : String) : Call → Prop
  | .report _ other => other = name
  | .down other => other = name
  | .check order => name ∈ order
  | _ => False

section

variable [LawfulScalar ω] {s : System ω} {name : String}

theorem System.streak_checkEach (h : s.selector.Layout) (probe : Probe ω) {order : List String}
    (hother : name ∉ order) : (s.checkEach probe order).2.host.memory.streaks.count name =
      s.host.memory.streaks.count name := by
  induction order generalizing s with
  | nil => rfl
  | cons other rest ih =>
      rw [List.mem_cons, not_or] at hother
      have hlayout := h.frame (s.changes_checkResource probe other).frame
      exact (ih hlayout hother.2).trans (count_deal_of_ne h (.probe probe) (Ne.symm hother.1))

/-- A call that is no dealing with a resource leaves its streak alone. -/
theorem System.streak_call (h : s.selector.Layout) {c : Call} (hother : ¬ c.DealsWith name) :
    (s.call c).host.memory.streaks.count name = s.host.memory.streaks.count name := by
  cases c with
  | report result other => exact count_deal_of_ne h (.report result) hother
  | down other => exact count_deal_of_ne h .down hother
  | check order =>
      show (s.checkIn order).2.host.memory.streaks.count name = _
      unfold checkIn
      split
      · rfl
      · next probe _ => exact streak_checkEach h probe hother
  | select exclude =>
      obtain ⟨rng, hhost⟩ := s.host_selectWith exclude
      exact congrArg (fun host => host.memory.streaks.count name) hhost
  | acquire other => exact congrArg (fun host => host.memory.streaks.count name) (host_onState _ _ s)
  | release other => exact congrArg (fun host => host.memory.streaks.count name) (host_onState _ _ s)
  | close => exact congrArg (fun memory => memory.streaks.count name) s.calm_close.memory

end

/-- The streak of a resource stays below the threshold of the rule, and there is one only as long as
the resource is registered, at its minimum and below its maximum. It is the number of successes,
reported or probed, that the resource had there since its latest failure and since its latest
completed streak, and calls on other resources leave it alone. Without rounding, a success at the
minimum raises the weight if and only if it completes a streak, unless the rule adds nothing. No rule
from the settings is of that kind. -/
theorem streaks_count_at_minimum :
    (∀ {ω : Type} [Scalar ω] [LawfulScalar ω] [StillScalar ω] (b : Builder ω) (id : Nat)
      (host : Host ω) (s : System ω) (rule : RatioRule ω) (name : String) (es : List (Event ω)),
      b.build id host = .ok s → s.selector.policy = .shipped (.ratio rule) →
      host.memory.streaks.count name = 0 → s.Undisturbed name es →
        let t := s.run es
        let streak := t.host.memory.streaks.count name
        (1 < rule.recoverThreshold → streak < rule.recoverThreshold) ∧
        (rule.recoverThreshold ≤ 1 → streak = 0) ∧
        (0 < streak → ∃ r, t.selector.find? name = some r ∧ r.isFailed = true) ∧
        (∀ r, t.selector.find? name = some r →
          streak = atMinimum rule.recoverThreshold r.minWeight r.maxWeight (s.record name es [])) ∧
        ∀ c : Call, ¬ c.DealsWith name → (t.call c).host.memory.streaks.count name = streak) ∧
    ∀ (b : Builder ℚ) (id : Nat) (host : Host ℚ) (s : System ℚ) (rule : RatioRule ℚ)
      (name : String) (es : List (Event ℚ)) (r : Resource ℚ) (later past : List (Dealt ℚ))
      (entry : Dealt ℚ), b.build id host = .ok s → s.selector.policy = .shipped (.ratio rule) →
      host.memory.streaks.count name = 0 → s.Undisturbed name es →
      (s.run es).selector.find? name = some r → s.record name es [] = later ++ entry :: past →
        rule.Raised r.minWeight r.maxWeight entry past ∧ (b.policy = none → 0 < rule.recoverRate) := by
  constructor
  · intro ω _ _ _ b id host s rule name es hbuild hpolicy hfresh halone t streak
    have hkeeping := rule.upholds_keeping
    rw [← hpolicy] at hkeeping
    have hreaches : b.Reaches s := .built hbuild
    have hend := (Builder.upheld_of_build hbuild hkeeping ⟨hfresh, rfl⟩).run hkeeping
      hreaches.valid (.inl halone)
    have hholds : rule.Keeping (t.selector.find? name) streak (s.record name es []) := hend.holds
    have hle := hholds.le
    refine ⟨fun hgated => by omega, fun hungated => by omega, hholds.exists_failed, ?_,
      fun c hc => System.streak_call hend.ready.layout hc⟩
    intro r hr
    rw [hr] at hholds
    exact RatioRule.Counted.count hholds
  · intro b id host s rule name es r later past entry hbuild hpolicy hfresh halone hr hrecord
    have hkeeping := rule.upholds_keepingExactly
    rw [← hpolicy] at hkeeping
    have hreaches : b.Reaches s := .built hbuild
    have hend := (Builder.upheld_of_build hbuild hkeeping ⟨⟨hfresh, rfl⟩, nofun⟩).run hkeeping
      hreaches.valid (.inl halone)
    have hraised := hend.holds.2 r hr
    rw [hrecord] at hraised
    exact ⟨hraised.of_append, Builder.recoverRate_pos_of_build hbuild hpolicy⟩

/-- A resource at its minimum, from which two successes in a row lift it, without rounding. -/
def Builder.patientExact : Builder ℚ :=
  { (Builder.default : Builder ℚ) with
    settings :=
      { Settings.default with rule := .ratio { RatioRule.default with recoverThreshold := 2 } }
    resources := [("a", ⟨100, 0, 0, some 0⟩)] }

theorem Builder.validate_of_isOk {b : Builder ω} (h : b.validate.isOk = true) :
    b.validate = .ok () := by
  cases hvalidate : b.validate with
  | ok => rfl
  | error fault =>
      rw [hvalidate] at h
      exact nomatch h

theorem Builder.patientExact_valid : Builder.patientExact.validate = .ok () :=
  Builder.validate_of_isOk (by decide +kernel)

theorem record_patientExact : (Builder.patientExact.begun 0 { rng := ⟨0⟩ }).record "a"
     [.call (.report .success "a"), .call (.report .success "a")] [] =
      [⟨some .success, 0, 10⟩, ⟨some .success, 0, 0⟩] := by
  rw [Builder.patientExact.begun_eq 0 _ [0] rfl (by decide)]
  decide +kernel

/-- The first of two successes makes a streak of one, and the second one lifts the resource. -/
theorem streaks_count_at_minimum_patient :
    let s : System ℚ := Builder.patientExact.begun 0 { rng := ⟨0⟩ }
    let t := s.run [.call (.report .success "a")]
    Builder.patientExact.build 0 { rng := ⟨0⟩ } = .ok s ∧ t.host.memory.streaks.count "a" = 1 ∧
    t.host.memory.streaks.count "a" < 2 ∧
    (∃ r, t.selector.find? "a" = some r ∧ r.isFailed = true) ∧
    ∃ r, (s.run [.call (.report .success "a"), .call (.report .success "a")]).selector.find? "a" =
      some r ∧ ((0 : ℚ) < 10 ↔
        2 ≤ atMinimum 2 r.minWeight r.maxWeight [⟨some .success, 0, 0⟩] + 1 ∧ (0 : ℚ) < 0.1) ∧
        (0 : ℚ) < 0.1 := by
  intro s t
  have hbuild : Builder.patientExact.build 0 { rng := ⟨0⟩ } = .ok s :=
    Builder.build_of_probe_eq_none Builder.patientExact_valid (.of_none rfl) rfl 0 _
  have hstreak : t.host.memory.streaks.count "a" = 1 := by
    show (System.run _ (Builder.patientExact.begun 0 _)).host.memory.streaks.count "a" = 1
    rw [Builder.patientExact.begun_eq 0 _ [0] rfl (by decide)]
    decide +kernel
  obtain ⟨hlt, -, hfailed, -⟩ := streaks_count_at_minimum.1 _ _ _ _
    { RatioRule.default with recoverThreshold := 2 } "a" [.call (.report .success "a")] hbuild rfl rfl
    ⟨nofun, trivial⟩
  have hafter := (Builder.Reaches.built hbuild).run
    [.call (.report .success "a"), .call (.report .success "a")]
  obtain ⟨r, hr⟩ := hafter.exists_find? (by decide : "a" ∈ _)
  obtain ⟨hmem, hname⟩ := hafter.layout.mem_of_find? hr
  obtain ⟨d, hd, hmeets⟩ := hafter.bounded.meets hmem
  rw [hname] at hd
  obtain rfl : ⟨100, 0, 0, some 0⟩ = d := Option.some.inj hd
  obtain ⟨hraised, hadds⟩ := streaks_count_at_minimum.2 _ _ _ _
    { RatioRule.default with recoverThreshold := 2 } "a"
    [.call (.report .success "a"), .call (.report .success "a")] r [] _ _ hbuild rfl rfl
    ⟨nofun, nofun, trivial⟩ hr record_patientExact
  have hrise := hraised rfl hmeets.minWeight.ge
    (hmeets.maxWeight ▸ (by decide +kernel : (0 : ℚ) < 100))
  exact ⟨hbuild, hstreak, hlt (by decide), hfailed (by rw [hstreak]; decide), r, hr, hrise, hadds rfl⟩

end ResourceSelection
