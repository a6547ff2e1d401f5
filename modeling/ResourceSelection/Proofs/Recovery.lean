import ResourceSelection.Proofs.Rates
import ResourceSelection.Proofs.Watching

/-!
# Leaving the minimum

With a threshold of two or more, the ratio rule lifts a weight off its minimum only when there have
been that many successes in a row. The row is counted by the rule, resource by resource, and the
weight is kept by the selector, which can move it without asking the rule. It does so in one place,
where a resource is forced down, and there the count goes on as if nothing had happened.

So the record of a resource is read without the times that it was forced down. In what is left the
successes at the end are at least as many as the rule has counted (`RatioRule.Gated`), and while the
rule holds the gate shut neither a report nor a probe raises the weight; a probe moves it by a part
of no distance at all. Where a resource has not been forced down in the meantime, the successes have
truly been in a row.
-/

namespace ResourceSelection

/-! ## The rule -/

namespace RatioRule

variable {ω : Type} [Scalar ω] {rule : RatioRule ω} {c : Context ω} {streaks : Tally}

omit [Scalar ω] in
theorem count_gate_le (rule : RatioRule ω) (name : String) (streaks : Tally) :
    (rule.gate name streaks).2.count name ≤ streaks.count name + 1 := by
  unfold gate
  split
  · exact Nat.le_succ _
  · simp only
    split
    · rw [Tally.count_set_self]
    · rw [Tally.count_clear_self]
      omega

omit [Scalar ω] in
theorem count_endStreak_le (rule : RatioRule ω) (name : String) (streaks : Tally) :
    (rule.endStreak name streaks).count name ≤ streaks.count name := by
  unfold endStreak
  split
  · rw [Tally.count_clear_self]
    omega
  · omega

/-- A success counts for one at most. -/
theorem count_onSuccess_le (rule : RatioRule ω) (c : Context ω) (streaks : Tally) :
    (rule.onSuccess c streaks).2.count c.resource ≤ streaks.count c.resource + 1 := by
  have hended := rule.count_endStreak_le c.resource streaks
  have hgated := rule.count_gate_le c.resource streaks
  unfold onSuccess
  split
  · show (rule.endStreak c.resource streaks).count c.resource ≤ _
    omega
  · split
    · exact Nat.le_succ _
    · generalize rule.gate c.resource streaks = gated at *
      obtain ⟨isOpen, after⟩ := gated
      cases isOpen with
      | false => exact hgated
      | true => exact hgated

/-- At the minimum, a success that does not complete the row leaves the weight there. -/
theorem onSuccess_of_shut (hhealthy : c.isHealthy = false) (hdown : c.isDown = true)
    (hshut : streaks.count c.resource + 1 < rule.recoverThreshold) :
    (rule.onSuccess c streaks).1 = c.current := by
  have hgate : rule.gate c.resource streaks =
      (false, streaks.set c.resource (streaks.count c.resource + 1)) := by
    unfold gate
    rw [if_neg (by omega)]
    simp only [hshut, if_true]
  unfold onSuccess
  rw [hhealthy, hdown, hgate]
  rfl

theorem count_onFail (hgated : 2 ≤ rule.recoverThreshold) :
    (rule.onFail c streaks).2.count c.resource = 0 := by
  show (rule.endStreak c.resource streaks).count c.resource = 0
  unfold endStreak
  rw [if_pos (by omega), Tally.count_clear_self]

end RatioRule

/-! ## The record -/

/-- The successes in a row up to the latest entry of a record, in which the times that the resource
was forced down are passed over. -/
def inARow {ω : Type} : List (Dealt ω) → Nat
  | [] => 0
  | entry :: past =>
    match entry.result? with
    | some .success => inARow past + 1
    | some .failure => 0
    | none => inARow past

/-- A success that raised the weight from a minimum. -/
structure Dealt.Lifts (lowest : Float) (entry : Dealt Float) : Prop where
  success : entry.result? = some .success
  low : entry.before ≤ lowest
  rises : entry.before < entry.after

/-- Every success that raised the weight from the minimum was the last of a row. -/
def Earned (rowLength : Nat) (lowest : Float) : List (Dealt Float) → Prop
  | [] => True
  | entry :: past =>
    (entry.Lifts lowest → rowLength ≤ inARow (entry :: past)) ∧ Earned rowLength lowest past

theorem Earned.of_append {rowLength : Nat} {lowest : Float} {later past : List (Dealt Float)}
    (h : Earned rowLength lowest (later ++ past)) : Earned rowLength lowest past := by
  induction later with
  | nil => exact h
  | cons entry rest ih => exact ih h.2

section

variable {ω : Type} {k : Nat} {past : List (Dealt ω)}

/-- A row, with what was passed over left out. -/
theorem take_asked (h : k ≤ inARow past) :
    k ≤ (past.filter (·.result?.isSome)).length ∧
      ∀ entry ∈ (past.filter (·.result?.isSome)).take k, entry.result? = some .success := by
  induction past generalizing k with
  | nil =>
      obtain rfl : k = 0 := Nat.le_zero.1 h
      exact ⟨Nat.le_refl 0, nofun⟩
  | cons entry rest ih =>
      unfold inARow at h
      split at h
      · next hresult =>
          rw [List.filter_cons_of_pos (by simp [hresult])]
          cases k with
          | zero => exact ⟨Nat.zero_le _, nofun⟩
          | succ k =>
              obtain ⟨hlength, htake⟩ := ih (Nat.le_of_succ_le_succ h)
              refine ⟨Nat.succ_le_succ hlength, ?_⟩
              rw [List.take_succ_cons]
              exact List.forall_mem_cons.2 ⟨hresult, htake⟩
      · obtain rfl : k = 0 := Nat.le_zero.1 h
        exact ⟨Nat.zero_le _, nofun⟩
      · next hresult =>
          rw [List.filter_cons_of_neg (by simp [hresult])]
          exact ih h

/-- A row in which nothing was passed over. -/
theorem take_of_asked (h : k ≤ inARow past)
    (hasked : ∀ entry ∈ past.take k, entry.result?.isSome = true) :
    k ≤ past.length ∧ ∀ entry ∈ past.take k, entry.result? = some .success := by
  induction past generalizing k with
  | nil =>
      obtain rfl : k = 0 := Nat.le_zero.1 h
      exact ⟨Nat.le_refl 0, nofun⟩
  | cons entry rest ih =>
      cases k with
      | zero => exact ⟨Nat.zero_le _, nofun⟩
      | succ k =>
          rw [List.take_succ_cons] at hasked ⊢
          obtain ⟨hentry, hrest⟩ := List.forall_mem_cons.1 hasked
          unfold inARow at h
          split at h
          · next hresult =>
              obtain ⟨hlength, htake⟩ := ih (Nat.le_of_succ_le_succ h) hrest
              exact ⟨Nat.succ_le_succ hlength, List.forall_mem_cons.2 ⟨hresult, htake⟩⟩
          · exact nomatch h
          · next hresult =>
              rw [hresult] at hentry
              exact nomatch hentry

end

/-! ## One dealing -/

namespace RatioRule

/-- The rule has counted no more successes than there were in a row, and every success that raised
the weight from the minimum was earned. Before the resource is registered there is nothing on
record. -/
def Gated (rule : RatioRule Float) : Option (Resource Float) → Nat → List (Dealt Float) → Prop
  | none, n, past => n = 0 ∧ past = []
  | some r, n, past => n ≤ inARow past ∧ Earned rule.recoverThreshold r.minWeight past

variable {rule : RatioRule Float} {d : Dealing Float} {r : Resource Float} {s : System Float}
  {past : List (Dealt Float)}

/-- The rule counts a success once, and no other dealing at all. -/
theorem count_answer_le (hgated : 2 ≤ rule.recoverThreshold)
    (hpolicy : s.selector.policy = .shipped (.ratio rule))
    (hstreak : s.host.memory.streaks.count r.name ≤ inARow past) (before after : Float) :
    (d.answer r s).2.streaks.count r.name ≤
      inARow (⟨d.result? r.name s.host, before, after⟩ :: past) := by
  unfold inARow
  split
  · next hresult =>
      obtain ⟨scale, hanswer, -⟩ := Dealing.answer_of_success hresult
      have hcount := rule.count_onSuccess_le r.context s.host.memory.streaks
      rw [hanswer, hpolicy]
      exact hcount.trans (Nat.succ_le_succ hstreak)
  · next hresult =>
      rw [Dealing.answer_of_failure hresult, hpolicy]
      exact (rule.count_onFail (c := r.context) hgated).le
  · next hresult =>
      rw [Dealing.memory_answer_of_none hresult]
      exact hstreak

/-- A success that does not complete the row raises no weight from the minimum. -/
theorem le_inARow_of_lifts (hpolicy : s.selector.policy = .shipped (.ratio rule))
    (hwithin : r.Within) (hconcerns : d.concerns r s = true)
    (hstreak : s.host.memory.streaks.count r.name ≤ inARow past)
    (hlifts : Dealt.Lifts r.minWeight
      ⟨d.result? r.name s.host, r.current, (d.after r s).current⟩) :
    rule.recoverThreshold ≤
      inARow (⟨d.result? r.name s.host, r.current, (d.after r s).current⟩ :: past) := by
  have hresult : d.result? r.name s.host = some .success := hlifts.success
  have hrow : inARow (⟨d.result? r.name s.host, r.current, (d.after r s).current⟩ :: past) =
      inARow past + 1 := by
    rw [hresult]
    rfl
  rw [hrow]
  by_contra hfew
  obtain ⟨scale, hanswer, hscale⟩ := Dealing.answer_of_success hresult
  have hrise : r.current < (d.after r s).current := hlifts.rises
  have hafter := (d.kept_after r s).within hwithin
  -- the gate is shut, and the rule proposes the weight that the resource has
  have hshut : (rule.onSuccess r.context s.host.memory.streaks).1 = r.current := by
    refine rule.onSuccess_of_shut ?_ (decide_eq_true hlifts.low) ?_
    · refine decide_eq_false fun hhealthy => ?_
      have hmax : (d.after r s).current ≤ r.maxWeight :=
        (d.kept_after r s).maxWeight ▸ hafter.2
      exact Scalar.not_lt_of_le (Scalar.le_trans hmax hhealthy) hrise
    · show s.host.memory.streaks.count r.name + 1 < _
      omega
  have hproposed : ¬ r.current < scale r.current := by
    rcases hscale with rfl | ⟨rate, -, rfl⟩
    · exact LawfulScalar.lt_irrefl r.current
    · exact Binary64.not_lt_add_sub_self_mul r.current rate
  have hdone : (d.answer r s).1 = .done (scale r.current) := by
    rw [hanswer, hpolicy, ← hshut]
    rfl
  rw [Dealing.current_after hresult hconcerns hdone] at hrise
  exact not_lt_clampWeight hwithin.1 hproposed hrise

theorem upholds_gated (hgated : 2 ≤ rule.recoverThreshold) :
    (Policy.shipped (.ratio rule)).Upholds rule.Gated where
  enrol _ _ h := by
    obtain ⟨rfl, rfl⟩ := h
    exact ⟨Nat.le_refl 0, trivial⟩
  touch hkept _ h := ⟨h.1, hkept.minWeight ▸ h.2⟩
  deal d {s r past} hpolicy hwithin _ hconcerns h := by
    have hmin := (d.kept_after r s).minWeight
    refine ⟨count_answer_le hgated hpolicy h.1 _ _, fun hlifts => ?_, ?_⟩
    · rw [hmin] at hlifts
      exact le_inARow_of_lifts hpolicy hwithin hconcerns h.1 hlifts
    · rw [hmin]
      exact h.2

end RatioRule

/-! ## Runs -/

/-- With a ratio rule that asks for a row of successes, a success that raises a resource from its
minimum is the last of such a row. The calls that the row is made of, reported or probed, follow
each other without a failure in between. The times that the resource was forced down do not break
it, and if there were none in the meantime, the calls are the latest dealings with the resource. -/
theorem recovery_law {b : Builder Float} {id : Nat} {host : Host Float} {s : System Float}
    (h : b.build id host = .ok s) {rule : RatioRule Float}
    (hpolicy : s.selector.policy = .shipped (.ratio rule)) (hgated : 2 ≤ rule.recoverThreshold)
    {name : String} (hfresh : host.memory.streaks.count name = 0) {es : List (Event Float)}
    (halone : s.Undisturbed name es) {r : Resource Float}
    (hr : (s.run es).selector.find? name = some r) {later past : List (Dealt Float)}
    {entry : Dealt Float} (hrecord : s.record name es [] = later ++ entry :: past)
    (hsuccess : entry.result? = some .success) (hlow : entry.before ≤ r.minWeight)
    (hrise : entry.before < entry.after) :
    (rule.recoverThreshold ≤ ((entry :: past).filter (·.result?.isSome)).length ∧
      ∀ e ∈ ((entry :: past).filter (·.result?.isSome)).take rule.recoverThreshold,
        e.result? = some .success) ∧
    ((∀ e ∈ (entry :: past).take rule.recoverThreshold, e.result?.isSome = true) →
      rule.recoverThreshold ≤ (entry :: past).length ∧
        ∀ e ∈ (entry :: past).take rule.recoverThreshold, e.result? = some .success) := by
  have hgate : s.selector.policy.Upholds rule.Gated := hpolicy ▸ RatioRule.upholds_gated hgated
  have hstart : Upheld b s.selector.policy rule.Gated name s [] :=
    Builder.upheld_of_build h hgate ⟨hfresh, rfl⟩
  have hend := hstart.run hgate (Builder.Reaches.built h).valid (.inl halone)
  obtain ⟨-, hearned⟩ := hr ▸ hend.holds
  rw [hrecord] at hearned
  have hrow := hearned.of_append.1 ⟨hsuccess, hlow, hrise⟩
  exact ⟨take_asked hrow, take_of_asked hrow⟩

/-- A resource at its minimum, from which two successes in a row lift it. -/
def Builder.patient : Builder Float :=
  { Builder.pair with
    settings :=
      { Settings.default with rule := .ratio { RatioRule.default with recoverThreshold := 2 } }
    resources := [("a", ⟨100, 0, 0, some 0⟩)] }

theorem Builder.patient_build : Builder.patient.build 0 { rng := ⟨0⟩ } =
    .ok (Builder.patient.begun 0 { rng := ⟨0⟩ }) := rfl

theorem record_patient : (Builder.patient.begun 0 { rng := ⟨0⟩ }).record "a"
    [.call (.report .success "a"), .call (.report .success "a")] [] =
      [⟨some .success, 0, 10⟩, ⟨some .success, 0, 0⟩] := by
  rw [Builder.patient.begun_eq 0 _ [0] rfl (by decide)]
  decide +kernel

/-- The second success lifts the resource, and the first one was in a row with it. -/
theorem recovery_law_patient : ∃ s r entry past,
    Builder.patient.build 0 { rng := ⟨0⟩ } = .ok s ∧
    s.selector.policy = .shipped (.ratio { RatioRule.default with recoverThreshold := 2 }) ∧
    s.Undisturbed "a" [.call (.report .success "a"), .call (.report .success "a")] ∧
    (s.run [.call (.report .success "a"), .call (.report .success "a")]).selector.find? "a" =
      some r ∧
    s.record "a" [.call (.report .success "a"), .call (.report .success "a")] [] =
      entry :: past ∧
    entry.result? = some .success ∧ entry.before ≤ r.minWeight ∧ entry.before < entry.after ∧
    2 ≤ (entry :: past).length ∧ ∀ e ∈ (entry :: past).take 2, e.result? = some .success := by
  have hreaches : Builder.patient.Reaches _ := .built Builder.patient_build
  have hafter := hreaches.run [.call (.report .success "a"), .call (.report .success "a")]
  obtain ⟨r, hr⟩ := hafter.exists_find? (by decide : "a" ∈ _)
  obtain ⟨place, hplace, hname⟩ := hafter.layout.find?_eq_some.1 hr
  obtain ⟨d, hd, hmeets⟩ := hafter.bounded.meets (List.mem_of_getElem? hplace)
  rw [hname] at hd
  obtain rfl : ⟨100, 0, 0, some 0⟩ = d := Option.some.inj hd
  have hlow : (0 : Float) ≤ r.minWeight := by
    rw [hmeets.minWeight]
    decide +kernel
  have halone : (Builder.patient.begun 0 { rng := ⟨0⟩ }).Undisturbed "a"
      [.call (.report .success "a"), .call (.report .success "a")] := ⟨nofun, nofun, trivial⟩
  obtain ⟨-, hrow⟩ := recovery_law Builder.patient_build rfl (Nat.le_refl 2) rfl halone hr
    (record_patient.trans (List.nil_append _).symm) rfl hlow (by decide +kernel)
  exact ⟨_, r, _, _, Builder.patient_build, rfl, halone, hr, record_patient, rfl, hlow,
    by decide +kernel, hrow (by decide)⟩

/-- A resource that is forced down between two successes is lifted by the second one. -/
theorem down_keeps_row : ∃ s entry past, Builder.patient.build 0 { rng := ⟨0⟩ } = .ok s ∧
    s.selector.policy = .shipped (.ratio { RatioRule.default with recoverThreshold := 2 }) ∧
    s.record "a" [.call (.report .success "a"), .call (.down "a"), .call (.report .success "a")]
      [] = entry :: past ∧
    entry.result? = some .success ∧ entry.before ≤ 0 ∧ entry.before < entry.after ∧
    ¬ ∀ e ∈ (entry :: past).take 2, e.result? = some .success := by
  refine ⟨_, ⟨some .success, 0, 10⟩, [⟨none, 0, 0⟩, ⟨some .success, 0, 0⟩],
    Builder.patient_build, rfl, ?_, rfl, by decide +kernel, by decide +kernel, by decide⟩
  rw [Builder.patient.begun_eq 0 _ [0] rfl (by decide)]
  decide +kernel

end ResourceSelection
