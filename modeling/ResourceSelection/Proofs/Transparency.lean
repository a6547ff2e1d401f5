import Mathlib.Data.List.Forall2
import ResourceSelection.Proofs.Continuity
import ResourceSelection.Proofs.Members
import ResourceSelection.Proofs.Refusal

/-!
# Members do not see the changes that spare them

Two managers are run side by side. One of them is asked to change its membership now and then, the
other one is not, and the changes spare one member: they neither drop it nor declare it differently.
Then the weights of that member are the same in both, report by report.

What a shipped rule does to a member depends on little: its bounds, its weight, and how many
successes in a row it has had at its minimum. The bounds are those of the declaration, which nothing
changes here. The other two are the standing of the member. A report on the member moves equal
standings to equal standings, and nothing else moves the standing at all: reports on other resources
touch other streaks, and a change carries the weight over and leaves the memory of the policy alone.

The argument compares weights for equality, and that asks for bounds that are not two zeros of
different sign. Between two such zeros the weights can only be zeros, and are the same numbers all
the same.
-/

namespace ResourceSelection

variable {ω : Type} [Scalar ω]

/-! ## What a shipped rule looks at -/

/-- The contexts differ in the priority at most. -/
structure Context.Like (c c' : Context ω) : Prop where
  resource : c'.resource = c.resource
  maxWeight : c'.maxWeight = c.maxWeight
  minWeight : c'.minWeight = c.minWeight
  current : c'.current = c.current

namespace RatioRule

variable {rule : RatioRule ω} {c c' : Context ω} {name other : String} {streaks streaks' : Tally}

omit [Scalar ω] in
theorem count_endStreak (rule : RatioRule ω) (name : String)
    (h : streaks'.count name = streaks.count name) :
    (rule.endStreak name streaks').count name = (rule.endStreak name streaks).count name := by
  unfold endStreak
  split
  · rw [Tally.count_clear_self, Tally.count_clear_self]
  · exact h

omit [Scalar ω] in
theorem gate_congr (rule : RatioRule ω) (h : streaks'.count name = streaks.count name) :
    (rule.gate name streaks').1 = (rule.gate name streaks).1 ∧
      (rule.gate name streaks').2.count name = (rule.gate name streaks).2.count name := by
  unfold gate
  rw [h]
  split
  · exact ⟨rfl, h⟩
  · simp only
    split
    · exact ⟨rfl, by rw [Tally.count_set_self, Tally.count_set_self]⟩
    · exact ⟨rfl, by rw [Tally.count_clear_self, Tally.count_clear_self]⟩

theorem onSuccess_congr (rule : RatioRule ω) (hc : c.Like c')
    (h : streaks'.count c.resource = streaks.count c.resource) :
    (rule.onSuccess c' streaks').1 = (rule.onSuccess c streaks).1 ∧
      (rule.onSuccess c' streaks').2.count c.resource =
        (rule.onSuccess c streaks).2.count c.resource := by
  have hhealthy : c'.isHealthy = c.isHealthy := by
    unfold Context.isHealthy
    rw [hc.maxWeight, hc.current]
  have hdown : c'.isDown = c.isDown := by
    unfold Context.isDown
    rw [hc.minWeight, hc.current]
  obtain ⟨hopen, hcount⟩ := rule.gate_congr h
  unfold onSuccess
  rw [hhealthy, hdown, hc.resource, hc.maxWeight, hc.current]
  split
  · exact ⟨rfl, rule.count_endStreak c.resource h⟩
  · split
    · exact ⟨rfl, h⟩
    · generalize rule.gate c.resource streaks = gate at *
      generalize rule.gate c.resource streaks' = gate' at *
      obtain ⟨isOpen, after⟩ := gate
      obtain ⟨isOpen', after'⟩ := gate'
      obtain rfl : isOpen' = isOpen := hopen
      cases isOpen' with
      | false => exact ⟨rfl, hcount⟩
      | true => exact ⟨rfl, hcount⟩

theorem onFail_congr (rule : RatioRule ω) (hc : c.Like c')
    (h : streaks'.count c.resource = streaks.count c.resource) :
    (rule.onFail c' streaks').1 = (rule.onFail c streaks).1 ∧
      (rule.onFail c' streaks').2.count c.resource =
        (rule.onFail c streaks).2.count c.resource := by
  unfold onFail
  rw [hc.resource, hc.maxWeight, hc.minWeight, hc.current]
  exact ⟨rfl, count_endStreak rule c.resource h⟩

omit [Scalar ω] in
theorem count_endStreak_of_ne (rule : RatioRule ω) (streaks : Tally) (h : other ≠ name) :
    (rule.endStreak name streaks).count other = streaks.count other := by
  unfold endStreak
  split
  · exact streaks.count_clear_of_ne h
  · rfl

omit [Scalar ω] in
theorem count_gate_of_ne (rule : RatioRule ω) (streaks : Tally) (h : other ≠ name) :
    (rule.gate name streaks).2.count other = streaks.count other := by
  unfold gate
  split
  · rfl
  · simp only
    split
    · exact streaks.count_set_of_ne _ h
    · exact streaks.count_clear_of_ne h

theorem count_onSuccess_of_ne (rule : RatioRule ω) (c : Context ω) (streaks : Tally)
    (h : other ≠ c.resource) : (rule.onSuccess c streaks).2.count other = streaks.count other := by
  have hgate := rule.count_gate_of_ne streaks h
  unfold onSuccess
  split
  · exact rule.count_endStreak_of_ne streaks h
  · split
    · rfl
    · generalize rule.gate c.resource streaks = gate at *
      obtain ⟨isOpen, after⟩ := gate
      cases isOpen with
      | false => exact hgate
      | true => exact hgate

end RatioRule

namespace Policy

/-- A shipped rule answers alike when it is told alike, and keeps remembering alike. -/
theorem onResult_congr (rule : Rule ω) (result : CallResult) {c c' : Context ω} (hc : c.Like c')
    {m m' : PolicyMemory} (h : m'.streaks.count c.resource = m.streaks.count c.resource) :
    ∃ weight, ((shipped rule).onResult result c m).1 = .done weight ∧
      ((shipped rule).onResult result c' m').1 = .done weight ∧
      ((shipped rule).onResult result c' m').2.streaks.count c.resource =
        ((shipped rule).onResult result c m).2.streaks.count c.resource := by
  cases rule with
  | ratio rule =>
      cases result with
      | success =>
          obtain ⟨hweight, hcount⟩ := rule.onSuccess_congr hc h
          exact ⟨_, rfl, congrArg Outcome.done hweight, hcount⟩
      | failure =>
          obtain ⟨hweight, hcount⟩ := rule.onFail_congr hc h
          exact ⟨_, rfl, congrArg Outcome.done hweight, hcount⟩
  | flat rule =>
      cases result with
      | success =>
          refine ⟨_, rfl, ?_, h⟩
          show Outcome.done (rule.onSuccess c') = _
          unfold FlatRule.onSuccess
          rw [hc.current, hc.maxWeight]
      | failure =>
          refine ⟨_, rfl, ?_, h⟩
          show Outcome.done (rule.onFail c') = _
          unfold FlatRule.onFail
          rw [hc.current, hc.minWeight]

/-- No policy touches the streak of a resource that it is not asked about. -/
theorem count_onResult_of_ne (p : Policy ω) (result : CallResult) (c : Context ω)
    (m : PolicyMemory) {other : String} (h : other ≠ c.resource) :
    (p.onResult result c m).2.streaks.count other = m.streaks.count other := by
  cases p with
  | custom p =>
      cases result with
      | success => rfl
      | failure => rfl
  | shipped rule =>
      cases rule with
      | flat rule =>
          cases result with
          | success => rfl
          | failure => rfl
      | ratio rule =>
          cases result with
          | success => exact rule.count_onSuccess_of_ne c m.streaks h
          | failure => exact rule.count_endStreak_of_ne m.streaks h

end Policy

/-! ## The standing of a member -/

theorem Resource.current_propose [LawfulScalar ω] (r : Resource ω) (weight : ω) :
    (r.propose weight).2.current = clampWeight weight r.current r.minWeight r.maxWeight := by
  simp only [propose]
  split
  · next hsame => exact (LawfulScalar.same_iff.1 hsame).symm
  · rfl

omit [Scalar ω] in
theorem Resource.current_finished (r : Resource ω) (tracks : Bool) :
    (r.finished tracks).current = r.current := by
  cases tracks with
  | false => rfl
  | true => rfl

namespace System

variable {s s' : System ω}

omit [Scalar ω] in
/-- The weight of a resource, and its successes in a row at the minimum. -/
def standing (name : String) (s : System ω) : Option (ω × Nat) :=
  (s.selector.find? name).map fun r => (r.current, s.host.memory.streaks.count name)

omit [Scalar ω] in
theorem Calm.standing (h : s.Calm s') (name : String) : s'.standing name = s.standing name := by
  unfold System.standing
  rw [h.find?, h.memory]

omit [Scalar ω] in
theorem standing_congr {name : String} (hfind : s'.selector.find? name = s.selector.find? name)
    (hcount : s'.host.memory.streaks.count name = s.host.memory.streaks.count name) :
    s'.standing name = s.standing name := by
  unfold standing
  rw [hfind, hcount]

theorem standing_report_of_find? (h : s.selector.Layout) {name other : String} (hne : name ≠ other)
    {r : Resource ω} (hr : s.selector.find? other = some r) (result : CallResult) :
    (s.report result other).2.standing name = s.standing name := by
  have hname : r.context.resource = other := h.name_of_find? hr
  refine standing_congr ?_ ?_
  · rw [find?_report h hr, if_neg hne]
  · rw [memory_report h hr]
    exact Policy.count_onResult_of_ne _ _ _ _ (hname ▸ hne)

/-- A report on another resource, which may be registered for it. -/
theorem standing_report_of_ne (h : s.selector.Layout) {name other : String} (hne : name ≠ other)
    (result : CallResult) : (s.report result other).2.standing name = s.standing name := by
  cases hr : s.selector.find? other with
  | some r => exact standing_report_of_find? h hne hr result
  | none =>
      have hnew := h.find?_eq_none_iff.1 hr
      cases hauto : s.selector.settings.autoAddWeight with
      | none => exact (calm_report_of_unknown hnew hauto result).standing name
      | some weight =>
          have hfound (name : String) := Selector.find?_register h weight hnew name
          rw [report_eq_register hnew hauto, standing_report_of_find? (s := s.register other weight)
            (h.register weight hnew) hne ((hfound other).trans (if_pos rfl))]
          exact standing_congr ((hfound name).trans (if_neg hne)) rfl

theorem memory_down (name : String) (s : System ω) :
    (s.down name).2.host.memory = s.host.memory := by
  cases hr : s.selector.entry? name with
  | none => exact (calm_down_of_unknown hr).memory
  | some entry => exact (calm_down hr).memory

theorem standing_down_of_ne (h : s.selector.Layout) {name other : String} (hne : name ≠ other) :
    (s.down other).2.standing name = s.standing name := by
  cases hr : s.selector.entry? other with
  | none => exact (calm_down_of_unknown hr).standing name
  | some entry =>
      obtain ⟨place, r⟩ := entry
      refine standing_congr ?_ (by rw [memory_down])
      rw [find?_down h (h.find?_eq_some_iff_entry?.2 ⟨place, hr⟩), if_neg hne]

variable [LawfulScalar ω]

/-- What a member is told of itself by a report depends on its standing. -/
theorem standing_report_congr (h : s.selector.Layout) (h' : s'.selector.Layout) {rule : Rule ω}
    (hpolicy : s.selector.policy = .shipped rule) (hpolicy' : s'.selector.policy = .shipped rule)
    {name : String} {r r' : Resource ω} (hr : s.selector.find? name = some r)
    (hr' : s'.selector.find? name = some r') (hmax : r'.maxWeight = r.maxWeight)
    (hmin : r'.minWeight = r.minWeight) (hstanding : s'.standing name = s.standing name)
    (result : CallResult) :
    (s'.report result name).2.standing name = (s.report result name).2.standing name := by
  have hname : r.context.resource = name := h.name_of_find? hr
  unfold standing at hstanding
  rw [hr, hr', Option.map_some, Option.map_some, Option.some.injEq, Prod.mk.injEq] at hstanding
  obtain ⟨hcurrent, hcount⟩ := hstanding
  have hlike : r.context.Like r'.context :=
    ⟨(h'.name_of_find? hr').trans hname.symm, hmax, hmin, hcurrent⟩
  obtain ⟨weight, hanswer, hanswer', hafter⟩ :=
    Policy.onResult_congr rule result hlike (hname ▸ hcount)
  unfold standing
  rw [find?_report h hr, find?_report h' hr', memory_report h hr, memory_report h' hr', hpolicy,
    hpolicy', hanswer, hanswer', if_pos rfl, if_pos rfl, ← hname, hafter, Option.map_some,
    Option.map_some]
  unfold Resource.answered
  rw [Resource.current_finished, Resource.current_finished, Resource.current_propose,
    Resource.current_propose, hmax, hmin, hcurrent]

omit [LawfulScalar ω] in
theorem standing_down_congr (h : s.selector.Layout) (h' : s'.selector.Layout) {name : String}
    {r r' : Resource ω} (hr : s.selector.find? name = some r)
    (hr' : s'.selector.find? name = some r') (hmin : r'.minWeight = r.minWeight)
    (hstanding : s'.standing name = s.standing name) :
    (s'.down name).2.standing name = (s.down name).2.standing name := by
  unfold standing at hstanding ⊢
  rw [hr, hr', Option.map_some, Option.map_some, Option.some.injEq, Prod.mk.injEq] at hstanding
  rw [find?_down h hr, find?_down h' hr', memory_down, memory_down, if_pos rfl, if_pos rfl,
    Option.map_some, Option.map_some, Resource.current_finished, Resource.current_finished,
    hstanding.2]
  exact congrArg (fun weight => some (weight, _)) hmin

end System

/-! ## The managers -/

/-- The change neither drops the name nor declares it differently. -/
def MembershipChange.Spares (name : String) (d : Declaration ω) : MembershipChange ω → Prop
  | .update add remove _ => name ∉ add.map (·.1) ∧ name ∉ remove
  | .updateAll resources _ => Declarations.nothing.override resources name = some d

namespace Request

/-- A report, or a resource forced down. -/
def isFeedback : Request ω → Bool
  | .call (.report _ _) => true
  | .call (.down _) => true
  | _ => false

/-- Feedback on the resource of a name. -/
def isAbout (name : String) : Request ω → Bool
  | .call (.report _ other) => name = other
  | .call (.down other) => name = other
  | _ => false

/-- Feedback on any resource, or a change that spares the name. -/
def Sparing (name : String) (d : Declaration ω) : Request ω → Prop
  | .change _ c => c.Spares name d
  | q => q.isFeedback = true

end Request

namespace Manager

variable {m m' : Manager ω}

/-- The weight of a resource, if it is registered. -/
def weightOf (name : String) (m : Manager ω) : Option ω :=
  (m.current.find? name).map (·.current)

/-- The weights of a resource after each feedback on it, in the course of some requests. -/
def weightsOf (name : String) : List (Request ω) → Manager ω → List (Option ω)
  | [], _ => []
  | q :: qs, m =>
    if q.isAbout name then (m.reply q).2.weightOf name :: weightsOf name qs (m.reply q).2
    else weightsOf name qs (m.reply q).2

/-- The manager after some requests. -/
def after (qs : List (Request ω)) (m : Manager ω) : Manager ω :=
  qs.foldl (fun m q => (m.reply q).2) m

/-- The manager has the name for a member, as declared, and a shipped rule for a policy. -/
structure Keeps (rule : Rule ω) (name : String) (d : Declaration ω) (m : Manager ω) : Prop where
  reachable : m.Reachable
  policy : m.template.policy = some (.shipped rule)
  member : m.membership.roster.get? name = some d

/-- A change that has been asked for is made, or the policy has been asked at most. -/
theorem reply_change (timer : Bool) (c : MembershipChange ω) (m : Manager ω) :
    (∃ asked, (m.reply (.change timer c)).2 = { m with host := { m.host with asked } }) ∨
      c.make m = .ok (m.reply (.change timer c)).2 := by
  unfold reply
  obtain ⟨why, hrefused⟩ | ⟨asked, hcrashed⟩ | ⟨next, hmade, hchange⟩ :=
    InPlace.change_cases timer c m
  · simp only [hrefused]
    exact .inl ⟨m.host.asked, rfl⟩
  · simp only [hcrashed]
    exact .inl ⟨asked, rfl⟩
  · simp only [hchange]
    exact .inr hmade

theorem Reachable.reply (h : m.Reachable) (q : Request ω) : (m.reply q).2.Reachable := by
  cases q with
  | change timer c =>
      obtain ⟨asked, heq⟩ | hmade := m.reply_change timer c
      · rw [heq]
        exact h.step (.others { m.host with asked })
      · have hstep : m.step c.event = m.attempt (c.make m) := by cases c <;> rfl
        have hreachable := h.step c.event
        rw [hstep, hmade] at hreachable
        exact hreachable
  | _ =>
      rw [reply_snd rfl]
      exact h.step _

theorem changed_of_make {c : MembershipChange ω} (h : c.make m = .ok m') {name : String}
    {d : Declaration ω} (hspares : c.Spares name d)
    (hd : m.membership.roster.get? name = some d) :
    ∃ next, m.Changed next m' ∧ next.roster.get? name = some d := by
  cases c with
  | update add remove rank =>
      refine ⟨_, changed_of_apply h, ?_⟩
      rw [Membership.get?_update_of_not_mem hspares.1 (by simpa using hspares.2), hd]
  | updateAll resources rank =>
      refine ⟨_, changed_of_apply h, ?_⟩
      rw [m.membership.get?_updateAll]
      exact hspares

variable [LawfulScalar ω]

/-- A call on a manager is a call on its current selector. -/
theorem system_reply_call (c : Call) (m : Manager ω) :
    (m.reply (.call c)).2.system = m.system.call c := by
  have hreply : (m.reply (.call c)).2 = m.record (m.system.call c) :=
    congrArg m.record (m.system.answer_snd c)
  have hid : (m.system.call c).selector.id = m.current.id := m.system.id_step (.call c)
  rw [hreply]
  show System.mk (ite _ _ _) _ = _
  rw [if_pos hid.symm]
  rfl

/-- The current selector has the policy of the manager. -/
theorem Reachable.policy_current (h : m.Reachable) {rule : Rule ω}
    (hpolicy : m.template.policy = some (.shipped rule)) : m.current.policy = .shipped rule := by
  obtain ⟨previous, hcurrent⟩ := h.traced.current
  have hkept := hcurrent.induct (P := fun s => s.policy =
    (m.membership.builder m.template previous).policy.getD _) (fun _ _ => rfl) (fun _ _ hs => hs)
    fun hc hs => hc.frame.policy.trans hs
  rw [show (m.membership.builder m.template previous).policy = _ from hpolicy] at hkept
  exact hkept

theorem Changed.standing (h : m.Reachable) (h' : m'.Reachable) {next : Membership ω}
    (hchanged : m.Changed next m') {name : String} {d : Declaration ω}
    (hd : m.membership.roster.get? name = some d) (hd' : next.roster.get? name = some d)
    (hdistinct : d.Distinct) : m'.system.standing name = m.system.standing name := by
  obtain ⟨r, r', hr, hr', -, -, hcurrent⟩ := hchanged.exists_stands h.traced h'.traced hd hd'
  unfold System.standing
  rw [show m'.system.selector.find? name = some r' from hr',
    show m.system.selector.find? name = some r from hr, Option.map_some, Option.map_some,
    hcurrent hdistinct, show m'.system.host.memory = m.system.host.memory from hchanged.memory]

namespace Keeps

variable {rule : Rule ω} {name : String} {d : Declaration ω}

theorem layout (h : m.Keeps rule name d) : m.current.Layout := by
  obtain ⟨previous, hcurrent⟩ := h.reachable.traced.current
  exact hcurrent.layout

theorem rules (h : m.Keeps rule name d) : m.current.policy = .shipped rule :=
  h.reachable.policy_current h.policy

omit [LawfulScalar ω] in
/-- Sparing requests leave the member a member. -/
theorem reply (h : m.Keeps rule name d) {q : Request ω} (hq : q.Sparing name d) :
    (m.reply q).2.Keeps rule name d := by
  have hreachable := h.reachable.reply q
  cases q with
  | call c => exact ⟨hreachable, h.policy, h.member⟩
  | change timer c =>
      obtain ⟨asked, heq⟩ | hmade := m.reply_change timer c
      · rw [heq] at hreachable ⊢
        exact ⟨hreachable, h.policy, h.member⟩
      · obtain ⟨next, hchanged, hnext⟩ := changed_of_make hmade hq h.member
        exact ⟨hreachable, hchanged.template ▸ h.policy, hchanged.membership ▸ hnext⟩
  | callOn id c => exact nomatch hq
  | tick => exact nomatch hq
  | close => exact nomatch hq
  | others host => exact nomatch hq

/-- A change that spares the member leaves its standing alone. -/
theorem standing_change (h : m.Keeps rule name d) (hdistinct : d.Distinct) (timer : Bool)
    {c : MembershipChange ω} (hspares : c.Spares name d) :
    (m.reply (.change timer c)).2.system.standing name = m.system.standing name := by
  have hreply := h.reply (q := .change timer c) hspares
  obtain ⟨asked, heq⟩ | hmade := m.reply_change timer c
  · rw [heq]
    rfl
  · obtain ⟨next, hchanged, hnext⟩ := changed_of_make hmade hspares h.member
    exact hchanged.standing h.reachable hreply.reachable h.member hnext hdistinct

/-- Feedback moves equal standings to equal standings. -/
theorem standing_feedback (h : m.Keeps rule name d) (h' : m'.Keeps rule name d)
    (hstanding : m'.system.standing name = m.system.standing name) {q : Request ω}
    (hq : q.isFeedback = true) :
    (m'.reply q).2.system.standing name = (m.reply q).2.system.standing name := by
  obtain ⟨r, hr, hstands⟩ := h.reachable.traced.exists_stands h.member
  obtain ⟨r', hr', hstands'⟩ := h'.reachable.traced.exists_stands h'.member
  have hmax : r'.maxWeight = r.maxWeight := hstands'.maxWeight.trans hstands.maxWeight.symm
  have hmin : r'.minWeight = r.minWeight := hstands'.minWeight.trans hstands.minWeight.symm
  have hlayout : m.system.selector.Layout := h.layout
  have hlayout' : m'.system.selector.Layout := h'.layout
  unfold Request.isFeedback at hq
  split at hq
  · next result other =>
      rw [system_reply_call, system_reply_call]
      by_cases heq : name = other
      · subst heq
        exact System.standing_report_congr hlayout hlayout' h.rules h'.rules hr hr' hmax hmin
          hstanding result
      · exact (System.standing_report_of_ne hlayout' heq result).trans
          (hstanding.trans (System.standing_report_of_ne hlayout heq result).symm)
  · next other =>
      rw [system_reply_call, system_reply_call]
      by_cases heq : name = other
      · subst heq
        exact System.standing_down_congr hlayout hlayout' hr hr' hmin hstanding
      · exact (System.standing_down_of_ne hlayout' heq).trans
          (hstanding.trans (System.standing_down_of_ne hlayout heq).symm)
  · exact nomatch hq

omit [LawfulScalar ω] in
theorem after (h : m.Keeps rule name d) {qs : List (Request ω)}
    (hqs : ∀ q ∈ qs, q.Sparing name d) : (m.after qs).Keeps rule name d := by
  induction qs generalizing m with
  | nil => exact h
  | cons q rest ih =>
      obtain ⟨hq, hrest⟩ := List.forall_mem_cons.1 hqs
      exact ih (h.reply hq) hrest

end Keeps

/-! ## The two runs -/

/-- Both are weights of the resource between the declared bounds, and the same if these are not two
zeros of different sign. -/
def Close (d : Declaration ω) (a b : Option ω) : Prop :=
  ∃ r r' : Resource ω, a = some r.current ∧ b = some r'.current ∧ r.Stands d ∧ r'.Stands d ∧
    (d.Distinct → r'.current = r.current)

theorem close_of_standing {rule : Rule ω} {name : String} {d : Declaration ω}
    (h : m.Keeps rule name d) (h' : m'.Keeps rule name d)
    (hstanding : d.Distinct → m'.system.standing name = m.system.standing name) :
    Close d (m.weightOf name) (m'.weightOf name) := by
  obtain ⟨r, hr, hstands⟩ := h.reachable.traced.exists_stands h.member
  obtain ⟨r', hr', hstands'⟩ := h'.reachable.traced.exists_stands h'.member
  refine ⟨r, r', ?_, ?_, hstands, hstands', fun hdistinct => ?_⟩
  · rw [weightOf, hr, Option.map_some]
  · rw [weightOf, hr', Option.map_some]
  · have heq := hstanding hdistinct
    unfold System.standing at heq
    rw [show m'.system.selector.find? name = some r' from hr',
      show m.system.selector.find? name = some r from hr] at heq
    exact congrArg Prod.fst (Option.some.inj heq)

/-- The run with the changes and the run without them, report by report. -/
theorem close_weightsOf {rule : Rule ω} {name : String} {d : Declaration ω}
    (h : m.Keeps rule name d) (h' : m'.Keeps rule name d)
    (hstanding : d.Distinct → m'.system.standing name = m.system.standing name)
    {qs : List (Request ω)} (hqs : ∀ q ∈ qs, q.Sparing name d) :
    List.Forall₂ (Close d) (m.weightsOf name qs)
      (m'.weightsOf name (qs.filter (·.isFeedback))) := by
  induction qs generalizing m m' with
  | nil => exact .nil
  | cons q rest ih =>
      obtain ⟨hq, hrest⟩ := List.forall_mem_cons.1 hqs
      have hreply := h.reply hq
      cases hfeedback : q.isFeedback with
      | true =>
          -- both managers are asked
          have hstanding' (hdistinct : d.Distinct) :=
            h.standing_feedback h' (hstanding hdistinct) hfeedback
          have hreply' := h'.reply hq
          have htail := ih hreply hreply' hstanding' hrest
          rw [List.filter_cons_of_pos hfeedback, weightsOf, weightsOf]
          split
          · exact .cons (close_of_standing hreply hreply' hstanding') htail
          · exact htail
      | false =>
          cases q with
          | change timer c =>
              -- only the first manager is asked
              have hstanding' (hdistinct : d.Distinct) :=
                (hstanding hdistinct).trans (h.standing_change hdistinct timer hq).symm
              exact ih hreply h' hstanding' hrest
          | _ => exact nomatch hfeedback.symm.trans hq

end Manager

/-- The weights are there and are the same number. -/
def SameWeight (a b : Option Float) : Prop := ∃ x y, a = some x ∧ b = some y ∧ (x == y) = true

/-- Changes that spare a member of a manager with a shipped rule are not seen by it. After each
report on it, its weight is what it would be had no change been asked for, as a number and, unless
its bounds are two zeros of different sign, bit by bit. In the end it is registered with the bounds
that it was declared with. -/
theorem weights_transparent {m : Manager Float} (h : m.Reachable) {rule : Rule Float}
    (hpolicy : m.template.policy = some (.shipped rule)) {name : String} {d : Declaration Float}
    (hmember : m.membership.roster.get? name = some d) {qs : List (Request Float)}
    (hqs : ∀ q ∈ qs, q.Sparing name d) :
    List.Forall₂ SameWeight (m.weightsOf name qs)
      (m.weightsOf name (qs.filter (·.isFeedback))) ∧
    (d.minWeight < d.maxWeight ∨ d.minWeight = d.maxWeight →
      m.weightsOf name qs = m.weightsOf name (qs.filter (·.isFeedback))) ∧
    ∃ r, (m.after qs).current.find? name = some r ∧ r.maxWeight = d.maxWeight ∧
      r.minWeight = d.minWeight := by
  have hkeeps : m.Keeps rule name d := ⟨h, hpolicy, hmember⟩
  have hclose := Manager.close_weightsOf hkeeps hkeeps (fun _ => rfl) hqs
  refine ⟨hclose.imp ?_, fun hdistinct => ?_, ?_⟩
  · rintro a b ⟨r, r', rfl, rfl, hstands, hstands', heq⟩
    exact ⟨r.current, r'.current, rfl, rfl, Binary64.beq_iff.2
      ⟨hstands'.current_le hstands fun hdistinct => (heq hdistinct).symm,
        hstands.current_le hstands' heq⟩⟩
  · refine List.forall₂_eq_eq_eq ▸ hclose.imp ?_
    rintro a b ⟨r, r', rfl, rfl, -, -, heq⟩
    rw [heq hdistinct]
  · have hafter := hkeeps.after hqs
    obtain ⟨r, hr, hstands⟩ := hafter.reachable.traced.exists_stands hafter.member
    exact ⟨r, hr, hstands.maxWeight, hstands.minWeight⟩

/-- A failed call, a change of two other members, and a success. -/
theorem weights_transparent_trio : ∃ m : Manager Float, m.Reachable ∧
    m.weightsOf "a" [.call (.report .failure "a"),
        .change true (.update [("d", .ofWeight 7)] ["b"]), .call (.report .success "a")] =
      m.weightsOf "a" [.call (.report .failure "a"), .call (.report .success "a")] := by
  obtain ⟨m, hcreate, hpolicy, hmember⟩ : ∃ m : Manager Float,
      Manager.create Builder.pair [("c", .ofWeight 5)] none { rng := ⟨0⟩ } = .ok m ∧
      m.template.policy = some (.shipped .default) ∧
      m.membership.roster.get? "a" = some (.ofWeight 100) :=
    ⟨_, rfl, rfl, rfl⟩
  have hm := Manager.Reachable.created hcreate
  refine ⟨m, hm, (weights_transparent hm hpolicy hmember ?_).2.1 (.inl ?_)⟩
  · intro q hq
    simp only [List.mem_cons, List.not_mem_nil, or_false] at hq
    rcases hq with rfl | rfl | rfl
    · rfl
    · exact ⟨by simp, by simp⟩
    · rfl
  · decide +kernel

end ResourceSelection
