import ResourceSelection.Proofs.Checker
import ResourceSelection.Proofs.Transparency

/-!
# Dealing with one resource

Three things are done to a single resource: a call to it is reported, it is forced down, and a check
pass looks at it. Their code differs in what they count, in whether they ask a policy or a probe, and
in whether a call in flight ends. It agrees in the rest. Some supplied code is asked, and may crash;
the weight moves; the transition is made known.

`deal_eq` says this of all three at once, as an equation. The four parts that differ are functions of
the dealing (`answer`, `move`, `cause` and what `judged` counts), and what can be seen afterwards is
read off the equation: the resources, the memory of the policy, and what the listener was told. Only
a check pass asks beforehand whether there is anything to do (`begins`), and that may be all it comes
to. For an unknown name there is nothing to deal with, unless a report registers it first
(`deal_enrolled`).
-/

namespace ResourceSelection

variable {ω : Type} [Scalar ω]

/-- What is done to one resource. -/
inductive Dealing (ω : Type) where
  /-- A call to it is reported. -/
  | report (result : CallResult)
  /-- It is forced down. -/
  | down
  /-- A check pass comes to it. -/
  | probe (probe : Probe ω)

namespace Outcome

theorem map_id {α : Type} (outcome : Outcome α) : outcome.map id = outcome := by
  cases outcome with
  | done => rfl
  | crashed => rfl

theorem map_unit {α : Type} (a : α) (outcome : Outcome Unit) :
    (outcome.map fun _ => a).map (fun _ => ()) = outcome := by
  cases outcome with
  | done => rfl
  | crashed => rfl

end Outcome

/-- The rate that the next probe of a resource will give. -/
def Probe.rateOf (p : Probe ω) (name : String) (host : Host ω) : ω :=
  (p.reply name (host.probed.count name)).rate

namespace Dealing

omit [Scalar ω] in
def cause : Dealing ω → Cause
  | report result => result.cause
  | down => .down
  | probe _ => .healthCheck

/-- The selector that it finds, in which a reported name has been enrolled. -/
def enrols (d : Dealing ω) (name : String) (s : Selector ω) : Selector ω :=
  match d with
  | report _ => s.enrol name
  | _ => s

/-- Whether there is anything to do. Of a resource to be probed the policy is asked. -/
def begins (d : Dealing ω) (r : Resource ω) (s : System ω) : Outcome Bool :=
  match d with
  | probe _ => s.selector.policy.needsCheck r.context (s.host.asked.count r.name)
  | _ => .done true

/-- Whether it comes to anything: a resource is probed only if the policy wants it. -/
def concerns (d : Dealing ω) (r : Resource ω) (s : System ω) : Bool :=
  decide (d.begins r s = .done true)

/-- The system once the policy was asked that. -/
def asked (d : Dealing ω) (r : Resource ω) (s : System ω) : System ω :=
  match d with
  | probe _ => s.asking (s.host.asked.bump r.name)
  | _ => s

/-- How a call went for the resource, or might have gone. Nothing was called where a resource is
forced down. -/
def result? (d : Dealing ω) (name : String) (host : Host ω) : Option CallResult :=
  match d with
  | report result => some result
  | down => none
  | probe p => some (if 0 < p.rateOf name host then .success else .failure)

/-- The weight that is asked for, and what the policy remembers. -/
def answer (d : Dealing ω) (r : Resource ω) (s : System ω) : Outcome ω × PolicyMemory :=
  let asked (result : CallResult) := s.selector.policy.onResult result r.context s.host.memory
  match d with
  | report result => asked result
  | down => (.done r.minWeight, s.host.memory)
  | probe p =>
    let rate := p.rateOf r.name s.host
    if 0 < rate then
      ((asked .success).1.map fun target => r.current + (target - r.current) * rate,
        (asked .success).2)
    else asked .failure

/-- What becomes of the resource when a weight is asked for. -/
def move (d : Dealing ω) (weight : ω) (tracks : Bool) (r : Resource ω) : Resource ω :=
  match d with
  | report _ => (r.propose weight).2.finished tracks
  | down => r.forceDown.2.finished tracks
  | probe _ => (r.propose weight).2

/-- The resource afterwards. -/
def after (d : Dealing ω) (r : Resource ω) (s : System ω) : Resource ω :=
  if d.concerns r s then
    match (d.answer r s).1 with
    | .done weight => d.move weight s.selector.settings.tracksCalls r
    | .crashed => r
  else r

/-- The system once the supplied code has been asked. -/
def judged (d : Dealing ω) (r : Resource ω) (s : System ω) : System ω :=
  let count (f : Counters → Counters) : System ω :=
    { selector := { s.selector with counters := f s.selector.counters }
      host := { s.host with memory := (d.answer r s).2 } }
  match d with
  | report result => count result.count
  | down => count fun c => { c with downs := c.downs + 1 }
  | probe p =>
    let t := count fun c =>
      { c with
        probes := c.probes + 1
        probeFailures := if 0 < p.rateOf r.name s.host then c.probeFailures
          else c.probeFailures + 1 }
    { t with
      host :=
        { t.host with
          asked := t.host.asked.bump r.name
          probed := t.host.probed.bump r.name } }

omit [Scalar ω] in
/-- What the listener is told when the weight becomes another one. -/
def change (d : Dealing ω) (r : Resource ω) (weight : ω) : WeightChange ω :=
  ⟨r.name, r.current, weight, r.maxWeight, r.minWeight, r.priority, d.cause⟩

section

variable {d : Dealing ω} {r : Resource ω} {s : System ω}

/-- A policy is told of a success, and what it proposes may be scaled. -/
theorem answer_of_success (hresult : d.result? r.name s.host = some .success) :
    ∃ scale : ω → ω, d.answer r s =
        ((s.selector.policy.onResult .success r.context s.host.memory).1.map scale,
          (s.selector.policy.onResult .success r.context s.host.memory).2) ∧
      (scale = id ∨
        ∃ rate, 0 < rate ∧ scale = fun target => r.current + (target - r.current) * rate) := by
  cases d with
  | down => exact nomatch hresult
  | report result =>
      obtain rfl : result = .success := Option.some.inj hresult
      exact ⟨id, Prod.ext (Outcome.map_id _).symm rfl, .inl rfl⟩
  | probe p =>
      have hpos : 0 < p.rateOf r.name s.host := by
        by_contra hzero
        simp [result?, hzero] at hresult
      refine ⟨_, ?_, .inr ⟨p.rateOf r.name s.host, hpos, rfl⟩⟩
      unfold answer
      simp only [hpos, if_true]

theorem answer_of_failure (hresult : d.result? r.name s.host = some .failure) :
    d.answer r s = s.selector.policy.onResult .failure r.context s.host.memory := by
  cases d with
  | down => exact nomatch hresult
  | report result =>
      obtain rfl : result = .failure := Option.some.inj hresult
      rfl
  | probe p =>
      have hzero : ¬ 0 < p.rateOf r.name s.host := by
        intro hpos
        simp [result?, hpos] at hresult
      unfold answer
      simp only [hzero, if_false]

theorem memory_answer_of_none (hresult : d.result? r.name s.host = none) :
    (d.answer r s).2 = s.host.memory := by
  cases d with
  | down => rfl
  | report result => exact nomatch hresult
  | probe p => exact nomatch hresult

theorem count_answer_of_ne {name : String} (hne : name ≠ r.name) :
    (d.answer r s).2.streaks.count name = s.host.memory.streaks.count name := by
  have hcount (result : CallResult) :=
    s.selector.policy.count_onResult_of_ne result r.context s.host.memory hne
  cases hresult : d.result? r.name s.host with
  | none => rw [memory_answer_of_none hresult]
  | some result =>
      cases result with
      | success =>
          obtain ⟨scale, hanswer, -⟩ := answer_of_success hresult
          rw [hanswer]
          exact hcount .success
      | failure =>
          rw [answer_of_failure hresult]
          exact hcount .failure

/-- Where a call was made, the answer to it is clamped. -/
theorem current_after [LawfulScalar ω] {result : CallResult}
    (hresult : d.result? r.name s.host = some result) (hconcerns : d.concerns r s = true)
    {weight : ω} (hanswer : (d.answer r s).1 = .done weight) :
    (d.after r s).current = clampWeight weight r.current r.minWeight r.maxWeight := by
  unfold after
  rw [if_pos hconcerns, hanswer]
  cases d with
  | down => exact nomatch hresult
  | report result => exact (Resource.current_finished _ _).trans (r.current_propose weight)
  | probe p => exact r.current_propose weight

end

theorem kept_move [LawfulScalar ω] (d : Dealing ω) (weight : ω) (tracks : Bool) (r : Resource ω) :
    r.Kept (d.move weight tracks r) := by
  have hfinished (r : Resource ω) : r.Kept (r.finished tracks) := by
    cases tracks with
    | false => exact .refl r
    | true => exact r.kept_release
  cases d with
  | report result => exact (r.kept_propose weight).trans (hfinished _)
  | down => exact r.kept_forceDown.trans (hfinished _)
  | probe p => exact r.kept_propose weight

theorem kept_after [LawfulScalar ω] (d : Dealing ω) (r : Resource ω) (s : System ω) :
    r.Kept (d.after r s) := by
  unfold after
  split
  · split
    · exact d.kept_move _ _ r
    · exact .refl r
  · exact .refl r

end Dealing

theorem Dealing.enrols_cases (d : Dealing ω) (name : String) (s : Selector ω) :
    d.enrols name s = s ∨ ∃ weight, s.place? name = none ∧
      s.settings.autoAddWeight = some weight ∧ d.enrols name s = s.register name weight := by
  cases d with
  | down => exact .inl rfl
  | probe p => exact .inl rfl
  | report result => exact s.enrol_cases name

theorem Dealing.enrols_of_find? {s : Selector ω} {name : String} {r : Resource ω}
    (hr : s.find? name = some r) (d : Dealing ω) : d.enrols name s = s := by
  rcases d.enrols_cases name s with heq | ⟨weight, hnew, -, -⟩
  · exact heq
  · unfold Selector.find? Selector.entry? at hr
    rw [hnew] at hr
    exact nomatch hr

theorem Dealing.listener_enrols (d : Dealing ω) (name : String) (s : Selector ω) :
    (d.enrols name s).listener = s.listener := by
  rcases d.enrols_cases name s with heq | ⟨weight, -, -, heq⟩
  · rw [heq]
  · rw [heq]
    rfl

theorem Selector.Layout.enrols {s : Selector ω} (h : s.Layout) (d : Dealing ω) (name : String) :
    (d.enrols name s).Layout := by
  rcases d.enrols_cases name s with heq | ⟨weight, hnew, -, heq⟩
  · rw [heq]
    exact h
  · rw [heq]
    exact h.register weight hnew

omit [Scalar ω] in
theorem Selector.Layout.entry?_eq_none {s : Selector ω} (h : s.Layout) {name : String}
    (hnone : s.find? name = none) : s.entry? name = none := by
  unfold Selector.entry?
  rw [h.find?_eq_none_iff.1 hnone]
  rfl

namespace System

/-- The outcome of a dealing, and the system after it. -/
def deal (d : Dealing ω) (name : String) (s : System ω) : Outcome Unit × System ω :=
  match d with
  | .report result => s.report result name
  | .down => s.down name
  | .probe p => ((s.checkResource p name).1.map fun _ => (), (s.checkResource p name).2)

/-! ## The equation -/

variable {s : System ω} {name : String} {place : Nat} {r : Resource ω}

theorem finishReport_eq (f : Resource ω → Resource ω) (old new : ω) (cause : Cause) (s : System ω) :
    (s.modifyAt place f).finishReport place r old new cause =
      (s.modifyAt place fun q => (f q).finished s.selector.settings.tracksCalls).applyChange r old
        new cause := by
  unfold finishReport Resource.finished
  have htracks : (s.modifyAt place f).selector.settings.tracksCalls =
      s.selector.settings.tracksCalls := rfl
  rw [htracks]
  cases s.selector.settings.tracksCalls with
  | false => rfl
  | true =>
      simp only [if_true, modifyAt, Selector.modifyAt_modifyAt]
      rfl

theorem report_eq (hentry : s.selector.entry? name = some (place, r)) (result : CallResult) :
    s.report result name = match ((Dealing.report result).answer r s).1 with
      | .crashed => (.crashed, (Dealing.report result).judged r s)
      | .done weight =>
        let f := (Dealing.report result).move weight s.selector.settings.tracksCalls
        (((Dealing.report result).judged r s).modifyAt place f).applyChange r r.current
          (f r).current result.cause := by
  have hplace : (s.count result.count).selector.place? name = some place :=
    Selector.place?_of_entry? (s := s.selector) hentry
  have hstate : (s.count result.count).selector.states[place]? = some r :=
    Selector.states_of_entry? (s := s.selector) hentry
  have hanswer : (s.count result.count).selector.policy.onResult result r.context
      (s.count result.count).host.memory = (Dealing.report result).answer r s := rfl
  unfold report knowing?
  simp only [hplace, hstate, askPolicy_eq, hanswer]
  cases hdone : ((Dealing.report result).answer r s).1 with
  | crashed => rfl
  | done weight =>
      simp only [propose, r.propose_fst]
      rw [finishReport_eq]
      simp only [Dealing.move, Resource.current_finished]
      rfl

theorem down_eq (hentry : s.selector.entry? name = some (place, r)) :
    s.down name =
      ((Dealing.down.judged r s).modifyAt place
        (Dealing.down.move r.minWeight s.selector.settings.tracksCalls)).applyChange r r.current
          (Dealing.down.move r.minWeight s.selector.settings.tracksCalls r).current .down := by
  have hcounted : (s.count fun c => { c with downs := c.downs + 1 }).selector.entry? name =
      some (place, r) := hentry
  unfold down
  simp only [hcounted]
  rw [finishReport_eq]
  simp only [Dealing.move, Resource.current_finished]
  rfl

/-- What a check pass asks the probe and the policy. -/
theorem proposalFor_eq (p : Probe ω) (r : Resource ω) (s : System ω) :
    (((s.asking (s.host.asked.bump r.name)).count fun c =>
      { c with probes := c.probes + 1 }).askProbe p r.name).2.proposalFor
        (p.rateOf r.name s.host) r =
    (((Dealing.probe p).answer r s).1, (Dealing.probe p).judged r s) := by
  unfold proposalFor Dealing.judged Dealing.answer
  simp only [askPolicy_eq]
  split
  · rfl
  · rfl

theorem probe_eq (hentry : s.selector.entry? name = some (place, r)) (hname : r.name = name)
    {p : Probe ω} (hwanted : (Dealing.probe p).begins r s = .done true) :
    s.deal (.probe p) name = match ((Dealing.probe p).answer r s).1 with
      | .crashed => (.crashed, (Dealing.probe p).judged r s)
      | .done weight =>
        let f := (Dealing.probe p).move weight s.selector.settings.tracksCalls
        (((Dealing.probe p).judged r s).modifyAt place f).applyChange r r.current
          (f r).current .healthCheck := by
  subst hname
  have hprobed : s.deal (.probe p) r.name =
      (s.asking (s.host.asked.bump r.name)).probeResource p r.name place r := by
    obtain ⟨hno, -⟩ | ⟨hno, -⟩ | ⟨-, heq⟩ := checkResource_cases hentry p
    · exact nomatch hwanted.symm.trans hno
    · exact nomatch hwanted.symm.trans hno
    · unfold deal
      simp only [heq, Outcome.map_unit]
  have hrate : (((s.asking (s.host.asked.bump r.name)).count fun c =>
      { c with probes := c.probes + 1 }).askProbe p r.name).1 = p.rateOf r.name s.host := rfl
  rw [hprobed]
  unfold probeResource
  simp only [hrate, proposalFor_eq]
  cases ((Dealing.probe p).answer r s).1 with
  | crashed => rfl
  | done weight =>
      simp only [propose, r.propose_fst]
      rfl

theorem deal_eq (h : s.selector.Layout) (hentry : s.selector.entry? name = some (place, r))
    {d : Dealing ω} (hconcerns : d.concerns r s = true) :
    s.deal d name = match (d.answer r s).1 with
      | .crashed => (.crashed, d.judged r s)
      | .done weight =>
        let f := d.move weight s.selector.settings.tracksCalls
        ((d.judged r s).modifyAt place f).applyChange r r.current (f r).current d.cause := by
  cases d with
  | report result => exact report_eq hentry result
  | down => exact down_eq hentry
  | probe p =>
      exact probe_eq hentry (h.entry?_eq_some.1 hentry).2 (of_decide_eq_true hconcerns)

/-- A resource that the policy does not want probed is left alone. -/
theorem deal_of_spared (hentry : s.selector.entry? name = some (place, r)) {d : Dealing ω}
    (hspared : d.concerns r s = false) :
    s.deal d name = ((d.begins r s).map fun _ => (), d.asked r s) := by
  cases d with
  | report result => exact nomatch hspared
  | down => exact nomatch hspared
  | probe p =>
      unfold deal Dealing.begins
      obtain ⟨hanswer, heq⟩ | ⟨hanswer, heq⟩ | ⟨hanswer, -⟩ := checkResource_cases hentry p
      · simp only [heq, hanswer]
        rfl
      · simp only [heq, hanswer]
        rfl
      · exact absurd hanswer (of_decide_eq_false hspared)

/-- The system as a dealing finds it. -/
def enrolled (d : Dealing ω) (name : String) (s : System ω) : System ω :=
  { s with selector := d.enrols name s.selector }

theorem deal_enrolled (d : Dealing ω) (name : String) (s : System ω) :
    (s.enrolled d name).deal d name = s.deal d name := by
  cases d with
  | down => rfl
  | probe p => rfl
  | report result =>
      show System.report result name ⟨s.selector.enrol name, s.host⟩ = s.report result name
      unfold Selector.enrol
      split
      · next hnew hauto => exact (report_eq_register hnew hauto result).symm
      · rfl

/-- There is nothing to do for a name that is not known, nor going to be. -/
theorem deal_of_unknown (h : s.selector.Layout) (d : Dealing ω)
    (hnone : (d.enrols name s.selector).find? name = none) :
    d.enrols name s.selector = s.selector ∧ ∃ f, s.deal d name = (.done (), s.count f) := by
  cases d with
  | down =>
      have hentry : s.selector.entry? name = none := h.entry?_eq_none hnone
      have hentry : (s.count fun c => { c with downs := c.downs + 1 }).selector.entry? name = none :=
        hentry
      refine ⟨rfl, fun c => { c with downs := c.downs + 1 }, ?_⟩
      show s.down name = _
      unfold down
      simp only [hentry]
  | probe p =>
      refine ⟨rfl, id, ?_⟩
      unfold deal checkResource
      simp only [h.entry?_eq_none hnone]
      rfl
  | report result =>
      have hnone : (s.selector.enrol name).find? name = none := hnone
      show s.selector.enrol name = s.selector ∧ ∃ f, s.report result name = (.done (), s.count f)
      unfold Selector.enrol at hnone ⊢
      split at hnone
      · next weight hnew hauto =>
          rw [Selector.find?_register h weight hnew, if_pos rfl] at hnone
          exact nomatch hnone
      · next hknown =>
          have hplace : (s.count result.count).selector.place? name = none :=
            h.find?_eq_none_iff.1 hnone
          have hauto : (s.count result.count).selector.settings.autoAddWeight = none :=
            Option.eq_none_iff_forall_ne_some.2 fun weight => hknown weight hplace
          refine ⟨rfl, result.count, ?_⟩
          unfold report knowing?
          simp only [hplace, hauto, Option.map_none]

/-! ## What can be seen afterwards -/

theorem changes_deal [LawfulScalar ω] (d : Dealing ω) (name : String) (s : System ω) :
    (d.enrols name s.selector).Changes (s.deal d name).2.selector := by
  cases d with
  | report result => exact s.changes_report result name
  | down => exact s.changes_down name
  | probe p => exact s.changes_checkResource p name

theorem listener_deal (d : Dealing ω) (name : String) (s : System ω) :
    (s.deal d name).2.selector.listener = s.selector.listener := by
  cases d with
  | report result => exact (s.tends_report result name).sameTerms.listener
  | down => exact (s.tends_down name).sameTerms.listener
  | probe p => exact (s.tended_checkResource p name).sameTerms.listener

omit [Scalar ω] in
theorem selector_asked (d : Dealing ω) (r : Resource ω) (s : System ω) :
    (d.asked r s).selector = s.selector := by
  cases d with
  | report result => rfl
  | down => rfl
  | probe p => rfl

omit [Scalar ω] in
theorem calm_asked (d : Dealing ω) (r : Resource ω) (s : System ω) : s.Calm (d.asked r s) := by
  cases d with
  | report result => exact .refl s
  | down => exact .refl s
  | probe p => exact ⟨rfl, rfl, rfl, rfl, rfl⟩

theorem calm_judged (d : Dealing ω) (r : Resource ω) (s : System ω) :
    { s with host := { s.host with memory := (d.answer r s).2 } }.Calm (d.judged r s) := by
  cases d with
  | report result => exact ⟨rfl, rfl, rfl, rfl, rfl⟩
  | down => exact ⟨rfl, rfl, rfl, rfl, rfl⟩
  | probe p => exact ⟨rfl, rfl, rfl, rfl, rfl⟩

/-- Once the weight has moved, all else is news. -/
theorem calm_deal (h : s.selector.Layout) (hentry : s.selector.entry? name = some (place, r))
    {d : Dealing ω} (hconcerns : d.concerns r s = true) :
    (System.mk (match (d.answer r s).1 with
      | .crashed => s.selector
      | .done weight => s.selector.modifyAt place
          (d.move weight s.selector.settings.tracksCalls))
        { s.host with memory := (d.answer r s).2 }).Calm (s.deal d name).2 := by
  have hjudged := calm_judged d r s
  rw [deal_eq h hentry hconcerns]
  cases (d.answer r s).1 with
  | crashed => exact hjudged
  | done weight =>
      refine Calm.trans ?_ (calm_applyChange r r.current _ d.cause _)
      exact ⟨congrArg (List.modify · place _) hjudged.states, hjudged.registry, hjudged.settings,
        hjudged.policy, hjudged.memory⟩

theorem find?_deal (h : s.selector.Layout) (hr : s.selector.find? name = some r) (d : Dealing ω)
    (other : String) : (s.deal d name).2.selector.find? other =
      if other = name then some (d.after r s) else s.selector.find? other := by
  obtain ⟨place, hentry⟩ := h.find?_eq_some_iff_entry?.1 hr
  have hsame : s.selector.find? other =
      if other = name then some r else s.selector.find? other := by
    split
    · next heq => rw [heq, hr]
    · rfl
  unfold Dealing.after
  cases hconcerns : d.concerns r s with
  | false =>
      rw [deal_of_spared hentry hconcerns, (calm_asked d r s).find?]
      exact hsame
  | true =>
      rw [(calm_deal h hentry hconcerns).find?, if_pos rfl]
      cases (d.answer r s).1 with
      | crashed => exact hsame
      | done weight => exact h.find?_modifyAt_entry? hentry _ other

theorem memory_deal (h : s.selector.Layout) (hr : s.selector.find? name = some r)
    (d : Dealing ω) : (s.deal d name).2.host.memory =
      if d.concerns r s then (d.answer r s).2 else s.host.memory := by
  obtain ⟨place, hentry⟩ := h.find?_eq_some_iff_entry?.1 hr
  split
  · next hconcerns => exact (calm_deal h hentry hconcerns).memory
  · next hspared =>
      rw [deal_of_spared hentry (Bool.not_eq_true _ ▸ hspared)]
      exact (calm_asked d r s).memory

omit [Scalar ω] in
theorem events_ensureChecker (s : System ω) : s.ensureChecker.host.events = s.host.events := by
  unfold ensureChecker
  split
  · rfl
  · rfl

theorem events_checkIfNeeded (r : Resource ω) (weight : ω) (s : System ω) :
    (s.checkIfNeeded r weight).2.host.events = s.host.events := by
  obtain ⟨asked, heq | heq⟩ := s.checkIfNeeded_snd r weight
  · rw [heq]
    rfl
  · rw [heq]
    exact events_ensureChecker (s.asking asked)

/-- The listener is called when the snapshot has been renewed. -/
theorem applyChange_of_change {l : Listener ω} (hl : s.selector.listener = some l) {old new : ω}
    (hchanged : Scalar.same old new = false) (cause : Cause) :
    s.applyChange r old new cause =
      let change : WeightChange ω :=
        ⟨r.name, old, new, r.maxWeight, r.minWeight, r.priority, cause⟩
      let told : System ω :=
        ⟨s.selector.refreshGroup r.priority, { s.host with events := change :: s.host.events }⟩
      if l.crashes s.host.events change then (.crashed, told)
      else told.checkIfNeeded r new := by
  have hlistener : (s.selector.refreshGroup r.priority).listener = some l :=
    (SameChecker.refreshGroup s r.priority).listener.trans hl
  unfold applyChange notify
  rw [hchanged]
  simp only [hlistener, Bool.false_eq_true, if_false]
  split
  · next t hcrashed =>
      split at hcrashed
      · next hcrash =>
          cases hcrashed
          rw [if_pos hcrash]
      · cases hcrashed
  · next t hdone =>
      split at hdone
      · cases hdone
      · next hcrash =>
          cases hdone
          rw [if_neg hcrash]

theorem events_applyChange {l : Listener ω} (hl : s.selector.listener = some l) (old new : ω)
    (cause : Cause) : (s.applyChange r old new cause).2.host.events =
      if Scalar.same old new then s.host.events
      else ⟨r.name, old, new, r.maxWeight, r.minWeight, r.priority, cause⟩ :: s.host.events := by
  cases hchanged : Scalar.same old new with
  | true =>
      unfold applyChange
      rw [if_pos hchanged, if_pos rfl]
      exact events_checkIfNeeded r new s
  | false =>
      rw [applyChange_of_change hl hchanged]
      simp only [Bool.false_eq_true, if_false]
      split
      · rfl
      · exact events_checkIfNeeded r new _

theorem listener_judged (d : Dealing ω) (r : Resource ω) (s : System ω) :
    (d.judged r s).selector.listener = s.selector.listener := by
  cases d with
  | report result => rfl
  | down => rfl
  | probe p => rfl

omit [Scalar ω] in
theorem events_asked (d : Dealing ω) (r : Resource ω) (s : System ω) :
    (d.asked r s).host.events = s.host.events := by
  cases d with
  | report result => rfl
  | down => rfl
  | probe p => rfl

theorem events_judged (d : Dealing ω) (r : Resource ω) (s : System ω) :
    (d.judged r s).host.events = s.host.events := by
  cases d with
  | report result => rfl
  | down => rfl
  | probe p => rfl

/-- The listener is told of a change of the weight, and of nothing else. -/
theorem events_deal [LawfulScalar ω] (h : s.selector.Layout) (hr : s.selector.find? name = some r)
    {l : Listener ω} (hl : s.selector.listener = some l) (d : Dealing ω) :
    (s.deal d name).2.host.events =
      if Scalar.same r.current (d.after r s).current then s.host.events
      else d.change r (d.after r s).current :: s.host.events := by
  obtain ⟨place, hentry⟩ := h.find?_eq_some_iff_entry?.1 hr
  have hself : Scalar.same r.current r.current = true := LawfulScalar.same_iff.2 rfl
  unfold Dealing.after
  cases hconcerns : d.concerns r s with
  | false =>
      rw [deal_of_spared hentry hconcerns, if_neg Bool.false_ne_true, if_pos hself]
      exact events_asked d r s
  | true =>
      rw [deal_eq h hentry hconcerns, if_pos rfl]
      cases (d.answer r s).1 with
      | crashed =>
          rw [if_pos hself]
          exact events_judged d r s
      | done weight =>
          have hlistener := (listener_judged d r s).trans hl
          refine (events_applyChange (s := (d.judged r s).modifyAt place _) hlistener _ _ _).trans ?_
          rw [show ((d.judged r s).modifyAt place _).host.events = _ from events_judged d r s]
          rfl

end System

end ResourceSelection
