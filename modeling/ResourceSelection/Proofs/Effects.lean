import ResourceSelection.Proofs.Registration
import ResourceSelection.Proofs.Selection

/-!
# What a call does to one resource

`step_changes` says what an event can do at most. Here it is said what a call does in fact, seen
through the name of one resource: a report moves the weight of the resource that it names, as the
policy answered, and ends a call there; a resource that is forced down ends a call as well; counting
by hand changes a count. Any other resource is as before.

Most of what a report does after that is to spread the news, to the snapshot, the listener and the
checker. `System.Calm` is the relation between two systems that differ in nothing else, and it holds
across all of that code, crashes of the listener included.
-/

namespace ResourceSelection

variable {ω : Type} [Scalar ω]

/-! ## The policy -/

namespace Policy

/-- The weight proposed after a call, and the memory. -/
def onResult (p : Policy ω) (result : CallResult) (c : Context ω) (m : PolicyMemory) :
    Outcome ω × PolicyMemory :=
  match result with
  | .success => p.onSuccess c m
  | .failure => p.onFail c m

end Policy

theorem System.askPolicy_eq (result : CallResult) (c : Context ω) (s : System ω) :
    s.askPolicy result c = ((s.selector.policy.onResult result c s.host.memory).1,
      { s with host :=
        { s.host with memory := (s.selector.policy.onResult result c s.host.memory).2 } }) := by
  cases result with
  | success => rfl
  | failure => rfl

/-! ## The resource -/

namespace Resource

omit [Scalar ω] in
/-- The resource once a reported call is no longer in flight, where reports count. -/
def finished (tracks : Bool) (r : Resource ω) : Resource ω := if tracks then r.release.2 else r

/-- The resource once a policy has answered to a report. A policy that crashes has not answered,
and the call stays in flight. -/
def answered (answer : Outcome ω) (tracks : Bool) (r : Resource ω) : Resource ω :=
  match answer with
  | .done weight => (r.propose weight).2.finished tracks
  | .crashed => r

end Resource

/-! ## Spreading the news -/

namespace System

/-- The systems agree on the resources and on what the policy remembers. -/
structure Calm (s t : System ω) : Prop where
  states : t.selector.states = s.selector.states
  registry : t.selector.registry = s.selector.registry
  settings : t.selector.settings = s.selector.settings
  policy : t.selector.policy = s.selector.policy
  memory : t.host.memory = s.host.memory

namespace Calm

variable {s t u : System ω}

omit [Scalar ω] in
theorem refl (s : System ω) : s.Calm s := ⟨rfl, rfl, rfl, rfl, rfl⟩

omit [Scalar ω] in
theorem trans (h : s.Calm t) (h' : t.Calm u) : s.Calm u where
  states := h'.states.trans h.states
  registry := h'.registry.trans h.registry
  settings := h'.settings.trans h.settings
  policy := h'.policy.trans h.policy
  memory := h'.memory.trans h.memory

omit [Scalar ω] in
theorem find? (h : s.Calm t) (name : String) : t.selector.find? name = s.selector.find? name := by
  unfold Selector.find? Selector.entry? Selector.place?
  rw [h.states, h.registry]

end Calm

omit [Scalar ω] in
theorem calm_count (s : System ω) (f : Counters → Counters) : s.Calm (s.count f) :=
  ⟨rfl, rfl, rfl, rfl, rfl⟩

omit [Scalar ω] in
theorem calm_ensureChecker (s : System ω) : s.Calm s.ensureChecker := by
  unfold ensureChecker
  split
  · exact .refl s
  · exact ⟨rfl, rfl, rfl, rfl, rfl⟩

omit [Scalar ω] in
theorem calm_close (s : System ω) : s.Calm s.close := by
  unfold close cancelChecker
  split
  · exact .refl s
  · split
    · exact ⟨rfl, rfl, rfl, rfl, rfl⟩
    · exact ⟨rfl, rfl, rfl, rfl, rfl⟩

omit [Scalar ω] in
theorem calm_asking (asked : Tally) (s : System ω) : s.Calm (s.asking asked) :=
  ⟨rfl, rfl, rfl, rfl, rfl⟩

theorem calm_checkIfNeeded (r : Resource ω) (weight : ω) (s : System ω) :
    s.Calm (s.checkIfNeeded r weight).2 := by
  obtain ⟨asked, heq | heq⟩ := s.checkIfNeeded_snd r weight
  · rw [heq]
    exact s.calm_asking asked
  · rw [heq]
    exact (s.calm_asking asked).trans (s.asking asked).calm_ensureChecker

omit [Scalar ω] in
theorem calm_notify (change : WeightChange ω) (s : System ω) : s.Calm (s.notify change).2 := by
  unfold notify
  split
  · exact .refl s
  · exact ⟨rfl, rfl, rfl, rfl, rfl⟩

theorem calm_refreshGroup (priority : Nat) (s : System ω) :
    s.Calm { s with selector := s.selector.refreshGroup priority } := by
  have hframe := s.selector.frame_refreshGroup priority
  exact ⟨s.selector.states_refreshGroup priority, hframe.registry, hframe.settings, hframe.policy,
    rfl⟩

theorem calm_applyChange (r : Resource ω) (old new : ω) (cause : Cause) (s : System ω) :
    s.Calm (s.applyChange r old new cause).2 := by
  unfold applyChange
  split
  · exact s.calm_checkIfNeeded r new
  · refine (s.calm_refreshGroup r.priority).trans ?_
    have hnotify := calm_notify ⟨r.name, old, new, r.maxWeight, r.minWeight, r.priority, cause⟩
      { s with selector := s.selector.refreshGroup r.priority }
    simp only
    split
    · next hcrashed =>
        rw [hcrashed] at hnotify
        exact hnotify
    · next hdone =>
        rw [hdone] at hnotify
        exact hnotify.trans (calm_checkIfNeeded r new _)

theorem calm_finishReport {place : Nat} (f : Resource ω → Resource ω) (r : Resource ω)
    (old new : ω) (cause : Cause) (s : System ω) :
    (s.modifyAt place fun q => (f q).finished s.selector.settings.tracksCalls).Calm
      ((s.modifyAt place f).finishReport place r old new cause).2 := by
  unfold finishReport Resource.finished
  simp only
  have htracks : (s.modifyAt place f).selector.settings.tracksCalls =
      s.selector.settings.tracksCalls := rfl
  rw [htracks]
  split
  · refine Calm.trans ?_ (calm_applyChange r old new cause _)
    simp only [modifyAt, Selector.modifyAt_modifyAt]
    exact .refl _
  · exact calm_applyChange r old new cause _

end System

/-- So is the check that a build schedules. -/
theorem Builder.calm_of_build {b : Builder ω} {id : Nat} {host : Host ω} {s : System ω}
    (h : b.build id host = .ok s) : (System.mk (b.toSelector id) host).Calm s := by
  have hasked (asked : Tally) := System.calm_asking asked ⟨b.toSelector id, host⟩
  obtain ⟨-, asked, rfl | ⟨rfl, -⟩⟩ := build_cases h
  · exact (hasked asked).trans (System.calm_ensureChecker _)
  · exact hasked asked

/-! ## Names -/

namespace Selector

omit [Scalar ω] in
theorem Layout.find?_eq_some_iff_entry? {s : Selector ω} (h : s.Layout) {name : String}
    {r : Resource ω} : s.find? name = some r ↔ ∃ place, s.entry? name = some (place, r) := by
  simp only [h.find?_eq_some, h.entry?_eq_some]

omit [Scalar ω] in
theorem Layout.find?_eq_none_iff {s : Selector ω} (h : s.Layout) {name : String} :
    s.find? name = none ↔ s.place? name = none := by
  rw [← Option.not_isSome_iff_eq_none, ← Option.not_isSome_iff_eq_none, ← h.isSome_statusOf,
    statusOf, Option.isSome_map]

omit [Scalar ω] in
theorem Layout.name_of_find? {s : Selector ω} (h : s.Layout) {name : String} {r : Resource ω}
    (hr : s.find? name = some r) : r.name = name :=
  (h.mem_of_find? hr).2

/-- A registration shows under its own name only. -/
theorem find?_register {s : Selector ω} (h : s.Layout) {name : String} (weight : ω)
    (hnew : s.place? name = none) (other : String) : (s.register name weight).find? other =
      if other = name then some (s.newcomer name weight) else s.find? other := by
  have hlayout := h.register weight hnew
  split
  · next heq =>
      subst heq
      refine hlayout.find?_eq_some.2 ⟨s.states.length, ?_, rfl⟩
      rw [states_register, List.getElem?_append_right (Nat.le_refl _), Nat.sub_self]
      rfl
  · next hne =>
      unfold find? entry?
      rw [place?_register, if_neg hne]
      cases hplace : s.place? other with
      | none => rfl
      | some place =>
          obtain ⟨r, hr, -⟩ := h.registered.1 hplace
          have hlt := (List.getElem?_eq_some_iff.1 hr).1
          rw [Option.bind_some, Option.bind_some, states_register,
            List.getElem?_append_left hlt]

omit [Scalar ω] in
/-- A change of the state under a name shows under that name only. -/
theorem Layout.find?_modifyAt_entry? {s : Selector ω} (h : s.Layout) {name : String} {place : Nat}
    {r : Resource ω} (hentry : s.entry? name = some (place, r)) (f : Resource ω → Resource ω)
    (other : String) : (s.modifyAt place f).find? other =
      if other = name then some (f r) else s.find? other := by
  obtain ⟨hstate, hname⟩ := h.entry?_eq_some.1 hentry
  rw [h.find?_modifyAt hstate f other, hname]
  split
  · next heq =>
      subst heq
      rw [h.find?_eq_some.2 ⟨place, hstate, hname⟩, Option.map_some, if_pos rfl]
  · next hne =>
      simp only [Ne.symm hne, if_false]
      exact Option.map_id'

end Selector

/-- A selector that has just been built finds the declared resources, as they are declared. -/
theorem Builder.find?_of_build {b : Builder ω} {id : Nat} {host : Host ω} {s : System ω}
    (h : b.build id host = .ok s) (name : String) : s.selector.find? name =
      (b.resources.lookup name).map fun d =>
        Resource.ofDeclaration name d b.settings.countsCalls := by
  obtain ⟨hvalid, -⟩ := b.changes_of_build h
  have hlayout := layout_toSelector (nodup_names hvalid) id
  rw [(calm_of_build h).find?]
  ext r
  rw [hlayout.find?_eq_some, Option.map_eq_some_iff]
  constructor
  · rintro ⟨place, hplace, rfl⟩
    obtain ⟨entry, hentry, rfl⟩ := mem_states_toSelector (List.mem_of_getElem? hplace)
    exact ⟨entry.2, lookup_resources (nodup_names hvalid) hentry, rfl⟩
  · rintro ⟨d, hd, rfl⟩
    obtain ⟨before, after, heq, -⟩ := List.lookup_eq_some_iff.1 hd
    have hmem : (name, d) ∈ b.resources := by simp [heq]
    obtain ⟨place, hplace⟩ := List.mem_iff_getElem?.1 hmem
    refine ⟨place, ?_, rfl⟩
    rw [states_toSelector, hplace, Option.map_some]

/-- A declared resource can always be found. -/
theorem Builder.Reaches.exists_find? [LawfulScalar ω] {b : Builder ω} {s : System ω}
    (h : b.Reaches s) {name : String} (hname : name ∈ b.resources.map (·.1)) :
    ∃ r, s.selector.find? name = some r := by
  have hknown := h.bounded.known hname
  rw [ne_eq, ← h.layout.find?_eq_none_iff] at hknown
  exact Option.ne_none_iff_exists'.1 hknown

/-! ## Calls -/

namespace System

/-- The system once the policy has answered to a report on the resource at a place. -/
def answered (result : CallResult) (place : Nat) (r : Resource ω) (s : System ω) : System ω :=
  let answer := s.selector.policy.onResult result r.context s.host.memory
  { selector := s.selector.modifyAt place
      (Resource.answered answer.1 s.selector.settings.tracksCalls)
    host := { s.host with memory := answer.2 } }

/-- All that comes after the answer is news. -/
theorem calm_report {s : System ω} {name : String} {place : Nat} {r : Resource ω}
    (hentry : s.selector.entry? name = some (place, r)) (result : CallResult) :
    (s.answered result place r).Calm (s.report result name).2 := by
  have hplace : (s.count result.count).selector.place? name = some place :=
    Selector.place?_of_entry? (s := s.selector) hentry
  have hstate : (s.count result.count).selector.states[place]? = some r :=
    Selector.states_of_entry? (s := s.selector) hentry
  have hanswer : (s.count result.count).selector.policy.onResult result r.context
      (s.count result.count).host.memory =
      s.selector.policy.onResult result r.context s.host.memory := rfl
  unfold report knowing? answered
  simp only [hplace, hstate, askPolicy_eq, hanswer]
  cases (s.selector.policy.onResult result r.context s.host.memory).1 with
  | crashed => exact ⟨(List.modify_id _ _).symm, rfl, rfl, rfl, rfl⟩
  | done weight =>
      refine Calm.trans ?_ (calm_finishReport (fun q => (q.propose weight).2) r _ _ result.cause _)
      exact ⟨rfl, rfl, rfl, rfl, rfl⟩

/-- A report on an unknown name is a report on the newcomer, if there is a weight for it. -/
theorem report_eq_register {s : System ω} {name : String} {weight : ω}
    (hnew : s.selector.place? name = none) (hauto : s.selector.settings.autoAddWeight = some weight)
    (result : CallResult) : s.report result name = (s.register name weight).report result name := by
  have hplace : (s.count result.count).selector.place? name = none := hnew
  have hweight : (s.count result.count).selector.settings.autoAddWeight = some weight := hauto
  have hknown : ((s.register name weight).count result.count).selector.place? name =
      some s.selector.states.length := by
    refine (Selector.place?_register name name weight s.selector).trans ?_
    rw [if_pos rfl]
  unfold report knowing?
  simp only [hplace, hweight, hknown, Option.map_some]
  rfl

/-- Nothing comes of a report on a name that is not and cannot be known. -/
theorem calm_report_of_unknown {s : System ω} {name : String}
    (hnew : s.selector.place? name = none) (hauto : s.selector.settings.autoAddWeight = none)
    (result : CallResult) : s.Calm (s.report result name).2 := by
  have hplace : (s.count result.count).selector.place? name = none := hnew
  have hweight : (s.count result.count).selector.settings.autoAddWeight = none := hauto
  unfold report knowing?
  simp only [hplace, hweight, Option.map_none]
  exact s.calm_count result.count

theorem calm_down {s : System ω} {name : String} {place : Nat} {r : Resource ω}
    (hentry : s.selector.entry? name = some (place, r)) :
    (s.modifyAt place fun q => q.forceDown.2.finished s.selector.settings.tracksCalls).Calm
      (s.down name).2 := by
  have hcounted : (s.count fun c => { c with downs := c.downs + 1 }).selector.entry? name =
      some (place, r) := hentry
  unfold down
  simp only [hcounted]
  refine Calm.trans ?_ (calm_finishReport (fun q => q.forceDown.2) r _ _ .down _)
  exact ⟨rfl, rfl, rfl, rfl, rfl⟩

theorem calm_down_of_unknown {s : System ω} {name : String} (hnew : s.selector.entry? name = none) :
    s.Calm (s.down name).2 := by
  have hcounted : (s.count fun c => { c with downs := c.downs + 1 }).selector.entry? name = none :=
    hnew
  unfold down
  simp only [hcounted]
  exact s.calm_count _

/-! ## What is found afterwards -/

variable {s : System ω}

theorem find?_report (h : s.selector.Layout) {name : String} {r : Resource ω}
    (hr : s.selector.find? name = some r) (result : CallResult) (other : String) :
    (s.report result name).2.selector.find? other =
      if other = name then some (r.answered
        (s.selector.policy.onResult result r.context s.host.memory).1
        s.selector.settings.tracksCalls)
      else s.selector.find? other := by
  obtain ⟨place, hentry⟩ := h.find?_eq_some_iff_entry?.1 hr
  rw [(calm_report hentry result).find?]
  exact h.find?_modifyAt_entry? hentry _ other

theorem memory_report (h : s.selector.Layout) {name : String} {r : Resource ω}
    (hr : s.selector.find? name = some r) (result : CallResult) :
    (s.report result name).2.host.memory =
      (s.selector.policy.onResult result r.context s.host.memory).2 := by
  obtain ⟨place, hentry⟩ := h.find?_eq_some_iff_entry?.1 hr
  exact (calm_report hentry result).memory

theorem find?_down (h : s.selector.Layout) {name : String} {r : Resource ω}
    (hr : s.selector.find? name = some r) (other : String) :
    (s.down name).2.selector.find? other =
      if other = name then some (r.forceDown.2.finished s.selector.settings.tracksCalls)
      else s.selector.find? other := by
  obtain ⟨place, hentry⟩ := h.find?_eq_some_iff_entry?.1 hr
  rw [(calm_down hentry).find?]
  exact h.find?_modifyAt_entry? hentry _ other

omit [Scalar ω] in
theorem find?_onState (h : s.selector.Layout) (f : Resource ω → Bool × Resource ω)
    (name other : String) : (s.onState name f).2.selector.find? other =
      (s.selector.find? other).map fun r => if other = name then (f r).2 else r := by
  unfold onState
  split
  · next place r hentry =>
      refine (h.find?_modifyAt_entry? hentry _ other).trans ?_
      split
      · next heq =>
          subst heq
          rw [h.find?_eq_some_iff_entry?.2 ⟨place, hentry⟩, Option.map_some]
      · exact Option.map_id'.symm
  · next hnone =>
      have hfind : s.selector.find? name = none := by
        unfold Selector.find?
        rw [hnone]
        rfl
      split
      · next heq =>
          subst heq
          rw [hfind]
          rfl
      · exact Option.map_id'.symm

omit [Scalar ω] in
theorem host_onState (f : Resource ω → Bool × Resource ω) (name : String) (s : System ω) :
    (s.onState name f).2.host = s.host := by
  unfold onState
  split
  · rfl
  · rfl

theorem host_of_tryGroups {exclude : Option (List String)} {order : List Nat} {s t : System ω}
    {picked : Option Nat} (h : tryGroups exclude order s = (picked, t)) :
    ∃ rng, t.host = { s.host with rng } := by
  induction order generalizing s with
  | nil =>
      cases h
      exact ⟨_, rfl⟩
  | cons index rest ih =>
      unfold tryGroups at h
      split at h
      · exact ih h
      · simp only at h
        split at h
        · cases h
          exact ⟨_, rfl⟩
        · obtain ⟨rng, hrest⟩ := ih h
          exact ⟨rng, hrest⟩

/-- A selection draws random numbers and leaves the rest of the host alone. -/
theorem host_selectWith (exclude : Option (List String)) (s : System ω) :
    ∃ rng, (s.selectWith exclude).2.host = { s.host with rng } := by
  unfold selectWith
  simp only
  split
  · next place t htry =>
      obtain ⟨rng, hhost⟩ := host_of_tryGroups htry
      refine ⟨rng, ?_⟩
      split
      · exact hhost
      · exact hhost
  · next t htry =>
      obtain ⟨rng, hhost⟩ := host_of_tryGroups htry
      exact ⟨rng, hhost⟩

variable [LawfulScalar ω]

/-- A selection changes a count of calls in flight and nothing else that can be found. -/
theorem find?_selectWith (h : s.selector.Ready) (exclude : Option (List String))
    (name : String) : (s.selectWith exclude).2.selector.find? name =
      (s.selector.find? name).map fun r =>
        if (s.selectWith exclude).1 = some name ∧ s.selector.settings.tracksCalls then r.acquire.2
        else r := by
  rcases selectWith_cases h exclude with
    ⟨place, r, t, hr, -, hturned, hpicked, hselector⟩ | ⟨t, -, hturned, hpicked, hselector⟩
  · rw [hselector, hpicked]
    simp only [Option.some.injEq, hturned.settings]
    split
    · next htracks =>
        rw [hturned.rest]
        simp only [htracks, and_true]
        exact h.layout.find?_modifyAt hr _ name
    · next htracks =>
        simp only [htracks, Bool.false_eq_true, and_false, if_false]
        exact (hturned.find? name).trans Option.map_id'.symm
  · rw [hselector, hpicked]
    simp only [reduceCtorEq, false_and, if_false]
    exact (hturned.find? name).trans Option.map_id'.symm

theorem exists_of_selectWith (h : s.selector.Ready) {exclude : Option (List String)}
    {name : String} (hpicked : (s.selectWith exclude).1 = some name) :
    ∃ r, s.selector.find? name = some r := by
  rcases selectWith_cases h exclude with ⟨place, r, -, hr, -, -, hname, -⟩ | ⟨-, -, -, hnone, -⟩
  · obtain rfl : r.name = name := Option.some.inj (hname.symm.trans hpicked)
    exact ⟨r, h.layout.find?_eq_some.2 ⟨place, hr, rfl⟩⟩
  · rw [hnone] at hpicked
    exact nomatch hpicked

end System

end ResourceSelection
