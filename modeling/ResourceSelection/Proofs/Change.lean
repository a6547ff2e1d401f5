import Mathlib.Logic.Relation
import ResourceSelection.Proofs.Asking
import ResourceSelection.Proofs.Order
import ResourceSelection.Selector.Run

/-!
# What an event can do to a selector

A selection, a report, a check pass and a tick run different code, and all of it comes down to four
elementary changes of a selector. A change is idle when it concerns neither states nor groups; it
may move a group's count of turns; it may touch one state and keep its weight; and it may touch the
weight of one state, and then it renews the snapshot of that state's group as well. The last pairing
is the reason for this file: nothing changes a weight and leaves the snapshot alone.

Besides, a report on an unknown name may register it first. `step_changes` says that this is all:
every event is an enrolment followed by changes. What is to hold of all reachable selectors has to
be shown of these five, and of no operation.
-/

namespace ResourceSelection

variable {ω : Type} [Scalar ω]

/-! ## One resource -/

namespace Resource

/-- The weight lies between the bounds. -/
def Within (r : Resource ω) : Prop := r.minWeight ≤ r.current ∧ r.current ≤ r.maxWeight

/-- The weight has a seat between the bounds. -/
def Seated (r : Resource ω) : Prop := Scalar.Seated r.minWeight r.maxWeight r.current

/-- What an operation may make of a resource: the weight may be another one, though not one outside
the bounds, or without a seat between them, if it was not so before, and so may the number of calls
in flight. -/
structure Kept (r t : Resource ω) : Prop where
  name : t.name = r.name
  maxWeight : t.maxWeight = r.maxWeight
  minWeight : t.minWeight = r.minWeight
  priority : t.priority = r.priority
  countsCalls : t.inFlight.isSome = r.inFlight.isSome
  within : r.Within → t.Within
  seated : r.Within → r.Seated → t.Seated

namespace Kept

theorem refl (r : Resource ω) : r.Kept r := ⟨rfl, rfl, rfl, rfl, rfl, id, fun _ => id⟩

theorem trans {r s t : Resource ω} (h : r.Kept s) (h' : s.Kept t) : r.Kept t where
  name := h'.name.trans h.name
  maxWeight := h'.maxWeight.trans h.maxWeight
  minWeight := h'.minWeight.trans h.minWeight
  priority := h'.priority.trans h.priority
  countsCalls := h'.countsCalls.trans h.countsCalls
  within := h'.within ∘ h.within
  seated hwithin hseated := h'.seated (h.within hwithin) (h.seated hwithin hseated)

end Kept

theorem kept_acquire (r : Resource ω) : r.Kept r.acquire.2 :=
  ⟨rfl, rfl, rfl, rfl, by simp [acquire], id, fun _ => id⟩

theorem kept_release (r : Resource ω) : r.Kept r.release.2 :=
  ⟨rfl, rfl, rfl, rfl, by simp [release], id, fun _ => id⟩

section

variable [LawfulScalar ω]

theorem seated_clampWeight {r : Resource ω} (hwithin : r.Within)
    (hseated : r.Seated) (weight : ω) : Scalar.Seated r.minWeight r.maxWeight
      (clampWeight weight r.current r.minWeight r.maxWeight) := by
  unfold clampWeight
  split
  · exact hseated
  · exact Scalar.seated_brought (Scalar.isNaN_left hwithin.1) (Scalar.isNaN_right hwithin.2) weight

theorem kept_propose (r : Resource ω) (weight : ω) : r.Kept (r.propose weight).2 := by
  simp only [propose]
  split
  · exact .refl r
  · refine ⟨rfl, rfl, rfl, rfl, rfl, fun h => clampWeight_within h.1 h.2, fun h hseated => ?_⟩
    exact seated_clampWeight h hseated weight

theorem kept_forceDown (r : Resource ω) : r.Kept r.forceDown.2 where
  name := rfl
  maxWeight := rfl
  minWeight := rfl
  priority := rfl
  countsCalls := rfl
  within h := ⟨Scalar.le_refl (Scalar.isNaN_left h.1), Scalar.le_trans h.1 h.2⟩
  seated _ _ := .inl rfl

omit [LawfulScalar ω] in
/-- A proposal reports the weight before it and the weight after it. -/
theorem propose_fst (r : Resource ω) (weight : ω) :
    (r.propose weight).1 = (r.current, (r.propose weight).2.current) := by
  simp only [propose]
  split
  · rfl
  · rfl

end

end Resource

/-! ## One selector -/

namespace Selector

/-- The selector in which a name is registered, if the settings have a weight for it. -/
def enrol (name : String) (s : Selector ω) : Selector ω :=
  match s.place? name, s.settings.autoAddWeight with
  | none, some weight => s.register name weight
  | _, _ => s

theorem enrol_cases (name : String) (s : Selector ω) :
    s.enrol name = s ∨ ∃ weight, s.place? name = none ∧
      s.settings.autoAddWeight = some weight ∧ s.enrol name = s.register name weight := by
  unfold enrol
  split
  · next weight hnew hauto => exact .inr ⟨weight, hnew, hauto, rfl⟩
  · exact .inl rfl

/-- The elementary changes. -/
inductive Change : Selector ω → Selector ω → Prop
  /-- Neither a state nor a group changes. -/
  | idle (s : Selector ω) (counters : Counters) (checker : Option Handle) (closed : Bool) :
      Change s { s with counters, checker, closed }
  /-- The turns of a group move on. -/
  | turn (s : Selector ω) (index : Nat) (cursor : UInt64) : Change s (s.turnTo index cursor)
  /-- A state changes in something other than its weight. -/
  | touch (s : Selector ω) (place : Nat) {f : Resource ω → Resource ω}
      (kept : ∀ r, Resource.Kept r (f r))
      (same : ∀ r, s.states[place]? = some r → (f r).current = r.current) :
      Change s (s.modifyAt place f)
  /-- A weight changes, and the snapshot of its group is renewed. -/
  | weigh (s : Selector ω) (place : Nat) {f : Resource ω → Resource ω} {r : Resource ω}
      (kept : ∀ r, Resource.Kept r (f r)) (found : s.states[place]? = some r) :
      Change s ((s.modifyAt place f).refreshGroup r.priority)

/-- Any number of elementary changes. -/
def Changes : Selector ω → Selector ω → Prop := Relation.ReflTransGen Change

theorem Changes.refl (s : Selector ω) : s.Changes s := Relation.ReflTransGen.refl

theorem Changes.trans {s t u : Selector ω} (h : s.Changes t) (h' : t.Changes u) : s.Changes u :=
  Relation.ReflTransGen.trans h h'

theorem Change.changes {s t : Selector ω} (h : s.Change t) : s.Changes t :=
  Relation.ReflTransGen.single h

/-- What every change preserves, any number of them does. -/
theorem Changes.induct {P : Selector ω → Prop} (hP : ∀ {s t}, Change s t → P s → P t)
    {s t : Selector ω} (h : s.Changes t) (hs : P s) : P t := by
  induction h with
  | refl => exact hs
  | tail _ hc ih => exact hP hc ih

omit [Scalar ω] in
/-- Two changes of one state are one. -/
theorem modifyAt_modifyAt (s : Selector ω) (place : Nat) (f g : Resource ω → Resource ω) :
    (s.modifyAt place f).modifyAt place g = s.modifyAt place (g ∘ f) := by
  simp only [modifyAt, List.modify_modify_eq]

omit [Scalar ω] in
theorem states_of_entry? {s : Selector ω} {name : String} {place : Nat} {r : Resource ω}
    (h : s.entry? name = some (place, r)) : s.states[place]? = some r := by
  obtain ⟨i, -, hi⟩ := Option.bind_eq_some_iff.1 h
  obtain ⟨t, ht, heq⟩ := Option.map_eq_some_iff.1 hi
  cases heq
  exact ht

omit [Scalar ω] in
theorem place?_of_entry? {s : Selector ω} {name : String} {place : Nat} {r : Resource ω}
    (h : s.entry? name = some (place, r)) : s.place? name = some place := by
  obtain ⟨i, hi, hmap⟩ := Option.bind_eq_some_iff.1 h
  obtain ⟨t, -, heq⟩ := Option.map_eq_some_iff.1 hmap
  cases heq
  exact hi

end Selector

/-! ## Tasks -/

namespace ManualExecutor

variable {τ σ : Type}

/-- What every single run of a task preserves, running any number of them does. -/
theorem runAll_induct {P : σ → Prop}
    {run : τ → ManualExecutor τ × σ → (Verdict × τ) × ManualExecutor τ × σ}
    (hrun : ∀ task x s, P s → P (run task (x, s)).2.2) (entries : List (Handle × τ))
    (x : ManualExecutor τ) (s : σ) (hs : P s) : P (runAll run entries (x, s)).2.2.2 := by
  induction entries generalizing x s with
  | nil => exact hs
  | cons entry rest ih =>
      obtain ⟨handle, task⟩ := entry
      unfold runAll
      split
      · exact ih x s hs
      · simp only
        split
        · exact ih _ _ (hrun task x s hs)
        · exact ih _ _ (hrun task x s hs)

theorem tick_induct {P : σ → Prop}
    {run : τ → ManualExecutor τ × σ → (Verdict × τ) × ManualExecutor τ × σ}
    (hrun : ∀ task x s, P s → P (run task (x, s)).2.2) (x : ManualExecutor τ) (s : σ) (hs : P s) :
    P (tick run (x, s)).2.2 :=
  runAll_induct hrun x.entries { x with entries := [] } s hs

end ManualExecutor

/-! ## One operation after the other -/

namespace System

open Selector (Change Changes)

theorem changes_count (s : System ω) (f : Counters → Counters) :
    s.selector.Changes (s.count f).selector :=
  (Change.idle s.selector _ s.selector.checker s.selector.closed).changes

theorem changes_ensureChecker (s : System ω) : s.selector.Changes s.ensureChecker.selector := by
  unfold ensureChecker
  split
  · exact .refl _
  · exact (Change.idle s.selector s.selector.counters _ s.selector.closed).changes

theorem changes_close (s : System ω) : s.selector.Changes s.close.selector := by
  unfold close cancelChecker
  split
  · exact .refl _
  · split
    · exact (Change.idle s.selector s.selector.counters _ _).changes
    · exact (Change.idle s.selector s.selector.counters s.selector.checker _).changes

theorem changes_checkIfNeeded (r : Resource ω) (weight : ω) (s : System ω) :
    s.selector.Changes (s.checkIfNeeded r weight).2.selector := by
  obtain ⟨asked, heq | heq⟩ := s.checkIfNeeded_snd r weight
  · rw [heq]
    exact .refl _
  · rw [heq]
    exact (s.asking asked).changes_ensureChecker

omit [Scalar ω] in
theorem selector_notify {change : WeightChange ω} {s s' : System ω} {outcome : Outcome Unit}
    (h : s.notify change = (outcome, s')) : s'.selector = s.selector := by
  unfold notify at h
  split at h
  · cases h
    rfl
  · cases h
    rfl

theorem selector_askPolicy {result : CallResult} {c : Context ω} {s s' : System ω}
    {outcome : Outcome ω} (h : s.askPolicy result c = (outcome, s')) :
    s'.selector = s.selector := by
  unfold askPolicy at h
  cases h
  rfl

variable [LawfulScalar ω]

/-- Once a state has changed, making the transition known completes the change: the snapshot is
renewed if and only if the weight is another one. -/
theorem changes_applyChange {old : Selector ω} {place : Nat} {f : Resource ω → Resource ω}
    {r : Resource ω} {s : System ω} (kept : ∀ r, Resource.Kept r (f r))
    (found : old.states[place]? = some r) (hs : s.selector = old.modifyAt place f) (cause : Cause) :
    old.Changes (s.applyChange r r.current (f r).current cause).2.selector := by
  unfold applyChange
  split
  · next hsame =>
      have hcurrent : (f r).current = r.current := (LawfulScalar.same_iff.1 hsame).symm
      have htouch : old.Changes s.selector := by
        rw [hs]
        refine (Change.touch old place kept fun t ht => ?_).changes
        obtain rfl : r = t := Option.some.inj (found.symm.trans ht)
        exact hcurrent
      exact htouch.trans (s.changes_checkIfNeeded r _)
  · have hweigh : old.Changes (s.selector.refreshGroup r.priority) := by
      rw [hs]
      exact (Change.weigh old place kept found).changes
    simp only
    split
    · next hnotify =>
        rw [selector_notify hnotify]
        exact hweigh
    · next s' hnotify =>
        refine Changes.trans ?_ (s'.changes_checkIfNeeded r _)
        rw [selector_notify hnotify]
        exact hweigh

theorem changes_finishReport {old : Selector ω} {place : Nat} {f : Resource ω → Resource ω}
    {r : Resource ω} {s : System ω} (kept : ∀ r, Resource.Kept r (f r))
    (found : old.states[place]? = some r) (hs : s.selector = old.modifyAt place f) (cause : Cause) :
    old.Changes (s.finishReport place r r.current (f r).current cause).2.selector := by
  unfold finishReport
  split
  · -- the call ends between the change of the weight and its snapshot: both are one change
    refine changes_applyChange (f := fun r => (f r).release.2)
      (fun r => (kept r).trans (Resource.kept_release _)) found ?_ cause
    simp only [modifyAt, hs, Selector.modifyAt_modifyAt]
    rfl
  · exact changes_applyChange kept found hs cause

/-! ## The calls -/

/-- Proposing a weight to a resource and making it known is a change of its state. -/
theorem changes_propose_applyChange {s : System ω} {place : Nat} {r : Resource ω}
    (found : s.selector.states[place]? = some r) (weight : ω) (cause : Cause) :
    s.selector.Changes ((s.propose place r weight).2.applyChange r
      (r.propose weight).1.1 (r.propose weight).1.2 cause).2.selector := by
  rw [Resource.propose_fst]
  exact changes_applyChange (fun r => r.kept_propose weight) found rfl cause

/-- So is proposing a weight and ending the report. -/
theorem changes_propose_finishReport {s : System ω} {place : Nat} {r : Resource ω}
    (found : s.selector.states[place]? = some r) (weight : ω) (cause : Cause) :
    s.selector.Changes ((s.propose place r weight).2.finishReport place r
      (r.propose weight).1.1 (r.propose weight).1.2 cause).2.selector := by
  rw [Resource.propose_fst]
  exact changes_finishReport (fun r => r.kept_propose weight) found rfl cause

omit [LawfulScalar ω] in
/-- Counting a report and enrolling the name go in any order. -/
theorem changes_enrol_count (name : String) (f : Counters → Counters) (s : System ω) :
    (s.selector.enrol name).Changes ((s.count f).selector.enrol name) := by
  have hidle := (Change.idle (s.selector.enrol name) (f s.selector.counters)
    (s.selector.enrol name).checker (s.selector.enrol name).closed).changes
  suffices h : (s.count f).selector.enrol name =
      { s.selector.enrol name with counters := f s.selector.counters } by
    rw [h]
    exact hidle
  have hplace : (s.count f).selector.place? name = s.selector.place? name := rfl
  have hauto : (s.count f).selector.settings.autoAddWeight =
      s.selector.settings.autoAddWeight := rfl
  unfold Selector.enrol
  rw [hplace, hauto]
  split
  · rfl
  · rfl

omit [LawfulScalar ω] in
theorem selector_knowing? {name : String} {place : Nat} {s s' : System ω}
    (h : s.knowing? name = some (place, s')) : s'.selector = s.selector.enrol name := by
  unfold knowing? at h
  unfold Selector.enrol
  split at h
  · next hplace =>
      rw [hplace]
      cases h
      rfl
  · next hplace =>
      obtain ⟨weight, hauto, heq⟩ := Option.map_eq_some_iff.1 h
      rw [hplace, hauto]
      cases heq
      rfl

omit [LawfulScalar ω] in
theorem enrol_of_knowing?_eq_none {name : String} {s : System ω} (h : s.knowing? name = none) :
    s.selector.enrol name = s.selector := by
  unfold knowing? at h
  unfold Selector.enrol
  split at h
  · exact absurd h (Option.some_ne_none _)
  · next hplace => rw [hplace, Option.map_eq_none_iff.1 h]

/-- A report on a name is what happens to the selector in which the name has been enrolled. -/
theorem changes_report (result : CallResult) (name : String) (s : System ω) :
    (s.selector.enrol name).Changes (s.report result name).2.selector := by
  refine (s.changes_enrol_count name result.count).trans ?_
  unfold report
  simp only
  split
  · next hnone =>
      rw [enrol_of_knowing?_eq_none hnone]
      exact .refl _
  · next place s' hsome =>
      rw [← selector_knowing? hsome]
      split
      · exact .refl _
      · next r found =>
          split
          · next hask =>
              rw [selector_askPolicy hask]
              exact .refl _
          · next weight s'' hask =>
              rw [← selector_askPolicy hask] at found ⊢
              exact changes_propose_finishReport found weight result.cause

theorem changes_down (name : String) (s : System ω) :
    s.selector.Changes (s.down name).2.selector := by
  refine (s.changes_count fun c => { c with downs := c.downs + 1 }).trans ?_
  unfold down
  simp only
  split
  · exact .refl _
  · next place r hentry =>
      exact changes_finishReport Resource.kept_forceDown (Selector.states_of_entry? hentry) rfl .down

omit [LawfulScalar ω] in
theorem changes_onState {name : String} {f : Resource ω → Bool × Resource ω}
    (kept : ∀ r, Resource.Kept r (f r).2) (same : ∀ r, (f r).2.current = r.current)
    (s : System ω) : s.selector.Changes (s.onState name f).2.selector := by
  unfold onState
  split
  · next place r _ =>
      exact (Change.touch s.selector place kept fun t _ => same t).changes
  · exact .refl _

omit [LawfulScalar ω] in
theorem changes_acquire (name : String) (s : System ω) :
    s.selector.Changes (s.acquire name).2.selector :=
  s.changes_onState Resource.kept_acquire fun _ => rfl

omit [LawfulScalar ω] in
theorem changes_release (name : String) (s : System ω) :
    s.selector.Changes (s.release name).2.selector :=
  s.changes_onState Resource.kept_release fun _ => rfl

omit [LawfulScalar ω] in
/-- Trying groups moves on the turns of some of them. -/
theorem changes_tryGroups (exclude : Option (List String)) (order : List Nat) (s : System ω) :
    s.selector.Changes (tryGroups exclude order s).2.selector := by
  induction order generalizing s with
  | nil => exact .refl _
  | cons index rest ih =>
      unfold tryGroups
      split
      · exact ih s
      · next p _ =>
          simp only
          split
          · exact (Change.turn s.selector index _).changes
          · refine Changes.trans ?_ (ih _)
            exact (Change.turn s.selector index _).changes

omit [LawfulScalar ω] in
theorem changes_of_tryGroups {exclude : Option (List String)} {order : List Nat}
    {s s' : System ω} {picked : Option Nat} (h : tryGroups exclude order s = (picked, s')) :
    s.selector.Changes s'.selector := by
  have hchanges := changes_tryGroups exclude order s
  rwa [h] at hchanges

omit [LawfulScalar ω] in
theorem changes_selectWith (exclude : Option (List String)) (s : System ω) :
    s.selector.Changes (s.selectWith exclude).2.selector := by
  unfold selectWith
  simp only
  split
  · next place s' htry =>
      refine (changes_of_tryGroups htry).trans (Changes.trans ?_ (changes_count _ _))
      split
      · exact (Change.touch s'.selector place Resource.kept_acquire fun _ _ => rfl).changes
      · exact .refl _
  · next s' htry => exact (changes_of_tryGroups htry).trans (changes_count _ _)

/-! ## Checks -/

omit [LawfulScalar ω] in
theorem changes_of_proposalFor {rate : ω} {r : Resource ω} {s s' : System ω} {outcome : Outcome ω}
    (h : s.proposalFor rate r = (outcome, s')) :
    ∃ counters, s'.selector = { s.selector with counters } := by
  unfold proposalFor at h
  split at h
  · cases h
    exact ⟨s.selector.counters, rfl⟩
  · have hsel := selector_askPolicy h
    exact ⟨_, hsel⟩

theorem changes_probeResource {s : System ω} {place : Nat} {r : Resource ω}
    (found : s.selector.states[place]? = some r) (probe : Probe ω) (name : String) :
    s.selector.Changes (s.probeResource probe name place r).2.selector := by
  unfold probeResource
  simp only
  split
  · next s' hproposal =>
      obtain ⟨counters, hs'⟩ := changes_of_proposalFor hproposal
      rw [hs']
      exact (Change.idle s.selector counters s.selector.checker s.selector.closed).changes
  · next weight s' hproposal =>
      obtain ⟨counters, hs'⟩ := changes_of_proposalFor hproposal
      have hidle : s.selector.Changes s'.selector := by
        rw [hs']
        exact (Change.idle s.selector counters s.selector.checker s.selector.closed).changes
      have found' : s'.selector.states[place]? = some r := by
        rw [hs']
        exact found
      exact hidle.trans (changes_propose_applyChange found' weight .healthCheck)

theorem changes_checkResource (probe : Probe ω) (name : String) (s : System ω) :
    s.selector.Changes (s.checkResource probe name).2.selector := by
  obtain ⟨asked, heq | ⟨place, r, hentry, heq⟩⟩ := s.checkResource_snd probe name
  · rw [heq]
    exact .refl _
  · rw [heq]
    exact changes_probeResource (s := s.asking asked) (Selector.states_of_entry? hentry) probe name

theorem changes_checkEach (probe : Probe ω) (order : List String) (s : System ω) :
    s.selector.Changes (s.checkEach probe order).2.selector := by
  induction order generalizing s with
  | nil => exact .refl _
  | cons name rest ih =>
      unfold checkEach
      exact (s.changes_checkResource probe name).trans (ih _)

theorem changes_checkIn (order : List String) (s : System ω) :
    s.selector.Changes (s.checkIn order).2.selector := by
  unfold checkIn
  split
  · exact .refl _
  · next probe _ => exact s.changes_checkEach probe order

theorem changes_runCheck (id : Nat) (x : ManualExecutor Nat) (s : System ω) :
    s.selector.Changes (runCheck id (x, s)).2.2.selector := by
  unfold runCheck
  simp only
  split
  · exact changes_checkIn _ { s with host := { s.host with executor := x } }
  · exact .refl _

theorem changes_tick (s : System ω) : s.selector.Changes s.tick.2.selector := by
  unfold tick
  exact ManualExecutor.tick_induct (P := fun t => s.selector.Changes t.selector)
    (fun id x t ht => ht.trans (t.changes_runCheck id x)) s.host.executor s (.refl _)

/-! ## Events -/

end System

/-- The selector that an event finds, once a reported name has been enrolled. -/
def Event.enrols (e : Event ω) (s : Selector ω) : Selector ω :=
  match e with
  | .call (.report _ name) => s.enrol name
  | _ => s

theorem Event.enrols_cases (e : Event ω) (s : Selector ω) :
    e.enrols s = s ∨ ∃ name weight, s.place? name = none ∧
      s.settings.autoAddWeight = some weight ∧ e.enrols s = s.register name weight := by
  unfold Event.enrols
  split
  · next name =>
      rcases s.enrol_cases name with heq | ⟨weight, hregistered⟩
      · exact .inl heq
      · exact .inr ⟨name, weight, hregistered⟩
  · exact .inl rfl

namespace System

/-- Every event is an enrolment, if it is a report, and elementary changes. -/
theorem step_changes [LawfulScalar ω] (e : Event ω) (s : System ω) :
    (e.enrols s.selector).Changes (s.step e).selector := by
  cases e with
  | call c =>
      cases c with
      | select exclude => exact s.changes_selectWith exclude
      | report result name => exact s.changes_report result name
      | down name => exact s.changes_down name
      | check order => exact s.changes_checkIn order
      | acquire name => exact s.changes_acquire name
      | release name => exact s.changes_release name
      | close => exact s.changes_close
  | tick => exact s.changes_tick
  | others host => exact .refl _

end System

/-! ## Runs -/

theorem Builder.changes_of_build {b : Builder ω} {id : Nat} {host : Host ω} {s : System ω}
    (h : b.build id host = .ok s) :
    b.validate = .ok () ∧ (b.toSelector id).Changes s.selector := by
  obtain ⟨hvalid, asked, rfl | ⟨rfl, -⟩⟩ := build_cases h
  · exact ⟨hvalid, System.changes_ensureChecker ⟨b.toSelector id, { host with asked }⟩⟩
  · exact ⟨hvalid, .refl _⟩

/-- What an accepted builder starts with, and every registration and every change preserves, holds
of every selector that the builder leads to. -/
theorem Builder.Reaches.induct [LawfulScalar ω] {b : Builder ω} {P : Selector ω → Prop}
    (built : ∀ id, b.validate = .ok () → P (b.toSelector id))
    (registered : ∀ {s : Selector ω} {name : String} {weight : ω}, s.place? name = none →
      s.settings.autoAddWeight = some weight → P s → P (s.register name weight))
    (changed : ∀ {s t : Selector ω}, s.Change t → P s → P t) {s : System ω} (h : b.Reaches s) :
    P s.selector := by
  -- a crash in supplied code is no case of its own: what it leaves is some changes as well
  induction h with
  | built hbuild =>
      obtain ⟨hvalid, hchanges⟩ := b.changes_of_build hbuild
      exact hchanges.induct changed (built _ hvalid)
  | @step s e _ ih =>
      refine (s.step_changes e).induct changed ?_
      rcases e.enrols_cases s.selector with heq | ⟨name, weight, hnew, hauto, heq⟩
      · rw [heq]
        exact ih
      · rw [heq]
        exact registered hnew hauto ih

end ResourceSelection
