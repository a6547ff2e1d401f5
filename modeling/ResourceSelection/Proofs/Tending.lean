import ResourceSelection.Proofs.Effects

/-!
# What a call does about the checker

A check is scheduled in one place only, where a transition is made known, and that place is reached
from reports, from resources forced down and from every probe of a check pass. The rest of what
these calls do does not concern the checker, and it does not concern what a policy goes by when it
is asked whether a resource needs a check, the context of that resource.

So there are three kinds of steps, and `Tends` lists them. A step aside leaves the contexts and the
checker alone. A move gives one resource another context and then looks whether that context needs a
check. A step that breaks off midway takes supplied code that can crash. Every call but the end of
checking is some number of these, whichever way it goes (`System.tended_call`), and what is to be
said about the checker of a selector at work is said of the three.
-/

namespace ResourceSelection

variable {ω : Type} [Scalar ω]

/-- Supplied code that never crashes. -/
structure Selector.Obliging (s : Selector ω) : Prop where
  policy (result : CallResult) (c : Context ω) (m : PolicyMemory) :
    (s.policy.onResult result c m).1 ≠ .crashed
  answers : s.policy.Answers
  listener {l : Listener ω} : s.listener = some l →
    ∀ told change, l.crashes told change = false

/-- A shipped rule has an answer to everything. -/
theorem Policy.onResult_shipped (rule : Rule ω) (result : CallResult) (c : Context ω)
    (m : PolicyMemory) : ((shipped rule).onResult result c m).1 ≠ .crashed := by
  cases rule with
  | ratio rule => cases result <;> nofun
  | flat rule => cases result <;> nofun

theorem Resource.context_propose (r : Resource ω) (weight : ω) :
    (r.propose weight).2.context = r.contextAt (r.propose weight).1.2 := by
  simp only [propose]
  split
  · rfl
  · rfl

/-- The context of the resource at a place. -/
def Selector.contextAt? (s : Selector ω) (place : Nat) : Option (Context ω) :=
  (s.states[place]?).map (·.context)

/-- The selectors are checked, or not, on the same terms. -/
structure Selector.SameTerms (s t : Selector ω) : Prop where
  id : t.id = s.id
  policy : t.policy = s.policy
  listener : t.listener = s.listener
  probe : t.probe = s.probe
  closed : t.closed = s.closed

omit [Scalar ω] in
theorem Selector.SameTerms.refl (s : Selector ω) : s.SameTerms s := ⟨rfl, rfl, rfl, rfl, rfl⟩

omit [Scalar ω] in
theorem Selector.SameTerms.trans {s t u : Selector ω} (h : s.SameTerms t) (h' : t.SameTerms u) :
    s.SameTerms u where
  id := h'.id.trans h.id
  policy := h'.policy.trans h.policy
  listener := h'.listener.trans h.listener
  probe := h'.probe.trans h.probe
  closed := h'.closed.trans h.closed

theorem Selector.SameTerms.obliging {s t : Selector ω} (h : s.SameTerms t) (hs : s.Obliging) :
    t.Obliging where
  policy := by
    rw [h.policy]
    exact hs.policy
  answers := by
    rw [h.policy]
    exact hs.answers
  listener := by
    rw [h.listener]
    exact hs.listener

namespace System

/-- The systems have the same checker, on the same terms. -/
structure SameChecker (s t : System ω) : Prop extends s.selector.SameTerms t.selector where
  checker : t.selector.checker = s.selector.checker
  executor : t.host.executor = s.host.executor

/-- What a step can do, as far as the checker is concerned. -/
inductive Tends : System ω → System ω → Prop
  /-- No resource has another context. -/
  | aside {s t : System ω} (same : s.SameChecker t)
      (contexts : ∀ i, t.selector.contextAt? i = s.selector.contextAt? i) : Tends s t
  /-- One resource has another context, and a check is scheduled if that context needs one. -/
  | move {s t : System ω} (same : s.SameChecker t) (place : Nat) {r : Resource ω} {weight : ω}
      (others : ∀ i, i ≠ place → t.selector.contextAt? i = s.selector.contextAt? i)
      (moved : t.selector.contextAt? place = some (r.contextAt weight)) :
      Tends s (t.checkIfNeeded r weight).2
  /-- Supplied code has crashed, and contexts may be what they are. -/
  | crash {s t : System ω} (same : s.SameChecker t) (crashed : ¬ s.selector.Obliging) : Tends s t

/-- Any number of steps. -/
def Tended : System ω → System ω → Prop := Relation.ReflTransGen Tends

theorem Tended.refl (s : System ω) : s.Tended s := Relation.ReflTransGen.refl

theorem Tends.tended {s t : System ω} (h : s.Tends t) : s.Tended t :=
  Relation.ReflTransGen.single h

theorem Tended.trans {s t u : System ω} (h : s.Tended t) (h' : t.Tended u) : s.Tended u :=
  Relation.ReflTransGen.trans h h'

/-- What every step preserves, any number of them does. -/
theorem Tended.induct {P : System ω → Prop} (hP : ∀ {s t}, Tends s t → P s → P t)
    {s t : System ω} (h : s.Tended t) (hs : P s) : P t := by
  induction h with
  | refl => exact hs
  | tail _ hstep ih => exact hP hstep ih

/-! ## Code that does not concern the checker -/

namespace SameChecker

variable {s t u : System ω}

omit [Scalar ω] in
theorem refl (s : System ω) : s.SameChecker s := ⟨⟨rfl, rfl, rfl, rfl, rfl⟩, rfl, rfl⟩

omit [Scalar ω] in
theorem trans (h : s.SameChecker t) (h' : t.SameChecker u) : s.SameChecker u where
  toSameTerms := h.toSameTerms.trans h'.toSameTerms
  checker := h'.checker.trans h.checker
  executor := h'.executor.trans h.executor

omit [Scalar ω] in
theorem count (s : System ω) (f : Counters → Counters) : s.SameChecker (s.count f) :=
  ⟨⟨rfl, rfl, rfl, rfl, rfl⟩, rfl, rfl⟩

omit [Scalar ω] in
theorem modifyAt (s : System ω) (place : Nat) (f : Resource ω → Resource ω) :
    s.SameChecker (s.modifyAt place f) :=
  ⟨⟨rfl, rfl, rfl, rfl, rfl⟩, rfl, rfl⟩

omit [Scalar ω] in
theorem asking (s : System ω) (asked : Tally) : s.SameChecker (s.asking asked) :=
  ⟨⟨rfl, rfl, rfl, rfl, rfl⟩, rfl, rfl⟩

theorem register (s : System ω) (name : String) (weight : ω) :
    s.SameChecker (s.register name weight) :=
  ⟨⟨rfl, rfl, rfl, rfl, rfl⟩, rfl, rfl⟩

theorem refreshGroup (s : System ω) (priority : Nat) :
    s.SameChecker { s with selector := s.selector.refreshGroup priority } := by
  unfold Selector.refreshGroup
  split
  · exact ⟨⟨rfl, rfl, rfl, rfl, rfl⟩, rfl, rfl⟩
  · exact refl s

omit [Scalar ω] in
theorem of_notify {change : WeightChange ω} {outcome : Outcome Unit}
    (h : s.notify change = (outcome, t)) : s.SameChecker t := by
  unfold notify at h
  split at h
  · cases h
    exact refl s
  · cases h
    exact ⟨⟨rfl, rfl, rfl, rfl, rfl⟩, rfl, rfl⟩

theorem of_askPolicy {result : CallResult} {c : Context ω} {outcome : Outcome ω}
    (h : s.askPolicy result c = (outcome, t)) : s.SameChecker t := by
  rw [askPolicy_eq] at h
  cases h
  exact ⟨⟨rfl, rfl, rfl, rfl, rfl⟩, rfl, rfl⟩

theorem of_proposalFor {rate : ω} {r : Resource ω} {outcome : Outcome ω}
    (h : s.proposalFor rate r = (outcome, t)) : s.SameChecker t := by
  unfold proposalFor at h
  split at h
  · rcases hask : s.askPolicy .success r.context with ⟨target, u⟩
    rw [hask] at h
    cases h
    exact of_askPolicy hask
  · exact (count s _).trans (of_askPolicy h)

theorem of_tryGroups {exclude : Option (List String)} {order : List Nat} {picked : Option Nat}
    (h : tryGroups exclude order s = (picked, t)) : s.SameChecker t := by
  induction order generalizing s with
  | nil =>
      cases h
      exact refl _
  | cons index rest ih =>
      unfold tryGroups at h
      split at h
      · exact ih h
      · simp only at h
        split at h
        · cases h
          exact ⟨⟨rfl, rfl, rfl, rfl, rfl⟩, rfl, rfl⟩
        · refine trans ?_ (ih h)
          exact ⟨⟨rfl, rfl, rfl, rfl, rfl⟩, rfl, rfl⟩

end SameChecker

/-! ## Contexts -/

omit [Scalar ω] in
theorem contextAt?_congr {s t : System ω} (h : t.selector.states = s.selector.states) (i : Nat) :
    t.selector.contextAt? i = s.selector.contextAt? i := by
  unfold Selector.contextAt?
  rw [h]

omit [Scalar ω] in
theorem contextAt?_modifyAt_of_ne {place i : Nat} (h : i ≠ place)
    (f : Resource ω → Resource ω) (s : System ω) :
    (s.modifyAt place f).selector.contextAt? i = s.selector.contextAt? i := by
  unfold Selector.contextAt?
  exact congrArg _ (List.getElem?_modify_ne f s.selector.states (Ne.symm h))

omit [Scalar ω] in
theorem contextAt?_modifyAt_self {place : Nat} {r : Resource ω} {s : System ω}
    (found : s.selector.states[place]? = some r) (f : Resource ω → Resource ω) :
    (s.modifyAt place f).selector.contextAt? place = some (f r).context := by
  show ((s.selector.states.modify place f)[place]?).map _ = _
  rw [List.getElem?_modify_eq, found]
  rfl

omit [Scalar ω] in
/-- A change that is none of the context shows in no context. -/
theorem contextAt?_modifyAt_of_same {f : Resource ω → Resource ω}
    (same : ∀ r, (f r).context = r.context) (place : Nat) (s : System ω) (i : Nat) :
    (s.modifyAt place f).selector.contextAt? i = s.selector.contextAt? i := by
  by_cases h : i = place
  · subst h
    unfold Selector.contextAt?
    show ((s.selector.states.modify i f)[i]?).map _ = _
    rw [List.getElem?_modify_eq]
    cases s.selector.states[i]? with
    | none => rfl
    | some r => exact congrArg some (same r)
  · exact contextAt?_modifyAt_of_ne h f s

theorem contextAt?_register_of_ne (name : String) (weight : ω) {s : System ω} {i : Nat}
    (h : i ≠ s.selector.states.length) :
    (s.register name weight).selector.contextAt? i = s.selector.contextAt? i := by
  unfold Selector.contextAt?
  show ((s.selector.states ++ [_])[i]?).map _ = _
  rcases Nat.lt_or_ge i s.selector.states.length with hlt | hge
  · rw [List.getElem?_append_left hlt]
  · rw [List.getElem?_eq_none (by simp; omega), List.getElem?_eq_none hge]

/-! ## Calls -/

/-- Making a move known completes it, unless the listener crashes. -/
theorem tends_applyChange {s t : System ω} (same : s.SameChecker t) (place : Nat)
    {r : Resource ω} {new : ω}
    (others : ∀ i, i ≠ place → t.selector.contextAt? i = s.selector.contextAt? i)
    (moved : t.selector.contextAt? place = some (r.contextAt new)) (old : ω) (cause : Cause) :
    s.Tends (t.applyChange r old new cause).2 := by
  unfold applyChange
  split
  · exact .move same place others moved
  · simp only
    have hrefreshed := same.trans (.refreshGroup t r.priority)
    split
    · next hnotify =>
        refine .crash (hrefreshed.trans (.of_notify hnotify)) fun hobliging => ?_
        unfold notify at hnotify
        split at hnotify
        · exact nomatch congrArg Prod.fst hnotify
        · next l hl =>
            have hl' := hobliging.listener (hrefreshed.listener ▸ hl)
            simp [hl'] at hnotify
    · next u hnotify =>
        have hcontexts (i : Nat) : u.selector.contextAt? i = t.selector.contextAt? i := by
          refine (contextAt?_congr ?_ i : _ = t.selector.contextAt? i)
          rw [selector_notify hnotify, Selector.states_refreshGroup]
        refine .move (hrefreshed.trans (.of_notify hnotify)) place (fun i hi => ?_) ?_
        · rw [hcontexts, others i hi]
        · rw [hcontexts, moved]

theorem tends_finishReport {s t : System ω} (same : s.SameChecker t) (place : Nat)
    {r : Resource ω} {new : ω}
    (others : ∀ i, i ≠ place → t.selector.contextAt? i = s.selector.contextAt? i)
    (moved : t.selector.contextAt? place = some (r.contextAt new)) (old : ω) (cause : Cause) :
    s.Tends (t.finishReport place r old new cause).2 := by
  unfold finishReport
  split
  · have hcontexts := contextAt?_modifyAt_of_same (f := fun r : Resource ω => r.release.2)
      (fun _ => rfl) place t
    refine tends_applyChange (same.trans (.modifyAt t place _)) place (fun i hi => ?_) ?_ old cause
    · rw [hcontexts, others i hi]
    · rw [hcontexts, moved]
  · exact tends_applyChange same place others moved old cause

theorem not_obliging_of_askPolicy {result : CallResult} {c : Context ω} {s t : System ω}
    (h : s.askPolicy result c = (.crashed, t)) : ¬ s.selector.Obliging := by
  rw [askPolicy_eq] at h
  exact fun hobliging => hobliging.policy result c s.host.memory (congrArg Prod.fst h)

/-- Knowing a name changes at most the context at its place, which then has a state. -/
theorem knowing?_cases {name : String} {place : Nat} {s t : System ω}
    (h : s.knowing? name = some (place, t)) :
    t = s ∨ s.SameChecker t ∧ (∀ i, i ≠ place → t.selector.contextAt? i = s.selector.contextAt? i) ∧
      (t.selector.states[place]?).isSome := by
  unfold knowing? at h
  split at h
  · cases h
    exact .inl rfl
  · obtain ⟨weight, -, heq⟩ := Option.map_eq_some_iff.1 h
    cases heq
    refine .inr ⟨.register s name weight, fun i hi => contextAt?_register_of_ne name weight hi, ?_⟩
    show ((s.selector.states ++ [_])[s.selector.states.length]?).isSome
    simp

theorem tends_report (result : CallResult) (name : String) (s : System ω) :
    s.Tends (s.report result name).2 := by
  have hcount := SameChecker.count s result.count
  unfold report
  simp only
  split
  · exact .aside hcount fun _ => rfl
  · next place t hknown =>
      have hknowing : (s.count result.count).SameChecker t ∧ ∀ i, i ≠ place →
          t.selector.contextAt? i = (s.count result.count).selector.contextAt? i := by
        obtain rfl | ⟨hsame, hothers, -⟩ := knowing?_cases hknown
        · exact ⟨.refl _, fun _ _ => rfl⟩
        · exact ⟨hsame, hothers⟩
      have hsame := hcount.trans hknowing.1
      split
      · next hnone =>
          -- a name that has just been registered has a state
          obtain rfl | ⟨-, -, hsome⟩ := knowing?_cases hknown
          · exact .aside hcount fun _ => rfl
          · rw [hnone] at hsome
            exact nomatch hsome
      · next r found =>
          split
          · next u hask =>
              refine .crash (hsame.trans (.of_askPolicy hask)) fun hobliging => ?_
              exact not_obliging_of_askPolicy hask (hsame.obliging hobliging)
          · next weight u hask =>
              have hselector := selector_askPolicy hask
              rw [← hselector] at found
              refine tends_finishReport ((hsame.trans (.of_askPolicy hask)).trans
                (.modifyAt u place _)) place (fun i hi => ?_) ?_ _ _
              · refine (contextAt?_modifyAt_of_ne hi _ u).trans ?_
                rw [contextAt?_congr (congrArg _ hselector), hknowing.2 i hi]
                rfl
              · refine (contextAt?_modifyAt_self found _).trans ?_
                rw [Resource.context_propose]
                rfl

theorem tends_down (name : String) (s : System ω) : s.Tends (s.down name).2 := by
  have hcount := SameChecker.count s fun c => { c with downs := c.downs + 1 }
  unfold down
  simp only
  split
  · exact .aside hcount fun _ => rfl
  · next place r hentry =>
      refine tends_finishReport (hcount.trans (.modifyAt _ place _)) place (fun i hi => ?_) ?_ _ _
      · exact contextAt?_modifyAt_of_ne hi _ (s.count _)
      · exact contextAt?_modifyAt_self (Selector.states_of_entry? hentry) _

/-- Counting a call by hand is none of the checker's business. -/
theorem tends_onState {f : Resource ω → Bool × Resource ω}
    (same : ∀ r, (f r).2.context = r.context) (name : String) (s : System ω) :
    s.Tends (s.onState name f).2 := by
  unfold onState
  split
  · next place _ _ =>
      exact .aside (.modifyAt s place _) (contextAt?_modifyAt_of_same same place s)
  · exact .aside (.refl s) fun _ => rfl

theorem tends_selectWith (exclude : Option (List String)) (s : System ω) :
    s.Tends (s.selectWith exclude).2 := by
  have hrng : s.SameChecker { s with host := { s.host with rng := s.firstGroup.2 } } :=
    ⟨⟨rfl, rfl, rfl, rfl, rfl⟩, rfl, rfl⟩
  unfold selectWith
  simp only
  split
  · next place t htry =>
      have hsame := hrng.trans (.of_tryGroups htry)
      have hstates : t.selector.states = s.selector.states := (turned_of_tryGroups htry).states
      simp only
      split
      · refine .aside ((hsame.trans (.modifyAt t place _)).trans (.count _ _)) fun i => ?_
        refine (contextAt?_modifyAt_of_same ?_ place t i).trans (contextAt?_congr hstates i)
        exact fun _ => rfl
      · exact .aside (hsame.trans (.count t _)) fun i => contextAt?_congr hstates i
  · next t htry =>
      have hsame := hrng.trans (.of_tryGroups htry)
      have hstates : t.selector.states = s.selector.states := (turned_of_tryGroups htry).states
      simp only
      exact .aside (hsame.trans (.count t _)) fun i => contextAt?_congr hstates i

/-! ## Check passes -/

theorem not_obliging_of_proposalFor {rate : ω} {r : Resource ω} {s t : System ω}
    (h : s.proposalFor rate r = (.crashed, t)) : ¬ s.selector.Obliging := by
  unfold proposalFor at h
  split at h
  · rcases hask : s.askPolicy .success r.context with ⟨target, u⟩
    rw [hask] at h
    cases target with
    | done weight => cases h
    | crashed => exact not_obliging_of_askPolicy hask
  · exact fun hobliging =>
      not_obliging_of_askPolicy h ⟨hobliging.policy, hobliging.answers, hobliging.listener⟩

theorem tends_probeResource {name : String} {place : Nat} {r : Resource ω} {s : System ω}
    (hentry : s.selector.entry? name = some (place, r)) (probe : Probe ω) :
    s.Tends (s.probeResource probe name place r).2 := by
  have hasked : s.SameChecker
      ((s.count fun c => { c with probes := c.probes + 1 }).askProbe probe name).2 :=
    ⟨⟨rfl, rfl, rfl, rfl, rfl⟩, rfl, rfl⟩
  unfold probeResource
  simp only
  split
  · next t hproposal =>
      refine .crash (hasked.trans (.of_proposalFor hproposal)) fun hobliging => ?_
      exact not_obliging_of_proposalFor hproposal
        ⟨hobliging.policy, hobliging.answers, hobliging.listener⟩
  · next weight t hproposal =>
      obtain ⟨counters, hselector⟩ := changes_of_proposalFor hproposal
      have hstates : t.selector.states = s.selector.states := by
        rw [hselector]
        rfl
      refine tends_applyChange ((hasked.trans (.of_proposalFor hproposal)).trans
        (.modifyAt t place _)) place (fun i hi => ?_) ?_ _ _
      · exact (contextAt?_modifyAt_of_ne hi _ t).trans (contextAt?_congr hstates i)
      · have found : t.selector.states[place]? = some r :=
          hstates ▸ Selector.states_of_entry? hentry
        refine (contextAt?_modifyAt_self found _).trans ?_
        rw [Resource.context_propose]
        rfl

/-- To ask about a resource is a step aside, and to probe it a step of its own. -/
theorem tended_checkResource (probe : Probe ω) (name : String) (s : System ω) :
    s.Tended (s.checkResource probe name).2 := by
  obtain ⟨asked, heq | ⟨place, r, hentry, heq⟩⟩ := checkResource_snd probe name s
  · rw [heq]
    exact (Tends.aside (.asking s asked) fun _ => rfl).tended
  · have hasked : s.Tends (s.asking asked) := .aside (.asking s asked) fun _ => rfl
    rw [heq]
    exact hasked.tended.trans (tends_probeResource (s := s.asking asked) hentry probe).tended

theorem tended_checkEach (probe : Probe ω) (order : List String) (s : System ω) :
    s.Tended (s.checkEach probe order).2 := by
  induction order generalizing s with
  | nil => exact .refl s
  | cons name rest ih => exact (s.tended_checkResource probe name).trans (ih _)

theorem tended_checkIn (order : List String) (s : System ω) : s.Tended (s.checkIn order).2 := by
  unfold checkIn
  split
  · exact .refl s
  · next probe _ => exact s.tended_checkEach probe order

/-- Every call but the end of checking is some steps. -/
theorem tended_call {c : Call} (h : c ≠ .close) (s : System ω) : s.Tended (s.call c) := by
  cases c with
  | select exclude => exact (s.tends_selectWith exclude).tended
  | report result name => exact (s.tends_report result name).tended
  | down name => exact (s.tends_down name).tended
  | check order => exact s.tended_checkIn order
  | acquire name => exact (tends_onState (fun _ => rfl) name s).tended
  | release name => exact (tends_onState (fun _ => rfl) name s).tended
  | close => exact absurd rfl h

end System

end ResourceSelection
