import ResourceSelection.Proofs.Dealings

/-!
# A dealing looks at one resource and leaves the others

What a dealing does depends on little: on the terms of the selector, and on what the system holds
about the one resource that is dealt with, its `View`. A policy remembers each resource apart, and
what it was asked and how often a resource was probed is counted for each resource, too. The one
exception is the listener, which may read its whole log. A listener that only looks at the past of
the resource in question is `Listener.Local`.

`System.Regards` says that two systems agree in all of that, and the first half of the file says that
a dealing comes to the same in both. The second half says once what a dealing does to a system,
part by part (`System.Made`): the view of its resource is as the dealing leaves it, the views of all
others are as they were, and for the rest it counts, renews snapshots, and may schedule a check.
-/

namespace ResourceSelection

variable {ω : Type} [Scalar ω]

/-! ## What a policy looks at -/

/-- What is remembered about one resource: its streak, and how often a supplied policy was asked
about its successes and failures. -/
def PolicyMemory.about (m : PolicyMemory) (name : String) : Nat × Nat × Nat :=
  (m.streaks.count name, m.successes.count name, m.failures.count name)

theorem Tally.count_bump_of_ne (t : Tally) {name other : String} (h : other ≠ name) :
    (t.bump name).count other = t.count other :=
  t.count_set_of_ne _ h

theorem Tally.count_bump (t : Tally) (name other : String) :
    (t.bump name).count other = t.count other + if other = name then 1 else 0 := by
  split
  · next heq =>
      subst heq
      exact t.count_set_self _ _
  · next hne => exact t.count_bump_of_ne hne

namespace Policy

/-- A policy answers alike when it remembers alike what it is asked about, and remembers alike
afterwards. -/
theorem onResult_about (p : Policy ω) (result : CallResult) {c : Context ω} {m m' : PolicyMemory}
    (h : m'.about c.resource = m.about c.resource) :
    (p.onResult result c m').1 = (p.onResult result c m).1 ∧
      (p.onResult result c m').2.about c.resource = (p.onResult result c m).2.about c.resource := by
  simp only [PolicyMemory.about, Prod.mk.injEq] at h ⊢
  obtain ⟨hstreak, hsuccesses, hfailures⟩ := h
  cases p with
  | custom p =>
      cases result with
      | success => simp [onResult, onSuccess, Tally.bump, hsuccesses, hstreak, hfailures]
      | failure => simp [onResult, onFail, Tally.bump, hsuccesses, hstreak, hfailures]
  | shipped rule =>
      cases rule with
      | flat rule =>
          cases result with
          | success => exact ⟨rfl, hstreak, hsuccesses, hfailures⟩
          | failure => exact ⟨rfl, hstreak, hsuccesses, hfailures⟩
      | ratio rule =>
          have hlike : c.Like c := ⟨rfl, rfl, rfl, rfl⟩
          cases result with
          | success =>
              obtain ⟨hweight, hcount⟩ := rule.onSuccess_congr hlike hstreak
              exact ⟨congrArg Outcome.done hweight, hcount, hsuccesses, hfailures⟩
          | failure =>
              obtain ⟨hweight, hcount⟩ := rule.onFail_congr hlike hstreak
              exact ⟨congrArg Outcome.done hweight, hcount, hsuccesses, hfailures⟩

theorem about_onResult_of_ne (p : Policy ω) (result : CallResult) (c : Context ω)
    (m : PolicyMemory) {other : String} (h : other ≠ c.resource) :
    (p.onResult result c m).2.about other = m.about other := by
  have hstreak := p.count_onResult_of_ne result c m h
  cases p with
  | custom p =>
      cases result with
      | success =>
          simp [PolicyMemory.about, onResult, onSuccess, Tally.count_bump_of_ne, h]
      | failure =>
          simp [PolicyMemory.about, onResult, onFail, Tally.count_bump_of_ne, h]
  | shipped rule =>
      unfold PolicyMemory.about
      rw [hstreak]
      cases rule with
      | flat rule =>
          cases result with
          | success => rfl
          | failure => rfl
      | ratio rule =>
          cases result with
          | success => rfl
          | failure => rfl

end Policy

/-! ## What a listener looks at -/

namespace Listener

/-- Whether it crashes depends on what it was told of the same resource only. -/
def Local (l : Listener ω) : Prop :=
  ∀ (past past' : List (WeightChange ω)) (c : WeightChange ω),
    (past'.filter fun e => e.resource = c.resource) =
      (past.filter fun e => e.resource = c.resource) → l.crashes past' c = l.crashes past c

def Silent (l : Listener ω) : Prop :=
  ∀ (past : List (WeightChange ω)) (c : WeightChange ω), l.crashes past c = false

omit [Scalar ω] in
theorem Silent.isLocal {l : Listener ω} (h : l.Silent) : l.Local :=
  fun past past' c _ => (h past' c).trans (h past c).symm

end Listener

/-! ## What a dealing looks at -/

/-- All that a system holds about one resource. -/
structure View (ω : Type) where
  resource : Option (Resource ω)
  memory : Nat × Nat × Nat
  /-- How often the policy was asked whether it is to be probed. -/
  asked : Nat
  /-- How often it was probed. -/
  probed : Nat
  /-- The changes of its weight that the listener was told of, the latest first. -/
  told : List (WeightChange ω)

namespace System

omit [Scalar ω] in
def view (name : String) (s : System ω) : View ω where
  resource := s.selector.find? name
  memory := s.host.memory.about name
  asked := s.host.asked.count name
  probed := s.host.probed.count name
  told := s.host.events.filter fun e => e.resource = name

/-- The systems deal alike with one resource. -/
structure Regards (name : String) (s t : System ω) : Prop where
  policy : t.selector.policy = s.selector.policy
  settings : t.selector.settings = s.selector.settings
  listener : t.selector.listener = s.selector.listener
  view : t.view name = s.view name

/-- The listener, if there is one, looks at the past of one resource at a time. -/
def Discreet (s : System ω) : Prop := ∀ l, s.selector.listener = some l → l.Local

/-- What the listener is told of a transition. -/
def hearing (c : WeightChange ω) (s : System ω) : List (WeightChange ω) :=
  if s.selector.listener.isSome && !Scalar.same c.oldWeight c.newWeight then [c] else []

/-- Whether the listener crashes on it. -/
def stunned (c : WeightChange ω) (s : System ω) : Bool :=
  !Scalar.same c.oldWeight c.newWeight &&
    s.selector.listener.any fun l => l.crashes s.host.events c

theorem hearing_congr {s t : System ω} (hlistener : t.selector.listener = s.selector.listener)
    (c : WeightChange ω) : t.hearing c = s.hearing c := by
  unfold hearing
  rw [hlistener]

theorem stunned_congr {s t : System ω} (hlistener : t.selector.listener = s.selector.listener)
    (c : WeightChange ω) (hcrashes : ∀ l, s.selector.listener = some l →
      l.crashes t.host.events c = l.crashes s.host.events c) : t.stunned c = s.stunned c := by
  unfold stunned
  rw [hlistener]
  cases hl : s.selector.listener with
  | none => rfl
  | some l => rw [Option.any_some, Option.any_some, hcrashes l hl]

theorem hearing_cases (c : WeightChange ω) (s : System ω) :
    s.hearing c = [] ∨ s.hearing c = [c] := by
  unfold hearing
  split
  · exact .inr rfl
  · exact .inl rfl

end System

namespace Dealing

variable {d : Dealing ω} {r : Resource ω} {s t : System ω}

/-- Whether it gets as far as to the last question, if a check is needed in the end. -/
def completes (d : Dealing ω) (r : Resource ω) (s : System ω) : Bool :=
  d.concerns r s && (d.answer r s).1.answer?.isSome &&
    !s.stunned (d.change r (d.after r s).current)

omit [Scalar ω] in
/-- How many questions there are before it. -/
def inquiries : Dealing ω → Nat
  | probe _ => 1
  | _ => 0

/-- The answer to the last question. -/
def needs (d : Dealing ω) (r : Resource ω) (s : System ω) : Outcome Bool :=
  s.selector.policy.needsCheck (r.contextAt (d.after r s).current)
    (s.host.asked.count r.name + d.inquiries)

/-- How it ends: with whether it came to anything, unless supplied code crashes. -/
def ends (d : Dealing ω) (r : Resource ω) (s : System ω) : Outcome Bool :=
  if d.concerns r s then
    if d.completes r s then (d.needs r s).map fun _ => true else .crashed
  else d.begins r s

/-- What the listener is told. -/
def news (d : Dealing ω) (r : Resource ω) (s : System ω) : List (WeightChange ω) :=
  s.hearing (d.change r (d.after r s).current)

/-- What it counts. -/
def tally (d : Dealing ω) (r : Resource ω) (s : System ω) (c : Counters) : Counters :=
  if d.concerns r s then
    match d with
    | report result => result.count c
    | down => { c with downs := c.downs + 1 }
    | probe p =>
      { c with
        probes := c.probes + 1
        probeFailures := if 0 < p.rateOf r.name s.host then c.probeFailures
          else c.probeFailures + 1 }
  else c

/-- How many times it probes. -/
def probings (d : Dealing ω) (r : Resource ω) (s : System ω) : Nat :=
  match d with
  | probe _ => if d.concerns r s then 1 else 0
  | _ => 0

/-- How many times the policy is asked whether the resource is to be probed. -/
def questions (d : Dealing ω) (r : Resource ω) (s : System ω) : Nat :=
  d.inquiries + if d.completes r s then 1 else 0

/-- Whether it makes sure that a check is scheduled. -/
def summons (d : Dealing ω) (r : Resource ω) (s : System ω) : Bool :=
  d.completes r s && decide (d.needs r s = .done true)

/-- What is remembered of the resource afterwards. -/
def recalls (d : Dealing ω) (r : Resource ω) (s : System ω) : Nat × Nat × Nat :=
  if d.concerns r s then (d.answer r s).2.about r.name else s.host.memory.about r.name

/-- The view of the resource afterwards. -/
def leaves (d : Dealing ω) (r : Resource ω) (s : System ω) : View ω where
  resource := some (d.after r s)
  memory := d.recalls r s
  asked := (s.view r.name).asked + d.questions r s
  probed := (s.view r.name).probed + d.probings r s
  told := d.news r s ++ (s.view r.name).told

theorem ends_of_spared (h : d.concerns r s = false) : d.ends r s = d.begins r s := by
  unfold ends
  rw [h, if_neg Bool.false_ne_true]

theorem completes_of_spared (h : d.concerns r s = false) : d.completes r s = false := by
  unfold completes
  rw [h, Bool.false_and, Bool.false_and]

theorem completes_of_crashed (h : (d.answer r s).1 = .crashed) : d.completes r s = false := by
  unfold completes
  rw [h]
  simp [Outcome.answer?]

theorem news_of_after_eq [LawfulScalar ω] (h : d.after r s = r) : d.news r s = [] := by
  have hsame : Scalar.same r.current r.current = true := LawfulScalar.same_iff.2 rfl
  simp [news, System.hearing, change, h, hsame]

theorem about_answer_of_ne {name : String} (hne : name ≠ r.name) :
    (d.answer r s).2.about name = s.host.memory.about name := by
  have habout (result : CallResult) :=
    s.selector.policy.about_onResult_of_ne result r.context s.host.memory hne
  cases hresult : d.result? r.name s.host with
  | none => rw [memory_answer_of_none hresult]
  | some result =>
      cases result with
      | success =>
          obtain ⟨scale, hanswer, -⟩ := answer_of_success hresult
          rw [hanswer]
          exact habout .success
      | failure =>
          rw [answer_of_failure hresult]
          exact habout .failure

theorem filter_news_of_ne {name : String} (hne : name ≠ r.name) :
    ((d.news r s).filter fun e => e.resource = name) = [] := by
  unfold news
  rcases s.hearing_cases (d.change r (d.after r s).current) with hnews | hnews
  · rw [hnews]
    rfl
  · rw [hnews]
    exact List.filter_cons_of_neg fun heq => hne (of_decide_eq_true heq).symm

/-! ### Looking at the same -/

section

variable (h : s.Regards r.name t)

include h

theorem rateOf_congr (p : Probe ω) : p.rateOf r.name t.host = p.rateOf r.name s.host := by
  unfold Probe.rateOf
  rw [show t.host.probed.count r.name = s.host.probed.count r.name from
    congrArg View.probed h.view]

omit [Scalar ω] in
theorem asked_congr : t.host.asked.count r.name = s.host.asked.count r.name :=
  congrArg View.asked h.view

theorem begins_congr (d : Dealing ω) : d.begins r t = d.begins r s := by
  unfold begins
  rw [h.policy, asked_congr h]

theorem concerns_congr (d : Dealing ω) : d.concerns r t = d.concerns r s := by
  unfold concerns
  rw [begins_congr h]

theorem answer_congr (d : Dealing ω) : (d.answer r t).1 = (d.answer r s).1 ∧
    (d.answer r t).2.about r.name = (d.answer r s).2.about r.name := by
  have hmemory : t.host.memory.about r.name = s.host.memory.about r.name :=
    congrArg View.memory h.view
  have hcontext : t.host.memory.about r.context.resource = s.host.memory.about r.context.resource :=
    hmemory
  have hasked (result : CallResult) := s.selector.policy.onResult_about result hcontext
  cases d with
  | down => exact ⟨rfl, hmemory⟩
  | report result =>
      unfold answer
      rw [h.policy]
      exact hasked result
  | probe p =>
      unfold answer
      rw [h.policy]
      simp only [rateOf_congr h]
      split
      · exact ⟨congrArg (Outcome.map _) (hasked .success).1, (hasked .success).2⟩
      · exact hasked .failure

theorem after_congr (d : Dealing ω) : d.after r t = d.after r s := by
  unfold after
  rw [concerns_congr h, (answer_congr h d).1, h.settings]

theorem tally_congr (d : Dealing ω) : d.tally r t = d.tally r s := by
  funext c
  unfold tally
  rw [concerns_congr h]
  cases d with
  | report result => rfl
  | down => rfl
  | probe p => simp only [rateOf_congr h]

theorem probings_congr (d : Dealing ω) : d.probings r t = d.probings r s := by
  unfold probings
  rw [concerns_congr h]

theorem news_congr (d : Dealing ω) : d.news r t = d.news r s := by
  unfold news
  rw [after_congr h, System.hearing_congr h.listener]

theorem needs_congr (d : Dealing ω) : d.needs r t = d.needs r s := by
  unfold needs
  rw [h.policy, after_congr h, asked_congr h]

theorem completes_congr (hdiscreet : s.Discreet) (d : Dealing ω) :
    d.completes r t = d.completes r s := by
  have hstunned := System.stunned_congr h.listener (d.change r (d.after r s).current) fun l hl =>
    hdiscreet l hl s.host.events t.host.events _ (congrArg View.told h.view)
  unfold completes
  rw [concerns_congr h, (answer_congr h d).1, after_congr h, hstunned]

theorem leaves_congr (hdiscreet : s.Discreet) (d : Dealing ω) : d.leaves r t = d.leaves r s := by
  have hmemory : t.host.memory.about r.name = s.host.memory.about r.name :=
    congrArg View.memory h.view
  unfold leaves recalls questions
  rw [after_congr h, concerns_congr h, (answer_congr h d).2, hmemory, probings_congr h,
    completes_congr h hdiscreet, news_congr h, h.view]

theorem ends_congr (hdiscreet : s.Discreet) (d : Dealing ω) : d.ends r t = d.ends r s := by
  unfold ends
  rw [concerns_congr h, completes_congr h hdiscreet, needs_congr h, begins_congr h]

theorem summons_congr (hdiscreet : s.Discreet) (d : Dealing ω) :
    d.summons r t = d.summons r s := by
  unfold summons
  rw [completes_congr h hdiscreet, needs_congr h]

end

end Dealing

/-! ## What a dealing does -/

omit [Scalar ω] in
theorem Selector.SameTerms.symm {s t : Selector ω} (h : s.SameTerms t) : t.SameTerms s :=
  ⟨h.id.symm, h.policy.symm, h.listener.symm, h.probe.symm, h.closed.symm⟩

namespace System

variable {s t u : System ω} {name : String} {place : Nat} {r : Resource ω}

/-- The systems agree on what is counted, on the turns of the groups and on what is drawn. -/
structure Still (s t : System ω) : Prop where
  counters : t.selector.counters = s.selector.counters
  cursors : t.selector.pools.map (·.cursor) = s.selector.pools.map (·.cursor)
  rng : t.host.rng = s.host.rng
  probed : t.host.probed = s.host.probed

namespace Still

omit [Scalar ω] in
theorem refl (s : System ω) : s.Still s := ⟨rfl, rfl, rfl, rfl⟩

omit [Scalar ω] in
theorem trans (h : s.Still t) (h' : t.Still u) : s.Still u where
  counters := h'.counters.trans h.counters
  cursors := h'.cursors.trans h.cursors
  rng := h'.rng.trans h.rng
  probed := h'.probed.trans h.probed

theorem refreshGroup (s : System ω) (priority : Nat) :
    s.Still { s with selector := s.selector.refreshGroup priority } := by
  unfold Selector.refreshGroup
  split
  · next index _ =>
      exact ⟨rfl, map_modify_of_eq (Selector.refreshPool s.selector.states) _ (fun _ => rfl) index
        s.selector.pools, rfl, rfl⟩
  · exact refl s

omit [Scalar ω] in
theorem ensureChecker (s : System ω) : s.Still s.ensureChecker := by
  unfold System.ensureChecker
  split
  · exact refl s
  · exact ⟨rfl, rfl, rfl, rfl⟩

omit [Scalar ω] in
theorem asked (d : Dealing ω) (r : Resource ω) (s : System ω) : s.Still (d.asked r s) := by
  cases d with
  | report result => exact refl s
  | down => exact refl s
  | probe p => exact ⟨rfl, rfl, rfl, rfl⟩

end Still

/-! ### The checker -/

/-- What decides on the next check. -/
def watch (s : System ω) : Option Handle × ManualExecutor Nat :=
  (s.selector.checker, s.host.executor)

omit [Scalar ω] in
theorem watch_ensureChecker_congr (h : s.selector.SameTerms t.selector) (hwatch : t.watch = s.watch) :
    t.ensureChecker.watch = s.ensureChecker.watch := by
  obtain ⟨hchecker, hexecutor⟩ := Prod.mk.inj hwatch
  have hchecking : t.isChecking = s.isChecking := by
    unfold isChecking
    rw [hchecker, hexecutor]
  unfold ensureChecker
  rw [h.probe, hchecking, h.closed, h.id, hexecutor]
  split
  · exact hwatch
  · rfl

omit [Scalar ω] in
/-- A check is scheduled once. -/
theorem ensureChecker_ensureChecker (s : System ω) :
    s.ensureChecker.ensureChecker = s.ensureChecker := by
  by_cases hidle : (s.selector.probe.isNone || s.isChecking || s.selector.closed) = true
  · have heq : s.ensureChecker = s := by
      unfold ensureChecker
      rw [if_pos hidle]
    rw [heq, heq]
  · have heq : s.ensureChecker =
        ⟨{ s.selector with checker := some s.host.executor.cancelled.length },
          { s.host with executor := (s.host.executor.schedule s.selector.id).2 }⟩ := by
      unfold ensureChecker
      rw [if_neg hidle]
      rfl
    have hchecking : s.ensureChecker.isChecking = true := by
      rw [heq]
      show (!(s.host.executor.schedule s.selector.id).2.isCancelled _) = true
      rw [ManualExecutor.isCancelled_schedule]
      simp
    rw [ensureChecker, if_pos (by rw [hchecking, Bool.or_true, Bool.true_or])]

omit [Scalar ω] in
theorem asked_ensureChecker (s : System ω) : s.ensureChecker.host.asked = s.host.asked := by
  unfold ensureChecker
  split
  · rfl
  · rfl

/-! ### The whole of it -/

/-- The last question has an answer or not, and may have a check scheduled. -/
theorem checkIfNeeded_spec (r : Resource ω) (weight : ω) (s : System ω) :
    let answer := s.selector.policy.needsCheck (r.contextAt weight) (s.host.asked.count r.name)
    (s.checkIfNeeded r weight).1 = (answer.map fun _ => ()) ∧
      s.Still (s.checkIfNeeded r weight).2 ∧
      (s.checkIfNeeded r weight).2.host.asked = s.host.asked.bump r.name ∧
      (s.checkIfNeeded r weight).2.host.events = s.host.events ∧
      (s.checkIfNeeded r weight).2.watch =
        if answer = .done true then s.ensureChecker.watch else s.watch := by
  intro answer
  generalize hasking : s.asking (s.host.asked.bump r.name) = t
  have hstill : s.Still t := hasking ▸ ⟨rfl, rfl, rfl, rfl⟩
  have hasked : t.host.asked = s.host.asked.bump r.name := by rw [← hasking]; rfl
  have hevents : t.host.events = s.host.events := by rw [← hasking]; rfl
  have hwatch : t.watch = s.watch := by rw [← hasking]; rfl
  obtain ⟨hanswer, heq⟩ | ⟨hanswer, heq⟩ | ⟨hanswer, heq⟩ := s.checkIfNeeded_cases r weight
  · rw [heq, hasking, show answer = .crashed from hanswer]
    exact ⟨rfl, hstill, hasked, hevents, hwatch⟩
  · rw [heq, hasking, show answer = .done false from hanswer]
    exact ⟨rfl, hstill, hasked, hevents, hwatch⟩
  · rw [heq, hasking, show answer = .done true from hanswer, if_pos rfl]
    have hterms : s.selector.SameTerms t.selector := hasking ▸ .refl s.selector
    exact ⟨rfl, hstill.trans (.ensureChecker t), (asked_ensureChecker t).trans hasked,
      (events_ensureChecker t).trans hevents, watch_ensureChecker_congr hterms hwatch⟩

/-- A transition is made known to the snapshot and the listener. If the listener survives it, there
is a question. -/
theorem applyChange_eq (d : Dealing ω) (r : Resource ω) (weight : ω) (s : System ω) :
    ∃ t, s.Still t ∧ s.SameChecker t ∧ t.host.asked = s.host.asked ∧
      t.host.events = s.hearing (d.change r weight) ++ s.host.events ∧
      s.applyChange r r.current weight d.cause = if s.stunned (d.change r weight) then (.crashed, t)
        else t.checkIfNeeded r weight := by
  cases hchanged : Scalar.same r.current weight with
  | true =>
      have hhearing : s.hearing (d.change r weight) = [] := by
        simp [hearing, Dealing.change, hchanged]
      have hstunned : s.stunned (d.change r weight) = false := by
        simp [stunned, Dealing.change, hchanged]
      rw [hhearing, hstunned]
      refine ⟨s, .refl s, .refl s, rfl, rfl, ?_⟩
      unfold applyChange
      rw [if_pos hchanged]
      rfl
  | false =>
      have hstill := Still.refreshGroup s r.priority
      have hsame := SameChecker.refreshGroup s r.priority
      cases hl : s.selector.listener with
      | none =>
          have hhearing : s.hearing (d.change r weight) = [] := by simp [hearing, hl]
          have hstunned : s.stunned (d.change r weight) = false := by simp [stunned, hl]
          rw [hhearing, hstunned]
          have hlistener : (s.selector.refreshGroup r.priority).listener = none :=
            hsame.listener.trans hl
          refine ⟨_, hstill, hsame, rfl, rfl, ?_⟩
          unfold applyChange notify
          rw [hchanged]
          simp only [hlistener, Bool.false_eq_true, if_false]
      | some l =>
          have hhearing : s.hearing (d.change r weight) = [d.change r weight] := by
            simp [hearing, Dealing.change, hl, hchanged]
          have hstunned : s.stunned (d.change r weight) =
              l.crashes s.host.events (d.change r weight) := by
            simp [stunned, Dealing.change, hl, hchanged]
          rw [hhearing, hstunned]
          let told : System ω := ⟨s.selector.refreshGroup r.priority,
            { s.host with events := d.change r weight :: s.host.events }⟩
          exact ⟨told, ⟨hstill.counters, hstill.cursors, rfl, rfl⟩,
            ⟨hsame.toSameTerms, hsame.checker, rfl⟩, rfl, rfl,
            applyChange_of_change hl hchanged d.cause⟩

theorem applyChange_spec (d : Dealing ω) (r : Resource ω) (weight : ω) (s : System ω) :
    let answer := s.selector.policy.needsCheck (r.contextAt weight) (s.host.asked.count r.name)
    let asks := !s.stunned (d.change r weight)
    let result := s.applyChange r r.current weight d.cause
    result.1 = (if asks then answer.map fun _ => () else .crashed) ∧ s.Still result.2 ∧
      (∀ other, result.2.host.asked.count other =
        s.host.asked.count other + if other = r.name then if asks then 1 else 0 else 0) ∧
      result.2.host.events = s.hearing (d.change r weight) ++ s.host.events ∧
      result.2.watch =
        if asks && decide (answer = .done true) then s.ensureChecker.watch else s.watch := by
  intro answer asks result
  obtain ⟨t, hstill, hsame, hasked, hevents, heq⟩ := applyChange_eq d r weight s
  have hwatch : t.watch = s.watch := Prod.ext hsame.checker hsame.executor
  have hresult : result = if s.stunned (d.change r weight) then (.crashed, t)
    else t.checkIfNeeded r weight := heq
  have hasks : asks = !s.stunned (d.change r weight) := rfl
  rw [hasks, hresult]
  cases s.stunned (d.change r weight) with
  | true =>
      refine ⟨rfl, hstill, fun other => ?_, hevents, hwatch⟩
      rw [if_pos rfl, hasked]
      simp
  | false =>
      obtain ⟨hdone, hstays, hbumped, hheard, hlast⟩ := t.checkIfNeeded_spec r weight
      have hanswer : t.selector.policy.needsCheck (r.contextAt weight)
          (t.host.asked.count r.name) = answer := by
        rw [hsame.policy, hasked]
      rw [hanswer] at hdone hlast
      refine ⟨hdone, hstill.trans hstays, fun other => ?_, hheard.trans hevents, ?_⟩
      · show (t.checkIfNeeded r weight).2.host.asked.count other = _
        rw [hbumped, hasked]
        exact s.host.asked.count_bump r.name other
      · refine hlast.trans ?_
        rw [hwatch, watch_ensureChecker_congr hsame.toSameTerms hwatch]
        simp

variable [LawfulScalar ω]

omit [Scalar ω] [LawfulScalar ω] in
theorem asked_asked (d : Dealing ω) (r : Resource ω) (s : System ω) (name : String) :
    (d.asked r s).host.asked.count name =
      s.host.asked.count name + if name = r.name then d.inquiries else 0 := by
  have hnone : s.host.asked.count name =
      s.host.asked.count name + if name = r.name then 0 else 0 := by rw [ite_self, Nat.add_zero]
  cases d with
  | report result => exact hnone
  | down => exact hnone
  | probe p => exact s.host.asked.count_bump r.name name

omit [LawfulScalar ω] in
theorem asked_judged (d : Dealing ω) (r : Resource ω) (s : System ω) (name : String) :
    (d.judged r s).host.asked.count name =
      s.host.asked.count name + if name = r.name then d.inquiries else 0 := by
  have hsame : (d.judged r s).host.asked = (d.asked r s).host.asked := by
    cases d with
    | report result => rfl
    | down => rfl
    | probe p => rfl
  rw [hsame, asked_asked]

/-- All that a dealing does besides the resource and the memory of the policy. -/
theorem deal_of_concern (h : s.selector.Layout) (hentry : s.selector.entry? name = some (place, r))
    {d : Dealing ω} (hconcerns : d.concerns r s = true) :
    (s.deal d name).1 = ((d.ends r s).map fun _ => ()) ∧
      (d.judged r s).Still (s.deal d name).2 ∧
      (∀ other, (s.deal d name).2.host.asked.count other =
        s.host.asked.count other + if other = r.name then d.questions r s else 0) ∧
      (s.deal d name).2.host.events = d.news r s ++ s.host.events ∧
      (s.deal d name).2.watch = if d.summons r s then s.ensureChecker.watch else s.watch := by
  have hjudged : s.SameChecker (d.judged r s) := by
    cases d with
    | report result => exact ⟨⟨rfl, rfl, rfl, rfl, rfl⟩, rfl, rfl⟩
    | down => exact ⟨⟨rfl, rfl, rfl, rfl, rfl⟩, rfl, rfl⟩
    | probe p => exact ⟨⟨rfl, rfl, rfl, rfl, rfl⟩, rfl, rfl⟩
  rw [deal_eq h hentry hconcerns]
  unfold Dealing.summons Dealing.questions Dealing.ends
  rw [if_pos hconcerns]
  cases hanswer : (d.answer r s).1 with
  | crashed =>
      have hafter : d.after r s = r := by
        unfold Dealing.after
        rw [if_pos hconcerns, hanswer]
      rw [Dealing.completes_of_crashed hanswer, Dealing.news_of_after_eq hafter]
      exact ⟨rfl, .refl _, asked_judged d r s, events_judged d r s,
        Prod.ext hjudged.checker hjudged.executor⟩
  | done weight =>
      have hafter : d.move weight s.selector.settings.tracksCalls r = d.after r s := by
        unfold Dealing.after
        rw [if_pos hconcerns, hanswer]
      have hcompletes : d.completes r s = !s.stunned (d.change r (d.after r s).current) := by
        unfold Dealing.completes
        rw [hconcerns, hanswer]
        rfl
      simp only [hafter]
      generalize hmoved : (d.judged r s).modifyAt place
        (d.move weight s.selector.settings.tracksCalls) = moved
      have hsame : s.SameChecker moved := hmoved ▸ hjudged.trans (.modifyAt _ place _)
      have hstill : (d.judged r s).Still moved := hmoved ▸ ⟨rfl, rfl, rfl, rfl⟩
      have hasked (other : String) : moved.host.asked.count other =
          s.host.asked.count other + if other = r.name then d.inquiries else 0 :=
        hmoved ▸ asked_judged d r s other
      have hpast : moved.host.events = s.host.events := hmoved ▸ events_judged d r s
      have hwatch : moved.watch = s.watch := Prod.ext hsame.checker hsame.executor
      have hneeds : moved.selector.policy.needsCheck (r.contextAt (d.after r s).current)
          (moved.host.asked.count r.name) = d.needs r s := by
        rw [hsame.policy, hasked, if_pos rfl]
        rfl
      have hstunned : moved.stunned (d.change r (d.after r s).current) =
          s.stunned (d.change r (d.after r s).current) :=
        stunned_congr hsame.listener _ fun l _ => by rw [hpast]
      obtain ⟨hdone, hstays, hcount, hevents, hlast⟩ :=
        moved.applyChange_spec d r (d.after r s).current
      rw [hneeds, hstunned, ← hcompletes] at hdone hlast
      rw [hstunned, ← hcompletes] at hcount
      refine ⟨hdone.trans ?_, hstill.trans hstays, fun other => ?_, ?_, ?_⟩
      · cases d.completes r s with
        | false => rfl
        | true => cases d.needs r s <;> rfl
      · rw [hcount, hasked, Nat.add_assoc]
        split <;> rfl
      · rw [hevents, hpast, hearing_congr hsame.listener]
        rfl
      · rw [hlast, hwatch, watch_ensureChecker_congr hsame.toSameTerms hwatch]

/-- What a dealing has made of a system. -/
structure Made (d : Dealing ω) (r : Resource ω) (s t : System ω) : Prop where
  find? (name : String) : t.selector.find? name =
    if name = r.name then some (d.after r s) else s.selector.find? name
  memory (name : String) : t.host.memory.about name =
    if name = r.name then d.recalls r s else s.host.memory.about name
  asked (name : String) : t.host.asked.count name =
    s.host.asked.count name + if name = r.name then d.questions r s else 0
  probed (name : String) : t.host.probed.count name =
    s.host.probed.count name + if name = r.name then d.probings r s else 0
  events : t.host.events = d.news r s ++ s.host.events
  counters : t.selector.counters = d.tally r s s.selector.counters
  cursors : t.selector.pools.map (·.cursor) = s.selector.pools.map (·.cursor)
  rng : t.host.rng = s.host.rng
  watch : t.watch = if d.summons r s then s.ensureChecker.watch else s.watch

omit [LawfulScalar ω] in
theorem probed_judged (d : Dealing ω) (hconcerns : d.concerns r s = true) (name : String) :
    (d.judged r s).host.probed.count name =
      s.host.probed.count name + if name = r.name then d.probings r s else 0 := by
  have hnone : s.host.probed.count name =
      s.host.probed.count name + if name = r.name then 0 else 0 := by rw [ite_self, Nat.add_zero]
  cases d with
  | report result => exact hnone
  | down => exact hnone
  | probe p =>
      unfold Dealing.probings
      rw [if_pos hconcerns]
      exact s.host.probed.count_bump r.name name

omit [LawfulScalar ω] in
theorem pools_judged (d : Dealing ω) (r : Resource ω) (s : System ω) :
    (d.judged r s).selector.pools = s.selector.pools := by
  cases d with
  | report result => rfl
  | down => rfl
  | probe p => rfl

omit [LawfulScalar ω] in
theorem rng_judged (d : Dealing ω) (r : Resource ω) (s : System ω) :
    (d.judged r s).host.rng = s.host.rng := by
  cases d with
  | report result => rfl
  | down => rfl
  | probe p => rfl

omit [LawfulScalar ω] in
theorem counters_judged (d : Dealing ω) (hconcerns : d.concerns r s = true) :
    (d.judged r s).selector.counters = d.tally r s s.selector.counters := by
  unfold Dealing.tally
  rw [if_pos hconcerns]
  cases d with
  | report result => rfl
  | down => rfl
  | probe p => rfl

/-- How a dealing ends, and what it makes of the system. -/
theorem deal_spec (h : s.selector.Layout) (hr : s.selector.find? name = some r) (d : Dealing ω) :
    (s.deal d name).1 = ((d.ends r s).map fun _ => ()) ∧ Made d r s (s.deal d name).2 := by
  have hname := h.name_of_find? hr
  subst hname
  obtain ⟨place, hentry⟩ := h.find?_eq_some_iff_entry?.1 hr
  have hfind := find?_deal h hr d
  have hmemory := memory_deal h hr d
  have habout (name : String) : (s.deal d r.name).2.host.memory.about name =
      if name = r.name then d.recalls r s else s.host.memory.about name := by
    rw [hmemory]
    unfold Dealing.recalls
    split
    · split
      · next heq => rw [heq]
      · next hne => exact Dealing.about_answer_of_ne hne
    · split
      · next heq => rw [heq]
      · rfl
  cases hconcerns : d.concerns r s with
  | true =>
      obtain ⟨hends, hstill, hasked, hevents, hwatch⟩ := deal_of_concern h hentry hconcerns
      have hcursors := congrArg (List.map GroupOf.cursor) (pools_judged d r s)
      exact ⟨hends, hfind, habout, hasked,
        fun name => hstill.probed ▸ probed_judged d hconcerns name, hevents,
        hstill.counters.trans (counters_judged d hconcerns), hstill.cursors.trans hcursors,
        hstill.rng.trans (rng_judged d r s), hwatch⟩
  | false =>
      have hspared : ¬ d.concerns r s = true := by rw [hconcerns]; exact Bool.false_ne_true
      have hafter : d.after r s = r := if_neg hspared
      have hends := Dealing.ends_of_spared hconcerns
      have hcompletes := Dealing.completes_of_spared hconcerns
      have hprobings : d.probings r s = 0 := by
        unfold Dealing.probings
        rw [if_neg hspared]
        split <;> rfl
      have htally : d.tally r s = id := funext fun c => if_neg hspared
      have hquestions : d.questions r s = d.inquiries := by
        unfold Dealing.questions
        rw [hcompletes]
        rfl
      have hsummons : d.summons r s = false := by
        unfold Dealing.summons
        rw [hcompletes, Bool.false_and]
      have hstill := Still.asked d r s
      rw [deal_of_spared hentry hconcerns] at hfind habout ⊢
      rw [hends]
      refine ⟨rfl, hfind, habout, fun name => ?_, fun name => ?_, ?_, ?_, hstill.cursors,
        hstill.rng, ?_⟩
      · rw [hquestions]
        exact asked_asked d r s name
      · rw [hprobings, ite_self, Nat.add_zero, hstill.probed]
      · rw [Dealing.news_of_after_eq hafter]
        exact events_asked d r s
      · rw [htally]
        exact hstill.counters
      · rw [hsummons]
        cases d <;> rfl

theorem changes_deal_of_find? (hr : s.selector.find? name = some r) (d : Dealing ω) :
    s.selector.Changes (s.deal d name).2.selector := by
  have hchanges := s.changes_deal d name
  rwa [d.enrols_of_find? hr] at hchanges

theorem ready_deal (h : s.selector.Ready) (hr : s.selector.find? name = some r) (d : Dealing ω) :
    (s.deal d name).2.selector.Ready := by
  have hchanges := changes_deal_of_find? hr d
  exact ⟨h.layout.frame hchanges.frame, hchanges.settled h.layout h.settled⟩

omit [LawfulScalar ω] in
theorem sameTerms_deal (d : Dealing ω) (name : String) (s : System ω) :
    s.selector.SameTerms (s.deal d name).2.selector := by
  cases d with
  | report result => exact (s.tends_report result name).sameTerms
  | down => exact (s.tends_down name).sameTerms
  | probe p => exact (s.tended_checkResource p name).sameTerms

/-! ## The views afterwards -/

namespace Made

variable {d : Dealing ω}

omit [LawfulScalar ω] in
theorem view_self (h : Made d r s t) : t.view r.name = d.leaves r s := by
  have hnews : (d.news r s).filter (fun e => e.resource = r.name) = d.news r s := by
    unfold Dealing.news
    rcases s.hearing_cases (d.change r (d.after r s).current) with hnews | hnews
    · rw [hnews]
      rfl
    · rw [hnews]
      exact List.filter_cons_of_pos (decide_eq_true rfl)
  unfold view Dealing.leaves
  rw [h.find?, h.memory, h.asked, h.probed, h.events, if_pos rfl, if_pos rfl, if_pos rfl,
    if_pos rfl, List.filter_append, hnews]
  rfl

omit [LawfulScalar ω] in
theorem view_of_ne (h : Made d r s t) (hne : name ≠ r.name) : t.view name = s.view name := by
  unfold view
  rw [h.find?, h.memory, h.asked, h.probed, h.events, if_neg hne, if_neg hne, if_neg hne,
    if_neg hne, List.filter_append, Dealing.filter_news_of_ne hne]
  rfl

end Made

theorem deal_made (h : s.selector.Layout) (hr : s.selector.find? name = some r) (d : Dealing ω) :
    Made d r s (s.deal d name).2 :=
  (deal_spec h hr d).2

/-- A dealing does not change what a dealing with another resource looks at. -/
theorem regards_deal (h : s.selector.Layout) (hr : s.selector.find? name = some r) (d : Dealing ω)
    {other : String} (hne : other ≠ name) : s.Regards other (s.deal d name).2 := by
  have hterms := s.sameTerms_deal d name
  have hframe := (changes_deal_of_find? hr d).frame
  exact ⟨hterms.policy, hframe.settings, hterms.listener,
    (deal_made h hr d).view_of_ne (h.name_of_find? hr ▸ hne)⟩

omit [Scalar ω] [LawfulScalar ω] in
theorem Regards.find? (h : s.Regards name t) :
    t.selector.find? name = s.selector.find? name :=
  congrArg View.resource h.view

/-- A dealing does to the view of its resource what it would do in any other system that deals alike
with it. -/
theorem Regards.view_deal (h : s.Regards name t) (hs : s.selector.Layout) (ht : t.selector.Layout)
    (hdiscreet : s.Discreet) (hr : s.selector.find? name = some r) (d : Dealing ω) :
    (t.deal d name).2.view name = (s.deal d name).2.view name := by
  have hr' := h.find?.trans hr
  have hname := hs.name_of_find? hr
  subst hname
  rw [(deal_made ht hr' d).view_self, (deal_made hs hr d).view_self,
    Dealing.leaves_congr h hdiscreet]

theorem Regards.outcome_deal (h : s.Regards name t) (hs : s.selector.Layout)
    (ht : t.selector.Layout) (hdiscreet : s.Discreet) (hr : s.selector.find? name = some r)
    (d : Dealing ω) : (t.deal d name).1 = (s.deal d name).1 := by
  have hr' := h.find?.trans hr
  have hname := hs.name_of_find? hr
  subst hname
  rw [(deal_spec ht hr' d).1, (deal_spec hs hr d).1, Dealing.ends_congr h hdiscreet]

end System

end ResourceSelection
