import ResourceSelection.Proofs.Checker

/-!
# The checker of a selector from the build to the end

A selector with a probe is checked from the time that one of its resources needs it until it is
closed. Three properties of a selector make up this life. It is attended when nothing needs a check
without there being one; a check that has been scheduled stays; and a closed selector stays closed.
Steps keep all three, and `step_induct` takes them to events: they do not depend on the executor, so
ticks and what others do to the host are no cases of their own.

What the executor holds for the selector then follows from `System.Watched`. Others may use the
executor meanwhile, as long as they leave the tasks of the selector alone.
-/

namespace ResourceSelection

variable {ω : Type} [Scalar ω]

/-- Whatever needs a check has one, where there is a probe and the selector is open. -/
def Selector.Attended (s : Selector ω) : Prop :=
  ∀ i c, s.contextAt? i = some c → (∀ earlier, s.policy.needsCheck c earlier = .done true) →
    s.probe.isSome = true → s.closed = false → s.checker.isSome = true

namespace System

/-! ## What steps keep -/

omit [Scalar ω] in
theorem isSome_checker_ensureChecker {s : System ω} (h : s.selector.checker.isSome = true) :
    s.ensureChecker.selector.checker.isSome = true := by
  unfold ensureChecker
  split
  · exact h
  · rfl

theorem Tends.isSome_checker {s t : System ω} (h : s.Tends t)
    (hs : s.selector.checker.isSome = true) : t.selector.checker.isSome = true := by
  rcases h.cases_checker with same | ⟨u, same, rfl⟩
  · exact same.checker ▸ hs
  · exact isSome_checker_ensureChecker (same.checker ▸ hs)

theorem Tends.attended {s t : System ω} (h : s.Tends t) (hobliging : s.selector.Obliging)
    (hs : s.selector.Attended) : t.selector.Attended := by
  have hterms := h.sameTerms
  intro i c hc hneeds hprobe hopen
  rw [hterms.policy] at hneeds
  rw [hterms.probe] at hprobe
  rw [hterms.closed] at hopen
  -- a context that was there before had its check already
  have hbefore (hold : s.selector.contextAt? i = some c) : t.selector.checker.isSome = true :=
    h.isSome_checker (hs i c hold hneeds hprobe hopen)
  cases h with
  | aside same contexts => exact hbefore (contexts i ▸ hc)
  | @move u same place r weight others moved =>
      have hcontext : (u.checkIfNeeded r weight).2.selector.contextAt? i =
          u.selector.contextAt? i :=
        contextAt?_congr (calm_checkIfNeeded r weight u).states i
      rw [hcontext] at hc
      rcases eq_or_ne i place with rfl | hne
      · obtain rfl : c = r.contextAt weight := Option.some.inj (hc.symm.trans moved)
        have hanswer := hneeds (u.host.asked.count r.name)
        rw [← same.policy] at hanswer
        have hcheck : (u.checkIfNeeded r weight).2 =
            (u.asking (u.host.asked.bump r.name)).ensureChecker := by
          unfold checkIfNeeded
          rw [askNeed_eq, hanswer]
          rfl
        rw [hcheck]
        exact isSome_ensureChecker (same.probe ▸ hprobe) (same.closed.trans hopen)
      · exact hbefore (others i hne ▸ hc)
  | crash same crashed => exact absurd hobliging crashed

omit [Scalar ω] in
theorem sameTerms_close (s : System ω) : s.close.selector.id = s.selector.id ∧
    s.close.selector.policy = s.selector.policy ∧
    s.close.selector.listener = s.selector.listener ∧
    s.close.selector.probe = s.selector.probe := by
  unfold close cancelChecker
  split
  · exact ⟨rfl, rfl, rfl, rfl⟩
  · split
    · exact ⟨rfl, rfl, rfl, rfl⟩
    · exact ⟨rfl, rfl, rfl, rfl⟩

/-! ## Events -/

/-- What every step and the end of checking preserve of a selector, every event does. -/
theorem step_induct {P : Selector ω → Prop}
    (htends : ∀ {s t : System ω}, s.Tends t → P s.selector → P t.selector)
    (hclose : ∀ {s : System ω}, P s.selector → P s.close.selector) (e : Event ω) {s : System ω}
    (hs : P s.selector) : P (s.step e).selector := by
  have htended {s t : System ω} (h : s.Tended t) (hs : P s.selector) : P t.selector :=
    h.induct (P := fun u => P u.selector) htends hs
  cases e with
  | call c =>
      by_cases hc : c = .close
      · subst hc
        exact hclose hs
      · exact htended (tended_call hc s) hs
  | tick =>
      refine ManualExecutor.tick_induct (P := fun t : System ω => P t.selector) ?_ _ s hs
      intro id x t ht
      rcases eq_or_ne id t.selector.id with rfl | hne
      · rw [runCheck_self]
        exact htended (tended_checkIn _ (t.on x)) ht
      · rw [runCheck_of_ne hne]
        exact ht
  | others host => exact hs

/-- A selector without handle does nothing in a tick. -/
theorem tick_of_closed {s : System ω} (hs : s.Watched) (hclosed : s.selector.closed = true) :
    s.tick.2.selector = s.selector ∧ s.tick.2.host.probed = s.host.probed := by
  have hsurvives : ManualExecutor.Survives runCheck fun x (t : System ω) =>
      (t.on x).Watched ∧ t.selector = s.selector ∧ t.host.probed = s.host.probed := by
    constructor
    case skip => exact fun h hc => ⟨survives_watched.skip h.1 hc, h.2⟩
    case again =>
      intro x x' t t' before after h task task' ht hc hrun
      rcases eq_or_ne task t.selector.id with rfl | hne
      · -- it would have to be live, and then the selector would know it
        have hlive : (h, t.selector.id) ∈
            (x.withEarlier (before ++ (h, t.selector.id) :: after)).live :=
          ManualExecutor.mem_live.2 ⟨by simp [ManualExecutor.withEarlier], hc⟩
        have hnone := hs.closed hclosed
        rw [← ht.2.1, show t.selector.checker = some h from ht.1.mem_live_iff.1 hlive] at hnone
        exact absurd hnone (Option.some_ne_none h)
      · rw [runCheck_of_ne hne] at hrun
        cases hrun
    case stop =>
      intro x x' t t' before after h task task' ht hc hrun
      refine ⟨survives_watched.stop ht.1 hc hrun, ?_⟩
      rcases eq_or_ne task t.selector.id with rfl | hne
      · rw [runCheck_self] at hrun
        cases hrun
      · rw [runCheck_of_ne hne] at hrun
        cases hrun
        exact ht.2
  exact (hsurvives.tick (x := s.host.executor) (s := s) ⟨hs, rfl, rfl⟩).2

end System

/-! ## Sparing the tasks of a selector -/

/-- Others have used the executor, and left the tasks of one number alone. -/
structure ManualExecutor.Spares (id : Nat) (x y : ManualExecutor Nat) : Prop where
  handed : y.Handed
  entries : y.entries.filter (fun entry => entry.2 = id) =
    x.entries.filter fun entry => entry.2 = id
  live : y.live.filter (fun entry => entry.2 = id) = x.live.filter fun entry => entry.2 = id

/-- Any event but one in which others meddle with the tasks of the selector. -/
def Event.Spares (e : Event ω) (s : System ω) : Prop :=
  match e with
  | .others host => s.host.executor.Spares s.selector.id host.executor
  | _ => True

/-- What events make of a system, as long as its tasks are left alone. -/
inductive System.Leads (s : System ω) : System ω → Prop
  | refl : s.Leads s
  | step {t : System ω} (e : Event ω) : s.Leads t → e.Spares t → s.Leads (t.step e)

namespace System

variable {s t : System ω}

theorem Watched.step (hs : s.Watched) {e : Event ω} (he : e.Spares s) : (s.step e).Watched := by
  cases e with
  | call c =>
      by_cases hc : c = .close
      · subst hc
        exact hs.close
      · exact (tended_call hc s).watched hs
  | tick => exact survives_watched.tick (x := s.host.executor) (s := s) hs
  | others host => exact ⟨he.handed, he.live.trans hs.live, hs.closed⟩

theorem Leads.watched (h : s.Leads t) (hs : s.Watched) : t.Watched := by
  induction h with
  | refl => exact hs
  | step e _ he ih => exact ih.step he

theorem Leads.induct {P : Selector ω → Prop}
    (htends : ∀ {s t : System ω}, s.Tends t → P s.selector → P t.selector)
    (hclose : ∀ {s : System ω}, P s.selector → P s.close.selector) (h : s.Leads t)
    (hs : P s.selector) : P t.selector := by
  induction h with
  | refl => exact hs
  | step e _ _ ih => exact step_induct htends hclose e ih

theorem Leads.closed (h : s.Leads t) (hs : s.selector.closed = true) : t.selector.closed = true :=
  h.induct (P := fun s => s.closed = true) (fun hstep hs => hstep.sameTerms.closed.trans hs)
    (fun _ => closed_close _) hs

/-- A check stays scheduled for as long as the selector is open. -/
theorem Leads.isSome_checker (h : s.Leads t) (hs : s.selector.checker.isSome = true)
    (hopen : t.selector.closed = false) : t.selector.checker.isSome = true := by
  refine h.induct (P := fun u => u.closed = false → u.checker.isSome = true) ?_ ?_
    (fun _ => hs) hopen
  · exact fun hstep hs hopen => hstep.isSome_checker (hs (hstep.sameTerms.closed ▸ hopen))
  · exact fun _ hopen => nomatch (closed_close _).symm.trans hopen

theorem Leads.policy (h : s.Leads t) : t.selector.policy = s.selector.policy ∧
    t.selector.listener = s.selector.listener ∧ t.selector.probe = s.selector.probe ∧
    t.selector.id = s.selector.id := by
  refine h.induct (P := fun u => u.policy = s.selector.policy ∧ u.listener = s.selector.listener ∧
    u.probe = s.selector.probe ∧ u.id = s.selector.id) ?_ ?_ ⟨rfl, rfl, rfl, rfl⟩
  · rintro t u hstep ⟨hpolicy, hlistener, hprobe, hid⟩
    have hterms := hstep.sameTerms
    exact ⟨hterms.policy.trans hpolicy, hterms.listener.trans hlistener,
      hterms.probe.trans hprobe, hterms.id.trans hid⟩
  · rintro t ⟨hpolicy, hlistener, hprobe, hid⟩
    obtain ⟨hid', hpolicy', hlistener', hprobe'⟩ := t.sameTerms_close
    exact ⟨hpolicy'.trans hpolicy, hlistener'.trans hlistener, hprobe'.trans hprobe,
      hid'.trans hid⟩

theorem Leads.attended (h : s.Leads t) (hobliging : s.selector.Obliging)
    (hs : s.selector.Attended) : t.selector.Attended := by
  suffices t.selector.Obliging ∧ t.selector.Attended from this.2
  refine h.induct (P := fun u => u.Obliging ∧ u.Attended) ?_ ?_ ⟨hobliging, hs⟩
  · exact fun hstep hs => ⟨hstep.sameTerms.obliging hs.1, hstep.attended hs.1 hs.2⟩
  · rintro u ⟨hobliging, -⟩
    obtain ⟨-, hpolicy, hlistener, -⟩ := u.sameTerms_close
    refine ⟨⟨hpolicy ▸ hobliging.policy, hpolicy ▸ hobliging.answers,
      hlistener ▸ hobliging.listener⟩, ?_⟩
    exact fun _ _ _ _ _ hopen => nomatch u.closed_close.symm.trans hopen

/-! ## Without a probe -/

omit [Scalar ω] in
theorem ensureChecker_of_probeless (hprobe : s.selector.probe = none) : s.ensureChecker = s := by
  unfold ensureChecker
  rw [hprobe]
  rfl

theorem Tended.executor_of_probeless (h : s.Tended t) (hprobe : s.selector.probe = none) :
    t.host.executor = s.host.executor := by
  suffices t.selector.probe = none ∧ t.host.executor = s.host.executor from this.2
  refine h.induct (P := fun u => u.selector.probe = none ∧ u.host.executor = s.host.executor) ?_
    ⟨hprobe, rfl⟩
  rintro u v hstep ⟨hnone, hsame⟩
  refine ⟨hstep.sameTerms.probe.trans hnone, ?_⟩
  rcases hstep.cases_checker with same | ⟨w, same, rfl⟩
  · exact same.executor.trans hsame
  · rw [ensureChecker_of_probeless (same.probe.trans hnone)]
    exact same.executor.trans hsame

/-- The executor has nothing of the selector, cancelled or not. -/
def Unscheduled (s : System ω) : Prop :=
  ∀ entry ∈ s.host.executor.entries, entry.2 ≠ s.selector.id

omit [Scalar ω] in
theorem entries_close (s : System ω) :
    s.close.host.executor.entries = s.host.executor.entries := by
  unfold close cancelChecker
  split
  · rfl
  · split
    · rfl
    · rfl

theorem survives_unscheduled : ManualExecutor.Survives runCheck fun x (s : System ω) =>
    (s.on x).Unscheduled := by
  constructor
  case skip =>
    intro x s before after h task hs _ entry hentry
    refine hs entry ?_
    simp only [on, ManualExecutor.withEarlier, List.mem_append, List.mem_cons] at hentry ⊢
    tauto
  case again =>
    intro x x' s s' before after h task task' hs _ hrun
    rcases eq_or_ne task s.selector.id with rfl | hne
    · exact absurd rfl (hs (h, s.selector.id) (by simp [on, ManualExecutor.withEarlier]))
    · rw [runCheck_of_ne hne] at hrun
      cases hrun
  case stop =>
    intro x x' s s' before after h task task' hs _ hrun
    rcases eq_or_ne task s.selector.id with rfl | hne
    · exact absurd rfl (hs (h, s.selector.id) (by simp [on, ManualExecutor.withEarlier]))
    · rw [runCheck_of_ne hne] at hrun
      cases hrun
      intro entry hentry
      refine hs entry ?_
      simp only [on, ManualExecutor.withEarlier, List.mem_append, List.mem_cons,
        ManualExecutor.cancel] at hentry ⊢
      tauto

theorem Unscheduled.step (hs : s.Unscheduled) (hprobe : s.selector.probe = none) {e : Event ω}
    (he : e.Spares s) : (s.step e).Unscheduled := by
  cases e with
  | call c =>
      by_cases hc : c = .close
      · subst hc
        intro entry hentry
        rw [show (s.step (.call .close)).selector.id = _ from s.sameTerms_close.1]
        exact hs entry (s.entries_close ▸ hentry)
      · have htended := tended_call hc s
        intro entry hentry
        rw [show (s.step (.call c)).selector.id = _ from htended.sameTerms.id]
        exact hs entry (htended.executor_of_probeless hprobe ▸ hentry)
  | tick => exact survives_unscheduled.tick (x := s.host.executor) (s := s) hs
  | others host =>
      intro entry hentry heq
      have hmem : entry ∈ s.host.executor.entries.filter fun entry => entry.2 = s.selector.id :=
        he.entries ▸ List.mem_filter.2 ⟨hentry, decide_eq_true heq⟩
      exact hs entry (List.mem_filter.1 hmem).1 heq

theorem Leads.unscheduled (h : s.Leads t) (hprobe : s.selector.probe = none)
    (hs : s.Unscheduled) : t.Unscheduled := by
  induction h with
  | refl => exact hs
  | step e hleads he ih => exact ih.step (hleads.policy.2.2.1.trans hprobe) he

omit [Scalar ω] in
theorem Unscheduled.checker_eq_none (hs : s.Unscheduled) (hwatched : s.Watched) :
    s.selector.checker = none := by
  refine Option.eq_none_iff_forall_ne_some.2 fun h hchecker => ?_
  exact hs _ (ManualExecutor.mem_live.1 (hwatched.mem_live_iff.2 hchecker)).1 rfl

theorem executor_call_of_probeless (hprobe : s.selector.probe = none)
    (hchecker : s.selector.checker = none) (c : Call) :
    (s.call c).host.executor = s.host.executor := by
  by_cases hc : c = .close
  · subst hc
    show s.close.host.executor = _
    unfold close cancelChecker
    simp only [hchecker]
    split
    · rfl
    · rfl
  · exact (tended_call hc s).executor_of_probeless hprobe

/-! ## Check passes without a checker -/

/-- The second system is the first one with another checker. -/
def Twin (s t : System ω) : Prop :=
  ∃ checker closed x, t = (System.mk { s.selector with checker, closed } s.host).on x

namespace Twin

omit [Scalar ω] in
theorem symm (h : s.Twin t) : t.Twin s := by
  obtain ⟨checker, closed, x, rfl⟩ := h
  exact ⟨s.selector.checker, s.selector.closed, s.host.executor, rfl⟩

omit [Scalar ω] in
theorem trans {u : System ω} (h : s.Twin t) (h' : t.Twin u) : s.Twin u := by
  obtain ⟨checker, closed, x, rfl⟩ := h
  obtain ⟨checker', closed', x', rfl⟩ := h'
  exact ⟨checker', closed', x', rfl⟩

omit [Scalar ω] in
theorem ensureChecker (s : System ω) : s.Twin s.ensureChecker := by
  unfold System.ensureChecker
  split
  · exact ⟨_, _, _, rfl⟩
  · exact ⟨_, _, _, rfl⟩

omit [Scalar ω] in
theorem close (s : System ω) : s.Twin s.close := by
  unfold System.close cancelChecker
  split
  · exact ⟨_, _, _, rfl⟩
  · split
    · exact ⟨_, _, _, rfl⟩
    · exact ⟨_, _, _, rfl⟩

omit [Scalar ω] in
theorem count (h : s.Twin t) (f : Counters → Counters) : (s.count f).Twin (t.count f) := by
  obtain ⟨checker, closed, x, rfl⟩ := h
  exact ⟨_, _, _, rfl⟩

theorem askNeed (h : s.Twin t) (r : Resource ω) (weight : ω) :
    (s.askNeed r weight).1 = (t.askNeed r weight).1 ∧
      (s.askNeed r weight).2.Twin (t.askNeed r weight).2 := by
  obtain ⟨checker, closed, x, rfl⟩ := h
  exact ⟨rfl, _, _, _, rfl⟩

theorem checkIfNeeded (h : s.Twin t) (r : Resource ω) (weight : ω) :
    (s.checkIfNeeded r weight).1 = (t.checkIfNeeded r weight).1 ∧
      (s.checkIfNeeded r weight).2.Twin (t.checkIfNeeded r weight).2 := by
  have hasked := h.askNeed r weight
  unfold System.checkIfNeeded
  rcases hs : s.askNeed r weight with ⟨answer, s'⟩
  rcases ht : t.askNeed r weight with ⟨answer', t'⟩
  rw [hs, ht] at hasked
  obtain ⟨rfl, htwin⟩ := hasked
  cases answer with
  | crashed => exact ⟨rfl, htwin⟩
  | done needed =>
      cases needed with
      | false => exact ⟨rfl, htwin⟩
      | true => exact ⟨rfl, ((Twin.ensureChecker s').symm.trans htwin).trans (.ensureChecker t')⟩

omit [Scalar ω] in
theorem notify (h : s.Twin t) (change : WeightChange ω) :
    (s.notify change).1 = (t.notify change).1 ∧ (s.notify change).2.Twin (t.notify change).2 := by
  obtain ⟨checker, closed, x, rfl⟩ := h
  rcases s with ⟨⟨_, _, _, _ | l, _, _, _, _, _, _, _⟩, host⟩
  · exact ⟨rfl, _, _, _, rfl⟩
  · exact ⟨rfl, _, _, _, rfl⟩

theorem refreshGroup (h : s.Twin t) (priority : Nat) :
    (System.mk (s.selector.refreshGroup priority) s.host).Twin
      ⟨t.selector.refreshGroup priority, t.host⟩ := by
  obtain ⟨checker, closed, x, rfl⟩ := h
  unfold Selector.refreshGroup
  simp only [on]
  split
  · exact ⟨_, _, _, rfl⟩
  · exact ⟨_, _, _, rfl⟩

theorem applyChange (h : s.Twin t) (r : Resource ω) (old new : ω) (cause : Cause) :
    (s.applyChange r old new cause).1 = (t.applyChange r old new cause).1 ∧
      (s.applyChange r old new cause).2.Twin (t.applyChange r old new cause).2 := by
  unfold System.applyChange
  split
  · exact h.checkIfNeeded r new
  · have hnotify := (h.refreshGroup r.priority).notify
      ⟨r.name, old, new, r.maxWeight, r.minWeight, r.priority, cause⟩
    simp only
    rcases hs : System.notify _ (System.mk (s.selector.refreshGroup r.priority) s.host) with
      ⟨outcome, s'⟩
    rcases ht : System.notify _ (System.mk (t.selector.refreshGroup r.priority) t.host) with
      ⟨outcome', t'⟩
    rw [hs, ht] at hnotify
    obtain ⟨rfl, htwin⟩ := hnotify
    cases outcome with
    | crashed => exact ⟨rfl, htwin⟩
    | done => exact htwin.checkIfNeeded r new

theorem propose (h : s.Twin t) (place : Nat) (r : Resource ω) (weight : ω) :
    (s.propose place r weight).2.Twin (t.propose place r weight).2 := by
  obtain ⟨checker, closed, x, rfl⟩ := h
  exact ⟨_, _, _, rfl⟩

theorem askProbe (h : s.Twin t) (probe : Probe ω) (name : String) :
    (s.askProbe probe name).1 = (t.askProbe probe name).1 ∧
      (s.askProbe probe name).2.Twin (t.askProbe probe name).2 := by
  obtain ⟨checker, closed, x, rfl⟩ := h
  exact ⟨rfl, _, _, _, rfl⟩

theorem proposalFor (h : s.Twin t) (rate : ω) (r : Resource ω) :
    (s.proposalFor rate r).1 = (t.proposalFor rate r).1 ∧
      (s.proposalFor rate r).2.Twin (t.proposalFor rate r).2 := by
  obtain ⟨checker, closed, x, rfl⟩ := h
  unfold System.proposalFor
  simp only [askPolicy_eq]
  split
  · exact ⟨rfl, _, _, _, rfl⟩
  · exact ⟨rfl, _, _, _, rfl⟩

theorem probeResource (h : s.Twin t) (probe : Probe ω) (name : String) (place : Nat)
    (r : Resource ω) :
    (s.probeResource probe name place r).1 = (t.probeResource probe name place r).1 ∧
      (s.probeResource probe name place r).2.Twin (t.probeResource probe name place r).2 := by
  obtain ⟨hrate, hasked⟩ :=
    (h.count fun c => { c with probes := c.probes + 1 }).askProbe probe name
  unfold System.probeResource
  simp only
  generalize System.askProbe probe name (s.count _) = asked at *
  generalize System.askProbe probe name (t.count _) = asked' at *
  obtain ⟨rate, s₁⟩ := asked
  obtain ⟨rate', t₁⟩ := asked'
  obtain rfl : rate = rate' := hrate
  have hproposal := Twin.proposalFor hasked rate r
  simp only at hproposal ⊢
  rcases hs : s₁.proposalFor rate r with ⟨outcome, s'⟩
  rcases ht : t₁.proposalFor rate r with ⟨outcome', t'⟩
  rw [hs, ht] at hproposal
  obtain rfl : outcome = outcome' := hproposal.1
  have htwin : s'.Twin t' := hproposal.2
  cases outcome with
  | crashed => exact ⟨rfl, htwin⟩
  | done weight => exact (htwin.propose place r weight).applyChange r _ _ .healthCheck

theorem checkResource (h : s.Twin t) (probe : Probe ω) (name : String) :
    (s.checkResource probe name).1 = (t.checkResource probe name).1 ∧
      (s.checkResource probe name).2.Twin (t.checkResource probe name).2 := by
  have hentry : t.selector.entry? name = s.selector.entry? name := by
    obtain ⟨checker, closed, x, rfl⟩ := h
    rfl
  unfold System.checkResource
  rw [hentry]
  split
  · exact ⟨rfl, h⟩
  · next place r _ =>
      have hasked := h.askNeed r r.current
      rcases hs : s.askNeed r r.current with ⟨answer, s'⟩
      rcases ht : t.askNeed r r.current with ⟨answer', t'⟩
      rw [hs, ht] at hasked
      obtain ⟨rfl, htwin⟩ := hasked
      cases answer with
      | crashed => exact ⟨rfl, htwin⟩
      | done needed =>
          cases needed with
          | false => exact ⟨rfl, htwin⟩
          | true =>
              obtain ⟨hdone, hend⟩ := htwin.probeResource probe name place r
              exact ⟨congrArg (Outcome.map fun _ => true) hdone, hend⟩

theorem checkEach (h : s.Twin t) (probe : Probe ω) (order : List String) :
    (s.checkEach probe order).1 = (t.checkEach probe order).1 ∧
      (s.checkEach probe order).2.Twin (t.checkEach probe order).2 := by
  induction order generalizing s t with
  | nil => exact ⟨rfl, h⟩
  | cons name rest ih =>
      obtain ⟨hfirst, htwin⟩ := h.checkResource probe name
      obtain ⟨hrest, hend⟩ := ih htwin
      unfold System.checkEach
      simp only
      rw [hfirst, hrest]
      exact ⟨rfl, hend⟩

theorem checkIn (h : s.Twin t) (order : List String) :
    (s.checkIn order).1 = (t.checkIn order).1 ∧
      (s.checkIn order).2.Twin (t.checkIn order).2 := by
  have hprobe : t.selector.probe = s.selector.probe := by
    obtain ⟨_, _, _, rfl⟩ := h
    rfl
  unfold System.checkIn
  rw [hprobe]
  split
  · exact ⟨rfl, h⟩
  · next probe _ => exact h.checkEach probe order

end Twin

end System

/-! ## Builds -/

namespace Builder

variable {b : Builder ω} {id : Nat} {host : Host ω} {s : System ω}

/-- On an executor that does not know its number, a new selector is watched. -/
theorem watched_toSelector (b : Builder ω) (hhanded : host.executor.Handed)
    (hnew : ∀ entry ∈ host.executor.entries, entry.2 ≠ id) (asked : Tally) :
    System.Watched ⟨b.toSelector id, { host with asked }⟩ := by
  refine ⟨hhanded, List.filter_eq_nil_iff.2 fun entry hentry => ?_, nofun⟩
  have hne : entry.2 ≠ id := hnew entry (ManualExecutor.mem_live.1 hentry).1
  exact fun heq => hne (of_decide_eq_true heq)

theorem watched_of_build (h : b.build id host = .ok s) (hhanded : host.executor.Handed)
    (hnew : ∀ entry ∈ host.executor.entries, entry.2 ≠ id) : s.Watched := by
  obtain ⟨-, asked, rfl | ⟨rfl, -⟩⟩ := build_cases h
  · exact (b.watched_toSelector hhanded hnew asked).ensureChecker
  · exact b.watched_toSelector hhanded hnew asked

theorem attended_of_build (h : b.build id host = .ok s) : s.selector.Attended := by
  intro i c hc hneeds hprobe hopen
  obtain ⟨-, asked, rfl | ⟨rfl, hnothing⟩⟩ := build_cases h
  · have hterms := System.sameTerms_ensureChecker ⟨b.toSelector id, { host with asked }⟩
    exact System.isSome_ensureChecker (hterms.probe ▸ hprobe) (hterms.closed ▸ hopen)
  · obtain ⟨r, hr, rfl⟩ := Option.map_eq_some_iff.1 hc
    obtain ⟨earlier, hanswer⟩ := hnothing r (List.mem_of_getElem? hr)
    exact nomatch (hneeds earlier).symm.trans hanswer

/-- Without a probe a build leaves the executor alone. -/
theorem unscheduled_of_build (h : b.build id host = .ok s) (hprobe : b.probe = none)
    (hnew : ∀ entry ∈ host.executor.entries, entry.2 ≠ id) : s.Unscheduled := by
  obtain ⟨-, asked, rfl | ⟨rfl, -⟩⟩ := build_cases h
  · rw [System.ensureChecker_of_probeless hprobe]
    exact hnew
  · exact hnew

theorem terms_of_build (h : b.build id host = .ok s) :
    (b.toSelector id).SameTerms s.selector := by
  obtain ⟨-, asked, rfl | ⟨rfl, -⟩⟩ := build_cases h
  · exact System.sameTerms_ensureChecker ⟨b.toSelector id, { host with asked }⟩
  · exact .refl _

end Builder

/-- From its build on, whatever happens to a selector, the executor holds one live task of it while
it is being checked and none otherwise. With a probe, a shipped rule and a listener that survives,
it is being checked as long as it is open and one of its resources is down, and a check that has
been scheduled stays until the end. After that nothing of it is ever live again and no tick probes
it, while a check pass does what it does on an open selector. Without a probe nothing is ever
scheduled. -/
theorem checker_lifecycle {b : Builder Float} {id : Nat} {host : Host Float}
    {s t : System Float} (hbuild : b.build id host = .ok s) (hhanded : host.executor.Handed)
    (hnew : ∀ entry ∈ host.executor.entries, entry.2 ≠ id) (hleads : s.Leads t) :
    t.liveTasks.length = (if t.isChecking then 1 else 0) ∧
    (b.probe.isSome = true → (∃ rule, b.policy.getD (.shipped b.settings.rule) = .shipped rule) →
      (∀ l, b.listener = some l → ∀ told change, l.crashes told change = false) →
      t.selector.closed = false → ∀ name r, t.selector.find? name = some r → r.isFailed = true →
      t.isChecking = true) ∧
    (t.isChecking = true → ∀ u, t.Leads u → u.selector.closed = false → u.isChecking = true) ∧
    (t.selector.closed = true → ∀ u, t.Leads u → u.selector.closed = true ∧ u.liveTasks = [] ∧
      u.tick.2.selector = u.selector ∧ u.tick.2.host.probed = u.host.probed) ∧
    (t.close.selector.closed = true ∧ t.Twin t.close ∧ ∀ u order, t.Twin u →
      (t.checkIn order).1 = (u.checkIn order).1 ∧
      (t.checkIn order).2.Twin (u.checkIn order).2) ∧
    (b.probe = none → t.isChecking = false ∧ t.Unscheduled ∧
      ∀ c, (t.call c).host.executor = t.host.executor) := by
  have hwatched : t.Watched := hleads.watched (Builder.watched_of_build hbuild hhanded hnew)
  have hbuilt := Builder.terms_of_build hbuild
  obtain ⟨hpolicy, hlistener, hprobe, hid⟩ := hleads.policy
  refine ⟨hwatched.length_liveTasks, ?_, ?_, ?_,
    ⟨t.closed_close, .close t, fun _ order htwin => htwin.checkIn order⟩, ?_⟩
  · rintro hprobed ⟨rule, hrule⟩ hsurvives hopen name r hr hfailed
    have hshipped : s.selector.policy = .shipped rule := hbuilt.policy.trans hrule
    have hobliging : s.selector.Obliging := by
      refine ⟨fun result c m => ?_, ?_, fun {l} hl => hsurvives l ?_⟩
      · rw [hshipped]
        exact Policy.onResult_shipped rule result c m
      · rw [hshipped]
        exact Policy.answers_shipped rule
      · exact hbuilt.listener.symm.trans hl
    have hattended := hleads.attended hobliging (Builder.attended_of_build hbuild)
    obtain ⟨entry, hentry, rfl⟩ := Option.map_eq_some_iff.1 hr
    rw [hwatched.isChecking]
    refine hattended entry.1 entry.2.context ?_ ?_ ?_ hopen
    · unfold Selector.contextAt?
      rw [Selector.states_of_entry? hentry]
      rfl
    · rw [hpolicy, hshipped]
      exact fun _ => congrArg Outcome.done hfailed
    · rw [hprobe, hbuilt.probe]
      exact hprobed
  · intro hchecking u hu hopen
    rw [hwatched.isChecking] at hchecking
    rw [(hu.watched hwatched).isChecking]
    exact hu.isSome_checker hchecking hopen
  · intro hclosed u hu
    have hwatched' := hu.watched hwatched
    have hclosed' := hu.closed hclosed
    refine ⟨hclosed', ?_, System.tick_of_closed hwatched' hclosed'⟩
    rw [hwatched'.live, hwatched'.closed hclosed']
    rfl
  · intro hnone
    have hunscheduled : t.Unscheduled := hleads.unscheduled (hbuilt.probe.trans hnone)
      (Builder.unscheduled_of_build hbuild hnone hnew)
    have hchecker := hunscheduled.checker_eq_none hwatched
    refine ⟨?_, hunscheduled, fun c => ?_⟩
    · rw [hwatched.isChecking, hchecker]
      rfl
    · exact t.executor_call_of_probeless (hprobe.trans (hbuilt.probe.trans hnone)) hchecker c

/-- The pair of resources with a probe that never helps. -/
def Builder.probed : Builder Float :=
  { Builder.pair with probe := some ⟨fun _ _ => .answer 0⟩ }

/-- A resource that has been forced down is checked until the end, if there is a probe. -/
theorem checker_lifecycle_pair :
    (∃ s r, Builder.probed.build 0 { rng := ⟨0⟩ } = .ok s ∧
      (s.call (.down "a")).selector.find? "a" = some r ∧ r.isFailed = true ∧
      (s.call (.down "a")).isChecking = true ∧ (s.call (.down "a")).liveTasks.length = 1 ∧
      ((s.call (.down "a")).call (.report .success "a")).isChecking = true ∧
      (s.call (.down "a")).close.liveTasks = []) ∧
    ∃ s, Builder.pair.build 0 { rng := ⟨0⟩ } = .ok s ∧ (s.call (.down "a")).Unscheduled := by
  constructor
  · obtain ⟨s, hbuild⟩ :=
      Builder.exists_build (b := Builder.probed) rfl (.of_none rfl) 0 { rng := ⟨0⟩ }
    have hfound : s.selector.find? "a" = some (.ofDeclaration "a" (.ofWeight 100) true) :=
      Builder.find?_of_build hbuild "a"
    have hdown := System.find?_down (Builder.Reaches.built hbuild).layout hfound "a"
    rw [if_pos rfl] at hdown
    have hfailed : Resource.isFailed ((Resource.ofDeclaration "a"
        (Declaration.ofWeight (100 : Float)) true).forceDown.2.finished
        s.selector.settings.tracksCalls) = true := by
      cases s.selector.settings.tracksCalls <;> decide +kernel
    have hleads : s.Leads (s.call (.down "a")) := .step (.call (.down "a")) .refl trivial
    obtain ⟨hlive, hneeded, hstays, -, -, -⟩ :=
      checker_lifecycle hbuild ManualExecutor.handed_default nofun hleads
    have hopen : (s.call (.down "a")).selector.closed = false :=
      (s.tends_down "a").sameTerms.closed.trans (Builder.terms_of_build hbuild).closed
    have hchecking := hneeded rfl ⟨_, rfl⟩ nofun hopen "a" _ hdown hfailed
    rw [hchecking] at hlive
    refine ⟨s, _, hbuild, hdown, hfailed, hchecking, hlive, ?_, ?_⟩
    · exact hstays hchecking _ (.step (.call (.report .success "a")) .refl trivial)
        ((System.tends_report .success "a" _).sameTerms.closed.trans hopen)
    · have hclosed := (s.call (.down "a")).closed_close
      exact ((checker_lifecycle hbuild ManualExecutor.handed_default nofun
        (.step (.call .close) hleads trivial)).2.2.2.1 hclosed _ .refl).2.1
  · obtain ⟨s, hbuild⟩ := Builder.exists_build Builder.pair_valid (.of_none rfl) 0 { rng := ⟨0⟩ }
    have hleads : s.Leads (s.call (.down "a")) := .step (.call (.down "a")) .refl trivial
    exact ⟨s, hbuild, ((checker_lifecycle hbuild ManualExecutor.handed_default nofun
      hleads).2.2.2.2.2 rfl).2.1⟩

end ResourceSelection
