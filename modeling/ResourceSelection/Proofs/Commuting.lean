import ResourceSelection.Proofs.Listening
import ResourceSelection.Proofs.Locality

/-!
# Dealings with different resources commute

Two dealings with two resources come to the same in either order. They are not independent on the
face of it: both count, both may renew the snapshot of one group, both write to the memory of one
policy and to one log, and both may be the first to schedule a check.

Neither changes what the other looks at, so each of the two does in second place what it would have
done in first place. It remains to see that the effects commute. The resources are found by name,
the counts add up, a check is scheduled once, and the snapshots are those of the weights at the end,
since they are never left behind (`Selector.Settled`).

Two places keep an order: the log, in which the changes of different resources are mixed, and the
lists behind the counts by name. Nothing reads either of them across resources, and `System.Alike` is
equality up to that.
-/

namespace ResourceSelection

variable {ω : Type} [Scalar ω]

namespace System

variable {s t u : System ω}

/-! ## Systems that nothing tells apart -/

/-- The systems are the same, but for the order in which the changes of different resources stand in
the log, and for the order of the counts by name. -/
structure Alike (s t : System ω) : Prop where
  selector : t.selector = s.selector
  rng : t.host.rng = s.host.rng
  executor : t.host.executor = s.host.executor
  view (name : String) : t.view name = s.view name

namespace Alike

omit [Scalar ω] in
theorem refl (s : System ω) : s.Alike s := ⟨rfl, rfl, rfl, fun _ => rfl⟩

omit [Scalar ω] in
theorem trans (h : s.Alike t) (h' : t.Alike u) : s.Alike u where
  selector := h'.selector.trans h.selector
  rng := h'.rng.trans h.rng
  executor := h'.executor.trans h.executor
  view name := (h'.view name).trans (h.view name)

end Alike

end System

namespace Selector

/-- In settled groups all follows from what they keep, whose turn it is, and the states. -/
theorem Settled.pools_eq {s t : Selector ω} (hs : s.Settled) (ht : t.Settled)
    (hstates : t.states = s.states)
    (hfixed : t.pools.map GroupOf.fixed = s.pools.map GroupOf.fixed)
    (hcursors : t.pools.map (·.cursor) = s.pools.map (·.cursor)) : t.pools = s.pools := by
  refine List.ext_getElem? fun i => ?_
  have hfixed := congrArg (·[i]?) hfixed
  have hcursors := congrArg (·[i]?) hcursors
  simp only [List.getElem?_map] at hfixed hcursors
  cases hp : s.pools[i]? with
  | none =>
      rw [hp] at hfixed
      simpa using hfixed
  | some p =>
      rw [hp] at hfixed hcursors
      obtain ⟨q, hq, hkept⟩ := Option.map_eq_some_iff.1 hfixed
      rw [hq] at hcursors ⊢
      have hcursor : q.cursor = p.cursor := Option.some.inj hcursors
      have hfresh := (hs p (List.mem_of_getElem? hp)).fresh
      have hfresh' := (ht q (List.mem_of_getElem? hq)).fresh
      rw [hstates] at hfresh'
      obtain ⟨priority, members, totalMax, uniformMax, aliasThreshold, snapshot, cursor⟩ := p
      obtain ⟨priority', members', totalMax', uniformMax', aliasThreshold', snapshot', cursor'⟩ := q
      simp only [GroupOf.fixed, Prod.mk.injEq] at hkept
      obtain ⟨rfl, rfl, rfl, rfl, rfl⟩ := hkept
      have hsnapshot : snapshot' = snapshot := hfresh'.trans hfresh.symm
      rw [hsnapshot, show cursor' = cursor from hcursor]

omit [Scalar ω] in
/-- Where the registry leads, the states are those found by name. -/
theorem Layout.states_eq {s t : Selector ω} (hs : s.Layout) (ht : t.Layout)
    (hregistry : t.registry = s.registry) (hlength : t.states.length = s.states.length)
    (hfind : ∀ name, t.find? name = s.find? name) : t.states = s.states := by
  refine List.ext_getElem? fun i => ?_
  cases hr : s.states[i]? with
  | none => exact List.getElem?_eq_none (hlength ▸ List.getElem?_eq_none_iff.1 hr)
  | some r =>
      have hlt : i < t.states.length := hlength ▸ (List.getElem?_eq_some_iff.1 hr).1
      have hplace : s.place? r.name = some i := hs.registered.2 ⟨r, hr, rfl⟩
      have hplace' : t.place? r.name = some i := by
        unfold place?
        rw [hregistry]
        exact hplace
      obtain ⟨r', hr', hname⟩ := ht.registered.1 hplace'
      have hfound := (hfind r.name).trans (hs.find?_eq_some.2 ⟨i, hr, rfl⟩)
      rw [ht.find?_eq_some.2 ⟨i, hr', hname⟩] at hfound
      rw [hr', hfound]

end Selector

namespace System

variable {s t u : System ω} {name : String} {r : Resource ω}

/-- Two ways on from one selector lead to the same where they have the same views, counts, turns and
checker. -/
theorem selector_eq (hs : s.selector.Ready) (ht : s.selector.Changes t.selector)
    (hu : s.selector.Changes u.selector) (htterms : s.selector.SameTerms t.selector)
    (huterms : s.selector.SameTerms u.selector)
    (hfind : ∀ name, u.selector.find? name = t.selector.find? name)
    (hcounters : u.selector.counters = t.selector.counters)
    (hcursors : u.selector.pools.map (·.cursor) = t.selector.pools.map (·.cursor))
    (hchecker : u.selector.checker = t.selector.checker) : u.selector = t.selector := by
  have htframe := ht.frame
  have huframe := hu.frame
  have hregistry : u.selector.registry = t.selector.registry :=
    huframe.registry.trans htframe.registry.symm
  have hstates := (hs.layout.frame htframe).states_eq (hs.layout.frame huframe) hregistry
    (huframe.length.trans htframe.length.symm) hfind
  have hpools := (ht.settled hs.layout hs.settled).pools_eq (hu.settled hs.layout hs.settled)
    hstates (huframe.pools.trans htframe.pools.symm) hcursors
  have hid := huterms.id.trans htterms.id.symm
  have hsettings := huframe.settings.trans htframe.settings.symm
  have hpolicy := huterms.policy.trans htterms.policy.symm
  have hlistener := huterms.listener.trans htterms.listener.symm
  have hprobe := huterms.probe.trans htterms.probe.symm
  have hclosed := huterms.closed.trans htterms.closed.symm
  generalize u.selector = a at *
  generalize t.selector = b at *
  obtain ⟨⟩ := a
  obtain ⟨⟩ := b
  simp only at *
  subst hid hsettings hpolicy hlistener hprobe hstates hregistry hpools hcounters hchecker hclosed
  rfl

variable [LawfulScalar ω]

/-- A check is scheduled if one of the two dealings asks for it. -/
theorem watch_deal_deal (h : s.selector.Layout) (hdiscreet : s.Discreet) {a b : String}
    (hne : a ≠ b) {q r : Resource ω} (hq : s.selector.find? a = some q)
    (hr : s.selector.find? b = some r) (x y : Dealing ω) {u : System ω}
    (hu : Made y r (s.deal x a).2 u) :
    u.watch = if x.summons q s || y.summons r s then s.ensureChecker.watch else s.watch := by
  have hregards := regards_deal h hq x hne.symm
  rw [← h.name_of_find? hr] at hregards
  have hterms := s.sameTerms_deal x a
  have hensured := s.sameTerms_ensureChecker
  rw [hu.watch, (deal_made h hq x).watch, Dealing.summons_congr hregards hdiscreet]
  cases hx : x.summons q s with
  | false =>
      have hwatch : (s.deal x a).2.watch = s.watch := by rw [(deal_made h hq x).watch, hx]; rfl
      rw [watch_ensureChecker_congr hterms hwatch]
      rfl
  | true =>
      have hwatch : (s.deal x a).2.watch = s.ensureChecker.watch := by
        rw [(deal_made h hq x).watch, hx]
        rfl
      have hagain := watch_ensureChecker_congr (hensured.symm.trans hterms) hwatch
      rw [ensureChecker_ensureChecker] at hagain
      rw [hagain]
      simp

omit [LawfulScalar ω] in
/-- A dealing adds to the counters, whatever they are. -/
theorem tally_adds (d : Dealing ω) (r : Resource ω) (s : System ω) :
    ∃ successes failures downs probes probeFailures : UInt64, ∀ c, d.tally r s c =
      { c with
        successes := c.successes + successes
        failures := c.failures + failures
        downs := c.downs + downs
        probes := c.probes + probes
        probeFailures := c.probeFailures + probeFailures } := by
  unfold Dealing.tally
  cases d.concerns r s with
  | false => exact ⟨0, 0, 0, 0, 0, fun c => by simp⟩
  | true =>
      cases d with
      | down => exact ⟨0, 0, 1, 0, 0, fun c => by simp⟩
      | report result =>
          cases result with
          | success => exact ⟨1, 0, 0, 0, 0, fun c => by simp [CallResult.count]⟩
          | failure => exact ⟨0, 1, 0, 0, 0, fun c => by simp [CallResult.count]⟩
      | probe p =>
          by_cases hrate : 0 < p.rateOf r.name s.host
          · exact ⟨0, 0, 0, 1, 0, fun c => by simp [hrate]⟩
          · exact ⟨0, 0, 0, 1, 1, fun c => by simp [hrate]⟩

omit [LawfulScalar ω] in
theorem tally_comm (x y : Dealing ω) (q r : Resource ω) (s : System ω) (c : Counters) :
    x.tally q s (y.tally r s c) = y.tally r s (x.tally q s c) := by
  obtain ⟨_, _, _, _, _, hx⟩ := tally_adds x q s
  obtain ⟨_, _, _, _, _, hy⟩ := tally_adds y r s
  have hcomm (a b c : UInt64) : a + b + c = a + c + b := by
    rw [UInt64.add_assoc, UInt64.add_comm b c, ← UInt64.add_assoc]
  simp only [hx, hy, hcomm]

/-- Two dealings with different resources: each ends as it would have in the other's place, and
nothing tells the systems afterwards apart. -/
theorem deal_comm (h : s.selector.Ready) (hdiscreet : s.Discreet) {a b : String} (hne : a ≠ b)
    {q r : Resource ω} (hq : s.selector.find? a = some q) (hr : s.selector.find? b = some r)
    (x y : Dealing ω) :
    ((s.deal y b).2.deal x a).1 = (s.deal x a).1 ∧ ((s.deal x a).2.deal y b).1 = (s.deal y b).1 ∧
      ((s.deal x a).2.deal y b).2.Alike ((s.deal y b).2.deal x a).2 := by
  have hqname := h.layout.name_of_find? hq
  have hrname := h.layout.name_of_find? hr
  subst hqname hrname
  have hx := deal_made h.layout hq x
  have hy := deal_made h.layout hr y
  have hxready := ready_deal h hq x
  have hyready := ready_deal h hr y
  have hxregards := regards_deal h.layout hq x hne.symm
  have hyregards := regards_deal h.layout hr y hne
  have hr' := hxregards.find?.trans hr
  have hq' := hyregards.find?.trans hq
  have hxy := deal_made hxready.layout hr' y
  have hyx := deal_made hyready.layout hq' x
  have hview (name : String) : ((s.deal y r.name).2.deal x q.name).2.view name =
      ((s.deal x q.name).2.deal y r.name).2.view name := by
    by_cases hqe : name = q.name
    · subst hqe
      rw [hxy.view_of_ne hne, hyregards.view_deal h.layout hyready.layout hdiscreet hq]
    · by_cases hre : name = r.name
      · subst hre
        rw [hyx.view_of_ne hqe, hxregards.view_deal h.layout hxready.layout hdiscreet hr]
      · rw [hyx.view_of_ne hqe, hxy.view_of_ne hre, hy.view_of_ne hre, hx.view_of_ne hqe]
  have hwatch : ((s.deal y r.name).2.deal x q.name).2.watch =
      ((s.deal x q.name).2.deal y r.name).2.watch := by
    rw [watch_deal_deal h.layout hdiscreet hne.symm hr hq y x hyx,
      watch_deal_deal h.layout hdiscreet hne hq hr x y hxy, Bool.or_comm]
  obtain ⟨hchecker, hexecutor⟩ := Prod.mk.inj hwatch
  refine ⟨hyregards.outcome_deal h.layout hyready.layout hdiscreet hq x,
    hxregards.outcome_deal h.layout hxready.layout hdiscreet hr y, ?_, ?_, hexecutor, hview⟩
  · refine selector_eq h ((changes_deal_of_find? hq x).trans (changes_deal_of_find? hr' y))
      ((changes_deal_of_find? hr y).trans (changes_deal_of_find? hq' x))
      ((s.sameTerms_deal x _).trans (sameTerms_deal y _ _))
      ((s.sameTerms_deal y _).trans (sameTerms_deal x _ _))
      (fun name => congrArg View.resource (hview name)) ?_ ?_ hchecker
    · rw [hyx.counters, hy.counters, hxy.counters, hx.counters, Dealing.tally_congr hyregards,
        Dealing.tally_congr hxregards, tally_comm]
    · rw [hyx.cursors, hy.cursors, hxy.cursors, hx.cursors]
  · rw [hyx.rng, hy.rng, hxy.rng, hx.rng]

/-- What is done to one of two systems that nothing tells apart could be done to the other. -/
theorem Alike.deal (halike : s.Alike t) (h : s.selector.Ready) (hdiscreet : s.Discreet)
    (hr : s.selector.find? name = some r) (d : Dealing ω) :
    (t.deal d name).1 = (s.deal d name).1 ∧ (s.deal d name).2.Alike (t.deal d name).2 := by
  have hname := h.layout.name_of_find? hr
  subst hname
  have hregards : s.Regards r.name t :=
    ⟨by rw [halike.selector], by rw [halike.selector], by rw [halike.selector],
      halike.view r.name⟩
  have hr' : t.selector.find? r.name = some r := halike.selector ▸ hr
  have h' : t.selector.Ready := halike.selector ▸ h
  have hs := deal_made h.layout hr d
  have ht := deal_made h'.layout hr' d
  have hview (name : String) : (t.deal d r.name).2.view name = (s.deal d r.name).2.view name := by
    by_cases hne : name = r.name
    · subst hne
      exact hregards.view_deal h.layout h'.layout hdiscreet hr d
    · rw [ht.view_of_ne hne, hs.view_of_ne hne, halike.view]
  have hwatch : (t.deal d r.name).2.watch = (s.deal d r.name).2.watch := by
    have hsame : t.watch = s.watch :=
      Prod.ext (congrArg Selector.checker halike.selector) halike.executor
    rw [ht.watch, hs.watch, Dealing.summons_congr hregards hdiscreet, hsame,
      watch_ensureChecker_congr (halike.selector ▸ .refl _) hsame]
  obtain ⟨hchecker, hexecutor⟩ := Prod.mk.inj hwatch
  refine ⟨hregards.outcome_deal h.layout h'.layout hdiscreet hr d, ?_, ?_, hexecutor, hview⟩
  · have hterms : s.selector.SameTerms t.selector := halike.selector ▸ .refl _
    have hchanges : s.selector.Changes (t.deal d r.name).2.selector :=
      halike.selector ▸ changes_deal_of_find? hr' d
    refine selector_eq h (changes_deal_of_find? hr d) hchanges (s.sameTerms_deal d _)
      (hterms.trans (t.sameTerms_deal d _)) (fun name => congrArg View.resource (hview name))
      ?_ ?_ hchecker
    · rw [ht.counters, hs.counters, Dealing.tally_congr hregards, halike.selector]
    · rw [ht.cursors, hs.cursors, halike.selector]
  · rw [ht.rng, hs.rng, halike.rng]

omit [LawfulScalar ω] in
theorem report_of_unknown (h : s.selector.Layout) (hnone : s.selector.find? name = none)
    (hauto : s.selector.settings.autoAddWeight = none) (result : CallResult) :
    s.report result name = (.done (), s.count result.count) := by
  have hplace : (s.count result.count).selector.place? name = none := h.find?_eq_none_iff.1 hnone
  have hweight : (s.count result.count).selector.settings.autoAddWeight = none := hauto
  simp only [report, knowing?, hplace, hweight, Option.map_none]

omit [LawfulScalar ω] in
theorem down_of_unknown (h : s.selector.Layout) (hnone : s.selector.find? name = none) :
    s.down name = (.done (), s.count fun c => { c with downs := c.downs + 1 }) := by
  have hentry : (s.count fun c => { c with downs := c.downs + 1 }).selector.entry? name = none :=
    h.entry?_eq_none hnone
  simp only [down, hentry]

end System

/-! ## Reachable systems -/

/-- No change touches the code that a selector was supplied with. -/
theorem Selector.Change.supplied {s t : Selector ω} (h : s.Change t) :
    t.policy = s.policy ∧ t.listener = s.listener ∧ t.probe = s.probe := by
  cases h with
  | idle => exact ⟨rfl, rfl, rfl⟩
  | turn => exact ⟨rfl, rfl, rfl⟩
  | touch => exact ⟨rfl, rfl, rfl⟩
  | weigh =>
      unfold refreshGroup
      split
      · exact ⟨rfl, rfl, rfl⟩
      · exact ⟨rfl, rfl, rfl⟩

namespace Builder.Reaches

variable [LawfulScalar ω] {b : Builder ω} {s : System ω}

theorem supplied (h : b.Reaches s) :
    s.selector.policy = b.policy.getD (.shipped b.settings.rule) ∧
      s.selector.listener = b.listener ∧ s.selector.probe = b.probe := by
  refine h.induct (P := fun s => s.policy = b.policy.getD (.shipped b.settings.rule) ∧
    s.listener = b.listener ∧ s.probe = b.probe) ?_ ?_ ?_
  · intro id _
    exact ⟨rfl, rfl, rfl⟩
  · intro s name weight _ _ hs
    exact hs
  · intro s t hchange hs
    obtain ⟨hpolicy, hlistener, hprobe⟩ := hchange.supplied
    exact ⟨hpolicy.trans hs.1, hlistener.trans hs.2.1, hprobe.trans hs.2.2⟩

theorem ready (h : b.Reaches s) : s.selector.Ready := ⟨h.layout, h.settled⟩

theorem discreet (h : b.Reaches s) (hlistener : ∀ l, b.listener = some l → l.Local) :
    s.Discreet := by
  intro l hl
  exact hlistener l (h.supplied.2.1 ▸ hl)

end Builder.Reaches

/-- Feedback on two resources comes to the same in either order, as long as the listener does not
read the past of one resource to decide what to make of the other. What is said of a name that is
not known is counted, and nothing else. -/
theorem feedback_commutes {b : Builder Float} {s : System Float} (h : b.Reaches s)
    (hlistener : ∀ l, b.listener = some l → l.Local) :
    (∀ {name name' : String}, name ≠ name' → (s.selector.find? name).isSome →
      (s.selector.find? name').isSome → ∀ x y : Dealing Float,
        ((s.deal y name').2.deal x name).1 = (s.deal x name).1 ∧
        ((s.deal x name).2.deal y name').1 = (s.deal y name').1 ∧
        ((s.deal x name).2.deal y name').2.Alike ((s.deal y name').2.deal x name).2) ∧
    (∀ {name : String}, s.selector.find? name = none →
      (s.selector.settings.autoAddWeight = none → ∀ result,
        s.report result name = (.done (), s.count result.count)) ∧
      s.down name = (.done (), s.count fun c => { c with downs := c.downs + 1 })) := by
  refine ⟨?_, ?_⟩
  · intro name name' hne hname hname' x y
    obtain ⟨q, hq⟩ := Option.isSome_iff_exists.1 hname
    obtain ⟨r, hr⟩ := Option.isSome_iff_exists.1 hname'
    exact System.deal_comm h.ready (h.discreet hlistener) hne hq hr x y
  · intro name hnone
    exact ⟨System.report_of_unknown h.layout hnone, System.down_of_unknown h.layout hnone⟩

/-- A failure of one resource and the end of another, told to a listener that never crashes. -/
theorem feedback_commutes_heard : ∃ s, Builder.heard.Reaches s ∧
    ((s.deal (.report .failure) "a").2.deal .down "b").2.Alike
      ((s.deal .down "b").2.deal (.report .failure) "a").2 ∧
    s.down "c" = (.done (), s.count fun c => { c with downs := c.downs + 1 }) := by
  obtain ⟨s, hbuild⟩ :=
    Builder.exists_build (b := Builder.heard) rfl (.of_none rfl) 0 { rng := ⟨0⟩ }
  have h := Builder.Reaches.built hbuild
  have hfind := Builder.find?_of_build hbuild
  have hsilent : ∀ l, Builder.heard.listener = some l → l.Local := by
    intro l hl
    obtain rfl := Option.some.inj hl
    exact Listener.Silent.isLocal fun _ _ => rfl
  obtain ⟨hcommutes, hunknown⟩ := feedback_commutes h hsilent
  have hne : "a" ≠ "b" := by decide
  have ha : (s.selector.find? "a").isSome = true := by rw [hfind]; rfl
  have hb : (s.selector.find? "b").isSome = true := by rw [hfind]; rfl
  have hc : s.selector.find? "c" = none := hfind "c"
  obtain ⟨-, -, halike⟩ := hcommutes hne ha hb (.report .failure) .down
  exact ⟨s, h, halike, (hunknown hc).2⟩

end ResourceSelection
