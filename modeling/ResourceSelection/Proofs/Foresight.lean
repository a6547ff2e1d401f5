import Mathlib.Data.List.Sort
import ResourceSelection.Proofs.Arithmetic
import ResourceSelection.Proofs.Carrying
import ResourceSelection.Proofs.Cursors

/-!
# Registered on the way or declared up front

A report on an unknown name registers it at the weight of the settings. Had the name been declared
before the build, behind all others, the selector would look the same after the report, and after
any more reports. Registering and building are different code, so this takes two steps.

The states of the two selectors agree as far as the first one goes, and the second one has those of
the names still to come behind them, untouched (`System.Foresees`). Nothing that a report does
depends on states that it does not name, and a registration adds the very state that stands next in
the second selector.

The groups follow from the states. As long as nothing is selected they are those that a build would
make of the states as they are now (`Selector.pools_eq_groupUp`): there is one for each priority, it
lists the places of its members in ascending order, and its snapshot is fresh.
-/

namespace ResourceSelection

variable {ω : Type} [Scalar ω]

/-! ## The groups that a build would make -/

namespace Selector

/-- Members stand in order of registration, and no group has taken a turn. -/
structure Unturned (s : Selector ω) : Prop where
  ascending {p : GroupOf Nat ω} : p ∈ s.pools → p.members.Pairwise (· < ·)
  threshold {p : GroupOf Nat ω} : p ∈ s.pools → p.aliasThreshold = s.settings.aliasThreshold
  cursor {p : GroupOf Nat ω} : p ∈ s.pools → p.cursor = 0

omit [Scalar ω] in
theorem Layout.map_priority_pools {s : Selector ω} (h : s.Layout) :
    s.pools.map (·.priority) = Builder.priorities s.states := by
  refine (List.pairwise_map.2 h.ascending).eq_of_mem_iff (Builder.ascending_priorities _) ?_
  intro priority
  rw [List.mem_map, Builder.mem_priorities]
  constructor
  · rintro ⟨p, hp, rfl⟩
    obtain ⟨place, hplace⟩ := List.exists_mem_of_ne_nil _ (h.inhabited hp)
    obtain ⟨r, hr⟩ := h.state hp hplace
    exact ⟨r, List.mem_of_getElem? hr, h.priority hp hplace hr⟩
  · rintro ⟨r, hmem, rfl⟩
    obtain ⟨place, hr⟩ := List.mem_iff_getElem?.1 hmem
    obtain ⟨p, hp, hplace⟩ := h.exists_pool (List.getElem?_eq_some_iff.1 hr).1
    exact ⟨p, hp, (h.priority hp hplace hr).symm⟩

omit [Scalar ω] in
theorem Unturned.members_eq {s : Selector ω} (h : s.Unturned) (hlayout : s.Layout)
    {p : GroupOf Nat ω} (hp : p ∈ s.pools) :
    p.members = Builder.placesOf s.states p.priority := by
  refine (h.ascending hp).eq_of_mem_iff (List.pairwise_lt_range.filter _) fun place => ?_
  refine Iff.trans ?_ Builder.mem_placesOf.symm
  constructor
  · intro hplace
    obtain ⟨r, hr⟩ := hlayout.state hp hplace
    exact ⟨r, hr, hlayout.priority hp hplace hr⟩
  · rintro ⟨r, hr, hpriority⟩
    obtain ⟨q, hq, hplace⟩ := hlayout.exists_pool (List.getElem?_eq_some_iff.1 hr).1
    obtain rfl := hlayout.pool_unique hq hp ((hlayout.priority hq hplace hr).symm.trans hpriority)
    exact hplace

/-- The groups are a function of the states. -/
theorem pools_eq_groupUp {s : Selector ω} (hlayout : s.Layout) (hsettled : s.Settled)
    (h : s.Unturned) : s.pools = Builder.groupUp s.settings.aliasThreshold s.states := by
  unfold Builder.groupUp
  rw [← hlayout.map_priority_pools, List.map_map]
  refine (List.map_id' _).symm.trans (List.map_congr_left fun p hp => ?_)
  obtain ⟨priority, members, totalMax, uniformMax, aliasThreshold, snapshot, cursor⟩ := p
  have hmembers : members = Builder.placesOf s.states priority := h.members_eq hlayout hp
  have hthreshold : aliasThreshold = s.settings.aliasThreshold := h.threshold hp
  have hcursor : cursor = 0 := h.cursor hp
  have hsnapshot : snapshot =
    (Group.make priority (statesAt s.states members) aliasThreshold).snapshot :=
      (hsettled _ hp).fresh
  have htotal : totalMax = Group.totalMaxOf (statesAt s.states members) := (hsettled _ hp).totalMax
  have huniform : uniformMax = Group.sameMaxOf (statesAt s.states members) :=
    (hsettled _ hp).uniformMax
  subst hsnapshot htotal huniform hcursor hthreshold hmembers
  rfl

theorem Unturned.frame {s t : Selector ω} (h : s.Unturned) (hf : s.Frame t)
    (hcursors : t.pools.map (·.cursor) = s.pools.map (·.cursor)) : t.Unturned := by
  constructor
  · intro p hp
    obtain ⟨q, hq, heq, -⟩ := exists_alike hf.pools hcursors hp
    rw [← show q.members = p.members from congrArg (·.2.1) heq]
    exact h.ascending hq
  · intro p hp
    obtain ⟨q, hq, heq, -⟩ := exists_alike hf.pools hcursors hp
    rw [← show q.aliasThreshold = p.aliasThreshold from congrArg (·.2.2.2.2) heq, hf.settings]
    exact h.threshold hq
  · intro p hp
    obtain ⟨q, hq, -, heq⟩ := exists_alike hf.pools hcursors hp
    rw [← heq, h.cursor hq]

/-- The newcomer stands behind the members that its group had. -/
theorem Unturned.register {s : Selector ω} (h : s.Unturned) (hlayout : s.Layout) (name : String)
    (weight : ω) : (s.register name weight).Unturned := by
  constructor
  · intro p hp
    rcases mem_pools_register.1 hp with ⟨hold, -⟩ | rfl
    · exact h.ascending hold
    · refine List.pairwise_append.2
        ⟨?_, List.pairwise_singleton _ _, fun place hplace last hlast => ?_⟩
      · unfold membersOf
        split
        · next p hfind => exact h.ascending (List.mem_of_find?_eq_some hfind)
        · exact List.Pairwise.nil
      · obtain ⟨p, hp, -, hmember⟩ := mem_membersOf hplace
        rw [List.mem_singleton.1 hlast]
        exact hlayout.lt_length hp hmember
  · intro p hp
    rcases mem_pools_register.1 hp with ⟨hold, -⟩ | rfl
    · exact h.threshold hold
    · rfl
  · intro p hp
    rcases mem_pools_register.1 hp with ⟨hold, -⟩ | rfl
    · exact h.cursor hold
    · rfl

theorem unturned_toSelector (b : Builder ω) (id : Nat) : (b.toSelector id).Unturned := by
  constructor
  · intro p hp
    obtain ⟨priority, -, rfl⟩ := List.mem_map.1 hp
    exact List.pairwise_lt_range.filter _
  · intro p hp
    obtain ⟨priority, -, rfl⟩ := List.mem_map.1 hp
    rfl
  · intro p hp
    obtain ⟨priority, -, rfl⟩ := List.mem_map.1 hp
    rfl

end Selector

/-! ## Two runs -/

namespace Feedback

/-- The unknown names that are reported, in the order of their first report. -/
def newcomers : List String → List Feedback → List String
  | _, [] => []
  | known, .report _ name :: rest =>
    if name ∈ known then newcomers known rest else name :: newcomers (known.insert name) rest
  | known, .down _ :: rest => newcomers known rest

/-- No resource is forced down before it is known. -/
def DownsKnown : List String → List Feedback → Prop
  | _, [] => True
  | known, .report _ name :: rest => DownsKnown (known.insert name) rest
  | known, .down name :: rest => name ∈ known ∧ DownsKnown known rest

theorem nodup_newcomers (known : List String) (fs : List Feedback) :
    (newcomers known fs).Nodup ∧ ∀ name ∈ newcomers known fs, name ∉ known := by
  induction fs generalizing known with
  | nil => exact ⟨List.nodup_nil, fun _ h => absurd h List.not_mem_nil⟩
  | cons f rest ih =>
      cases f with
      | down name => exact ih known
      | report result name =>
          unfold newcomers
          split
          · exact ih known
          · next hnew =>
              obtain ⟨hnodup, hrest⟩ := ih (known.insert name)
              refine ⟨List.nodup_cons.2 ⟨fun hmem => ?_, hnodup⟩, fun other hother => ?_⟩
              · exact hrest name hmem List.mem_insert_self
              · rcases List.mem_cons.1 hother with rfl | hother
                · exact hnew
                · exact fun hmem => hrest other hother (List.mem_insert_of_mem hmem)

end Feedback

/-- The builder with some more resources, declared behind all others at one weight. -/
def Builder.declaring (b : Builder ω) (names : List String) (weight : ω) : Builder ω :=
  { b with resources := b.resources ++ names.map fun name => (name, .ofWeight weight) }

/-- A weight that the settings accept for unknown resources is one to declare them at. -/
theorem Settings.validate_ofWeight {s : Settings Float} (h : s.validate = .ok ()) {weight : Float}
    (hauto : s.autoAddWeight = some weight) : (Declaration.ofWeight weight).validate = .ok () := by
  obtain ⟨hfinite, hweight⟩ := s.bounds_autoAddWeight h hauto
  have hsound := Settings.sound_ofWeight h hauto
  have hzero : (0 : Float).isFinite = true := rfl
  have hrange {x : Float} (hx : x.isFinite = true) (hsign : ¬ x < 0) (path : String) :
      Range.atLeast path 0 x = [] := by
    unfold Range.atLeast
    rw [if_neg hsign]
    exact if_neg (Binary64.not_largest_lt hx)
  have hranges : (Declaration.ofWeight weight).rangeFaults = [] :=
    List.append_eq_nil_iff.2 ⟨hrange hfinite hweight _,
      hrange hzero (Scalar.not_lt_of_le hsound.nonneg) _⟩
  exact Declaration.validate_eq_ok.2 ⟨⟨hfinite, hzero, hranges, hsound.lower⟩, hfinite,
    hsound.lower, hsound.upper⟩

theorem Builder.validate_declaring {b : Builder Float} (h : b.validate = .ok ()) {weight : Float}
    (hauto : b.settings.autoAddWeight = some weight) {names : List String} (hnodup : names.Nodup)
    (hnew : ∀ name ∈ names, name ∉ b.resources.map (·.1)) :
    (b.declaring names weight).validate = .ok () := by
  have hsettings := b.validate_settings h
  obtain ⟨hall, hnames, -⟩ := validateResources_eq_ok.1 (validateResources_of_validate h)
  have hresources : validateResources [] (b.declaring names weight).resources = .ok () := by
    refine validateResources_eq_ok.2 ⟨?_, ?_, fun _ _ => List.not_mem_nil⟩
    · intro entry hentry
      rcases List.mem_append.1 hentry with hentry | hentry
      · exact hall entry hentry
      · obtain ⟨name, -, rfl⟩ := List.mem_map.1 hentry
        exact b.settings.validate_ofWeight hsettings hauto
    · have hmap : (b.declaring names weight).resources.map (·.1) =
          b.resources.map (·.1) ++ names := by
        simp [declaring, Function.comp_def]
      rw [hmap]
      refine List.nodup_append.2 ⟨hnames, hnodup, fun name hname other hother => ?_⟩
      rintro rfl
      exact hnew name hother hname
  unfold validate
  rw [show (b.declaring names weight).settings.validate = .ok () from hsettings]
  exact hresources

omit [Scalar ω] in
theorem modify_append_left {α : Type} {xs : List α} {i : Nat} (h : i < xs.length) (f : α → α)
    (ys : List α) : (xs ++ ys).modify i f = xs.modify i f ++ ys := by
  refine List.ext_getElem? fun j => ?_
  rw [List.getElem?_modify]
  rcases Nat.lt_or_ge j xs.length with hj | hj
  · rw [List.getElem?_append_left hj, List.getElem?_append_left (by rwa [List.length_modify]),
      List.getElem?_modify]
  · have hne : i ≠ j := by omega
    rw [List.getElem?_append_right hj, List.getElem?_append_right (by rwa [List.length_modify]),
      List.length_modify]
    simp [hne]

namespace System

/-- The second system has the states of the first one and, behind them, those of the names still to
come. In all else that a report reads they agree. -/
structure Foresees (weight : ω) (coming : List String) (s t : System ω) : Prop where
  states : t.selector.states = s.selector.states ++ coming.map fun name =>
    Resource.ofDeclaration name (.ofWeight weight) s.selector.settings.countsCalls
  settings : t.selector.settings = s.selector.settings
  policy : t.selector.policy = s.selector.policy
  memory : t.host.memory = s.host.memory

namespace Foresees

variable {weight : ω} {coming : List String} {s s' t t' : System ω} {name : String} {place : Nat}
  {r : Resource ω}

theorem calm (h : Foresees weight coming s t) (hs : s.Calm s') (ht : t.Calm t') :
    Foresees weight coming s' t' where
  states := by rw [ht.states, h.states, hs.states, hs.settings]
  settings := by rw [ht.settings, h.settings, hs.settings]
  policy := by rw [ht.policy, h.policy, hs.policy]
  memory := by rw [ht.memory, h.memory, hs.memory]

theorem getElem? (h : Foresees weight coming s t) (hr : s.selector.states[place]? = some r) :
    t.selector.states[place]? = some r := by
  rw [h.states, List.getElem?_append_left (List.getElem?_eq_some_iff.1 hr).1, hr]

theorem entry? (h : Foresees weight coming s t) (hs : s.selector.Layout) (ht : t.selector.Layout)
    (hentry : s.selector.entry? name = some (place, r)) :
    t.selector.entry? name = some (place, r) := by
  obtain ⟨hr, hname⟩ := hs.entry?_eq_some.1 hentry
  exact ht.entry?_eq_some.2 ⟨h.getElem? hr, hname⟩

theorem modifyAt (h : Foresees weight coming s t) (hr : s.selector.states[place]? = some r)
    (f : Resource ω → Resource ω) :
    Foresees weight coming (s.modifyAt place f) (t.modifyAt place f) where
  states := by
    show t.selector.states.modify place f = s.selector.states.modify place f ++ _
    rw [h.states]
    exact modify_append_left (List.getElem?_eq_some_iff.1 hr).1 f _
  settings := h.settings
  policy := h.policy
  memory := h.memory

/-- A registration makes the state that stands next in the second system. -/
theorem register (h : Foresees weight (name :: coming) s t) :
    Foresees weight coming (s.register name weight) t where
  states := by
    show _ = (s.selector.states ++ [s.selector.newcomer name weight]) ++ _
    rw [h.states, List.map_cons, List.append_assoc]
    rfl
  settings := h.settings
  policy := h.policy
  memory := h.memory

/-- Feedback on a resource that the first system knows: in both, it moves the same state the same
way. -/
theorem step_of_entry? (h : Foresees weight coming s t) (hs : s.selector.Layout)
    (ht : t.selector.Layout) {f : Feedback} (hentry : s.selector.entry? f.name = some (place, r)) :
    Foresees weight coming (s.step f.event) (t.step f.event) := by
  have hr := Selector.states_of_entry? hentry
  have hentry' := h.entry? hs ht hentry
  cases f with
  | report result name =>
      refine calm ?_ (calm_report hentry result) (calm_report hentry' result)
      have hanswer : t.selector.policy.onResult result r.context t.host.memory =
          s.selector.policy.onResult result r.context s.host.memory := by
        rw [h.policy, h.memory]
      have hmoved := h.modifyAt hr (Resource.answered
        (s.selector.policy.onResult result r.context s.host.memory).1
        s.selector.settings.tracksCalls)
      refine ⟨?_, h.settings, h.policy, ?_⟩
      · unfold answered
        rw [hanswer, h.settings]
        exact hmoved.states
      · unfold answered
        rw [hanswer]
  | down name =>
      refine calm ?_ (calm_down hentry) (calm_down hentry')
      rw [h.settings]
      exact h.modifyAt hr _

end Foresees

/-! ## Turns -/

variable [LawfulScalar ω] {s : System ω}

/-- Reports take no turns. -/
theorem unturned_step (h : s.selector.Layout) (hu : s.selector.Unturned) (f : Feedback) :
    (s.step f.event).selector.Unturned := by
  have henrols : (f.event.enrols s.selector).Unturned := by
    rcases f.event.enrols_cases s.selector with heq | ⟨name, weight, -, -, heq⟩
    · rw [heq]
      exact hu
    · rw [heq]
      exact hu.register h name weight
  have hcursors := cursors_step h (e := f.event) (by cases f <;> nofun)
  exact henrols.frame (s.step_changes f.event).frame hcursors

end System

/-! ## From the build to the end -/

namespace Builder

theorem unturned_of_build {b : Builder ω} {id : Nat} {host : Host ω} {s : System ω}
    (h : b.build id host = .ok s) : s.selector.Unturned := by
  have hu := Selector.unturned_toSelector b id
  obtain ⟨-, asked, rfl | ⟨rfl, -⟩⟩ := build_cases h
  · unfold System.ensureChecker
    split
    · exact hu
    · exact ⟨hu.ascending, hu.threshold, hu.cursor⟩
  · exact hu

theorem foresees_of_build {b : Builder ω} {names : List String} {weight : ω} {id : Nat}
    {host : Host ω} {s t : System ω} (hs : b.build id host = .ok s)
    (ht : (b.declaring names weight).build id host = .ok t) :
    System.Foresees weight names s t := by
  refine System.Foresees.calm ?_ (calm_of_build hs) (calm_of_build ht)
  refine ⟨?_, rfl, rfl, rfl⟩
  simp [toSelector, declaring, Function.comp_def]

end Builder

open Feedback (newcomers DownsKnown)

namespace Builder.Reaches

variable [LawfulScalar ω] {b b' : Builder ω} {s t : System ω}

theorem unturned_run (h : b.Reaches s) (hu : s.selector.Unturned) (fs : List Feedback) :
    (s.run (fs.map Feedback.event)).selector.Unturned := by
  induction fs generalizing s with
  | nil => exact hu
  | cons f rest ih => exact ih (h.step f.event) (System.unturned_step h.layout hu f)

theorem foresees_run (hs : b.Reaches s) (ht : b'.Reaches t) {weight : ω}
    (hauto : s.selector.settings.autoAddWeight = some weight) {known : List String}
    (hknown : ∀ name, (s.selector.place? name).isSome = true ↔ name ∈ known) {fs : List Feedback}
    (hdowns : DownsKnown known fs) (h : System.Foresees weight (newcomers known fs) s t) :
    System.Foresees weight [] (s.run (fs.map Feedback.event)) (t.run (fs.map Feedback.event)) := by
  induction fs generalizing s t known with
  | nil => exact h
  | cons f rest ih =>
      have hentry {name : String} (hname : name ∈ known) :
          ∃ place r, s.selector.entry? name = some (place, r) := by
        obtain ⟨place, hplace⟩ := Option.isSome_iff_exists.1 ((hknown name).2 hname)
        obtain ⟨r, hr, hrname⟩ := hs.layout.registered.1 hplace
        exact ⟨place, r, hs.layout.entry?_eq_some.2 ⟨hr, hrname⟩⟩
      have hauto' : (s.step f.event).selector.settings.autoAddWeight = some weight := by
        rw [System.settings_step, hauto]
      cases f with
      | down name =>
          obtain ⟨hname, hrest⟩ := hdowns
          obtain ⟨place, r, hentry⟩ := hentry hname
          refine ih (hs.step _) (ht.step _) hauto' (fun other => ?_) hrest
            (h.step_of_entry? hs.layout ht.layout hentry)
          rw [System.known_step, hknown]
          simp [Feedback.event]
      | report result name =>
          have hknown' (other : String) :
              ((s.step (.call (.report result name))).selector.place? other).isSome = true ↔
                other ∈ known.insert name := by
            rw [System.known_step, hknown, hauto, List.mem_insert_iff]
            simp [or_comm, eq_comm]
          refine ih (hs.step _) (ht.step _) hauto' hknown' hdowns ?_
          by_cases hname : name ∈ known
          · rw [newcomers, if_pos hname] at h
            rw [List.insert_of_mem hname]
            obtain ⟨place, r, hentry⟩ := hentry hname
            exact h.step_of_entry? hs.layout ht.layout hentry
          · rw [newcomers, if_neg hname] at h
            have hnew : s.selector.place? name = none := by
              rw [← Option.not_isSome_iff_eq_none, hknown]
              exact hname
            have hlayout := hs.layout.register weight hnew
            have hentry : (s.register name weight).selector.entry? name =
                some (s.selector.states.length, s.selector.newcomer name weight) :=
              hlayout.entry?_eq_some.2 ⟨List.getElem?_concat_length, rfl⟩
            have hstep : s.step (.call (.report result name)) =
                (s.register name weight).step (.call (.report result name)) :=
              congrArg Prod.snd (System.report_eq_register hnew hauto result)
            show System.Foresees weight _ (s.step (.call (.report result name))) _
            rw [hstep]
            exact h.register.step_of_entry? (f := .report result name) hlayout ht.layout hentry

end Builder.Reaches

/-- What callers see of the two selectors is the same. -/
structure Selector.Matches (s t : Selector ω) : Prop where
  statusOf : ∀ name, t.statusOf name = s.statusOf name
  allResources : t.allResources = s.allResources
  groupCount : t.groupCount = s.groupCount
  /-- With all that the groups keep: weights, totals, rates and flags, tables and turns. -/
  groups : t.groups = s.groups

omit [Scalar ω] in
theorem Selector.matches_of_states {s t : Selector ω} (hs : s.Layout) (ht : t.Layout)
    (hstates : t.states = s.states) (hpools : t.pools = s.pools) : s.Matches t where
  statusOf name := by
    have hfind : t.find? name = s.find? name := by
      ext r
      rw [ht.find?_eq_some, hs.find?_eq_some, hstates]
    rw [Selector.statusOf, Selector.statusOf, hfind]
  allResources := by rw [Selector.allResources, resources, Selector.groups, hstates, hpools]; rfl
  groupCount := by rw [Selector.groupCount, Selector.groupCount, hpools]
  groups := by rw [Selector.groups, Selector.groups, hstates, hpools]

/-- Registering resources on the way comes to the same as declaring them up front. Nothing speaks
against those declarations, so the other selector can be built, as long as the policy says of every
resource whether it needs a check. -/
theorem registered_as_declared {b : Builder Float} {weight : Float}
    (hauto : b.settings.autoAddWeight = some weight) {id : Nat} {host : Host Float}
    {s : System Float} (hbuild : b.build id host = .ok s) {fs : List Feedback}
    (hdowns : DownsKnown (b.resources.map (·.1)) fs) :
    let declared := b.declaring (newcomers (b.resources.map (·.1)) fs) weight
    (∀ fault, declared.build id host ≠ .error (.invalid fault)) ∧
    (b.Answers → ∃ t, declared.build id host = .ok t) ∧
    ∀ t, declared.build id host = .ok t →
      (s.run (fs.map Feedback.event)).selector.Matches
        (t.run (fs.map Feedback.event)).selector := by
  intro declared
  obtain ⟨hnodup, hnew⟩ := Feedback.nodup_newcomers (b.resources.map (·.1)) fs
  obtain ⟨hvalid, -⟩ := b.changes_of_build hbuild
  have hdeclared : declared.validate = .ok () := b.validate_declaring hvalid hauto hnodup hnew
  refine ⟨fun fault hfault => Builder.exists_invalid_iff.1 ⟨fault, hfault⟩ hdeclared,
    fun hanswers => Builder.exists_build hdeclared hanswers id host, fun t hbuild' => ?_⟩
  have hs := Builder.Reaches.built hbuild
  have ht := Builder.Reaches.built hbuild'
  have hsettings : s.selector.settings.autoAddWeight = some weight := by
    rw [hs.bounded.settings, hauto]
  have hforesees := hs.foresees_run ht hsettings (b.known_build hbuild) hdowns
    (Builder.foresees_of_build hbuild hbuild')
  have hstates := hforesees.states.trans (List.append_nil _)
  have hs' := hs.run (fs.map Feedback.event)
  have ht' := ht.run (fs.map Feedback.event)
  refine Selector.matches_of_states hs'.layout ht'.layout hstates ?_
  rw [Selector.pools_eq_groupUp hs'.layout hs'.settled
      (hs.unturned_run (Builder.unturned_of_build hbuild) fs),
    Selector.pools_eq_groupUp ht'.layout ht'.settled
      (ht.unturned_run (Builder.unturned_of_build hbuild') fs), hstates, hforesees.settings]

/-- Two newcomers among two declared resources, one of which is forced down. -/
theorem registered_as_declared_pair :
    ∃ s t, Builder.pair.build 0 { rng := ⟨0⟩ } = .ok s ∧
      (Builder.pair.declaring ["c", "d"] 10).build 0 { rng := ⟨0⟩ } = .ok t ∧
      (s.run ([.report .failure "c", .down "c", .report .failure "a", .report .success "d"].map
        Feedback.event)).selector.Matches
      (t.run ([.report .failure "c", .down "c", .report .failure "a", .report .success "d"].map
        Feedback.event)).selector := by
  obtain ⟨s, hbuild⟩ := Builder.exists_build Builder.pair_valid (.of_none rfl) 0 { rng := ⟨0⟩ }
  have hdowns : DownsKnown (Builder.pair.resources.map (·.1))
      [.report .failure "c", .down "c", .report .failure "a", .report .success "d"] := by
    simp [DownsKnown]
  obtain ⟨-, hbuilds, hmatches⟩ := registered_as_declared rfl hbuild hdowns
  obtain ⟨t, hbuild'⟩ := hbuilds (.of_none rfl)
  exact ⟨s, t, hbuild, hbuild', hmatches t hbuild'⟩

end ResourceSelection
