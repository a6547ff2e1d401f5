import ResourceSelection.Proofs.Locality

/-!
# What a step leaves of one group

The snapshot of a group is made from what the group keeps and from the weights of its members. A
step that leaves all of this alone spares the group (`Selector.Spares`), and a group that was
settled before is settled after it.

All that a selector does in one go either spares a group or puts its snapshot right, whatever the
snapshot said before: a weight is not changed without the snapshot of its group being renewed
(`Change.spares_or_settles`). So it matters little how a snapshot has come to be out of date. The
next report that moves a weight of the group ends it.
-/

namespace ResourceSelection

variable {ω : Type} [Scalar ω]

namespace Selector

variable {s t u : Selector ω} {priority : Nat}

/-! ## One group among the others -/

/-- The groups of a priority, of which a layout has one at most, are settled. -/
def SettledAt (priority : Nat) (s : Selector ω) : Prop :=
  ∀ p ∈ s.pools, p.priority = priority → (groupOf s.states p).Settled

/-- Every group knows what the maxima of its members say. -/
def Summed (s : Selector ω) : Prop :=
  ∀ p ∈ s.pools, p.totalMax = Group.totalMaxOf (statesAt s.states p.members) ∧
    p.uniformMax = Group.sameMaxOf (statesAt s.states p.members)

theorem Settled.summed (h : s.Settled) : s.Summed := fun p hp =>
  ⟨(h p hp).totalMax, (h p hp).uniformMax⟩

omit [Scalar ω] in
theorem Layout.members_eq (h : s.Layout) {p : GroupOf Nat ω} (hp : p ∈ s.pools) :
    p.members = s.membersOf p.priority := by
  unfold membersOf
  split
  · next q hfind =>
      have hpriority : q.priority = p.priority := by simpa using List.find?_some hfind
      rw [h.pool_unique hp (List.mem_of_find?_eq_some hfind) hpriority.symm]
  · next hnone => exact absurd (decide_eq_true rfl) (List.find?_eq_none.1 hnone p hp)

theorem Frame.membersOf (h : s.Frame t) (priority : Nat) :
    t.membersOf priority = s.membersOf priority := by
  have hfixed (u : Selector ω) : u.membersOf priority =
      (((u.pools.map GroupOf.fixed).find? fun f => f.1 = priority).elim [] fun f => f.2.1) := by
    unfold Selector.membersOf
    rw [List.find?_map]
    show _ =
      ((u.pools.find? fun p => p.priority = priority).map GroupOf.fixed).elim [] fun f => f.2.1
    cases u.pools.find? fun p => p.priority = priority with
    | none => rfl
    | some p => rfl
  rw [hfixed t, hfixed s, h.pools]

theorem Frame.summed (h : s.Frame t) (hs : s.Summed) : t.Summed := by
  intro p hp
  have hmem : p.fixed ∈ s.pools.map GroupOf.fixed := h.pools ▸ List.mem_map_of_mem hp
  obtain ⟨q, hq, heq⟩ := List.mem_map.1 hmem
  have hmembers : q.members = p.members := congrArg (·.2.1) heq
  have htotal : q.totalMax = p.totalMax := congrArg (·.2.2.1) heq
  have huniform : q.uniformMax = p.uniformMax := congrArg (·.2.2.2.1) heq
  have hmax : (statesAt t.states p.members).map (·.maxWeight) =
      (statesAt s.states p.members).map (·.maxWeight) := by
    rw [map_statesAt, map_statesAt]
    refine List.filterMap_congr fun place _ => ?_
    cases hr : t.states[place]? with
    | none =>
        have hlength := List.getElem?_eq_none_iff.1 hr
        rw [List.getElem?_eq_none_iff.2 (h.length ▸ hlength)]
    | some r =>
        obtain ⟨r', hr', hkept⟩ := h.kept hr
        rw [hr', Option.map_some, Option.map_some, hkept.maxWeight]
  obtain ⟨hsum, hsame⟩ := hs q hq
  rw [hmembers] at hsum hsame
  rw [Group.totalMaxOf_congr hmax, Group.sameMaxOf_congr hmax, ← htotal, ← huniform]
  exact ⟨hsum, hsame⟩

theorem Frame.entry? (h : s.Frame t) {name : String} {place : Nat} {r : Resource ω}
    (hentry : s.entry? name = some (place, r)) :
    ∃ r', t.entry? name = some (place, r') ∧ r.Kept r' := by
  have hstate := states_of_entry? hentry
  obtain ⟨r', hr', hkept⟩ := h.became hstate
  have hplace : t.place? name = some place := by
    rw [Selector.place?, h.registry]
    exact place?_of_entry? hentry
  refine ⟨r', ?_, hkept⟩
  rw [Selector.entry?, hplace, Option.bind_some, hr', Option.map_some]

/-- A step spares the group of a priority if it leaves the snapshot and all that it is made from.
Turns may be taken. -/
structure Spares (priority : Nat) (s t : Selector ω) : Prop where
  frame : s.Frame t
  pools {p : GroupOf Nat ω} : p ∈ t.pools → p.priority = priority →
    ∃ q ∈ s.pools, q.still = p.still
  loads {place : Nat} : place ∈ s.membersOf priority →
    (t.states[place]?).map Resource.load = (s.states[place]?).map Resource.load

namespace Spares

theorem refl (priority : Nat) (s : Selector ω) : s.Spares priority s :=
  ⟨.refl s, fun {p} hp _ => ⟨p, hp, rfl⟩, fun _ => rfl⟩

theorem trans (h : s.Spares priority t) (h' : t.Spares priority u) : s.Spares priority u where
  frame := h.frame.trans h'.frame
  pools hp hpriority := by
    obtain ⟨q, hq, hstill⟩ := h'.pools hp hpriority
    have hq' : q.priority = priority := (congrArg (·.priority) hstill).trans hpriority
    obtain ⟨o, ho, hstill'⟩ := h.pools hq hq'
    exact ⟨o, ho, hstill'.trans hstill⟩
  loads hplace := (h'.loads (h.frame.membersOf priority ▸ hplace)).trans (h.loads hplace)

/-- Counters and handles are no part of any group. -/
theorem idle (priority : Nat) (s : Selector ω) (counters : Counters) (checker : Option Handle)
    (closed : Bool) : s.Spares priority { s with counters, checker, closed } :=
  ⟨(Change.idle s counters checker closed).frame, fun {p} hp _ => ⟨p, hp, rfl⟩, fun _ => rfl⟩

theorem turnTo (priority : Nat) (s : Selector ω) (index : Nat) (cursor : UInt64) :
    s.Spares priority (s.turnTo index cursor) where
  frame := s.frame_turnTo index cursor
  pools {p} hp _ := by
    have hmem : p.still ∈ s.pools.map GroupOf.still :=
      (s.turned_turnTo index cursor).pools ▸ List.mem_map_of_mem hp
    exact List.mem_map.1 hmem
  loads _ := rfl

theorem loads_statesAt (h : s.Spares priority t) {places : List Nat}
    (hplaces : ∀ place ∈ places, place ∈ s.membersOf priority) :
    (statesAt t.states places).map Resource.load =
      (statesAt s.states places).map Resource.load := by
  rw [map_statesAt, map_statesAt]
  exact List.filterMap_congr fun place hplace => h.loads (hplaces place hplace)

theorem settledAt (h : s.Spares priority t) (hlayout : s.Layout) (hs : s.SettledAt priority) :
    t.SettledAt priority := by
  intro p hp hpriority
  obtain ⟨q, hq, hstill⟩ := h.pools hp hpriority
  have hq' : q.priority = priority := (congrArg (·.priority) hstill).trans hpriority
  have hmembers : q.members = p.members := congrArg (·.members) hstill
  refine (hs q hq hq').congr ?_ (congrArg (·.totalMax) hstill).symm
    (congrArg (·.uniformMax) hstill).symm (congrArg (·.aliasThreshold) hstill).symm
    (congrArg (·.snapshot) hstill).symm
  show (statesAt t.states p.members).map _ = (statesAt s.states q.members).map _
  rw [← hmembers]
  refine h.loads_statesAt fun place hplace => ?_
  rw [← hq', ← hlayout.members_eq hq]
  exact hplace

end Spares

/-- A change of a state spares a group if it leaves the weight, or if it is not the group of the
state. -/
theorem spares_modifyAt (hlayout : s.Layout) {place : Nat} {f : Resource ω → Resource ω}
    (kept : ∀ r, Resource.Kept r (f r))
    (h : ∀ r, s.states[place]? = some r → (f r).current = r.current ∨ r.priority ≠ priority) :
    s.Spares priority (s.modifyAt place f) where
  frame := s.frame_modifyAt place kept
  pools {p} hp _ := ⟨p, hp, rfl⟩
  loads {other} hother := by
    by_cases heq : place = other
    · subst heq
      rw [Selector.modifyAt, List.getElem?_modify_eq]
      cases hr : s.states[place]? with
      | none => rfl
      | some r =>
          rcases h r hr with hcurrent | hpriority
          · show some (f r).load = some r.load
            rw [Resource.load, Resource.load, (kept r).maxWeight, hcurrent]
          · obtain ⟨p, hp, rfl, hmember⟩ := mem_membersOf hother
            exact absurd (hlayout.priority hp hmember hr) hpriority
    · rw [Selector.modifyAt, List.getElem?_modify_ne f s.states heq]

/-- Rewriting the group of one priority spares those of others. -/
theorem spares_of_rewrite {f : GroupOf Nat ω → GroupOf Nat ω} {rewritten : Nat}
    (hframe : s.Frame t) (hstates : t.states = s.states) (hf : ∀ p, (f p).priority = p.priority)
    (hpools : t.pools = s.pools.map fun p => if p.priority = rewritten then f p else p)
    (hne : rewritten ≠ priority) : s.Spares priority t where
  frame := hframe
  pools {p} hp hpriority := by
    rw [hpools] at hp
    obtain ⟨q, hq, rfl⟩ := List.mem_map.1 hp
    by_cases heq : q.priority = rewritten
    · rw [if_pos heq, hf q] at hpriority
      exact absurd (heq.symm.trans hpriority) hne
    · exact ⟨q, hq, by rw [if_neg heq]⟩
  loads _ := by rw [hstates]

theorem spares_refreshGroup (h : s.Layout) {renewed : Nat} (hne : renewed ≠ priority) :
    s.Spares priority (s.refreshGroup renewed) :=
  spares_of_rewrite (f := refreshPool s.states) (s.frame_refreshGroup renewed)
    (s.states_refreshGroup renewed) (fun _ => rfl) (pools_refreshGroup h renewed) hne

theorem settledAt_refreshGroup (h : s.Layout) (hsummed : s.Summed) :
    (s.refreshGroup priority).SettledAt priority := by
  intro p hp hpriority
  rw [pools_refreshGroup h] at hp
  rw [states_refreshGroup]
  obtain ⟨q, hq, rfl⟩ := List.mem_map.1 hp
  by_cases heq : q.priority = priority
  · rw [if_pos heq]
    obtain ⟨htotal, huniform⟩ := hsummed q hq
    exact Group.settled_refresh (g := groupOf s.states q) htotal huniform
  · rw [if_neg heq] at hpriority
    exact absurd hpriority heq

/-! ## Changes -/

/-- Whatever is done in one go spares a group or puts its snapshot right, whatever this said
before. -/
theorem Change.spares_or_settles (h : s.Change t) (hlayout : s.Layout) (hsummed : s.Summed)
    (priority : Nat) : s.Spares priority t ∨ t.SettledAt priority := by
  cases h with
  | idle => exact .inl (.idle priority s _ _ _)
  | turn index cursor => exact .inl (.turnTo priority s index cursor)
  | touch place kept same =>
      exact .inl (spares_modifyAt hlayout kept fun r hr => .inl (same r hr))
  | @weigh place f r kept found =>
      have hframe := s.frame_modifyAt place kept
      have hlayout' := hlayout.frame hframe
      by_cases hpriority : r.priority = priority
      · right
        rw [hpriority]
        exact settledAt_refreshGroup hlayout' (hframe.summed hsummed)
      · left
        refine Spares.trans ?_ (spares_refreshGroup hlayout' hpriority)
        refine spares_modifyAt hlayout kept fun q hq => .inr ?_
        obtain rfl : r = q := Option.some.inj (found.symm.trans hq)
        exact hpriority

theorem Changes.spares_or_settles (h : s.Changes t) (hlayout : s.Layout) (hsummed : s.Summed)
    (priority : Nat) : s.Spares priority t ∨ t.SettledAt priority := by
  suffices t.Layout ∧ t.Summed ∧ (s.Spares priority t ∨ t.SettledAt priority) from this.2.2
  refine h.induct (P := fun t => t.Layout ∧ t.Summed ∧ (s.Spares priority t ∨ t.SettledAt priority))
    (fun {t u} hchange ht => ?_) ⟨hlayout, hsummed, .inl (.refl priority s)⟩
  obtain ⟨hlayout', hsummed', ht⟩ := ht
  refine ⟨hlayout'.frame hchange.frame, hchange.frame.summed hsummed', ?_⟩
  rcases hchange.spares_or_settles hlayout' hsummed' priority with hspares | hsettled
  · exact ht.imp (·.trans hspares) (hspares.settledAt hlayout')
  · exact .inr hsettled

end Selector

/-! ## Reports and selections -/

namespace System

variable [LawfulScalar ω] {s : System ω}

/-- What is selected weighs something. -/
theorem positive_of_selectOne (h : s.selector.Ready)
    (hwithin : ∀ r ∈ s.selector.states, r.Within ∧ 0 ≤ r.minWeight) {name : String}
    (hselect : s.selectOne.1 = some name) :
    ∃ r, s.selector.find? name = some r ∧ 0 < r.current := by
  rcases selectWith_cases h none with ⟨place, r, -, hr, heligible, -, hpicked, -⟩ |
    ⟨-, -, -, hpicked, -⟩
  · obtain rfl : r.name = name := Option.some.inj (hpicked.symm.trans hselect)
    obtain ⟨hbounds, hnonneg⟩ := hwithin r (List.mem_of_getElem? hr)
    exact ⟨r, h.layout.find?_eq_some.2 ⟨place, hr, rfl⟩,
      Resource.current_pos heligible.2 (Scalar.le_trans hnonneg hbounds.1)⟩
  · exact absurd (hselect.symm.trans hpicked) (Option.some_ne_none name)

theorem changes_event (f : Feedback) {r : Resource ω} (hr : s.selector.find? f.name = some r) :
    s.selector.Changes (s.step f.event).selector := by
  cases f with
  | report result name => exact changes_deal_of_find? hr (.report result)
  | down name => exact s.changes_down name

/-- A report leaves the weight of its resource, or puts the snapshot of the group right. -/
theorem current_or_fresh (hlayout : s.selector.Layout) (hsummed : s.selector.Summed) {f : Feedback}
    {r : Resource ω} (hr : s.selector.find? f.name = some r) :
    ∃ r', (s.step f.event).selector.find? f.name = some r' ∧ (r'.current = r.current ∨
      ∀ g ∈ (s.step f.event).selector.groups, g.priority = r.priority → g.Fresh) := by
  have hchanges := s.changes_event f hr
  have hlayout' := hlayout.frame hchanges.frame
  obtain ⟨place, hentry⟩ := hlayout.find?_eq_some_iff_entry?.1 hr
  obtain ⟨r', hentry', -⟩ := hchanges.frame.entry? hentry
  refine ⟨r', hlayout'.find?_eq_some_iff_entry?.2 ⟨place, hentry'⟩, ?_⟩
  have hstate := Selector.states_of_entry? hentry
  have hstate' := Selector.states_of_entry? hentry'
  rcases hchanges.spares_or_settles hlayout hsummed r.priority with hspares | hsettled
  · left
    obtain ⟨p, hp, hplace⟩ := hlayout.exists_pool (List.getElem?_eq_some_iff.1 hstate).1
    have hpriority := hlayout.priority hp hplace hstate
    have hmember : place ∈ s.selector.membersOf r.priority := by
      rw [hpriority, ← hlayout.members_eq hp]
      exact hplace
    have hload := hspares.loads hmember
    rw [hstate, hstate', Option.map_some, Option.map_some] at hload
    exact congrArg (·.2) (Option.some.inj hload)
  · right
    intro g hg hpriority
    obtain ⟨p, hp, rfl⟩ := List.mem_map.1 hg
    exact (hsettled p hp hpriority).fresh

end System

end ResourceSelection
