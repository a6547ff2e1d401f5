import ResourceSelection.Proofs.Binary64
import ResourceSelection.Proofs.Bounds

/-!
# Every registered resource is listed once

What the layout means to a caller. The names that a selector knows are the declared ones and, where
unknown resources are registered, those that somebody reported a call to. Each of them has one
place, in one group, and listing the groups lists every name once, in ascending priority. The
available and the failed resources are parts of that list, and can be told from the status alone.
-/

namespace ResourceSelection

variable {ω : Type}

namespace Selector

/-! ## Listing -/

theorem resources_eq (s : Selector ω) :
    s.resources = statesAt s.states (s.pools.flatMap (·.members)) := by
  unfold resources groups statesAt
  rw [List.flatMap_map, List.filterMap_flatMap]
  rfl

theorem statesAt_range (states : List (Resource ω)) :
    statesAt states (List.range states.length) = states := by
  unfold statesAt
  induction states with
  | nil => rfl
  | cons r rest ih =>
      rw [List.length_cons, List.range_succ_eq_map, List.filterMap_cons, List.filterMap_map]
      exact congrArg (r :: ·) ih

namespace Layout

variable {s : Selector ω}

/-- Listing the groups lists every state once. -/
theorem resources_perm (h : s.Layout) : s.resources.Perm s.states := by
  rw [resources_eq]
  have hperm : (statesAt s.states (s.pools.flatMap (·.members))).Perm
      (statesAt s.states (List.range s.states.length)) := h.placed.filterMap _
  rwa [statesAt_range] at hperm

theorem nodup_names (h : s.Layout) : (s.states.map (·.name)).Nodup := by
  rw [List.nodup_iff_pairwise_ne, List.pairwise_map, List.pairwise_iff_getElem]
  intro i j hi hj hij heq
  have := h.place_unique (List.getElem?_eq_getElem hi) (List.getElem?_eq_getElem hj) heq
  omega

/-- No name is listed twice. -/
theorem nodup_allResources (h : s.Layout) : s.allResources.Nodup := by
  unfold allResources
  exact (h.resources_perm.map _).nodup_iff.2 h.nodup_names

theorem find?_of_mem (h : s.Layout) {r : Resource ω} (hr : r ∈ s.resources) :
    s.find? r.name = some r := by
  obtain ⟨place, hplace⟩ := List.mem_iff_getElem?.1 (h.resources_perm.mem_iff.1 hr)
  exact h.find?_eq_some.2 ⟨place, hplace, rfl⟩

theorem statusOf_of_mem (h : s.Layout) {r : Resource ω} (hr : r ∈ s.resources) :
    s.statusOf r.name = some r.status := by
  rw [statusOf, h.find?_of_mem hr, Option.map_some]

/-- The listed names are the known ones. -/
theorem mem_allResources (h : s.Layout) {name : String} :
    name ∈ s.allResources ↔ (s.statusOf name).isSome = true := by
  unfold allResources
  rw [List.mem_map, statusOf, Option.isSome_map]
  constructor
  · rintro ⟨r, hr, rfl⟩
    rw [h.find?_of_mem hr, Option.isSome_some]
  · intro hsome
    obtain ⟨r, hr⟩ := Option.isSome_iff_exists.1 hsome
    obtain ⟨hmem, hname⟩ := h.mem_of_find? hr
    exact ⟨r, h.resources_perm.mem_iff.2 hmem, hname⟩

/-- Resources are listed in ascending priority. -/
theorem ascending_resources (h : s.Layout) :
    s.resources.Pairwise fun q r => q.priority ≤ r.priority := by
  have hpriority {p : GroupOf Nat ω} (hp : p ∈ s.pools) {r : Resource ω}
      (hr : r ∈ (groupOf s.states p).members) : r.priority = p.priority := by
    obtain ⟨place, hplace, hstate⟩ := List.mem_filterMap.1 hr
    exact h.priority hp hplace hstate
  unfold resources groups
  rw [List.flatMap_map, List.pairwise_flatMap]
  constructor
  · intro p hp
    refine List.pairwise_of_forall_mem_list fun q hq r hr => ?_
    rw [hpriority hp hq, hpriority hp hr]
  · refine h.ascending.imp_of_mem fun hp hp' hlt q hq r hr => ?_
    rw [hpriority hp hq, hpriority hp' hr]
    exact Nat.le_of_lt hlt

/-- Picking names from the list by the status is picking resources. -/
theorem filter_resources (h : s.Layout) {good : Resource ω → Bool} {told : Status ω → Bool}
    (hgood : ∀ r, good r = told r.status) :
    (s.resources.filter good).map (·.name) =
      s.allResources.filter fun name => (s.statusOf name).any told := by
  unfold allResources
  rw [List.filter_map]
  refine congrArg (List.map _) (List.filter_congr fun r hr => ?_)
  rw [Function.comp_apply, h.statusOf_of_mem hr, Option.any_some, hgood]

end Layout

end Selector

/-! ## The known names -/

variable [Scalar ω]

namespace Selector

theorem Frame.place? {s t : Selector ω} (h : s.Frame t) (name : String) :
    t.place? name = s.place? name := by
  unfold Selector.place?
  rw [h.registry]

theorem known_enrol (name other : String) (s : Selector ω) :
    ((s.enrol name).place? other).isSome = true ↔
      (s.place? other).isSome = true ∨ s.settings.autoAddWeight.isSome = true ∧ other = name := by
  unfold enrol
  split
  · next weight hnew hauto =>
      rw [place?_register, hauto]
      split
      · next heq => simp [heq]
      · next hne => simp [hne]
  · next hold =>
      constructor
      · exact .inl
      · rintro (hknown | ⟨hauto, rfl⟩)
        · exact hknown
        · obtain ⟨weight, hweight⟩ := Option.isSome_iff_exists.1 hauto
          by_contra hnone
          rw [Bool.not_eq_true, Option.isSome_eq_false_iff, Option.isNone_iff_eq_none] at hnone
          exact hold weight hnone hweight

end Selector

namespace System

variable [LawfulScalar ω]

/-- After an event the names are known that were before, and the one that it reports a call to. -/
theorem known_step (e : Event ω) (s : System ω) (name : String) :
    ((s.step e).selector.place? name).isSome = true ↔
      (s.selector.place? name).isSome = true ∨ s.selector.settings.autoAddWeight.isSome = true ∧
        ∃ result, e = .call (.report result name) := by
  rw [(s.step_changes e).frame.place?]
  unfold Event.enrols
  split
  · next result other =>
      have hreport : (∃ r, (.call (.report result other) : Event ω) = .call (.report r name)) ↔
          name = other := by
        constructor
        · rintro ⟨r, heq⟩
          cases heq
          rfl
        · rintro rfl
          exact ⟨result, rfl⟩
      rw [Selector.known_enrol, hreport]
  · next hother =>
      constructor
      · exact .inl
      · rintro (hknown | ⟨-, result, rfl⟩)
        · exact hknown
        · exact absurd rfl (hother result name)

theorem known_run (es : List (Event ω)) (s : System ω) (name : String) :
    ((s.run es).selector.place? name).isSome = true ↔
      (s.selector.place? name).isSome = true ∨ s.selector.settings.autoAddWeight.isSome = true ∧
        ∃ result, .call (.report result name) ∈ es := by
  induction es generalizing s with
  | nil => simp [run]
  | cons e rest ih =>
      show (((s.step e).run rest).selector.place? name).isSome = true ↔ _
      have hcons : (∃ result, Event.call (.report result name) ∈ e :: rest) ↔
          (∃ result, e = .call (.report result name)) ∨
            ∃ result, .call (.report result name) ∈ rest := by
        rw [← exists_or]
        exact exists_congr fun result => by rw [List.mem_cons, eq_comm]
      rw [ih, known_step, settings_step, hcons]
      tauto

end System

theorem Builder.Reaches.run {b : Builder ω} {s : System ω} (h : b.Reaches s)
    (es : List (Event ω)) : b.Reaches (s.run es) := by
  induction es generalizing s with
  | nil => exact h
  | cons e rest ih => exact ih (h.step e)

/-! ## What a caller can rely on -/

/-- What there is to see of a selector that knows certain names. -/
structure Selector.Consistent (known : String → Prop) (s : Selector ω) : Prop where
  /-- The priorities of the groups ascend strictly. -/
  ascending : s.groups.Pairwise fun g g' => g.priority < g'.priority
  /-- No group is empty. -/
  inhabited : ∀ g ∈ s.groups, g.members ≠ []
  /-- The status of a name can be told if and only if the name is known. -/
  known : ∀ name, (s.statusOf name).isSome = true ↔ known name
  /-- The state of a known name is a member of one group, once, and has the group's priority. -/
  placed : ∀ name place r, s.entry? name = some (place, r) → ∃ p ∈ s.pools,
    p.priority = r.priority ∧ p.members.count place = 1 ∧ ∀ q ∈ s.pools, place ∈ q.members → q = p
  /-- A member of a group is the very state that its name leads to. -/
  found : ∀ p ∈ s.pools, ∀ place ∈ p.members, ∃ r, s.states[place]? = some r ∧
    s.entry? r.name = some (place, r)
  /-- Every known name is listed once. -/
  nodup : s.allResources.Nodup
  listed : ∀ name, name ∈ s.allResources ↔ (s.statusOf name).isSome = true
  /-- The list is in ascending priority. -/
  sorted : s.allResources.Pairwise fun name name' => ∀ status status',
    s.statusOf name = some status → s.statusOf name' = some status' →
      status.priority ≤ status'.priority
  /-- The available resources are those of positive weight. -/
  available : s.availableResources =
    s.allResources.filter fun name => (s.statusOf name).any fun status => 0 < status.current
  /-- The failed resources are those at their minimum and below their maximum. -/
  failed : s.failedResources =
    s.allResources.filter fun name => (s.statusOf name).any fun status =>
      status.current ≤ status.minWeight && decide (status.current < status.maxWeight)

namespace Selector.Layout

variable {s : Selector ω}

omit [Scalar ω] in
theorem isSome_statusOf (h : s.Layout) (name : String) :
    (s.statusOf name).isSome = (s.place? name).isSome := by
  rw [Bool.eq_iff_iff, Option.isSome_iff_exists, Option.isSome_iff_exists]
  constructor
  · rintro ⟨status, hstatus⟩
    obtain ⟨r, hr, -⟩ := Option.map_eq_some_iff.1 hstatus
    obtain ⟨place, hplace⟩ := h.find?_eq_some.1 hr
    exact ⟨place, h.registered.2 ⟨r, hplace⟩⟩
  · rintro ⟨place, hplace⟩
    obtain ⟨r, hr⟩ := h.registered.1 hplace
    exact ⟨r.status, Option.map_eq_some_iff.2 ⟨r, h.find?_eq_some.2 ⟨place, hr⟩, rfl⟩⟩

omit [Scalar ω] in
theorem count_members (h : s.Layout) {p : GroupOf Nat ω} (hp : p ∈ s.pools) {place : Nat}
    (hplace : place ∈ p.members) : p.members.count place = 1 := by
  have hnodup := h.placed.nodup_iff.2 List.nodup_range
  exact List.count_eq_one_of_mem ((List.nodup_flatMap.1 hnodup).1 p hp) hplace

/-- The layout is all that a caller relies on. -/
theorem consistent (h : s.Layout) {known : String → Prop}
    (hknown : ∀ name, (s.place? name).isSome = true ↔ known name) : s.Consistent known where
  ascending := List.pairwise_map.2 h.ascending
  inhabited g hg := by
    obtain ⟨p, hp, rfl⟩ := List.mem_map.1 hg
    obtain ⟨place, hplace⟩ := List.exists_mem_of_ne_nil _ (h.inhabited hp)
    obtain ⟨r, hr⟩ := h.state hp hplace
    exact List.ne_nil_of_mem (List.mem_filterMap.2 ⟨place, hplace, hr⟩)
  known name := by rw [h.isSome_statusOf, hknown]
  placed name place r hentry := by
    obtain ⟨hr, -⟩ := h.entry?_eq_some.1 hentry
    obtain ⟨p, hp, hplace⟩ := h.exists_pool (List.getElem?_eq_some_iff.1 hr).1
    have hpriority := h.priority hp hplace hr
    refine ⟨p, hp, hpriority.symm, h.count_members hp hplace, fun q hq hmem => ?_⟩
    exact h.pool_unique hq hp ((h.priority hq hmem hr).symm.trans hpriority)
  found p hp place hplace := by
    obtain ⟨r, hr⟩ := h.state hp hplace
    exact ⟨r, hr, h.entry?_eq_some.2 ⟨hr, rfl⟩⟩
  nodup := h.nodup_allResources
  listed name := h.mem_allResources
  sorted := by
    refine List.pairwise_map.2 (h.ascending_resources.imp_of_mem fun hq hr hle => ?_)
    intro status status' hstatus hstatus'
    rw [h.statusOf_of_mem hq] at hstatus
    rw [h.statusOf_of_mem hr] at hstatus'
    cases hstatus
    cases hstatus'
    exact hle
  available := h.filter_resources fun _ => rfl
  failed := h.filter_resources fun _ => rfl

end Selector.Layout

theorem Builder.known_build [LawfulScalar ω] {b : Builder ω} {id : Nat} {host : Host ω}
    {s : System ω} (h : b.build id host = .ok s) (name : String) :
    (s.selector.place? name).isSome = true ↔ name ∈ b.resources.map (·.1) := by
  obtain ⟨hvalid, hchanges⟩ := b.changes_of_build h
  rw [hchanges.frame.place?, Option.isSome_iff_exists, List.mem_iff_getElem?]
  constructor
  · rintro ⟨place, hplace⟩
    obtain ⟨i, -, hi⟩ := (lookup_zipIdx (nodup_names hvalid)).1 hplace
    exact ⟨i, hi⟩
  · rintro ⟨i, hi⟩
    exact ⟨0 + i, (lookup_zipIdx (nodup_names hvalid)).2 ⟨i, rfl, hi⟩⟩

/-- Whatever happens to a selector, its registry and its groups agree about the resources that were
declared or reported, and every one of them is listed once. -/
theorem consistent_run {b : Builder Float} {id : Nat} {host : Host Float} {s : System Float}
    (h : b.build id host = .ok s) (es : List (Event Float)) :
    (s.run es).selector.Consistent fun name =>
      name ∈ b.resources.map (·.1) ∨ b.settings.autoAddWeight.isSome = true ∧
        ∃ result, .call (.report result name) ∈ es := by
  have hreaches : b.Reaches s := .built h
  refine (hreaches.run es).layout.consistent fun name => ?_
  rw [System.known_run, b.known_build h, hreaches.bounded.settings]

/-- Two declared resources and one that is reported. -/
theorem consistent_run_pair : ∃ s, Builder.pair.build 0 { rng := ⟨0⟩ } = .ok s ∧
    (s.run [.call (.report .success "c"), .call (.down "a")]).selector.Consistent fun name =>
      name ∈ ["a", "b"] ∨ true = true ∧ ∃ result, (.call (.report result name) : Event Float) ∈
        [.call (.report .success "c"), .call (.down "a")] := by
  obtain ⟨s, hbuild⟩ := Builder.exists_build Builder.pair_valid (.of_none rfl) 0 { rng := ⟨0⟩ }
  exact ⟨s, hbuild, consistent_run hbuild [.call (.report .success "c"), .call (.down "a")]⟩

end ResourceSelection
