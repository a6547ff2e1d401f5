import ResourceSelection.Proofs.Managers
import ResourceSelection.Proofs.Registration
import ResourceSelection.Proofs.Roster

/-!
# The members are the declared resources

A manager keeps three accounts of its members: the roster of declarations, the grouping, and the
selector that was built last. Where unknown resources are not registered on the fly, all three say
the same, and what they say can be told from the calls alone. A call that changes the membership
either succeeds, and then its declarations count, or fails, and then nothing does.

Two facts carry this. The grouping goes along with the roster, name by name (`Membership.Aligned`).
And the current selector knows the names of the roster, as the roster and the grouping declare them
(`Selector.Enacts`): so it does when it is built, and no later call changes what a selector knows.

In which order a roster lists its members is left open: each time, it may be another one.
-/

namespace ResourceSelection

variable {ω : Type}

/-! ## A selector for a membership -/

/-- The selector knows the members as they are declared, and will register nobody else. -/
structure Selector.Enacts (m : Membership ω) (s : Selector ω) [Scalar ω] : Prop where
  layout : s.Layout
  keepsOut : s.settings.autoAddWeight = none
  known {name : String} : (s.place? name).isSome = true ↔ name ∈ m.roster.names
  meets {name : String} {r : Resource ω} {d : Declaration ω} : s.find? name = some r →
    m.roster.get? name = some d → r.Meets (m.declarationOf none name d)

variable [Scalar ω]

namespace Selector.Enacts

variable {m : Membership ω} {s t : Selector ω}

theorem frame (h : s.Enacts m) (hf : s.Frame t) : t.Enacts m where
  layout := h.layout.frame hf
  keepsOut := by
    rw [hf.settings]
    exact h.keepsOut
  known := by
    intro name
    rw [hf.place?]
    exact h.known
  meets := by
    intro name r d hr hd
    obtain ⟨place, hplace, hname⟩ := (h.layout.frame hf).find?_eq_some.1 hr
    obtain ⟨r', hr', hkept⟩ := hf.kept hplace
    have hfind := h.layout.find?_eq_some.2 ⟨place, hr', hkept.name.symm.trans hname⟩
    exact hkept.meets (h.meets hfind hd)

/-- Nothing is enrolled, so an event is nothing but changes. -/
theorem step [LawfulScalar ω] {s : System ω} (h : s.selector.Enacts m) (e : Event ω) :
    (s.step e).selector.Enacts m := by
  have hchanges := s.step_changes e
  rcases e.enrols_cases s.selector with heq | ⟨name, weight, -, hauto, -⟩
  · rw [heq] at hchanges
    exact h.frame hchanges.frame
  · rw [h.keepsOut] at hauto
    exact nomatch hauto

end Selector.Enacts

/-- A selector that is built for a membership enacts it. -/
theorem Membership.enacts_of_build [LawfulScalar ω] {m : Membership ω} {template : Builder ω}
    {previous : Option (Selector ω)} {id : Nat} {host : Host ω} {s : System ω}
    (h : m.build template previous id host = .ok s)
    (hauto : template.settings.autoAddWeight = none) : s.selector.Enacts m := by
  have hreaches : (m.builder template previous).Reaches s := .built h
  have hlayout := hreaches.layout
  constructor
  · exact hlayout
  · rw [hreaches.bounded.settings]
    exact hauto
  · intro name
    rw [Builder.known_build h]
    show name ∈ (m.roster.entries.map _).map _ ↔ _
    rw [List.map_map]
    rfl
  · intro name r d hr hd
    obtain ⟨hmem, rfl⟩ := hlayout.mem_of_find? hr
    obtain ⟨declared, hdeclared, hmeets⟩ := hreaches.bounded.meets hmem
    have hlookup : (m.builder template previous).resources.lookup r.name = _ :=
      m.roster.lookup_entries (m.declarationOf previous) r.name
    unfold Builder.declarationOf? at hdeclared
    rw [hlookup, hd] at hdeclared
    obtain rfl := Option.some.inj hdeclared
    exact m.meets_declarationOf previous r.name d hmeets

/-! ## Histories -/

omit [Scalar ω] in
theorem Membership.get?_updateAll (m : Membership ω) (resources : List (String × Declaration ω))
    (rank : String → Nat) : (m.change (m.dropped (Roster.ofList resources) rank)
      (Roster.ofList resources).entries rank).roster.get? =
      Declarations.nothing.override resources := by
  refine (m.get?_update resources _ rank).trans (funext fun name => ?_)
  rw [Declarations.override_apply]
  cases hdeclared : Declarations.nothing.override resources name with
  | some d => rfl
  | none =>
      rw [← Roster.get?_ofList, Roster.get?_eq_none_iff] at hdeclared
      unfold Declarations.without
      by_cases hmem : name ∈ m.roster.names
      · rw [if_pos (mem_dropped.2 ⟨hmem, hdeclared⟩)]
        rfl
      · rw [Roster.get?_eq_none_iff.2 hmem]
        simp

/-- What has been declared after an event. -/
def Declarations.after (declared : Declarations ω) (m : Manager ω) :
    ManagerEvent ω → Declarations ω
  | .update add remove rank =>
    match m.update add remove rank with
    | .ok _ => (declared.without remove).override add
    | .error _ => declared
  | .updateAll resources rank =>
    match m.updateAll resources rank with
    | .ok _ => nothing.override resources
    | .error _ => declared
  | _ => declared

namespace Manager

/-- How a manager has come about, that does not register unknown resources and has a grouping with
the given core sizes or none, and what has been declared to it. Every group has a priority of its
own. -/
inductive History (cores : Option (List Nat)) : Manager ω → Declarations ω → Prop
  | created {template : Builder ω} {resources : List (String × Declaration ω)} {rng : Rng}
      {host : Host ω} {rank : String → Nat} {m : Manager ω} : template.settings.autoAddWeight = none →
      (∀ sizes, cores = some sizes → sizes.length ≤ Grouping.priorityLimit) →
      create template resources (cores.map fun sizes => .empty sizes rng) host rank = .ok m →
      History cores m (Declarations.nothing.override (template.resources ++ resources))
  | step {m : Manager ω} {declared : Declarations ω} (e : ManagerEvent ω) :
      History cores m declared → History cores (m.step e) (declared.after m e)

/-- The roster, the grouping and the current selector agree with what has been declared. -/
structure Tracks (cores : Option (List Nat)) (m : Manager ω) (declared : Declarations ω) : Prop where
  keepsOut : m.template.settings.autoAddWeight = none
  declared : m.membership.roster.get? = declared
  cores : m.membership.grouping.map (·.coreSizes) = cores
  aligned : m.membership.Aligned
  enacts : m.current.Enacts m.membership

namespace Tracks

variable {cores : Option (List Nat)} {m : Manager ω} {declared : Declarations ω}

variable [LawfulScalar ω]

/-- Only what the current selector does can matter. -/
theorem use (h : m.Tracks cores declared) {s : System ω} {id : Nat}
    (hs : m.snapshot? id = some s) (e : Event ω) : (m.record (s.step e)).Tracks cores declared where
  keepsOut := h.keepsOut
  declared := h.declared
  cores := h.cores
  aligned := h.aligned
  enacts := by
    obtain ⟨rfl, heq⟩ | heq := current_record hs e
    · rw [heq]
      exact h.enacts.step e
    · rw [heq]
      exact h.enacts

theorem moves (h : m.Tracks cores declared) {m' : Manager ω} (hmoves : m.Moves m') :
    m'.Tracks cores declared := by
  refine hmoves.induct (P := fun m => Tracks cores m declared) ?_ h
  rintro m m' hmove h
  cases hmove with
  | host => exact ⟨h.keepsOut, h.declared, h.cores, h.aligned, h.enacts⟩
  | shut => exact ⟨h.keepsOut, h.declared, h.cores, h.aligned, h.enacts⟩
  | use hs e => exact h.use hs e

/-- A change that has been built is as if everything had been declared that way. -/
theorem apply (h : m.Tracks cores declared) {add : List (String × Declaration ω)}
    {remove : List String} {rank : String → Nat} {m' : Manager ω}
    (hok : m.apply (Roster.ofList add) remove rank = .ok m') :
    m'.Tracks cores ((declared.without remove).override add) := by
  have hget := m.membership.get?_update add remove rank
  have haligned := h.aligned.change remove (Roster.ofList add).entries rank
  have hcores := m.membership.coreSizes_change remove (Roster.ofList add).entries rank
  rw [h.declared] at hget
  obtain ⟨s, hbuild, rfl⟩ := apply_eq_ok hok
  generalize m.membership.change remove (Roster.ofList add).entries rank = next at *
  have henacts := Membership.enacts_of_build hbuild h.keepsOut
  refine ⟨h.keepsOut, hget, hcores.trans h.cores, haligned, ?_⟩
  show (ite _ s.close s).selector.Enacts next
  split
  · exact henacts.step (.call .close)
  · exact henacts

theorem step (h : m.Tracks cores declared) (e : ManagerEvent ω) :
    (m.step e).Tracks cores (declared.after m e) := by
  cases e with
  | update add remove rank =>
      unfold Manager.step Declarations.after
      simp only
      cases hok : m.update add remove rank with
      | error failure => exact h.moves (Move.host m _).moves
      | ok m' =>
          have htracks := h.apply hok
          have hsame : declared.without remove.eraseDups = declared.without remove := by
            funext name
            simp only [Declarations.without, List.mem_eraseDups]
          rwa [hsame] at htracks
  | updateAll resources rank =>
      unfold Manager.step Declarations.after
      simp only
      cases hok : m.updateAll resources rank with
      | error failure => exact h.moves (Move.host m _).moves
      | ok m' =>
          have htracks := h.apply hok
          rw [← h.declared, ← m.membership.get?_update _ _ rank,
            m.membership.get?_updateAll] at htracks
          exact htracks
  | _ => exact h.moves (m.moves_step rfl)

end Tracks

variable [LawfulScalar ω]

theorem tracks_of_create {cores : Option (List Nat)} {template : Builder ω}
    {resources : List (String × Declaration ω)} {rng : Rng} {host : Host ω} {rank : String → Nat}
    {m : Manager ω} (hauto : template.settings.autoAddWeight = none)
    (hnumbered : ∀ sizes, cores = some sizes → sizes.length ≤ Grouping.priorityLimit)
    (h : create template resources (cores.map fun sizes => .empty sizes rng) host rank = .ok m) :
    m.Tracks cores (Declarations.nothing.override (template.resources ++ resources)) := by
  have hcreated := created_of_create h
  have hkeeps : m.template.settings.autoAddWeight = none := hcreated.settings ▸ hauto
  refine ⟨hkeeps, ?_, ?_, ?_, Membership.enacts_of_build hcreated.built hkeeps⟩
  · exact hcreated.get?_roster
  · simp [hcreated.grouping, Option.map_map, Function.comp_def, Grouping.empty]
  · have hgrouping := hcreated.grouping
    rw [Option.map_map] at hgrouping
    show Membership.Aligned ⟨m.membership.roster, m.membership.grouping⟩
    rw [hgrouping]
    exact Membership.aligned_assignInitial hcreated.nodup_names hnumbered rng

theorem History.tracks {cores : Option (List Nat)} {m : Manager ω} {declared : Declarations ω}
    (h : m.History cores declared) : m.Tracks cores declared := by
  induction h with
  | created hauto hnumbered hcreate => exact tracks_of_create hauto hnumbered hcreate
  | step e _ ih => exact ih.step e

/-! ## What there is to see -/

/-- What a manager tells of its members is what has been declared. -/
structure Mirrors (cores : Option (List Nat)) (m : Manager ω) (declared : Declarations ω) : Prop where
  /-- The registered names are the declared ones, and each is listed once. -/
  registered : ∀ name, (m.current.statusOf name).isSome = (declared name).isSome
  listed : ∀ name, name ∈ m.current.allResources ↔ (declared name).isSome = true
  nodup : m.current.allResources.Nodup
  bounds : ∀ name status d, m.current.statusOf name = some status → declared name = some d →
    status.maxWeight = d.maxWeight ∧ status.minWeight = d.minWeight
  /-- The manager has the grouping that it was created with, or none. -/
  grouping : m.membership.grouping.map (·.coreSizes) = cores
  /-- Without a grouping a priority is the declared one. -/
  own : m.membership.grouping = none →
    ∀ name, m.priorityOf name = (declared name).map (·.priority)
  /-- With a grouping it is the number of the group. -/
  assigned : ∀ g, m.membership.grouping = some g → ∀ name, m.priorityOf name = g.priorityOf name
  /-- The size of each group is the number of resources of that priority. -/
  sizes : ∀ sizes, m.groupSizes = some sizes → ∀ group, sizes.getD group 0 =
    (m.current.allResources.filter fun name => m.priorityOf name = some group).length

end Manager

namespace Membership

theorem declarationOf_none (m : Membership ω) (name : String) (d : Declaration ω) :
    m.declarationOf none name d =
      { d with priority := (m.grouping.bind (·.priorityOf name)).getD d.priority } := by
  unfold declarationOf
  cases m.grouping.bind (·.priorityOf name) <;> rfl

end Membership

namespace Manager.Tracks

variable {cores : Option (List Nat)} {m : Manager ω} {declared : Declarations ω}

/-- A name is registered if it is declared, and then as it is declared. -/
theorem statusOf (h : m.Tracks cores declared) (name : String) :
    (declared name = none ∧ m.current.statusOf name = none) ∨
    ∃ d status, declared name = some d ∧ m.current.statusOf name = some status ∧
      status.maxWeight = d.maxWeight ∧ status.minWeight = d.minWeight ∧
      status.priority = (m.membership.grouping.bind (·.priorityOf name)).getD d.priority := by
  have hplace := h.enacts.layout.isSome_statusOf name
  have hknown : (m.current.place? name).isSome = true ↔ _ := h.enacts.known
  rw [← hplace, ← Roster.isSome_get?, h.declared] at hknown
  cases hd : declared name with
  | none =>
      rw [hd] at hknown
      refine .inl ⟨rfl, ?_⟩
      simpa using hknown
  | some d =>
      rw [hd] at hknown
      obtain ⟨status, hstatus⟩ := Option.isSome_iff_exists.1 (hknown.2 rfl)
      obtain ⟨r, hr, rfl⟩ := Option.map_eq_some_iff.1 hstatus
      have hmeets := h.enacts.meets hr ((congrFun h.declared name).trans hd)
      rw [m.membership.declarationOf_none] at hmeets
      exact .inr ⟨d, r.status, rfl, hstatus, hmeets.maxWeight, hmeets.minWeight, hmeets.priority⟩

theorem isSome_statusOf (h : m.Tracks cores declared) (name : String) :
    (m.current.statusOf name).isSome = (declared name).isSome := by
  obtain ⟨hd, hstatus⟩ | ⟨d, status, hd, hstatus, -⟩ := h.statusOf name
  · rw [hd, hstatus, Option.isSome_none, Option.isSome_none]
  · rw [hd, hstatus, Option.isSome_some, Option.isSome_some]

theorem priorityOf_of_grouping (h : m.Tracks cores declared) {g : Grouping String}
    (hg : m.membership.grouping = some g) (name : String) :
    m.priorityOf name = g.priorityOf name := by
  have hassigned : (g.priorityOf name).isSome = true ↔ _ := h.aligned.assigned hg
  rw [← Roster.isSome_get?, h.declared] at hassigned
  unfold priorityOf
  obtain ⟨hd, hstatus⟩ | ⟨d, status, hd, hstatus, -, -, hpriority⟩ := h.statusOf name
  · rw [hd] at hassigned
    rw [hstatus, Option.map_none]
    symm
    simpa using hassigned
  · rw [hd] at hassigned
    obtain ⟨group, hgroup⟩ := Option.isSome_iff_exists.1 (hassigned.2 rfl)
    rw [hg, Option.bind_some, hgroup] at hpriority
    rw [hstatus, hgroup, Option.map_some, hpriority, Option.getD_some]

theorem mirrors (h : m.Tracks cores declared) : m.Mirrors cores declared where
  registered := h.isSome_statusOf
  listed name := by rw [h.enacts.layout.mem_allResources, h.isSome_statusOf]
  nodup := h.enacts.layout.nodup_allResources
  bounds name status d hstatus hd := by
    obtain ⟨hd', -⟩ | ⟨d', status', hd', hstatus', hmax, hmin, -⟩ := h.statusOf name
    · exact nomatch hd.symm.trans hd'
    · obtain rfl := Option.some.inj (hd.symm.trans hd')
      obtain rfl := Option.some.inj (hstatus.symm.trans hstatus')
      exact ⟨hmax, hmin⟩
  grouping := h.cores
  own hnone name := by
    unfold priorityOf
    obtain ⟨hd, hstatus⟩ | ⟨d, status, hd, hstatus, -, -, hpriority⟩ := h.statusOf name
    · rw [hd, hstatus, Option.map_none, Option.map_none]
    · rw [hnone] at hpriority
      rw [hd, hstatus, Option.map_some, Option.map_some, hpriority]
      rfl
  assigned g hg name := h.priorityOf_of_grouping hg name
  sizes sizes hsizes group := by
    obtain ⟨g, hg, rfl⟩ := Option.map_eq_some_iff.1 hsizes
    have htidy := h.aligned.tidy hg
    have hperm : (g.members group).Perm
        (m.current.allResources.filter fun name => m.priorityOf name = some group) := by
      rw [List.perm_ext_iff_of_nodup (htidy.nodup_members group)
        (h.enacts.layout.nodup_allResources.filter _)]
      intro name
      rw [htidy.mem_members, List.mem_filter, decide_eq_true_iff, h.priorityOf_of_grouping hg,
        h.enacts.layout.mem_allResources]
      refine ⟨fun hgroup => ⟨?_, hgroup⟩, And.right⟩
      rw [← h.priorityOf_of_grouping hg] at hgroup
      obtain ⟨status, hstatus, -⟩ := Option.map_eq_some_iff.1 hgroup
      rw [hstatus, Option.isSome_some]
    rw [g.getD_groupSizes, hperm.length_eq]

end Manager.Tracks

/-- Whatever changes a manager has made or failed to make, and whatever calls came in between, its
members are those that the successful changes have declared, as they were declared last. -/
theorem mirrors_of_history {cores : Option (List Nat)} {m : Manager Float}
    {declared : Declarations Float} (h : m.History cores declared) : m.Mirrors cores declared :=
  h.tracks.mirrors

/-- A manager with one core group of one, which refuses a change and makes another. -/
theorem mirrors_of_history_one : ∃ (m : Manager Float) (declared : Declarations Float),
    m.History (some [1]) declared ∧ m.Mirrors (some [1]) declared := by
  obtain ⟨m, hcreate⟩ : ∃ m, Manager.create { Builder.pair with
      settings := { Builder.pair.settings with autoAddWeight := none }, resources := [] }
      [("a", .ofWeight 5)] ((some [1]).map fun sizes => .empty sizes ⟨0⟩) { rng := ⟨0⟩ } = .ok m :=
    ⟨_, rfl⟩
  have hcreated := Manager.History.created rfl (fun _ h => by cases h; decide) hcreate
  have hrefused := hcreated.step (.update [("b", .ofWeight (-1))] ["a"])
  have hchanged := hrefused.step (.update [("b", .ofWeight 20)] ["a"])
  exact ⟨_, _, hchanged, mirrors_of_history hchanged⟩

end ResourceSelection
