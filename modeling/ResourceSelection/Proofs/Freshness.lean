import ResourceSelection.Proofs.Binary64
import ResourceSelection.Proofs.Bounds

/-!
# Snapshots are fresh

The snapshot of a group says what its members weigh now. It is a cache: it is renewed when a weight
changes, by a search for the group of that priority, and made anew when a resource joins. That this
is enough rests on the layout, by which the group found is the only one that the changed state
belongs to; every other group looks at states that are as they were.
-/

namespace ResourceSelection

variable {ω : Type}

/-- All that a group's snapshot reads of a member. -/
def Resource.load (r : Resource ω) : ω × ω := (r.maxWeight, r.current)

variable [Scalar ω]

namespace Group

/-! ## One group -/

omit [Scalar ω] in
theorem map_maxWeight {members members' : List (Resource ω)}
    (h : members'.map Resource.load = members.map Resource.load) :
    members'.map (·.maxWeight) = members.map (·.maxWeight) := by
  simpa [Resource.load, Function.comp_def] using congrArg (List.map (·.1)) h

theorem totalMaxOf_congr {members members' : List (Resource ω)}
    (h : members'.map (·.maxWeight) = members.map (·.maxWeight)) :
    totalMaxOf members' = totalMaxOf members := by
  rw [totalMaxOf, totalMaxOf, h]

theorem sameMaxOf_eq (members : List (Resource ω)) :
    sameMaxOf members = match members.map (·.maxWeight) with
      | [] => true
      | first :: rest => (first :: rest).all fun x => Scalar.same x first := by
  cases members with
  | nil => rfl
  | cons first rest => simp [sameMaxOf, List.all_map, Function.comp_def]

theorem sameMaxOf_congr {members members' : List (Resource ω)}
    (h : members'.map (·.maxWeight) = members.map (·.maxWeight)) :
    sameMaxOf members' = sameMaxOf members := by
  rw [sameMaxOf_eq, sameMaxOf_eq, h]

theorem measure_congr {members members' : List (Resource ω)}
    (h : members'.map Resource.load = members.map Resource.load) (totalMax : ω) (uniform : Bool)
    (aliasThreshold : Nat) :
    measure members' totalMax uniform aliasThreshold =
      measure members totalMax uniform aliasThreshold := by
  have hcurrent : members'.map (·.current) = members.map (·.current) := by
    simpa [Resource.load, Function.comp_def] using congrArg (List.map (·.2)) h
  have hhealthy : members'.all (·.isHealthy) = members.all (·.isHealthy) := by
    have hall := congrArg (List.all · fun l : ω × ω => decide (l.1 ≤ l.2)) h
    rw [List.all_map, List.all_map] at hall
    exact hall
  have hlength : members'.length = members.length := by
    simpa using congrArg List.length h
  unfold measure
  rw [hcurrent, hhealthy, hlength]

/-- What the group keeps of its members' maxima is right, and its snapshot is fresh. -/
structure Settled (g : Group ω) : Prop where
  totalMax : g.totalMax = totalMaxOf g.members
  uniformMax : g.uniformMax = sameMaxOf g.members
  fresh : g.Fresh

theorem settled_make (priority : Nat) (members : List (Resource ω)) (aliasThreshold : Nat) :
    (make priority members aliasThreshold).Settled := ⟨rfl, rfl, rfl⟩

/-- A group of members with the same loads and everything else alike is settled as well. -/
theorem Settled.congr {g g' : Group ω} (h : g.Settled)
    (hload : g'.members.map Resource.load = g.members.map Resource.load)
    (htotal : g'.totalMax = g.totalMax) (huniform : g'.uniformMax = g.uniformMax)
    (hthreshold : g'.aliasThreshold = g.aliasThreshold) (hsnapshot : g'.snapshot = g.snapshot) :
    g'.Settled where
  totalMax := by rw [htotal, h.totalMax, totalMaxOf_congr (map_maxWeight hload)]
  uniformMax := by rw [huniform, h.uniformMax, sameMaxOf_congr (map_maxWeight hload)]
  fresh := by
    show g'.snapshot = measure _ _ _ _
    rw [measure_congr hload, totalMaxOf_congr (map_maxWeight hload),
      sameMaxOf_congr (map_maxWeight hload), hthreshold, hsnapshot]
    exact h.fresh

/-- A new snapshot is fresh when the maxima are what they were, whatever the old one said. -/
theorem settled_refresh {g : Group ω} (htotal : g.totalMax = totalMaxOf g.members)
    (huniform : g.uniformMax = sameMaxOf g.members) : g.refresh.Settled where
  totalMax := htotal
  uniformMax := huniform
  fresh := by
    show measure g.members g.totalMax g.uniformMax g.aliasThreshold = measure _ _ _ _
    rw [htotal, huniform]
    rfl

end Group

namespace Selector

/-! ## All groups -/

/-- Every group of the selector is settled. -/
def Settled (s : Selector ω) : Prop := ∀ p ∈ s.pools, (groupOf s.states p).Settled

omit [Scalar ω] in
theorem map_statesAt {α : Type} (g : Resource ω → α) (states : List (Resource ω))
    (places : List Nat) :
    (statesAt states places).map g = places.filterMap fun place => (states[place]?).map g := by
  unfold statesAt
  rw [List.map_filterMap]

omit [Scalar ω] in
theorem statesAt_congr {states states' : List (Resource ω)} {places : List Nat}
    (h : ∀ place ∈ places, states'[place]? = states[place]?) :
    statesAt states' places = statesAt states places :=
  List.filterMap_congr h

theorem Settled.turnTo {s : Selector ω} (h : s.Settled) (index : Nat) (cursor : UInt64) :
    (s.turnTo index cursor).Settled := by
  intro p hp
  obtain ⟨i, hi⟩ := List.mem_iff_getElem?.1 hp
  rw [Selector.turnTo, List.getElem?_modify] at hi
  obtain ⟨q, hq, rfl⟩ := Option.map_eq_some_iff.1 hi
  refine (h q (List.mem_of_getElem? hq)).congr ?_ ?_ ?_ ?_ ?_
  all_goals split <;> rfl

omit [Scalar ω] in
/-- What a change of a state does not concern reads the same at all places. -/
theorem map_statesAt_modifyAt {α : Type} (s : Selector ω) (φ : Resource ω → α) {place : Nat}
    {f : Resource ω → Resource ω} (same : ∀ r, s.states[place]? = some r → φ (f r) = φ r)
    (places : List Nat) : (statesAt (s.modifyAt place f).states places).map φ =
      (statesAt s.states places).map φ := by
  rw [map_statesAt, map_statesAt]
  refine List.filterMap_congr fun i _ => ?_
  rw [Selector.modifyAt, List.getElem?_modify]
  cases hr : s.states[i]? with
  | none => rfl
  | some r =>
      rw [Option.map_eq_map, Option.map_some, Option.map_some, Option.map_some]
      split
      · next hi =>
          subst hi
          rw [same r hr]
      · rfl

/-- A change that leaves all weights alone leaves all groups settled. -/
theorem Settled.modifyAt {s : Selector ω} (h : s.Settled) {place : Nat}
    {f : Resource ω → Resource ω} (kept : ∀ r, Resource.Kept r (f r))
    (same : ∀ r, s.states[place]? = some r → (f r).current = r.current) :
    (s.modifyAt place f).Settled := by
  intro p hp
  refine (h p hp).congr (s.map_statesAt_modifyAt Resource.load ?_ p.members) rfl rfl rfl rfl
  intro r hr
  unfold Resource.load
  rw [(kept r).maxWeight, same r hr]

omit [Scalar ω] in
/-- Where priorities ascend, changing the first group of a priority is changing every group of that
priority. -/
theorem modify_findIdx? {pools : List (GroupOf Nat ω)}
    (h : pools.Pairwise fun p q => p.priority < q.priority) (priority : Nat)
    (f : GroupOf Nat ω → GroupOf Nat ω) :
    (match pools.findIdx? fun p => p.priority = priority with
      | some index => pools.modify index f
      | none => pools) = pools.map fun p => if p.priority = priority then f p else p := by
  induction pools with
  | nil => rfl
  | cons p rest ih =>
      obtain ⟨hlt, hrest⟩ := List.pairwise_cons.1 h
      rw [List.findIdx?_cons, List.map_cons]
      by_cases hp : p.priority = priority
      · have hid : (rest.map fun q => if q.priority = priority then f q else q) = rest := by
          refine (List.map_congr_left fun q hq => if_neg ?_).trans (List.map_id rest)
          have := hlt q hq
          omega
        simp [hp, hid]
      · rw [← ih hrest, if_neg hp, if_neg (by simpa using hp)]
        cases rest.findIdx? fun q => q.priority = priority with
        | none => rfl
        | some index => rfl

theorem pools_refreshGroup {s : Selector ω} (h : s.Layout) (priority : Nat) :
    (s.refreshGroup priority).pools =
      s.pools.map fun p => if p.priority = priority then refreshPool s.states p else p := by
  rw [← modify_findIdx? h.ascending]
  unfold refreshGroup
  cases s.pools.findIdx? fun p => p.priority = priority with
  | none => rfl
  | some index => rfl

theorem states_refreshGroup (s : Selector ω) (priority : Nat) :
    (s.refreshGroup priority).states = s.states := by
  unfold refreshGroup
  split
  · rfl
  · rfl

/-- A change of a weight leaves all groups settled once the group of its priority is renewed. -/
theorem Settled.weigh {s : Selector ω} (h : s.Settled) (hlayout : s.Layout) {place : Nat}
    {f : Resource ω → Resource ω} {r : Resource ω} (kept : ∀ r, Resource.Kept r (f r))
    (found : s.states[place]? = some r) :
    ((s.modifyAt place f).refreshGroup r.priority).Settled := by
  intro p hp
  rw [pools_refreshGroup (hlayout.frame (s.frame_modifyAt place kept))] at hp
  rw [states_refreshGroup]
  obtain ⟨q, hq, rfl⟩ := List.mem_map.1 hp
  have hset := h q hq
  have hmax : (statesAt (s.modifyAt place f).states q.members).map (·.maxWeight) =
      (statesAt s.states q.members).map (·.maxWeight) :=
    s.map_statesAt_modifyAt _ (fun t _ => (kept t).maxWeight) q.members
  split
  · refine Group.settled_refresh (g := groupOf _ q) ?_ ?_
    · exact hset.totalMax.trans (Group.totalMaxOf_congr hmax).symm
    · exact hset.uniformMax.trans (Group.sameMaxOf_congr hmax).symm
  · next hpriority =>
      -- no member of another group is the one that changed
      have hstates : statesAt (s.modifyAt place f).states q.members =
          statesAt s.states q.members := by
        refine statesAt_congr fun i hi => ?_
        have hne : place ≠ i := by
          rintro rfl
          exact hpriority (hlayout.priority hq hi found).symm
        exact List.getElem?_modify_ne f s.states hne
      refine hset.congr ?_ rfl rfl rfl rfl
      show (statesAt _ _).map _ = _
      rw [hstates]
      rfl

/-- A registration makes the group that the newcomer joins anew and leaves the others settled. -/
theorem Settled.register {s : Selector ω} (h : s.Settled) (hlayout : s.Layout) (name : String)
    (weight : ω) : (s.register name weight).Settled := by
  intro p hp
  rcases mem_pools_register.1 hp with ⟨hold, -⟩ | rfl
  · have hstates : statesAt (s.register name weight).states p.members =
        statesAt s.states p.members :=
      statesAt_congr fun i hi => List.getElem?_append_left (hlayout.lt_length hold hi)
    refine (h p hold).congr ?_ rfl rfl rfl rfl
    show (statesAt _ _).map _ = _
    rw [hstates]
    rfl
  · exact Group.settled_make 0 _ _

/-- No change leaves a snapshot behind. -/
theorem Change.settled {s t : Selector ω} (h : s.Change t) (hlayout : s.Layout)
    (hsettled : s.Settled) : t.Settled := by
  cases h with
  | idle => exact hsettled
  | turn index cursor => exact hsettled.turnTo index cursor
  | touch place kept same => exact hsettled.modifyAt kept same
  | weigh place kept found => exact hsettled.weigh hlayout kept found

theorem Changes.settled {s t : Selector ω} (h : s.Changes t) (hlayout : s.Layout)
    (hsettled : s.Settled) : t.Settled := by
  suffices t.Layout ∧ t.Settled from this.2
  refine h.induct (P := fun s => s.Layout ∧ s.Settled) ?_ ⟨hlayout, hsettled⟩
  exact fun hchange hs => ⟨hs.1.frame hchange.frame, hchange.settled hs.1 hs.2⟩

end Selector

/-! ## Runs -/

namespace Builder

theorem settled_toSelector (b : Builder ω) (id : Nat) : (b.toSelector id).Settled := by
  intro p hp
  obtain ⟨priority, -, rfl⟩ := List.mem_map.1 hp
  exact Group.settled_make priority _ _

variable [LawfulScalar ω]

theorem Reaches.settled {b : Builder ω} {s : System ω} (h : b.Reaches s) :
    s.selector.Settled := by
  suffices s.selector.Layout ∧ s.selector.Settled from this.2
  refine h.induct (P := fun s => s.Layout ∧ s.Settled) ?_ ?_ ?_
  · exact fun id hvalid => ⟨layout_toSelector (nodup_names hvalid) id, b.settled_toSelector id⟩
  · exact fun hnew _ hs => ⟨hs.1.register _ hnew, hs.2.register hs.1 _ _⟩
  · exact fun hchange hs => ⟨hs.1.frame hchange.frame, hchange.settled hs.1 hs.2⟩

end Builder

/-- The snapshot of every group of every selector is the one that a new group of the same members
would have, weight by weight, and the total of the maxima is their sum in order. -/
theorem snapshot_fresh {b : Builder Float} {s : System Float} (h : b.Reaches s) :
    ∀ g ∈ s.selector.groups, g.Fresh ∧ g.snapshot.weights = g.members.map (·.current) ∧
      g.totalMax = Scalar.sum (g.members.map (·.maxWeight)) := by
  intro g hg
  obtain ⟨p, hp, rfl⟩ := List.mem_map.1 hg
  have hset := h.settled p hp
  refine ⟨hset.fresh, ?_, hset.totalMax⟩
  rw [hset.fresh]
  rfl

/-- So it is after a failed call to a resource and a report that registers another one. -/
theorem snapshot_fresh_pair : ∃ s, Builder.pair.Reaches s ∧
    ∀ g ∈ s.selector.groups, g.Fresh ∧ g.snapshot.weights = g.members.map (·.current) ∧
      g.totalMax = Scalar.sum (g.members.map (·.maxWeight)) := by
  obtain ⟨s, hbuild⟩ := Builder.exists_build Builder.pair_valid (.of_none rfl) 0 { rng := ⟨0⟩ }
  have h := ((Builder.Reaches.built hbuild).step (.call (.report .failure "a"))).step
    (.call (.report .success "c"))
  exact ⟨_, h, snapshot_fresh h⟩

end ResourceSelection
